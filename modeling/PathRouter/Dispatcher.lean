/-
Dispatchers: routers whose values are handlers. Requests share a context. When a route is found, the
context is given its parameters and then its handler runs; otherwise the context is left alone, and
the outcome says whether the path resolves for any other method.
-/
import PathRouter.Router

namespace PathRouter

/-- Contexts that can be given the parameters of a route. -/
class TakesParameters (γ : Type) where
  setParameters : Parameters → γ → γ

/-- Acts on the context of a request, and succeeds or fails. -/
abbrev Handler (ε γ : Type) := γ → Except ε Unit × γ

/-- A router of handlers. -/
abbrev Dispatcher (ε γ : Type) := Router (Handler ε γ)

/-- What became of a request whose handler did not fail. -/
inductive Outcome where
  | handled
  /-- The path resolves for no method. -/
  | notFound
  /-- The path resolves for these methods only. -/
  | methodNotAllowed (allow : List Method)
deriving DecidableEq

/-- Hands a request to the handler of its route. The error of a handler is passed on. -/
def Dispatcher.dispatch {ε γ : Type} [TakesParameters γ] (d : Dispatcher ε γ) (m : Method)
    (path : String) (context : γ) : Logged (Except ε Outcome × γ) := do
  match ← d.resolve m path with
  | some found =>
    Logged.write (.dispatching m path)
    let (result, after) := found.value (TakesParameters.setParameters found.parameters context)
    pure (result.map fun _ => .handled, after)
  | none =>
    let allow ← d.allowed path
    if allow.isEmpty then
      Logged.write (.notFound path)
      pure (.ok .notFound, context)
    else
      Logged.write (.notAllowed m path allow)
      pure (.ok (.methodNotAllowed allow), context)

end PathRouter
