/-
A context that remembers what dispatchers do to it, and handlers that do no more than leave their
name in it.
-/
import PathRouter.Dispatcher

namespace PathRouter

/-- The history of a context. -/
structure Recorder where
  /-- The parameters it was last given. -/
  parameters : Parameters := .empty
  /-- How often it was given parameters. -/
  updates : Nat := 0
  /-- The names of the handlers that ran, the first one first. -/
  calls : List String := []

namespace Recorder

instance : TakesParameters Recorder where
  setParameters parameters r := { r with parameters, updates := r.updates + 1 }

/-- A handler that leaves its name, and then succeeds or fails with the given text. -/
def handler (name : String) (failure? : Option String) : Handler String Recorder := fun r =>
  (match failure? with | none => .ok () | some text => .error text, { r with calls := r.calls ++ [name] })

end Recorder

end PathRouter
