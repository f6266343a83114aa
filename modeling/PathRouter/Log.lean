/-
Log records and computations that write them. A record is kept as what happened, with its level and
its text as functions of it. `Logged` pairs a value with the records written on the way to it, oldest
first, and sequencing concatenates the records.
-/
import PathRouter.Method
import PathRouter.Pattern.Basic

namespace PathRouter

/-- How much a log record matters. -/
inductive Level where
  | trace
  | debug
  | warn
deriving DecidableEq, Repr

namespace Level

/-- The name of a level as logs show it. -/
def name : Level → String
  | trace => "TRACE"
  | debug => "DEBUG"
  | warn => "WARN"

end Level

/-- One thing worth a line in the log. -/
inductive Record where
  /-- An empty tree was made. -/
  | treeCreated
  /-- A text is about to be read as a pattern. -/
  | parsing (text : String)
  /-- The nodes of a pattern are about to be walked or made. -/
  | walkingTo (pattern : String)
  /-- A node had no child for the step, and was given one. -/
  | childAdded (step : Step)
  /-- A terminal is about to take the slot of another one. -/
  | terminalReplaced (method : Method) (pattern former : String)
  | terminalAdded (method : Method) (pattern : String)
  | routeAdded (method : Method) (pattern : String)
  | traversalStarted
  /-- The search went to the literal child for the segment. -/
  | literalFound (segment : String)
  /-- The search went to the parameter child and bound the segment. -/
  | parameterBound (segment : String)
  /-- No child is left to try for the segment. -/
  | exhausted (segment : String)
  /-- The final segment leads to no terminal. -/
  | finalMissed (segment : String)
  /-- The final segment is a literal followed by the custom method. -/
  | customOnLiteral (customMethod : String)
  /-- The final segment is a parameter value followed by the custom method. -/
  | customOnParameter (customMethod : String)
  | terminalFound (pattern : String)
  | decoded (value raw : String)
  | unresolved (method : Method) (path : String)
  | resolved (method : Method) (path pattern : String)
  /-- The methods for which the path resolves, in registration order. -/
  | allows (path : String) (methods : List Method)
  | dispatching (method : Method) (path : String)
  | notFound (path : String)
  | notAllowed (method : Method) (path : String) (allow : List Method)
deriving DecidableEq

namespace Record

def level : Record → Level
  | routeAdded .. | unresolved .. | resolved .. | notFound .. | notAllowed .. => .debug
  | terminalReplaced .. => .warn
  | _ => .trace

/-- The line a record is shown as. Records of inner steps begin with a blank. -/
def message : Record → String
  | treeCreated => " creating new tree"
  | parsing text => s!" parsing pattern `{text}`"
  | walkingTo pattern => s!"[walking to: {pattern}]"
  | childAdded (.literal text) => s!" adding literal child `{text}`"
  | childAdded .parameter => " adding parameter child"
  | terminalReplaced m pattern former => s!"{m.text} route `{pattern}` replaces duplicate `{former}`"
  | terminalAdded m pattern => s!" adding {m.text} terminal for `{pattern}`"
  | routeAdded m pattern => s!"added {m.text} route `{pattern}`"
  | traversalStarted => " starting tree traversal"
  | literalFound segment => s!" found literal node `{segment}`"
  | parameterBound segment => s!" binding `{segment}` to parameter node"
  | exhausted segment => s!" exhausted candidates for `{segment}`, backtracking"
  | finalMissed segment => s!" no terminal for final segment `{segment}`, backtracking"
  | customOnLiteral custom => s!" matched custom method `{custom}` on literal"
  | customOnParameter custom => s!" matched custom method `{custom}` on parameter"
  | terminalFound pattern => s!" found terminal for `{pattern}`"
  | decoded value raw => s!" percent_decode: {value}, src: {raw}"
  | unresolved m path => s!"no {m.text} route for `{path}`"
  | resolved m path pattern => s!"{m.text} `{path}` resolved to `{pattern}`"
  | allows path methods => s!" `{path}` allows {Method.listText methods}"
  | dispatching m path => s!" dispatching {m.text} `{path}`"
  | notFound path => s!"no handler for `{path}`"
  | notAllowed m path allow => s!"{m.text} not allowed for `{path}`, allow: {Method.listText allow}"

end Record

/-- A value together with the records written on the way to it, oldest first. -/
structure Logged (α : Type) where
  value : α
  log : List Record

namespace Logged

variable {α β : Type}

@[ext]
theorem ext {x y : Logged α} (hv : x.value = y.value) (hl : x.log = y.log) : x = y := by
  cases x; cases y; cases hv; cases hl; rfl

instance : Monad Logged where
  pure a := ⟨a, []⟩
  bind x f := ⟨(f x.value).value, x.log ++ (f x.value).log⟩

/-- Writes one record. -/
def write (r : Record) : Logged Unit := ⟨(), [r]⟩

@[simp]
theorem value_bind (x : Logged α) (f : α → Logged β) : (x >>= f).value = (f x.value).value := rfl

instance : LawfulMonad Logged :=
  .mk' Logged (fun _ => Logged.ext rfl (List.append_nil _)) (fun _ _ => Logged.ext rfl rfl)
    (fun _ _ _ => Logged.ext rfl (List.append_assoc ..))

end Logged

end PathRouter
