/-
Building routers. A builder takes routes one by one. It turns away those whose pattern is faulty and,
under the strict policy, those whose place is taken; the routes taken before stay.
-/
import PathRouter.Router
import PathRouter.Settings

namespace PathRouter.Router

/-- A router that still takes routes. -/
structure Builder (α : Type) where
  policy : Duplicates
  tree : Tree .growing α

namespace Builder

variable {α : Type}

/-- A builder without routes. -/
def create (settings : Settings) : Logged (Builder α) := do
  let tree ← Tree.create
  pure ⟨settings.duplicates, tree⟩

/-- Takes the route of a method and a pattern that has been read. -/
def addPattern (b : Builder α) (m : Method) (p : Pattern) (value : α) :
    Logged (Except Rejection (Builder α)) :=
  let inserted := b.tree.insert b.policy m p value
  match inserted.error? with
  | some e => ⟨.error e, inserted.log⟩
  | none => ⟨.ok { b with tree := inserted.state }, inserted.log ++ [.routeAdded m p.text]⟩

/-- Takes the route of a method and a pattern. -/
def add (b : Builder α) (m : Method) (pattern : String) (value : α) :
    Logged (Except Rejection (Builder α)) := do
  match ← Pattern.ofString pattern with
  | .error e => pure (.error e)
  | .ok p => b.addPattern m p value

/-- The router of the routes taken. -/
def build (b : Builder α) : Router α := ⟨b.tree.finalize⟩

end Builder

end PathRouter.Router
