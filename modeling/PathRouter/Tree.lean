/-
Route trees: a root node, and the methods that have a route, in the order in which each was first
registered. `insert` adds one route; the tree that it leaves keeps the list of methods in step. When all
routes are in, `finalize` makes the tree that is searched.
-/
import PathRouter.Node.Final
import PathRouter.Node.Update

namespace PathRouter

/-- A tree of routes. -/
structure Tree (φ : Phase) (α : Type) where
  root : Node φ α
  /-- The methods with a route, each once, in order of registration. -/
  methods : List Method

namespace Tree

variable {α : Type}

/-- The tree without routes. -/
def empty : Tree .growing α := ⟨.empty, []⟩

/-- Makes a tree without routes. -/
def create : Logged (Tree .growing α) := ⟨empty, [.treeCreated]⟩

/-- The terminal of a route. -/
def terminalOf (p : Pattern) (value : α) : Terminal α := ⟨value, p.parameterNames, p.text⟩

/-- The slot of a route. -/
def slotOf (m : Method) (p : Pattern) : Slot := ⟨p.customMethod, m⟩

/-- Adds the route of a method and a pattern. -/
def insert (policy : Duplicates) (t : Tree .growing α) (m : Method) (p : Pattern) (value : α) :
    Attempt (Tree .growing α) :=
  let grown := t.root.growAt (Node.occupy policy (slotOf m p) (terminalOf p value)) p.steps
  (grown.map fun root =>
    ⟨root, if grown.error?.isSome || t.methods.contains m then t.methods else t.methods ++ [m]⟩).after
      [.walkingTo p.text]

/-- The tree as it is searched. -/
def finalize (t : Tree .growing α) : Tree .final α := ⟨t.root.finalize, t.methods⟩

/-! ## What an insertion leaves -/

variable {policy : Duplicates} {t : Tree .growing α} {m : Method} {p : Pattern} {value : α}

/-- The tree of nodes grown along the pattern. -/
theorem insert_root :
    (t.insert policy m p value).state.root =
      (t.root.growAt (Node.occupy policy (slotOf m p) (terminalOf p value)) p.steps).state := rfl

/-- The methods stay as they are when the route is turned away. -/
theorem insert_methods_of_error (h : (t.insert policy m p value).error?.isSome = true) :
    (t.insert policy m p value).state.methods = t.methods := by
  simp only [insert, Attempt.map, Attempt.after] at h ⊢
  simp [h]

/-- A method is among those of the tree once a route of it has been taken. -/
theorem mem_insert_methods (h : (t.insert policy m p value).error? = none) {m' : Method} :
    m' ∈ (t.insert policy m p value).state.methods ↔ m' ∈ t.methods ∨ m' = m := by
  simp only [insert, Attempt.map, Attempt.after] at h ⊢
  by_cases hm : m ∈ t.methods
  · have hor : m' = m → m' ∈ t.methods := fun e => e ▸ hm
    simpa [h, hm] using hor
  · simp [h, hm]

end Tree

end PathRouter
