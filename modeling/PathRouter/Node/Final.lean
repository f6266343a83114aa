/-
The end of growing. `finalize` makes the tree that is searched of a tree that has grown: every node is
made anew, from the bottom up, with its finalized children collected under their steps; the tables of
terminals are handed over as they are.
-/
import PathRouter.Node.Basic

namespace PathRouter.Node

variable {α : Type}

mutual

/-- The node with the tree below it as it is searched. -/
def finalize : Node .growing α → Node .final α
  | ⟨⟨children⟩, plain, custom⟩ => ⟨.ofList (finalizeAll children), plain, custom⟩

/-- The children of a node as they are searched. -/
def finalizeAll : List (Step × Node .growing α) → List (Step × Node .final α)
  | [] => []
  | (s, c) :: children => (s, c.finalize) :: finalizeAll children

end

theorem finalizeAll_eq_map (children : List (Step × Node .growing α)) :
    finalizeAll children = children.map fun e => (e.1, e.2.finalize) := by
  induction children with
  | nil => rfl
  | cons e children ih => rw [finalizeAll, List.map_cons, ih]

theorem edges_finalize (n : Node .growing α) : n.finalize.edges = n.edges.mapValues finalize := by
  obtain ⟨⟨children⟩, plain, custom⟩ := n
  rw [finalize, finalizeAll_eq_map]
  rfl

@[simp]
theorem plain_finalize (n : Node .growing α) : n.finalize.plain = n.plain := by
  obtain ⟨⟨children⟩, plain, custom⟩ := n
  rfl

@[simp]
theorem custom_finalize (n : Node .growing α) : n.finalize.custom = n.custom := by
  obtain ⟨⟨children⟩, plain, custom⟩ := n
  rfl

@[simp]
theorem terminal?_finalize (n : Node .growing α) (slot : Slot) : n.finalize.terminal? slot = n.terminal? slot := by
  obtain ⟨custom, m⟩ := slot
  cases custom <;> simp [terminal?, table?]

/-- A step leads to the finalized child, if no step leads to two. -/
theorem child?_finalize {n : Node .growing α} (h : n.edges.keys.Nodup) (s : Step) :
    n.finalize.child? s = (n.child? s).map finalize := by
  rw [child?, edges_finalize, Table.get?_mapValues h, child?]

end PathRouter.Node
