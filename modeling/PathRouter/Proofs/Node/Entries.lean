/-
What a tree holds, entry by entry: `at?` is the terminal in a slot of the node that a path of steps
leads to. Growing a tree by a terminal changes the entry of that path and slot only, and the addition
fails exactly when the policy is strict and the entry is taken.
-/
import PathRouter.Node.Update

namespace PathRouter.Node

variable {φ : Phase} {α : Type}

/-- The terminal in a slot of the node that a path leads to. -/
def at? (n : Node φ α) (path : List Step) (slot : Slot) : Option (Terminal α) :=
  (n.walk? path).bind (·.terminal? slot)

@[simp]
theorem at?_nil (n : Node φ α) (slot : Slot) : n.at? [] slot = n.terminal? slot := rfl

theorem at?_cons (n : Node φ α) (s : Step) (path : List Step) (slot : Slot) :
    n.at? (s :: path) slot = (n.child? s).bind (·.at? path slot) := by
  unfold at?
  rw [walk?_cons, Option.bind_assoc]

@[simp]
theorem at?_empty (path : List Step) (slot : Slot) : (empty : Node .growing α).at? path slot = none := by
  cases path with
  | nil => rw [at?_nil, terminal?_empty]
  | cons s path => rw [at?_cons, child?_empty, Option.bind_none]

/-- A missing child holds what the empty node holds. -/
theorem at?_childOrEmpty (n : Node .growing α) (s : Step) (path : List Step) (slot : Slot) :
    (n.childOrEmpty s).at? path slot = n.at? (s :: path) slot := by
  rw [at?_cons]
  unfold childOrEmpty
  cases n.child? s with
  | none => simp
  | some c => rfl

theorem at?_setChild_cons (n : Node .growing α) (s r : Step) (c : Node .growing α) (path : List Step) (slot : Slot) :
    (n.setChild s c).at? (r :: path) slot = if s = r then c.at? path slot else n.at? (r :: path) slot := by
  rw [at?_cons, child?_setChild]
  split
  · rfl
  · rw [at?_cons]

/-! ## Filling a slot -/

/-- Why a terminal is turned away from a slot that holds `former?`. -/
def refusal (policy : Duplicates) (slot : Slot) (t : Terminal α) : Option (Terminal α) → Option Rejection
  | none => none
  | some former =>
    match policy with
    | .strict => some (.duplicateRoute slot.method t.pattern former.pattern)
    | .lax => none

theorem error?_occupy (policy : Duplicates) (slot : Slot) (t : Terminal α) (n : Node .growing α) :
    (occupy policy slot t n).error? = refusal policy slot t (n.terminal? slot) := by
  simp only [occupy, refusal, terminal?_openTable]
  cases n.terminal? slot with
  | none => rfl
  | some former => cases policy <;> rfl

/-- A terminal that is turned away leaves the node as it was, since the table of a taken slot is there. -/
theorem state_occupy (policy : Duplicates) (slot : Slot) (t : Terminal α) (n : Node .growing α) :
    (occupy policy slot t n).state =
      if (occupy policy slot t n).error? = none then n.setTerminal slot t else n := by
  rw [error?_occupy]
  simp only [occupy, refusal, terminal?_openTable, setTerminal_openTable]
  cases h : n.terminal? slot with
  | none => rfl
  | some former =>
    cases policy with
    | strict => exact openTable_of_terminal? h
    | lax => rfl

/-! ## Growing by a terminal -/

/-- An addition fails when the entry of its path and slot is refused. -/
theorem error?_growAt_occupy (policy : Duplicates) (slot : Slot) (t : Terminal α) :
    ∀ (path : List Step) (n : Node .growing α),
      (growAt (occupy policy slot t) path n).error? = refusal policy slot t (n.at? path slot)
  | [], n => error?_occupy policy slot t n
  | s :: path, n => by
    rw [growAt_cons, ← at?_childOrEmpty, ← error?_growAt_occupy policy slot t path]
    rfl

/-- An addition that succeeds puts the terminal at its entry; no addition changes another entry. -/
theorem at?_growAt_occupy (policy : Duplicates) (slot : Slot) (t : Terminal α) (slot' : Slot) :
    ∀ (path : List Step) (n : Node .growing α) (path' : List Step),
      (growAt (occupy policy slot t) path n).state.at? path' slot' =
        if (growAt (occupy policy slot t) path n).error? = none ∧ path = path' ∧ slot = slot' then some t
        else n.at? path' slot'
  | [], n, path' => by
    rw [growAt_nil, state_occupy]
    cases path' with
    | nil => by_cases he : (occupy policy slot t n).error? = none <;> simp [he, terminal?_setTerminal]
    | cons r path' => by_cases he : (occupy policy slot t n).error? = none <;> simp [he, at?_cons]
  | s :: path, n, [] => by
    rw [growAt_cons]
    simp [Attempt.map, Attempt.after]
  | s :: path, n, r :: path' => by
    have ih := at?_growAt_occupy policy slot t slot' path (n.childOrEmpty s) path'
    have herr : (growAt (occupy policy slot t) (s :: path) n).error? =
        (growAt (occupy policy slot t) path (n.childOrEmpty s)).error? := rfl
    rw [herr]
    show ((n.setChild s (growAt (occupy policy slot t) path (n.childOrEmpty s)).state).at? (r :: path') slot') = _
    rw [at?_setChild_cons]
    by_cases hsr : s = r
    · subst hsr
      rw [if_pos rfl, ih, at?_childOrEmpty]
      simp
    · simp [hsr]

/-- An addition that fails leaves the tree as it was. -/
theorem state_growAt_occupy_of_error (policy : Duplicates) (slot : Slot) (t : Terminal α) :
    ∀ (path : List Step) (n : Node .growing α), (growAt (occupy policy slot t) path n).error? ≠ none →
      (growAt (occupy policy slot t) path n).state = n
  | [], n, h => by
    rw [growAt_nil] at h ⊢
    rw [state_occupy, if_neg h]
  | s :: path, n, h => by
    cases hc : n.child? s with
    | none =>
      -- below a missing child no entry is taken
      rw [error?_growAt_occupy, at?_cons, hc] at h
      exact absurd rfl h
    | some c =>
      have hchild := childOrEmpty_of_child? hc
      rw [growAt_cons, hchild] at h ⊢
      show n.setChild s (growAt (occupy policy slot t) path c).state = n
      rw [state_growAt_occupy_of_error policy slot t path c h, setChild_of_child? hc]

end PathRouter.Node
