/-
Trees of nodes under any run of operations. An operation walks a path, which makes the nodes that are
missing, and may put a terminal into a slot at its end. Whatever is done to the empty node, a path then
leads to a node exactly when a walked path begins with it (`isSome_walk?_runAll`), and every slot of a
node holds the last terminal that was put there (`at?_runAll`). Operations keep the tables maps
(`everywhere_distinctKeys_runAll`), so both are still true of the finalized tree: it is a finite map.
-/
import PathRouter.Proofs.Node.Maps

namespace PathRouter.Node

variable {α : Type}

/-- A terminal on its way into a slot, and what to do where the slot is taken. -/
structure Filling (α : Type) where
  policy : Duplicates
  slot : Slot
  terminal : Terminal α

/-- An operation on a tree of nodes. -/
structure Operation (α : Type) where
  /-- The path to be walked. -/
  path : List Step
  /-- What is to be put at its end, if anything is. -/
  filling? : Option (Filling α)

namespace Operation

/-- Does an operation to a tree. What it walks stays, also when it fails. -/
def run (o : Operation α) (n : Node .growing α) : Attempt (Node .growing α) :=
  match o.filling? with
  | none => n.grow o.path
  | some f => n.growAt (occupy f.policy f.slot f.terminal) o.path

/-- The terminal that an operation is to put into a slot of the node that a path leads to. -/
def terminalAt? (path : List Step) (slot : Slot) (o : Operation α) : Option (Terminal α) :=
  o.filling?.bind fun f => if o.path = path ∧ f.slot = slot then some f.terminal else none

end Operation

/-- The tree after each operation of a list, whether it succeeds or fails. -/
def runAll (n : Node .growing α) (ops : List (Operation α)) : Node .growing α :=
  ops.foldl (fun n o => (o.run n).state) n

/-- The operations of a list that succeed, one after another. -/
def succeeding (n : Node .growing α) : List (Operation α) → List (Operation α)
  | [] => []
  | o :: ops =>
    if (o.run n).error? = none then o :: succeeding (o.run n).state ops else succeeding (o.run n).state ops

/-! ## Which nodes there are -/

/-- The empty tree has no node but its root. -/
theorem isSome_walk?_empty_iff {path : List Step} :
    (walk? path (empty : Node .growing α)).isSome = true ↔ path = [] := by
  cases path with
  | nil => simp
  | cons s path => simp [walk?_cons]

/-- A terminal makes no node. -/
theorem isSome_walk?_occupy (policy : Duplicates) (slot : Slot) (t : Terminal α) (n : Node .growing α)
    (path : List Step) :
    (walk? path (occupy policy slot t n).state).isSome = (walk? path n).isSome := by
  rw [state_occupy]
  split
  · cases path with
    | nil => rfl
    | cons s path => rw [walk?_cons, walk?_cons, child?_setTerminal]
  · rfl

/-- Growing makes the nodes on the way, and no others. -/
theorem isSome_walk?_growAt {op : Node .growing α → Attempt (Node .growing α)}
    (hop : ∀ n path, (walk? path (op n).state).isSome = (walk? path n).isSome) :
    ∀ (path : List Step) (n : Node .growing α) (probe : List Step),
      (walk? probe (growAt op path n).state).isSome = true ↔ (walk? probe n).isSome = true ∨ probe <+: path
  | [], n, probe => by
    rw [growAt_nil, hop, List.prefix_nil]
    constructor
    · exact .inl
    · rintro (h | rfl)
      · exact h
      · rfl
  | s :: path, n, [] => by simp
  | s :: path, n, r :: probe => by
    have ih := isSome_walk?_growAt hop path (n.childOrEmpty s) probe
    rw [growAt_cons, walk?_cons]
    show (((n.setChild s (growAt op path (n.childOrEmpty s)).state).child? r).bind (walk? probe)).isSome = true ↔ _
    rw [child?_setChild, walk?_cons, List.cons_prefix_cons]
    by_cases hsr : s = r
    · subst hsr
      rw [if_pos rfl, Option.bind_some, ih]
      cases hc : n.child? s with
      | some c => simp [childOrEmpty_of_child? hc]
      | none =>
        -- of the node that is made only the path to itself leads to one
        have hroot : probe = [] → probe <+: path := fun h => h ▸ List.nil_prefix
        simpa [childOrEmpty, hc, isSome_walk?_empty_iff] using hroot
    · simp [hsr, Ne.symm hsr]

theorem Operation.isSome_walk?_run (o : Operation α) (n : Node .growing α) (probe : List Step) :
    (walk? probe (o.run n).state).isSome = true ↔ (walk? probe n).isSome = true ∨ probe <+: o.path := by
  unfold run
  cases o.filling? with
  | none => exact isSome_walk?_growAt (fun _ _ => rfl) o.path n probe
  | some f => exact isSome_walk?_growAt (isSome_walk?_occupy f.policy f.slot f.terminal) o.path n probe

/-- A path leads to a node when it did before, or when a walked path begins with it. -/
theorem isSome_walk?_runAll (probe : List Step) :
    ∀ (ops : List (Operation α)) (n : Node .growing α),
      (walk? probe (n.runAll ops)).isSome = true ↔
        (walk? probe n).isSome = true ∨ ∃ o ∈ ops, probe <+: o.path
  | [], n => by simp [runAll]
  | o :: ops, n => by
    show (walk? probe ((o.run n).state.runAll ops)).isSome = true ↔ _
    rw [isSome_walk?_runAll probe ops, o.isSome_walk?_run]
    simp only [List.mem_cons, exists_eq_or_imp, or_assoc]

/-! ## What the slots hold -/

theorem error?_grow : ∀ (path : List Step) (n : Node .growing α), (n.grow path).error? = none
  | [], _ => rfl
  | s :: path, n => error?_grow path (n.childOrEmpty s)

/-- A walk changes no entry. -/
theorem at?_grow (slot : Slot) :
    ∀ (path : List Step) (n : Node .growing α) (probe : List Step),
      (n.grow path).state.at? probe slot = n.at? probe slot
  | [], _, _ => rfl
  | s :: path, n, [] => by
    show (n.setChild s ((n.childOrEmpty s).grow path).state).at? [] slot = _
    rw [at?_nil, at?_nil, terminal?_setChild]
  | s :: path, n, r :: probe => by
    show (n.setChild s ((n.childOrEmpty s).grow path).state).at? (r :: probe) slot = _
    rw [at?_setChild_cons]
    split
    · next hsr => rw [at?_grow slot path, at?_childOrEmpty, hsr]
    · rfl

namespace Operation

/-- A terminal is turned away when the policy is strict and its slot is taken. -/
theorem error?_run_fill (path : List Step) (f : Filling α) (n : Node .growing α) :
    (run ⟨path, some f⟩ n).error? =
      if f.policy = .strict then
        (n.at? path f.slot).map fun stored =>
          .duplicateRoute f.slot.method f.terminal.pattern stored.pattern
      else none := by
  show (growAt (occupy f.policy f.slot f.terminal) path n).error? = _
  rw [error?_growAt_occupy]
  cases n.at? path f.slot with
  | none => simp [refusal]
  | some stored => cases f.policy <;> simp [refusal]

/-- A terminal that is not turned away is then in its slot, and no other slot is changed. -/
theorem at?_run_fill (walked : List Step) (f : Filling α) (n : Node .growing α) (path : List Step) (slot : Slot) :
    (run ⟨walked, some f⟩ n).state.at? path slot =
      if (run ⟨walked, some f⟩ n).error? = none ∧ walked = path ∧ f.slot = slot then some f.terminal
      else n.at? path slot :=
  at?_growAt_occupy f.policy f.slot f.terminal slot walked n path

theorem at?_run (o : Operation α) (n : Node .growing α) (path : List Step) (slot : Slot) :
    (o.run n).state.at? path slot =
      if (o.run n).error? = none then (o.terminalAt? path slot).or (n.at? path slot) else n.at? path slot := by
  obtain ⟨walked, filling?⟩ := o
  cases filling? with
  | none =>
    have hok : (run ⟨walked, none⟩ n).error? = none := error?_grow walked n
    rw [if_pos hok]
    exact at?_grow slot walked n path
  | some f =>
    rw [at?_run_fill]
    by_cases herr : (run ⟨walked, some f⟩ n).error? = none
    · by_cases hkey : walked = path ∧ f.slot = slot <;> simp [herr, hkey, terminalAt?]
    · simp [herr]

end Operation

/-- A slot holds the last terminal that was put there, or else what it held before. -/
theorem at?_runAll (path : List Step) (slot : Slot) :
    ∀ (ops : List (Operation α)) (n : Node .growing α),
      (n.runAll ops).at? path slot =
        (((n.succeeding ops).filterMap (Operation.terminalAt? path slot)).getLast?).or (n.at? path slot)
  | [], _ => rfl
  | o :: ops, n => by
    show ((o.run n).state.runAll ops).at? path slot = _
    rw [at?_runAll path slot ops, o.at?_run, succeeding]
    by_cases herr : (o.run n).error? = none
    · rw [if_pos herr, if_pos herr]
      cases ht : o.terminalAt? path slot with
      | none => simp [ht]
      | some t => cases h : (((o.run n).state.succeeding ops).filterMap (Operation.terminalAt? path slot)).getLast? <;>
          simp [ht, h, List.getLast?_cons]
    · rw [if_neg herr, if_neg herr]

/-! ## What is found in the end -/

theorem Operation.everywhere_distinctKeys_run (o : Operation α) {n : Node .growing α}
    (h : Everywhere DistinctKeys n) : Everywhere DistinctKeys (o.run n).state := by
  unfold run
  cases o.filling? with
  | none => exact everywhere_distinctKeys_grow o.path h
  | some f => exact everywhere_distinctKeys_growAt_occupy f.policy f.slot f.terminal o.path h

theorem everywhere_distinctKeys_runAll (ops : List (Operation α)) {n : Node .growing α}
    (h : Everywhere DistinctKeys n) : Everywhere DistinctKeys (n.runAll ops) :=
  List.foldlRecOn ops _ h fun _ h o _ => o.everywhere_distinctKeys_run h

/-- Whatever operations have been done to the empty node, a path leads to a node of the finalized tree exactly
when it is empty or a walked path begins with it, and a slot holds the last terminal that was put there by an
operation that succeeded, in the finalized tree as before. A further operation fails exactly when it is to put
a terminal into a taken slot under the strict policy, and names the method, its own pattern and the stored
one. A tree that is finalized after it differs in the entry of its path and slot only, which is the new
terminal if it was put there. An empty custom method is not the same as none, nor a literal step, however it
is written, the same as a parameter. -/
theorem walk?_and_at?_runAll_empty (ops : List (Operation α)) :
    let n := (empty : Node .growing α).runAll ops
    let stored := fun path slot => ((empty.succeeding ops).filterMap (Operation.terminalAt? path slot)).getLast?
    (∀ path, (n.finalize.walk? path).isSome = true ↔ path = [] ∨ ∃ o ∈ ops, path <+: o.path) ∧
    (∀ path slot, n.at? path slot = stored path slot ∧ n.finalize.at? path slot = stored path slot) ∧
    (∀ path, (Operation.run ⟨path, none⟩ n).error? = none) ∧
    (∀ path f, (Operation.run ⟨path, some f⟩ n).error? =
      if f.policy = .strict then
        (stored path f.slot).map fun former =>
          .duplicateRoute f.slot.method f.terminal.pattern former.pattern
      else none) ∧
    (∀ walked path slot,
      (Operation.run ⟨walked, none⟩ n).state.finalize.at? path slot = n.finalize.at? path slot) ∧
    (∀ walked f path slot, (Operation.run ⟨walked, some f⟩ n).state.finalize.at? path slot =
      if (Operation.run ⟨walked, some f⟩ n).error? = none ∧ walked = path ∧ f.slot = slot then some f.terminal
      else n.finalize.at? path slot) ∧
    (∀ m, (⟨none, m⟩ : Slot) ≠ ⟨some "", m⟩) ∧ ∀ text, Step.literal text ≠ .parameter := by
  intro n stored
  have hmaps : Everywhere DistinctKeys n := everywhere_distinctKeys_runAll ops everywhere_distinctKeys_empty
  have hstored (path : List Step) (slot : Slot) : n.at? path slot = stored path slot := by
    rw [at?_runAll, at?_empty, Option.or_none]
  refine ⟨fun path => ?_, fun path slot => ?_, fun path => error?_grow path n, fun path f => ?_,
    fun walked path slot => ?_, fun walked f path slot => ?_, by simp, by simp⟩
  · rw [walk?_finalize path hmaps, Option.isSome_map, isSome_walk?_runAll, isSome_walk?_empty_iff]
  · rw [at?_finalize hmaps]
    exact ⟨hstored path slot, hstored path slot⟩
  · rw [Operation.error?_run_fill, hstored]
  · rw [at?_finalize (Operation.everywhere_distinctKeys_run _ hmaps), at?_finalize hmaps]
    exact at?_grow slot walked n path
  · rw [at?_finalize (Operation.everywhere_distinctKeys_run _ hmaps), at?_finalize hmaps]
    exact Operation.at?_run_fill walked f n path slot

example :
    let get : Method := ⟨"GET", by decide⟩
    let post : Method := ⟨"POST", by decide⟩
    let path : List Step := [.literal "seg2", .parameter]
    let fill (custom : String) (m : Method) (value : Nat) : Operation Nat :=
      ⟨path, some ⟨.strict, ⟨some custom, m⟩, ⟨value, ["id"], "seg2/{id}"⟩⟩⟩
    let n := (empty.runAll
      [fill ":copy" post 12, fill ":copy" get 20, fill ":copy" get 21, fill ":purge" post 11]).finalize
    let found (custom : String) (m : Method) := (n.at? path ⟨some custom, m⟩).map Terminal.value
    (found ":copy" post, found ":copy" get, found ":purge" post, found ":purge" get) =
      (some 12, some 20, some 11, none) := by
  rfl

end PathRouter.Node
