/-
What the records of a run of insertions say about the tree. An insertion is recorded by its walk, by the
nodes that it makes, by the terminal that it takes the place of, if there is one, and by its own terminal;
one that fails is recorded by its walk only (`log_insert`). So the records of a run account for every node
and every terminal that is in the tree after it, and finalizing the tree changes neither number.
-/
import PathRouter.Proofs.Node.Totals
import PathRouter.Proofs.Tree.Insertions

namespace PathRouter

variable {α : Type}

namespace Record

/-- Whether a node was made. -/
def isChildAdded : Record → Bool
  | childAdded _ => true
  | _ => false

/-- Whether a route was given a terminal. -/
def isTerminalAdded : Record → Bool
  | terminalAdded .. => true
  | _ => false

/-- Whether the record is a warning. -/
def isWarning (r : Record) : Bool := r.level == .warn

end Record

namespace Tree

/-- The insertions of a list of routes, one after another. -/
def attempts (policy : Duplicates) : Tree .growing α → List (Route α) → List (Attempt (Tree .growing α))
  | _, [] => []
  | t, r :: routes =>
    let inserted := t.insert policy r.method r.pattern r.value
    inserted :: inserted.state.attempts policy routes

/-! ## One insertion -/

section Insert

variable (policy : Duplicates) (t : Tree .growing α) (m : Method) (p : Pattern) (v : α)

theorem log_insert :
    (t.insert policy m p v).log = .walkingTo p.text :: ((t.root.grow p.steps).log ++
      if (t.insert policy m p v).error? = none then
        ((t.at? ⟨m, p.steps, p.customMethod⟩).map fun former => .terminalReplaced m p.text former.pattern).toList ++
          [.terminalAdded m p.text]
      else []) := by
  show .walkingTo p.text :: (t.root.growAt _ p.steps).log = _
  rw [Node.log_growAt, Node.log_occupy, ← Node.error?_growAt, Node.terminal?_nodeAt]
  rfl

/-- An insertion that fails is recorded by its walk only. -/
theorem log_insert_of_error (h : (t.insert policy m p v).error? ≠ none) :
    (t.insert policy m p v).log = [.walkingTo p.text] := by
  rw [log_insert, if_neg h, Node.log_grow_of_error policy _ _ h]
  rfl

/-- Nodes are made as many as are recorded. -/
theorem countP_isChildAdded_log_insert :
    (t.insert policy m p v).state.root.nodes =
      t.root.nodes + (t.insert policy m p v).log.countP Record.isChildAdded := by
  have hwalk : (t.root.grow p.steps).log.countP Record.isChildAdded = (t.root.grow p.steps).log.length := by
    refine List.countP_eq_length.2 fun r hr => ?_
    obtain ⟨s, rfl⟩ := Node.exists_of_mem_log_grow hr
    rfl
  rw [insert_root, Node.nodes_growAt_occupy, log_insert, List.countP_cons, List.countP_append, hwalk]
  cases t.at? ⟨m, p.steps, p.customMethod⟩ <;> split <;> simp [Record.isChildAdded]

/-- The walk of an insertion has none of the records of terminals. -/
theorem filter_log_grow_eq_nil {f : Record → Bool} (hf : ∀ s, f (.childAdded s) = false) :
    (t.root.grow p.steps).log.filter f = [] := by
  refine List.filter_eq_nil_iff.2 fun r hr => ?_
  obtain ⟨s, rfl⟩ := Node.exists_of_mem_log_grow hr
  rw [hf]
  exact Bool.false_ne_true

/-- A terminal is recorded once if it is taken. -/
theorem filter_isTerminalAdded_log_insert :
    (t.insert policy m p v).log.filter Record.isTerminalAdded =
      if (t.insert policy m p v).error? = none then [.terminalAdded m p.text] else [] := by
  rw [log_insert, List.filter_cons_of_neg (by simp [Record.isTerminalAdded]), List.filter_append,
    filter_log_grow_eq_nil t p fun _ => rfl, List.nil_append]
  cases t.at? ⟨m, p.steps, p.customMethod⟩ <;> split <;> simp [Record.isTerminalAdded]

theorem countP_isTerminalAdded_log_insert :
    (t.insert policy m p v).log.countP Record.isTerminalAdded =
      if (t.insert policy m p v).error?.isNone then 1 else 0 := by
  rw [List.countP_eq_length_filter, filter_isTerminalAdded_log_insert]
  simp only [Option.isNone_iff_eq_none]
  split <;> rfl

/-- A warning stands for a terminal that is lost. -/
theorem countP_isWarning_log_insert :
    (t.insert policy m p v).log.countP Record.isWarning + (t.insert policy m p v).state.root.terminals =
      t.root.terminals + if (t.insert policy m p v).error?.isNone then 1 else 0 := by
  by_cases h : (t.insert policy m p v).error? = none
  · have hterminals := Node.terminals_growAt_occupy policy (slotOf m p) (terminalOf p v) h
    have hwalk : (t.root.grow p.steps).log.countP Record.isWarning = 0 := by
      rw [List.countP_eq_length_filter, filter_log_grow_eq_nil t p fun _ => rfl, List.length_nil]
    have hat : t.root.at? p.steps (slotOf m p) = t.at? ⟨m, p.steps, p.customMethod⟩ := rfl
    rw [log_insert, if_pos h, if_pos (Option.isNone_iff_eq_none.2 h), List.countP_cons, List.countP_append, hwalk,
      insert_root]
    rw [hat] at hterminals
    cases hformer : t.at? ⟨m, p.steps, p.customMethod⟩ with
    | none =>
      rw [hformer] at hterminals
      simpa [Record.isWarning, Record.level] using hterminals
    | some former =>
      rw [hformer, Option.elim_some] at hterminals
      rw [← hterminals]
      simp [Record.isWarning, Record.level, Nat.add_comm]
  · rw [log_insert_of_error policy t m p v h, state_insert_of_error h]
    simp [h, Record.isWarning, Record.level]

/-- A warning names the new pattern and the one that was in its slot just before. -/
theorem eq_terminalReplaced_of_mem_log_insert {w : Record} (hw : w ∈ (t.insert policy m p v).log)
    (hlevel : w.level = .warn) :
    ∃ former, t.at? ⟨m, p.steps, p.customMethod⟩ = some former ∧
      w = .terminalReplaced m p.text former.pattern := by
  rw [log_insert, List.mem_cons, List.mem_append] at hw
  rcases hw with rfl | hw | hw
  · cases hlevel
  · obtain ⟨s, rfl⟩ := Node.exists_of_mem_log_grow hw
    cases hlevel
  · split at hw
    · cases hformer : t.at? ⟨m, p.steps, p.customMethod⟩ with
      | none =>
        rw [hformer] at hw
        cases List.mem_singleton.1 hw
        cases hlevel
      | some former =>
        rw [hformer] at hw
        rcases List.mem_cons.1 hw with rfl | hw
        · exact ⟨former, rfl, rfl⟩
        · cases List.mem_singleton.1 hw
          cases hlevel
    · exact absurd hw List.not_mem_nil

/-- Under the strict policy no terminal is replaced. -/
theorem level_ne_warn_of_strict {w : Record} (hw : w ∈ (t.insert .strict m p v).log) : w.level ≠ .warn := by
  intro hlevel
  obtain ⟨former, hformer, rfl⟩ := eq_terminalReplaced_of_mem_log_insert .strict t m p v hw hlevel
  have herror : (t.insert .strict m p v).error? ≠ none := by
    rw [error?_insert, hformer]
    exact Option.some_ne_none _
  rw [log_insert_of_error _ t m p v herror] at hw
  cases List.mem_singleton.1 hw

end Insert

/-! ## Runs -/

section Runs

variable {policy : Duplicates}

/-- Each insertion of a run is one into the tree that those before it left. -/
theorem getElem?_attempts :
    ∀ (routes : List (Route α)) (t : Tree .growing α) (i : Nat),
      (t.attempts policy routes)[i]? =
        routes[i]?.map fun r => (t.insertAll policy (routes.take i)).insert policy r.method r.pattern r.value
  | [], _, _ => rfl
  | _ :: _, _, 0 => rfl
  | r :: routes, t, i + 1 => getElem?_attempts routes (t.insert policy r.method r.pattern r.value).state i

/-- The records of a run account for what the tree has gained. -/
theorem account_attempts (policy : Duplicates) (routes : List (Route α)) : ∀ t : Tree .growing α,
    let attempts := t.attempts policy routes
    let records := attempts.flatMap Attempt.log
    let tree := t.insertAll policy routes
    tree.root.nodes = t.root.nodes + records.countP Record.isChildAdded ∧
      records.countP Record.isTerminalAdded = attempts.countP (·.error?.isNone) ∧
      records.countP Record.isWarning + tree.root.terminals =
        t.root.terminals + attempts.countP (·.error?.isNone) := by
  induction routes with
  | nil => exact fun t => ⟨rfl, rfl, (Nat.zero_add _).trans (Nat.add_zero _).symm⟩
  | cons r routes ih =>
    intro t
    obtain ⟨hnodes, hadded, hwarnings⟩ := ih (t.insert policy r.method r.pattern r.value).state
    have hnodes' := countP_isChildAdded_log_insert policy t r.method r.pattern r.value
    have hadded' := countP_isTerminalAdded_log_insert policy t r.method r.pattern r.value
    have hwarnings' := countP_isWarning_log_insert policy t r.method r.pattern r.value
    simp only [attempts, insertAll_cons, List.flatMap_cons, List.countP_append, List.countP_cons]
    exact ⟨by omega, by omega, by omega⟩

end Runs

/-- The records of any run of insertions into an empty tree account for the finalized tree: one for each
node but the root, one for each insertion that succeeds, and a warning for each of these whose terminal is
not in the tree any more. No table of the tree has a key twice, so what is counted are its nodes and
terminals. A warning names the new pattern and the one that was in the slot just before, and there is none
under the strict policy. An insertion that succeeds records its own terminal once, and one that fails is
recorded by its walk only. -/
theorem attempts_account_for_tree (policy : Duplicates) (routes : List (Route α)) :
    let attempts := (empty : Tree .growing α).attempts policy routes
    let records := attempts.flatMap Attempt.log
    let tree := ((empty : Tree .growing α).insertAll policy routes).finalize
    let taken := attempts.countP fun inserted => inserted.error?.isNone
    records.countP Record.isChildAdded + 1 = tree.root.nodes ∧
      records.countP Record.isTerminalAdded = taken ∧
      records.countP Record.isWarning + tree.root.terminals = taken ∧
      tree.root.Everywhere Node.DistinctKeys ∧
      (policy = .strict → ∀ w ∈ records, w.level ≠ .warn) ∧
      ∀ i r, routes[i]? = some r →
        let before := (empty : Tree .growing α).insertAll policy (routes.take i)
        let inserted := before.insert policy r.method r.pattern r.value
        attempts[i]? = some inserted ∧
          (∀ w ∈ inserted.log, w.level = .warn → ∃ former, before.at? r.key = some former ∧
            w = .terminalReplaced r.method r.pattern.text former.pattern) ∧
          (inserted.error? = none →
            inserted.log.filter Record.isTerminalAdded = [.terminalAdded r.method r.pattern.text]) ∧
          (inserted.error? ≠ none → inserted.log = [.walkingTo r.pattern.text]) := by
  intro attempts records tree taken
  obtain ⟨hnodes, hadded, hwarnings⟩ := account_attempts policy routes (empty : Tree .growing α)
  have hroot : (empty : Tree .growing α).root.nodes = 1 ∧ (empty : Tree .growing α).root.terminals = 0 :=
    ⟨rfl, rfl⟩
  have hmaps := everywhere_distinctKeys_insertAll_empty policy routes
  have hfinal : tree.root.nodes = _ ∧ tree.root.terminals = _ :=
    ⟨Node.nodes_finalize hmaps, Node.terminals_finalize hmaps⟩
  have hinsert (i : Nat) : attempts[i]? = routes[i]?.map fun r =>
      ((empty : Tree .growing α).insertAll policy (routes.take i)).insert policy r.method r.pattern r.value :=
    getElem?_attempts routes empty i
  refine ⟨?_, hadded, ?_, Node.everywhere_distinctKeys_finalize hmaps, ?_, fun i r hr => ?_⟩
  · rw [hfinal.1, hnodes, hroot.1]
    exact Nat.add_comm _ 1
  · rw [hfinal.2]
    exact hwarnings.trans (by rw [hroot.2, Nat.zero_add])
  · rintro rfl w hw
    obtain ⟨a, ha, hw⟩ := List.mem_flatMap.1 hw
    obtain ⟨i, hi⟩ := List.getElem?_of_mem ha
    rw [hinsert] at hi
    obtain ⟨r, -, rfl⟩ := Option.map_eq_some_iff.1 hi
    exact level_ne_warn_of_strict _ _ _ _ hw
  · intro before inserted
    refine ⟨by rw [hinsert, hr]; rfl, fun w hw hlevel => ?_, fun h => ?_, fun h => ?_⟩
    · exact eq_terminalReplaced_of_mem_log_insert policy before _ _ _ hw hlevel
    · rw [filter_isTerminalAdded_log_insert, if_pos h]
    · exact log_insert_of_error policy before _ _ _ h

example :
    let get : Method := ⟨"GET", by decide⟩
    let first : Pattern := ⟨"a/{x}", [.literal "a", .parameter "x"], none⟩
    let second : Pattern := ⟨"/a/{y}", [.literal "a", .parameter "y"], none⟩
    ((empty : Tree .growing Nat).attempts .lax [⟨get, first, 1⟩, ⟨get, second, 2⟩]).flatMap Attempt.log =
      [.walkingTo "a/{x}", .childAdded (.literal "a"), .childAdded .parameter, .terminalAdded get "a/{x}",
        .walkingTo "/a/{y}", .terminalReplaced get "/a/{y}" "a/{x}", .terminalAdded get "/a/{y}"] := by
  rfl

end Tree

end PathRouter
