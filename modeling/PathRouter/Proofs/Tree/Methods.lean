/-
The methods of a tree against its terminals. A method is listed exactly when some node holds a terminal for
it (`Mirrors`): an insertion that succeeds fills one slot and lists the method of that slot, a terminal that
is replaced leaves its slot to one of the same method, an insertion that fails changes neither, and finalizing
loses no terminal. The list is in the order of the first insertions that succeed, counted in the run with
those that fail.
-/
import Mathlib.Data.List.Induction
import PathRouter.Proofs.Tree.Records
import PathRouter.Proofs.Tree.Rejected

namespace PathRouter

variable {φ : Phase} {α : Type}

/-- Whether a node holds a terminal for the method, a plain one or one behind a custom method. -/
def Node.HasTerminal (n : Node φ α) (m : Method) : Prop :=
  (n.plain.get? m).isSome = true ∨ ∃ custom ts, n.custom.get? custom = some ts ∧ (ts.get? m).isSome = true

theorem Node.hasTerminal_iff {n : Node φ α} {m : Method} :
    n.HasTerminal m ↔ ∃ custom, (n.terminal? ⟨custom, m⟩).isSome = true := by
  constructor
  · rintro (h | ⟨custom, ts, hts, h⟩)
    · exact ⟨none, h⟩
    · refine ⟨some custom, ?_⟩
      show ((n.custom.get? custom).bind (·.get? m)).isSome = true
      rwa [hts]
  · rintro ⟨custom | custom, h⟩
    · exact .inl h
    · change ((n.custom.get? custom).bind (·.get? m)).isSome = true at h
      obtain ⟨ts, hts⟩ := Option.isSome_iff_exists.1 (Option.isSome_of_isSome_bind h)
      rw [hts] at h
      exact .inr ⟨custom, ts, hts, h⟩

namespace Tree

/-- Whether some node of the tree holds a terminal for the method. -/
def HasTerminal (t : Tree φ α) (m : Method) : Prop := ∃ path n, t.root.walk? path = some n ∧ n.HasTerminal m

theorem hasTerminal_iff {t : Tree φ α} {m : Method} :
    t.HasTerminal m ↔ ∃ k : Key, k.method = m ∧ (t.at? k).isSome = true := by
  constructor
  · rintro ⟨path, n, hwalk, h⟩
    obtain ⟨custom, h⟩ := Node.hasTerminal_iff.1 h
    refine ⟨⟨m, path, custom⟩, rfl, ?_⟩
    show ((t.root.walk? path).bind (·.terminal? ⟨custom, m⟩)).isSome = true
    rwa [hwalk]
  · rintro ⟨⟨m, path, custom⟩, rfl, h⟩
    change ((t.root.walk? path).bind (·.terminal? ⟨custom, m⟩)).isSome = true at h
    obtain ⟨n, hwalk⟩ := Option.isSome_iff_exists.1 (Option.isSome_of_isSome_bind h)
    rw [hwalk] at h
    exact ⟨path, n, hwalk, Node.hasTerminal_iff.2 ⟨custom, h⟩⟩

/-- Whether the methods listed are those with a terminal. -/
def Mirrors (t : Tree φ α) : Prop := ∀ m, m ∈ t.methods ↔ t.HasTerminal m

theorem mirrors_empty : (empty : Tree .growing α).Mirrors := by
  intro m
  rw [hasTerminal_iff]
  simp [empty, at?]

/-- An insertion keeps the list in step with the terminals. -/
theorem Mirrors.insert {t : Tree .growing α} (ht : t.Mirrors) (policy : Duplicates) (m : Method) (p : Pattern)
    (v : α) : (t.insert policy m p v).state.Mirrors := by
  by_cases h : (t.insert policy m p v).error? = none
  · intro m'
    rw [mem_insert_methods h, ht m', hasTerminal_iff, hasTerminal_iff]
    simp only [at?_insert h]
    constructor
    · rintro (⟨k, rfl, hk⟩ | rfl)
      · -- the slot of the key is filled as before, or by the new terminal
        refine ⟨k, rfl, ?_⟩
        split
        · rfl
        · exact hk
      · exact ⟨⟨m', p.steps, p.customMethod⟩, rfl, by rw [if_pos rfl]; rfl⟩
    · rintro ⟨k, rfl, hk⟩
      split at hk
      · next hkey => exact .inr (congrArg Key.method hkey).symm
      · exact .inl ⟨k, rfl, hk⟩
  · rwa [state_insert_of_error h]

theorem Mirrors.insertAll {policy : Duplicates} (routes : List (Route α)) {t : Tree .growing α}
    (ht : t.Mirrors) : (t.insertAll policy routes).Mirrors :=
  insertAll_induction (fun _ r ht => ht.insert policy r.method r.pattern r.value) routes ht

/-- Finalizing loses no terminal. -/
theorem Mirrors.finalize {t : Tree .growing α} (ht : t.Mirrors) (h : t.root.Everywhere Node.DistinctKeys) :
    t.finalize.Mirrors := by
  intro m
  rw [hasTerminal_iff]
  simp only [at?_finalize h]
  rw [← hasTerminal_iff]
  exact ht m

/-! ## The order of the methods -/

/-- The position in a run of the first insertion for the method that succeeds, which is the length of the run if
there is none. -/
def firstTaken (policy : Duplicates) (t : Tree .growing α) (routes : List (Route α)) (m : Method) : Nat :=
  (routes.zip (t.results policy routes)).findIdx fun inserted => decide (inserted.1.method = m) && inserted.2.isNone

section Runs

variable {policy : Duplicates} {t : Tree .growing α} {routes : List (Route α)} {r : Route α} {m : Method}

theorem insertAll_concat :
    t.insertAll policy (routes ++ [r]) =
      ((t.insertAll policy routes).insert policy r.method r.pattern r.value).state :=
  insertAll_append t routes [r]

/-- One more insertion counts if it succeeds and none for its method did before. -/
theorem firstTaken_concat :
    t.firstTaken policy (routes ++ [r]) m =
      if t.firstTaken policy routes m < routes.length then t.firstTaken policy routes m
      else if r.method = m ∧ ((t.insertAll policy routes).insert policy r.method r.pattern r.value).error? = none then
        routes.length
      else routes.length + 1 := by
  have hlength : (routes.zip (t.results policy routes)).length = routes.length := by
    rw [List.length_zip, length_results, Nat.min_self]
  unfold firstTaken
  rw [results_append, List.zip_append (length_results routes t).symm, List.findIdx_append, hlength, results_cons,
    results, List.zip_cons_cons, List.zip_nil_right, List.findIdx_singleton]
  simp only [Bool.and_eq_true, decide_eq_true_eq, Option.isNone_iff_eq_none]
  split
  · rfl
  · split
    · exact Nat.zero_add _
    · exact Nat.add_comm ..

theorem firstTaken_concat_lt_iff :
    t.firstTaken policy (routes ++ [r]) m < (routes ++ [r]).length ↔
      t.firstTaken policy routes m < routes.length ∨
        r.method = m ∧ ((t.insertAll policy routes).insert policy r.method r.pattern r.value).error? = none := by
  rw [firstTaken_concat, List.length_append, List.length_singleton]
  split
  · next h => exact ⟨fun _ => .inl h, fun _ => by omega⟩
  · next h =>
    split
    · next hr => exact ⟨fun _ => .inr hr, fun _ => by omega⟩
    · next hr => exact ⟨fun hlt => by omega, fun hor => (hor.elim h hr).elim⟩

/-- The methods listed are those with an insertion that succeeds. -/
theorem mem_methods_iff_firstTaken (policy : Duplicates) (routes : List (Route α)) {m : Method} :
    m ∈ ((empty : Tree .growing α).insertAll policy routes).methods ↔
      empty.firstTaken policy routes m < routes.length := by
  induction routes using List.reverseRecOn with
  | nil => simp [insertAll, empty]
  | append_singleton routes r ih =>
    rw [insertAll_concat, firstTaken_concat_lt_iff, ← ih]
    by_cases h :
      (((empty : Tree .growing α).insertAll policy routes).insert policy r.method r.pattern r.value).error? = none
    · simp only [mem_insert_methods h, h, and_true, eq_comm]
    · simp only [state_insert_of_error h, h, and_false, or_false]

/-- A method comes before those whose first insertion that succeeds is later. -/
theorem pairwise_firstTaken (policy : Duplicates) (routes : List (Route α)) :
    ((empty : Tree .growing α).insertAll policy routes).methods.Pairwise fun m n =>
      empty.firstTaken policy routes m < empty.firstTaken policy routes n := by
  induction routes using List.reverseRecOn with
  | nil => exact .nil
  | append_singleton routes r ih =>
    -- what was listed before keeps its position
    have hkept {m : Method} (hm : m ∈ ((empty : Tree .growing α).insertAll policy routes).methods) :
        empty.firstTaken policy (routes ++ [r]) m = empty.firstTaken policy routes m := by
      rw [firstTaken_concat, if_pos ((mem_methods_iff_firstTaken policy routes).1 hm)]
    have hold : ((empty : Tree .growing α).insertAll policy routes).methods.Pairwise fun m n =>
        empty.firstTaken policy (routes ++ [r]) m < empty.firstTaken policy (routes ++ [r]) n :=
      ih.imp_of_mem fun hm hn h => by rwa [hkept hm, hkept hn]
    rw [insertAll_concat]
    by_cases h :
      (((empty : Tree .growing α).insertAll policy routes).insert policy r.method r.pattern r.value).error? = none
    · rw [methods_insert_of_ok h]
      split
      · exact hold
      · next hr =>
        refine List.pairwise_append.2 ⟨hold, List.pairwise_singleton .., fun m hm n hn => ?_⟩
        have hlt := (mem_methods_iff_firstTaken policy routes).1 hm
        rw [mem_methods_iff_firstTaken] at hr
        rw [List.mem_singleton.1 hn, hkept hm, firstTaken_concat, if_neg hr, if_pos ⟨rfl, h⟩]
        exact hlt
    · rwa [state_insert_of_error h]

end Runs

/-- After any run of insertions into an empty tree, the methods listed are those that some node of the finalized
tree holds a terminal for, plain or behind a custom method. Each is listed once, and they are in the order in
which an insertion for them first succeeded. No table of the tree has a key twice, so every terminal is one
that a node holds. -/
theorem methods_mirror_terminals (policy : Duplicates) (routes : List (Route α)) :
    let tree := ((empty : Tree .growing α).insertAll policy routes).finalize
    let first := (empty : Tree .growing α).firstTaken policy routes
    (∀ m, m ∈ tree.methods ↔ tree.HasTerminal m) ∧ tree.methods.Nodup ∧
      (∀ m, m ∈ tree.methods ↔ first m < routes.length) ∧
      tree.methods.Pairwise (fun m n => first m < first n) ∧ tree.root.Everywhere Node.DistinctKeys := by
  intro tree first
  have hmaps := everywhere_distinctKeys_insertAll_empty policy routes
  exact ⟨(mirrors_empty.insertAll routes).finalize hmaps, nodup_methods_insertAll routes List.nodup_nil,
    fun m => mem_methods_iff_firstTaken policy routes, pairwise_firstTaken policy routes,
    Node.everywhere_distinctKeys_finalize hmaps⟩

example :
    let get : Method := ⟨"GET", by decide⟩
    let post : Method := ⟨"POST", by decide⟩
    let first : Pattern := ⟨"a:run", [.literal "a"], some ":run"⟩
    let second : Pattern := ⟨"a", [.literal "a"], none⟩
    ((empty : Tree .growing Nat).insertAll .strict
      [⟨post, first, 1⟩, ⟨post, first, 2⟩, ⟨get, second, 3⟩, ⟨post, second, 4⟩]).methods = [post, get] := by
  rfl

end Tree

end PathRouter
