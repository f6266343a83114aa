/-
Routes that are turned away leave no trace. On the way to the refusal nodes are made where they are
missing, and so is the table of a custom method; but a slot that is taken has its table and its node, and
every node before that, so nothing was missing. Hence a run of insertions comes to the same tree with and
without those that fail.
-/
import PathRouter.Proofs.Tree.Insertions

namespace PathRouter.Tree

variable {α : Type}

/-- What each insertion of a list comes to, one after another: nothing, or why the route is turned away. -/
def results (policy : Duplicates) : Tree .growing α → List (Route α) → List (Option Rejection)
  | _, [] => []
  | t, r :: routes =>
    let inserted := t.insert policy r.method r.pattern r.value
    inserted.error? :: inserted.state.results policy routes

/-- The routes of a list that are not turned away when all of them are inserted. -/
def taken (policy : Duplicates) (t : Tree .growing α) (routes : List (Route α)) : List (Route α) :=
  ((routes.zip (t.results policy routes)).filter fun inserted => inserted.2.isNone).map Prod.fst

section Runs

variable {policy : Duplicates}

theorem insertAll_append (t : Tree .growing α) (routes later : List (Route α)) :
    t.insertAll policy (routes ++ later) = (t.insertAll policy routes).insertAll policy later := List.foldl_append

theorem results_cons (t : Tree .growing α) (r : Route α) (routes : List (Route α)) :
    t.results policy (r :: routes) =
      (t.insert policy r.method r.pattern r.value).error? ::
        (t.insert policy r.method r.pattern r.value).state.results policy routes := rfl

theorem results_append (routes later : List (Route α)) :
    ∀ t : Tree .growing α, t.results policy (routes ++ later) =
      t.results policy routes ++ (t.insertAll policy routes).results policy later := by
  induction routes with
  | nil => exact fun _ => rfl
  | cons r routes ih =>
    intro t
    rw [List.cons_append, results_cons, results_cons, insertAll_cons, ih, List.cons_append]

theorem length_results (routes : List (Route α)) :
    ∀ t : Tree .growing α, (t.results policy routes).length = routes.length := by
  induction routes with
  | nil => exact fun _ => rfl
  | cons r routes ih =>
    intro t
    rw [results_cons, List.length_cons, ih, List.length_cons]

/-- Later insertions come to what they come to in the tree that the earlier ones left. -/
theorem drop_results_append (t : Tree .growing α) (routes later : List (Route α)) :
    (t.results policy (routes ++ later)).drop routes.length = (t.insertAll policy routes).results policy later := by
  rw [results_append, ← length_results routes t, List.drop_left]

theorem taken_cons_of_ok {t : Tree .growing α} {r : Route α}
    (h : (t.insert policy r.method r.pattern r.value).error? = none) (routes : List (Route α)) :
    t.taken policy (r :: routes) =
      r :: (t.insert policy r.method r.pattern r.value).state.taken policy routes := by
  simp [taken, results_cons, h]

/-- A route that is turned away can be left out before the others are inserted. -/
theorem taken_cons_of_error {t : Tree .growing α} {r : Route α}
    (h : (t.insert policy r.method r.pattern r.value).error? ≠ none) (routes : List (Route α)) :
    t.taken policy (r :: routes) = t.taken policy routes := by
  have hstate : (t.insert policy r.method r.pattern r.value).state = t := state_insert_of_error h
  obtain ⟨e, he⟩ := Option.ne_none_iff_exists'.1 h
  simp [taken, results_cons, hstate, he]

/-- The routes that are taken leave the tree that all of them leave, and none of them is turned away when
the others are left out. -/
theorem insertAll_and_results_taken (routes : List (Route α)) :
    ∀ t : Tree .growing α, t.insertAll policy (t.taken policy routes) = t.insertAll policy routes ∧
      t.results policy (t.taken policy routes) = (t.taken policy routes).map fun _ => none := by
  induction routes with
  | nil => exact fun _ => ⟨rfl, rfl⟩
  | cons r routes ih =>
    intro t
    by_cases h : (t.insert policy r.method r.pattern r.value).error? = none
    · obtain ⟨htree, hresults⟩ := ih (t.insert policy r.method r.pattern r.value).state
      rw [taken_cons_of_ok h]
      refine ⟨?_, ?_⟩
      · rw [insertAll_cons, htree, insertAll_cons]
      · rw [results_cons, h, hresults, List.map_cons]
    · rw [taken_cons_of_error h, insertAll_cons, state_insert_of_error h]
      exact ih t

end Runs

/-- A route that is turned away from a tree, whatever that is, leaves it as it was: its nodes, their
terminals and tables, and the list of methods. So any run of insertions leaves the same tree when those
are left out that fail in it. None of the others then fails, and whatever is inserted later comes to the
same in both cases. -/
theorem insert_error_leaves_no_trace (policy : Duplicates) (t : Tree .growing α) :
    (∀ m p v, (t.insert policy m p v).error? ≠ none → (t.insert policy m p v).state = t) ∧
    ∀ routes,
      let taken := t.taken policy routes
      t.insertAll policy taken = t.insertAll policy routes ∧
      t.results policy taken = taken.map (fun _ => none) ∧
      ∀ later,
        t.insertAll policy (taken ++ later) = t.insertAll policy (routes ++ later) ∧
        (t.results policy (taken ++ later)).drop taken.length =
          (t.results policy (routes ++ later)).drop routes.length := by
  refine ⟨fun m p v => state_insert_of_error, fun routes => ?_⟩
  intro taken
  obtain ⟨htree, hresults⟩ := @insertAll_and_results_taken α policy routes t
  refine ⟨htree, hresults, fun later => ⟨?_, ?_⟩⟩
  · rw [insertAll_append, insertAll_append, htree]
  · rw [drop_results_append, drop_results_append, htree]

/-- A second route in the slot of a custom method, with another name for its parameter, is turned away;
the tree is then what the first route left, and a third route comes to the same. -/
theorem insert_error_leaves_no_trace_of_taken_slot :
    let get : Method := ⟨"GET", by decide⟩
    let first : Pattern := ⟨"/v1/{a}:run", [.literal "v1", .parameter "a"], some ":run"⟩
    let again : Pattern := ⟨"v1/{b}:run", [.literal "v1", .parameter "b"], some ":run"⟩
    let other : Pattern := ⟨"v1/{b}/x", [.literal "v1", .parameter "b", .literal "x"], none⟩
    let t := ((empty : Tree .growing Nat).insert .strict get first 1).state
    (t.insert .strict get again 2).error? = some (.duplicateRoute get "v1/{b}:run" "/v1/{a}:run") ∧
      (t.insert .strict get again 2).state = t ∧
      t.taken .strict [⟨get, again, 2⟩, ⟨get, other, 3⟩] = [⟨get, other, 3⟩] ∧
      t.insertAll .strict [⟨get, other, 3⟩] = t.insertAll .strict [⟨get, again, 2⟩, ⟨get, other, 3⟩] := by
  intro get first again other t
  have herror : (t.insert .strict get again 2).error? = some (.duplicateRoute get "v1/{b}:run" "/v1/{a}:run") := by
    rfl
  have htaken : t.taken .strict [⟨get, again, 2⟩, ⟨get, other, 3⟩] = [⟨get, other, 3⟩] := by
    rfl
  have h := insert_error_leaves_no_trace .strict t
  refine ⟨herror, h.1 get again 2 (by rw [herror]; simp), htaken, ?_⟩
  have hrun := (h.2 [⟨get, again, 2⟩, ⟨get, other, 3⟩]).1
  rwa [htaken] at hrun

end PathRouter.Tree
