/-
Trees after any run of insertions. `insertAll` inserts routes one after another, and a route that is
turned away changes nothing (`state_insert_of_error`). So the tree of a builder is what insertions
leave of its routes (`tree_addAll`), it holds the routes that survive (`holds_insertAll`), and every
method with a route is listed once (`nodup_methods_insertAll`).
-/
import PathRouter.Proofs.Router.Routes

namespace PathRouter

variable {α : Type}

namespace Tree

/-- The tree after the insertion of each route of a list, taken or turned away. -/
def insertAll (policy : Duplicates) (t : Tree .growing α) (routes : List (Route α)) : Tree .growing α :=
  routes.foldl (fun t r => (t.insert policy r.method r.pattern r.value).state) t

theorem insertAll_cons {policy : Duplicates} (t : Tree .growing α) (r : Route α) (routes : List (Route α)) :
    t.insertAll policy (r :: routes) =
      (t.insert policy r.method r.pattern r.value).state.insertAll policy routes := rfl

section Insert

variable {policy : Duplicates} {t : Tree .growing α} {m : Method} {p : Pattern} {v : α}

/-- A route that is turned away leaves the tree as it was. -/
theorem state_insert_of_error (h : (t.insert policy m p v).error? ≠ none) :
    (t.insert policy m p v).state = t := by
  have hroot : (t.insert policy m p v).state.root = t.root := by
    rw [insert_root]
    exact Node.state_growAt_occupy_of_error _ _ _ _ _ h
  have hmethods : (t.insert policy m p v).state.methods = t.methods :=
    insert_methods_of_error (Option.isSome_iff_ne_none.2 h)
  calc (t.insert policy m p v).state
      = ⟨(t.insert policy m p v).state.root, (t.insert policy m p v).state.methods⟩ := rfl
    _ = t := by rw [hroot, hmethods]

/-- A method is listed when it is first registered, and not again. -/
theorem methods_insert_of_ok (h : (t.insert policy m p v).error? = none) :
    (t.insert policy m p v).state.methods = if m ∈ t.methods then t.methods else t.methods ++ [m] := by
  simp only [insert, Attempt.map, Attempt.after] at h ⊢
  simp [h]

theorem nodup_methods_insert (ht : t.methods.Nodup) : (t.insert policy m p v).state.methods.Nodup := by
  by_cases h : (t.insert policy m p v).error? = none
  · rw [methods_insert_of_ok h]
    split
    · exact ht
    · next hm =>
      rw [List.nodup_append]
      exact ⟨ht, by simp, fun a ha b hb hab => hm (by simp_all)⟩
  · rwa [state_insert_of_error h]

end Insert

/-- What every insertion keeps is kept by a run of them. -/
theorem insertAll_induction {P : Tree .growing α → Prop} {policy : Duplicates}
    (step : ∀ (t : Tree .growing α) (r : Route α), P t → P (t.insert policy r.method r.pattern r.value).state)
    (routes : List (Route α)) {t : Tree .growing α} (ht : P t) : P (t.insertAll policy routes) :=
  List.foldlRecOn routes _ ht fun t ht r _ => step t r ht

theorem nodup_methods_insertAll {policy : Duplicates} (routes : List (Route α)) {t : Tree .growing α}
    (ht : t.methods.Nodup) : (t.insertAll policy routes).methods.Nodup :=
  insertAll_induction (P := fun t => t.methods.Nodup) (fun _ _ => nodup_methods_insert) routes ht

theorem everywhere_distinctKeys_insertAll_empty (policy : Duplicates) (routes : List (Route α)) :
    ((empty : Tree .growing α).insertAll policy routes).root.Everywhere Node.DistinctKeys :=
  insertAll_induction (P := fun t => t.root.Everywhere Node.DistinctKeys)
    (fun _ _ => Node.everywhere_distinctKeys_growAt_occupy policy _ _ _) routes Node.everywhere_distinctKeys_empty

end Tree

namespace Router.Builder

section Add

variable {b : Builder α} {m : Method} {text : String} {v : α}

theorem value_add_of_error {fault : Pattern.Fault} (h : Pattern.parse text = .error fault) :
    (b.add m text v).value = .error (.invalidPattern text fault) := by
  unfold add Pattern.ofString
  rw [Logged.value_bind, h]
  rfl

theorem value_add_of_ok {p : Pattern} (h : Pattern.parse text = .ok p) :
    (b.add m text v).value = (b.addPattern m p v).value := by
  unfold add Pattern.ofString
  rw [Logged.value_bind, h]
  rfl

end Add

/-- An addition inserts its route, if its pattern can be read. -/
theorem take_eq (b : Builder α) (a : Addition α) :
    b.take a = { b with tree := b.tree.insertAll b.policy a.route?.toList } := by
  unfold take Addition.route?
  cases hp : Pattern.parse a.pattern with
  | error e =>
    rw [value_add_of_error hp]
    rfl
  | ok p =>
    rw [value_add_of_ok hp, value_addPattern]
    by_cases h : (b.tree.insert b.policy a.method p a.value).error? = none
    · rw [h]
      rfl
    · obtain ⟨e, he⟩ := Option.ne_none_iff_exists'.1 h
      rw [he]
      show b = { b with tree := (b.tree.insert b.policy a.method p a.value).state }
      rw [Tree.state_insert_of_error h]

theorem policy_addAll (adds : List (Addition α)) : ∀ b : Builder α, (b.addAll adds).policy = b.policy := by
  induction adds with
  | nil => exact fun b => rfl
  | cons a adds ih =>
    intro b
    rw [addAll_cons, ih, take_eq]

/-- The tree of a builder is what insertions leave of the routes added to it. -/
theorem tree_addAll (adds : List (Addition α)) :
    ∀ b : Builder α, (b.addAll adds).tree = b.tree.insertAll b.policy (adds.filterMap Addition.route?) := by
  induction adds with
  | nil => exact fun b => rfl
  | cons a adds ih =>
    intro b
    rw [addAll_cons, ih, take_eq]
    cases h : a.route? <;> simp [h, Tree.insertAll]

/-- The methods of the tree of a new builder are distinct, whatever is added. -/
theorem nodup_methods_addAll (settings : Settings) (adds : List (Addition α)) :
    ((create settings : Logged (Builder α)).value.addAll adds).tree.methods.Nodup := by
  rw [tree_addAll]
  exact Tree.nodup_methods_insertAll _ List.nodup_nil

end Router.Builder

/-- After any insertions, an empty tree holds the routes that survive them. -/
theorem Tree.holds_insertAll (policy : Duplicates) (adds : List (Addition α)) :
    ((empty : Tree .growing α).insertAll policy (adds.filterMap Addition.route?)).Holds
      (Route.surviving policy adds) := by
  have h := Router.Builder.holds_surviving ⟨policy⟩ adds
  rwa [Router.Builder.tree_addAll] at h

end PathRouter
