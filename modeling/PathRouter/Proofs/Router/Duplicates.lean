/-
What a strict builder turns away. An addition fails exactly when its pattern cannot be read, or when
the pattern of an earlier accepted route of the method has the same text up to names and a leading
slash. There is one such route at most, and the error names its pattern. So accepted routes never have
the same key, and each of them stays in its slot.
-/
import PathRouter.Proofs.Pattern.Names
import PathRouter.Proofs.Tree.Insertions

namespace PathRouter

open Pattern

variable {α : Type}

namespace Route

/-- Routes with distinct keys all stay. -/
theorem latest_of_nodup {routes : List (Route α)} (h : (routes.map key).Nodup) : latest routes = routes := by
  induction routes with
  | nil => rfl
  | cons r routes ih =>
    rw [List.map_cons, List.nodup_cons] at h
    rw [latest, if_neg h.1, ih h.2]

/-- Under the strict policy no route is admitted whose key was admitted before. -/
theorem nodup_key_admitted (adds : List (Addition α)) :
    ∀ {past : List (Route α)}, (past.map key).Nodup → ((past ++ admitted .strict past adds).map key).Nodup := by
  induction adds with
  | nil => exact fun h => by simpa [admitted] using h
  | cons a adds ih =>
    intro past h
    unfold admitted
    cases a.route? with
    | none => exact ih h
    | some r =>
      by_cases hrefused : r.Refused .strict past
      · simp only [hrefused, if_true]
        exact ih h
      · simp only [hrefused, if_false]
        have hnew : r.key ∉ past.map key := fun hmem => hrefused ⟨rfl, hmem⟩
        have hnext : ((past ++ [r]).map key).Nodup := by
          rw [List.map_append, List.nodup_append]
          exact ⟨h, by simp, fun a ha b hb hab => hnew (by simp_all)⟩
        rw [List.append_cons]
        exact ih hnext

end Route

namespace Router.Builder

/-- A strict builder takes a pattern that is read unless its entry is taken. -/
theorem value_add_strict {b : Builder α} (hb : b.policy = .strict) {m : Method} {text : String} {p : Pattern}
    (h : parse text = .ok p) (v : α) :
    (b.add m text v).value =
      match b.tree.at? ⟨m, p.steps, p.customMethod⟩ with
      | some former => .error (.duplicateRoute m text former.pattern)
      | none => .ok { b with tree := (b.tree.insert .strict m p v).state } := by
  rw [value_add_of_ok h, value_addPattern, hb, Tree.error?_insert]
  cases b.tree.at? ⟨m, p.steps, p.customMethod⟩ with
  | none => rfl
  | some former =>
    show Except.error (Rejection.duplicateRoute m p.text former.pattern) = _
    rw [text_of_parse h]

section Strict

variable {b : Builder α} {routes : List (Route α)} {m : Method} {text : String} {v : α}

/-- The entry of a pattern is taken by the route of the method whose text is the same up to names. -/
theorem exists_agreeUpToNames_iff (ht : b.tree.Holds routes) {p : Pattern} (h : parse text = .ok p)
    (P : Terminal α → Prop) :
    (∃ r ∈ routes, r.method = m ∧ AgreeUpToNames r.pattern.text text ∧ P r.terminal) ↔
      ∃ former ∈ b.tree.at? ⟨m, p.steps, p.customMethod⟩, P former := by
  constructor
  · rintro ⟨r, hr, rfl, hagree, hP⟩
    obtain ⟨hsteps, hcustom⟩ := (agreeUpToNames_iff (ht.parsed r hr) h).1 hagree
    exact ⟨r.terminal, (ht.entry _ _).2 ⟨r, hr, by rw [Route.key, hsteps, hcustom], rfl⟩, hP⟩
  · rintro ⟨former, hformer, hP⟩
    obtain ⟨r, hr, hkey, rfl⟩ := (ht.entry _ _).1 hformer
    obtain ⟨hm, hsteps, hcustom⟩ := Key.mk.inj hkey
    exact ⟨r, hr, hm, (agreeUpToNames_iff (ht.parsed r hr) h).2 ⟨hsteps, hcustom⟩, hP⟩

theorem value_add_eq_duplicateRoute_iff (hb : b.policy = .strict) (ht : b.tree.Holds routes) {m' : Method}
    {text' existing : String} :
    (b.add m text v).value = .error (.duplicateRoute m' text' existing) ↔
      (m' = m ∧ text' = text) ∧ (∃ p, parse text = .ok p) ∧
        ∃ r ∈ routes, r.method = m ∧ AgreeUpToNames r.pattern.text text ∧ r.pattern.text = existing := by
  cases hp : parse text with
  | error fault => simp [value_add_of_error hp]
  | ok p =>
    have htaken := exists_agreeUpToNames_iff (m := m) ht hp fun former => former.pattern = existing
    rw [value_add_strict hb hp, show (∃ r ∈ routes, r.method = m ∧ AgreeUpToNames r.pattern.text text ∧
      r.pattern.text = existing) ↔ _ from htaken]
    cases b.tree.at? ⟨m, p.steps, p.customMethod⟩ with
    | none => simp
    | some former => simp [eq_comm, and_assoc]

theorem value_add_eq_invalidPattern_iff (hb : b.policy = .strict) {text' : String} {fault : Fault} :
    (b.add m text v).value = .error (.invalidPattern text' fault) ↔ text' = text ∧ parse text = .error fault := by
  cases hp : parse text with
  | error fault' => simp [value_add_of_error hp, eq_comm]
  | ok p =>
    rw [value_add_strict hb hp]
    cases b.tree.at? ⟨m, p.steps, p.customMethod⟩ <;> simp

theorem exists_value_add_eq_ok_iff (hb : b.policy = .strict) (ht : b.tree.Holds routes) :
    (∃ b', (b.add m text v).value = .ok b') ↔
      (∃ p, parse text = .ok p) ∧ ¬ ∃ r ∈ routes, r.method = m ∧ AgreeUpToNames r.pattern.text text := by
  cases hp : parse text with
  | error fault => simp [value_add_of_error hp]
  | ok p =>
    have htaken := exists_agreeUpToNames_iff (m := m) ht hp fun _ => True
    simp only [and_true] at htaken
    rw [value_add_strict hb hp, htaken]
    cases b.tree.at? ⟨m, p.steps, p.customMethod⟩ <;> simp

end Strict

/-- Whatever was added to a new strict builder before, an addition is turned away as a duplicate exactly
when its pattern can be read and an accepted route of the method has the same pattern up to names and a
leading slash, which the error then names; as faulty exactly when its pattern cannot be read; and else
it succeeds. No two accepted routes of a method have the same pattern up to names and a leading slash, and
each accepted route is the one in its slot of the tree, which it shares with no other. -/
theorem add_strict_iff_agreeUpToNames (adds : List (Addition α)) (m : Method) (text : String) (v : α) :
    let start := (create ⟨.strict⟩ : Logged (Builder α)).value
    let accepted := start.accepted adds
    let builder := start.addAll adds
    let result := (builder.add m text v).value
    (∀ m' text' existing, result = .error (.duplicateRoute m' text' existing) ↔
      (m' = m ∧ text' = text) ∧ (∃ p, parse text = .ok p) ∧
        ∃ r ∈ accepted, r.method = m ∧ AgreeUpToNames r.pattern.text text ∧ r.pattern.text = existing) ∧
    (∀ text' fault, result = .error (.invalidPattern text' fault) ↔ text' = text ∧ parse text = .error fault) ∧
    ((∃ b, result = .ok b) ↔
      (∃ p, parse text = .ok p) ∧ ¬ ∃ r ∈ accepted, r.method = m ∧ AgreeUpToNames r.pattern.text text) ∧
    (accepted.Pairwise fun r s => r.method = s.method → ¬ AgreeUpToNames r.pattern.text s.pattern.text) ∧
    (∀ r ∈ accepted, builder.tree.root.at? r.pattern.steps ⟨r.pattern.customMethod, r.method⟩ = some r.terminal) ∧
    accepted.Pairwise fun r s => r.method = s.method →
      ¬ (r.pattern.steps = s.pattern.steps ∧ r.pattern.customMethod = s.pattern.customMethod) := by
  intro start accepted builder result
  have haccepted : accepted = Route.admitted .strict [] adds := accepted_eq_admitted ⟨.strict⟩ adds
  have hnodup : (accepted.map Route.key).Nodup := by
    have h := @Route.nodup_key_admitted α adds [] List.nodup_nil
    rwa [List.nil_append, ← haccepted] at h
  have hholds : builder.tree.Holds accepted := by
    have h := holds_surviving ⟨.strict⟩ adds
    rwa [Route.surviving, ← haccepted, Route.latest_of_nodup hnodup] at h
  have hpolicy : builder.policy = .strict := policy_addAll adds start
  have hkeys : accepted.Pairwise fun r s => r.method = s.method →
      ¬ (r.pattern.steps = s.pattern.steps ∧ r.pattern.customMethod = s.pattern.customMethod) :=
    (List.pairwise_map.1 hnodup).imp fun hne hm hsame => hne (Route.key_eq_iff.2 ⟨hm, hsame⟩)
  refine ⟨fun m' text' existing => value_add_eq_duplicateRoute_iff hpolicy hholds,
    fun text' fault => value_add_eq_invalidPattern_iff hpolicy, exists_value_add_eq_ok_iff hpolicy hholds, ?_,
    fun r hr => (hholds.entry r.key r.terminal).2 ⟨r, hr, rfl, rfl⟩, hkeys⟩
  refine hkeys.imp_of_mem fun hr hs hne hm hagree => hne hm ?_
  exact (agreeUpToNames_iff (hholds.parsed _ hr) (hholds.parsed _ hs)).1 hagree

end Router.Builder

end PathRouter
