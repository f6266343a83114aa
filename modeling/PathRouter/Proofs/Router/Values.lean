/-
Routers do not look at the values of routes. Additions whose values are mapped leave the same routes
with their values mapped, and the router of these answers what the router of the former answers, with
the value mapped.
-/
import PathRouter.Proofs.Router.Resolution

namespace PathRouter

variable {α β : Type} {f : α → β}

def Addition.map (f : α → β) (a : Addition α) : Addition β := ⟨a.method, a.pattern, f a.value⟩

def Match.map (f : α → β) (found : Match α) : Match β := ⟨f found.value, found.parameters⟩

namespace Route

def map (f : α → β) (r : Route α) : Route β := ⟨r.method, r.pattern, f r.value⟩

@[simp]
theorem key_map (r : Route α) : (r.map f).key = r.key := rfl

theorem map_key_map (routes : List (Route α)) : (routes.map (map f)).map key = routes.map key := by
  rw [List.map_map]
  rfl

theorem answer_map (r : Route α) (values : List String) : (r.map f).answer values = (r.answer values).map f := rfl

/-! ## Which routes stay -/

theorem latest_map (routes : List (Route α)) : latest (routes.map (map f)) = (latest routes).map (map f) := by
  induction routes with
  | nil => rfl
  | cons r routes ih =>
    rw [List.map_cons, latest, latest, key_map, map_key_map, ih]
    split <;> rfl

theorem refused_map_iff {policy : Duplicates} {past : List (Route α)} {r : Route α} :
    (r.map f).Refused policy (past.map (map f)) ↔ r.Refused policy past := by
  rw [Refused, Refused, key_map, map_key_map]

theorem route?_map (a : Addition α) : (a.map f).route? = a.route?.map (map f) := by
  unfold Addition.route? Addition.map
  cases Pattern.parse a.pattern <;> rfl

theorem admitted_map {policy : Duplicates} (adds : List (Addition α)) :
    ∀ {past : List (Route α)}, admitted policy (past.map (map f)) (adds.map (Addition.map f)) =
      (admitted policy past adds).map (map f) := by
  induction adds with
  | nil => exact rfl
  | cons a adds ih =>
    intro past
    rw [List.map_cons, admitted, admitted, route?_map]
    cases a.route? with
    | none => exact ih
    | some r =>
      simp only [Option.map_some, refused_map_iff]
      by_cases hrefused : r.Refused policy past
      · rw [if_pos hrefused, if_pos hrefused]
        exact ih
      · rw [if_neg hrefused, if_neg hrefused, List.map_cons, ← ih, List.map_append]
        rfl

theorem surviving_map {policy : Duplicates} (adds : List (Addition α)) :
    surviving policy (adds.map (Addition.map f)) = (surviving policy adds).map (map f) := by
  rw [surviving, surviving, ← latest_map, ← admitted_map]
  rfl

theorem IsBest.map {routes : List (Route α)} {m : Method} {segments : List String} {r : Route α}
    {values : List String} (h : IsBest routes m segments r values) (f : α → β) :
    IsBest (routes.map (Route.map f)) m segments (r.map f) values := by
  refine ⟨List.mem_map_of_mem h.mem, h.method, h.reads, fun s hs hm others hmatch hne => ?_⟩
  obtain ⟨s', hs', rfl⟩ := List.mem_map.1 hs
  exact h.least s' hs' hm others hmatch fun heq => hne (by rw [heq])

end Route

/-! ## What is answered -/

/-- A router of routes with their values mapped answers the same, with the value mapped. -/
theorem Router.value_resolve_map {t : Tree .final α} {t' : Tree .final β} {routes : List (Route α)}
    (ht : t.Holds routes) (ht' : t'.Holds (routes.map (Route.map f))) (m : Method) (path : String) :
    ((mk t').resolve m path).value = ((mk t).resolve m path).value.map (Match.map f) := by
  rw [value_resolve, value_resolve]
  show (t'.search m (.ofString path)).value.map _ = ((t.search m (.ofString path)).value.map _).map _
  cases h : (t.search m (.ofString path)).value with
  | none =>
    have hnone : (t'.search m (.ofString path)).value = none := by
      rw [ht.search_eq_none_iff] at h
      rw [ht'.search_eq_none_iff]
      intro s hs
      obtain ⟨r, hr, rfl⟩ := List.mem_map.1 hs
      exact h r hr
    rw [hnone]
    rfl
  | some a =>
    obtain ⟨r, values, hbest, rfl⟩ := ht.search_eq_some_iff.1 h
    rw [ht'.search_eq_some_iff.2 ⟨_, _, hbest.map f, rfl⟩]
    exact congrArg some (Route.answer_map r values)

end PathRouter
