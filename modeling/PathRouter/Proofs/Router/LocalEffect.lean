/-
What one more route changes. Requests that it does not match are answered as before. Those that it
matches it answers itself, unless a more specific route answered them, which then still does. So a path
that resolves never stops resolving, whatever is added later.
-/
import Mathlib.Data.List.Pairwise
import PathRouter.Proofs.Router.Allowed

namespace PathRouter

variable {α : Type}

/-! ## More and less specific keys -/

/-- Of two members of a list in increasing rank one ranks first. -/
theorem rank_lt_or_gt_of_pairwise {β : Type} {rank : β → List Nat} {l : List β}
    (hl : l.Pairwise fun a b => rank a < rank b) {a b : β} (ha : a ∈ l) (hb : b ∈ l) (hne : a ≠ b) :
    rank a < rank b ∨ rank b < rank a := by
  have : Std.Symm fun a b : β => rank a < rank b ∨ rank b < rank a := ⟨fun _ _ => Or.symm⟩
  exact (hl.imp Or.inl : l.Pairwise fun a b => rank a < rank b ∨ rank b < rank a).forall ha hb hne

/-- Of two keys of a method that a path matches one is more specific. -/
theorem Key.rank_lt_or_gt {k k' : Key} (hk : ∀ c ∈ k.customMethod, c.toList.head? = some ':')
    (hk' : ∀ c ∈ k'.customMethod, c.toList.head? = some ':') {path : String} {values others : List String}
    (h : k.Matches (RequestPath.ofString path).segments values)
    (h' : k'.Matches (RequestPath.ofString path).segments others) (hmethod : k.method = k'.method)
    (hne : k ≠ k') :
    k.rank (RequestPath.ofString path).segments < k'.rank (RequestPath.ofString path).segments ∨
      k'.rank (RequestPath.ofString path).segments < k.rank (RequestPath.ofString path).segments := by
  refine rank_lt_or_gt_of_pairwise (pairwise_ways _ _) ((matches_iff_mem_ways hk).1 h)
    ((matches_iff_mem_ways hk').1 h') fun heq => hne ?_
  obtain ⟨hsteps, hcustom, -⟩ := Way.mk.inj heq
  calc k = ⟨k.method, k.steps, k.customMethod⟩ := rfl
    _ = k' := by rw [hmethod, hsteps, hcustom]

namespace Tree

/-- Whether a route is what a tree finds for a path. -/
def Finds (t : Tree .final α) (path : String) (s : Route α) : Prop :=
  ∃ values, (t.search s.method (.ofString path)).value = some ⟨s.terminal, values⟩

/-- Whether the route that a tree finds for a path, one of those listed, is more specific than some other
route of its method. -/
def Prefers (t : Tree .final α) (routes : List (Route α)) (path : String) (r : Route α) : Prop :=
  ∃ s ∈ routes, s.method = r.method ∧ t.Finds path s ∧
    s.key.rank (RequestPath.ofString path).segments < r.key.rank (RequestPath.ofString path).segments

end Tree

/-! ## The best route -/

section Best

variable {t t' : Tree .final α} {routes routes' : List (Route α)} {r s : Route α} {m : Method} {path : String}
  {values others : List String}

namespace Tree.Holds

/-- What is found is the best route. -/
theorem finds_iff (ht : t.Holds routes) (hs : s ∈ routes) :
    t.Finds path s ↔ ∃ others, Route.IsBest routes s.method (RequestPath.ofString path).segments s others := by
  unfold Finds
  simp only [ht.search_eq_some_iff]
  constructor
  · rintro ⟨values, r, others, hbest, heq⟩
    obtain ⟨hterminal, -⟩ := Arrival.mk.inj heq
    obtain rfl := ht.eq_of_terminal_eq hs hbest.mem hbest.method.symm hterminal
    exact ⟨others, hbest⟩
  · rintro ⟨others, hbest⟩
    exact ⟨others, s, others, hbest, rfl⟩

/-- Some route is the best one if any matches. -/
theorem exists_isBest (ht : t.Holds routes) (hs : s ∈ routes)
    (h : s.key.Matches (RequestPath.ofString path).segments others) :
    ∃ best values, Route.IsBest routes s.method (RequestPath.ofString path).segments best values := by
  cases hsearch : (t.search s.method (.ofString path)).value with
  | none => exact absurd h (ht.search_eq_none_iff.1 hsearch s hs rfl others)
  | some a =>
    obtain ⟨best, values, hbest, -⟩ := ht.search_eq_some_iff.1 hsearch
    exact ⟨best, values, hbest⟩

theorem value_resolve_of_isBest (ht : t.Holds routes)
    (h : Route.IsBest routes m (RequestPath.ofString path).segments r values) :
    ((Router.mk t).resolve m path).value = some (r.answer values) := by
  rw [Router.value_resolve]
  show (t.search m (.ofString path)).value.map _ = _
  rw [ht.search_eq_some_iff.2 ⟨r, values, h, rfl⟩]
  rfl

/-- What is answered depends on the best route. -/
theorem value_resolve_congr (ht : t.Holds routes) (ht' : t'.Holds routes')
    (h : ∀ s values, Route.IsBest routes m (RequestPath.ofString path).segments s values ↔
      Route.IsBest routes' m (RequestPath.ofString path).segments s values) :
    ((Router.mk t).resolve m path).value = ((Router.mk t').resolve m path).value := by
  have hsearch : (t.search m (.ofString path)).value = (t'.search m (.ofString path)).value := by
    ext a
    rw [ht.search_eq_some_iff, ht'.search_eq_some_iff]
    simp only [h]
  rw [Router.value_resolve, Router.value_resolve]
  exact congrArg _ hsearch

end Tree.Holds

/-! ## One more route -/

/-- Whether some routes are those of a list and one more, which takes the place of any with its key. -/
def Route.Joined (routes : List (Route α)) (r : Route α) (routes' : List (Route α)) : Prop :=
  ∀ s, s ∈ routes' ↔ s = r ∨ s ∈ routes ∧ s.key ≠ r.key

namespace Route.IsBest

variable {segments : List String}

/-- Routes that do not match, or are of another method, do not count. -/
theorem of_mem_iff (hs : IsBest routes m segments s values)
    (h : ∀ s : Route α, s.method = m → ∀ others, s.key.Matches segments others → (s ∈ routes' ↔ s ∈ routes)) :
    IsBest routes' m segments s values := by
  refine ⟨(h s hs.method values hs.reads).2 hs.mem, hs.method, hs.reads, fun s' hs' hm others hmatch => ?_⟩
  exact hs.least s' ((h s' hm others hmatch).1 hs') hm others hmatch

/-- The best route stays the best one if a less specific one joins the others. -/
theorem of_rank_lt (hs : IsBest routes m segments s values) (hmem : Joined routes r routes')
    (hlt : s.key.rank segments < r.key.rank segments) : IsBest routes' m segments s values := by
  have hkey : s.key ≠ r.key := by
    intro heq
    rw [heq] at hlt
    exact List.lt_irrefl _ hlt
  refine ⟨(hmem s).2 (.inr ⟨hs.mem, hkey⟩), hs.method, hs.reads, fun s' hs' hm others hmatch hne => ?_⟩
  rcases (hmem s').1 hs' with rfl | ⟨hs', -⟩
  · exact hlt
  · exact hs.least s' hs' hm others hmatch hne

end Route.IsBest

namespace Tree.Holds

/-- A new route that matches is the best one unless a more specific one was. -/
theorem isBest_new (ht : t.Holds routes) (ht' : t'.Holds routes')
    (hmem : Route.Joined routes r routes') (h : r.key.Matches (RequestPath.ofString path).segments values)
    (hnone : ¬ t.Prefers routes path r) :
    Route.IsBest routes' r.method (RequestPath.ofString path).segments r values := by
  have hr : r ∈ routes' := (hmem r).2 (.inl rfl)
  refine ⟨hr, rfl, h, fun s hs' hmethod others hmatch hne => ?_⟩
  obtain ⟨hs, hkey⟩ := ((hmem s).1 hs').resolve_left hne
  refine (Key.rank_lt_or_gt (ht'.head?_customMethod hr) (ht'.head?_customMethod hs') h hmatch hmethod.symm
    (Ne.symm hkey)).resolve_right fun hlt => hnone ?_
  -- where a more specific route matched, the best one was more specific, too
  obtain ⟨best, bound, hbest⟩ := ht.exists_isBest hs hmatch
  have hmethod' : best.method = r.method := hbest.method.trans hmethod
  refine ⟨best, hbest.mem, hmethod', (ht.finds_iff hbest.mem).2 ⟨bound, hbest.method ▸ hbest⟩, ?_⟩
  by_cases heq : s = best
  · rwa [← heq]
  · exact List.lt_trans (hbest.least s hs rfl others hmatch heq) hlt

/-- The answer to a request that the new route does not match stays. -/
theorem value_resolve_of_not_matches (ht : t.Holds routes) (ht' : t'.Holds routes')
    (hmem : Route.Joined routes r routes')
    (h : m = r.method → ∀ values, ¬ r.key.Matches (RequestPath.ofString path).segments values) :
    ((Router.mk t').resolve m path).value = ((Router.mk t).resolve m path).value := by
  have hsame (s : Route α) (hmethod : s.method = m) (others : List String)
      (hmatch : s.key.Matches (RequestPath.ofString path).segments others) : s ∈ routes' ↔ s ∈ routes := by
    have hkey : s.key ≠ r.key := fun heq => h (hmethod ▸ congrArg Key.method heq) others (heq ▸ hmatch)
    have hne : s ≠ r := fun heq => hkey (congrArg Route.key heq)
    rw [hmem s, or_iff_right hne, and_iff_left hkey]
  refine ht'.value_resolve_congr ht fun s values => ⟨fun hs => hs.of_mem_iff ?_, fun hs => hs.of_mem_iff hsame⟩
  exact fun s hmethod others hmatch => (hsame s hmethod others hmatch).symm

/-- So does the answer that a more specific route gave. -/
theorem value_resolve_of_prefers (ht : t.Holds routes) (ht' : t'.Holds routes')
    (hmem : Route.Joined routes r routes') (h : t.Prefers routes path r) :
    ((Router.mk t').resolve r.method path).value = ((Router.mk t).resolve r.method path).value := by
  obtain ⟨s, hs, hmethod, hfinds, hlt⟩ := h
  obtain ⟨others, hbest⟩ := (ht.finds_iff hs).1 hfinds
  rw [hmethod] at hbest
  rw [ht.value_resolve_of_isBest hbest, ht'.value_resolve_of_isBest (hbest.of_rank_lt hmem hlt)]

end Tree.Holds

end Best

namespace Router.Builder

theorem addAll_append (b : Builder α) (adds later : List (Addition α)) :
    b.addAll (adds ++ later) = (b.addAll adds).addAll later := List.foldl_append

/-- After an addition that succeeds a builder holds its route, and of the others those with another key. -/
theorem holds_of_add_eq_ok {settings : Settings} {adds : List (Addition α)} {m : Method} {text : String} {v : α}
    {after : Builder α}
    (h : (((create settings : Logged (Builder α)).value.addAll adds).add m text v).value = .ok after) :
    ∃ p, Pattern.parse text = .ok p ∧ ∃ routes', after.tree.Holds routes' ∧
      Route.Joined (Route.surviving settings.duplicates adds) ⟨m, p, v⟩ routes' := by
  obtain ⟨p, hp, herror, rfl⟩ := value_add_eq_ok_iff.1 h
  have hheld : ((create settings : Logged (Builder α)).value.addAll adds).tree.Holds
      (Route.latest (Route.admitted settings.duplicates [] adds)) := holds_surviving settings adds
  have hparse : Pattern.parse p.text = .ok p := by rwa [Pattern.text_of_parse hp]
  exact ⟨p, hp, _, hheld.insert (r := ⟨m, p, v⟩) hparse herror, fun s => Route.mem_latest_concat⟩

/-- What resolves still does after more additions. -/
theorem isSome_resolve_addAll (settings : Settings) (adds later : List (Addition α)) {m : Method} {path : String} :
    let before := (create settings : Logged (Builder α)).value.addAll adds
    (before.build.resolve m path).value.isSome = true →
      ((before.addAll later).build.resolve m path).value.isSome = true := by
  intro before
  rw [← addAll_append]
  intro hsome
  refine (holds_build settings (adds ++ later)).isSome_resolve_iff.2 ?_
  obtain ⟨k, hk, hmatch⟩ := (holds_build settings adds).isSome_resolve_iff.1 hsome
  refine ⟨k, ?_, hmatch⟩
  simp only [Route.mem_map_key_surviving, List.filterMap_append, List.map_append, List.mem_append] at hk ⊢
  exact .inl hk

/-- Whatever was added to a new builder before, an addition that succeeds changes no answer to a request that
its route does not match. A path that it matches resolves, as before if a more specific route was found for
it, and by the new route in all other cases. So whatever is added later, a path that resolves goes on
resolving, and no method is dropped from those listed for it. -/
theorem resolve_of_add_eq_ok (settings : Settings) (adds : List (Addition α)) :
    let before := (create settings : Logged (Builder α)).value.addAll adds
    let answer (b : Builder α) (m : Method) (path : String) := (b.build.resolve m path).value
    (∀ m₀ text v after, (before.add m₀ text v).value = .ok after →
      ∃ p, Pattern.parse text = .ok p ∧
        let r : Route α := ⟨m₀, p, v⟩
        ∀ path,
          let segments := (RequestPath.ofString path).segments
          let preferred := before.build.tree.Prefers (Route.surviving settings.duplicates adds) path r
          (∀ m, (m = m₀ → ∀ values, ¬ r.key.Matches segments values) →
            answer after m path = answer before m path) ∧
          ∀ values, r.key.Matches segments values →
            (answer after m₀ path).isSome = true ∧
            (preferred → answer after m₀ path = answer before m₀ path) ∧
            (¬ preferred → answer after m₀ path = some (r.answer values))) ∧
    ∀ later m path,
      ((answer before m path).isSome = true → (answer (before.addAll later) m path).isSome = true) ∧
      (m ∈ (before.build.allowed path).value → m ∈ ((before.addAll later).build.allowed path).value) := by
  intro before answer
  have hbefore : before.build.tree.Holds (Route.surviving settings.duplicates adds) := holds_build settings adds
  refine ⟨fun m₀ text v after hadd => ?_, fun later m path => ⟨isSome_resolve_addAll settings adds later, ?_⟩⟩
  · obtain ⟨p, hp, routes', hheld, hmem⟩ := holds_of_add_eq_ok hadd
    have hafter : after.build.tree.Holds routes' := hheld.finalize
    refine ⟨p, hp, fun path => ⟨fun m => hbefore.value_resolve_of_not_matches hafter hmem, fun values hmatch => ?_⟩⟩
    have hkey : (⟨m₀, p, v⟩ : Route α).key ∈ routes'.map Route.key := List.mem_map_of_mem ((hmem _).2 (.inl rfl))
    refine ⟨hafter.isSome_resolve_iff.2 ⟨_, hkey, rfl, values, hmatch⟩,
      hbefore.value_resolve_of_prefers hafter hmem, fun hnone => ?_⟩
    exact hafter.value_resolve_of_isBest (hbefore.isBest_new hafter hmem hmatch hnone)
  · have hlater : (before.addAll later).build.tree.Holds (Route.surviving settings.duplicates (adds ++ later)) := by
      rw [← addAll_append]
      exact holds_build settings (adds ++ later)
    intro hm
    exact hlater.mem_allowed_iff.2 (isSome_resolve_addAll settings adds later (hbefore.mem_allowed_iff.1 hm))

/-- A new route answers a path in place of a less specific one, leaves one to a more specific one, and does
not match a third. -/
theorem resolve_of_add_eq_ok_three_paths :
    let get : Method := ⟨"GET", by decide⟩
    let adds : List (Addition Nat) := [⟨get, "/{a}/{b}", 1⟩, ⟨get, "/v1/{x}", 2⟩]
    let before := (create ⟨.strict⟩ : Logged (Builder Nat)).value.addAll adds
    let answer (b : Builder Nat) (path : String) := (b.build.resolve get path).value
    ∃ after, (before.add get "/{c}/rest" 3).value = .ok after ∧
      answer after "/v2/rest" = some ⟨3, .ofList [("c", "v2")]⟩ ∧
      answer after "/v1/rest" = answer before "/v1/rest" ∧
      answer after "/v2/other" = answer before "/v2/other" ∧ (answer after "/v1/rest").isSome = true := by
  intro get adds before answer
  let wide : Route Nat := ⟨get, ⟨"/{a}/{b}", [.parameter "a", .parameter "b"], none⟩, 1⟩
  let narrow : Route Nat := ⟨get, ⟨"/v1/{x}", [.literal "v1", .parameter "x"], none⟩, 2⟩
  have hwide : Pattern.parse "/{a}/{b}" = .ok wide.pattern := by rfl
  have hnarrow : Pattern.parse "/v1/{x}" = .ok narrow.pattern := by rfl
  have hnew : Pattern.parse "/{c}/rest" = .ok ⟨"/{c}/rest", [.parameter "c", .literal "rest"], none⟩ := by rfl
  have hsurviving : Route.surviving .strict adds = [wide, narrow] := by
    simp [Route.surviving, Route.admitted, Route.Refused, Route.latest, Route.key, Pattern.steps, Segment.step,
      Addition.route?, adds, wide, narrow, hwide, hnarrow]
  have hfound : (before.build.tree.search get (.ofString "/v1/rest")).value = some ⟨narrow.terminal, ["rest"]⟩ ∧
      (before.build.tree.search get (.ofString "/v2/rest")).value = some ⟨wide.terminal, ["v2", "rest"]⟩ := by
    simp only [before, value_search_build]
    dsimp only [adds, get, narrow, wide]
    exact ⟨rfl, rfl⟩
  have hfree : (before.tree.insert before.policy get ⟨"/{c}/rest", [.parameter "c", .literal "rest"], none⟩ 3).error? =
      none := by
    dsimp only [before, adds, get]
    rfl
  have hmatch (v path : String) (hv : v ≠ "") (hsegments : (RequestPath.ofString path).segments = [v, "rest"]) :
      Key.Matches ⟨get, [.parameter, .literal "rest"], none⟩ (RequestPath.ofString path).segments [v] := by
    rw [hsegments]
    exact ⟨.parameter hv (.literal "rest" .nil), fun h => absurd rfl h⟩
  have hadd : (before.add get "/{c}/rest" 3).value = .ok _ := value_add_eq_ok_iff.2 ⟨_, hnew, hfree, rfl⟩
  obtain ⟨p, hp, hlocal⟩ := (resolve_of_add_eq_ok ⟨.strict⟩ adds).1 get "/{c}/rest" 3 _ hadd
  cases hnew.symm.trans hp
  have hv1 := (hlocal "/v1/rest").2 ["v1"] (hmatch "v1" "/v1/rest" (by decide) (by rfl))
  have hv2 := (hlocal "/v2/rest").2 ["v2"] (hmatch "v2" "/v2/rest" (by decide) (by rfl))
  refine ⟨_, hadd, hv2.2.2 ?_, hv1.2.1 ?_, (hlocal "/v2/other").1 get fun _ values h => ?_, hv1.1⟩
  · -- the route found before is less specific
    rintro ⟨s, hs, -, ⟨values, hfinds⟩, hlt⟩
    rw [show Route.surviving _ adds = _ from hsurviving] at hs
    simp only [List.mem_cons, List.not_mem_nil, or_false] at hs
    rcases hs with rfl | rfl
    · exact absurd hlt (by decide)
    · cases hfound.2.symm.trans hfinds
  · have hnarrow : narrow ∈ Route.surviving .strict adds := by
      rw [hsurviving]
      exact List.mem_cons_of_mem _ (List.mem_cons_self ..)
    exact ⟨narrow, hnarrow, rfl, ⟨["rest"], hfound.1⟩, by decide⟩
  · rw [show (RequestPath.ofString "/v2/other").segments = ["v2", "other"] by rfl] at h
    have hbinds : Binds [.parameter, .literal "rest"] ["v2", "other"] values := h.1
    simp [binds_cons_iff] at hbinds

end Router.Builder

end PathRouter
