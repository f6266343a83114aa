/-
What routers answer, in terms of routes alone. A key matches a path when the path reads as its steps
and its custom method, which no colon in an earlier segment may forbid; the most specific surviving
route that matches is the one that answers, with the values bound on the way decoded, and no route
answers when none matches.
-/
import PathRouter.Proofs.Router.Routes
import PathRouter.Proofs.Search.Specificity

namespace PathRouter

variable {α : Type}

namespace Key

/-- Whether a path matches a key, binding values to its parameters. -/
def Matches (k : Key) (segments values : List String) : Prop :=
  Reads k.steps segments values k.customMethod ∧
    (k.customMethod ≠ none → ∀ s ∈ segments.dropLast, ':' ∉ s.toList)

/-- The rank of a key among those that a path matches. -/
def rank (k : Key) (segments : List String) : List Nat :=
  stepsRank (finalLength segments) k.customMethod k.steps

/-- The way that a key is read in. -/
def way (k : Key) (values : List String) : Way := ⟨k.steps, k.customMethod, values⟩

end Key

namespace Route

/-- The match of a route whose parameters are bound to raw values. -/
def answer (r : Route α) (values : List String) : Match α :=
  ⟨r.value, .ofList ((r.pattern.parameterNames.zip values).map fun (name, raw) =>
    (name, Text.Percent.decode raw))⟩

/-- A route for the method that the path matches, and that every other such route of the list is less
specific than. -/
structure IsBest (routes : List (Route α)) (m : Method) (segments : List String) (r : Route α)
    (values : List String) : Prop where
  mem : r ∈ routes
  method : r.method = m
  reads : r.key.Matches segments values
  least : ∀ s ∈ routes, s.method = m → ∀ others, s.key.Matches segments others → s ≠ r →
    r.key.rank segments < s.key.rank segments

end Route

/-! ## Ways and keys -/

theorem customMethodAllowed_ofString_iff {path : String} :
    (RequestPath.ofString path).customMethodAllowed = true ↔
      (RequestPath.ofString path).segments ≠ [] ∧
        ∀ s ∈ (RequestPath.ofString path).segments.dropLast, ':' ∉ s.toList := by
  simp only [RequestPath.ofString, RequestPath.allowsCustomMethod, Bool.and_eq_true, Bool.not_eq_true',
    List.isEmpty_eq_false_iff, List.all_eq_true, List.contains_eq_mem, decide_eq_false_iff_not, ne_eq,
    List.map_eq_nil_iff, ← List.map_dropLast, List.forall_mem_map, String.toList_ofList]

/-- A path matches a key exactly in the ways that the search tries. -/
theorem Key.matches_iff_mem_ways {k : Key} (hk : ∀ c ∈ k.customMethod, c.toList.head? = some ':')
    {path : String} {values : List String} :
    k.Matches (RequestPath.ofString path).segments values ↔
      k.way values ∈ ways (RequestPath.ofString path).customMethodAllowed (RequestPath.ofString path).segments := by
  rw [mem_ways_iff]
  refine and_congr_right fun hreads => ?_
  cases hc : k.customMethod with
  | none => simp [Key.way, hc]
  | some c =>
    have hne : (RequestPath.ofString path).segments ≠ [] := by
      intro hnil
      rw [hnil, reads_nil_iff, hc] at hreads
      cases hreads.2.2
    constructor
    · intro h d hd
      cases hc.symm.trans hd
      exact ⟨customMethodAllowed_ofString_iff.2 ⟨hne, h (by simp)⟩, hk c hc⟩
    · intro h _
      exact (customMethodAllowed_ofString_iff.1 (h c hc).1).2

theorem Way.arrival?_eq_some_iff {φ : Phase} {m : Method} {n : Node φ α} {w : Way} {a : Arrival α} :
    w.arrival? m n = some a ↔ n.at? w.steps ⟨w.customMethod, m⟩ = some a.terminal ∧ a.bindings = w.values := by
  unfold Way.arrival?
  rw [Option.map_eq_some_iff]
  constructor
  · rintro ⟨terminal, h, rfl⟩
    exact ⟨h, rfl⟩
  · rintro ⟨h, hv⟩
    exact ⟨_, h, by rw [← hv]⟩

/-! ## What a search finds -/

section Search

variable {t : Tree .final α} {routes : List (Route α)} {m : Method} {path : String}

theorem value_search (t : Tree .final α) (m : Method) (path : String) :
    (t.search m (.ofString path)).value =
      (ways (RequestPath.ofString path).customMethodAllowed (RequestPath.ofString path).segments).findSome?
        (Way.arrival? m t.root) := by
  unfold Tree.search
  rw [Logged.value_bind, value_search?, find?_eq_findSome?_ways]

/-- A finalized tree is searched for the terminals of the tree that has grown. -/
theorem value_search_finalize {t : Tree .growing α} (h : t.root.Everywhere Node.DistinctKeys) (m : Method)
    (path : String) :
    (t.finalize.search m (.ofString path)).value =
      (ways (RequestPath.ofString path).customMethodAllowed (RequestPath.ofString path).segments).findSome?
        (Way.arrival? m t.root) := by
  have harrival : Way.arrival? m t.finalize.root = Way.arrival? m t.root := by
    funext w
    exact congrArg (Option.map _) (Node.at?_finalize h w.steps ⟨w.customMethod, m⟩)
  rw [value_search, harrival]

theorem Router.Builder.value_search_build (settings : Settings) (adds : List (Addition α)) (m : Method)
    (path : String) :
    let b := (create settings : Logged (Builder α)).value.addAll adds
    (b.build.tree.search m (.ofString path)).value =
      (ways (RequestPath.ofString path).customMethodAllowed (RequestPath.ofString path).segments).findSome?
        (Way.arrival? m b.tree.root) :=
  value_search_finalize (holds_surviving settings adds).maps m path

namespace Tree.Holds

theorem head?_customMethod (ht : t.Holds routes) {r : Route α} (hr : r ∈ routes) :
    ∀ c ∈ r.key.customMethod, c.toList.head? = some ':' :=
  fun c hc => ((Pattern.wellFormed_of_parse (ht.parsed r hr)).custom c hc).1

/-- A route leads to its terminal in the ways that its key is read in. -/
theorem arrival?_way (ht : t.Holds routes) {r : Route α} (hr : r ∈ routes) (values : List String) :
    (r.key.way values).arrival? r.method t.root = some ⟨r.terminal, values⟩ :=
  Way.arrival?_eq_some_iff.2 ⟨(ht.entry r.key r.terminal).2 ⟨r, hr, rfl, rfl⟩, rfl⟩

/-- Where a way leads to a terminal, it is one in which the key of a route is read. -/
theorem exists_route_of_arrival? (ht : t.Holds routes) {w : Way} {a : Arrival α}
    (h : w.arrival? m t.root = some a) :
    ∃ r ∈ routes, r.method = m ∧ w = r.key.way w.values ∧ a = ⟨r.terminal, w.values⟩ := by
  obtain ⟨hat, hvalues⟩ := Way.arrival?_eq_some_iff.1 h
  obtain ⟨r, hr, hk, hterm⟩ := (ht.entry ⟨m, w.steps, w.customMethod⟩ a.terminal).1 hat
  refine ⟨r, hr, congrArg Key.method hk, by simp [Key.way, hk], ?_⟩
  rw [hterm, ← hvalues]

/-- A search finds the terminal of the best route. -/
theorem search_eq_some_iff (ht : t.Holds routes) {a : Arrival α} :
    (t.search m (.ofString path)).value = some a ↔
      ∃ r values, Route.IsBest routes m (RequestPath.ofString path).segments r values ∧
        a = ⟨r.terminal, values⟩ := by
  rw [value_search, findSome?_eq_some_iff_of_pairwise (pairwise_ways ..)]
  constructor
  · rintro ⟨w, hw, ha, hleast⟩
    obtain ⟨r, hr, hm, hway, rfl⟩ := ht.exists_route_of_arrival? ha
    rw [hway] at hw hleast
    refine ⟨r, w.values, ⟨hr, hm, (Key.matches_iff_mem_ways (ht.head?_customMethod hr)).2 hw, ?_⟩, rfl⟩
    rintro s hs rfl others hmatch hne
    refine hleast _ ((Key.matches_iff_mem_ways (ht.head?_customMethod hs)).1 hmatch) ?_ ?_
    · rw [ht.arrival?_way hs]
      rfl
    · intro heq
      refine hne (ht.distinct s hs r hr ?_)
      unfold Route.key at heq ⊢
      simp only [Key.way, Way.mk.injEq] at heq
      rw [hm, heq.1, heq.2.1]
  · rintro ⟨r, values, ⟨hr, rfl, hmatch, hleast⟩, rfl⟩
    refine ⟨r.key.way values, (Key.matches_iff_mem_ways (ht.head?_customMethod hr)).1 hmatch,
      ht.arrival?_way hr values, fun w hw hsome hne => ?_⟩
    obtain ⟨a, ha⟩ := Option.isSome_iff_exists.1 hsome
    obtain ⟨s, hs, hm, hway, rfl⟩ := ht.exists_route_of_arrival? ha
    rw [hway] at hw hne ⊢
    -- a route is read in one way only, since the path decides the values
    have hmatch' := (Key.matches_iff_mem_ways (ht.head?_customMethod hs)).2 hw
    refine hleast s hs hm w.values hmatch' ?_
    rintro rfl
    exact hne (by rw [hmatch'.1.values_unique hmatch.1])

/-- A search finds nothing when no route matches. -/
theorem search_eq_none_iff (ht : t.Holds routes) :
    (t.search m (.ofString path)).value = none ↔
      ∀ r ∈ routes, r.method = m → ∀ values, ¬ r.key.Matches (RequestPath.ofString path).segments values := by
  rw [value_search, List.findSome?_eq_none_iff]
  constructor
  · rintro hnone r hr rfl values hmatch
    have hway := (Key.matches_iff_mem_ways (ht.head?_customMethod hr)).1 hmatch
    have harrive := hnone _ hway
    rw [ht.arrival?_way hr] at harrive
    cases harrive
  · intro hnone w hw
    cases ha : w.arrival? m t.root with
    | none => rfl
    | some a =>
      obtain ⟨r, hr, hm, hway, -⟩ := ht.exists_route_of_arrival? ha
      rw [hway] at hw
      exact absurd ((Key.matches_iff_mem_ways (ht.head?_customMethod hr)).2 hw) (hnone r hr hm _)

end Tree.Holds

end Search

/-! ## What a router answers -/

namespace Route.IsBest

variable {routes : List (Route α)} {m : Method} {segments : List String} {r s : Route α}
  {values others : List String}

/-- No two routes are the most specific one. -/
theorem unique (hr : IsBest routes m segments r values) (hs : IsBest routes m segments s others) :
    r = s ∧ values = others := by
  have heq : r = s := by
    refine Classical.byContradiction fun hne => ?_
    have hlt := hr.least s hs.mem hs.method others hs.reads (Ne.symm hne)
    have hgt := hs.least r hr.mem hr.method values hr.reads hne
    exact List.lt_irrefl _ (List.lt_trans hlt hgt)
  subst heq
  exact ⟨rfl, hr.reads.1.values_unique hs.reads.1⟩

end Route.IsBest

namespace Router

end Router

end PathRouter
