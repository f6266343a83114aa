/-
Which routes can be reached. A route is out of reach when a colon before its last segment keeps its
custom method from being found, or when another route shadows it, which takes every path of it and
is more specific there. All others are reached by the path made from their pattern with one text for
all parameters that is longer than every literal of the router.
-/
import PathRouter.Proofs.Router.Requests

namespace PathRouter

open Text

variable {α : Type}

/-- Whether an ending takes every final segment that another one takes, and comes before it: the other
is a literal with a custom method, and this one the same text without a custom method, or with one
that begins earlier. -/
def Step.Shadows (last' : Step) (custom' : Option String) (last : Step) (custom : Option String) : Prop :=
  ∃ text c, last = .literal text ∧ custom = some c ∧
    (last' = .literal (text ++ c) ∧ custom' = none ∨
      ∃ text' c', last' = .literal text' ∧ custom' = some c' ∧ text'.length < text.length ∧
        text' ++ c' = text ++ c)

/-- Whether a pattern takes every path of another one, and is more specific there. -/
def Pattern.Shadows (q p : Pattern) : Prop :=
  ∃ front last' last, q.steps = front ++ [last'] ∧ p.steps = front ++ [last] ∧
    last'.Shadows q.customMethod last p.customMethod

/-! ## Routes that are out of reach -/

theorem Binds.mem_of_literal_mem {steps : List Step} {segments values : List String} (h : Binds steps segments values)
    {text : String} (hmem : .literal text ∈ steps) : text ∈ segments := by
  induction h with
  | nil => cases hmem
  | literal t _ ih =>
    rcases List.mem_cons.1 hmem with heq | hmem
    · cases heq
      exact List.mem_cons_self ..
    · exact List.mem_cons_of_mem _ (ih hmem)
  | parameter _ _ ih =>
    rcases List.mem_cons.1 hmem with heq | hmem
    · cases heq
    · exact List.mem_cons_of_mem _ (ih hmem)

theorem finalLength_concat (front : List String) (last : String) : finalLength (front ++ [last]) = last.length := by
  simp [finalLength]

/-- A pattern reads every path of one that it shadows, and ranks before it. -/
theorem Pattern.Shadows.reads_of_reads {p q : Pattern} (hshadows : q.Shadows p) {segments values : List String}
    (hreads : Reads p.steps segments values p.customMethod) :
    p.customMethod ≠ none ∧ ∃ bound, Reads q.steps segments bound q.customMethod ∧
      stepsRank (finalLength segments) q.customMethod q.steps <
        stepsRank (finalLength segments) p.customMethod p.steps := by
  obtain ⟨front, last', last, hq, hp, text, c, rfl, hcustom, hcase⟩ := hshadows
  rw [hp, reads_concat_iff] at hreads
  obtain ⟨before, l, bound, more, rfl, -, hfront, hlast⟩ := hreads
  have hl : text = l := by
    rcases binds_singleton_iff.1 hlast with ⟨heq, -⟩ | ⟨-, heq, -⟩
    · exact Step.literal.inj (List.cons.inj heq).1
    · cases heq
  subst hl
  refine ⟨by simp [hcustom], bound, ?_⟩
  rw [hq, hp, hcustom, stepsRank_concat, stepsRank_concat, finalLength_concat, reads_concat_iff, Option.getD_some]
  rcases hcase with ⟨rfl, hnone⟩ | ⟨text', c', rfl, hsome, hshorter, happ⟩
  · -- the text as a whole is the other literal
    rw [hnone]
    refine ⟨⟨before, text ++ c, bound, [], by simp, by simp, hfront, .literal _ .nil⟩, ?_⟩
    exact List.append_left_lt (lt_of_kind_lt (by decide))
  · -- the other custom method begins within the literal
    rw [hsome, ← happ]
    refine ⟨⟨before, text', bound, [], by simp, by simp, hfront, .literal _ .nil⟩, ?_⟩
    apply List.append_left_lt
    apply lt_of_position_lt
    have hlen := congrArg String.length happ
    rw [String.length_append, String.length_append] at hlen
    rw [String.length_append]
    omega

namespace Route.IsBest

variable {routes : List (Route α)} {m : Method} {segments : List String} {r : Route α} {values : List String}

theorem not_colonBeforeLast (h : IsBest routes m segments r values) (hc : r.pattern.customMethod ≠ none) :
    ¬ r.pattern.ColonBeforeLast := by
  rintro ⟨text, hmem, hcolon⟩
  rcases eq_nil_or_concat r.pattern.segments with hnil | ⟨front, last, hsplit⟩
  · simp [hnil] at hmem
  · have hsteps : r.key.steps = front.map Segment.step ++ [last.step] := by
      simp [Route.key, Pattern.steps, hsplit]
    have hreads := h.reads.1
    rw [hsteps, reads_concat_iff] at hreads
    obtain ⟨before, final, bound, more, rfl, -, hfront, -⟩ := hreads
    rw [hsplit, List.dropLast_concat] at hmem
    have hbefore : text ∈ before := hfront.mem_of_literal_mem (List.mem_map.2 ⟨_, hmem, rfl⟩)
    refine h.reads.2 hc text ?_ hcolon
    rw [List.dropLast_concat]
    exact hbefore

/-- The most specific route is not shadowed. -/
theorem not_shadows (h : IsBest routes m segments r values) {s : Route α} (hs : s ∈ routes)
    (hm : s.method = m) : ¬ s.pattern.Shadows r.pattern := by
  intro hshadows
  obtain ⟨hcustom, bound, hreads, hlt⟩ := hshadows.reads_of_reads h.reads.1
  have hmatch : s.key.Matches segments bound := ⟨hreads, fun _ => h.reads.2 hcustom⟩
  have hne : s ≠ r := by
    rintro rfl
    exact List.lt_irrefl _ hlt
  exact List.lt_irrefl _ (List.lt_trans hlt (h.least s hs hm bound hmatch hne))

end Route.IsBest

/-! ## Fresh values -/

/-- A value that no literal of a list of routes can be taken for. -/
structure IsFresh (routes : List (Route α)) (v : String) : Prop where
  ne : v ≠ ""
  slash : '/' ∉ v.toList
  colon : ':' ∉ v.toList
  longer : ∀ r ∈ routes, ∀ text, .literal text ∈ r.key.steps → text.length < v.length

theorem exists_length_lt (steps : List Step) : ∃ n, ∀ text, .literal text ∈ steps → text.length < n := by
  induction steps with
  | nil => exact ⟨0, fun text h => by cases h⟩
  | cons s steps ih =>
    obtain ⟨n, hn⟩ := ih
    cases s with
    | parameter => exact ⟨n, fun text h => hn text ((List.mem_cons.1 h).resolve_left (by simp))⟩
    | literal t =>
      refine ⟨max n (t.length + 1), fun text h => ?_⟩
      rcases List.mem_cons.1 h with heq | h
      · cases heq
        omega
      · have := hn text h
        omega

theorem exists_isFresh (routes : List (Route α)) : ∃ v, IsFresh routes v := by
  obtain ⟨n, hn⟩ := exists_length_lt (routes.flatMap fun r => r.key.steps)
  have hlong : (String.ofList (List.replicate (n + 1) 'x')).length = n + 1 := by simp
  refine ⟨String.ofList (List.replicate (n + 1) 'x'), ?_, by simp, by simp, fun r hr text hmem => ?_⟩
  · intro hempty
    rw [hempty] at hlong
    cases hlong
  · have := hn text (List.mem_flatMap.2 ⟨r, hr, hmem⟩)
    omega

theorem IsFresh.fills {routes : List (Route α)} {v : String} (h : IsFresh routes v) (p : Pattern) :
    p.Fills fun _ => v :=
  ⟨fun _ _ => h.ne, fun _ _ => h.slash, fun _ _ => h.colon⟩

/-- Steps that take the same segments as those of a pattern, where a fresh value stands for every
parameter, are those of the pattern or rank after them. -/
theorem eq_or_rank_lt {v : String} :
    ∀ {front : List Segment} {steps : List Step} {values : List String},
      Binds steps (front.map (Segment.fill fun _ => v)) values →
      (∀ text, .literal text ∈ steps → text ≠ v) →
        steps = front.map Segment.step ∨
          ∀ tail tail' : List Nat, (front.map Segment.step).map Step.rank ++ tail < steps.map Step.rank ++ tail'
  | [], steps, values, h, _ => .inl (binds_nil_iff.1 h).1
  | .literal text :: front, steps, values, h, hv => by
    rcases binds_cons_iff.1 h with ⟨later, rfl, hlater⟩ | ⟨-, later, bound, rfl, -, -⟩
    · rcases eq_or_rank_lt hlater (fun t ht => hv t (List.mem_cons_of_mem _ ht)) with rfl | hlt
      · exact .inl rfl
      · exact .inr fun tail tail' => List.cons_lt_cons_iff.2 (.inr ⟨rfl, hlt tail tail'⟩)
    · exact .inr fun tail tail' => List.cons_lt_cons_iff.2 (.inl Nat.zero_lt_one)
  | .parameter name :: front, steps, values, h, hv => by
    rcases binds_cons_iff.1 h with ⟨later, rfl, -⟩ | ⟨-, later, bound, rfl, rfl, hlater⟩
    · exact absurd rfl (hv v (List.mem_cons_self ..))
    · rcases eq_or_rank_lt hlater (fun t ht => hv t (List.mem_cons_of_mem _ ht)) with rfl | hlt
      · exact .inl rfl
      · exact .inr fun tail tail' => List.cons_lt_cons_iff.2 (.inr ⟨rfl, hlt tail tail'⟩)

/-- A custom method begins after a value without a colon. -/
theorem length_le_of_append_eq {v text l : String} {custom : Option String} (hv : ':' ∉ v.toList)
    (hc : ∀ c ∈ custom, c.toList.head? = some ':') (h : v ++ text = l ++ custom.getD "") :
    v.length ≤ l.length := by
  have hlist := congrArg String.toList h
  rw [String.toList_append, String.toList_append, List.append_eq_append_iff] at hlist
  rw [← String.length_toList, ← String.length_toList]
  rcases hlist with ⟨more, hl, -⟩ | ⟨more, hvl, hmore⟩
  · rw [hl, List.length_append]
    omega
  · cases more with
    | nil => exact Nat.le_of_eq (by rw [hvl, List.append_nil])
    | cons x more =>
      cases custom with
      | none => simp at hmore
      | some c =>
        -- the colon that begins the custom method would be in `v`
        rw [Option.getD_some] at hmore
        have hhead := hc c rfl
        rw [hmore] at hhead
        cases hhead
        exact absurd (by simp [hvl]) hv

theorem append_inj_of_length_eq {a b c d : String} (h : a ++ c = b ++ d) (hlen : a.length = b.length) :
    a = b ∧ c = d := by
  have hlist := congrArg String.toList h
  rw [String.toList_append, String.toList_append] at hlist
  obtain ⟨hfront, hback⟩ := List.append_inj hlist (by rwa [String.length_toList, String.length_toList])
  exact ⟨String.toList_injective hfront, String.toList_injective hback⟩

theorem length_pos_of_head? {c : String} (h : c.toList.head? = some ':') : 0 < c.length := by
  obtain ⟨rest, hrest⟩ := List.head?_eq_some_iff.1 h
  rw [← String.length_toList, hrest]
  exact Nat.zero_lt_succ _

/-- An ending that takes the final segment of a literal is that of the literal, shadows it, or ranks
after it. -/
theorem eq_or_shadows_or_finalRank_lt_literal {text l : String} {last' : Step} {custom custom' : Option String}
    {values : List String} (hbinds : Binds [last'] [l] values)
    (hsplit : text ++ custom.getD "" = l ++ custom'.getD "") :
    last' = .literal text ∧ custom' = custom ∨ last'.Shadows custom' (.literal text) custom ∨
      (Step.literal text).finalRank (l ++ custom'.getD "").length custom <
        last'.finalRank (l ++ custom'.getD "").length custom' := by
  rcases binds_singleton_iff.1 hbinds with ⟨hlast, -⟩ | ⟨-, hlast, -⟩
  · cases hlast
    cases custom with
    | none =>
      cases custom' with
      | none => exact .inl ⟨by simpa using hsplit.symm, rfl⟩
      | some c' => exact .inr (.inr (lt_of_kind_lt (by decide)))
    | some c =>
      cases custom' with
      | none => exact .inr (.inl ⟨text, c, rfl, rfl, .inl ⟨by simpa using hsplit.symm, rfl⟩⟩)
      | some c' =>
        -- both have a custom method, and the one that begins first wins
        have hlength := congrArg String.length hsplit
        simp only [Option.getD_some, String.length_append] at hsplit hlength ⊢
        rcases Nat.lt_trichotomy l.length text.length with hlt | heq | hgt
        · exact .inr (.inl ⟨text, c, rfl, rfl, .inr ⟨l, c', rfl, rfl, hlt, hsplit.symm⟩⟩)
        · obtain ⟨rfl, rfl⟩ := append_inj_of_length_eq hsplit heq.symm
          exact .inl ⟨rfl, rfl⟩
        · exact .inr (.inr (lt_of_position_lt (by omega)))
  · cases hlast
    refine .inr (.inr ?_)
    cases custom <;> cases custom' <;> exact lt_of_kind_lt (by decide)

/-- An ending that takes the final segment of a parameter, where a fresh value stands for it, is that
of the parameter or ranks after it. -/
theorem eq_or_finalRank_lt_parameter {v l : String} {last' : Step} {custom custom' : Option String}
    {values : List String} (hv : ':' ∉ v.toList) (hshort : ∀ text, last' = .literal text → text.length < v.length)
    (hc' : ∀ c ∈ custom', c.toList.head? = some ':') (hbinds : Binds [last'] [l] values)
    (hsplit : v ++ custom.getD "" = l ++ custom'.getD "") :
    last' = .parameter ∧ custom' = custom ∨
      Step.parameter.finalRank (l ++ custom'.getD "").length custom <
        last'.finalRank (l ++ custom'.getD "").length custom' := by
  have hle : v.length ≤ l.length := length_le_of_append_eq hv hc' hsplit
  have hlength := congrArg String.length hsplit
  rw [String.length_append, String.length_append] at hlength
  rcases binds_singleton_iff.1 hbinds with ⟨hlast, -⟩ | ⟨-, hlast, -⟩
  · -- no literal is as long as the fresh value
    cases hlast
    have := hshort l rfl
    omega
  · cases hlast
    cases custom with
    | none =>
      cases custom' with
      | none => exact .inl ⟨rfl, rfl⟩
      | some c' =>
        have hpos := length_pos_of_head? (hc' c' rfl)
        simp only [Option.getD_some, Option.getD_none, String.length_empty] at hlength
        omega
    | some c =>
      cases custom' with
      | none => exact .inr (lt_of_kind_lt (by decide))
      | some c' =>
        rw [Option.getD_some, Option.getD_some] at hsplit hlength
        rw [Option.getD_some]
        rcases Nat.lt_or_eq_of_le hle with hlt | heq
        · refine .inr (lt_of_position_lt ?_)
          rw [String.length_append]
          omega
        · obtain ⟨-, rfl⟩ := append_inj_of_length_eq hsplit heq
          exact .inl ⟨rfl, rfl⟩

/-- An ending that takes the same final segment as that of a pattern, where a fresh value stands for a
parameter, is that of the pattern, shadows it, or ranks after it. -/
theorem eq_or_shadows_or_finalRank_lt {v l : String} {last : Segment} {last' : Step}
    {custom custom' : Option String} {values : List String} (hv : ':' ∉ v.toList)
    (hshort : ∀ text, last' = .literal text → text.length < v.length)
    (hc' : ∀ c ∈ custom', c.toList.head? = some ':') (hbinds : Binds [last'] [l] values)
    (hsplit : last.fill (fun _ => v) ++ custom.getD "" = l ++ custom'.getD "") :
    last' = last.step ∧ custom' = custom ∨ last'.Shadows custom' last.step custom ∨
      last.step.finalRank (l ++ custom'.getD "").length custom <
        last'.finalRank (l ++ custom'.getD "").length custom' := by
  cases last with
  | literal text => exact eq_or_shadows_or_finalRank_lt_literal hbinds hsplit
  | parameter name =>
    rcases eq_or_finalRank_lt_parameter hv hshort hc' hbinds hsplit with hsame | hlt
    · exact .inl hsame
    · exact .inr (.inr hlt)

/-- A pattern that reads the path made from another one with a fresh value is of the same steps and
custom method, shadows it, or ranks after it. -/
theorem Pattern.eq_or_shadows_or_rank_lt {p q : Pattern} {v : String} {front : List Segment} {last : Segment}
    (hsplit : p.segments = front ++ [last]) (hv : ':' ∉ v.toList)
    (hlonger : ∀ text, .literal text ∈ q.steps → text.length < v.length)
    (hq : ∀ c ∈ q.customMethod, c.toList.head? = some ':') {segments values : List String}
    (hsegments : segments = front.map (Segment.fill fun _ => v) ++ [last.fill (fun _ => v) ++ p.customMethod.getD ""])
    (hreads : Reads q.steps segments values q.customMethod) :
    q.steps = p.steps ∧ q.customMethod = p.customMethod ∨ q.Shadows p ∨
      stepsRank (finalLength segments) p.customMethod p.steps <
        stepsRank (finalLength segments) q.customMethod q.steps := by
  have hp : p.steps = front.map Segment.step ++ [last.step] := by
    rw [steps, hsplit, List.map_append, List.map_cons, List.map_nil]
  obtain ⟨front', last', hq'⟩ : ∃ front' last', q.steps = front' ++ [last'] := by
    refine (eq_nil_or_concat q.steps).resolve_left fun hnil => ?_
    have hlen := hreads.length_eq
    rw [hnil, hsegments, List.length_append] at hlen
    cases hlen
  rw [hq', reads_concat_iff] at hreads
  obtain ⟨before, l, bound, more, hsame, -, hfront, hlast⟩ := hreads
  obtain ⟨rfl, hfinal⟩ := List.append_inj' (hsegments.symm.trans hsame) (by rfl)
  have hfinal := (List.cons.inj hfinal).1
  rw [hq'] at hlonger
  have hnotv : ∀ text, .literal text ∈ front' → text ≠ v := by
    rintro text hmem rfl
    exact Nat.lt_irrefl _ (hlonger _ (List.mem_append_left _ hmem))
  have hshort : ∀ text, last' = .literal text → text.length < v.length := by
    rintro text rfl
    exact hlonger text (List.mem_append_right _ (List.mem_singleton.2 rfl))
  rw [hp, hq', stepsRank_concat, stepsRank_concat, hsame, finalLength_concat]
  -- the steps before the last decide, unless they are the same
  rcases eq_or_rank_lt hfront hnotv with rfl | hlt
  · rcases eq_or_shadows_or_finalRank_lt hv hshort hq hlast hfinal with ⟨rfl, hcustom⟩ | hshadows | hlt
    · exact .inl ⟨rfl, hcustom⟩
    · exact .inr (.inl ⟨_, _, _, hq', hp, hshadows⟩)
    · exact .inr (.inr (List.append_left_lt hlt))
  · exact .inr (.inr (hlt _ _))

/-! ## Routes that are reached -/

section Reached

variable {t : Tree .final α} {routes : List (Route α)} {r : Route α}

/-- A route that nothing shadows is the most specific one for the path that is made from its pattern
with a fresh value. -/
theorem IsFresh.isBest {v : String} (hv : IsFresh routes v) (ht : t.Holds routes) (hr : r ∈ routes)
    (hcolon : r.pattern.customMethod ≠ none → ¬ r.pattern.ColonBeforeLast)
    (hshadow : ∀ s ∈ routes, s.method = r.method → ¬ s.pattern.Shadows r.pattern) :
    Route.IsBest routes r.method (RequestPath.ofString (r.pattern.requestPath fun _ => v)).segments r
      (r.pattern.parameterNames.map fun _ => v) := by
  have hfills := hv.fills r.pattern
  have hwf := Pattern.wellFormed_of_parse (ht.parsed r hr)
  refine ⟨hr, rfl, hfills.matches_requestPath hwf hcolon r.method, fun s hs hm others hmatch hne => ?_⟩
  -- a route with the key of this one is this one
  have hdiffer : ¬ (s.pattern.steps = r.pattern.steps ∧ s.pattern.customMethod = r.pattern.customMethod) :=
    fun hsame => hne (ht.distinct s hs r hr (Route.key_eq_iff.2 ⟨hm, hsame⟩))
  rcases eq_nil_or_concat r.pattern.segments with hnil | ⟨front, last, hsplit⟩
  · rw [Pattern.requestPath_of_nil hwf hnil] at hmatch
    obtain ⟨hsteps, -, hcustom⟩ := reads_nil_iff.1 hmatch.1
    rw [hnil] at hwf
    have hsame : s.pattern.steps = r.pattern.steps := by
      rw [show s.pattern.steps = [] from hsteps, Pattern.steps, hnil, List.map_nil]
    exact absurd ⟨hsame, hcustom.trans hwf.custom_eq_none.symm⟩ hdiffer
  · rcases Pattern.eq_or_shadows_or_rank_lt hsplit hv.colon (hv.longer s hs) (ht.head?_customMethod hs)
      (hfills.segments_requestPath hwf hsplit) hmatch.1 with hsame | hshadows | hlt
    · exact absurd hsame hdiffer
    · exact absurd hshadows (hshadow s hs hm)
    · exact hlt

/-- A route of a tree is found for some path exactly when no colon keeps its custom method from being
found and no route of its method shadows it. -/
theorem Tree.Holds.exists_search_eq_some_iff (ht : t.Holds routes) (hr : r ∈ routes) :
    (∃ path a, (t.search r.method (.ofString path)).value = some a ∧ a.terminal = r.terminal) ↔
      ¬ (r.pattern.customMethod ≠ none ∧ r.pattern.ColonBeforeLast) ∧
        ∀ s ∈ routes, s.method = r.method → ¬ s.pattern.Shadows r.pattern := by
  constructor
  · rintro ⟨path, a, hsearch, hterminal⟩
    obtain ⟨s, values, hbest, rfl⟩ := ht.search_eq_some_iff.1 hsearch
    obtain rfl : s = r := ht.eq_of_terminal_eq hbest.mem hr hbest.method hterminal
    exact ⟨fun h => hbest.not_colonBeforeLast h.1 h.2, fun _ hs hm => hbest.not_shadows hs hm⟩
  · rintro ⟨hcolon, hshadow⟩
    obtain ⟨v, hv⟩ := exists_isFresh routes
    have hbest := hv.isBest ht hr (fun hc h => hcolon ⟨hc, h⟩) hshadow
    exact ⟨_, _, ht.search_eq_some_iff.2 ⟨r, _, hbest, rfl⟩, rfl⟩

end Reached

namespace Router.Builder

/-- After any additions, a route that survives them is found for some path exactly when no colon
before its last segment keeps its custom method from being found and no surviving route of its method
shadows it. A route without a custom method is always found for one, and so is one that ends in a
parameter and has no colon in its earlier literals. -/
theorem exists_search_iff_not_shadowed (settings : Settings) (adds : List (Addition α)) (r : Route α)
    (hr : r ∈ Route.surviving settings.duplicates adds) :
    let tree := ((create settings : Logged (Builder α)).value.addAll adds).build.tree
    let Reached := ∃ path a, (tree.search r.method (.ofString path)).value = some a ∧ a.terminal = r.terminal
    (Reached ↔
      ¬ (r.pattern.customMethod ≠ none ∧ r.pattern.ColonBeforeLast) ∧
        ¬ ∃ s ∈ Route.surviving settings.duplicates adds, s.method = r.method ∧ s.pattern.Shadows r.pattern) ∧
      (r.pattern.customMethod = none → Reached) ∧
      ((∃ name, r.pattern.segments.getLast? = some (.parameter name)) → ¬ r.pattern.ColonBeforeLast → Reached) := by
  intro tree Reached
  have hiff : Reached ↔ _ := (holds_build settings adds).exists_search_eq_some_iff hr
  refine ⟨?_, fun hnone => ?_, fun hparameter hcolon => ?_⟩
  · rw [hiff]
    refine and_congr_right fun _ => ?_
    constructor
    · rintro h ⟨s, hs, hm, hshadows⟩
      exact h s hs hm hshadows
    · exact fun h s hs hm hshadows => h ⟨s, hs, hm, hshadows⟩
  · refine hiff.2 ⟨fun h => h.1 hnone, ?_⟩
    rintro s hs hm ⟨_, _, _, _, _, text, c, _, hsome, _⟩
    rw [hnone] at hsome
    cases hsome
  · refine hiff.2 ⟨fun h => hcolon h.2, ?_⟩
    rintro s hs hm ⟨front, last', last, _, hsteps, text, c, rfl, _, _⟩
    obtain ⟨name, hlast⟩ := hparameter
    have hstep := congrArg (·.getLast?) hsteps
    simp [Pattern.steps, hlast, Segment.step] at hstep

/-- The literal `a:b` keeps the literal `a` with the custom method `:b` out of reach. -/
theorem not_exists_search_of_colon_literal :
    let get : Method := ⟨"GET", by decide⟩
    let adds : List (Addition Nat) := [⟨get, "/a:b", 1⟩, ⟨get, "/a\\:b", 2⟩]
    let r : Route Nat := ⟨get, ⟨"/a:b", [.literal "a"], some ":b"⟩, 1⟩
    let tree := ((create ⟨.strict⟩ : Logged (Builder Nat)).value.addAll adds).build.tree
    r ∈ Route.surviving .strict adds ∧
      ¬ ∃ path a, (tree.search get (.ofString path)).value = some a ∧ a.terminal = r.terminal := by
  intro get adds r tree
  let s : Route Nat := ⟨get, ⟨"/a\\:b", [.literal "a:b"], none⟩, 2⟩
  have hfirst : Pattern.parse "/a:b" = .ok ⟨"/a:b", [.literal "a"], some ":b"⟩ := by rfl
  have hsecond : Pattern.parse "/a\\:b" = .ok ⟨"/a\\:b", [.literal "a:b"], none⟩ := by rfl
  have hsurviving : Route.surviving .strict adds = [r, s] := by
    simp [Route.surviving, Route.admitted, Route.Refused, Route.latest, Route.key, Pattern.steps, Segment.step,
      Addition.route?, adds, r, s, hfirst, hsecond]
  have hr : r ∈ Route.surviving .strict adds := by rw [hsurviving]; exact List.mem_cons_self ..
  have hs : s ∈ Route.surviving .strict adds := by rw [hsurviving]; exact List.mem_cons_of_mem _ (List.mem_cons_self ..)
  have hshadows : s.pattern.Shadows r.pattern :=
    ⟨[], _, _, rfl, rfl, "a", ":b", rfl, rfl, .inl ⟨by rfl, rfl⟩⟩
  refine ⟨hr, fun hreached => ?_⟩
  exact ((exists_search_iff_not_shadowed ⟨.strict⟩ adds r hr).1.1 hreached).2 ⟨s, hs, rfl, hshadows⟩

end Router.Builder

end PathRouter
