/-
Parsing is the inverse of rendering. The parser accepts a text exactly when the text, its leading
slash aside, is the rendering of well-formed segments and a well-formed custom method, and those are
what it reads; so accepted texts tell segments and custom methods apart.
-/
import PathRouter.Proofs.Pattern.Grammar
import PathRouter.Proofs.Text.Components

namespace PathRouter.Pattern

open Text

/-- The components a pattern is written with. -/
def renderComponents : List Segment → Option String → List (List Char)
  | [], _ => []
  | [s], custom => [renderSegment s ++ renderCustomMethod custom]
  | s :: rest, custom => renderSegment s :: renderComponents rest custom

theorem renderComponents_cons (s : Segment) {rest : List Segment} (h : rest ≠ []) (custom : Option String) :
    renderComponents (s :: rest) custom = renderSegment s :: renderComponents rest custom := by
  cases rest with
  | nil => exact absurd rfl h
  | cons => rfl

theorem renderComponents_ne_nil {segments : List Segment} (h : segments ≠ []) (custom : Option String) :
    renderComponents segments custom ≠ [] := by
  rcases segments with _ | ⟨s, _ | ⟨s', rest⟩⟩
  · exact absurd rfl h
  · exact List.cons_ne_nil _ _
  · exact List.cons_ne_nil _ _

/-- The rendered text is that of the components, where there are any. -/
theorem toList_render {custom : Option String} :
    ∀ {segments : List Segment}, (segments = [] → custom = none) →
      (render segments custom).toList = joined (renderComponents segments custom)
  | [], h => by simp [h rfl, render, renderCustomMethod, renderComponents]
  | [s], _ => by simp [render, renderComponents]
  | s :: s' :: rest, _ => by
    have ih := @toList_render custom (s' :: rest) (by simp)
    rw [renderComponents_cons s (List.cons_ne_nil _ _),
      joined_cons _ (renderComponents_ne_nil (List.cons_ne_nil _ _) custom), ← ih]
    simp [render]

theorem slash_not_mem_renderComponents {custom : Option String} (hc : ∀ c ∈ custom, WellFormedCustom c) :
    ∀ {segments : List Segment}, (∀ s ∈ segments, s.WellFormed) →
      ∀ raw ∈ renderComponents segments custom, '/' ∉ raw
  | [], _ => by simp [renderComponents]
  | [s], hs => by
    simp only [renderComponents, List.forall_mem_singleton] at hs ⊢
    rw [List.mem_append, not_or]
    exact ⟨slash_not_mem_renderSegment hs, slash_not_mem_renderCustomMethod hc⟩
  | s :: s' :: rest, hs => by
    rw [List.forall_mem_cons] at hs
    rw [renderComponents_cons s (List.cons_ne_nil _ _), List.forall_mem_cons]
    exact ⟨slash_not_mem_renderSegment hs.1, slash_not_mem_renderComponents hc hs.2⟩

theorem renderComponents_ne_singleton_nil {segments : List Segment} {custom : Option String}
    (hs : ∀ s ∈ segments, s.WellFormed) : renderComponents segments custom ≠ [[]] := by
  rcases segments with _ | ⟨s, _ | ⟨s', rest⟩⟩
  · simp [renderComponents]
  · have hne := renderSegment_ne_nil (hs s (List.mem_singleton.2 rfl))
    simp [renderComponents, hne]
  · have hne := renderComponents_ne_nil (List.cons_ne_nil s' rest) custom
    rw [renderComponents_cons s (List.cons_ne_nil _ _)]
    simp [hne]

/-! ## Reading the components -/

/-- The segments and custom methods that fit after segments with the names `bound`. -/
structure Fits (bound : List String) (segments : List Segment) (custom : Option String) : Prop where
  wellFormed : WellFormed segments custom
  fresh : ∀ name ∈ segments.filterMap Segment.name?, name ∉ bound

theorem bindName_eq_ok_iff {bound bound' : List String} {s : Segment} :
    bindName bound s = .ok bound' ↔
      (∀ name ∈ s.name?, name ∉ bound) ∧ bound' = s.name?.toList ++ bound := by
  cases s with
  | literal text => simp [bindName, Segment.name?, eq_comm]
  | parameter name =>
    by_cases h : name ∈ bound
    · simp [bindName, Segment.name?, h]
    · simp [bindName, Segment.name?, h, eq_comm]

theorem fits_singleton_iff {bound : List String} {s : Segment} {custom : Option String} :
    Fits bound [s] custom ↔
      (s.WellFormed ∧ ∀ c ∈ custom, WellFormedCustom c ∧ ¬ s.EndsInBackslash) ∧
        ∀ name ∈ s.name?, name ∉ bound := by
  constructor
  · rintro ⟨⟨hs, -, hc, hlast⟩, hfresh⟩
    refine ⟨⟨hs s (List.mem_singleton.2 rfl), fun c hm => ⟨hc c hm, ?_⟩⟩, fun name hn => hfresh name ?_⟩
    · obtain ⟨s', hs', hend⟩ := hlast c hm
      cases hs'
      exact hend
    · simpa using hn
  · rintro ⟨⟨hs, hc⟩, hfresh⟩
    refine ⟨⟨by simpa using hs, ?_, fun c hm => (hc c hm).1, fun c hm => ⟨s, rfl, (hc c hm).2⟩⟩, ?_⟩
    · cases hn : s.name? <;> simp [hn]
    · simpa using hfresh

theorem fits_cons_iff {bound : List String} {s : Segment} {rest : List Segment} (hrest : rest ≠ [])
    {custom : Option String} :
    Fits bound (s :: rest) custom ↔
      s.WellFormed ∧ (∀ name ∈ s.name?, name ∉ bound) ∧ Fits (s.name?.toList ++ bound) rest custom := by
  have hlast : (s :: rest).getLast? = rest.getLast? := by
    obtain ⟨s', rest', rfl⟩ := List.exists_cons_of_ne_nil hrest
    exact List.getLast?_cons_cons
  have hnames : (s :: rest).filterMap Segment.name? = s.name?.toList ++ rest.filterMap Segment.name? := by
    cases h : s.name? <;> simp [h]
  constructor
  · rintro ⟨⟨hs, hnodup, hc, hl⟩, hfresh⟩
    rw [hnames] at hnodup hfresh
    rw [List.nodup_append] at hnodup
    rw [List.forall_mem_cons] at hs
    refine ⟨hs.1, fun name hn => hfresh name (by simp [Option.mem_def.1 hn]),
      ⟨⟨hs.2, hnodup.2.1, hc, hlast ▸ hl⟩, fun name hn => ?_⟩⟩
    rw [List.mem_append, not_or]
    exact ⟨fun hmem => hnodup.2.2 name hmem name hn rfl, hfresh name (List.mem_append_right _ hn)⟩
  · rintro ⟨hs, hname, ⟨hss, hnodup, hc, hl⟩, hfresh⟩
    refine ⟨⟨List.forall_mem_cons.2 ⟨hs, hss⟩, ?_, hc, hlast ▸ hl⟩, ?_⟩
    · rw [hnames, List.nodup_append]
      refine ⟨by cases s.name? <;> simp, hnodup, ?_⟩
      rintro a ha b hb rfl
      exact hfresh a hb (List.mem_append_left _ ha)
    · rw [hnames]
      intro name hn
      rcases List.mem_append.1 hn with hn | hn
      · exact hname name (by simpa using hn)
      · exact fun hb => hfresh name hn (List.mem_append_right _ hb)

theorem fits_nil_iff {bound : List String} {custom : Option String} : Fits bound [] custom ↔ custom = none := by
  constructor
  · rintro ⟨⟨-, -, -, hlast⟩, -⟩
    cases custom with
    | none => rfl
    | some c =>
      obtain ⟨s, hs, -⟩ := hlast c rfl
      cases hs
  · rintro rfl
    exact ⟨⟨by simp, by simp, by simp, by simp⟩, by simp⟩

/-- The last component is read with its custom method. -/
theorem readSegments_singleton_eq_ok_iff {raw : List Char} (hslash : '/' ∉ raw) {bound : List String}
    {segments : List Segment} {custom : Option String} :
    readSegments bound [raw] = .ok (segments, custom) ↔
      Fits bound segments custom ∧ [raw] = renderComponents segments custom := by
  simp only [readSegments]
  constructor
  · intro h
    obtain ⟨⟨s, c⟩, hread, h⟩ := bind_eq_ok_iff.1 h
    obtain ⟨bound', hbind, h⟩ := bind_eq_ok_iff.1 h
    cases h
    obtain ⟨hs, hc, rfl⟩ := (readLast_eq_ok_iff hslash).1 hread
    exact ⟨fits_singleton_iff.2 ⟨⟨hs, hc⟩, (bindName_eq_ok_iff.1 hbind).1⟩, rfl⟩
  · rintro ⟨hfits, hraw⟩
    rcases segments with _ | ⟨s, _ | ⟨s', rest⟩⟩
    · cases hraw
    · obtain ⟨⟨hs, hc⟩, hfresh⟩ := fits_singleton_iff.1 hfits
      have hread := (readLast_eq_ok_iff hslash).2 ⟨hs, hc, (List.cons.inj hraw).1⟩
      exact bind_eq_ok_iff.2 ⟨_, hread, bind_eq_ok_iff.2 ⟨_, bindName_eq_ok_iff.2 ⟨hfresh, rfl⟩, rfl⟩⟩
    · rw [renderComponents_cons s (List.cons_ne_nil _ _)] at hraw
      exact absurd (List.cons.inj hraw).2.symm (renderComponents_ne_nil (List.cons_ne_nil _ _) custom)

/-- Components are read exactly when they are the written form of what is read. -/
theorem readSegments_eq_ok_iff {custom : Option String} :
    ∀ {raws : List (List Char)} {bound : List String} {segments : List Segment}, (∀ raw ∈ raws, '/' ∉ raw) →
      (readSegments bound raws = .ok (segments, custom) ↔
        Fits bound segments custom ∧ raws = renderComponents segments custom)
  | [], bound, segments, _ => by
    simp only [readSegments, Except.ok.injEq, Prod.mk.injEq]
    constructor
    · rintro ⟨rfl, rfl⟩
      exact ⟨fits_nil_iff.2 rfl, rfl⟩
    · rintro ⟨hfits, hraws⟩
      by_cases hnil : segments = []
      · subst hnil
        exact ⟨rfl, (fits_nil_iff.1 hfits).symm⟩
      · exact absurd hraws.symm (renderComponents_ne_nil hnil custom)
  | [raw], bound, segments, hslash => readSegments_singleton_eq_ok_iff (hslash raw (List.mem_singleton.2 rfl))
  | raw :: raw' :: raws, bound, segments, hslash => by
    rw [List.forall_mem_cons] at hslash
    simp only [readSegments]
    constructor
    · intro h
      obtain ⟨s, hread, h⟩ := bind_eq_ok_iff.1 h
      obtain ⟨bound', hbind, h⟩ := bind_eq_ok_iff.1 h
      obtain ⟨⟨rest, c⟩, hrest, h⟩ := bind_eq_ok_iff.1 h
      cases h
      obtain ⟨hs, rfl⟩ := (readInner_eq_ok_iff hslash.1).1 hread
      obtain ⟨hfresh, rfl⟩ := bindName_eq_ok_iff.1 hbind
      obtain ⟨hfits, hraws⟩ := (readSegments_eq_ok_iff hslash.2).1 hrest
      -- components are left, so segments are
      have hne : rest ≠ [] := by
        rintro rfl
        cases hraws
      exact ⟨(fits_cons_iff hne).2 ⟨hs, hfresh, hfits⟩, by rw [renderComponents_cons s hne, hraws]⟩
    · rintro ⟨hfits, hraw⟩
      rcases segments with _ | ⟨s, _ | ⟨s', rest⟩⟩
      · cases hraw
      · cases (List.cons.inj hraw).2
      · rw [renderComponents_cons s (List.cons_ne_nil _ _)] at hraw
        obtain ⟨hraw, hraws⟩ := List.cons.inj hraw
        obtain ⟨hs, hfresh, hfits⟩ := (fits_cons_iff (List.cons_ne_nil _ _)).1 hfits
        refine bind_eq_ok_iff.2 ⟨s, (readInner_eq_ok_iff hslash.1).2 ⟨hs, hraw⟩, ?_⟩
        refine bind_eq_ok_iff.2 ⟨_, bindName_eq_ok_iff.2 ⟨hfresh, rfl⟩, ?_⟩
        exact bind_eq_ok_iff.2 ⟨_, (readSegments_eq_ok_iff hslash.2).2 ⟨hfits, hraws⟩, rfl⟩

/-! ## Patterns -/

theorem parse_eq_ok_iff_components {text : String} {p : Pattern} :
    parse text = .ok p ↔ p.text = text ∧ WellFormed p.segments p.customMethod ∧
      components text.toList = renderComponents p.segments p.customMethod := by
  have hslash : ∀ raw ∈ components text.toList, '/' ∉ raw := fun raw h => not_mem_of_mem_components h
  have hfits : ∀ segments custom, Fits [] segments custom ↔ WellFormed segments custom :=
    fun segments custom => ⟨fun h => h.wellFormed, fun h => ⟨h, by simp⟩⟩
  unfold parse
  constructor
  · intro h
    obtain ⟨⟨segments, custom⟩, hread, h⟩ := bind_eq_ok_iff.1 h
    cases h
    rw [readSegments_eq_ok_iff hslash, hfits] at hread
    exact ⟨rfl, hread⟩
  · rintro ⟨rfl, h⟩
    rw [← hfits, ← readSegments_eq_ok_iff hslash] at h
    exact bind_eq_ok_iff.2 ⟨_, h, rfl⟩

theorem WellFormed.custom_eq_none {custom : Option String} (h : WellFormed [] custom) : custom = none :=
  (@fits_nil_iff [] custom).1 ⟨h, by simp⟩

theorem components_eq_render_iff {text : List Char} {segments : List Segment} {custom : Option String}
    (h : WellFormed segments custom) :
    components text = renderComponents segments custom ↔ dropSlash text = (render segments custom).toList := by
  rw [components_eq_iff (slash_not_mem_renderComponents h.custom h.segment)
    (renderComponents_ne_singleton_nil h.segment), toList_render]
  rintro rfl
  exact h.custom_eq_none

/-- What the parser reads is well formed. -/
theorem wellFormed_of_parse {text : String} {p : Pattern} (h : parse text = .ok p) :
    WellFormed p.segments p.customMethod :=
  (parse_eq_ok_iff_components.1 h).2.1

/-- Texts with the same components are read alike. -/
theorem parse_congr {a b : String} {p q : Pattern} (hab : dropSlash a.toList = dropSlash b.toList)
    (ha : parse a = .ok p) (hb : parse b = .ok q) :
    p.segments = q.segments ∧ p.customMethod = q.customMethod := by
  unfold parse at ha hb
  rw [components_inj.2 hab] at ha
  obtain ⟨r, hr, ha⟩ := bind_eq_ok_iff.1 ha
  obtain ⟨r', hr', hb⟩ := bind_eq_ok_iff.1 hb
  rw [hr] at hr'
  cases hr'
  cases ha
  cases hb
  exact ⟨rfl, rfl⟩

/-- A text is read as a pattern exactly when that pattern is well formed, keeps the text, and its
rendering is the text without a leading slash. So two accepted texts agree on segments and custom
method exactly when they differ in a leading slash at most. -/
theorem parse_iff_render :
    (∀ (text : String) (p : Pattern), parse text = .ok p ↔
      p.text = text ∧ WellFormed p.segments p.customMethod ∧
        dropSlash text.toList = (render p.segments p.customMethod).toList) ∧
    ∀ (a b : String) (p q : Pattern), parse a = .ok p → parse b = .ok q →
      (p.segments = q.segments ∧ p.customMethod = q.customMethod ↔
        dropSlash a.toList = dropSlash b.toList) := by
  refine ⟨fun text p => ?_, fun a b p q ha hb => ?_⟩
  · rw [parse_eq_ok_iff_components]
    exact and_congr_right fun _ => and_congr_right fun h => components_eq_render_iff h
  · constructor
    · rintro ⟨hs, hc⟩
      have hwf := wellFormed_of_parse ha
      rw [(components_eq_render_iff hwf).1 (parse_eq_ok_iff_components.1 ha).2.2, hs, hc,
        (components_eq_render_iff (wellFormed_of_parse hb)).1 (parse_eq_ok_iff_components.1 hb).2.2]
    · exact fun h => parse_congr h ha hb

example : parse "/a\\:b/{id}:run" =
    .ok ⟨"/a\\:b/{id}:run", [.literal "a:b", .parameter "id"], some ":run"⟩ := by rfl

end PathRouter.Pattern
