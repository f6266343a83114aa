/-
Patterns without the names of their parameters. `eraseNames` works on the text of a pattern and leaves
out what stands in braces. Two texts that are read as patterns agree after that, their leading slashes
aside, exactly when the patterns have the same steps and the same custom method.
-/
import PathRouter.Proofs.Pattern.RoundTrip

namespace PathRouter

open Text

/-- The segment of a step, a parameter being left without a name. -/
def Step.unnamed : Step → Segment
  | literal text => .literal text
  | parameter => .parameter ""

namespace Pattern

/-- The rest of a text, which begins inside or outside of braces, with all that stands inside left out. -/
def eraseNamesFrom (inside : Bool) : List Char → List Char
  | [] => []
  | c :: cs =>
    if c = '{' then '{' :: eraseNamesFrom true cs
    else if c = '}' then '}' :: eraseNamesFrom false cs
    else if inside then eraseNamesFrom true cs
    else c :: eraseNamesFrom false cs

/-- A text with every `{name}` replaced by `{}`. -/
def eraseNames (cs : List Char) : List Char := eraseNamesFrom false cs

/-! ## Erasing piece by piece -/

/-- Text without a brace stays. -/
theorem eraseNames_append {cs : List Char} (h : ∀ c ∈ cs, c ≠ '{' ∧ c ≠ '}') (rest : List Char) :
    eraseNames (cs ++ rest) = cs ++ eraseNames rest := by
  induction cs with
  | nil => rfl
  | cons c cs ih =>
    rw [List.forall_mem_cons] at h
    have hrest : eraseNamesFrom false (cs ++ rest) = cs ++ eraseNamesFrom false rest := ih h.2
    simp [eraseNames, eraseNamesFrom, h.1.1, h.1.2, hrest]

theorem eraseNamesFrom_name {name : List Char} (h : ∀ c ∈ name, c ≠ '{' ∧ c ≠ '}') (rest : List Char) :
    eraseNamesFrom true (name ++ '}' :: rest) = '}' :: eraseNames rest := by
  induction name with
  | nil => simp [eraseNames, eraseNamesFrom]
  | cons c name ih =>
    rw [List.forall_mem_cons] at h
    simp [eraseNamesFrom, h.1.1, h.1.2, ih h.2]

theorem ne_brace_of_isPlain {c : Char} (h : IsPlain c) : c ≠ '{' ∧ c ≠ '}' := by
  constructor
  · rintro rfl
    exact absurd h (by decide)
  · rintro rfl
    exact absurd h (by decide)

theorem ne_brace_of_mem_escapeColons {cs : List Char} (h : ∀ c ∈ cs, IsPlain c) :
    ∀ c ∈ escapeColons cs, c ≠ '{' ∧ c ≠ '}' := by
  intro c hc
  by_cases hback : c = '\\'
  · subst hback
    decide
  · exact ne_brace_of_isPlain (h c (mem_of_mem_escapeColons hback hc))

theorem eraseNames_renderSegment_append {s : Segment} (hs : s.WellFormed) (rest : List Char) :
    eraseNames (renderSegment s ++ rest) = renderSegment s.step.unnamed ++ eraseNames rest := by
  cases s with
  | literal text => exact eraseNames_append (ne_brace_of_mem_escapeColons hs.2) rest
  | parameter name =>
    have hname := eraseNamesFrom_name (fun c hc => ne_brace_of_isPlain (hs.2 c hc).2) rest
    simp only [renderSegment, List.cons_append, List.append_assoc, List.nil_append, eraseNames, eraseNamesFrom,
      if_true]
    exact congrArg ('{' :: ·) hname

theorem eraseNames_renderCustomMethod {custom : Option String} (hc : ∀ c ∈ custom, WellFormedCustom c) :
    eraseNames (renderCustomMethod custom) = renderCustomMethod custom := by
  cases custom with
  | none => rfl
  | some c =>
    have hwf := hc c rfl
    have hplain : ∀ x ∈ ':' :: escapeColons c.toList.tail, x ≠ '{' ∧ x ≠ '}' :=
      List.forall_mem_cons.2 ⟨by decide, ne_brace_of_mem_escapeColons hwf.2⟩
    have h := eraseNames_append hplain []
    rw [List.append_nil] at h
    rw [renderCustomMethod_some hwf, h]
    exact List.append_nil _

theorem eraseNames_joined_append (rest : List Char) :
    ∀ {segments : List Segment}, (∀ s ∈ segments, s.WellFormed) →
      eraseNames (joined (segments.map renderSegment) ++ rest) =
        joined (segments.map fun s => renderSegment s.step.unnamed) ++ eraseNames rest
  | [], _ => rfl
  | [s], h => by
    simpa using eraseNames_renderSegment_append (h s (List.mem_singleton.2 rfl)) rest
  | s :: s' :: segments, h => by
    rw [List.forall_mem_cons] at h
    have ih := eraseNames_joined_append rest h.2
    have hslash := @eraseNames_append ['/'] (List.forall_mem_singleton.2 (by decide))
      (joined ((s' :: segments).map renderSegment) ++ rest)
    simp only [List.singleton_append] at hslash
    have hne : ∀ f : Segment → List Char, (s' :: segments).map f ≠ [] := fun f => List.cons_ne_nil _ _
    show eraseNames (joined (renderSegment s :: (s' :: segments).map renderSegment) ++ rest) =
      joined (renderSegment s.step.unnamed :: (s' :: segments).map fun s => renderSegment s.step.unnamed) ++ _
    rw [joined_cons _ (hne _), joined_cons _ (hne _), List.append_assoc,
      List.cons_append, eraseNames_renderSegment_append h.1, hslash, ih]
    simp only [List.append_assoc, List.cons_append]

/-- Erasing the names of a rendered pattern renders its steps. -/
theorem eraseNames_render {segments : List Segment} {custom : Option String} (h : WellFormed segments custom) :
    eraseNames (render segments custom).toList =
      (render ((segments.map Segment.step).map Step.unnamed) custom).toList := by
  unfold render
  rw [String.toList_ofList, String.toList_ofList]
  have herase := eraseNames_joined_append (renderCustomMethod custom) h.segment
  rw [eraseNames_renderCustomMethod h.custom] at herase
  simpa [joined, Function.comp_def] using herase

/-! ## Steps back from their text -/

theorem renderSegment_unnamed (s : Step) : renderSegment s.unnamed = escapeColons s.unnamed.bare := by
  cases s with
  | literal text => rfl
  | parameter => rfl

/-- What is written for a step tells it from others, since no literal text has a brace. -/
theorem step_eq_of_bare_unnamed {s s' : Segment} (hs : s.WellFormed) (hs' : s'.WellFormed)
    (h : s.step.unnamed.bare = s'.step.unnamed.bare) : s.step = s'.step := by
  have hbrace : ∀ text : String, (Segment.literal text).WellFormed → text.toList ≠ ['{', '}'] := by
    intro text htext hnil
    exact absurd (htext.2 '{' (by simp [hnil])) (by decide)
  cases s with
  | literal text =>
    cases s' with
    | literal text' => exact congrArg Step.literal (String.toList_injective h)
    | parameter name' => exact absurd h (hbrace text hs)
  | parameter name =>
    cases s' with
    | literal text' => exact absurd h.symm (hbrace text' hs')
    | parameter name' => rfl

theorem step_eq_of_renderSegment {s s' : Segment} (hs : s.WellFormed) (hs' : s'.WellFormed)
    (h : renderSegment s.step.unnamed = renderSegment s'.step.unnamed) : s.step = s'.step := by
  rw [renderSegment_unnamed, renderSegment_unnamed] at h
  have hcut := congrArg cutAtColon h
  rw [cutAtColon_escapeColons, cutAtColon_escapeColons] at hcut
  exact step_eq_of_bare_unnamed hs hs' (Prod.mk.inj hcut).1

theorem map_step_eq_of_renderSegment :
    ∀ {front front' : List Segment}, (∀ s ∈ front, s.WellFormed) → (∀ s ∈ front', s.WellFormed) →
      front.map (fun s => renderSegment s.step.unnamed) = front'.map (fun s => renderSegment s.step.unnamed) →
        front.map Segment.step = front'.map Segment.step
  | [], [], _, _, _ => rfl
  | s :: front, s' :: front', hs, hs', h => by
    rw [List.forall_mem_cons] at hs hs'
    rw [List.map_cons, List.map_cons, step_eq_of_renderSegment hs.1 hs'.1 (List.cons.inj h).1,
      map_step_eq_of_renderSegment hs.2 hs'.2 (List.cons.inj h).2]

theorem renderCustomMethod_inj {custom custom' : Option String} (hc : ∀ c ∈ custom, WellFormedCustom c)
    (hc' : ∀ c ∈ custom', WellFormedCustom c) (h : renderCustomMethod custom = renderCustomMethod custom') :
    custom = custom' := by
  cases custom with
  | none =>
    cases custom' with
    | none => rfl
    | some c' =>
      rw [renderCustomMethod_some (hc' c' rfl)] at h
      cases h
  | some c =>
    cases custom' with
    | none =>
      rw [renderCustomMethod_some (hc c rfl)] at h
      cases h
    | some c' =>
      rw [renderCustomMethod_some (hc c rfl), renderCustomMethod_some (hc' c' rfl)] at h
      have hcut := congrArg cutAtColon (List.cons.inj h).2
      rw [cutAtColon_escapeColons, cutAtColon_escapeColons] at hcut
      -- both begin with their colon, and the texts after it agree
      obtain ⟨rest, hrest⟩ := List.head?_eq_some_iff.1 (hc c rfl).1
      obtain ⟨rest', hrest'⟩ := List.head?_eq_some_iff.1 (hc' c' rfl).1
      have htail : rest = rest' := by simpa [hrest, hrest'] using (Prod.mk.inj hcut).1
      exact congrArg some (String.toList_injective (by rw [hrest, hrest', htail]))

theorem WellFormed.custom_and_last {front : List Segment} {last : Segment} {custom : Option String}
    (h : WellFormed (front ++ [last]) custom) : ∀ c ∈ custom, WellFormedCustom c ∧ ¬ last.EndsInBackslash := by
  intro c hc
  obtain ⟨s, hs, hend⟩ := h.last c hc
  rw [List.getLast?_concat] at hs
  cases hs
  exact ⟨h.custom c hc, hend⟩

/-- The last component is cut before its custom method. -/
theorem cutAtColon_renderSegment_unnamed {s : Segment} {custom : Option String}
    (hc : ∀ c ∈ custom, WellFormedCustom c ∧ ¬ s.EndsInBackslash) :
    cutAtColon (renderSegment s.step.unnamed ++ renderCustomMethod custom) =
      (s.step.unnamed.bare, renderCustomMethod custom) := by
  rw [renderSegment_unnamed]
  cases custom with
  | none =>
    rw [renderCustomMethod, List.append_nil]
    exact cutAtColon_escapeColons _
  | some c =>
    obtain ⟨hwf, hend⟩ := hc c rfl
    have hlast : s.step.unnamed.bare.getLast? ≠ some '\\' := by
      cases s with
      | literal text => exact hend
      | parameter name => exact show ['{', '}'].getLast? ≠ some '\\' by decide
    rw [renderCustomMethod_some hwf]
    exact cutAtColon_escapeColons_append _ hlast

theorem renderComponents_concat (front : List Segment) (last : Segment) (custom : Option String) :
    renderComponents (front ++ [last]) custom =
      front.map renderSegment ++ [renderSegment last ++ renderCustomMethod custom] := by
  induction front with
  | nil => rfl
  | cons s front ih =>
    rw [List.cons_append, renderComponents_cons s (by simp), ih]
    rfl

/-- The components of the steps of a pattern are neither empty nor do they have a slash. -/
theorem forall_renderComponents_unnamed {segments : List Segment} {custom : Option String}
    (h : WellFormed segments custom) :
    ∀ raw ∈ renderComponents ((segments.map Segment.step).map Step.unnamed) custom, raw ≠ [] ∧ '/' ∉ raw := by
  have hsegment : ∀ s ∈ segments, renderSegment s.step.unnamed ≠ [] ∧ '/' ∉ renderSegment s.step.unnamed := by
    intro s hs
    cases s with
    | literal text => exact ⟨renderSegment_ne_nil (h.segment _ hs), slash_not_mem_renderSegment (h.segment _ hs)⟩
    | parameter name => exact show ['{', '}'] ≠ [] ∧ '/' ∉ ['{', '}'] by decide
  rcases List.eq_nil_or_concat segments with rfl | ⟨front, last, rfl⟩
  · simp [renderComponents]
  · rw [List.concat_eq_append] at hsegment ⊢
    rw [List.map_append, List.map_append, List.map_cons, List.map_cons, List.map_nil, List.map_nil,
      renderComponents_concat]
    intro raw hraw
    rcases List.mem_append.1 hraw with hraw | hraw
    · simp only [List.map_map, List.mem_map] at hraw
      obtain ⟨s, hs, rfl⟩ := hraw
      exact hsegment s (List.mem_append_left _ hs)
    · cases List.mem_singleton.1 hraw
      obtain ⟨hne, hslash⟩ := hsegment last (List.mem_append_right _ (List.mem_singleton.2 rfl))
      rw [List.mem_append, not_or]
      exact ⟨by simp [hne], hslash, slash_not_mem_renderCustomMethod h.custom⟩

/-- The components of the steps of a pattern tell the steps and the custom method. -/
theorem steps_eq_of_renderComponents {segments segments' : List Segment} {custom custom' : Option String}
    (h : WellFormed segments custom) (h' : WellFormed segments' custom')
    (heq : renderComponents ((segments.map Segment.step).map Step.unnamed) custom =
      renderComponents ((segments'.map Segment.step).map Step.unnamed) custom') :
    segments.map Segment.step = segments'.map Segment.step ∧ custom = custom' := by
  rcases List.eq_nil_or_concat segments with rfl | ⟨front, last, rfl⟩
  · cases segments' with
    | nil => exact ⟨rfl, h.custom_eq_none.trans h'.custom_eq_none.symm⟩
    | cons s' rest' => exact absurd heq.symm (renderComponents_ne_nil (by simp) custom')
  · rcases List.eq_nil_or_concat segments' with rfl | ⟨front', last', rfl⟩
    · exact absurd heq (renderComponents_ne_nil (by simp) custom)
    · simp only [List.concat_eq_append, List.map_append, List.map_cons, List.map_nil,
        renderComponents_concat] at heq h h' ⊢
      obtain ⟨hfront, hlast⟩ := List.append_inj' heq (by rfl)
      have hs := List.forall_mem_append.1 h.segment
      have hs' := List.forall_mem_append.1 h'.segment
      have hcut := congrArg cutAtColon (List.cons.inj hlast).1
      rw [cutAtColon_renderSegment_unnamed h.custom_and_last,
        cutAtColon_renderSegment_unnamed h'.custom_and_last] at hcut
      obtain ⟨hbare, hcustom⟩ := Prod.mk.inj hcut
      rw [map_step_eq_of_renderSegment hs.1 hs'.1 (by simpa [Function.comp_def] using hfront),
        step_eq_of_bare_unnamed (hs.2 _ (List.mem_singleton.2 rfl)) (hs'.2 _ (List.mem_singleton.2 rfl)) hbare]
      exact ⟨rfl, renderCustomMethod_inj h.custom h'.custom hcustom⟩

/-- The text rendered for the steps of a pattern tells the steps and the custom method. -/
theorem render_unnamed_inj {segments segments' : List Segment} {custom custom' : Option String}
    (h : WellFormed segments custom) (h' : WellFormed segments' custom') :
    render ((segments.map Segment.step).map Step.unnamed) custom =
        render ((segments'.map Segment.step).map Step.unnamed) custom' ↔
      segments.map Segment.step = segments'.map Segment.step ∧ custom = custom' := by
  have hnone : ∀ {segments : List Segment} {custom : Option String}, WellFormed segments custom →
      (segments.map Segment.step).map Step.unnamed = [] → custom = none := by
    intro segments custom hwf hnil
    rw [List.map_eq_nil_iff, List.map_eq_nil_iff] at hnil
    subst hnil
    exact hwf.custom_eq_none
  constructor
  · intro heq
    have hjoined := congrArg (fun text => components text.toList) heq
    simp only [toList_render (hnone h), toList_render (hnone h'),
      components_joined (forall_renderComponents_unnamed h),
      components_joined (forall_renderComponents_unnamed h')] at hjoined
    exact steps_eq_of_renderComponents h h' hjoined
  · rintro ⟨hs, rfl⟩
    rw [hs]

/-- Whether two texts are the same once their leading slashes and the names of their parameters are left
out. -/
def AgreeUpToNames (a b : String) : Prop :=
  eraseNames (dropSlash a.toList) = eraseNames (dropSlash b.toList)

/-- Two accepted texts agree up to names exactly when they are read as the same steps and the same custom
method. -/
theorem agreeUpToNames_iff {a b : String} {p q : Pattern} (ha : parse a = .ok p) (hb : parse b = .ok q) :
    AgreeUpToNames a b ↔ p.steps = q.steps ∧ p.customMethod = q.customMethod := by
  have hp := wellFormed_of_parse ha
  have hq := wellFormed_of_parse hb
  unfold AgreeUpToNames
  rw [(components_eq_render_iff hp).1 (parse_eq_ok_iff_components.1 ha).2.2,
    (components_eq_render_iff hq).1 (parse_eq_ok_iff_components.1 hb).2.2, eraseNames_render hp, eraseNames_render hq,
    String.toList_inj]
  exact render_unnamed_inj hp hq

example : AgreeUpToNames "/v1/{id}/a\\:b:run" "v1/{name}/a\\:b:run" := by
  unfold AgreeUpToNames
  decide

end Pattern

end PathRouter
