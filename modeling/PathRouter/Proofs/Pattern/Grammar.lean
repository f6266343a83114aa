/-
The grammar of route patterns, and the readers of segments against it. `WellFormed` says which lists
of segments and custom methods a pattern can have. Each reader of the parser succeeds exactly on the
written form of a well-formed part, so nothing else is accepted and no text is lost.
-/
import PathRouter.Pattern.Parser
import PathRouter.Pattern.Printer
import PathRouter.Proofs.Text.Colon

namespace PathRouter

open Text

namespace Pattern

/-- The characters of literal text and of custom methods. -/
def IsPlain (c : Char) : Prop := c ∉ ['/', '?', '#', '[', ']', '{', '}']

instance (c : Char) : Decidable (IsPlain c) := inferInstanceAs (Decidable (_ ∉ _))

end Pattern

open Pattern

namespace Segment

/-- What the grammar asks of a segment. -/
def WellFormed : Segment → Prop
  | literal text => text ≠ "" ∧ ∀ c ∈ text.toList, IsPlain c
  | parameter name => name ≠ "" ∧ ∀ c ∈ name.toList, c ≠ ':' ∧ IsPlain c

/-- Whether a segment, as it is written, ends in a backslash. -/
def EndsInBackslash : Segment → Prop
  | literal text => text.toList.getLast? = some '\\'
  | parameter _ => False

/-- A segment with its braces but without escapes. -/
def bare : Segment → List Char
  | literal text => text.toList
  | parameter name => '{' :: name.toList ++ ['}']

instance : (s : Segment) → Decidable s.WellFormed
  | literal _ => inferInstanceAs (Decidable (_ ∧ _))
  | parameter _ => inferInstanceAs (Decidable (_ ∧ _))

end Segment

namespace Pattern

/-- What the grammar asks of a custom method: a colon, and plain text after it. -/
def WellFormedCustom (custom : String) : Prop :=
  custom.toList.head? = some ':' ∧ ∀ c ∈ custom.toList.tail, IsPlain c

instance (custom : String) : Decidable (WellFormedCustom custom) := inferInstanceAs (Decidable (_ ∧ _))

/-- The segments and custom methods that patterns are made of. -/
structure WellFormed (segments : List Segment) (customMethod : Option String) : Prop where
  segment : ∀ s ∈ segments, s.WellFormed
  names : (segments.filterMap Segment.name?).Nodup
  custom : ∀ c ∈ customMethod, WellFormedCustom c
  /-- A custom method follows a segment, and no backslash at its end can escape the colon. -/
  last : ∀ c ∈ customMethod, ∃ s ∈ segments.getLast?, ¬ s.EndsInBackslash

/-! ## Readers that may fail -/

theorem bind_eq_ok_iff {ε α β : Type} {x : Except ε α} {f : α → Except ε β} {b : β} :
    (x >>= f) = .ok b ↔ ∃ a, x = .ok a ∧ f a = .ok b := by
  cases x with
  | error e => simp [bind, Except.bind]
  | ok a => simp [bind, Except.bind]

theorem map_eq_ok_iff {ε α β : Type} {x : Except ε α} {f : α → β} {b : β} :
    x.map f = .ok b ↔ ∃ a, x = .ok a ∧ f a = b := by
  cases x with
  | error e => simp [Except.map]
  | ok a => simp [Except.map]

/-! ## Characters -/

theorem isPlain_iff {c : Char} : IsPlain c ↔ c ≠ '/' ∧ isReserved c = false := by
  simp [IsPlain, isReserved]

theorem forall_isPlain_iff {cs : List Char} (hslash : '/' ∉ cs) :
    (∀ c ∈ cs, IsPlain c) ↔ ∀ c ∈ cs, isReserved c = false := by
  constructor
  · intro h c hc
    exact (isPlain_iff.1 (h c hc)).2
  · intro h c hc
    exact isPlain_iff.2 ⟨fun e => hslash (e ▸ hc), h c hc⟩

theorem isName_iff {name : List Char} :
    isName name = true ↔ name ≠ [] ∧ ∀ c ∈ name, c ≠ ':' ∧ IsPlain c := by
  simp only [isName, isPlain_iff, Bool.and_eq_true, Bool.not_eq_true', List.isEmpty_eq_false_iff,
    List.all_eq_true, Bool.or_eq_false_iff, beq_eq_false_iff_ne, ne_eq]
  constructor
  · rintro ⟨hne, h⟩
    exact ⟨hne, fun c hc => ⟨(h c hc).1.1, (h c hc).1.2, (h c hc).2⟩⟩
  · rintro ⟨hne, h⟩
    exact ⟨hne, fun c hc => ⟨⟨(h c hc).1, (h c hc).2.1⟩, (h c hc).2.2⟩⟩

theorem beforeBrace?_eq_some_iff {cs name : List Char} :
    beforeBrace? cs = some name ↔ cs = name ++ ['}'] := by
  unfold beforeBrace?
  constructor
  · intro h
    split at h
    · next hlast =>
      obtain ⟨front, rfl⟩ := List.getLast?_eq_some_iff.1 hlast
      simpa using h
    · cases h
  · rintro rfl
    simp

/-! ## Readers of segments -/

theorem readLiteral_eq_ok_iff {raw text : List Char} {t : String} :
    readLiteral raw text = .ok t ↔ t = .ofList text ∧ ∀ c ∈ text, isReserved c = false := by
  unfold readLiteral
  constructor
  · intro h
    split at h
    · cases h
    · next hf =>
      cases h
      exact ⟨rfl, fun c hc => by simpa using List.find?_eq_none.1 hf c hc⟩
  · rintro ⟨rfl, h⟩
    rw [List.find?_eq_none.2 fun c hc => by simp [h c hc]]

theorem readParameter_eq_ok_iff {raw inner : List Char} {s : Segment} :
    readParameter raw inner = .ok s ↔
      ∃ name, s = .parameter (.ofList name) ∧ inner = name ++ ['}'] ∧ isName name = true := by
  unfold readParameter
  constructor
  · intro h
    split at h
    · cases h
    · next name hname =>
      split at h
      · next hok =>
        cases h
        exact ⟨name, rfl, beforeBrace?_eq_some_iff.1 hname, hok⟩
      · cases h
  · rintro ⟨name, rfl, rfl, hok⟩
    rw [beforeBrace?_eq_some_iff.2 rfl]
    simp [hok]

/-- Only parameters begin with a brace. -/
theorem exists_parameter_of_bare {s : Segment} (hs : s.WellFormed) {cs : List Char}
    (h : s.bare = '{' :: cs) : ∃ name : String, s = .parameter name ∧ cs = name.toList ++ ['}'] := by
  cases s with
  | literal text =>
    have hplain := hs.2 '{' (by rw [show text.toList = _ from h]; exact List.mem_cons_self ..)
    exact absurd hplain (by decide)
  | parameter name => exact ⟨name, rfl, (List.cons.inj h).2.symm⟩

theorem bare_ne_nil {s : Segment} (hs : s.WellFormed) : s.bare ≠ [] := by
  cases s with
  | literal text => exact fun h => hs.1 (String.toList_eq_nil_iff.1 h)
  | parameter name => exact List.cons_ne_nil _ _

theorem getLast?_bare (s : Segment) : s.bare.getLast? = some '\\' ↔ s.EndsInBackslash := by
  cases s with
  | literal text => exact Iff.rfl
  | parameter name =>
    have hlast : (Segment.bare (.parameter name)).getLast? = some '}' :=
      List.getLast?_concat (l := '{' :: name.toList)
    simp [hlast, Segment.EndsInBackslash]

/-- Reading the unescaped text of a segment accepts exactly the bare forms of well-formed segments. -/
theorem readHead_eq_ok_iff {raw head : List Char} (hslash : '/' ∉ head) {s : Segment} :
    readHead raw head = .ok s ↔ s.WellFormed ∧ head = s.bare := by
  cases head with
  | nil =>
    constructor
    · intro h
      cases h
    · rintro ⟨hs, hbare⟩
      exact absurd hbare.symm (bare_ne_nil hs)
  | cons c cs =>
    simp only [readHead]
    by_cases hc : c = '{'
    · subst hc
      rw [if_pos rfl, readParameter_eq_ok_iff]
      constructor
      · rintro ⟨name, rfl, rfl, hname⟩
        rw [isName_iff] at hname
        exact ⟨⟨by simpa using hname.1, by simpa using hname.2⟩, by simp [Segment.bare]⟩
      · rintro ⟨hs, hbare⟩
        obtain ⟨name, rfl, rfl⟩ := exists_parameter_of_bare hs hbare.symm
        refine ⟨name.toList, by simp, rfl, isName_iff.2 ⟨?_, hs.2⟩⟩
        exact fun h => hs.1 (String.toList_eq_nil_iff.1 h)
    · rw [if_neg hc, map_eq_ok_iff]
      simp only [readLiteral_eq_ok_iff]
      constructor
      · rintro ⟨t, ⟨rfl, h⟩, rfl⟩
        refine ⟨⟨by simp, ?_⟩, by simp [Segment.bare]⟩
        rw [String.toList_ofList]
        exact (forall_isPlain_iff hslash).2 h
      · -- without a brace in front no parameter has this form
        rintro ⟨hs, hbare⟩
        cases s with
        | literal t =>
          have htext : c :: cs = t.toList := hbare
          exact ⟨t, ⟨by simp [htext], (forall_isPlain_iff hslash).1 (htext ▸ hs.2)⟩, rfl⟩
        | parameter name => exact absurd (List.cons.inj hbare).1 hc

/-! ## Components -/

theorem renderSegment_eq {s : Segment} (hs : s.WellFormed) : renderSegment s = escapeColons s.bare := by
  cases s with
  | literal text => rfl
  | parameter name =>
    have hcolon : ':' ∉ Segment.bare (.parameter name) := by
      simp only [Segment.bare, List.cons_append, List.mem_cons, List.mem_append, List.not_mem_nil, or_false,
        not_or]
      exact ⟨by decide, fun h => (hs.2 ':' h).1 rfl, by decide⟩
    exact (escapeColons_of_not_mem hcolon).symm

theorem renderSegment_ne_nil {s : Segment} (hs : s.WellFormed) : renderSegment s ≠ [] := by
  rw [renderSegment_eq hs]
  exact escapeColons_ne_nil (bare_ne_nil hs)

theorem slash_not_mem_bare {s : Segment} (hs : s.WellFormed) : '/' ∉ s.bare := by
  cases s with
  | literal text => exact fun h => absurd (hs.2 _ h) (by decide)
  | parameter name =>
    simp only [Segment.bare, List.cons_append, List.mem_cons, List.mem_append, List.not_mem_nil, or_false,
      not_or]
    exact ⟨by decide, fun h => absurd (hs.2 _ h).2 (by decide), by decide⟩

theorem slash_not_mem_renderSegment {s : Segment} (hs : s.WellFormed) : '/' ∉ renderSegment s := by
  rw [renderSegment_eq hs]
  exact fun h => slash_not_mem_bare hs (mem_of_mem_escapeColons (by decide) h)

/-- The written form of a custom method after its colon. -/
theorem renderCustomMethod_some {c : String} (hc : WellFormedCustom c) :
    renderCustomMethod (some c) = ':' :: escapeColons c.toList.tail := by
  obtain ⟨hhead, -⟩ := hc
  unfold renderCustomMethod
  cases hcs : c.toList with
  | nil => simp [hcs] at hhead
  | cons d ds => simp_all

theorem slash_not_mem_renderCustomMethod {custom : Option String} (hc : ∀ c ∈ custom, WellFormedCustom c) :
    '/' ∉ renderCustomMethod custom := by
  cases custom with
  | none => simp [renderCustomMethod]
  | some c =>
    have hwf := hc c rfl
    rw [renderCustomMethod_some hwf, List.mem_cons, not_or]
    refine ⟨by decide, fun h => ?_⟩
    exact absurd (hwf.2 _ (mem_of_mem_escapeColons (by decide) h)) (by decide)

/-- A component that others follow is read exactly when it is a well-formed segment as written. -/
theorem readInner_eq_ok_iff {raw : List Char} (hslash : '/' ∉ raw) {s : Segment} :
    readInner raw = .ok s ↔ s.WellFormed ∧ raw = renderSegment s := by
  unfold readInner
  constructor
  · intro h
    split at h
    · next head hcut =>
      rw [cutAtColon_eq_nil_iff] at hcut
      subst hcut
      rw [readHead_eq_ok_iff fun hm => hslash (mem_escapeColons_of_mem hm)] at h
      exact ⟨h.1, by rw [renderSegment_eq h.1, h.2]⟩
    · cases h
  · rintro ⟨hs, rfl⟩
    rw [renderSegment_eq hs, cutAtColon_escapeColons]
    exact (readHead_eq_ok_iff (slash_not_mem_bare hs)).2 ⟨hs, rfl⟩

theorem readCustomMethod_eq_ok_iff {raw method : List Char} (hslash : '/' ∉ method) {c : String} :
    readCustomMethod raw method = .ok c ↔
      WellFormedCustom c ∧ ':' :: method = renderCustomMethod (some c) := by
  unfold readCustomMethod
  constructor
  · intro h
    split at h
    · cases h
    · split at h
      · cases h
      · next text hcut =>
        rw [cutAtColon_eq_nil_iff] at hcut
        subst hcut
        obtain ⟨t, ht, rfl⟩ := map_eq_ok_iff.1 h
        obtain ⟨rfl, hplain⟩ := readLiteral_eq_ok_iff.1 ht
        have hwf : WellFormedCustom (":" ++ .ofList text) :=
          ⟨by simp, by simpa using
            (forall_isPlain_iff fun hm => hslash (mem_escapeColons_of_mem hm)).2 hplain⟩
        exact ⟨hwf, by rw [renderCustomMethod_some hwf]; simp⟩
  · rintro ⟨hwf, hmethod⟩
    rw [renderCustomMethod_some hwf] at hmethod
    cases hmethod
    -- plain text has no brace, so the test for a parameter passes
    have hbrace : ¬ (escapeColons c.toList.tail).any (fun x => x == '{' || x == '}') = true := by
      rw [List.any_eq_true]
      rintro ⟨x, hx, hb⟩
      rw [Bool.or_eq_true, beq_iff_eq, beq_iff_eq] at hb
      rcases hb with rfl | rfl
      · exact absurd (hwf.2 _ (mem_of_mem_escapeColons (by decide) hx)) (by decide)
      · exact absurd (hwf.2 _ (mem_of_mem_escapeColons (by decide) hx)) (by decide)
    rw [if_neg hbrace, cutAtColon_escapeColons]
    refine map_eq_ok_iff.2 ⟨_, readLiteral_eq_ok_iff.2 ⟨rfl, fun x hx => (isPlain_iff.1 (hwf.2 x hx)).2⟩, ?_⟩
    obtain ⟨d, ds, hcs⟩ : ∃ d ds, c.toList = d :: ds := by
      cases hcs : c.toList with
      | nil => simp [hcs, WellFormedCustom] at hwf
      | cons d ds => exact ⟨d, ds, rfl⟩
    have hd : d = ':' := by simpa [hcs] using hwf.1
    rw [← String.toList_inj]
    simp [hcs, hd]

/-- The last component is read exactly when it is a well-formed segment as written, followed by its
custom method if it has one. -/
theorem readLast_eq_ok_iff {raw : List Char} (hslash : '/' ∉ raw) {s : Segment} {custom : Option String} :
    readLast raw = .ok (s, custom) ↔
      s.WellFormed ∧ (∀ c ∈ custom, WellFormedCustom c ∧ ¬ s.EndsInBackslash) ∧
        raw = renderSegment s ++ renderCustomMethod custom := by
  unfold readLast
  constructor
  · intro h
    split at h
    · next head hcut =>
      rw [cutAtColon_eq_nil_iff] at hcut
      subst hcut
      obtain ⟨s', hread, he⟩ := map_eq_ok_iff.1 h
      cases he
      rw [readHead_eq_ok_iff fun hm => hslash (mem_escapeColons_of_mem hm)] at hread
      exact ⟨hread.1, by simp, by rw [renderSegment_eq hread.1, hread.2]; simp [renderCustomMethod]⟩
    · next head x method hcut =>
      obtain ⟨rfl, hlast, rfl⟩ := cutAtColon_eq_cons_iff.1 hcut
      rw [List.mem_append, List.mem_cons, not_or, not_or] at hslash
      obtain ⟨c, hc, h⟩ := bind_eq_ok_iff.1 h
      obtain ⟨s', hs, h⟩ := bind_eq_ok_iff.1 h
      cases h
      rw [readCustomMethod_eq_ok_iff hslash.2.2] at hc
      rw [readHead_eq_ok_iff fun hm => hslash.1 (mem_escapeColons_of_mem hm)] at hs
      refine ⟨hs.1, ?_, by rw [renderSegment_eq hs.1, hs.2, hc.2]⟩
      rintro _ ⟨⟩
      exact ⟨hc.1, fun hend => hlast (hs.2 ▸ (getLast?_bare s).2 hend)⟩
  · rintro ⟨hs, hcustom, rfl⟩
    rw [renderSegment_eq hs]
    have hhead := slash_not_mem_bare hs
    cases custom with
    | none =>
      rw [renderCustomMethod, List.append_nil, cutAtColon_escapeColons]
      exact map_eq_ok_iff.2 ⟨s, (readHead_eq_ok_iff hhead).2 ⟨hs, rfl⟩, rfl⟩
    | some c =>
      obtain ⟨hc, hlast⟩ := hcustom c rfl
      rw [renderCustomMethod_some hc, cutAtColon_escapeColons_append _ fun h => hlast ((getLast?_bare s).1 h)]
      refine bind_eq_ok_iff.2 ⟨c, ?_, bind_eq_ok_iff.2 ⟨s, (readHead_eq_ok_iff hhead).2 ⟨hs, rfl⟩, rfl⟩⟩
      refine (readCustomMethod_eq_ok_iff ?_).2 ⟨hc, (renderCustomMethod_some hc).symm⟩
      exact fun hm => absurd (hc.2 _ (mem_of_mem_escapeColons (by decide) hm)) (by decide)

end Pattern

end PathRouter
