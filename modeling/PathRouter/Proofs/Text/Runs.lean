/-
Texts and their runs of escapes. A text falls in one way into runs of consecutive escapes and the texts
between them, and decoding goes stretch by stretch: the text between stands for itself, and the bytes of a
run are read on their own. The reader is given all bytes at once; a run still cannot take anything from
the text after it, whose first byte is no tail, nor from the text before it, which is complete.
-/
import PathRouter.Proofs.Text.Lossy
import PathRouter.Proofs.Text.Percent

namespace PathRouter.Text.Percent

open String (utf8EncodeChar)

/-- A part of a text: characters that stand for themselves, or escapes and the bytes they stand for. -/
inductive Stretch where
  | plain (text : List Char)
  | run (bytes : List UInt8) (written : List Char)

namespace Stretch

/-- Whether the part is a run of escapes. -/
def IsRun : Stretch → Prop
  | plain _ => False
  | run _ _ => True

/-- The part as it is written. -/
def written : Stretch → List Char
  | plain text => text
  | run _ written => written

/-- The bytes that the part stands for. -/
def bytes : Stretch → List UInt8
  | plain text => Utf8.encode text
  | run bytes _ => bytes

/-- The text that the part alone stands for. -/
def decoded : Stretch → List Char
  | plain text => text
  | run bytes _ => Utf8.decode bytes

end Stretch

/-- Whether a percent sign with two hexadecimal digits stands somewhere in a text. -/
def HasEscape (cs : List Char) : Prop := ∃ b escape, Escapes [b] escape ∧ escape <:+: cs

/-- A text and its stretches: no text between runs has an escape, and neighbours are of different kinds. -/
inductive Splits : List Char → List Stretch → Prop
  | nil : Splits [] []
  | plain {text cs : List Char} {ps : List Stretch} : text ≠ [] → ¬ HasEscape text →
      (∀ p ∈ ps.head?, p.IsRun) → Splits cs ps → Splits (text ++ cs) (.plain text :: ps)
  | run {bytes : List UInt8} {written cs : List Char} {ps : List Stretch} : bytes ≠ [] → Escapes bytes written →
      (∀ p ∈ ps.head?, ¬ p.IsRun) → Splits cs ps → Splits (written ++ cs) (.run bytes written :: ps)

/-! ## Escapes -/

/-- Whether a text starts with an escape. -/
def StartsEscape (cs : List Char) : Prop := ∃ b escape, Escapes [b] escape ∧ escape <+: cs

theorem not_isDigit_percent (n : Nat) : ¬ IsDigit '%' n := by
  rintro (h | h)
  · exact absurd (List.mem_of_getElem? h) (by decide)
  · exact absurd (List.mem_of_getElem? h) (by decide)

theorem Escapes.exists_of_singleton {b : UInt8} {escape : List Char} (h : Escapes [b] escape) :
    ∃ high low, escape = ['%', high, low] ∧ IsDigit high (b.toNat / 16) ∧ IsDigit low (b.toNat % 16) := by
  cases h with
  | cons hhigh hlow h =>
    cases h
    exact ⟨_, _, rfl, hhigh, hlow⟩

theorem StartsEscape.exists_cons {cs : List Char} (h : StartsEscape cs) : ∃ ds, cs = '%' :: ds := by
  obtain ⟨b, escape, hescape, rest, rfl⟩ := h
  obtain ⟨high, low, rfl, -, -⟩ := hescape.exists_of_singleton
  exact ⟨_, rfl⟩

theorem not_startsEscape_nil : ¬ StartsEscape [] := by
  intro h
  obtain ⟨ds, hds⟩ := h.exists_cons
  exact List.cons_ne_nil _ _ hds.symm

theorem not_hasEscape_nil : ¬ HasEscape [] := by
  rintro ⟨b, escape, hescape, hin⟩
  exact not_startsEscape_nil ⟨b, escape, hescape, by simp [List.infix_nil.1 hin]⟩

theorem HasEscape.of_isInfix {cs ds : List Char} (h : HasEscape cs) (hcs : cs <:+: ds) : HasEscape ds := by
  obtain ⟨b, escape, hescape, hin⟩ := h
  exact ⟨b, escape, hescape, hin.trans hcs⟩

theorem StartsEscape.append {cs : List Char} (h : StartsEscape cs) (ds : List Char) : StartsEscape (cs ++ ds) := by
  obtain ⟨b, escape, hescape, hpre⟩ := h
  exact ⟨b, escape, hescape, hpre.trans (List.prefix_append _ _)⟩

theorem StartsEscape.hasEscape {cs : List Char} (h : StartsEscape cs) : HasEscape cs := by
  obtain ⟨b, escape, hescape, hpre⟩ := h
  exact ⟨b, escape, hescape, hpre.isInfix⟩

theorem hasEscape_cons {c : Char} {cs : List Char} (h : HasEscape (c :: cs)) :
    StartsEscape (c :: cs) ∨ HasEscape cs := by
  obtain ⟨b, escape, hescape, hin⟩ := h
  rcases List.infix_cons_iff.1 hin with hpre | hin
  · exact .inl ⟨b, escape, hescape, hpre⟩
  · exact .inr ⟨b, escape, hescape, hin⟩

/-- No escape begins in a text that has none and goes on in a run. -/
theorem not_startsEscape_append {text rest : List Char} (htext : text ≠ []) (h : ¬ HasEscape text)
    (hrest : rest = [] ∨ StartsEscape rest) : ¬ StartsEscape (text ++ rest) := by
  rintro ⟨b, escape, hescape, hpre⟩
  rcases List.prefix_or_prefix_of_prefix hpre (List.prefix_append text rest) with hin | ⟨ds, hds⟩
  · exact h (StartsEscape.hasEscape ⟨b, escape, hescape, hin⟩)
  cases ds with
  | nil => exact h (StartsEscape.hasEscape ⟨b, escape, hescape, by simp [← hds]⟩)
  | cons d ds =>
    rw [← hds, List.prefix_append_right_inj] at hpre
    obtain rfl : d = '%' := by
      rcases hrest with rfl | hrest
      · exact absurd (List.prefix_nil.1 hpre) (List.cons_ne_nil _ _)
      · obtain ⟨rest', rfl⟩ := hrest.exists_cons
        exact (List.cons_prefix_cons.1 hpre).1
    obtain ⟨high, low, rfl, hhigh, hlow⟩ := hescape.exists_of_singleton
    obtain ⟨a, text, rfl⟩ := List.exists_cons_of_ne_nil htext
    -- the run's percent sign would be one of the digits
    have hmem : '%' ∈ [high, low] := by
      rw [← (List.cons.inj hds).2]
      simp
    simp only [List.mem_cons, List.not_mem_nil, or_false] at hmem
    rcases hmem with rfl | rfl
    · exact not_isDigit_percent _ hhigh
    · exact not_isDigit_percent _ hlow

theorem Escapes.starts {bytes : List UInt8} {written : List Char} (h : Escapes bytes written) (hbytes : bytes ≠ [])
    (rest : List Char) : StartsEscape (written ++ rest) := by
  cases h with
  | nil => exact absurd rfl hbytes
  | @cons b high low bs cs hhigh hlow _ => exact ⟨b, ['%', high, low], .cons hhigh hlow .nil, by simp⟩

theorem IsDigit.unique {c : Char} {n m : Nat} (h : IsDigit c n) (h' : IsDigit c m) (hn : n < 16) (hm : m < 16) :
    n = m := by
  have hvalue := (isDigit_spec h).1.symm.trans (isDigit_spec h').1
  rw [Option.some.injEq, ← UInt8.toNat_inj, Utf8.toNat_ofNat (by omega), Utf8.toNat_ofNat (by omega)] at hvalue
  exact hvalue

/-- Runs that start one text, and go on as far as they can, are the same run. -/
theorem Escapes.unique {bytes bytes' : List UInt8} {written written' rest rest' : List Char}
    (h : Escapes bytes written) (h' : Escapes bytes' written') (heq : written ++ rest = written' ++ rest')
    (hrest : ¬ StartsEscape rest) (hrest' : ¬ StartsEscape rest') :
    bytes = bytes' ∧ written = written' ∧ rest = rest' := by
  induction h generalizing bytes' written' with
  | nil =>
    cases h' with
    | nil => exact ⟨rfl, rfl, heq⟩
    | cons hhigh hlow h' =>
      refine absurd ?_ hrest
      rw [← List.nil_append rest, heq]
      exact (Escapes.cons hhigh hlow h').starts (List.cons_ne_nil _ _) _
  | @cons b high low bs cs hhigh hlow h ih =>
    cases h' with
    | nil =>
      refine absurd ?_ hrest'
      rw [← List.nil_append rest', ← heq]
      exact (Escapes.cons hhigh hlow h).starts (List.cons_ne_nil _ _) _
    | @cons b' high' low' bs' cs' hhigh' hlow' h' =>
      simp only [List.cons_append, List.cons.injEq, true_and] at heq
      obtain ⟨rfl, rfl, heq⟩ := heq
      obtain ⟨rfl, rfl, hrests⟩ := ih h' heq
      have hdiv := hhigh.unique hhigh' (by have := b.toNat_lt; omega) (by have := b'.toNat_lt; omega)
      have hmod := hlow.unique hlow' (Nat.mod_lt _ (by decide)) (Nat.mod_lt _ (by decide))
      have hb : b = b' := UInt8.toNat_inj.1 (by omega)
      exact ⟨by rw [hb], rfl, hrests⟩

/-- Of a text, what goes up to its first escape or its end is one text: a part without escapes does not go past
the place where another one ends so. -/
theorem prefix_of_no_escape {text text' rest rest' : List Char} (heq : text ++ rest = text' ++ rest')
    (htext' : ¬ HasEscape text') (hrest : rest = [] ∨ StartsEscape rest) (hrest' : rest' = [] ∨ StartsEscape rest') :
    text' <+: text := by
  rcases List.prefix_or_prefix_of_prefix ⟨rest', heq.symm⟩ (List.prefix_append text rest) with h | ⟨ds, rfl⟩
  · exact h
  rw [List.append_assoc, List.append_cancel_left_eq] at heq
  cases ds with
  | nil => simp
  | cons d ds =>
    have hstarts : StartsEscape rest := hrest.resolve_left (by simp [heq])
    have hescape : ¬ HasEscape (d :: ds) := fun h => htext' (h.of_isInfix (List.suffix_append _ _).isInfix)
    rw [heq] at hstarts
    exact absurd hstarts (not_startsEscape_append (List.cons_ne_nil d ds) hescape hrest')

theorem Escapes.length_written {bytes : List UInt8} {written : List Char} (h : Escapes bytes written) :
    written.length = 3 * bytes.length := by
  induction h with
  | nil => rfl
  | cons _ _ _ ih =>
    simp only [List.length_cons, ih]
    omega

/-! ## One way to split a text -/

namespace Splits

variable {cs : List Char} {ps qs : List Stretch}

theorem eq_nil (h : Splits cs []) : cs = [] := by
  cases h
  rfl

/-- The first stretch is a run just where the text starts with an escape. -/
theorem startsEscape_iff (h : Splits cs ps) : StartsEscape cs ↔ ∃ p ∈ ps.head?, p.IsRun := by
  induction h with
  | nil => simpa using not_startsEscape_nil
  | @plain text cs ps htext hescape hhead h ih =>
    have hrest : cs = [] ∨ StartsEscape cs := by
      cases ps with
      | nil => exact .inl h.eq_nil
      | cons p ps => exact .inr (ih.2 ⟨p, rfl, hhead p rfl⟩)
    simpa [Stretch.IsRun] using not_startsEscape_append htext hescape hrest
  | run hbytes hescapes => simpa [Stretch.IsRun] using hescapes.starts hbytes _

theorem eq_nil_or_startsEscape (h : Splits cs ps) (hhead : ∀ p ∈ ps.head?, p.IsRun) : cs = [] ∨ StartsEscape cs := by
  cases ps with
  | nil => exact .inl h.eq_nil
  | cons p ps => exact .inr (h.startsEscape_iff.2 ⟨p, rfl, hhead p rfl⟩)

theorem not_startsEscape (h : Splits cs ps) (hhead : ∀ p ∈ ps.head?, ¬ p.IsRun) : ¬ StartsEscape cs := by
  intro hstarts
  obtain ⟨p, hp, hrun⟩ := h.startsEscape_iff.1 hstarts
  exact hhead p hp hrun

/-- The stretches are determined: a run and a text between runs do not start alike, and either ends where it must. -/
theorem unique (h : Splits cs ps) (h' : Splits cs qs) : ps = qs := by
  induction h generalizing qs with
  | nil =>
    generalize hcs : ([] : List Char) = cs₀ at h'
    cases h' with
    | nil => rfl
    | plain htext => exact absurd (List.append_eq_nil_iff.1 hcs.symm).1 htext
    | @run _ _ rest _ hbytes hescapes =>
      have hstarts := hescapes.starts hbytes rest
      rw [← hcs] at hstarts
      exact absurd hstarts not_startsEscape_nil
  | @plain text cs ps htext hescape hhead h ih =>
    have hkind := (h.plain htext hescape hhead).startsEscape_iff.symm.trans h'.startsEscape_iff
    generalize hcs : text ++ cs = cs₀ at h'
    cases h' with
    | nil => exact absurd (List.append_eq_nil_iff.1 hcs).1 htext
    | @plain text' cs' qs htext' hescape' hhead' h' =>
      have hrest := h.eq_nil_or_startsEscape hhead
      have hrest' := h'.eq_nil_or_startsEscape hhead'
      have heq : text = text' := (prefix_of_no_escape hcs.symm hescape hrest' hrest).eq_of_length_le
        (prefix_of_no_escape hcs hescape' hrest hrest').length_le
      subst heq
      obtain rfl := List.append_cancel_left hcs
      rw [ih h']
    | run => simp [Stretch.IsRun] at hkind
  | @run bytes written cs ps hbytes hescapes hhead h ih =>
    have hkind := (h.run hbytes hescapes hhead).startsEscape_iff.symm.trans h'.startsEscape_iff
    generalize hcs : written ++ cs = cs₀ at h'
    cases h' with
    | nil => simp [Stretch.IsRun] at hkind
    | plain => simp [Stretch.IsRun] at hkind
    | run hbytes' hescapes' hhead' h' =>
      obtain ⟨rfl, rfl, rfl⟩ := hescapes.unique hescapes' hcs (h.not_startsEscape hhead) (h'.not_startsEscape hhead')
      rw [ih h']

/-! ## Every text is split -/

/-- An escape before a run joins it. -/
theorem exists_escape_append {b : UInt8} {escape : List Char} (hescape : Escapes [b] escape) (h : Splits cs ps) :
    ∃ ps, Splits (escape ++ cs) ps := by
  have hb : [b] ≠ [] := List.cons_ne_nil _ _
  cases h with
  | nil => exact ⟨_, .run hb hescape (by simp) .nil⟩
  | plain htext hplain hhead h =>
    exact ⟨_, .run hb hescape (by simp [Stretch.IsRun]) (.plain htext hplain hhead h)⟩
  | @run bytes written cs ps hbytes hescapes hhead h =>
    obtain ⟨high, low, rfl, hhigh, hlow⟩ := hescape.exists_of_singleton
    exact ⟨.run (b :: bytes) ('%' :: high :: low :: written) :: ps,
      .run (List.cons_ne_nil _ _) (.cons hhigh hlow hescapes) hhead h⟩

/-- A character that begins no escape joins the text after it, up to a run. -/
theorem exists_cons {c : Char} (hc : ¬ StartsEscape (c :: cs)) (h : Splits cs ps) : ∃ ps, Splits (c :: cs) ps := by
  have hne : [c] ≠ [] := List.cons_ne_nil _ _
  have hsingle : ¬ HasEscape [c] := by
    rintro ⟨b, escape, hescape, hin⟩
    obtain ⟨high, low, rfl, -, -⟩ := hescape.exists_of_singleton
    exact absurd hin.length_le (by simp)
  cases h with
  | nil => exact ⟨_, .plain hne hsingle (by simp) .nil⟩
  | run hbytes hescapes hhead h =>
    exact ⟨_, .plain hne hsingle (by simp [Stretch.IsRun]) (.run hbytes hescapes hhead h)⟩
  | @plain text cs ps htext hplain hhead h =>
    refine ⟨.plain (c :: text) :: ps, .plain (List.cons_ne_nil _ _) ?_ hhead h⟩
    intro hescape
    rcases hasEscape_cons hescape with hstarts | hescape
    · exact hc (hstarts.append cs)
    · exact hplain hescape

end Splits

theorem exists_splits (cs : List Char) : ∃ ps, Splits cs ps := by
  by_cases hstarts : StartsEscape cs
  · obtain ⟨b, escape, hescape, rest, hcs⟩ := hstarts
    have hlength : cs.length = 3 + rest.length := by
      rw [← hcs, List.length_append, hescape.length_written, List.length_singleton]
    rw [← hcs]
    obtain ⟨ps, hps⟩ := exists_splits rest
    exact hps.exists_escape_append hescape
  · cases cs with
    | nil => exact ⟨_, .nil⟩
    | cons c cs =>
      obtain ⟨ps, hps⟩ := exists_splits cs
      exact hps.exists_cons hstarts
termination_by cs.length
decreasing_by
  · omega
  · simp

/-! ## What is escaped -/

theorem isDigit_of_hexValue? {b v : UInt8} (h : hexValue? b = some v) :
    b.toNat < 0x80 ∧ v.toNat < 16 ∧ IsDigit (.ofNat b.toNat) v.toNat := by
  have hall : ∀ n < 256, ∀ v ∈ hexValue? (.ofNat n), n < 0x80 ∧ v.toNat < 16 ∧ IsDigit (.ofNat n) v.toNat := by
    unfold IsDigit
    decide +kernel
  exact hall b.toNat b.toNat_lt v (by rwa [UInt8.ofNat_toNat])

/-- The first byte of a text, if it is below 128, is the first character. -/
theorem eq_cons_of_encode_eq_cons {cs : List Char} {b : UInt8} {bs : List UInt8} (h : Utf8.encode cs = b :: bs)
    (hb : b.toNat < 0x80) : ∃ ds, cs = .ofNat b.toNat :: ds ∧ bs = Utf8.encode ds := by
  have hcs := Utf8.decode_encode cs
  rw [h, Utf8.decode_ascii hb] at hcs
  refine ⟨Utf8.decode bs, hcs.symm, ?_⟩
  have hn := Utf8.toNat_ofNat_char (n := b.toNat) (by omega)
  rw [← hcs, Utf8.encode_cons, Utf8.utf8EncodeChar_one (by omega), List.singleton_append] at h
  exact (List.cons.inj h).2.symm

/-- A percent sign that begins no escape stands for itself. -/
theorem unescape_percent {cs : List Char} (h : ¬ StartsEscape ('%' :: cs)) :
    unescape (0x25 :: Utf8.encode cs) = 0x25 :: unescape (Utf8.encode cs) := by
  rcases hcs : Utf8.encode cs with _ | ⟨high, _ | ⟨low, bs⟩⟩
  · rfl
  · rfl
  have hnone : escape? 0x25 high low = none := by
    rw [escape?, if_pos rfl]
    split
    case h_2 => rfl
    case h_1 n m hhigh hlow =>
      obtain ⟨hhigh, hn, hhigh'⟩ := isDigit_of_hexValue? hhigh
      obtain ⟨hlow, hm, hlow'⟩ := isDigit_of_hexValue? hlow
      obtain ⟨ds, rfl, hds⟩ := eq_cons_of_encode_eq_cons hcs hhigh
      obtain ⟨ds, rfl, -⟩ := eq_cons_of_encode_eq_cons hds.symm hlow
      have hb := Utf8.toNat_ofNat (n := 16 * n.toNat + m.toNat) (by omega)
      refine absurd ⟨.ofNat (16 * n.toNat + m.toNat), ['%', .ofNat high.toNat, .ofNat low.toNat], .cons ?_ ?_ .nil, ?_⟩ h
      · rwa [hb, show (16 * n.toNat + m.toNat) / 16 = n.toNat by omega]
      · rwa [hb, show (16 * n.toNat + m.toNat) % 16 = m.toNat by omega]
      · simp
  rw [unescape, hnone]

theorem unescape_encode_cons {c : Char} {cs : List Char} (h : ¬ StartsEscape (c :: cs)) :
    unescape (Utf8.encode (c :: cs)) = utf8EncodeChar c ++ unescape (Utf8.encode cs) := by
  rw [Utf8.encode_cons]
  by_cases hc : c = '%'
  · subst hc
    exact unescape_percent h
  · exact unescape_append_of_not_mem (percent_not_mem_utf8EncodeChar hc) _

/-- A text without escapes stands for itself, up to a run. -/
theorem unescape_encode_append {text rest : List Char} (h : ¬ HasEscape text) (hrest : rest = [] ∨ StartsEscape rest) :
    unescape (Utf8.encode (text ++ rest)) = Utf8.encode text ++ unescape (Utf8.encode rest) := by
  induction text with
  | nil => rfl
  | cons c text ih =>
    -- an escape that started here would be one of the text, or would reach into the run
    have hstarts := not_startsEscape_append (List.cons_ne_nil c text) h hrest
    have htext : ¬ HasEscape text := fun hescape => h (hescape.of_isInfix (List.suffix_cons c text).isInfix)
    rw [List.cons_append] at hstarts ⊢
    rw [unescape_encode_cons hstarts, ih htext, Utf8.encode_cons, List.append_assoc]

namespace Splits

variable {cs : List Char} {ps : List Stretch}

theorem flatMap_written (h : Splits cs ps) : ps.flatMap Stretch.written = cs := by
  induction h with
  | nil => rfl
  | plain _ _ _ _ ih => rw [List.flatMap_cons, ih]; rfl
  | run _ _ _ _ ih => rw [List.flatMap_cons, ih]; rfl

theorem unescape_encode (h : Splits cs ps) : unescape (Utf8.encode cs) = ps.flatMap Stretch.bytes := by
  induction h with
  | nil => rfl
  | plain htext hplain hhead h ih =>
    rw [unescape_encode_append hplain (h.eq_nil_or_startsEscape hhead), ih]
    rfl
  | run hbytes hescapes hhead h ih =>
    rw [Utf8.encode_append, hescapes.unescape_append, ih]
    rfl

/-- No tail stands after a run. -/
theorem not_isTail_head (h : Splits cs ps) (hhead : ∀ p ∈ ps.head?, ¬ p.IsRun) :
    ∀ b ∈ (ps.flatMap Stretch.bytes).head?, ¬ Utf8.IsTail b := by
  cases h with
  | nil => simp
  | run => exact absurd trivial (hhead _ rfl)
  | @plain text _ ps htext =>
    obtain ⟨c, text, rfl⟩ := List.exists_cons_of_ne_nil htext
    rw [List.flatMap_cons, Stretch.bytes, Utf8.encode_cons, List.append_assoc]
    exact Utf8.not_isTail_head c _

theorem decode_bytes (h : Splits cs ps) : Utf8.decode (ps.flatMap Stretch.bytes) = ps.flatMap Stretch.decoded := by
  induction h with
  | nil => rfl
  | plain _ _ _ h ih => rw [List.flatMap_cons, List.flatMap_cons, Stretch.bytes, Utf8.decode_encode_append, ih]; rfl
  | run _ _ hhead h ih =>
    rw [List.flatMap_cons, List.flatMap_cons, Utf8.decode_append (h.not_isTail_head hhead), ih]
    rfl

/-! ## What changes -/

theorem hasEscape_iff (h : Splits cs ps) : HasEscape cs ↔ ∃ p ∈ ps, p.IsRun := by
  constructor
  · intro hescape
    cases h with
    | nil => exact absurd hescape not_hasEscape_nil
    | @plain text cs ps htext hplain hhead h =>
      cases ps with
      | nil =>
        rw [h.eq_nil, List.append_nil] at hescape
        exact absurd hescape hplain
      | cons p ps => exact ⟨p, by simp, hhead p rfl⟩
    | run => exact ⟨_, List.mem_cons_self, trivial⟩
  · rintro ⟨p, hp, hrun⟩
    induction h with
    | nil => exact absurd hp List.not_mem_nil
    | plain _ _ _ _ ih =>
      rcases List.mem_cons.1 hp with rfl | hp
      · exact absurd hrun id
      · exact (ih hp).of_isInfix (List.suffix_append _ _).isInfix
    | run hbytes hescapes => exact (hescapes.starts hbytes _).hasEscape

/-- A run is read as fewer characters than it has. -/
theorem length_decoded_lt (h : Splits cs ps) :
    (ps.flatMap Stretch.decoded).length ≤ cs.length ∧
      ((∃ p ∈ ps, p.IsRun) → (ps.flatMap Stretch.decoded).length < cs.length) := by
  induction h with
  | nil => simp
  | @plain text cs ps _ _ _ _ ih =>
    rw [List.flatMap_cons, List.length_append, List.length_append]
    refine ⟨Nat.add_le_add_left ih.1 _, ?_⟩
    rintro ⟨p, hp, hrun⟩
    rcases List.mem_cons.1 hp with rfl | hp
    · exact absurd hrun id
    · exact Nat.add_lt_add_left (ih.2 ⟨p, hp, hrun⟩) _
  | @run bytes written cs ps hbytes hescapes _ _ ih =>
    have hlength := (Utf8.decode_eq_iff_lossy.1 (rfl : Utf8.decode bytes = _)).length_le
    have hpos := List.length_pos_iff.2 hbytes
    have hwritten := hescapes.length_written
    simp only [List.flatMap_cons, List.length_append, Stretch.decoded]
    omega

theorem decoded_eq_iff (h : Splits cs ps) : ps.flatMap Stretch.decoded = cs ↔ ¬ HasEscape cs := by
  rw [h.hasEscape_iff]
  constructor
  · intro heq hrun
    exact absurd (congrArg List.length heq) (Nat.ne_of_lt (h.length_decoded_lt.2 hrun))
  · intro hplain
    have hdecoded : ∀ p ∈ ps, p.decoded = p.written := by
      intro p hp
      cases p with
      | plain => rfl
      | run => exact absurd ⟨_, hp, trivial⟩ hplain
    rw [List.flatMap_def, List.map_congr_left hdecoded, ← List.flatMap_def, h.flatMap_written]

theorem length_encode_decoded_le (h : Splits cs ps) :
    (Utf8.encode (ps.flatMap Stretch.decoded)).length ≤ (Utf8.encode cs).length := by
  induction h with
  | nil => exact Nat.le_refl _
  | @plain text cs ps _ _ _ _ ih =>
    rw [List.flatMap_cons, Utf8.encode_append, Utf8.encode_append, List.length_append, List.length_append]
    exact Nat.add_le_add_left ih _
  | @run bytes written cs ps _ hescapes _ _ ih =>
    have hbytes := (Utf8.decode_eq_iff_lossy.1 (rfl : Utf8.decode bytes = _)).length_encode_le
    have hwritten := Utf8.length_le_encode written
    rw [hescapes.length_written] at hwritten
    rw [List.flatMap_cons, Utf8.encode_append, Utf8.encode_append, List.length_append, List.length_append]
    exact Nat.add_le_add (Nat.le_trans hbytes hwritten) ih

theorem decode_toList {raw : String} (h : Splits raw.toList ps) : (decode raw).toList = ps.flatMap Stretch.decoded := by
  rw [decode, String.toList_ofList, h.unescape_encode, h.decode_bytes]

end Splits

/-- A text has one splitting in stretches, and decodes to the texts of its stretches, the bytes of each run read on
their own. It decodes to no more bytes than it has, and to itself just when it has no escape. -/
theorem decode_run_by_run (raw : String) :
    (∃ ps, (∀ qs, Splits raw.toList qs ↔ qs = ps) ∧ (decode raw).toList = ps.flatMap Stretch.decoded) ∧
      (∀ bytes text, Utf8.decode bytes = text ↔ Utf8.Lossy bytes text) ∧
      (decode raw).utf8ByteSize ≤ raw.utf8ByteSize ∧ (decode raw = raw ↔ ¬ HasEscape raw.toList) := by
  obtain ⟨ps, hps⟩ := exists_splits raw.toList
  have hdecode := hps.decode_toList
  refine ⟨⟨ps, fun qs => ⟨fun hqs => hqs.unique hps, fun heq => heq ▸ hps⟩, hdecode⟩,
    fun _ _ => Utf8.decode_eq_iff_lossy, ?_, ?_⟩
  · rw [← Utf8.length_encode_toList, ← Utf8.length_encode_toList, hdecode]
    exact hps.length_encode_decoded_le
  · rw [← String.toList_inj, hdecode]
    exact hps.decoded_eq_iff

/-- A character that is cut short at the end of a run is not completed by what follows, escaped or not. -/
example : decode "%E4%B8é%%b8%ad%" = "\uFFFDé%\uFFFD\uFFFD%" := by decide +kernel

end PathRouter.Text.Percent
