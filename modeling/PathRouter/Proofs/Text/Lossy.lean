/-
Bytes that may be no UTF-8. `Lossy` says without the reader how bytes are read: the bytes of a character as
that character, and where none stands, as many bytes as still begin one, or else a single byte, as one
replacement character. The reader reads all bytes this way, and there is no other (`decode_eq_iff_lossy`).
The first byte of a character is no tail and its others are, so what is read before a character does not
depend on it (`decode_append`).
-/
import PathRouter.Proofs.Text.Utf8

namespace PathRouter.Text.Utf8

open String (utf8EncodeChar)

/-- The bytes that only stand after the first byte of a character. -/
def IsTail (b : UInt8) : Prop := 0x80 ≤ b.toNat ∧ b.toNat ≤ 0xBF

/-- Whether bytes are the first ones of a character, or all of them. -/
def Begins (bs : List UInt8) : Prop := ∃ c, bs <+: utf8EncodeChar c

/-- Bytes, with `rest` after them, that stand for one replacement character. -/
inductive Broken : List UInt8 → List UInt8 → Prop
  /-- A character begins and is cut short: it is not complete, and does not go on with the next byte. -/
  | cut {bs rest : List UInt8} : bs ≠ [] → Begins bs → (∀ c, utf8EncodeChar c ≠ bs) →
      (∀ b ∈ rest.head?, ¬ Begins (bs ++ [b])) → Broken bs rest
  /-- The byte begins no character. -/
  | stray {b : UInt8} {rest : List UInt8} : ¬ Begins [b] → Broken [b] rest

/-- Bytes and the text they are read as. -/
inductive Lossy : List UInt8 → List Char → Prop
  | nil : Lossy [] []
  | char {bs : List UInt8} {cs : List Char} (c : Char) : Lossy bs cs → Lossy (utf8EncodeChar c ++ bs) (c :: cs)
  | broken {bad bs : List UInt8} {cs : List Char} : Broken bad bs → Lossy bs cs →
      Lossy (bad ++ bs) (replacement :: cs)

/-! ## Beginnings of characters -/

theorem Begins.of_prefix {bs bs' : List UInt8} (h : Begins bs') (hbs : bs <+: bs') : Begins bs := by
  obtain ⟨c, hc⟩ := h
  exact ⟨c, hbs.trans hc⟩

theorem decodeFrom_some_ne_nil (p : Pending) (bs : List UInt8) : decodeFrom (some p) bs ≠ [] := by
  induction bs generalizing p with
  | nil => exact List.cons_ne_nil _ _
  | cons b bs ih =>
    rw [decodeFrom_cons, step]
    split
    · unfold accept
      split
      · exact List.cons_ne_nil _ _
      · exact ih _
    · exact List.cons_ne_nil _ _

theorem decode_ne_nil {bs : List UInt8} (h : bs ≠ []) : decode bs ≠ [] := by
  obtain ⟨b, bs, rfl⟩ := List.exists_cons_of_ne_nil h
  rw [decode, decodeFrom_cons, step, start]
  split
  · exact List.cons_ne_nil _ _
  split
  · exact decodeFrom_some_ne_nil _ _
  · exact List.cons_ne_nil _ _

/-- No character goes on where another one is complete. -/
theorem utf8EncodeChar_append_inj {c d : Char} {bs ds : List UInt8} (h : utf8EncodeChar c ++ bs = utf8EncodeChar d ++ ds) :
    c = d ∧ bs = ds := by
  have hdecode := congrArg decode h
  rw [decode_utf8EncodeChar_append, decode_utf8EncodeChar_append] at hdecode
  have hcd : c = d := (List.cons.inj hdecode).1
  subst hcd
  exact ⟨rfl, List.append_cancel_left h⟩

theorem eq_of_utf8EncodeChar_isPrefix {c d : Char} (h : utf8EncodeChar c <+: utf8EncodeChar d) : c = d := by
  obtain ⟨ds, hds⟩ := h
  rw [← List.append_nil (utf8EncodeChar d)] at hds
  exact (utf8EncodeChar_append_inj hds).1

/-- The first byte of a character is no tail, and the others are. -/
theorem utf8EncodeChar_eq_cons (c : Char) :
    ∃ lead tails, utf8EncodeChar c = lead :: tails ∧ ¬ IsTail lead ∧ ∀ b ∈ tails, IsTail b := by
  have hvalid := toNat_lt c
  rcases Nat.lt_or_ge c.toNat 0x80 with h1 | h1
  · rw [utf8EncodeChar_one h1]
    refine ⟨_, _, rfl, ?_, by simp⟩
    unfold IsTail
    rw [toNat_ofNat (by omega)]
    omega
  rcases Nat.lt_or_ge c.toNat 0x800 with h2 | h2
  · rw [utf8EncodeChar_two h1 h2]
    refine ⟨_, _, rfl, ?_, ?_⟩
    · unfold IsTail
      rw [toNat_ofNat (by omega)]
      omega
    · simp only [List.forall_mem_singleton, IsTail]
      rw [toNat_ofNat (by omega)]
      omega
  rcases Nat.lt_or_ge c.toNat 0x10000 with h3 | h3
  · rw [utf8EncodeChar_three h2 h3]
    refine ⟨_, _, rfl, ?_, ?_⟩
    · unfold IsTail
      rw [toNat_ofNat (by omega)]
      omega
    · simp only [List.forall_mem_cons, List.not_mem_nil, false_implies, implies_true, and_true, IsTail]
      rw [toNat_ofNat (by omega), toNat_ofNat (by omega)]
      omega
  · rw [utf8EncodeChar_four h3]
    refine ⟨_, _, rfl, ?_, ?_⟩
    · unfold IsTail
      rw [toNat_ofNat (by omega)]
      omega
    · simp only [List.forall_mem_cons, List.not_mem_nil, false_implies, implies_true, and_true, IsTail]
      rw [toNat_ofNat (by omega), toNat_ofNat (by omega), toNat_ofNat (by omega)]
      omega

theorem IsTail.of_begins {bs : List UInt8} {b : UInt8} (hbs : bs ≠ []) (h : Begins (bs ++ [b])) : IsTail b := by
  obtain ⟨c, rest, hc⟩ := h
  obtain ⟨lead, tails, hlead, -, htails⟩ := utf8EncodeChar_eq_cons c
  obtain ⟨a, bs, rfl⟩ := List.exists_cons_of_ne_nil hbs
  rw [hlead, List.cons_append, List.cons_append] at hc
  refine htails b ?_
  rw [← (List.cons.inj hc).2]
  simp

/-! ## The reader inside a character -/

/-- The value of a character from the bits so far and the bytes to come. -/
def valueWith (value : Nat) (owed : List UInt8) : Nat := owed.foldl (fun v b => v * 64 + (b.toNat - 0x80)) value

theorem valueWith_cons (value : Nat) (b : UInt8) (owed : List UInt8) :
    valueWith value (b :: owed) = valueWith (value * 64 + (b.toNat - 0x80)) owed := List.foldl_cons ..

/-- The reader has begun a character with these bytes. -/
structure Reading (seen : List UInt8) (p : Pending) : Prop where
  reaches : ∀ rest, decode (seen ++ rest) = decodeFrom (some p) rest
  range : 0x80 ≤ p.low ∧ p.low ≤ p.high ∧ p.high ≤ 0xBF
  completes : ∀ (b : UInt8) (owed : List UInt8), p.low ≤ b.toNat → b.toNat ≤ p.high → owed.length = p.more →
    (∀ b ∈ owed, IsTail b) → utf8EncodeChar (Char.ofNat (valueWith p.value (b :: owed))) = seen ++ b :: owed

theorem toNat_ofNat_char {n : Nat} (h : n < 0xD800 ∨ 0xDFFF < n ∧ n < 0x110000) : (Char.ofNat n).toNat = n := by
  unfold Char.ofNat
  rw [dif_pos h]
  rfl

theorem ofNat_eq {n : Nat} {b : UInt8} (h : n = b.toNat) : UInt8.ofNat n = b := by
  rw [h, UInt8.ofNat_toNat]

section Forms

variable {a b c d : UInt8}

theorem utf8EncodeChar_of_two (ha : 0xC2 ≤ a.toNat ∧ a.toNat ≤ 0xDF) (hb : IsTail b) :
    utf8EncodeChar (.ofNat (valueWith (a.toNat - 0xC0) [b])) = [a, b] := by
  unfold IsTail at hb
  have hvalue : valueWith (a.toNat - 0xC0) [b] = (a.toNat - 0xC0) * 64 + (b.toNat - 0x80) := rfl
  generalize valueWith (a.toNat - 0xC0) [b] = n at hvalue
  have hn : (Char.ofNat n).toNat = n := toNat_ofNat_char (by omega)
  rw [utf8EncodeChar_two (by omega) (by omega), hn, ofNat_eq (b := a) (by omega), ofNat_eq (b := b) (by omega)]

theorem utf8EncodeChar_of_three (ha : 0xE0 ≤ a.toNat ∧ a.toNat ≤ 0xEF) (hb : IsTail b) (hc : IsTail c)
    (hlong : a.toNat = 0xE0 → 0xA0 ≤ b.toNat) (hsurrogate : a.toNat = 0xED → b.toNat ≤ 0x9F) :
    utf8EncodeChar (.ofNat (valueWith (a.toNat - 0xE0) [b, c])) = [a, b, c] := by
  unfold IsTail at hb hc
  have hvalue : valueWith (a.toNat - 0xE0) [b, c] =
      ((a.toNat - 0xE0) * 64 + (b.toNat - 0x80)) * 64 + (c.toNat - 0x80) := rfl
  generalize valueWith (a.toNat - 0xE0) [b, c] = n at hvalue
  have hn : (Char.ofNat n).toNat = n := toNat_ofNat_char (by omega)
  rw [utf8EncodeChar_three (by omega) (by omega), hn, ofNat_eq (b := a) (by omega), ofNat_eq (b := b) (by omega),
    ofNat_eq (b := c) (by omega)]

theorem utf8EncodeChar_of_four (ha : 0xF0 ≤ a.toNat ∧ a.toNat ≤ 0xF4) (hb : IsTail b) (hc : IsTail c) (hd : IsTail d)
    (hlong : a.toNat = 0xF0 → 0x90 ≤ b.toNat) (hlast : a.toNat = 0xF4 → b.toNat ≤ 0x8F) :
    utf8EncodeChar (.ofNat (valueWith (a.toNat - 0xF0) [b, c, d])) = [a, b, c, d] := by
  unfold IsTail at hb hc hd
  have hvalue : valueWith (a.toNat - 0xF0) [b, c, d] =
      (((a.toNat - 0xF0) * 64 + (b.toNat - 0x80)) * 64 + (c.toNat - 0x80)) * 64 + (d.toNat - 0x80) := rfl
  generalize valueWith (a.toNat - 0xF0) [b, c, d] = n at hvalue
  have hn : (Char.ofNat n).toNat = n := toNat_ofNat_char (by omega)
  rw [utf8EncodeChar_four (by omega), hn, ofNat_eq (b := a) (by omega), ofNat_eq (b := b) (by omega),
    ofNat_eq (b := c) (by omega), ofNat_eq (b := d) (by omega)]

end Forms

theorem lead?_eq_some {n : Nat} {p : Pending} (h : lead? n = some p) :
    (0xC2 ≤ n ∧ n ≤ 0xDF) ∨ (0xE0 ≤ n ∧ n ≤ 0xEF) ∨ (0xF0 ≤ n ∧ n ≤ 0xF4) := by
  unfold lead? at h
  grind

theorem Reading.of_lead {b : UInt8} {p : Pending} (h : lead? b.toNat = some p) : Reading [b] p := by
  have hreaches : ∀ rest, decode ([b] ++ rest) = decodeFrom (some p) rest := by
    intro rest
    have hlead := decodeFrom_lead (by have := lead?_eq_some h; omega) b.toNat_lt h rest
    rwa [UInt8.ofNat_toNat] at hlead
  rcases lead?_eq_some h with hb | hb | hb
  · have hp := lead?_two (k := b.toNat - 0xC0) (by omega) (by omega)
    rw [Nat.sub_add_cancel (by omega), h, Option.some.injEq] at hp
    subst hp
    refine ⟨hreaches, by simp, ?_⟩
    intro b₁ owed hlow hhigh howed _
    obtain rfl := List.length_eq_zero_iff.1 howed
    exact utf8EncodeChar_of_two hb ⟨hlow, hhigh⟩
  · have hp := lead?_three (k := b.toNat - 0xE0) (by omega)
    rw [Nat.sub_add_cancel (by omega), h, Option.some.injEq] at hp
    subst hp
    refine ⟨hreaches, by grind, ?_⟩
    intro b₁ owed hlow hhigh howed htails
    obtain ⟨b₂, rfl⟩ := List.length_eq_one_iff.1 howed
    rw [List.forall_mem_singleton] at htails
    exact utf8EncodeChar_of_three hb (by unfold IsTail; grind) htails (by grind) (by grind)
  · have hp := lead?_four (k := b.toNat - 0xF0) (by omega)
    rw [Nat.sub_add_cancel (by omega), h, Option.some.injEq] at hp
    subst hp
    refine ⟨hreaches, by grind, ?_⟩
    intro b₁ owed hlow hhigh howed htails
    obtain ⟨b₂, owed, rfl⟩ := List.exists_cons_of_length_eq_add_one howed
    obtain ⟨b₃, rfl⟩ := List.length_eq_one_iff.1 (Nat.succ.inj howed)
    rw [List.forall_mem_cons, List.forall_mem_singleton] at htails
    exact utf8EncodeChar_of_four hb (by unfold IsTail; grind) htails.1 htails.2 (by grind) (by grind)

namespace Reading

variable {seen : List UInt8} {p : Pending} {b : UInt8}

theorem ne_nil (h : Reading seen p) : seen ≠ [] := by
  rintro rfl
  exact absurd (h.reaches []) (List.cons_ne_nil _ _).symm

/-- Some bytes complete the character. -/
theorem exists_completion (h : Reading seen p) : ∃ c owed, owed ≠ [] ∧ utf8EncodeChar c = seen ++ owed := by
  have hlow := toNat_ofNat (n := p.low) (by have := h.range; omega)
  have htail : ∀ b ∈ List.replicate p.more (0x80 : UInt8), IsTail b := by
    intro b hb
    rw [List.eq_of_mem_replicate hb]
    exact ⟨by decide, by decide⟩
  have hcompletes := h.completes (.ofNat p.low) (List.replicate p.more 0x80) (Nat.le_of_eq hlow.symm)
    (by rw [hlow]; exact h.range.2.1) List.length_replicate htail
  exact ⟨_, _, List.cons_ne_nil _ _, hcompletes⟩

theorem begins (h : Reading seen p) : Begins seen := by
  obtain ⟨c, owed, -, hc⟩ := h.exists_completion
  exact ⟨c, owed, hc.symm⟩

theorem not_complete (h : Reading seen p) (c : Char) : utf8EncodeChar c ≠ seen := by
  rintro rfl
  obtain ⟨d, owed, howed, hd⟩ := h.exists_completion
  rw [← List.append_nil (utf8EncodeChar d)] at hd
  exact howed (utf8EncodeChar_append_inj hd).2.symm

/-- The last byte completes the character. -/
theorem last (h : Reading seen p) (hmore : p.more = 0) (hlow : p.low ≤ b.toNat) (hhigh : b.toNat ≤ p.high) :
    utf8EncodeChar (.ofNat (p.value * 64 + (b.toNat - 0x80))) = seen ++ [b] :=
  h.completes b [] hlow hhigh hmore.symm (by simp)

/-- A byte that others follow leaves the character begun. -/
theorem next (h : Reading seen p) {k : Nat} (hmore : p.more = k + 1) (hlow : p.low ≤ b.toNat)
    (hhigh : b.toNat ≤ p.high) : Reading (seen ++ [b]) ⟨p.value * 64 + (b.toNat - 0x80), 0x80, 0xBF, k⟩ := by
  refine ⟨?_, by simp, ?_⟩
  · intro rest
    rw [List.append_assoc, h.reaches, List.singleton_append, decodeFrom_cons, step, if_pos ⟨hlow, hhigh⟩, accept,
      hmore]
    rfl
  · intro b₁ owed hlow₁ hhigh₁ howed htails
    rw [List.append_assoc, ← valueWith_cons]
    exact h.completes b (b₁ :: owed) hlow hhigh (by rw [List.length_cons, howed, hmore])
      (List.forall_mem_cons.2 ⟨⟨hlow₁, hhigh₁⟩, htails⟩)

/-- No character goes on with a byte out of the range. -/
theorem not_begins (h : Reading seen p) (hb : ¬ (p.low ≤ b.toNat ∧ b.toNat ≤ p.high)) : ¬ Begins (seen ++ [b]) := by
  rintro ⟨c, rest, hc⟩
  -- otherwise the one character would be read as two
  have hdecode := decode_utf8EncodeChar_append c []
  rw [List.append_nil, ← hc, List.append_assoc, h.reaches, List.singleton_append, decodeFrom_cons, step, if_neg hb]
    at hdecode
  exact decode_ne_nil (List.cons_ne_nil b rest) (by rw [decode, decodeFrom_cons, step]; exact (List.cons.inj hdecode).2)

end Reading

theorem not_begins_singleton {b : UInt8} (hb : 0x80 ≤ b.toNat) (hlead : lead? b.toNat = none) : ¬ Begins [b] := by
  rintro ⟨c, rest, hc⟩
  have hdecode := decode_utf8EncodeChar_append c []
  rw [List.append_nil, ← hc, List.singleton_append, decode, decodeFrom_cons, step, start, if_neg (by omega), hlead]
    at hdecode
  have hc' : c = replacement := (List.cons.inj hdecode).1.symm
  rw [hc'] at hc
  have hb' : b = 0xEF := (List.cons.inj hc).1
  rw [hb'] at hlead
  exact absurd hlead (by decide)

/-! ## Bytes in general -/

/-- All bytes are read, from the start of a character and from within one. -/
theorem lossy_decodeFrom (bs : List UInt8) :
    Lossy bs (decode bs) ∧ ∀ {seen p}, Reading seen p → Lossy (seen ++ bs) (decodeFrom (some p) bs) := by
  induction bs with
  | nil => exact ⟨.nil, fun h => .broken (.cut h.ne_nil h.begins h.not_complete (by simp)) .nil⟩
  | cons b bs ih =>
    have hstart : Lossy (b :: bs) (decode (b :: bs)) := by
      rcases Nat.lt_or_ge b.toNat 0x80 with hb | hb
      · have hchar : utf8EncodeChar (.ofNat b.toNat) = [b] := by
          have hn := toNat_ofNat_char (n := b.toNat) (by omega)
          rw [utf8EncodeChar_one (by omega), hn, UInt8.ofNat_toNat]
        have hlossy := Lossy.char (.ofNat b.toNat) ih.1
        rwa [hchar, List.singleton_append, ← decode_ascii hb] at hlossy
      rw [decode, decodeFrom_cons, step, start, if_neg (by omega)]
      cases hlead : lead? b.toNat with
      | some p => exact ih.2 (.of_lead hlead)
      | none => exact .broken (.stray (not_begins_singleton hb hlead)) ih.1
    refine ⟨hstart, ?_⟩
    intro seen p h
    -- a byte out of the range breaks the character, and is read again as where one may start
    rw [decodeFrom_cons, step]
    split
    case isFalse hb =>
      exact .broken (.cut h.ne_nil h.begins h.not_complete (by simpa using h.not_begins hb)) hstart
    case isTrue hb =>
      rw [accept]
      split
      case h_1 hmore =>
        have hlossy := Lossy.char (.ofNat (p.value * 64 + (b.toNat - 0x80))) ih.1
        rwa [h.last hmore hb.1 hb.2, List.append_assoc] at hlossy
      case h_2 k hmore =>
        have hlossy := ih.2 (h.next hmore hb.1 hb.2)
        rwa [List.append_assoc] at hlossy

/-! ## No other reading -/

theorem Broken.ne_nil {bad rest : List UInt8} (h : Broken bad rest) : bad ≠ [] := by
  cases h with
  | cut hbad => exact hbad
  | stray => exact List.cons_ne_nil _ _

/-- The bytes of a character, complete or not, do not go past broken ones. -/
theorem Broken.prefix_of_begins {bad rest bs more : List UInt8} (h : Broken bad rest) (hbs : Begins bs)
    (hrest : bad ++ rest = bs ++ more) : bs <+: bad := by
  obtain hpre | ⟨b, bs', rfl⟩ : bs <+: bad ∨ ∃ b bs', bs = bad ++ b :: bs' := by
    rcases List.prefix_or_prefix_of_prefix ⟨more, hrest.symm⟩ (List.prefix_append bad rest) with h | ⟨bs', rfl⟩
    · exact .inl h
    cases bs' with
    | nil => exact .inl (by simp)
    | cons b bs' => exact .inr ⟨b, bs', rfl⟩
  · exact hpre
  -- else the broken bytes would go on as a character with the next byte
  exfalso
  have hhead : rest = b :: (bs' ++ more) := List.append_cancel_left (hrest.trans (by simp))
  have hbegins : Begins (bad ++ [b]) := hbs.of_prefix ⟨bs', by simp⟩
  cases h with
  | cut _ _ _ hnext => exact hnext b (by simp [hhead]) hbegins
  | stray hstray => exact hstray (hbegins.of_prefix (List.prefix_append _ _))

theorem Broken.not_char {bad rest bs : List UInt8} {c : Char} (h : Broken bad rest) :
    bad ++ rest ≠ utf8EncodeChar c ++ bs := by
  intro heq
  have hpre := h.prefix_of_begins ⟨c, List.prefix_rfl⟩ heq
  cases h with
  | cut _ hbegins hcomplete _ =>
    obtain ⟨d, hd⟩ := hbegins
    rw [eq_of_utf8EncodeChar_isPrefix (hpre.trans hd)] at hpre
    exact hcomplete d (hpre.eq_of_length_le hd.length_le)
  | @stray b _ hstray =>
    obtain ⟨lead, tails, hlead, -, -⟩ := utf8EncodeChar_eq_cons c
    rw [hlead, List.singleton_append, List.cons_append, List.cons.injEq] at heq
    exact hstray ⟨c, tails, by rw [hlead, heq.1]; rfl⟩

theorem Broken.prefix_of_broken {bad bad' rest rest' : List UInt8} (h : Broken bad rest) (h' : Broken bad' rest')
    (heq : bad ++ rest = bad' ++ rest') : bad' <+: bad := by
  cases h' with
  | cut _ hbegins _ _ => exact h.prefix_of_begins hbegins heq
  | @stray b _ _ =>
    obtain ⟨a, bad, rfl⟩ := List.exists_cons_of_ne_nil h.ne_nil
    rw [List.cons_append, List.singleton_append, List.cons.injEq] at heq
    exact ⟨bad, by rw [heq.1]; rfl⟩

theorem Broken.unique {bad bad' rest rest' : List UInt8} (h : Broken bad rest) (h' : Broken bad' rest')
    (heq : bad ++ rest = bad' ++ rest') : bad = bad' ∧ rest = rest' := by
  have hbad : bad = bad' :=
    (h'.prefix_of_broken h heq.symm).eq_of_length_le (h.prefix_of_broken h' heq).length_le
  subst hbad
  exact ⟨rfl, List.append_cancel_left heq⟩

theorem Lossy.unique {bs : List UInt8} {cs ds : List Char} (h : Lossy bs cs) (h' : Lossy bs ds) : cs = ds := by
  induction h generalizing ds with
  | nil =>
    generalize hbs : ([] : List UInt8) = bs at h'
    cases h' with
    | nil => rfl
    | char d => exact absurd (List.append_eq_nil_iff.1 hbs.symm).1 String.utf8EncodeChar_ne_nil
    | broken hbad => exact absurd (List.append_eq_nil_iff.1 hbs.symm).1 hbad.ne_nil
  | @char bs cs c h ih =>
    generalize hbs : utf8EncodeChar c ++ bs = bytes at h'
    cases h' with
    | nil => exact absurd (List.append_eq_nil_iff.1 hbs).1 String.utf8EncodeChar_ne_nil
    | char d h' =>
      obtain ⟨rfl, rfl⟩ := utf8EncodeChar_append_inj hbs
      rw [ih h']
    | broken hbad => exact absurd hbs.symm hbad.not_char
  | @broken bad bs cs hbad h ih =>
    generalize hbs : bad ++ bs = bytes at h'
    cases h' with
    | nil => exact absurd (List.append_eq_nil_iff.1 hbs).1 hbad.ne_nil
    | char d h' => exact absurd hbs hbad.not_char
    | broken hbad' h' =>
      obtain ⟨rfl, rfl⟩ := hbad.unique hbad' hbs
      rw [ih h']

/-- The text of bytes is the one they are read as. -/
theorem decode_eq_iff_lossy {bs : List UInt8} {cs : List Char} : decode bs = cs ↔ Lossy bs cs :=
  ⟨fun h => h ▸ (lossy_decodeFrom bs).1, fun h => (lossy_decodeFrom bs).1.unique h⟩

/-! ## Bytes before a character -/

theorem Broken.append {bad bs rest : List UInt8} (h : Broken bad bs) (hrest : ∀ b ∈ rest.head?, ¬ IsTail b) :
    Broken bad (bs ++ rest) := by
  cases h with
  | stray hstray => exact .stray hstray
  | cut hbad hbegins hcomplete hnext =>
    refine .cut hbad hbegins hcomplete ?_
    cases bs with
    | nil => exact fun b hb hgoes => hrest b hb (.of_begins hbad hgoes)
    | cons b bs => exact hnext

theorem Lossy.append {bs rest : List UInt8} {cs ds : List Char} (h : Lossy bs cs)
    (hrest : ∀ b ∈ rest.head?, ¬ IsTail b) (h' : Lossy rest ds) : Lossy (bs ++ rest) (cs ++ ds) := by
  induction h with
  | nil => exact h'
  | char c _ ih =>
    rw [List.append_assoc]
    exact .char c ih
  | broken hbad _ ih =>
    rw [List.append_assoc]
    exact .broken (hbad.append hrest) ih

/-- What stands before the first byte of a character is read on its own. -/
theorem decode_append {bs rest : List UInt8} (hrest : ∀ b ∈ rest.head?, ¬ IsTail b) :
    decode (bs ++ rest) = decode bs ++ decode rest :=
  decode_eq_iff_lossy.2 ((decode_eq_iff_lossy.1 rfl).append hrest (decode_eq_iff_lossy.1 rfl))

theorem decode_encode_append (cs : List Char) (bs : List UInt8) : decode (encode cs ++ bs) = cs ++ decode bs := by
  induction cs with
  | nil => rfl
  | cons c cs ih => rw [encode_cons, List.append_assoc, decode_utf8EncodeChar_append, ih]; rfl

/-- No tail begins a character. -/
theorem not_isTail_head (c : Char) (bs : List UInt8) : ∀ b ∈ (utf8EncodeChar c ++ bs).head?, ¬ IsTail b := by
  obtain ⟨lead, tails, hlead, htail, -⟩ := utf8EncodeChar_eq_cons c
  rw [hlead]
  simpa using htail

/-! ## Lengths -/

theorem length_le_encode (cs : List Char) : cs.length ≤ (encode cs).length := by
  induction cs with
  | nil => exact Nat.le_refl _
  | cons c cs ih =>
    have hc := List.length_pos_iff.2 (String.utf8EncodeChar_ne_nil (c := c))
    rw [encode_cons, List.length_append, List.length_cons]
    omega

theorem length_encode_toList (s : String) : (encode s.toList).length = s.utf8ByteSize := by
  have hbytes : s.toByteArray = s.toList.utf8Encode := by rw [← String.toByteArray_ofList, String.ofList_toList]
  rw [← String.size_toByteArray, hbytes, List.utf8Encode, List.size_toByteArray, encode]

theorem Lossy.length_le {bs : List UInt8} {cs : List Char} (h : Lossy bs cs) : cs.length ≤ bs.length := by
  induction h with
  | nil => exact Nat.le_refl _
  | char c _ ih =>
    have hc := List.length_pos_iff.2 (String.utf8EncodeChar_ne_nil (c := c))
    rw [List.length_cons, List.length_append]
    omega
  | broken hbad _ ih =>
    have hbad := List.length_pos_iff.2 hbad.ne_nil
    rw [List.length_cons, List.length_append]
    omega

/-- A replacement character takes three bytes, and stands for one byte or more. -/
theorem Lossy.length_encode_le {bs : List UInt8} {cs : List Char} (h : Lossy bs cs) :
    (encode cs).length ≤ 3 * bs.length := by
  induction h with
  | nil => exact Nat.le_refl _
  | char c _ ih =>
    rw [encode_cons, List.length_append, List.length_append]
    omega
  | broken hbad _ ih =>
    have hbad := List.length_pos_iff.2 hbad.ne_nil
    have hreplacement : (utf8EncodeChar replacement).length = 3 := rfl
    rw [encode_cons, List.length_append, List.length_append, hreplacement]
    omega

end PathRouter.Text.Utf8
