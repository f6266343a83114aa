/-
Percent encodings and their decoding. Of a text each character is kept or has all of its bytes
escaped, with hexadecimal digits of either case; what would be read otherwise, slashes, colons and
percent signs, is escaped in every encoding. Decoding gives the text back, whatever was escaped.
-/
import PathRouter.Proofs.Text.Utf8
import PathRouter.Text.Percent

namespace PathRouter.Text.Percent

open String (utf8EncodeChar)

/-- Whether a character is the hexadecimal digit of a value, in either case. -/
def IsDigit (c : Char) (n : Nat) : Prop :=
  "0123456789abcdef".toList[n]? = some c ∨ "0123456789ABCDEF".toList[n]? = some c

/-- Bytes and their escapes. -/
inductive Escapes : List UInt8 → List Char → Prop
  | nil : Escapes [] []
  | cons {b : UInt8} {high low : Char} {bs : List UInt8} {cs : List Char} :
      IsDigit high (b.toNat / 16) → IsDigit low (b.toNat % 16) → Escapes bs cs →
        Escapes (b :: bs) ('%' :: high :: low :: cs)

/-- Texts and their percent encodings. -/
inductive Encodes : List Char → List Char → Prop
  | nil : Encodes [] []
  | keep {c : Char} {text raw : List Char} :
      c ∉ ['/', ':', '%'] → Encodes text raw → Encodes (c :: text) (c :: raw)
  | escape {c : Char} {text written raw : List Char} :
      Escapes (utf8EncodeChar c) written → Encodes text raw → Encodes (c :: text) (written ++ raw)

/-! ## Digits -/

/-- The digits of a value are ASCII, are read as the value, and are no separators. -/
theorem isDigit_spec {c : Char} {n : Nat} (h : IsDigit c n) :
    hexValue? (.ofNat c.toNat) = some (.ofNat n) ∧ c.toNat < 0x80 ∧ c ∉ ['/', ':'] := by
  have hall : ∀ p ∈ "0123456789abcdef".toList.zipIdx ++ "0123456789ABCDEF".toList.zipIdx,
      hexValue? (.ofNat p.1.toNat) = some (.ofNat p.2) ∧ p.1.toNat < 0x80 ∧ p.1 ∉ ['/', ':'] := by decide
  refine hall (c, n) (List.mem_append.2 ?_)
  rw [List.mk_mem_zipIdx_iff_getElem?, List.mk_mem_zipIdx_iff_getElem?]
  exact h

/-! ## What is not escaped -/

theorem unescape_cons_of_ne {b : UInt8} (h : b ≠ 0x25) (bs : List UInt8) : unescape (b :: bs) = b :: unescape bs := by
  rcases bs with _ | ⟨c, _ | ⟨d, bs⟩⟩
  · rfl
  · rfl
  · have hnone : escape? b c d = none := if_neg h
    rw [unescape, hnone]

theorem unescape_append_of_not_mem {bs : List UInt8} (h : 0x25 ∉ bs) (rest : List UInt8) :
    unescape (bs ++ rest) = bs ++ unescape rest := by
  induction bs with
  | nil => rfl
  | cons b bs ih =>
    rw [List.mem_cons, not_or] at h
    rw [List.cons_append, unescape_cons_of_ne (Ne.symm h.1), ih h.2, List.cons_append]

/-- Only the percent sign is written with its byte. -/
theorem percent_not_mem_utf8EncodeChar {c : Char} (h : c ≠ '%') : 0x25 ∉ utf8EncodeChar c := by
  have hvalid := Utf8.toNat_lt c
  have hbyte : ∀ n, n < 256 → n ≠ 0x25 → (0x25 : UInt8) ≠ .ofNat n := by
    intro n hn hne heq
    have := congrArg UInt8.toNat heq
    rw [Utf8.toNat_ofNat hn] at this
    exact hne this.symm
  -- one byte is the value of the character, and the bytes of longer forms are 128 at least
  rcases Nat.lt_or_ge c.toNat 0x80 with h1 | h1
  · rw [Utf8.utf8EncodeChar_one h1, List.mem_singleton]
    refine hbyte _ (by omega) fun heq => h ?_
    rw [← Char.ofNat_toNat c, heq]
  rcases Nat.lt_or_ge c.toNat 0x800 with h2 | h2
  · rw [Utf8.utf8EncodeChar_two h1 h2]
    simp only [List.mem_cons, List.not_mem_nil, or_false, not_or]
    exact ⟨hbyte _ (by omega) (by omega), hbyte _ (by omega) (by omega)⟩
  rcases Nat.lt_or_ge c.toNat 0x10000 with h3 | h3
  · rw [Utf8.utf8EncodeChar_three h2 h3]
    simp only [List.mem_cons, List.not_mem_nil, or_false, not_or]
    exact ⟨hbyte _ (by omega) (by omega), hbyte _ (by omega) (by omega), hbyte _ (by omega) (by omega)⟩
  · rw [Utf8.utf8EncodeChar_four h3]
    simp only [List.mem_cons, List.not_mem_nil, or_false, not_or]
    exact ⟨hbyte _ (by omega) (by omega), hbyte _ (by omega) (by omega), hbyte _ (by omega) (by omega),
      hbyte _ (by omega) (by omega)⟩

/-! ## What is escaped -/

theorem unescape_escape {b high low : UInt8} (hhigh : hexValue? high = some (.ofNat (b.toNat / 16)))
    (hlow : hexValue? low = some (.ofNat (b.toNat % 16))) (rest : List UInt8) :
    unescape (0x25 :: high :: low :: rest) = b :: unescape rest := by
  have hb : b.toNat < 256 := b.toNat_lt
  have hvalue : (16 : UInt8) * .ofNat (b.toNat / 16) + .ofNat (b.toNat % 16) = b := by
    apply UInt8.toNat_inj.1
    simp only [UInt8.toNat_add, UInt8.toNat_mul, UInt8.toNat_ofNat', UInt8.toNat_ofNat]
    omega
  have hsome : escape? 0x25 high low = some b := by
    rw [escape?, if_pos (by rfl), hhigh, hlow]
    exact congrArg some hvalue
  rw [unescape, hsome]

theorem Escapes.unescape_append {bs : List UInt8} {written : List Char} (h : Escapes bs written)
    (rest : List UInt8) : unescape (Utf8.encode written ++ rest) = bs ++ unescape rest := by
  induction h with
  | nil => rfl
  | @cons b high low bs cs hhigh hlow _ ih =>
    obtain ⟨hhigh, hascii, -⟩ := isDigit_spec hhigh
    obtain ⟨hlow, hascii', -⟩ := isDigit_spec hlow
    have hbytes : Utf8.encode ('%' :: high :: low :: cs) =
        0x25 :: .ofNat high.toNat :: .ofNat low.toNat :: Utf8.encode cs := by
      unfold Utf8.encode
      rw [List.flatMap_cons, List.flatMap_cons, List.flatMap_cons, Utf8.utf8EncodeChar_one hascii,
        Utf8.utf8EncodeChar_one hascii']
      rfl
    rw [hbytes]
    show unescape (0x25 :: _ :: _ :: (Utf8.encode cs ++ rest)) = _
    rw [unescape_escape hhigh hlow, ih]
    rfl

/-! ## The round trip -/

namespace Encodes

variable {text raw : List Char}

/-- Unescaping an encoding gives the bytes of the text. -/
theorem unescape_encode (h : Encodes text raw) : unescape (Utf8.encode raw) = Utf8.encode text := by
  induction h with
  | nil => rfl
  | @keep c text raw hc _ ih =>
    have hpercent : c ≠ '%' := by
      rintro rfl
      exact hc (by decide)
    show unescape (utf8EncodeChar c ++ Utf8.encode raw) = utf8EncodeChar c ++ Utf8.encode text
    rw [unescape_append_of_not_mem (percent_not_mem_utf8EncodeChar hpercent), ih]
  | @escape c text written raw hescapes _ ih =>
    have happend : Utf8.encode (written ++ raw) = Utf8.encode written ++ Utf8.encode raw := List.flatMap_append
    rw [happend, hescapes.unescape_append, ih]
    rfl

/-- No encoding has a separator. -/
theorem separator_not_mem (h : Encodes text raw) {c : Char} (hc : c ∈ ['/', ':']) : c ∉ raw := by
  have hescapes : ∀ {bs written}, Escapes bs written → c ∉ written := by
    intro bs written h
    induction h with
    | nil => simp
    | @cons b high low bs cs hhigh hlow _ ih =>
      have hpercent : c ≠ '%' := by
        rintro rfl
        exact absurd hc (by decide)
      have hne : ∀ {d n}, IsDigit d n → c ≠ d := by
        rintro d n hd rfl
        exact (isDigit_spec hd).2.2 hc
      simp only [List.mem_cons, not_or]
      exact ⟨hpercent, hne hhigh, hne hlow, ih⟩
  induction h with
  | nil => simp
  | keep hd _ ih =>
    rw [List.mem_cons, not_or]
    refine ⟨?_, ih⟩
    rintro rfl
    exact hd (List.mem_append_left ['%'] hc)
  | escape hwritten _ ih =>
    rw [List.mem_append, not_or]
    exact ⟨hescapes hwritten, ih⟩

theorem ne_nil (h : Encodes text raw) (htext : text ≠ []) : raw ≠ [] := by
  cases h with
  | nil => exact absurd rfl htext
  | keep => exact List.cons_ne_nil _ _
  | @escape c text written raw hescapes _ =>
    intro hnil
    rw [(List.append_eq_nil_iff.1 hnil).1] at hescapes
    have hbytes : utf8EncodeChar c ≠ [] := String.utf8EncodeChar_ne_nil
    generalize utf8EncodeChar c = bytes at hescapes hbytes
    cases hescapes
    exact hbytes rfl

end Encodes

/-- Decoding any encoding of a text gives the text. -/
theorem decode_of_encodes {text raw : String} (h : Encodes text.toList raw.toList) : decode raw = text := by
  unfold decode
  rw [h.unescape_encode, Utf8.decode_encode, String.ofList_toList]

end PathRouter.Text.Percent
