/-
Reading what was written. A character takes one to four bytes, by its value; the reader goes through
the bytes of each form and gives the character back, so `decode` undoes `encode`. ASCII text is ordered
by byte as it is by character.
-/
import PathRouter.Text.Utf8

namespace PathRouter.Text.Utf8

open String (utf8EncodeChar)

/-! ## The bytes of a character -/

theorem utf8EncodeChar_one {c : Char} (h : c.toNat < 0x80) : utf8EncodeChar c = [.ofNat c.toNat] := by
  have hv : c.val.toNat ≤ 0x7F := Nat.le_of_lt_succ h
  rw [utf8EncodeChar, if_pos hv]
  rfl

theorem utf8EncodeChar_two {c : Char} (h : 0x80 ≤ c.toNat) (h' : c.toNat < 0x800) :
    utf8EncodeChar c = [.ofNat (c.toNat / 64 + 0xC0), .ofNat (c.toNat % 64 + 0x80)] := by
  change 0x80 ≤ c.val.toNat at h
  change c.val.toNat < 0x800 at h'
  have hlead : c.val.toNat / 64 % 0x20 = c.val.toNat / 64 := by omega
  rw [utf8EncodeChar, if_neg (by omega), if_pos (by omega), hlead]
  rfl

theorem utf8EncodeChar_three {c : Char} (h : 0x800 ≤ c.toNat) (h' : c.toNat < 0x10000) :
    utf8EncodeChar c =
      [.ofNat (c.toNat / 4096 + 0xE0), .ofNat (c.toNat / 64 % 64 + 0x80), .ofNat (c.toNat % 64 + 0x80)] := by
  change 0x800 ≤ c.val.toNat at h
  change c.val.toNat < 0x10000 at h'
  have hlead : c.val.toNat / 4096 % 0x10 = c.val.toNat / 4096 := by omega
  rw [utf8EncodeChar, if_neg (by omega), if_neg (by omega), if_pos (by omega), hlead]
  rfl

theorem toNat_lt (c : Char) : c.toNat < 0xD800 ∨ 0xDFFF < c.toNat ∧ c.toNat < 0x110000 := c.valid

theorem utf8EncodeChar_four {c : Char} (h : 0x10000 ≤ c.toNat) :
    utf8EncodeChar c =
      [.ofNat (c.toNat / 262144 + 0xF0), .ofNat (c.toNat / 4096 % 64 + 0x80), .ofNat (c.toNat / 64 % 64 + 0x80),
        .ofNat (c.toNat % 64 + 0x80)] := by
  have hvalid := toNat_lt c
  change 0x10000 ≤ c.val.toNat at h
  change c.val.toNat < 0xD800 ∨ 0xDFFF < c.val.toNat ∧ c.val.toNat < 0x110000 at hvalid
  have hlead : c.val.toNat / 262144 % 0x08 = c.val.toNat / 262144 := by omega
  rw [utf8EncodeChar, if_neg (by omega), if_neg (by omega), if_neg (by omega), hlead]
  rfl

/-! ## Steps of the reader -/

theorem lead?_two {k : Nat} (h : 2 ≤ k) (h' : k < 32) : lead? (k + 0xC0) = some ⟨k, 0x80, 0xBF, 0⟩ := by
  have hall : ∀ k < 32, 2 ≤ k → lead? (k + 0xC0) = some ⟨k, 0x80, 0xBF, 0⟩ := by decide
  exact hall k h' h

theorem lead?_three {k : Nat} (h : k < 16) :
    lead? (k + 0xE0) = some ⟨k, if k = 0 then 0xA0 else 0x80, if k = 13 then 0x9F else 0xBF, 1⟩ := by
  have hall : ∀ k < 16,
      lead? (k + 0xE0) = some ⟨k, if k = 0 then 0xA0 else 0x80, if k = 13 then 0x9F else 0xBF, 1⟩ := by decide
  exact hall k h

theorem lead?_four {k : Nat} (h : k < 5) :
    lead? (k + 0xF0) = some ⟨k, if k = 0 then 0x90 else 0x80, if k = 4 then 0x8F else 0xBF, 2⟩ := by
  have hall : ∀ k < 5,
      lead? (k + 0xF0) = some ⟨k, if k = 0 then 0x90 else 0x80, if k = 4 then 0x8F else 0xBF, 2⟩ := by decide
  exact hall k h

theorem toNat_ofNat {n : Nat} (h : n < 256) : (UInt8.ofNat n).toNat = n := UInt8.toNat_ofNat_of_lt' h

/-- A lead byte begins a character. -/
theorem decodeFrom_lead {n : Nat} {p : Pending} (h : 0x80 ≤ n) (h' : n < 256) (hlead : lead? n = some p)
    (bs : List UInt8) : decodeFrom none (.ofNat n :: bs) = decodeFrom (some p) bs := by
  have hstep : step none n = ([], some p) := by
    rw [step, start, if_neg (by omega), hlead]
  rw [decodeFrom_cons, toNat_ofNat h', hstep]
  rfl

/-- A byte that others follow adds its bits. -/
theorem decodeFrom_more {value low high k n : Nat} (h : low ≤ n + 0x80) (h' : n + 0x80 ≤ high) (hn : n < 64)
    (bs : List UInt8) :
    decodeFrom (some ⟨value, low, high, k + 1⟩) (.ofNat (n + 0x80) :: bs) =
      decodeFrom (some ⟨value * 64 + n, 0x80, 0xBF, k⟩) bs := by
  have hstep : step (some ⟨value, low, high, k + 1⟩) (n + 0x80) = ([], some ⟨value * 64 + n, 0x80, 0xBF, k⟩) := by
    rw [step, if_pos ⟨h, h'⟩, accept, Nat.add_sub_cancel]
  rw [decodeFrom_cons, toNat_ofNat (by omega), hstep]
  rfl

/-- The last byte completes the character. -/
theorem decodeFrom_last {value low high n : Nat} (h : low ≤ n + 0x80) (h' : n + 0x80 ≤ high) (hn : n < 64)
    (bs : List UInt8) :
    decodeFrom (some ⟨value, low, high, 0⟩) (.ofNat (n + 0x80) :: bs) =
      Char.ofNat (value * 64 + n) :: decodeFrom none bs := by
  have hstep : step (some ⟨value, low, high, 0⟩) (n + 0x80) = ([Char.ofNat (value * 64 + n)], none) := by
    rw [step, if_pos ⟨h, h'⟩, accept, Nat.add_sub_cancel]
  rw [decodeFrom_cons, toNat_ofNat (by omega), hstep]
  rfl

/-! ## The round trip -/

/-- The bytes of a character are read as that character. -/
theorem decode_utf8EncodeChar_append (c : Char) (bs : List UInt8) :
    decode (utf8EncodeChar c ++ bs) = c :: decode bs := by
  have hvalid := toNat_lt c
  rcases Nat.lt_or_ge c.toNat 0x80 with h1 | h1
  · rw [utf8EncodeChar_one h1, List.singleton_append, decode_ascii, toNat_ofNat (by omega), Char.ofNat_toNat]
    rwa [toNat_ofNat (by omega)]
  rcases Nat.lt_or_ge c.toNat 0x800 with h2 | h2
  · rw [utf8EncodeChar_two h1 h2]
    show decodeFrom none (_ :: _ :: bs) = _
    rw [decodeFrom_lead (by omega) (by omega) (lead?_two (by omega) (by omega)),
      decodeFrom_last (by omega) (by omega) (by omega),
      show c.toNat / 64 * 64 + c.toNat % 64 = c.toNat by omega, Char.ofNat_toNat]
    rfl
  rcases Nat.lt_or_ge c.toNat 0x10000 with h3 | h3
  · rw [utf8EncodeChar_three h2 h3]
    show decodeFrom none (_ :: _ :: _ :: bs) = _
    rw [decodeFrom_lead (by omega) (by omega) (lead?_three (by omega)),
      -- the range of the second byte is narrower after the least and after the surrogates' lead byte
      decodeFrom_more (by split <;> omega) (by split <;> omega) (by omega),
      decodeFrom_last (by omega) (by omega) (by omega),
      show (c.toNat / 4096 * 64 + c.toNat / 64 % 64) * 64 + c.toNat % 64 = c.toNat by omega, Char.ofNat_toNat]
    rfl
  · rw [utf8EncodeChar_four h3]
    show decodeFrom none (_ :: _ :: _ :: _ :: bs) = _
    rw [decodeFrom_lead (by omega) (by omega) (lead?_four (by omega)),
      decodeFrom_more (by split <;> omega) (by split <;> omega) (by omega),
      decodeFrom_more (by omega) (by omega) (by omega),
      decodeFrom_last (by omega) (by omega) (by omega),
      show ((c.toNat / 262144 * 64 + c.toNat / 4096 % 64) * 64 + c.toNat / 64 % 64) * 64 + c.toNat % 64 = c.toNat
        by omega, Char.ofNat_toNat]
    rfl

/-- Text is read as it was written. -/
theorem decode_encode (cs : List Char) : decode (encode cs) = cs := by
  induction cs with
  | nil => rfl
  | cons c cs ih =>
    show decode (utf8EncodeChar c ++ encode cs) = c :: cs
    rw [decode_utf8EncodeChar_append, ih]

/-! ## The order of ASCII text -/

/-- ASCII text has a byte for each character. -/
theorem encode_eq_map {cs : List Char} (h : ∀ c ∈ cs, c.toNat < 0x80) :
    encode cs = cs.map fun c => .ofNat c.toNat := by
  induction cs with
  | nil => rfl
  | cons c cs ih =>
    rw [List.forall_mem_cons] at h
    rw [encode, List.flatMap_cons, utf8EncodeChar_one h.1, List.singleton_append]
    exact congrArg _ (ih h.2)

section Ascii

variable {c d : Char} (hc : c.toNat < 0x80) (hd : d.toNat < 0x80)
include hc hd

theorem ofNat_toNat_lt_iff : UInt8.ofNat c.toNat < UInt8.ofNat d.toNat ↔ c < d := by
  rw [UInt8.lt_iff_toNat_lt, toNat_ofNat (by omega), toNat_ofNat (by omega), Char.lt_def, UInt32.lt_iff_toNat_lt]
  rfl

theorem ofNat_toNat_eq_iff : UInt8.ofNat c.toNat = UInt8.ofNat d.toNat ↔ c = d := by
  rw [← UInt8.toNat_inj, toNat_ofNat (by omega), toNat_ofNat (by omega), Char.toNat_inj]

end Ascii

/-- ASCII text is ordered by byte as it is by character. -/
theorem encode_lt_encode_iff {cs ds : List Char} (hc : ∀ c ∈ cs, c.toNat < 0x80) (hd : ∀ d ∈ ds, d.toNat < 0x80) :
    encode cs < encode ds ↔ cs < ds := by
  rw [encode_eq_map hc, encode_eq_map hd]
  induction cs generalizing ds with
  | nil => cases ds <;> simp
  | cons c cs ih =>
    cases ds with
    | nil => simp
    | cons d ds =>
      rw [List.forall_mem_cons] at hc hd
      rw [List.map_cons, List.map_cons, List.cons_lt_cons_iff, List.cons_lt_cons_iff, ih hc.2 hd.2,
        ofNat_toNat_lt_iff hc.1 hd.1, ofNat_toNat_eq_iff hc.1 hd.1]

end PathRouter.Text.Utf8
