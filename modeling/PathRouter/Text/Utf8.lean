/-
UTF-8 over lists of bytes. `encode` writes characters as bytes. `decode` reads any bytes: where they
are no UTF-8, each longest beginning of a character that cannot be continued, or else the single
offending byte, gives one replacement character, and the byte that broke it is read afresh. The
reader is a machine with one step a byte, whose state is the character that has begun, if one has.
-/
namespace PathRouter.Text.Utf8

/-- U+FFFD, which stands for bytes that are no text. -/
def replacement : Char := '\uFFFD'

/-- The bytes of a text. -/
def encode (cs : List Char) : List UInt8 := cs.flatMap String.utf8EncodeChar

/-- A character of more than one byte that has begun. -/
structure Pending where
  /-- The bits read so far. -/
  value : Nat
  /-- The least byte that may come next. -/
  low : Nat
  /-- The greatest byte that may come next. -/
  high : Nat
  /-- How many bytes are owed after the next one. -/
  more : Nat
deriving DecidableEq, Repr

/-- What a lead byte begins. The range of the second byte keeps out forms that are longer than
needed, surrogates, and values past the last code point. -/
def lead? (b : Nat) : Option Pending :=
  if 0xC2 ≤ b ∧ b ≤ 0xDF then some ⟨b - 0xC0, 0x80, 0xBF, 0⟩
  else if b = 0xE0 then some ⟨0x0, 0xA0, 0xBF, 1⟩
  else if b = 0xED then some ⟨0xD, 0x80, 0x9F, 1⟩
  else if 0xE1 ≤ b ∧ b ≤ 0xEF then some ⟨b - 0xE0, 0x80, 0xBF, 1⟩
  else if b = 0xF0 then some ⟨0x0, 0x90, 0xBF, 2⟩
  else if 0xF1 ≤ b ∧ b ≤ 0xF3 then some ⟨b - 0xF0, 0x80, 0xBF, 2⟩
  else if b = 0xF4 then some ⟨0x4, 0x80, 0x8F, 2⟩
  else none

/-- What a byte gives, and leaves begun, where a character may start. -/
def start (b : Nat) : List Char × Option Pending :=
  if b < 0x80 then ([Char.ofNat b], none)
  else match lead? b with
    | some p => ([], some p)
    | none => ([replacement], none)

/-- What a byte in the range of the pending character gives and leaves begun. -/
def accept (p : Pending) (b : Nat) : List Char × Option Pending :=
  match p.more with
  | 0 => ([Char.ofNat (p.value * 64 + (b - 0x80))], none)
  | k + 1 => ([], some ⟨p.value * 64 + (b - 0x80), 0x80, 0xBF, k⟩)

/-- One step of the reader: the characters it gives, and its next state. -/
def step : Option Pending → Nat → List Char × Option Pending
  | none, b => start b
  | some p, b =>
    if p.low ≤ b ∧ b ≤ p.high then accept p b else (start b).map (replacement :: ·) id

/-- Reads bytes from a state of the reader. -/
def decodeFrom : Option Pending → List UInt8 → List Char
  | none, [] => []
  | some _, [] => [replacement]
  | st, b :: bs => (step st b.toNat).1 ++ decodeFrom (step st b.toNat).2 bs

/-- The text of any bytes. -/
def decode (bytes : List UInt8) : List Char := decodeFrom none bytes

theorem encode_cons (c : Char) (cs : List Char) : encode (c :: cs) = String.utf8EncodeChar c ++ encode cs := rfl

theorem encode_append (cs ds : List Char) : encode (cs ++ ds) = encode cs ++ encode ds := List.flatMap_append

theorem decodeFrom_cons (st : Option Pending) (b : UInt8) (bs : List UInt8) :
    decodeFrom st (b :: bs) = (step st b.toNat).1 ++ decodeFrom (step st b.toNat).2 bs := by
  cases st <;> rfl

/-- A byte below 128 is its own character. -/
theorem decode_ascii {b : UInt8} (h : b.toNat < 0x80) (bs : List UInt8) :
    decode (b :: bs) = Char.ofNat b.toNat :: decode bs := by
  simp [decode, decodeFrom_cons, step, start, h]

end PathRouter.Text.Utf8
