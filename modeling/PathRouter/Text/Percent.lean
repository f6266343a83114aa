/-
Percent decoding. An escape is a percent sign and two hexadecimal digits of either case, found from
left to right; it stands for the byte of that value. Everything else stands for itself, a percent
sign without two digits and a plus sign too. The bytes are then read as UTF-8, so decoding never
fails.
-/
import PathRouter.Log
import PathRouter.Text.Utf8

namespace PathRouter.Text.Percent

/-- The value of a hexadecimal digit. -/
def hexValue? (b : UInt8) : Option UInt8 :=
  if 0x30 ≤ b ∧ b ≤ 0x39 then some (b - 0x30)
  else if 0x41 ≤ b ∧ b ≤ 0x46 then some (b - 0x37)
  else if 0x61 ≤ b ∧ b ≤ 0x66 then some (b - 0x57)
  else none

/-- The byte that an escape of these three bytes stands for, if they are one. -/
def escape? (mark high low : UInt8) : Option UInt8 :=
  if mark = 0x25 then
    match hexValue? high, hexValue? low with
    | some h, some l => some (16 * h + l)
    | _, _ => none
  else none

/-- Puts the byte of each escape in its place. -/
def unescape : List UInt8 → List UInt8
  | [] => []
  | [b] => [b]
  | [b, c] => [b, c]
  | mark :: high :: low :: bs =>
    match escape? mark high low with
    | some b => b :: unescape bs
    | none => mark :: unescape (high :: low :: bs)

/-- The text that a percent-encoded text stands for. -/
def decode (raw : String) : String :=
  String.ofList (Utf8.decode (unescape (Utf8.encode raw.toList)))

/-- The text that a percent-encoded text stands for, with the record of its decoding. -/
def decodeLogged (raw : String) : Logged String := ⟨decode raw, [.decoded (decode raw) raw]⟩

end PathRouter.Text.Percent
