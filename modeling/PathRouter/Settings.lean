/-
Settings of a router, and their reading from a configuration document. There is one setting: what to
do with a route whose place is taken. A document gives it by name, by position, or not at all;
`ofValue?_toValue` says that what is written reads back.
-/
namespace PathRouter

/-- What to do with a route at whose place the method has a route already. -/
inductive Duplicates where
  /-- The new route is turned away. -/
  | strict
  /-- The new route takes the place. -/
  | lax
deriving DecidableEq, Repr

/-- A value of a configuration document. The fields of a record have distinct names. -/
inductive Value where
  | null
  | bool (b : Bool)
  /-- The number `mantissa * 10 ^ (-exponent)`. -/
  | number (mantissa : Int) (exponent : Nat)
  | text (s : String)
  | list (items : List Value)
  | record (fields : List (String × Value))
deriving Inhabited

namespace Duplicates

/-- The name of a policy in a document. -/
def name : Duplicates → String
  | strict => "strict"
  | lax => "lax"

/-- The policy of a name; case counts. -/
def ofName? (s : String) : Option Duplicates :=
  [strict, lax].find? fun p => p.name == s

/-- A policy is given by its name, or by a record whose only field has that name and no value. -/
def ofValue? : Value → Option Duplicates
  | .text s => ofName? s
  | .record [(s, .null)] => ofName? s
  | _ => none

end Duplicates

/-- The settings of a router. -/
structure Settings where
  duplicates : Duplicates := .strict
deriving DecidableEq, Repr

namespace Settings

/-- The settings that hold where a document says nothing. -/
def default : Settings := {}

/-- Settings as a record, whose other fields are passed over, or as a list by position. A setting
that is left out has its default. -/
def ofValue? : Value → Option Settings
  | .record fields =>
    match fields.lookup "duplicates" with
    | none => some default
    | some v => (Duplicates.ofValue? v).map ({ duplicates := · })
  | .list [] => some default
  | .list [v] => (Duplicates.ofValue? v).map ({ duplicates := · })
  | _ => none

/-- The settings as a document. -/
def toValue (c : Settings) : Value :=
  .record [("duplicates", .text c.duplicates.name)]

theorem ofValue?_toValue (c : Settings) : ofValue? c.toValue = some c := by
  obtain ⟨p⟩ := c
  cases p <;> rfl

end Settings

end PathRouter
