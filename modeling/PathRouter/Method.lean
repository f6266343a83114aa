/-
Request methods. A method is a non-empty text of token characters, compared exactly as written.
Tokens are ASCII, so the order of the texts by character is their order by byte.
-/
namespace PathRouter

namespace Method

/-- The characters a method may be written with: ASCII letters, ASCII digits and ten marks. -/
def isTokenChar (c : Char) : Bool :=
  c.isAlphanum || "`!*+-.^_|~".toList.contains c

/-- The texts that name a method. -/
def IsToken (text : String) : Prop :=
  text ≠ "" ∧ text.toList.all isTokenChar = true

instance (text : String) : Decidable (IsToken text) :=
  inferInstanceAs (Decidable (_ ∧ _))

end Method

/-- A request method such as `GET`. -/
structure Method where
  text : String
  isToken : Method.IsToken text
deriving DecidableEq

namespace Method

@[ext]
theorem ext {m n : Method} (h : m.text = n.text) : m = n := by
  cases m; cases n; cases h; rfl

/-- The method written `text`, if that is a token. -/
def ofString? (text : String) : Option Method :=
  if h : IsToken text then some ⟨text, h⟩ else none

theorem ofString?_eq_some_iff {text : String} {m : Method} : ofString? text = some m ↔ m.text = text := by
  unfold ofString?
  split
  · next h => simp [Method.ext_iff, eq_comm]
  · next h =>
    constructor
    · simp
    · intro e
      exact absurd (e ▸ m.isToken) h

/-- The order of methods by their text. -/
def le (m n : Method) : Bool := decide (m.text ≤ n.text)

/-- A list of methods as log records show it. -/
def listText (ms : List Method) : String :=
  "[" ++ ", ".intercalate (ms.map text) ++ "]"

end Method

end PathRouter
