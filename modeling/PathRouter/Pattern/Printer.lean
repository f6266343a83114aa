/-
Writing patterns. Segments are joined by slashes; a parameter stands in braces, and a colon of a
literal or of a custom method, other than the colon that begins the custom method, is written with a
backslash before it.
-/
import PathRouter.Pattern.Basic
import PathRouter.Text.Colon

namespace PathRouter.Pattern

open Text

/-- The written form of a segment. -/
def renderSegment : Segment → List Char
  | .literal text => escapeColons text.toList
  | .parameter name => '{' :: name.toList ++ ['}']

/-- The written form of a custom method, which begins with its colon. -/
def renderCustomMethod : Option String → List Char
  | none => []
  | some custom => custom.toList.take 1 ++ escapeColons (custom.toList.drop 1)

/-- The text, without a leading slash, that is read as these segments and this custom method. -/
def render (segments : List Segment) (customMethod : Option String) : String :=
  .ofList (['/'].intercalate (segments.map renderSegment) ++ renderCustomMethod customMethod)

end PathRouter.Pattern
