/-
What can be wrong with a route pattern, as causes, and the sentence each is reported in.
-/
namespace PathRouter.Pattern

/-- Why a text is no route pattern. `segment` is the segment at fault as it was written. -/
inductive Fault where
  /-- Nothing stands between two slashes, after the last one, or before a custom method. -/
  | emptySegment
  /-- A segment opens a brace and does not end in the closing one. -/
  | malformedParameter (segment : String)
  /-- The name between the braces is empty or has a reserved character, a colon or a slash. -/
  | invalidParameterName (name : String)
  /-- Literal text or a custom method has a reserved character. -/
  | reservedCharacter (segment : String) (character : Char)
  /-- A segment that is not the last one has a custom method. -/
  | customMethodNotLast (segment : String)
  /-- The last segment has a second custom method. -/
  | multipleCustomMethods (segment : String)
  /-- Two parameters of the pattern have one name. -/
  | duplicateParameterName (name : String)
  /-- A custom method has a brace. -/
  | parameterInCustomMethod (segment : String)
deriving DecidableEq, Repr

/-- The fault in words. -/
def Fault.message : Fault → String
  | emptySegment => "empty path segment"
  | malformedParameter segment => s!"malformed parameter segment `{segment}`"
  | invalidParameterName name => s!"invalid parameter name `{name}`"
  | reservedCharacter segment character =>
    s!"reserved character `{character}` in segment `{segment}`"
  | customMethodNotLast segment => s!"custom method in non-final segment `{segment}`"
  | multipleCustomMethods segment => s!"more than one custom method in segment `{segment}`"
  | duplicateParameterName name => s!"parameter `{name}` bound more than once"
  | parameterInCustomMethod segment => s!"parameter in custom method `{segment}`"

end PathRouter.Pattern
