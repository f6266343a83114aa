/-
Why a route is turned away, and the sentence that is reported in.
-/
import PathRouter.Log
import PathRouter.Pattern.Parser

namespace PathRouter

/-- Why a route was turned away. Patterns are named as they were supplied. -/
inductive Rejection where
  | invalidPattern (pattern : String) (fault : Pattern.Fault)
  /-- The method has a route `existing` at the very place of `pattern`. -/
  | duplicateRoute (method : Method) (pattern existing : String)
deriving DecidableEq

/-- The reason in words. -/
def Rejection.message : Rejection → String
  | invalidPattern pattern fault => s!"invalid path pattern `{pattern}`: {fault.message}"
  | duplicateRoute method pattern existing =>
    s!"duplicate {method.text} route `{pattern}` conflicts with `{existing}`"

/-- Reads a pattern that was supplied for a route. -/
def Pattern.ofString (text : String) : Logged (Except Rejection Pattern) :=
  ⟨(Pattern.parse text).mapError (.invalidPattern text), [.parsing text]⟩

end PathRouter
