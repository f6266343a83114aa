/-
Request paths, cut into raw segments. Segments stay percent encoded: literals are compared with the
text as it came, and values are decoded after a route is found, so an encoded slash makes no segment.
-/
import PathRouter.Text.Components

namespace PathRouter

/-- A request path as the search reads it. -/
structure RequestPath where
  segments : List String
  /-- Whether the last segment may end in a custom method: no segment before it has a colon. -/
  customMethodAllowed : Bool
deriving DecidableEq, Repr

namespace RequestPath

/-- Whether a path of these segments may end in a custom method. -/
def allowsCustomMethod (segments : List (List Char)) : Bool :=
  !segments.isEmpty && segments.dropLast.all fun s => !s.contains ':'

/-- The segments of a path as it came with a request. -/
def ofString (path : String) : RequestPath :=
  let segments := Text.components path.toList
  ⟨segments.map String.ofList, allowsCustomMethod segments⟩

end RequestPath

end PathRouter
