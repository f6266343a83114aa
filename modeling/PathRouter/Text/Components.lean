/-
Paths as text: the components between slashes. One leading slash is dropped first, and the text that
is empty then has no component; otherwise a slash separates components, any of which may be empty.
Patterns and request paths are both cut up this way.
-/
namespace PathRouter.Text

/-- The text without its leading slash, if it has one. -/
def dropSlash : List Char → List Char
  | [] => []
  | c :: cs => if c = '/' then cs else c :: cs

/-- The components of a path. -/
def components (path : List Char) : List (List Char) :=
  match dropSlash path with
  | [] => []
  | c :: cs => (c :: cs).splitOn '/'

@[simp]
theorem dropSlash_slash (cs : List Char) : dropSlash ('/' :: cs) = cs := by
  simp [dropSlash]

theorem dropSlash_of_ne {c : Char} (h : c ≠ '/') (cs : List Char) : dropSlash (c :: cs) = c :: cs := by
  simp [dropSlash, h]

end PathRouter.Text
