/-
Colons in segments. A backslash directly before a colon makes the colon ordinary text; any other
backslash stands for itself. `cutAtColon` reads a segment up to its first colon that is not escaped
and gives the text before it, unescaped, with the rest from that colon on, as written; the rest is
empty when no such colon is there. `escapeColons` is the way back.
-/
namespace PathRouter.Text

/-- The text before the first unescaped colon, with the escapes resolved, and the rest from that
colon on. -/
def cutAtColon : List Char → List Char × List Char
  | [] => ([], [])
  | '\\' :: ':' :: cs => (cutAtColon cs).map (':' :: ·) id
  | c :: cs => if c = ':' then ([], c :: cs) else (cutAtColon cs).map (c :: ·) id

/-- Writes every colon of a text with a backslash before it. -/
def escapeColons : List Char → List Char
  | [] => []
  | c :: cs => if c = ':' then '\\' :: ':' :: escapeColons cs else c :: escapeColons cs

@[simp]
theorem cutAtColon_colon (cs : List Char) : cutAtColon (':' :: cs) = ([], ':' :: cs) := by
  simp [cutAtColon]

@[simp]
theorem cutAtColon_escaped (cs : List Char) :
    cutAtColon ('\\' :: ':' :: cs) = (cutAtColon cs).map (':' :: ·) id := by
  simp [cutAtColon]

/-- All text is kept: the two parts, the first one escaped again, are the segment. -/
theorem escapeColons_append_cutAtColon (cs : List Char) :
    escapeColons (cutAtColon cs).1 ++ (cutAtColon cs).2 = cs := by
  fun_induction cutAtColon cs with
  | case1 => rfl
  | case2 cs ih => simpa [escapeColons] using ih
  | case3 cs hne => simp [escapeColons]
  | case4 c cs hne hc ih => simpa [escapeColons, hc] using ih

end PathRouter.Text
