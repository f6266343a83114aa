/-
Reading route patterns. The components of the text are read from left to right and the first fault
wins. Within the last component the custom method is looked at before the segment it follows; that a
name is bound twice is found last.
-/
import PathRouter.Pattern.Basic
import PathRouter.Pattern.Fault
import PathRouter.Text.Colon
import PathRouter.Text.Components

namespace PathRouter.Pattern

open Text

/-- The characters kept out of literal text, names and custom methods. -/
def isReserved (c : Char) : Bool := ['?', '#', '[', ']', '{', '}'].contains c

/-- Whether a text can name a parameter. -/
def isName (name : List Char) : Bool :=
  !name.isEmpty && name.all fun c => !(c == ':' || c == '/' || isReserved c)

/-- The text before a closing brace at the very end. -/
def beforeBrace? (cs : List Char) : Option (List Char) :=
  if cs.getLast? = some '}' then some cs.dropLast else none

/-- Reads the text after an opening brace as the name of a parameter. -/
def readParameter (raw inner : List Char) : Except Fault Segment :=
  match beforeBrace? inner with
  | none => .error (.malformedParameter (.ofList raw))
  | some name =>
    if isName name then .ok (.parameter (.ofList name))
    else .error (.invalidParameterName (.ofList name))

/-- Lets literal text pass if it has no reserved character. -/
def readLiteral (raw text : List Char) : Except Fault String :=
  match text.find? isReserved with
  | some c => .error (.reservedCharacter (.ofList raw) c)
  | none => .ok (.ofList text)

/-- Reads the unescaped text of a segment, its custom method aside. -/
def readHead (raw head : List Char) : Except Fault Segment :=
  match head with
  | [] => .error .emptySegment
  | c :: cs => if c = '{' then readParameter raw cs else (readLiteral raw (c :: cs)).map .literal

/-- Reads the text after the colon of a custom method; what is read has its colon again. -/
def readCustomMethod (raw method : List Char) : Except Fault String :=
  if method.any fun c => c == '{' || c == '}' then
    .error (.parameterInCustomMethod (.ofList raw))
  else match cutAtColon method with
    | (_, _ :: _) => .error (.multipleCustomMethods (.ofList raw))
    | (text, []) => (readLiteral raw text).map (":" ++ ·)

/-- Reads a component that others follow. -/
def readInner (raw : List Char) : Except Fault Segment :=
  match cutAtColon raw with
  | (head, []) => readHead raw head
  | (_, _ :: _) => .error (.customMethodNotLast (.ofList raw))

/-- Reads the last component: its segment and its custom method. -/
def readLast (raw : List Char) : Except Fault (Segment × Option String) :=
  match cutAtColon raw with
  | (head, []) => (readHead raw head).map (·, none)
  | (head, _ :: method) => do
    let custom ← readCustomMethod raw method
    let segment ← readHead raw head
    .ok (segment, some custom)

/-- The names bound once a segment is added. -/
def bindName (bound : List String) : Segment → Except Fault (List String)
  | .literal _ => .ok bound
  | .parameter name =>
    if name ∈ bound then .error (.duplicateParameterName name) else .ok (name :: bound)

/-- Reads the components that are left after segments with the names `bound`. -/
def readSegments (bound : List String) :
    List (List Char) → Except Fault (List Segment × Option String)
  | [] => .ok ([], none)
  | [raw] => do
    let (segment, custom) ← readLast raw
    let _ ← bindName bound segment
    .ok ([segment], custom)
  | raw :: rest => do
    let segment ← readInner raw
    let bound ← bindName bound segment
    let (segments, custom) ← readSegments bound rest
    .ok (segment :: segments, custom)

/-- Reads a text as a route pattern. -/
def parse (text : String) : Except Fault Pattern := do
  let (segments, custom) ← readSegments [] (components text.toList)
  .ok ⟨text, segments, custom⟩

/-! ## What is kept as it is -/

theorem text_of_parse {text : String} {p : Pattern} (h : parse text = .ok p) : p.text = text := by
  unfold parse at h
  cases hr : readSegments [] (components text.toList) with
  | error e => simp [hr, bind, Except.bind] at h
  | ok r =>
    simp only [hr, bind, Except.bind, Except.ok.injEq] at h
    exact h ▸ rfl

end PathRouter.Pattern
