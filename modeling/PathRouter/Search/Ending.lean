/-
The final segment of a request path. `endings` lists the ways in which it can end a route, the most
specific first: as literal text; as literal text with a custom method; as a parameter value with a
custom method; as a parameter value. A custom method may begin at any colon, and of several the first
counts. `finish?` takes the first ending for which the node has a terminal.
-/
import PathRouter.Node.Basic

namespace PathRouter

/-- What is searched for: the routes of a method, on a path that may end in a custom method or not. -/
structure Target where
  method : Method
  customMethodAllowed : Bool
deriving DecidableEq

/-- One way for the final segment to end a route. -/
structure Ending where
  step : Step
  customMethod : Option String
  /-- The value bound to a parameter that the route ends with. -/
  binding : Option String
deriving DecidableEq, Repr

/-- The parts before and from each colon of a text, from the first colon to the last. -/
def colonSplits : List Char → List (List Char × List Char)
  | [] => []
  | c :: cs =>
    let later := (colonSplits cs).map fun split => (c :: split.1, split.2)
    if c = ':' then ([], c :: cs) :: later else later

/-- The ways in which a final segment can be a text and a custom method. -/
def customSplits (customMethodAllowed : Bool) (segment : String) : List (String × String) :=
  if customMethodAllowed then
    (colonSplits segment.toList).map fun split => (.ofList split.1, .ofList split.2)
  else []

/-- The ways in which a final segment can end a route, the most specific first. -/
def endings (customMethodAllowed : Bool) (segment : String) : List Ending :=
  let splits := customSplits customMethodAllowed segment
  ⟨.literal segment, none, none⟩ ::
    splits.map (fun (text, custom) => ⟨.literal text, some custom, none⟩) ++
    (splits.filter fun (value, _) => value != "").map
      (fun (value, custom) => ⟨.parameter, some custom, some value⟩) ++
    if segment = "" then [] else [⟨.parameter, none, some segment⟩]

namespace Ending

variable {α : Type}

/-- The terminal that an ending leads to from a node. -/
def terminal? (n : Node .final α) (m : Method) (e : Ending) : Option (Terminal α) :=
  (n.child? e.step).bind (·.terminal? ⟨e.customMethod, m⟩)

/-- The record of an ending with a custom method. -/
def record? (e : Ending) : Option Record :=
  match e.step, e.customMethod with
  | _, none => none
  | .literal _, some custom => some (.customOnLiteral custom)
  | .parameter, some custom => some (.customOnParameter custom)

end Ending

/-- The first ending of the segment for which the node has a terminal. -/
def Node.finish? {α : Type} (target : Target) (n : Node .final α) (segment : String) :
    Option (Ending × Terminal α) :=
  (endings target.customMethodAllowed segment).findSome? fun e =>
    (e.terminal? n target.method).map (e, ·)

/-! ## Splitting at colons -/

/-- A split loses nothing, and its second part begins with the colon. -/
theorem append_of_mem_colonSplits {cs : List Char} {split : List Char × List Char}
    (h : split ∈ colonSplits cs) : split.1 ++ split.2 = cs ∧ split.2.head? = some ':' := by
  induction cs generalizing split with
  | nil => simp [colonSplits] at h
  | cons c cs ih =>
    have later : split ∈ (colonSplits cs).map (fun split => (c :: split.1, split.2)) →
        split.1 ++ split.2 = c :: cs ∧ split.2.head? = some ':' := by
      rw [List.mem_map]
      rintro ⟨inner, hi, rfl⟩
      obtain ⟨happ, hhead⟩ := ih hi
      exact ⟨congrArg (c :: ·) happ, hhead⟩
    simp only [colonSplits] at h
    split at h
    · next hc =>
      rcases List.mem_cons.1 h with rfl | h
      · exact ⟨rfl, congrArg some hc⟩
      · exact later h
    · exact later h

end PathRouter
