/-
Route patterns as data: a list of segments, each literal text or a named parameter, and at most one
custom method, which belongs to the last segment and is kept with its colon. The pattern also keeps
the text it was written as. `Step` is what is left of a segment when the name of its parameter is
dropped; steps are what routes are told apart by.
-/
namespace PathRouter

/-- One segment of a pattern. -/
inductive Segment where
  /-- Matches the segments of request paths that are this very text. -/
  | literal (text : String)
  /-- Matches every non-empty segment of request paths and binds it to the name. -/
  | parameter (name : String)
deriving DecidableEq, Repr

/-- One step from a node to a child: to the child for a literal text, or to the child that all
parameters at that position share. -/
inductive Step where
  | literal (text : String)
  | parameter
deriving DecidableEq, Repr

namespace Segment

/-- The literal text, or the name of the parameter. -/
def text : Segment → String
  | literal t => t
  | parameter n => n

/-- The name a segment binds, if it is a parameter. -/
def name? : Segment → Option String
  | literal _ => none
  | parameter n => some n

def isParameter (s : Segment) : Bool := s.name?.isSome

/-- The step a segment stands for. -/
def step : Segment → Step
  | literal t => .literal t
  | parameter _ => .parameter

end Segment

/-- A route pattern. -/
structure Pattern where
  /-- The pattern as it was written. -/
  text : String
  segments : List Segment
  /-- The custom method of the last segment, with its colon. -/
  customMethod : Option String
deriving DecidableEq, Repr

namespace Pattern

/-- The names of the parameters, in path order. -/
def parameterNames (p : Pattern) : List String := p.segments.filterMap Segment.name?

/-- The steps from the root to the node of the pattern. -/
def steps (p : Pattern) : List Step := p.segments.map Segment.step

end Pattern

end PathRouter
