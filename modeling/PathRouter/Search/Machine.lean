/-
Searching a tree for the route of a request path, depth first. Nodes on the way are frames of a
stack, and each frame holds the child to try next: the literal one, then the one of the parameters.
A frame without a further child is dropped, and the search goes on in the frame below, so a choice
that proves wrong several segments later is taken back. Values bound by an abandoned choice stay until
the next turn, which keeps as many as were bound when its frame was entered. Every turn lowers the
weight of the stack (`weight_lt_of_turn`), so every search ends.
-/
import PathRouter.Search.Ending

namespace PathRouter

/-- A route that was found: its terminal, and the values bound on the way, in path order and still
percent encoded. -/
structure Arrival (α : Type) where
  terminal : Terminal α
  bindings : List String

namespace Search

variable {α : Type}

/-- What a frame is to try next. -/
inductive Choice where
  | literal
  | parameter
  | spent
deriving DecidableEq, Repr

/-- A node on the way, with the segment to be matched from there. -/
structure Frame (α : Type) where
  node : Node .final α
  segment : String
  /-- The segments after that one. -/
  rest : List String
  /-- How many values were bound when the node was entered. -/
  bound : Nat
  next : Choice

/-- A frame that nothing has been tried from. -/
def Frame.fresh (node : Node .final α) (segment : String) (rest : List String) (bound : Nat) : Frame α :=
  ⟨node, segment, rest, bound, .literal⟩

/-- The child of the parameters, where the segment can be bound to one. -/
def Frame.parameterChild? (f : Frame α) : Option (Node .final α) :=
  if f.segment = "" then none else f.node.child? .parameter

/-- A search under way. -/
structure State (α : Type) where
  /-- The frames, the innermost first. -/
  stack : List (Frame α)
  bindings : List String
  /-- The records written so far, the newest first. -/
  trail : List Record

/-- What one turn leads to. -/
inductive Turn (α : Type) where
  | done (found : Option (Arrival α)) (trail : List Record)
  | more (state : State α)

/-- The turn of a frame at the final segment. -/
def finalTurn (target : Target) (f : Frame α) (below : List (Frame α)) (bindings : List String)
    (trail : List Record) : Turn α :=
  match f.node.finish? target f.segment with
  | some (e, t) =>
    .done (some ⟨t, bindings ++ e.binding.toList⟩)
      (.terminalFound t.pattern :: (e.record?.toList ++ trail))
  | none => .more ⟨below, bindings, .finalMissed f.segment :: trail⟩

/-- The turn of a frame that `following` and `rest` come after. -/
def innerTurn (f : Frame α) (following : String) (rest : List String) (below : List (Frame α))
    (bindings : List String) (trail : List Record) : Turn α :=
  match f.next with
  | .literal =>
    let stack := { f with next := .parameter } :: below
    match f.node.child? (.literal f.segment) with
    | some child =>
      .more ⟨.fresh child following rest bindings.length :: stack, bindings,
        .literalFound f.segment :: trail⟩
    | none => .more ⟨stack, bindings, trail⟩
  | .parameter =>
    let stack := { f with next := .spent } :: below
    match f.parameterChild? with
    | some child =>
      .more ⟨.fresh child following rest (bindings.length + 1) :: stack, bindings ++ [f.segment],
        .parameterBound f.segment :: trail⟩
    | none => .more ⟨stack, bindings, trail⟩
  | .spent => .more ⟨below, bindings, .exhausted f.segment :: trail⟩

/-- One turn of the search. -/
def turn (target : Target) (s : State α) : Turn α :=
  match s.stack with
  | [] => .done none s.trail
  | f :: below =>
    let bindings := s.bindings.take f.bound
    match f.rest with
    | [] => finalTurn target f below bindings s.trail
    | following :: rest => innerTurn f following rest below bindings s.trail

/-! ## The weight of a stack -/

/-- The weight of a frame that nothing has been tried from, by the number of segments after its own. -/
def freshWeight : Nat → Nat
  | 0 => 1
  | k + 1 => 3 + 2 * freshWeight k

/-- The weight of a frame, which bounds the turns that it can still cause. -/
def Frame.weight (f : Frame α) : Nat :=
  match f.rest, f.next with
  | [], _ => 1
  | _ :: rest, .literal => 3 + 2 * freshWeight rest.length
  | _ :: rest, .parameter => 2 + freshWeight rest.length
  | _ :: _, .spent => 1

/-- The weight of a stack is that of its frames. -/
def stackWeight : List (Frame α) → Nat
  | [] => 0
  | f :: below => f.weight + stackWeight below

def State.weight (s : State α) : Nat := stackWeight s.stack

theorem weight_fresh (n : Node .final α) (segment : String) (rest : List String) (bound : Nat) :
    (Frame.fresh n segment rest bound).weight = freshWeight rest.length := by
  cases rest <;> rfl

theorem weight_pos (f : Frame α) : 0 < f.weight := by
  unfold Frame.weight
  split <;> omega

theorem weight_literal {f : Frame α} {following : String} {rest : List String}
    (hr : f.rest = following :: rest) (hn : f.next = .literal) :
    f.weight = 3 + 2 * freshWeight rest.length := by
  simp [Frame.weight, hr, hn]

theorem weight_parameter {f : Frame α} {following : String} {rest : List String}
    (hr : f.rest = following :: rest) (hn : f.next = .parameter) :
    f.weight = 2 + freshWeight rest.length := by
  simp [Frame.weight, hr, hn]

theorem weight_spent {f : Frame α} {following : String} {rest : List String}
    (hr : f.rest = following :: rest) (hn : f.next = .spent) : f.weight = 1 := by
  simp [Frame.weight, hr, hn]

theorem weight_lt_of_finalTurn {target : Target} {f : Frame α} {below : List (Frame α)}
    {bindings : List String} {trail : List Record} {s : State α}
    (h : finalTurn target f below bindings trail = .more s) :
    s.weight < f.weight + stackWeight below := by
  unfold finalTurn at h
  split at h
  · cases h
  · cases h
    have := weight_pos f
    simp only [State.weight]
    omega

theorem weight_lt_of_innerTurn {f : Frame α} {following : String} {rest : List String}
    {below : List (Frame α)} {bindings : List String} {trail : List Record} {s : State α}
    (hr : f.rest = following :: rest)
    (h : innerTurn f following rest below bindings trail = .more s) :
    s.weight < f.weight + stackWeight below := by
  unfold innerTurn at h
  simp only at h
  split at h
  · next hn =>
    have before := weight_literal hr hn
    have after : ({ f with next := .parameter } : Frame α).weight = 2 + freshWeight rest.length :=
      weight_parameter hr rfl
    split at h <;> cases h <;> simp only [State.weight, stackWeight, weight_fresh] <;> omega
  · next hn =>
    have before := weight_parameter hr hn
    have after : ({ f with next := .spent } : Frame α).weight = 1 := weight_spent hr rfl
    split at h <;> cases h <;> simp only [State.weight, stackWeight, weight_fresh] <;> omega
  · cases h
    have := weight_pos f
    simp only [State.weight]
    omega

/-- Every turn that does not end the search lowers the weight. -/
theorem weight_lt_of_turn {target : Target} {s s' : State α} (h : turn target s = .more s') :
    s'.weight < s.weight := by
  unfold turn at h
  split at h
  · cases h
  · next f below hs =>
    have hw : s.weight = f.weight + stackWeight below := by
      rw [State.weight, hs, stackWeight]
    simp only at h
    rw [hw]
    split at h
    · exact weight_lt_of_finalTurn h
    · next hr => exact weight_lt_of_innerTurn hr h

/-! ## Whole searches -/

/-- Takes turns until the search ends. -/
def run (target : Target) (s : State α) : Logged (Option (Arrival α)) :=
  match _h : turn target s with
  | .done found trail => ⟨found, trail.reverse⟩
  | .more s' => run target s'
termination_by s.weight
decreasing_by exact weight_lt_of_turn _h

theorem run_of_done {target : Target} {s : State α} {found : Option (Arrival α)} {trail : List Record}
    (h : turn target s = .done found trail) : run target s = ⟨found, trail.reverse⟩ := by
  rw [run]
  split <;> simp_all

theorem run_of_more {target : Target} {s s' : State α} (h : turn target s = .more s') :
    run target s = run target s' := by
  rw [run]
  split <;> simp_all

/-- The search from a root node that begins at the given segment. -/
def start (root : Node .final α) (segment : String) (rest : List String) : State α :=
  ⟨[.fresh root segment rest 0], [], []⟩

end Search

/-- Searches the tree below a node for the route of a path with these segments. The empty path ends
at the node itself. -/
def Node.search? {α : Type} (target : Target) (root : Node .final α) :
    List String → Logged (Option (Arrival α))
  | [] => pure ((root.terminal? (.plain target.method)).map (⟨·, []⟩))
  | segment :: rest => Search.run target (Search.start root segment rest)

end PathRouter
