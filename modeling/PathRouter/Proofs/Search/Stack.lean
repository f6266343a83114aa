/-
The stack of a search. The frame at a depth, counted from the root, stands at the segment of that depth,
and the one above it holds the child that it went to last (`Enters`). `Climbs` builds such stacks frame by
frame, with the depths that were left through the child of the parameters; their segments are the values that
the topmost frame was entered with. Every move keeps this (`Tracks.move`), so it holds before every turn, and
`Standing` says what that means for the frames one by one.
-/
import PathRouter.Node.Final
import PathRouter.Proofs.Search.Moves
import PathRouter.Proofs.Search.Turns

namespace PathRouter.Search

variable {α : Type} {target : Target}

/-- How the frame `g` was entered from the frame `f` below it: by the step that `f` tried last. A frame entered
through the child of the parameters has one value more. -/
inductive Enters (f g : Frame α) : Step → Prop
  | literal : f.next = .parameter → f.node.child? (.literal f.segment) = some g.node → g.bound = f.bound →
      Enters f g (.literal f.segment)
  | parameter : f.next = .spent → f.segment ≠ "" → f.node.child? .parameter = some g.node →
      g.bound = f.bound + 1 → Enters f g .parameter

/-- The frames of a search, the root first. -/
def State.frames (s : State α) : List (Frame α) := s.stack.reverse

/-- What holds before a turn of the search for `segments` below `root`. -/
structure Standing (root : Node .final α) (segments : List String) (s : State α) : Prop where
  /-- The frame at a depth has the segment there, and those after it, ahead. -/
  depth : ∀ j f, s.frames[j]? = some f → j < segments.length ∧ segments.drop j = f.segment :: f.rest
  /-- The bottom frame is the root, entered with nothing bound. -/
  bottom : ∀ f, s.frames[0]? = some f → f.node = root ∧ f.bound = 0
  /-- Every other frame was entered from the one below it. -/
  entered : ∀ j f g, s.frames[j]? = some f → s.frames[j + 1]? = some g → ∃ step, Enters f g step
  /-- The values the topmost frame was entered with are the segments at the depths that were left through
  the child of the parameters, in order. What is bound beyond them is left over from an abandoned choice. -/
  bound : ∀ f, s.frames.getLast? = some f → ∃ depths : List Nat,
    depths.Pairwise (· < ·) ∧
    (∀ j, j ∈ depths ↔
      ∃ f g, s.frames[j]? = some f ∧ s.frames[j + 1]? = some g ∧ Enters f g .parameter) ∧
    depths.length = f.bound ∧
    (s.bindings.take f.bound).map some = depths.map (segments[·]?)

/-! ## Stacks frame by frame -/

/-- The stacks that a search builds up, with the depths that were left through the child of the parameters. -/
inductive Climbs (root : Node .final α) (segments : List String) : List (Frame α) → List Nat → Prop
  | root {f : Frame α} : f.node = root → f.bound = 0 → segments = f.segment :: f.rest →
      Climbs root segments [f] []
  | literal {f g : Frame α} {below : List (Frame α)} {depths : List Nat} :
      Climbs root segments (f :: below) depths → f.rest = g.segment :: g.rest →
        Enters f g (.literal f.segment) → Climbs root segments (g :: f :: below) depths
  | parameter {f g : Frame α} {below : List (Frame α)} {depths : List Nat} :
      Climbs root segments (f :: below) depths → f.rest = g.segment :: g.rest →
        Enters f g .parameter → Climbs root segments (g :: f :: below) (depths ++ [below.length])

namespace Enters

variable {f g : Frame α}

theorem bound_literal (h : Enters f g (.literal f.segment)) : g.bound = f.bound := by
  cases h
  assumption

theorem bound_parameter (h : Enters f g .parameter) : g.bound = f.bound + 1 := by
  cases h
  assumption

/-- A frame tells by what it tries next how the one above it was entered. -/
theorem not_parameter_of_literal {text : String} (h : Enters f g (.literal text)) : ¬ Enters f g .parameter := by
  intro h'
  cases h with
  | literal hnext =>
    cases h' with
    | parameter hnext' => cases hnext.symm.trans hnext'

end Enters

namespace Climbs

variable {root : Node .final α} {segments : List String} {f g : Frame α} {below : List (Frame α)} {depths : List Nat}

/-- The topmost frame stands at the segment of its depth, which is the number of frames below it. -/
theorem drop_eq (h : Climbs root segments (f :: below) depths) :
    segments.drop below.length = f.segment :: f.rest := by
  -- the induction is on how the stack was built, for any stack
  generalize hs : f :: below = stack at h
  induction h generalizing f below with
  | root _ _ hsegments =>
    cases hs
    exact hsegments
  | @literal f g below depths _ hrest _ ih | @parameter f g below depths _ hrest _ ih =>
    cases hs
    rw [List.length_cons, ← List.drop_drop, ih rfl, List.drop_one, List.tail_cons, hrest]

theorem length_depths (h : Climbs root segments (f :: below) depths) : depths.length = f.bound := by
  generalize hs : f :: below = stack at h
  induction h generalizing f below with
  | root _ hbound _ =>
    cases hs
    exact hbound.symm
  | literal _ _ henters ih =>
    cases hs
    rw [ih rfl, henters.bound_literal]
  | parameter _ _ henters ih =>
    cases hs
    rw [List.length_append, List.length_singleton, ih rfl, henters.bound_parameter]

/-- Without its topmost frame a stack is one with the values that the frame below was entered with. -/
theorem drop_top (h : Climbs root segments (g :: f :: below) depths) :
    Climbs root segments (f :: below) (depths.take f.bound) := by
  cases h with
  | literal hbelow _ _ => rwa [List.take_of_length_le (Nat.le_of_eq hbelow.length_depths)]
  | parameter hbelow _ _ => rwa [List.take_left' hbelow.length_depths]

/-- What the topmost frame tries next is left open. -/
theorem retry {n : Node .final α} {segment : String} {rest : List String} {bound : Nat} {next next' : Choice}
    (h : Climbs root segments (⟨n, segment, rest, bound, next⟩ :: below) depths) :
    Climbs root segments (⟨n, segment, rest, bound, next'⟩ :: below) depths := by
  cases h with
  | root hnode hbound hsegments => exact .root hnode hbound hsegments
  | literal hbelow hrest henters =>
    cases henters with
    | literal hnext hchild hbound => exact .literal hbelow hrest (.literal hnext hchild hbound)
  | parameter hbelow hrest henters =>
    cases henters with
    | parameter hnext hsegment hchild hbound =>
      exact .parameter hbelow hrest (.parameter hnext hsegment hchild hbound)

end Climbs

/-! ## Moves -/

/-- The stack of a state is one that the search builds up, and what its topmost frame was entered with is bound. -/
def Tracks (root : Node .final α) (segments : List String) (s : State α) : Prop :=
  ∀ f below, s.stack = f :: below → ∃ depths,
    Climbs root segments (f :: below) depths ∧ (s.bindings.take f.bound).map some = depths.map (segments[·]?)

theorem tracks_start (root : Node .final α) (segment : String) (rest : List String) :
    Tracks root (segment :: rest) (start root segment rest) := by
  intro f below hs
  cases hs
  exact ⟨[], .root rfl rfl rfl, rfl⟩

namespace Tracks

variable {root : Node .final α} {segments rest : List String} {f g : Frame α} {below : List (Frame α)}
  {b : List String}
  {trail trail' : List Record}

/-- As many values are kept as the topmost frame was entered with. -/
theorem length_take (h : Tracks root segments ⟨f :: below, b, trail⟩) : (b.take f.bound).length = f.bound := by
  obtain ⟨depths, hclimbs, hvalues⟩ := h f below rfl
  have hlength := congrArg List.length hvalues
  rwa [List.length_map, List.length_map, hclimbs.length_depths] at hlength

/-- A frame that is dropped leaves the values that the one below it was entered with. -/
theorem drop_top (h : Tracks root segments ⟨g :: below, b, trail⟩) :
    Tracks root segments ⟨below, b.take g.bound, trail'⟩ := by
  rintro f below rfl
  obtain ⟨depths, hclimbs, hvalues⟩ := h g _ rfl
  -- of the values kept, those the frame below was entered with come first
  refine ⟨depths.take f.bound, hclimbs.drop_top, ?_⟩
  rw [List.map_take, hvalues, List.map_take]

/-- What is left over from an abandoned choice may be dropped. -/
theorem truncate (h : Tracks root segments ⟨f :: below, b, trail⟩) :
    Tracks root segments ⟨f :: below, b.take f.bound, trail'⟩ := by
  intro _ _ hs
  cases hs
  obtain ⟨depths, hclimbs, hvalues⟩ := h f below rfl
  refine ⟨depths, hclimbs, ?_⟩
  rw [List.take_take, Nat.min_self]
  exact hvalues

/-- A frame may go on to what it tries next. -/
theorem retry {n : Node .final α} {segment : String} {bound : Nat} {next next' : Choice}
    (h : Tracks root segments ⟨⟨n, segment, rest, bound, next⟩ :: below, b, trail⟩) :
    Tracks root segments ⟨⟨n, segment, rest, bound, next'⟩ :: below, b, trail⟩ := by
  intro _ _ hs
  cases hs
  obtain ⟨depths, hclimbs, hvalues⟩ := h _ _ rfl
  exact ⟨depths, hclimbs.retry, hvalues⟩

/-- The child for the segment may be entered with the values of its parent. -/
theorem enter_literal (h : Tracks root segments ⟨f :: below, b, trail⟩) (hrest : f.rest = g.segment :: g.rest)
    (henters : Enters f g (.literal f.segment)) : Tracks root segments ⟨g :: f :: below, b.take f.bound, trail'⟩ := by
  intro _ _ hs
  cases hs
  obtain ⟨depths, hclimbs, hvalues⟩ := h f below rfl
  refine ⟨depths, .literal hclimbs hrest henters, ?_⟩
  rw [henters.bound_literal, List.take_take, Nat.min_self]
  exact hvalues

/-- The child of the parameters may be entered once the segment is bound. -/
theorem enter_parameter (h : Tracks root segments ⟨f :: below, b, trail⟩) (hrest : f.rest = g.segment :: g.rest)
    (henters : Enters f g .parameter) :
    Tracks root segments ⟨g :: f :: below, b.take f.bound ++ [f.segment], trail'⟩ := by
  intro _ _ hs
  cases hs
  have hlength := h.length_take
  obtain ⟨depths, hclimbs, hvalues⟩ := h f below rfl
  have hsegment : segments[below.length]? = some f.segment := by
    rw [← List.head?_drop, hclimbs.drop_eq, List.head?_cons]
  have hall : (b.take f.bound ++ [f.segment]).take g.bound = b.take f.bound ++ [f.segment] := by
    refine List.take_of_length_le ?_
    exact Nat.le_of_eq (by rw [List.length_append, hlength, henters.bound_parameter, List.length_singleton])
  refine ⟨depths ++ [below.length], .parameter hclimbs hrest henters, ?_⟩
  show ((b.take f.bound ++ [f.segment]).take g.bound).map some = _
  rw [hall, List.map_append, List.map_append, hvalues, List.map_singleton, List.map_singleton, hsegment]

theorem move {s s' : State α} (h : Tracks root segments s) (hmove : Moves target s s') : Tracks root segments s' := by
  cases hmove with
  | missed _ => exact h.drop_top
  | literal hchild => exact h.retry.enter_literal rfl (.literal rfl hchild h.length_take)
  | noLiteral _ => exact h.retry.truncate
  | parameter hsegment hchild =>
    exact h.retry.enter_parameter rfl (.parameter rfl hsegment hchild (congrArg (· + 1) h.length_take))
  | noParameter _ => exact h.retry.truncate
  | exhausted => exact h.drop_top

end Tracks

/-! ## Frames counted from the root -/

/-- The topmost element of a stack is the last one counted from the bottom. -/
theorem getElem?_reverse_cons {β : Type} (x : β) (xs : List β) (j : Nat) :
    (x :: xs).reverse[j]? = if j = xs.length then some x else xs.reverse[j]? := by
  rw [List.reverse_cons, List.getElem?_append, List.length_reverse]
  rcases Nat.lt_trichotomy j xs.length with h | rfl | h
  · rw [if_pos h, if_neg (Nat.ne_of_lt h)]
  · simp
  · rw [if_neg (Nat.lt_asymm h), if_neg (Nat.ne_of_gt h), List.getElem?_eq_none (by rw [List.length_singleton]; omega),
      List.getElem?_eq_none (by rw [List.length_reverse]; omega)]

/-- The frames at a depth and above it, counted from the root. -/
def Adjacent (stack : List (Frame α)) (j : Nat) (f g : Frame α) : Prop :=
  stack.reverse[j]? = some f ∧ stack.reverse[j + 1]? = some g

theorem Adjacent.lt_length {stack : List (Frame α)} {j : Nat} {f g : Frame α} (h : Adjacent stack j f g) :
    j + 1 < stack.length := by
  obtain ⟨hlt, -⟩ := List.getElem?_eq_some_iff.1 h.2
  rwa [List.length_reverse] at hlt

theorem adjacent_cons_cons_iff {f g f' g' : Frame α} {below : List (Frame α)} {j : Nat} :
    Adjacent (g :: f :: below) j f' g' ↔ (j = below.length ∧ f = f' ∧ g = g') ∨ Adjacent (f :: below) j f' g' := by
  unfold Adjacent
  rw [getElem?_reverse_cons g, getElem?_reverse_cons g, List.length_cons]
  -- the new pair is the topmost one, and above that there is none
  by_cases hj : j = below.length
  · subst hj
    simp
  · by_cases hj' : j = below.length + 1
    · subst hj'
      simp
    · simp [hj, hj']

namespace Climbs

variable {root : Node .final α} {segments : List String} {stack : List (Frame α)} {depths : List Nat}

/-- Every frame of the stack stands at the segment of its depth. -/
theorem drop_of_getElem? :
    ∀ {stack : List (Frame α)} {depths : List Nat}, Climbs root segments stack depths →
      ∀ {j : Nat} {f : Frame α}, stack.reverse[j]? = some f → segments.drop j = f.segment :: f.rest
  | top :: below, _, h, j, f, hf => by
    rw [getElem?_reverse_cons] at hf
    split at hf
    · next hj =>
      cases hf
      rw [hj]
      exact h.drop_eq
    · cases below with
      | nil => cases hf
      | cons next below => exact h.drop_top.drop_of_getElem? hf

theorem bottom (h : Climbs root segments stack depths) :
    ∀ {f : Frame α}, stack.reverse[0]? = some f → f.node = root ∧ f.bound = 0 := by
  induction h with
  | root hnode hbound _ =>
    intro f hf
    cases hf
    exact ⟨hnode, hbound⟩
  | literal _ _ _ ih | parameter _ _ _ ih =>
    intro f hf
    rw [getElem?_reverse_cons, if_neg (by simp)] at hf
    exact ih hf

theorem exists_enters (h : Climbs root segments stack depths) :
    ∀ {j : Nat} {f g : Frame α}, Adjacent stack j f g → ∃ step, Enters f g step := by
  induction h with
  | root => exact fun h => absurd h.lt_length (by simp)
  | literal _ _ henters ih | parameter _ _ henters ih =>
    intro j f' g' h
    rcases adjacent_cons_cons_iff.1 h with ⟨-, rfl, rfl⟩ | h
    · exact ⟨_, henters⟩
    · exact ih h

/-- The depths are those that were left through the child of the parameters. -/
theorem mem_depths_iff (h : Climbs root segments stack depths) :
    ∀ {j : Nat}, j ∈ depths ↔ ∃ f g, Adjacent stack j f g ∧ Enters f g .parameter := by
  induction h with
  | root =>
    intro j
    constructor
    · exact fun h => absurd h List.not_mem_nil
    · rintro ⟨f, g, h, -⟩
      exact absurd h.lt_length (by simp)
  | literal _ _ henters ih =>
    intro j
    rw [ih]
    constructor
    · rintro ⟨f', g', h, hparameter⟩
      exact ⟨f', g', adjacent_cons_cons_iff.2 (.inr h), hparameter⟩
    · rintro ⟨f', g', h, hparameter⟩
      rcases adjacent_cons_cons_iff.1 h with ⟨-, rfl, rfl⟩ | h
      · exact absurd hparameter henters.not_parameter_of_literal
      · exact ⟨f', g', h, hparameter⟩
  | @parameter f g below depths _ _ henters ih =>
    intro j
    rw [List.mem_append, List.mem_singleton, ih]
    constructor
    · rintro (⟨f', g', h, hparameter⟩ | rfl)
      · exact ⟨f', g', adjacent_cons_cons_iff.2 (.inr h), hparameter⟩
      · exact ⟨f, g, adjacent_cons_cons_iff.2 (.inl ⟨rfl, rfl, rfl⟩), henters⟩
    · rintro ⟨f', g', h, hparameter⟩
      rcases adjacent_cons_cons_iff.1 h with ⟨hj, -, -⟩ | h
      · exact .inr hj
      · exact .inl ⟨f', g', h, hparameter⟩

theorem pairwise_depths (h : Climbs root segments stack depths) : depths.Pairwise (· < ·) := by
  induction h with
  | root => exact .nil
  | literal _ _ _ ih => exact ih
  | @parameter f g below depths hbelow _ _ ih =>
    refine List.pairwise_append.2 ⟨ih, List.pairwise_singleton .., fun i hi j hj => ?_⟩
    obtain ⟨_, _, hadjacent, -⟩ := hbelow.mem_depths_iff.1 hi
    rw [List.mem_singleton.1 hj]
    exact Nat.lt_of_succ_lt_succ hadjacent.lt_length

end Climbs

/-- Where the stack is one that the search builds up, every frame is in its place. -/
theorem Tracks.standing {root : Node .final α} {segments : List String} {s : State α}
    (h : Tracks root segments s) : Standing root segments s := by
  obtain ⟨stack, b, trail⟩ := s
  cases stack with
  | nil => exact ⟨by simp [State.frames], by simp [State.frames], by simp [State.frames], by simp [State.frames]⟩
  | cons top below =>
    obtain ⟨depths, hclimbs, hvalues⟩ := h top below rfl
    refine ⟨fun j f hf => ?_, fun f hf => hclimbs.bottom hf, fun j f g hf hg => hclimbs.exists_enters ⟨hf, hg⟩,
      fun f hf => ?_⟩
    · have hdrop : segments.drop j = f.segment :: f.rest := hclimbs.drop_of_getElem? hf
      refine ⟨Nat.lt_of_not_le fun hle => ?_, hdrop⟩
      rw [List.drop_eq_nil_of_le hle] at hdrop
      cases hdrop
    · have htop : top = f := by simpa [State.frames] using hf
      subst htop
      refine ⟨depths, hclimbs.pairwise_depths, fun j => ?_, hclimbs.length_depths, hvalues⟩
      rw [hclimbs.mem_depths_iff]
      simp only [Adjacent, and_assoc]
      rfl

/-! ## Turn by turn -/

/-- What every move keeps holds before every turn. -/
theorem of_turns {I : State α → Prop} (hmove : ∀ s s', I s → Moves target s s' → I s') :
    ∀ {k : Nat} {s s' : State α}, I s → turns target k s = .more s' → I s'
  | 0, s, s', hs, h => by
    cases h
    exact hs
  | k + 1, s, s', hs, h => by
    unfold turns at h
    cases ht : turn target s with
    | done found trail =>
      rw [ht] at h
      cases h
    | more next =>
      rw [ht] at h
      exact of_turns hmove (hmove s next hs (moves_of_turn ht)) h

/-- Before every turn of a search the frame at a depth is at the segment there, it was entered from the
frame below it through the literal child or the child of the parameters, and the values that the topmost frame
was entered with are the segments at the depths left through the child of the parameters. Every turn that does
not end the search lowers the weight of its stack, in which a frame counts by what it has left to try and by
the segments after its own; so a search ends after as many turns as its stack weighs and one more. -/
theorem turns_keep_standing_and_end (target : Target) (root : Node .final α) (segment : String)
    (rest : List String) :
    (∀ k s, turns target k (start root segment rest) = .more s → Standing root (segment :: rest) s) ∧
    (∀ s s' : State α, turn target s = .more s' → stackWeight s'.stack < stackWeight s.stack) ∧
    ∀ s : State α, ∃ found trail, turns target (stackWeight s.stack + 1) s = .done found trail := by
  refine ⟨fun k s h => ?_, fun s s' h => weight_lt_of_turn h,
    fun s => ⟨_, _, turns_of_weight_lt (Nat.lt_succ_self _)⟩⟩
  exact (of_turns (fun _ _ h hmove => h.move hmove) (tracks_start root segment rest) h).standing

/-- Nothing is found below the node that was entered with `p`. Back at the root, which was entered without a
value, `p` is still bound. -/
theorem standing_with_left_over_binding :
    let target : Target := ⟨⟨"GET", by decide⟩, false⟩
    let grown : Node .growing Nat := Node.empty.setChild (.literal "x") .empty
    let inner := grown.finalize
    let root := (Node.empty.setChild .parameter grown).finalize
    let bottom : Frame Nat := ⟨root, "p", ["x", "y"], 0, .spent⟩
    let trail : List Record := [.finalMissed "y", .literalFound "x", .parameterBound "p"]
    let before : State Nat := ⟨[⟨inner, "x", ["y"], 1, .spent⟩, bottom], ["p"], trail⟩
    let after : State Nat := ⟨[bottom], ["p"], .exhausted "x" :: trail⟩
    turns target 5 (start root "p" ["x", "y"]) = .more before ∧ turn target before = .more after ∧
      turns target 6 (start root "p" ["x", "y"]) = .more after ∧
      Standing root ["p", "x", "y"] after ∧ stackWeight after.stack < stackWeight before.stack := by
  intro target grown inner root bottom trail before after
  have hturn : turn target before = .more after := rfl
  have hturns : turns target 6 (start root "p" ["x", "y"]) = .more after := rfl
  have h := turns_keep_standing_and_end target root "p" ["x", "y"]
  exact ⟨rfl, hturn, hturns, h.1 6 after hturns, h.2.1 before after hturn⟩

end PathRouter.Search
