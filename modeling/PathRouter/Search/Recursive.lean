/-
The same search as plain recursion over the segments: all that lies below the literal child comes
before the child of the parameters. It keeps no stack and writes no records. `leadsTo_fresh` ties
the two together at any height of the stack: a frame that nothing has been tried from leads to what
the recursion finds from its node, or else the search goes on below it, where the values bound before
are still in place.
-/
import PathRouter.Search.Machine

namespace PathRouter

variable {α : Type}

/-- What is found once a value has been bound before. -/
def Arrival.bind (value : String) (a : Arrival α) : Arrival α :=
  { a with bindings := value :: a.bindings }

/-- Finds the route of a path with these segments in the tree below a node. -/
def Node.find? (target : Target) : List String → Node .final α → Option (Arrival α)
  | [], n => (n.terminal? (.plain target.method)).map (⟨·, []⟩)
  | [segment], n => (n.finish? target segment).map fun (e, t) => ⟨t, e.binding.toList⟩
  | segment :: following :: rest, n =>
    match (n.child? (.literal segment)).bind (find? target (following :: rest)) with
    | some a => some a
    | none =>
      if segment = "" then none
      else ((n.child? .parameter).bind (find? target (following :: rest))).map (.bind segment)

namespace Search

/-! ## Turns of single frames -/

variable {target : Target} {n c : Node .final α} {segment following : String} {rest : List String}
  {below : List (Frame α)} {b : List String} {bound : Nat} {trail : List Record}

/-- A frame at an inner segment, with the child to try next. -/
abbrev innerFrame (n : Node .final α) (segment following : String) (rest : List String) (bound : Nat)
    (next : Choice) : Frame α :=
  ⟨n, segment, following :: rest, bound, next⟩

theorem run_final_none (h : n.finish? target segment = none) :
    run target ⟨.fresh n segment [] bound :: below, b, trail⟩ =
      run target ⟨below, b.take bound, .finalMissed segment :: trail⟩ :=
  run_of_more (by simp [turn, Frame.fresh, finalTurn, h])

theorem value_run_final_some {e : Ending} {t : Terminal α} (h : n.finish? target segment = some (e, t)) :
    (run target ⟨.fresh n segment [] bound :: below, b, trail⟩).value =
      some ⟨t, b.take bound ++ e.binding.toList⟩ := by
  rw [run_of_done (by simp only [turn, Frame.fresh, finalTurn, h]; rfl)]

theorem run_literal_none (h : n.child? (.literal segment) = none) :
    run target ⟨innerFrame n segment following rest bound .literal :: below, b, trail⟩ =
      run target ⟨innerFrame n segment following rest bound .parameter :: below, b.take bound, trail⟩ :=
  run_of_more (by simp [turn, innerTurn, h])

theorem run_literal_some (h : n.child? (.literal segment) = some c) (hb : bound ≤ b.length) :
    run target ⟨innerFrame n segment following rest bound .literal :: below, b, trail⟩ =
      run target ⟨.fresh c following rest bound ::
        innerFrame n segment following rest bound .parameter :: below,
        b.take bound, .literalFound segment :: trail⟩ :=
  run_of_more (by simp [turn, innerTurn, h, Nat.min_eq_left hb])

theorem run_parameter_none (h : segment = "" ∨ n.child? .parameter = none) :
    run target ⟨innerFrame n segment following rest bound .parameter :: below, b, trail⟩ =
      run target ⟨innerFrame n segment following rest bound .spent :: below, b.take bound, trail⟩ :=
  run_of_more (by rcases h with h | h <;> simp [turn, innerTurn, Frame.parameterChild?, h])

theorem run_parameter_some (hs : segment ≠ "") (h : n.child? .parameter = some c)
    (hb : bound ≤ b.length) :
    run target ⟨innerFrame n segment following rest bound .parameter :: below, b, trail⟩ =
      run target ⟨.fresh c following rest (bound + 1) ::
        innerFrame n segment following rest bound .spent :: below,
        b.take bound ++ [segment], .parameterBound segment :: trail⟩ :=
  run_of_more (by simp [turn, innerTurn, Frame.parameterChild?, hs, h, Nat.min_eq_left hb])

theorem run_spent :
    run target ⟨innerFrame n segment following rest bound .spent :: below, b, trail⟩ =
      run target ⟨below, b.take bound, .exhausted segment :: trail⟩ :=
  run_of_more (by simp [turn, innerTurn])

/-! ## The machine and the recursion -/

private theorem le_length_take (hb : bound ≤ b.length) : bound ≤ (b.take bound).length := by
  rw [List.length_take]
  omega

private theorem length_take_append (hb : bound ≤ b.length) (v : String) :
    (b.take bound ++ [v]).length = bound + 1 := by
  rw [List.length_append, List.length_take, Nat.min_eq_left hb, List.length_singleton]

/-- What the search of a state comes to when `found` is what its topmost frame leads to: that, after
the values bound before, or else what the frames below it lead to, with those values in place. -/
def LeadsTo (target : Target) (s : State α) (bound : Nat) (found : Option (Arrival α))
    (below : List (Frame α)) : Prop :=
  ∃ b trail, b.take bound = s.bindings.take bound ∧ bound ≤ b.length ∧
    (run target s).value =
      match found with
      | some a => some { a with bindings := s.bindings.take bound ++ a.bindings }
      | none => (run target ⟨below, b, trail⟩).value

/-- A frame that is to try the child of the parameters finds what lies below that child, if what
holds of frames in general holds of those at the next segment. -/
theorem leadsTo_parameter
    (ih : ∀ (c : Node .final α) (below : List (Frame α)) (b : List String) (bound : Nat) (trail : List Record),
      bound ≤ b.length →
        LeadsTo target ⟨.fresh c following rest bound :: below, b, trail⟩ bound
          (c.find? target (following :: rest)) below)
    (n : Node .final α) (segment : String) (trail : List Record) (hb : bound ≤ b.length) :
    LeadsTo target ⟨innerFrame n segment following rest bound .parameter :: below, b, trail⟩ bound
      (if segment = "" then none
        else ((n.child? .parameter).bind (Node.find? target (following :: rest))).map (.bind segment))
      below := by
  by_cases h : segment = "" ∨ n.child? .parameter = none
  · refine ⟨b.take bound, .exhausted segment :: trail, by simp [List.take_take], le_length_take hb, ?_⟩
    rw [run_parameter_none h, run_spent]
    rcases h with h | h <;> simp [h, List.take_take]
  · obtain ⟨hs, hc⟩ := not_or.1 h
    obtain ⟨c, hc⟩ := Option.ne_none_iff_exists'.1 hc
    obtain ⟨b', trail', hpre, hlen, hrun⟩ :=
      ih c (innerFrame n segment following rest bound .spent :: below) (b.take bound ++ [segment])
        (bound + 1) (.parameterBound segment :: trail) (Nat.le_of_eq (length_take_append hb segment).symm)
    have hfull : (b.take bound ++ [segment]).take (bound + 1) = b.take bound ++ [segment] :=
      List.take_of_length_le (Nat.le_of_eq (length_take_append hb segment))
    refine ⟨b'.take bound, .exhausted segment :: trail', ?_, le_length_take (by omega), ?_⟩
    · have := congrArg (List.take bound) hpre
      simpa [List.take_take, hb] using this
    · rw [run_parameter_some hs hc hb, hrun]
      simp only [hs, if_false, hc, Option.bind_some]
      cases c.find? target (following :: rest) with
      | some a => simp [Arrival.bind, hfull]
      | none => simp [run_spent]

/-- A frame that nothing has been tried from leads to what the recursion finds from its node. -/
theorem leadsTo_fresh (rest : List String) (segment : String) (n : Node .final α) (below : List (Frame α))
    (b : List String) (bound : Nat) (trail : List Record) (hb : bound ≤ b.length) :
    LeadsTo target ⟨.fresh n segment rest bound :: below, b, trail⟩ bound
      (n.find? target (segment :: rest)) below := by
  induction rest generalizing segment n below b bound trail with
  | nil =>
    refine ⟨b.take bound, .finalMissed segment :: trail, by simp [List.take_take], le_length_take hb, ?_⟩
    cases hf : n.finish? target segment with
    | none => simp [run_final_none hf, Node.find?, hf]
    | some et => simp [value_run_final_some hf, Node.find?, hf]
  | cons following rest ih =>
    cases hl : n.child? (.literal segment) with
    | none =>
      have hb' := le_length_take hb
      obtain ⟨b', trail', hpre, hlen, hrun⟩ :=
        leadsTo_parameter (ih following) n segment trail hb'
      refine ⟨b', trail', by simpa [List.take_take] using hpre, hlen, ?_⟩
      rw [Frame.fresh, run_literal_none hl, hrun]
      simp [Node.find?, hl, List.take_take]
    | some c =>
      obtain ⟨b₁, trail₁, hpre₁, hlen₁, hrun₁⟩ :=
        ih following c (innerFrame n segment following rest bound .parameter :: below) (b.take bound)
          bound (.literalFound segment :: trail) (le_length_take hb)
      obtain ⟨b', trail', hpre, hlen, hrun⟩ :=
        leadsTo_parameter (ih following) n segment trail₁ hlen₁
      simp only [List.take_take, Nat.min_self] at hpre₁ hrun₁
      refine ⟨b', trail', hpre.trans hpre₁, hlen, ?_⟩
      rw [Frame.fresh, run_literal_some hl hb, hrun₁, Node.find?, hl, Option.bind_some]
      cases c.find? target (following :: rest) with
      | some a => simp
      | none => simpa [hpre₁] using hrun

end Search

end PathRouter
