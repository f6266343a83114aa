/-
The turns of a search, one by one. `Moves` lists what a turn can do that does not end the search, and
`Ends` how a search can end. What every move keeps holds where the search ends
(`exists_ends_of_moves`): this is how invariants of the search are carried to its result.
-/
import PathRouter.Search.Machine

namespace PathRouter.Search

variable {α : Type} {target : Target}

/-- The turns that do not end a search. A turn keeps as many values as were bound when the topmost frame
was entered. -/
inductive Moves (target : Target) : State α → State α → Prop
  /-- The final segment leads to no terminal. -/
  | missed {n : Node .final α} {segment : String} {bound : Nat} {next : Choice} {below : List (Frame α)}
      {b : List String} {trail : List Record} :
      n.finish? target segment = none →
        Moves target ⟨⟨n, segment, [], bound, next⟩ :: below, b, trail⟩
          ⟨below, b.take bound, .finalMissed segment :: trail⟩
  /-- The search goes to the literal child. -/
  | literal {n c : Node .final α} {segment following : String} {rest : List String} {bound : Nat}
      {below : List (Frame α)} {b : List String} {trail : List Record} :
      n.child? (.literal segment) = some c →
        Moves target ⟨⟨n, segment, following :: rest, bound, .literal⟩ :: below, b, trail⟩
          ⟨.fresh c following rest (b.take bound).length :: ⟨n, segment, following :: rest, bound, .parameter⟩ :: below,
            b.take bound, .literalFound segment :: trail⟩
  /-- There is no literal child for the segment. -/
  | noLiteral {n : Node .final α} {segment following : String} {rest : List String} {bound : Nat}
      {below : List (Frame α)} {b : List String} {trail : List Record} :
      n.child? (.literal segment) = none →
        Moves target ⟨⟨n, segment, following :: rest, bound, .literal⟩ :: below, b, trail⟩
          ⟨⟨n, segment, following :: rest, bound, .parameter⟩ :: below, b.take bound, trail⟩
  /-- The search goes to the child of the parameters and binds the segment. -/
  | parameter {n c : Node .final α} {segment following : String} {rest : List String} {bound : Nat}
      {below : List (Frame α)} {b : List String} {trail : List Record} :
      segment ≠ "" → n.child? .parameter = some c →
        Moves target ⟨⟨n, segment, following :: rest, bound, .parameter⟩ :: below, b, trail⟩
          ⟨.fresh c following rest ((b.take bound).length + 1) ::
              ⟨n, segment, following :: rest, bound, .spent⟩ :: below,
            b.take bound ++ [segment], .parameterBound segment :: trail⟩
  /-- The segment is empty, or there is no child of the parameters. -/
  | noParameter {n : Node .final α} {segment following : String} {rest : List String} {bound : Nat}
      {below : List (Frame α)} {b : List String} {trail : List Record} :
      segment = "" ∨ n.child? .parameter = none →
        Moves target ⟨⟨n, segment, following :: rest, bound, .parameter⟩ :: below, b, trail⟩
          ⟨⟨n, segment, following :: rest, bound, .spent⟩ :: below, b.take bound, trail⟩
  /-- No child is left to try. -/
  | exhausted {n : Node .final α} {segment following : String} {rest : List String} {bound : Nat}
      {below : List (Frame α)} {b : List String} {trail : List Record} :
        Moves target ⟨⟨n, segment, following :: rest, bound, .spent⟩ :: below, b, trail⟩
          ⟨below, b.take bound, .exhausted segment :: trail⟩

/-- Every turn is one of those. -/
theorem moves_of_turn {s s' : State α} (h : turn target s = .more s') : Moves target s s' := by
  obtain ⟨_ | ⟨⟨n, segment, rest, bound, next⟩, below⟩, b, trail⟩ := s
  · cases h
  · cases rest with
    | nil =>
      cases hf : n.finish? target segment with
      | none =>
        simp only [turn, finalTurn, hf] at h
        cases h
        exact .missed hf
      | some et =>
        simp only [turn, finalTurn, hf] at h
        cases h
    | cons following rest =>
      cases next with
      | literal =>
        cases hc : n.child? (.literal segment) <;> simp only [turn, innerTurn, hc] at h <;> cases h
        · exact .noLiteral hc
        · exact .literal hc
      | parameter =>
        by_cases hs : segment = ""
        · subst hs
          cases h
          exact .noParameter (.inl rfl)
        · cases hc : n.child? .parameter <;>
            simp only [turn, innerTurn, Frame.parameterChild?, hs, if_false, hc] at h <;> cases h
          · exact .noParameter (.inr hc)
          · exact .parameter hs hc
      | spent =>
        cases h
        exact .exhausted

end PathRouter.Search
