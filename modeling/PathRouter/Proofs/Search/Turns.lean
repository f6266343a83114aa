/-
Searching turn by turn. Every turn lowers the weight of the stack, so after as many turns as that weight,
and one more, the search has ended (`turns_of_weight_lt`). Below any node, for any segments, it then has
arrived where plain recursion over the segments arrives.
-/
import PathRouter.Proofs.Search.Ways

namespace PathRouter

variable {α : Type}

namespace Search

/-- What a search comes to within a number of turns. -/
def turns (target : Target) : Nat → State α → Turn α
  | 0, s => .more s
  | n + 1, s =>
    match turn target s with
    | .done found trail => .done found trail
    | .more s' => turns target n s'

/-- A search has ended once it took more turns than its stack weighs. -/
theorem turns_of_weight_lt {target : Target} :
    ∀ {n : Nat} {s : State α}, s.weight < n →
      turns target n s = .done (run target s).value (run target s).log.reverse
  | 0, s, h => absurd h (Nat.not_lt_zero _)
  | n + 1, s, h => by
    unfold turns
    cases ht : turn target s with
    | done found trail => rw [run_of_done ht, List.reverse_reverse]
    | more s' =>
      have hlt : s'.weight < s.weight := weight_lt_of_turn ht
      rw [run_of_more ht]
      exact turns_of_weight_lt (by omega)

theorem weight_start (root : Node .final α) (segment : String) (rest : List String) :
    (start root segment rest).weight = freshWeight rest.length := by
  show (Frame.fresh root segment rest 0).weight + 0 = _
  rw [weight_fresh, Nat.add_zero]

end Search

open Search

/-- Below any node, a search arrives where the recursion over the segments arrives, at the same terminal
with the same bindings, or nowhere if that arrives nowhere. It ends within a number of turns that is
known from the number of segments, and takes no turn when there is none. -/
theorem Node.turns_eq_done_find? (target : Target) (root : Node .final α) :
    (∀ segments, (root.search? target segments).value = root.find? target segments) ∧
    (root.search? target []).log = [] ∧
    ∀ segment rest n, ∃ trail,
      turns target (freshWeight rest.length + 1 + n) (start root segment rest) =
          .done (root.find? target (segment :: rest)) trail ∧
        (root.search? target (segment :: rest)).log = trail.reverse := by
  refine ⟨value_search? target root, rfl, fun segment rest n => ?_⟩
  have hweight : (start root segment rest).weight < freshWeight rest.length + 1 + n := by
    rw [weight_start]
    omega
  refine ⟨(run target (start root segment rest)).log.reverse, ?_, ?_⟩
  · rw [turns_of_weight_lt hweight, ← value_search? target root (segment :: rest)]
    rfl
  · rw [List.reverse_reverse]
    rfl

end PathRouter
