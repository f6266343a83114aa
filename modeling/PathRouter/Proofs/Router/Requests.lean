/-
Requests made from patterns. In the path made from a pattern the literals stand as they are, the
parameters are filled in, and the custom method follows the last segment. Where what is filled in is
neither empty nor has a slash, the path is cut up into these segments again, so it matches the
pattern and binds to each parameter what was filled in for it.
-/
import PathRouter.Proofs.Router.Resolution

namespace PathRouter

open Text

/-- The segment of a path that is made from a segment of a pattern. -/
def Segment.fill (raws : String → String) : Segment → String
  | literal text => text
  | parameter name => raws name

namespace Pattern

/-- The path that is made from a pattern, without a leading slash. -/
def requestPath (p : Pattern) (raws : String → String) : String :=
  "/".intercalate (p.segments.map (Segment.fill raws)) ++ p.customMethod.getD ""

/-- Whether a literal with a colon stands before the last segment. -/
def ColonBeforeLast (p : Pattern) : Prop :=
  ∃ text, .literal text ∈ p.segments.dropLast ∧ ':' ∈ text.toList

/-- What can be filled in for the parameters of a pattern so that the path can be read again. -/
structure Fills (p : Pattern) (raws : String → String) : Prop where
  ne : ∀ name ∈ p.parameterNames, raws name ≠ ""
  slash : ∀ name ∈ p.parameterNames, '/' ∉ (raws name).toList
  colon : ∀ name ∈ p.parameterNames, ':' ∉ (raws name).toList

variable {p : Pattern} {raws : String → String}

theorem mem_parameterNames_iff {name : String} : name ∈ p.parameterNames ↔ .parameter name ∈ p.segments := by
  unfold parameterNames
  rw [List.mem_filterMap]
  constructor
  · rintro ⟨s, hs, hname⟩
    cases s with
    | literal text => cases hname
    | parameter name' =>
      cases hname
      exact hs
  · intro h
    exact ⟨_, h, rfl⟩

theorem Fills.fill_ne_empty (h : Fills p raws) (hp : WellFormed p.segments p.customMethod) {s : Segment}
    (hs : s ∈ p.segments) : s.fill raws ≠ "" := by
  cases s with
  | literal text => exact (hp.segment _ hs).1
  | parameter name => exact h.ne name (mem_parameterNames_iff.2 hs)

theorem Fills.slash_not_mem_fill (h : Fills p raws) (hp : WellFormed p.segments p.customMethod) {s : Segment}
    (hs : s ∈ p.segments) : '/' ∉ (s.fill raws).toList := by
  cases s with
  | literal text => exact slash_not_mem_bare (hp.segment _ hs)
  | parameter name => exact h.slash name (mem_parameterNames_iff.2 hs)

theorem Fills.colon_not_mem_fill (h : Fills p raws) (hcolon : ¬ p.ColonBeforeLast) {s : Segment}
    (hs : s ∈ p.segments.dropLast) : ':' ∉ (s.fill raws).toList := by
  cases s with
  | literal text => exact fun hmem => hcolon ⟨text, hs, hmem⟩
  | parameter name => exact h.colon name (mem_parameterNames_iff.2 ((List.dropLast_sublist _).subset hs))

theorem slash_not_mem_getD {custom : Option String} (hc : ∀ c ∈ custom, WellFormedCustom c) :
    '/' ∉ (custom.getD "").toList := by
  cases custom with
  | none => simp
  | some c =>
    obtain ⟨hhead, htail⟩ := hc c rfl
    intro hmem
    obtain ⟨rest, hrest⟩ := List.head?_eq_some_iff.1 hhead
    rw [Option.getD_some, hrest, List.mem_cons] at hmem
    rw [hrest] at htail
    exact (isPlain_iff.1 (htail _ (hmem.resolve_left (by decide)))).1 rfl

/-! ## The segments of the path -/

theorem requestPath_of_nil (hp : WellFormed p.segments p.customMethod) (hnil : p.segments = []) :
    p.requestPath raws = "" := by
  rw [hnil] at hp
  simp [requestPath, hnil, hp.custom_eq_none]

theorem toList_requestPath {front : List Segment} {last : Segment} (hsplit : p.segments = front ++ [last]) :
    (p.requestPath raws).toList =
      joined (front.map (fun s => (s.fill raws).toList) ++ [(last.fill raws ++ p.customMethod.getD "").toList]) := by
  have hjoin : ("/".intercalate (p.segments.map (Segment.fill raws))).toList =
      joined (front.map (fun s => (s.fill raws).toList) ++ [(last.fill raws).toList]) := by
    rw [String.toList_intercalate, hsplit, joined]
    simp [Function.comp_def]
  rw [requestPath, String.toList_append, hjoin, joined_concat_append, String.toList_append]

namespace Fills

/-- What a path is made of can be told apart again. -/
theorem forall_part (h : Fills p raws) (hp : WellFormed p.segments p.customMethod)
    {front : List Segment} {last : Segment} (hsplit : p.segments = front ++ [last]) :
    ∀ c ∈ front.map (fun s => (s.fill raws).toList) ++ [(last.fill raws ++ p.customMethod.getD "").toList],
      c ≠ [] ∧ '/' ∉ c := by
  intro c hc
  have hlast : last ∈ p.segments := by simp [hsplit]
  rcases List.mem_append.1 hc with hc | hc
  · obtain ⟨s, hs, rfl⟩ := List.mem_map.1 hc
    have hmem : s ∈ p.segments := by simp [hsplit, hs]
    exact ⟨by simpa using h.fill_ne_empty hp hmem, h.slash_not_mem_fill hp hmem⟩
  · cases List.mem_singleton.1 hc
    rw [String.toList_append, List.mem_append, not_or]
    exact ⟨by simp [h.fill_ne_empty hp hlast], h.slash_not_mem_fill hp hlast, slash_not_mem_getD hp.custom⟩

theorem head?_requestPath_ne_slash (h : Fills p raws) (hp : WellFormed p.segments p.customMethod) :
    (p.requestPath raws).toList.head? ≠ some '/' := by
  rcases eq_nil_or_concat p.segments with hnil | ⟨front, last, hsplit⟩
  · simp [requestPath_of_nil hp hnil]
  · rw [toList_requestPath hsplit]
    exact head?_joined_ne_slash (h.forall_part hp hsplit)

/-- A leading slash makes no difference. -/
theorem ofString_slash_append (h : Fills p raws) (hp : WellFormed p.segments p.customMethod) :
    RequestPath.ofString ("/" ++ p.requestPath raws) = RequestPath.ofString (p.requestPath raws) := by
  have hcomponents := components_cons_slash (h.head?_requestPath_ne_slash hp)
  simp only [RequestPath.ofString, String.toList_append]
  rw [show "/".toList ++ (p.requestPath raws).toList = '/' :: (p.requestPath raws).toList from rfl, hcomponents]

/-- A path made from a pattern is cut up into the segments it was made of. -/
theorem segments_requestPath (h : Fills p raws) (hp : WellFormed p.segments p.customMethod)
    {front : List Segment} {last : Segment} (hsplit : p.segments = front ++ [last]) :
    (RequestPath.ofString (p.requestPath raws)).segments =
      front.map (Segment.fill raws) ++ [last.fill raws ++ p.customMethod.getD ""] := by
  have hparts := h.forall_part hp hsplit
  have hdrop : dropSlash (p.requestPath raws).toList = joined _ :=
    (dropSlash_of_head? (h.head?_requestPath_ne_slash hp)).trans (toList_requestPath hsplit)
  have hcomponents := (components_eq_iff (fun c hc => (hparts c hc).2) ?_).2 hdrop
  · simp only [RequestPath.ofString, hcomponents, List.map_append, List.map_map, List.map_cons, List.map_nil,
      String.ofList_toList, Function.comp_def]
  · intro hone
    exact (hparts [] (by rw [hone]; exact List.mem_singleton.2 rfl)).1 rfl

end Fills

/-! ## The path matches -/

/-- The segments filled in bind what was filled in. -/
theorem binds_fill : ∀ {segments : List Segment}, (∀ name, .parameter name ∈ segments → raws name ≠ "") →
    Binds (segments.map Segment.step) (segments.map (Segment.fill raws))
      ((segments.filterMap Segment.name?).map raws)
  | [], _ => .nil
  | .literal text :: _, h => .literal text (binds_fill fun name hname => h name (List.mem_cons_of_mem _ hname))
  | .parameter name :: _, h =>
    .parameter (h name (List.mem_cons_self ..)) (binds_fill fun name hname => h name (List.mem_cons_of_mem _ hname))

/-- A path made from a pattern reads as the pattern, and binds what was filled in, unless a colon
keeps its custom method from being found. -/
theorem Fills.matches_requestPath (h : Fills p raws) (hp : WellFormed p.segments p.customMethod)
    (hcolon : p.customMethod ≠ none → ¬ p.ColonBeforeLast) (m : Method) :
    (⟨m, p.steps, p.customMethod⟩ : Key).Matches (RequestPath.ofString (p.requestPath raws)).segments
      (p.parameterNames.map raws) := by
  have hbinds : Binds p.steps (p.segments.map (Segment.fill raws)) (p.parameterNames.map raws) :=
    binds_fill fun name hname => h.ne name (mem_parameterNames_iff.2 hname)
  rcases eq_nil_or_concat p.segments with hnil | ⟨front, last, hsplit⟩
  · have hcustom : p.customMethod = none := by
      rw [hnil] at hp
      exact hp.custom_eq_none
    rw [requestPath_of_nil hp hnil]
    refine ⟨?_, fun hne => absurd hcustom hne⟩
    rw [hnil] at hbinds
    rw [hcustom]
    exact hbinds
  · rw [h.segments_requestPath hp hsplit]
    rw [hsplit, List.map_append, List.map_cons, List.map_nil] at hbinds
    constructor
    · cases hc : p.customMethod with
      | none => simpa [Reads, hc] using hbinds
      | some c => exact ⟨_, _, rfl, hbinds⟩
    · intro hne s hs
      rw [List.dropLast_concat] at hs
      obtain ⟨s', hs', rfl⟩ := List.mem_map.1 hs
      refine h.colon_not_mem_fill (hcolon hne) ?_
      rw [hsplit, List.dropLast_concat]
      exact hs'

end Pattern

end PathRouter
