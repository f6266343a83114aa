/-
How specific a way is, as a list of numbers that compares position by position: for each segment but
the last a literal comes before a parameter, and for the last one plain text, text with a custom
method, a parameter with a custom method and a plain parameter follow in this order, where a custom
method that begins earlier comes first. `ways` lists the ways of a path in increasing rank, so the
search finds the one of least rank among those that end in a terminal.
-/
import PathRouter.Proofs.Search.Ways

namespace PathRouter

/-- The rank of a step that others follow. -/
def Step.rank : Step → Nat
  | literal _ => 0
  | parameter => 1

/-- The rank of the last step, where the final segment has `length` characters: its kind, and where
its custom method begins. -/
def Step.finalRank (length : Nat) : Option String → Step → List Nat
  | none, literal _ => [0, 0]
  | some custom, literal _ => [1, length - custom.length]
  | some custom, parameter => [2, length - custom.length]
  | none, parameter => [3, 0]

/-- The rank of steps that a custom method may follow, on a path whose final segment has `length`
characters. -/
def stepsRank (length : Nat) (custom : Option String) : List Step → List Nat
  | [] => []
  | [s] => s.finalRank length custom
  | s :: following :: rest => s.rank :: stepsRank length custom (following :: rest)

/-- The length of the final segment of a path. -/
def finalLength (segments : List String) : Nat := (segments.getLast?.getD "").length

/-- The rank of a way to read a path. -/
def Way.rank (segments : List String) (w : Way) : List Nat :=
  stepsRank (finalLength segments) w.customMethod w.steps

theorem stepsRank_cons (length : Nat) (custom : Option String) (s : Step) {rest : List Step} (h : rest ≠ []) :
    stepsRank length custom (s :: rest) = s.rank :: stepsRank length custom rest := by
  cases rest with
  | nil => exact absurd rfl h
  | cons following rest => rfl

theorem stepsRank_concat (length : Nat) (custom : Option String) (s : Step) :
    ∀ front : List Step,
      stepsRank length custom (front ++ [s]) = front.map Step.rank ++ s.finalRank length custom
  | [] => rfl
  | r :: front => by
    rw [List.cons_append, stepsRank_cons _ _ _ (by simp), stepsRank_concat length custom s front]
    rfl

theorem finalLength_cons_cons (segment following : String) (rest : List String) :
    finalLength (segment :: following :: rest) = finalLength (following :: rest) := by
  unfold finalLength
  rw [List.getLast?_cons_cons]

theorem Binds.length_eq {steps : List Step} {segments values : List String} (h : Binds steps segments values) :
    steps.length = segments.length := by
  induction h with
  | nil => rfl
  | literal text _ ih => simp [ih]
  | parameter _ _ ih => simp [ih]

/-- A path reads as one step for each segment. -/
theorem Reads.length_eq {steps : List Step} {segments values : List String} {custom : Option String}
    (h : Reads steps segments values custom) : steps.length = segments.length := by
  cases custom with
  | none => exact Binds.length_eq h
  | some c =>
    obtain ⟨front, last, rfl, hbinds⟩ := h
    rw [hbinds.length_eq]
    simp

/-! ## The order of the ways -/

theorem pairwise_colonSplits (cs : List Char) :
    (colonSplits cs).Pairwise fun a b => a.1.length < b.1.length := by
  induction cs with
  | nil => exact List.Pairwise.nil
  | cons c cs ih =>
    have hlater : ((colonSplits cs).map fun split => (c :: split.1, split.2)).Pairwise
        fun a b => a.1.length < b.1.length := by
      rw [List.pairwise_map]
      exact ih.imp fun h => by simpa using h
    simp only [colonSplits]
    split
    · refine List.pairwise_cons.2 ⟨fun split hm => ?_, hlater⟩
      obtain ⟨inner, -, rfl⟩ := List.mem_map.1 hm
      simp
    · exact hlater

theorem pairwise_customSplits (allowed : Bool) (segment : String) :
    (customSplits allowed segment).Pairwise fun a b => a.1.length < b.1.length := by
  unfold customSplits
  split
  · rw [List.pairwise_map]
    exact (pairwise_colonSplits _).imp fun h => by simpa using h
  · exact List.Pairwise.nil

/-- Where the custom method of a split begins. -/
theorem sub_length_of_mem_customSplits {allowed : Bool} {segment text custom : String}
    (h : (text, custom) ∈ customSplits allowed segment) : segment.length - custom.length = text.length := by
  rw [← (mem_customSplits_iff.1 h).2.1, String.length_append, Nat.add_sub_cancel]

/-- The rank of an ending of the final segment. -/
def Ending.rank (segment : String) (e : Ending) : List Nat := e.step.finalRank segment.length e.customMethod

theorem lt_of_kind_lt {j k a b : Nat} (h : j < k) : [j, a] < [k, b] := List.cons_lt_cons_iff.2 (.inl h)

theorem lt_of_position_lt {k a b : Nat} (h : a < b) : [k, a] < [k, b] := by
  simpa [List.cons_lt_cons_iff] using h

/-- Of endings of one kind those come first whose custom method begins earlier. -/
theorem pairwise_positions {allowed : Bool} {segment : String} (kind : Nat) {splits : List (String × String)}
    (hsub : splits.Sublist (customSplits allowed segment)) :
    splits.Pairwise fun a b => [kind, segment.length - a.2.length] < [kind, segment.length - b.2.length] := by
  refine List.Pairwise.imp_of_mem ?_ ((pairwise_customSplits allowed segment).sublist hsub)
  rintro ⟨text, custom⟩ ⟨text', custom'⟩ h h' hlt
  rw [sub_length_of_mem_customSplits (hsub.subset h), sub_length_of_mem_customSplits (hsub.subset h')]
  exact lt_of_position_lt hlt

/-- Endings are listed in increasing rank. -/
theorem pairwise_endings (allowed : Bool) (segment : String) :
    (endings allowed segment).Pairwise fun a b => a.rank segment < b.rank segment := by
  simp only [endings, List.cons_append]
  refine List.pairwise_cons.2 ⟨fun e he => ?_, List.pairwise_append.2 ⟨List.pairwise_append.2 ⟨?_, ?_, ?_⟩, ?_, ?_⟩⟩
  · -- the whole segment as a literal comes before all else
    rcases List.mem_append.1 he with he | he
    · rcases List.mem_append.1 he with he | he
      · obtain ⟨split, -, rfl⟩ := List.mem_map.1 he
        exact lt_of_kind_lt (by decide)
      · obtain ⟨split, -, rfl⟩ := List.mem_map.1 he
        exact lt_of_kind_lt (by decide)
    · split at he
      · cases he
      · cases List.mem_singleton.1 he
        exact lt_of_kind_lt (by decide)
  · exact List.pairwise_map.2 (pairwise_positions 1 (List.Sublist.refl _))
  · exact List.pairwise_map.2 (pairwise_positions 2 List.filter_sublist)
  · -- literals with a custom method come before parameters with one
    intro a ha b hb
    obtain ⟨split, -, rfl⟩ := List.mem_map.1 ha
    obtain ⟨split', -, rfl⟩ := List.mem_map.1 hb
    exact lt_of_kind_lt (by decide)
  · split
    · exact List.Pairwise.nil
    · exact List.pairwise_singleton ..
  · -- the whole segment as a parameter comes last
    intro a ha b hb
    split at hb
    · cases hb
    · cases List.mem_singleton.1 hb
      rcases List.mem_append.1 ha with ha | ha
      · obtain ⟨split, -, rfl⟩ := List.mem_map.1 ha
        exact lt_of_kind_lt (by decide)
      · obtain ⟨split, -, rfl⟩ := List.mem_map.1 ha
        exact lt_of_kind_lt (by decide)

/-- Ways are listed in increasing rank. -/
theorem pairwise_ways (allowed : Bool) :
    ∀ segments : List String, (ways allowed segments).Pairwise fun v w => v.rank segments < w.rank segments
  | [] => List.pairwise_singleton ..
  | [segment] => by
    rw [ways, List.pairwise_map]
    exact (pairwise_endings allowed segment).imp id
  | segment :: following :: rest => by
    have ih := pairwise_ways allowed (following :: rest)
    -- one more segment puts one more number in front of the rank
    have hrank : ∀ w ∈ ways allowed (following :: rest), ∀ s : Step,
        stepsRank (finalLength (segment :: following :: rest)) w.customMethod (s :: w.steps) =
          s.rank :: w.rank (following :: rest) := by
      intro w hw s
      have hlen := (mem_ways_iff.1 hw).1.length_eq
      rw [finalLength_cons_cons, stepsRank_cons]
      · rfl
      · intro hnil
        simp [hnil] at hlen
    have hmap : ∀ s : Step, (ways allowed (following :: rest)).Pairwise fun v w =>
        stepsRank (finalLength (segment :: following :: rest)) v.customMethod (s :: v.steps) <
          stepsRank (finalLength (segment :: following :: rest)) w.customMethod (s :: w.steps) := by
      intro s
      refine ih.imp_of_mem fun {v w} hv hw hlt => ?_
      rw [hrank v hv, hrank w hw]
      exact List.cons_lt_cons_iff.2 (.inr ⟨rfl, hlt⟩)
    refine List.pairwise_append.2 ⟨List.pairwise_map.2 (hmap (.literal segment)), ?_, ?_⟩
    · split
      · exact List.Pairwise.nil
      · exact List.pairwise_map.2 (hmap .parameter)
    · intro a ha b hb
      split at hb
      · cases hb
      · obtain ⟨v, hv, rfl⟩ := List.mem_map.1 ha
        obtain ⟨w, hw, rfl⟩ := List.mem_map.1 hb
        show stepsRank _ v.customMethod (.literal segment :: v.steps) <
          stepsRank _ w.customMethod (.parameter :: w.steps)
        rw [hrank v hv, hrank w hw]
        exact List.cons_lt_cons_iff.2 (.inl Nat.zero_lt_one)

example : ways true ["a:b"] =
    [⟨[.literal "a:b"], none, []⟩, ⟨[.literal "a"], some ":b", []⟩, ⟨[.parameter], some ":b", ["a"]⟩,
      ⟨[.parameter], none, ["a:b"]⟩] := by rfl

/-! ## The first way is the most specific one -/

/-- Taking the first hit of a list in increasing rank is taking the hit of least rank. -/
theorem findSome?_eq_some_iff_of_pairwise {β γ : Type} {f : β → Option γ} {rank : β → List Nat} {l : List β}
    (hl : l.Pairwise fun a b => rank a < rank b) {c : γ} :
    l.findSome? f = some c ↔
      ∃ a ∈ l, f a = some c ∧ ∀ b ∈ l, (f b).isSome → b ≠ a → rank a < rank b := by
  rw [List.findSome?_eq_some_iff]
  constructor
  · rintro ⟨before, a, after, rfl, ha, hbefore⟩
    refine ⟨a, by simp, ha, fun b hb hsome hne => ?_⟩
    rw [List.pairwise_append, List.pairwise_cons] at hl
    rcases List.mem_append.1 hb with hb | hb
    · rw [hbefore b hb] at hsome
      cases hsome
    · exact hl.2.1.1 b ((List.mem_cons.1 hb).resolve_left hne)
  · rintro ⟨a, ha, hfa, hleast⟩
    obtain ⟨before, after, rfl⟩ := List.append_of_mem ha
    refine ⟨before, a, after, rfl, hfa, fun b hb => ?_⟩
    cases hfb : f b with
    | none => rfl
    | some d =>
      rw [List.pairwise_append] at hl
      have hlt := hl.2.2 b hb a (List.mem_cons_self ..)
      have hne : b ≠ a := by
        rintro rfl
        exact List.lt_irrefl _ hlt
      have hgt := hleast b (List.mem_append_left _ hb) (by rw [hfb]; rfl) hne
      exact absurd (List.lt_trans hlt hgt) (List.lt_irrefl _)

end PathRouter
