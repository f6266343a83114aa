/-
Cutting a text up at slashes and joining the components again. The components are exactly the texts
without a slash that give the text back, its one leading slash aside; only the list of one empty
component has no text of its own.
-/
import PathRouter.Text.Components

namespace PathRouter.Text

/-- The text of a list of components. -/
def joined (cs : List (List Char)) : List Char := ['/'].intercalate cs

@[simp]
theorem joined_nil : joined [] = [] := rfl

@[simp]
theorem joined_singleton (c : List Char) : joined [c] = c := by simp [joined]

theorem joined_cons (c : List Char) {cs : List (List Char)} (h : cs ≠ []) :
    joined (c :: cs) = c ++ '/' :: joined cs := by
  unfold joined
  rw [List.intercalate_cons_of_ne_nil h]
  simp

/-- The components of a text depend on what follows its leading slash only. -/
theorem components_eq (path : List Char) :
    components path = if dropSlash path = [] then [] else (dropSlash path).splitOn '/' := by
  unfold components
  split
  · next h => simp [h]
  · next h => simp [h]

/-- No piece of a split has the separator. -/
theorem not_mem_of_mem_splitOn (text : List Char) : ∀ piece ∈ text.splitOn '/', '/' ∉ piece := by
  induction text with
  | nil => simp
  | cons c cs ih =>
    rw [List.splitOn_cons_eq_if_modifyHead]
    by_cases hc : c = '/'
    · simpa [hc] using ih
    · cases hs : cs.splitOn '/' with
      | nil => simp [hc]
      | cons first rest =>
        rw [hs, List.forall_mem_cons] at ih
        simp only [beq_iff_eq, hc, if_false, List.modifyHead_cons, List.forall_mem_cons]
        refine ⟨?_, ih.2⟩
        rw [List.mem_cons, not_or]
        exact ⟨Ne.symm hc, ih.1⟩

theorem not_mem_of_mem_components {path piece : List Char} (h : piece ∈ components path) :
    '/' ∉ piece := by
  rw [components_eq] at h
  split at h
  · simp at h
  · exact not_mem_of_mem_splitOn _ piece h

/-- Joining the components loses the leading slash only. -/
theorem joined_components (path : List Char) : joined (components path) = dropSlash path := by
  rw [components_eq]
  split
  · next h => rw [h, joined_nil]
  · exact List.intercalate_splitOn '/'

theorem components_eq_nil_iff {path : List Char} : components path = [] ↔ dropSlash path = [] := by
  constructor
  · intro h
    rw [← joined_components, h, joined_nil]
  · intro h
    rw [components_eq, if_pos h]

/-- A text that is empty but for its leading slash has no component, rather than an empty one. -/
theorem components_ne_singleton_nil (path : List Char) : components path ≠ [[]] := by
  intro h
  have hdrop : dropSlash path = [] := by rw [← joined_components, h, joined_singleton]
  rw [components_eq_nil_iff.2 hdrop] at h
  cases h

theorem joined_ne_nil {cs : List (List Char)} (hnil : cs ≠ []) (hone : cs ≠ [[]]) : joined cs ≠ [] := by
  rcases cs with _ | ⟨c, _ | ⟨d, ds⟩⟩
  · exact absurd rfl hnil
  · rw [joined_singleton]
    exact fun h => hone (by rw [h])
  · rw [joined_cons c (by simp)]
    simp

/-- Text after the joined components is text of the last one. -/
theorem joined_concat_append (front : List (List Char)) (last text : List Char) :
    joined (front ++ [last]) ++ text = joined (front ++ [last ++ text]) := by
  induction front with
  | nil => simp
  | cons c front ih =>
    rw [List.cons_append, List.cons_append, joined_cons c (by simp), joined_cons c (by simp), ← ih]
    simp

theorem head?_joined_ne_slash {cs : List (List Char)} (h : ∀ c ∈ cs, c ≠ [] ∧ '/' ∉ c) :
    (joined cs).head? ≠ some '/' := by
  rcases cs with _ | ⟨c, rest⟩
  · simp
  · obtain ⟨hne, hslash⟩ := h c (List.mem_cons_self ..)
    obtain ⟨x, c, rfl⟩ := List.exists_cons_of_ne_nil hne
    have hx : (joined ((x :: c) :: rest)).head? = some x := by
      cases rest with
      | nil => simp
      | cons d rest => rw [joined_cons _ (List.cons_ne_nil _ _)]; rfl
    rw [hx]
    intro heq
    exact hslash (by simp [Option.some.inj heq])

theorem dropSlash_of_head? {path : List Char} (h : path.head? ≠ some '/') : dropSlash path = path := by
  cases path with
  | nil => rfl
  | cons c cs => exact dropSlash_of_ne (by simpa using h) cs

/-- Texts without a slash are the components of a path exactly when the path is what joins them. -/
theorem components_eq_iff {path : List Char} {cs : List (List Char)} (hslash : ∀ c ∈ cs, '/' ∉ c)
    (hone : cs ≠ [[]]) : components path = cs ↔ dropSlash path = joined cs := by
  constructor
  · rintro rfl
    exact (joined_components path).symm
  · intro h
    rw [components_eq, h]
    by_cases hnil : cs = []
    · simp [hnil]
    · rw [if_neg (joined_ne_nil hnil hone)]
      exact List.splitOn_intercalate '/' hslash hnil

/-- Components that are neither empty nor have a slash are those of the text that joins them. -/
theorem components_joined {cs : List (List Char)} (h : ∀ c ∈ cs, c ≠ [] ∧ '/' ∉ c) : components (joined cs) = cs := by
  refine (components_eq_iff (fun c hc => (h c hc).2) ?_).2 (dropSlash_of_head? (head?_joined_ne_slash h))
  rintro rfl
  exact (h [] (List.mem_singleton.2 rfl)).1 rfl

/-- The components of a path are its text again, so two paths have the same components exactly when
they differ in a leading slash at most. -/
theorem components_inj {p q : List Char} : components p = components q ↔ dropSlash p = dropSlash q := by
  constructor
  · intro h
    rw [← joined_components, ← joined_components, h]
  · intro h
    rw [components_eq, components_eq, h]

/-- A colon stands before a slash in the text of components exactly when one of them that others follow has a
colon. -/
theorem colon_slash_sublist_joined_iff {cs : List (List Char)} (h : ∀ c ∈ cs, '/' ∉ c) :
    [':', '/'].Sublist (joined cs) ↔ ∃ c ∈ cs.dropLast, ':' ∈ c := by
  induction cs with
  | nil => simp
  | cons c rest ih =>
    rw [List.forall_mem_cons] at h
    by_cases hrest : rest = []
    · subst hrest
      rw [joined_singleton, List.dropLast_singleton]
      have hslash : ¬ [':', '/'].Sublist c := fun hsub => h.1 (hsub.subset (by simp))
      simp [hslash]
    · rw [joined_cons c hrest, List.dropLast_cons_of_ne_nil hrest]
      simp only [List.mem_cons, exists_eq_or_imp]
      rw [← ih h.2]
      constructor
      · intro hsub
        obtain ⟨l, r, hlr, hl, hr⟩ := List.sublist_append_iff.1 hsub
        cases l with
        | nil =>
          rw [List.nil_append] at hlr
          subst hlr
          cases hr with
          | cons _ hr => exact .inr hr
        | cons x l =>
          cases (List.cons.inj hlr).1
          exact .inl (hl.subset (List.mem_cons_self ..))
      · rintro (hc | hsub)
        · exact (List.singleton_sublist.2 hc).append (List.cons_sublist_cons.2 (List.nil_sublist _))
        · exact (hsub.cons '/').trans (List.sublist_append_right ..)

/-- A slash in front of a path without one makes no difference. -/
theorem components_cons_slash {path : List Char} (h : path.head? ≠ some '/') :
    components ('/' :: path) = components path := by
  rw [components_inj, dropSlash_slash, dropSlash_of_head? h]

end PathRouter.Text
