/-
Escaped colons. Cutting at the first unescaped colon and writing text with its colons escaped are
inverse to each other: a segment is cut into `(head, [])` exactly when it is `head` escaped, and into
`(head, ':' :: rest)` exactly when it is `head` escaped, which must not end in a backslash, and then
`':' :: rest` as it stands.
-/
import PathRouter.Text.Colon

namespace PathRouter.Text

@[simp]
theorem escapeColons_nil : escapeColons [] = [] := rfl

@[simp]
theorem escapeColons_colon (cs : List Char) :
    escapeColons (':' :: cs) = '\\' :: ':' :: escapeColons cs := by
  simp [escapeColons]

theorem escapeColons_cons {c : Char} (h : c ≠ ':') (cs : List Char) :
    escapeColons (c :: cs) = c :: escapeColons cs := by
  simp [escapeColons, h]

/-- Text without a colon is written as it is. -/
theorem escapeColons_of_not_mem : ∀ {cs : List Char}, ':' ∉ cs → escapeColons cs = cs
  | [], _ => rfl
  | c :: cs, h => by
    rw [List.mem_cons, not_or] at h
    rw [escapeColons_cons (Ne.symm h.1), escapeColons_of_not_mem h.2]

/-- Escaping adds backslashes only. -/
theorem mem_of_mem_escapeColons {x : Char} (hx : x ≠ '\\') :
    ∀ {cs : List Char}, x ∈ escapeColons cs → x ∈ cs
  | [], h => h
  | c :: cs, h => by
    by_cases hc : c = ':'
    · subst hc
      rw [escapeColons_colon, List.mem_cons, List.mem_cons] at h
      rcases h with h | rfl | h
      · exact absurd h hx
      · exact List.mem_cons_self ..
      · exact List.mem_cons_of_mem _ (mem_of_mem_escapeColons hx h)
    · rw [escapeColons_cons hc, List.mem_cons] at h
      rcases h with rfl | h
      · exact List.mem_cons_self ..
      · exact List.mem_cons_of_mem _ (mem_of_mem_escapeColons hx h)

theorem mem_escapeColons_of_mem {x : Char} : ∀ {cs : List Char}, x ∈ cs → x ∈ escapeColons cs
  | c :: cs, h => by
    by_cases hc : c = ':'
    · subst hc
      rw [escapeColons_colon]
      rcases List.mem_cons.1 h with rfl | h
      · simp
      · exact List.mem_cons_of_mem _ (List.mem_cons_of_mem _ (mem_escapeColons_of_mem h))
    · rw [escapeColons_cons hc]
      rcases List.mem_cons.1 h with rfl | h
      · exact List.mem_cons_self ..
      · exact List.mem_cons_of_mem _ (mem_escapeColons_of_mem h)

theorem escapeColons_ne_nil {cs : List Char} (h : cs ≠ []) : escapeColons cs ≠ [] := by
  obtain ⟨c, cs, rfl⟩ := List.exists_cons_of_ne_nil h
  by_cases hc : c = ':'
  · simp [hc]
  · simp [escapeColons_cons hc]

/-! ## Cutting what was escaped -/

/-- A character that begins no escape goes to the text before the colon. -/
theorem cutAtColon_cons {c : Char} (hc : c ≠ ':') {cs : List Char}
    (hesc : c = '\\' → cs.head? ≠ some ':') :
    cutAtColon (c :: cs) = (cutAtColon cs).map (c :: ·) id := by
  rw [cutAtColon.eq_def]
  split
  · next h => cases h
  · next h =>
    cases h
    exact absurd rfl (hesc rfl)
  · next h =>
    cases h
    rw [if_neg hc]

/-- Escaped text does not begin with a colon, whatever follows it. -/
theorem head?_escapeColons (cs : List Char) : (escapeColons cs).head? ≠ some ':' := by
  cases cs with
  | nil => simp
  | cons c cs =>
    by_cases hc : c = ':'
    · subst hc
      rw [escapeColons_colon, List.head?_cons]
      decide
    · rw [escapeColons_cons hc, List.head?_cons]
      exact fun h => hc (Option.some.inj h)

/-- Escaped text has no unescaped colon. -/
theorem cutAtColon_escapeColons : ∀ h : List Char, cutAtColon (escapeColons h) = (h, [])
  | [] => rfl
  | c :: cs => by
    by_cases hc : c = ':'
    · subst hc
      rw [escapeColons_colon, cutAtColon_escaped, cutAtColon_escapeColons cs]
      rfl
    · rw [escapeColons_cons hc, cutAtColon_cons hc fun _ => head?_escapeColons cs,
        cutAtColon_escapeColons cs]
      rfl

/-- The first unescaped colon is the one after the escaped text, unless a backslash ends that. -/
theorem cutAtColon_escapeColons_append (r : List Char) :
    ∀ {h : List Char}, h.getLast? ≠ some '\\' → cutAtColon (escapeColons h ++ ':' :: r) = (h, ':' :: r)
  | [], _ => cutAtColon_colon r
  | c :: cs, hlast => by
    have hrest : cs.getLast? ≠ some '\\' := by
      cases cs with
      | nil => simp
      | cons d ds => rwa [List.getLast?_cons_cons] at hlast
    by_cases hc : c = ':'
    · subst hc
      rw [escapeColons_colon, List.cons_append, List.cons_append, cutAtColon_escaped,
        cutAtColon_escapeColons_append r hrest]
      rfl
    · -- a backslash that is not the last character stands before one that is no colon
      have hesc : c = '\\' → (escapeColons cs ++ ':' :: r).head? ≠ some ':' := by
        rintro rfl
        cases cs with
        | nil => exact absurd rfl hlast
        | cons d ds =>
          obtain ⟨e, es, he⟩ := List.exists_cons_of_ne_nil (escapeColons_ne_nil (List.cons_ne_nil d ds))
          have hhead := head?_escapeColons (d :: ds)
          rw [he] at hhead ⊢
          exact hhead
      rw [escapeColons_cons hc, List.cons_append, cutAtColon_cons hc hesc,
        cutAtColon_escapeColons_append r hrest]
      rfl

/-! ## What is cut was escaped -/

/-- The rest begins with the colon, and no backslash stands before that. -/
theorem cutAtColon_rest (cs : List Char) :
    (cutAtColon cs).2 = [] ∨
      ∃ r, (cutAtColon cs).2 = ':' :: r ∧ (cutAtColon cs).1.getLast? ≠ some '\\' := by
  fun_induction cutAtColon cs with
  | case1 => exact .inl rfl
  | case2 cs ih =>
    rcases ih with h | ⟨r, hr, hlast⟩
    · exact .inl h
    · refine .inr ⟨r, hr, ?_⟩
      show (':' :: (cutAtColon cs).1).getLast? ≠ some '\\'
      cases hcut : (cutAtColon cs).1 with
      | nil => decide
      | cons d ds => rwa [List.getLast?_cons_cons, ← hcut]
  | case3 cs hne => exact .inr ⟨cs, rfl, by simp⟩
  | case4 c cs hne hc ih =>
    rcases ih with h | ⟨r, hr, hlast⟩
    · exact .inl h
    · refine .inr ⟨r, hr, ?_⟩
      show (c :: (cutAtColon cs).1).getLast? ≠ some '\\'
      cases hcut : (cutAtColon cs).1 with
      | nil =>
        -- the colon follows `c` directly, so `c` is no backslash
        rw [List.getLast?_singleton]
        intro h
        have htext := escapeColons_append_cutAtColon cs
        rw [hcut, hr, escapeColons_nil, List.nil_append] at htext
        exact hne r (Option.some.inj h) htext.symm
      | cons d ds => rwa [List.getLast?_cons_cons, ← hcut]

theorem cutAtColon_eq_nil_iff {cs h : List Char} : cutAtColon cs = (h, []) ↔ cs = escapeColons h := by
  constructor
  · intro hcut
    have htext := escapeColons_append_cutAtColon cs
    rw [hcut, List.append_nil] at htext
    exact htext.symm
  · rintro rfl
    exact cutAtColon_escapeColons h

theorem cutAtColon_eq_cons_iff {cs h r : List Char} {c : Char} :
    cutAtColon cs = (h, c :: r) ↔ c = ':' ∧ h.getLast? ≠ some '\\' ∧ cs = escapeColons h ++ ':' :: r := by
  constructor
  · intro hcut
    have htext := escapeColons_append_cutAtColon cs
    have hrest := cutAtColon_rest cs
    rw [hcut] at htext hrest
    rcases hrest with h | ⟨r', hr', hlast⟩
    · cases h
    · cases hr'
      exact ⟨rfl, hlast, htext.symm⟩
  · rintro ⟨rfl, hlast, rfl⟩
    exact cutAtColon_escapeColons_append r hlast

end PathRouter.Text
