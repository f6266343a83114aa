/-
Which colons of a segment count. A colon is escaped when a backslash stands directly before it, and
`Cut` says of a segment what stands before its first colon that is not escaped, with the escapes
resolved, and what stands after that colon. The scan of a segment finds just this (`cut_iff`), and it loses
nothing: escaping what it unescaped gives the segment back, and a text that was escaped is found again.
-/
import PathRouter.Proofs.Text.Colon

namespace PathRouter.Text

/-- Whether a text has a colon that no backslash stands directly before. -/
def HasColon (cs : List Char) : Prop :=
  ∃ before after, cs = before ++ ':' :: after ∧ before.getLast? ≠ some '\\'

/-- The text with the backslashes left out that stand directly before a colon. -/
def unescapeColons : List Char → List Char
  | [] => []
  | '\\' :: ':' :: cs => ':' :: unescapeColons cs
  | c :: cs => c :: unescapeColons cs

/-- What the first unescaped colon of a segment stands between: the unescaped text before it, which is all of
the segment if there is none, and the text after it. -/
inductive Cut (raw : List Char) : List Char → Option (List Char) → Prop
  | whole : ¬ HasColon raw → Cut raw (unescapeColons raw) none
  | atColon {before after : List Char} : raw = before ++ ':' :: after → before.getLast? ≠ some '\\' →
      ¬ HasColon before → Cut raw (unescapeColons before) (some after)

/-! ## Escaped text -/

theorem getLast?_escapeColons (cs : List Char) : (escapeColons cs).getLast? = cs.getLast? := by
  induction cs with
  | nil => rfl
  | cons c cs ih =>
    by_cases hc : c = ':'
    · subst hc
      rw [escapeColons_colon, List.getLast?_cons, List.getLast?_cons, List.getLast?_cons, ih]
      rfl
    · rw [escapeColons_cons hc, List.getLast?_cons, List.getLast?_cons, ih]

/-- A character goes along unless it begins an escape. -/
theorem unescapeColons_cons {c : Char} {cs : List Char} (h : c = '\\' → cs.head? ≠ some ':') :
    unescapeColons (c :: cs) = c :: unescapeColons cs := by
  rw [unescapeColons.eq_def]
  split
  · next hcs => cases hcs
  · next hcs =>
    cases hcs
    exact absurd rfl (h rfl)
  · next hcs =>
    cases hcs
    rfl

theorem unescapeColons_escapeColons : ∀ cs : List Char, unescapeColons (escapeColons cs) = cs
  | [] => rfl
  | c :: cs => by
    by_cases hc : c = ':'
    · subst hc
      rw [escapeColons_colon, unescapeColons, unescapeColons_escapeColons cs]
    · rw [escapeColons_cons hc, unescapeColons_cons fun _ => head?_escapeColons cs, unescapeColons_escapeColons cs]

theorem getLast?_ne_of_cons {c x : Char} {cs : List Char} (h : (c :: cs).getLast? ≠ some x) :
    cs.getLast? ≠ some x := by
  cases cs with
  | nil => simp
  | cons d ds => rwa [List.getLast?_cons_cons] at h

theorem not_hasColon_escapeColons : ∀ cs : List Char, ¬ HasColon (escapeColons cs)
  | [], ⟨before, after, h, _⟩ => by simp at h
  | c :: cs, ⟨before, after, h, hlast⟩ => by
    by_cases hc : c = ':'
    · subst hc
      rw [escapeColons_colon] at h
      -- the colon that is written stands after a backslash
      rcases before with _ | ⟨d, _ | ⟨e, before⟩⟩
      · cases (List.cons.inj h).1
      · cases (List.cons.inj h).1
        exact hlast rfl
      · have hrest := (List.cons.inj (List.cons.inj h).2).2
        exact not_hasColon_escapeColons cs
          ⟨before, after, hrest, getLast?_ne_of_cons (getLast?_ne_of_cons hlast)⟩
    · rw [escapeColons_cons hc] at h
      rcases before with _ | ⟨d, before⟩
      · exact hc (List.cons.inj h).1
      · exact not_hasColon_escapeColons cs ⟨before, after, (List.cons.inj h).2, getLast?_ne_of_cons hlast⟩

/-- A text has an unescaped colon unless it is what escaping gives. -/
theorem not_hasColon_iff {cs : List Char} : ¬ HasColon cs ↔ ∃ h, cs = escapeColons h := by
  constructor
  · intro hnone
    rcases hcut : cutAtColon cs with ⟨h, _ | ⟨c, r⟩⟩
    · exact ⟨h, cutAtColon_eq_nil_iff.1 hcut⟩
    · obtain ⟨-, hlast, htext⟩ := cutAtColon_eq_cons_iff.1 hcut
      exact absurd ⟨escapeColons h, r, htext, by rwa [getLast?_escapeColons]⟩ hnone
  · rintro ⟨h, rfl⟩
    exact not_hasColon_escapeColons h

/-- The reserved characters of a text, or any others that are neither colons nor backslashes, are those that
it has once escapes are resolved. -/
theorem find?_unescapeColons {p : Char → Bool} (hcolon : p ':' = false) (hback : p '\\' = false) (cs : List Char) :
    (unescapeColons cs).find? p = cs.find? p := by
  fun_induction unescapeColons cs with
  | case1 => rfl
  | case2 cs ih => simp [hcolon, hback, ih]
  | case3 c cs _ ih => rw [List.find?_cons, List.find?_cons, ih]

/-! ## What the scan finds -/

/-- The scan of a segment cuts it at its first unescaped colon. -/
theorem cut_iff {raw head : List Char} {method? : Option (List Char)} :
    Cut raw head method? ↔ cutAtColon raw = (head, (method?.map (':' :: ·)).getD []) := by
  constructor
  · rintro (hnone | ⟨rfl, hlast, hnone⟩)
    · obtain ⟨h, rfl⟩ := not_hasColon_iff.1 hnone
      rw [unescapeColons_escapeColons]
      exact cutAtColon_escapeColons h
    · obtain ⟨h, rfl⟩ := not_hasColon_iff.1 hnone
      rw [getLast?_escapeColons] at hlast
      rw [unescapeColons_escapeColons]
      exact cutAtColon_escapeColons_append _ hlast
  · intro hcut
    cases method? with
    | none =>
      rw [cutAtColon_eq_nil_iff.1 hcut]
      have hwhole := Cut.whole (not_hasColon_escapeColons head)
      rwa [unescapeColons_escapeColons] at hwhole
    | some method =>
      obtain ⟨-, hlast, htext⟩ := cutAtColon_eq_cons_iff.1 hcut
      have hat := Cut.atColon htext (by rwa [getLast?_escapeColons]) (not_hasColon_escapeColons head)
      rwa [unescapeColons_escapeColons] at hat

/-- Every segment is cut in one way. -/
theorem exists_cut (raw : List Char) : ∃ head method?, Cut raw head method? := by
  rcases hcut : cutAtColon raw with ⟨head, _ | ⟨c, method⟩⟩
  · exact ⟨head, none, cut_iff.2 hcut⟩
  · obtain ⟨rfl, -, -⟩ := cutAtColon_eq_cons_iff.1 hcut
    exact ⟨head, some method, cut_iff.2 hcut⟩

theorem cut_unique {raw head head' : List Char} {method? method?' : Option (List Char)} (h : Cut raw head method?)
    (h' : Cut raw head' method?') : head = head' ∧ method? = method?' := by
  obtain ⟨hhead, hmethod⟩ := Prod.mk.inj ((cut_iff.1 h).symm.trans (cut_iff.1 h'))
  refine ⟨hhead, ?_⟩
  cases method? <;> cases method?' <;> simp_all

/-- The scan of a segment, whatever that is, loses nothing and stops at the first unescaped colon. Where it
finds none, the segment is the text escaped. Where it finds one, the segment is the text escaped and then the
rest, which begins with that colon; the text has no unescaped colon once it is escaped, and does not end in a
backslash. Conversely, the scan of an escaped text gives the text, and where a colon follows, and no backslash
stands before that, it gives the text and the rest from that colon on. -/
theorem cutAtColon_lossless_at_first :
    (∀ segment head : List Char, cutAtColon segment = (head, []) →
      escapeColons head = segment ∧ ¬ HasColon segment) ∧
    (∀ segment head suffix : List Char, cutAtColon segment = (head, suffix) → suffix ≠ [] →
      escapeColons head ++ suffix = segment ∧ suffix.head? = some ':' ∧ head.getLast? ≠ some '\\' ∧
        HasColon segment ∧ ¬ HasColon (escapeColons head)) ∧
    (∀ text : List Char, cutAtColon (escapeColons text) = (text, [])) ∧
    ∀ text rest : List Char, text.getLast? ≠ some '\\' →
      cutAtColon (escapeColons text ++ ':' :: rest) = (text, ':' :: rest) := by
  refine ⟨fun segment head hcut => ?_, fun segment head suffix hcut hsuffix => ?_, cutAtColon_escapeColons,
    fun text rest hlast => cutAtColon_escapeColons_append rest hlast⟩
  · have htext := cutAtColon_eq_nil_iff.1 hcut
    exact ⟨htext.symm, not_hasColon_iff.2 ⟨head, htext⟩⟩
  · obtain ⟨c, rest, rfl⟩ := List.exists_cons_of_ne_nil hsuffix
    obtain ⟨rfl, hlast, htext⟩ := cutAtColon_eq_cons_iff.1 hcut
    have hcolon : HasColon segment := ⟨escapeColons head, rest, htext, by rwa [getLast?_escapeColons]⟩
    exact ⟨htext.symm, rfl, hlast, hcolon, not_hasColon_escapeColons head⟩

/-- Of two colons the first is escaped. Of two backslashes before a colon the second escapes it. A text may be
followed by colons and backslashes of any kind. -/
theorem cutAtColon_lossless_at_second_colon :
    escapeColons ['a', ':', 'é'] ++ [':', 'c'] = ['a', '\\', ':', 'é', ':', 'c'] ∧
      ¬ HasColon (escapeColons ['a', ':', 'é']) ∧
      escapeColons ['\\', ':', 'x'] = ['\\', '\\', ':', 'x'] ∧ ¬ HasColon ['\\', '\\', ':', 'x'] ∧
      cutAtColon (escapeColons ['é'] ++ [':', '\\', ':', ':', '\\']) = (['é'], [':', '\\', ':', ':', '\\']) := by
  obtain ⟨hnone, hsome, -, hescaped⟩ := cutAtColon_lossless_at_first
  have hsecond := hsome ['a', '\\', ':', 'é', ':', 'c'] ['a', ':', 'é'] [':', 'c'] (by decide) (by decide)
  have hwhole := hnone ['\\', '\\', ':', 'x'] ['\\', ':', 'x'] (by decide)
  exact ⟨hsecond.1, hsecond.2.2.2.2, hwhole.1, hwhole.2, hescaped ['é'] ['\\', ':', ':', '\\'] (by decide)⟩

end PathRouter.Text
