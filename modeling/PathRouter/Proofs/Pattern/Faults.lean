/-
What is reported of a faulty pattern. `Fault.Describes` says of every fault which segments it is the one to
report of: where several things are wrong with a segment, a misplaced custom method comes before what is
wrong inside one, that before what is wrong with the text in front of it, and a name bound twice comes
last. Each reader fails exactly with the fault that describes what it reads, and the parser with the one
that describes the first segment after those that can be read.
-/
import PathRouter.Proofs.Pattern.RoundTrip
import PathRouter.Proofs.Text.Unescaped
import PathRouter.Rejection

namespace PathRouter.Pattern

open Text

/-! ## What the faults say -/

/-- Whether a text has a brace of either kind. -/
def HasBrace (cs : List Char) : Prop := '{' ∈ cs ∨ '}' ∈ cs

/-- What is asked of the text after the colon of a custom method. -/
def MethodInOrder (method : List Char) : Prop := ¬ HasColon method ∧ ∀ c ∈ method, isReserved c = false

namespace Fault

/-- Whether a fault is the one to report of the text after the colon of a custom method. -/
def OfMethod (raw method : List Char) : Fault → Prop
  | parameterInCustomMethod segment => segment = .ofList raw ∧ HasBrace method
  | multipleCustomMethods segment => segment = .ofList raw ∧ ¬ HasBrace method ∧ HasColon method
  | reservedCharacter segment character =>
    segment = .ofList raw ∧ ¬ HasBrace method ∧ ¬ HasColon method ∧ method.find? isReserved = some character
  | _ => False

/-- Whether a fault is the one to report of the unescaped text of a segment, its custom method aside, that
comes after segments with the names `bound`. -/
def OfHead (bound : List String) (raw head : List Char) : Fault → Prop
  | emptySegment => head = []
  | malformedParameter segment =>
    segment = .ofList raw ∧ head.head? = some '{' ∧ ∀ name : String, head ≠ (Segment.parameter name).bare
  | invalidParameterName name => head = (Segment.parameter name).bare ∧ ¬ (Segment.parameter name).WellFormed
  | reservedCharacter segment character =>
    segment = .ofList raw ∧ head.head? ≠ some '{' ∧ head.find? isReserved = some character
  | duplicateParameterName name =>
    head = (Segment.parameter name).bare ∧ (Segment.parameter name).WellFormed ∧ name ∈ bound
  | _ => False

/-- Whether a fault is the one to report of a segment that comes after segments with the names `bound` and is
cut into `head` and, where it has a custom method, the text after the colon of that. -/
def Describes (isLast : Prop) (bound : List String) (raw head : List Char) :
    Option (List Char) → Fault → Prop
  | none, fault => fault.OfHead bound raw head
  | some method, fault =>
    ¬ isLast ∧ fault = customMethodNotLast (.ofList raw) ∨
      isLast ∧ (fault.OfMethod raw method ∨ MethodInOrder method ∧ fault.OfHead bound raw head)

/-- Which names are bound matters, and not in which order. -/
theorem ofHead_congr {bound bound' : List String} (h : ∀ name, name ∈ bound ↔ name ∈ bound') {raw head : List Char}
    {fault : Fault} : fault.OfHead bound raw head ↔ fault.OfHead bound' raw head := by
  cases fault <;> simp only [OfHead, h]

theorem describes_congr {bound bound' : List String} (h : ∀ name, name ∈ bound ↔ name ∈ bound') {isLast : Prop}
    {raw head : List Char} {method? : Option (List Char)} {fault : Fault} :
    fault.Describes isLast bound raw head method? ↔ fault.Describes isLast bound' raw head method? := by
  cases method? <;> simp only [Describes, ofHead_congr h]

end Fault

/-! ## Readers that fail -/

theorem bind_eq_error_iff {ε α β : Type} {x : Except ε α} {f : α → Except ε β} {e : ε} :
    (x >>= f) = .error e ↔ x = .error e ∨ ∃ a, x = .ok a ∧ f a = .error e := by
  cases x with
  | error e' => simp [bind, Except.bind]
  | ok a => simp [bind, Except.bind]

theorem map_eq_error_iff {ε α β : Type} {x : Except ε α} {f : α → β} {e : ε} :
    x.map f = .error e ↔ x = .error e := by
  cases x with
  | error e' => simp [Except.map]
  | ok a => simp [Except.map]

theorem readLiteral_eq_error_iff {raw text : List Char} {fault : Fault} :
    readLiteral raw text = .error fault ↔
      ∃ c, text.find? isReserved = some c ∧ fault = .reservedCharacter (.ofList raw) c := by
  unfold readLiteral
  cases text.find? isReserved with
  | none => simp
  | some c => simp [eq_comm]

theorem find?_isReserved_eq_none_iff {text : List Char} :
    text.find? isReserved = none ↔ ∀ c ∈ text, isReserved c = false := by
  simp

theorem bindName_eq_error_iff {bound : List String} {s : Segment} {fault : Fault} :
    bindName bound s = .error fault ↔
      ∃ name, s = .parameter name ∧ name ∈ bound ∧ fault = .duplicateParameterName name := by
  cases s with
  | literal text => simp [bindName]
  | parameter name =>
    by_cases h : name ∈ bound
    · simp [bindName, h, eq_comm]
    · simp [bindName, h]

/-! ### The text of a segment -/

section Head

variable {bound : List String} {raw : List Char} {fault : Fault}

/-- After an opening brace the segment is malformed unless a closing one ends it. -/
theorem readHead_of_malformed {inner : List Char} (h : ∀ name : String, '{' :: inner ≠ (Segment.parameter name).bare) :
    readHead raw ('{' :: inner) = .error (.malformedParameter (.ofList raw)) := by
  have hnone : beforeBrace? inner = none := by
    refine Option.eq_none_iff_forall_ne_some.2 fun name hname => h (.ofList name) ?_
    rw [beforeBrace?_eq_some_iff.1 hname, Segment.bare, String.toList_ofList]
    rfl
  simp only [readHead, if_true, readParameter, hnone]

/-- Between braces stands a name. -/
theorem readHead_parameter (name : String) :
    readHead raw (Segment.parameter name).bare =
      if (Segment.parameter name).WellFormed then .ok (.parameter name) else .error (.invalidParameterName name) := by
  have hname : beforeBrace? (name.toList ++ ['}']) = some name.toList := beforeBrace?_eq_some_iff.2 rfl
  have hwf : isName name.toList = true ↔ (Segment.parameter name).WellFormed := by
    rw [isName_iff, ne_eq, String.toList_eq_nil_iff]
    exact Iff.rfl
  simp only [Segment.bare, List.cons_append, readHead, if_true, readParameter, hname, hwf, String.ofList_toList]

theorem readHead_of_not_brace {head : List Char} (hne : head ≠ []) (h : head.head? ≠ some '{') :
    readHead raw head = (readLiteral raw head).map .literal := by
  obtain ⟨c, cs, rfl⟩ := List.exists_cons_of_ne_nil hne
  have hc : c ≠ '{' := fun hc => h (congrArg some hc)
  simp only [readHead, hc, if_false]

theorem bare_parameter_inj {name name' : String} :
    (Segment.parameter name).bare = (Segment.parameter name').bare ↔ name = name' := by
  simp [Segment.bare, String.toList_inj]

/-! The four shapes of a text, and what there is to report of each. -/

theorem ofHead_nil_iff : fault.OfHead bound raw [] ↔ fault = .emptySegment := by
  cases fault <;> simp [Fault.OfHead, Segment.bare]

theorem ofHead_malformed_iff {inner : List Char} (h : ∀ name : String, '{' :: inner ≠ (Segment.parameter name).bare) :
    fault.OfHead bound raw ('{' :: inner) ↔ fault = .malformedParameter (.ofList raw) := by
  cases fault <;> simp [Fault.OfHead, h]

theorem ofHead_parameter_iff {name : String} :
    fault.OfHead bound raw (Segment.parameter name).bare ↔
      if (Segment.parameter name).WellFormed then name ∈ bound ∧ fault = .duplicateParameterName name
      else fault = .invalidParameterName name := by
  have hbrace : (Segment.parameter name).bare.head? = some '{' := rfl
  have hne : (Segment.parameter name).bare ≠ [] := List.cons_ne_nil _ _
  by_cases hwf : (Segment.parameter name).WellFormed
  · cases fault with
    | duplicateParameterName name' =>
      simp only [Fault.OfHead, bare_parameter_inj, hwf, if_true, Fault.duplicateParameterName.injEq]
      constructor
      · rintro ⟨rfl, -, hmem⟩
        exact ⟨hmem, rfl⟩
      · rintro ⟨hmem, rfl⟩
        exact ⟨rfl, hwf, hmem⟩
    | invalidParameterName name' =>
      simp only [Fault.OfHead, bare_parameter_inj, hwf, if_true, reduceCtorEq, and_false, iff_false]
      rintro ⟨rfl, hinvalid⟩
      exact hinvalid hwf
    | _ => simp [Fault.OfHead, hwf, hbrace, hne, bare_parameter_inj]
  · cases fault with
    | duplicateParameterName name' =>
      simp only [Fault.OfHead, bare_parameter_inj, hwf, if_false, reduceCtorEq, iff_false]
      rintro ⟨rfl, hvalid, -⟩
      exact hwf hvalid
    | invalidParameterName name' =>
      simp only [Fault.OfHead, bare_parameter_inj, hwf, if_false, Fault.invalidParameterName.injEq]
      constructor
      · rintro ⟨rfl, -⟩
        rfl
      · rintro rfl
        exact ⟨rfl, hwf⟩
    | _ => simp [Fault.OfHead, hwf, hbrace, hne, bare_parameter_inj]

theorem ofHead_literal_iff {head : List Char} (hne : head ≠ []) (h : head.head? ≠ some '{') :
    fault.OfHead bound raw head ↔
      ∃ c, head.find? isReserved = some c ∧ fault = .reservedCharacter (.ofList raw) c := by
  have hname : ∀ name : String, head ≠ (Segment.parameter name).bare := by
    rintro name rfl
    exact h rfl
  cases fault with
  | reservedCharacter segment character => simpa [Fault.OfHead, h] using and_comm
  | _ => simp [Fault.OfHead, h, hne, hname]

/-- Reading the text of a segment and binding its name fails with the fault that describes the text. -/
theorem readHead_bindName_eq_error_iff {head : List Char} :
    (readHead raw head >>= bindName bound) = .error fault ↔ fault.OfHead bound raw head := by
  rw [bind_eq_error_iff]
  rcases head with _ | ⟨c, cs⟩
  · simp [readHead, ofHead_nil_iff, eq_comm]
  · by_cases hc : c = '{'
    · subst hc
      by_cases hname : ∃ name : String, '{' :: cs = (Segment.parameter name).bare
      · obtain ⟨name, hname⟩ := hname
        rw [hname, readHead_parameter, ofHead_parameter_iff]
        split
        · simp [bindName_eq_error_iff]
        · simp [eq_comm]
      · have hmalformed := not_exists.1 hname
        rw [readHead_of_malformed hmalformed, ofHead_malformed_iff hmalformed]
        simp [eq_comm]
    · have hne : c :: cs ≠ [] := List.cons_ne_nil _ _
      have hbrace : (c :: cs).head? ≠ some '{' := by simpa using hc
      -- a literal binds no name
      rw [readHead_of_not_brace hne hbrace, ofHead_literal_iff hne hbrace, map_eq_error_iff, readLiteral_eq_error_iff]
      simp only [map_eq_ok_iff, bindName_eq_error_iff, or_iff_left_iff_imp]
      rintro ⟨s, ⟨t, -, rfl⟩, name, hname, -⟩
      cases hname

end Head

/-! ### The custom method -/

section Method

variable {raw method : List Char} {fault : Fault}

theorem any_brace_iff : (method.any fun c => c == '{' || c == '}') = true ↔ HasBrace method := by
  simp [HasBrace, and_or_left, exists_or]

theorem not_hasBrace_of_methodInOrder (h : MethodInOrder method) : ¬ HasBrace method := by
  rintro (hb | hb)
  · exact absurd (h.2 _ hb) (by decide)
  · exact absurd (h.2 _ hb) (by decide)

/-- The text that a scan of a custom method leaves has the same reserved characters. -/
theorem find?_isReserved_of_cut {text : List Char} (h : Cut method text none) :
    ¬ HasColon method ∧ text.find? isReserved = method.find? isReserved := by
  cases h with
  | whole hnone => exact ⟨hnone, find?_unescapeColons (by decide) (by decide) method⟩

theorem hasColon_of_cut {text rest : List Char} (h : Cut method text (some rest)) : HasColon method := by
  cases h with
  | atColon hraw hlast _ => exact ⟨_, rest, hraw, hlast⟩

/-- Reading a custom method fails with the fault that describes it. -/
theorem readCustomMethod_eq_error_iff : readCustomMethod raw method = .error fault ↔ fault.OfMethod raw method := by
  unfold readCustomMethod
  by_cases hbrace : HasBrace method
  · rw [if_pos (any_brace_iff.2 hbrace)]
    cases fault <;> simp [Fault.OfMethod, hbrace, eq_comm]
  · rw [if_neg fun h => hbrace (any_brace_iff.1 h)]
    obtain ⟨text, _ | rest, hcut⟩ := exists_cut method
    · obtain ⟨hcolon, hreserved⟩ := find?_isReserved_of_cut hcut
      rw [show cutAtColon method = (text, []) from cut_iff.1 hcut]
      show (readLiteral raw text).map _ = _ ↔ _
      rw [map_eq_error_iff, readLiteral_eq_error_iff, hreserved]
      cases fault with
      | reservedCharacter segment character => simpa [Fault.OfMethod, hbrace, hcolon] using and_comm
      | _ => simp [Fault.OfMethod, hbrace, hcolon]
    · have hcolon := hasColon_of_cut hcut
      rw [show cutAtColon method = (text, ':' :: rest) from cut_iff.1 hcut]
      cases fault <;> simp [Fault.OfMethod, hbrace, hcolon, eq_comm]

/-- Reading a custom method succeeds when it is in order. -/
theorem exists_readCustomMethod_eq_ok_iff : (∃ c, readCustomMethod raw method = .ok c) ↔ MethodInOrder method := by
  unfold readCustomMethod
  by_cases hbrace : HasBrace method
  · rw [if_pos (any_brace_iff.2 hbrace)]
    simpa using fun h => not_hasBrace_of_methodInOrder h hbrace
  · rw [if_neg fun h => hbrace (any_brace_iff.1 h)]
    obtain ⟨text, _ | rest, hcut⟩ := exists_cut method
    · obtain ⟨hcolon, hreserved⟩ := find?_isReserved_of_cut hcut
      rw [show cutAtColon method = (text, []) from cut_iff.1 hcut]
      show (∃ c, (readLiteral raw text).map _ = .ok c) ↔ _
      rw [MethodInOrder, and_iff_right hcolon, ← find?_isReserved_eq_none_iff, ← hreserved,
        find?_isReserved_eq_none_iff]
      simp only [map_eq_ok_iff, readLiteral_eq_ok_iff]
      constructor
      · rintro ⟨_, _, ⟨-, h⟩, -⟩
        exact h
      · exact fun h => ⟨_, _, ⟨rfl, h⟩, rfl⟩
    · have hcolon := hasColon_of_cut hcut
      rw [show cutAtColon method = (text, ':' :: rest) from cut_iff.1 hcut]
      simp [MethodInOrder, hcolon]

end Method

/-! ## Components -/

section Component

variable {bound : List String} {raw head : List Char} {method? : Option (List Char)} {fault : Fault}

theorem readInner_of_cut (h : Cut raw head method?) :
    readInner raw = if method? = none then readHead raw head else .error (.customMethodNotLast (.ofList raw)) := by
  have hscan := cut_iff.1 h
  cases method? with
  | none => rw [readInner, show cutAtColon raw = (head, []) from hscan]; rfl
  | some method => rw [readInner, show cutAtColon raw = (head, ':' :: method) from hscan]; rfl

theorem readLast_of_cut_none (h : Cut raw head none) : readLast raw = (readHead raw head).map (·, none) := by
  rw [readLast, show cutAtColon raw = (head, []) from cut_iff.1 h]

theorem readLast_of_cut_some {method : List Char} (h : Cut raw head (some method)) :
    readLast raw = readCustomMethod raw method >>= fun custom =>
      readHead raw head >>= fun segment => .ok (segment, some custom) := by
  rw [readLast, show cutAtColon raw = (head, ':' :: method) from cut_iff.1 h]

/-- A component that others follow fails with the fault that describes it. -/
theorem readInner_bindName_eq_error_iff (h : Cut raw head method?) {isLast : Prop} (hlast : ¬ isLast) :
    (readInner raw >>= bindName bound) = .error fault ↔ fault.Describes isLast bound raw head method? := by
  rw [readInner_of_cut h]
  cases method? with
  | none => exact readHead_bindName_eq_error_iff
  | some method => simp [bind, Except.bind, Fault.Describes, hlast, eq_comm]

/-- The last component fails with the fault that describes it. -/
theorem readLast_bindName_eq_error_iff (h : Cut raw head method?) {isLast : Prop} (hlast : isLast) :
    (readLast raw >>= fun read => bindName bound read.1) = .error fault ↔
      fault.Describes isLast bound raw head method? := by
  cases method? with
  | none =>
    have hbind : (readLast raw >>= fun read => bindName bound read.1) = readHead raw head >>= bindName bound := by
      rw [readLast_of_cut_none h]
      cases readHead raw head <;> rfl
    rw [hbind]
    exact readHead_bindName_eq_error_iff
  | some method =>
    have hbind : (readLast raw >>= fun read => bindName bound read.1) =
        readCustomMethod raw method >>= fun _ => readHead raw head >>= bindName bound := by
      rw [readLast_of_cut_some h]
      cases readCustomMethod raw method with
      | error e => rfl
      | ok custom => cases readHead raw head <;> rfl
    rw [hbind, bind_eq_error_iff, readCustomMethod_eq_error_iff, exists_and_right, exists_readCustomMethod_eq_ok_iff,
      readHead_bindName_eq_error_iff]
    simp [Fault.Describes, hlast]

end Component

/-! ## Lists of components -/

theorem fits_cons_none_iff {bound : List String} {s : Segment} {rest : List Segment} :
    Fits bound (s :: rest) none ↔
      s.WellFormed ∧ (∀ name ∈ s.name?, name ∉ bound) ∧ Fits (s.name?.toList ++ bound) rest none := by
  cases rest with
  | nil => simp [fits_singleton_iff, fits_nil_iff]
  | cons s' rest => exact fits_cons_iff (List.cons_ne_nil _ _)

theorem mem_names_cons_iff {bound : List String} {s : Segment} {rest : List Segment} (name : String) :
    name ∈ rest.filterMap Segment.name? ++ (s.name?.toList ++ bound) ↔
      name ∈ (s :: rest).filterMap Segment.name? ++ bound := by
  cases hs : s.name? with
  | none => simp [hs]
  | some n => simp [hs, or_left_comm]

/-- The inner components are read and the names of their parameters bound. -/
theorem readInner_bindName_eq_ok_iff {raw : List Char} (hslash : '/' ∉ raw) {bound bound' : List String} :
    (readInner raw >>= bindName bound) = .ok bound' ↔
      ∃ s : Segment, s.WellFormed ∧ raw = renderSegment s ∧ (∀ name ∈ s.name?, name ∉ bound) ∧
        bound' = s.name?.toList ++ bound := by
  simp only [bind_eq_ok_iff, readInner_eq_ok_iff hslash, bindName_eq_ok_iff, and_assoc]

/-- Reading components in front of others fails where one of them does, or later on. -/
theorem readSegments_cons_eq_error_iff {bound : List String} {raw : List Char} {rest : List (List Char)}
    (hrest : rest ≠ []) {fault : Fault} :
    readSegments bound (raw :: rest) = .error fault ↔
      (readInner raw >>= bindName bound) = .error fault ∨
        ∃ bound', (readInner raw >>= bindName bound) = .ok bound' ∧ readSegments bound' rest = .error fault := by
  obtain ⟨raw', rest, rfl⟩ := List.exists_cons_of_ne_nil hrest
  simp only [readSegments]
  cases readInner raw with
  | error e => simp [bind, Except.bind]
  | ok s =>
    cases hbind : bindName bound s with
    | error e => simp [bind, Except.bind, hbind]
    | ok bound' =>
      cases hread : readSegments bound' (raw' :: rest) with
      | error e => simp [bind, Except.bind, hbind, hread]
      | ok read => simp [bind, Except.bind, hbind, hread]

theorem readSegments_singleton_eq_error_iff {bound : List String} {raw : List Char} {fault : Fault} :
    readSegments bound [raw] = .error fault ↔ (readLast raw >>= fun read => bindName bound read.1) = .error fault := by
  simp only [readSegments]
  cases readLast raw with
  | error e => simp [bind, Except.bind]
  | ok read => cases hbind : bindName bound read.1 <;> simp [bind, Except.bind, hbind]

/-! ## The first fault -/

/-- Whether a fault is the one to report of components that come after segments with the names `bound`: it
describes one of them, and those before it can be read. -/
def Fault.IsFirst (bound : List String) (raws : List (List Char)) (fault : Fault) : Prop :=
  ∃ segments raw back head method?, raws = segments.map renderSegment ++ raw :: back ∧ Fits bound segments none ∧
    Cut raw head method? ∧
      fault.Describes (back = []) (segments.filterMap Segment.name? ++ bound) raw head method?

/-- The fault to report of the components is that of the first one, or that of the others where the first one
can be read. -/
theorem isFirst_cons_iff {bound : List String} {raw head : List Char} {method? : Option (List Char)}
    (hcut : Cut raw head method?) {rest : List (List Char)} {fault : Fault} :
    fault.IsFirst bound (raw :: rest) ↔
      fault.Describes (rest = []) bound raw head method? ∨
        ∃ s : Segment, s.WellFormed ∧ raw = renderSegment s ∧ (∀ name ∈ s.name?, name ∉ bound) ∧
          fault.IsFirst (s.name?.toList ++ bound) rest := by
  constructor
  · rintro ⟨_ | ⟨s, segments⟩, raw', back, head', method?', hraws, hfits, hcut', hfault⟩
    · obtain ⟨rfl, rfl⟩ := List.cons.inj hraws
      obtain ⟨rfl, rfl⟩ := cut_unique hcut hcut'
      exact .inl hfault
    · obtain ⟨rfl, rfl⟩ := List.cons.inj hraws
      obtain ⟨hs, hfresh, hfits⟩ := fits_cons_none_iff.1 hfits
      rw [← Fault.describes_congr mem_names_cons_iff] at hfault
      exact .inr ⟨s, hs, rfl, hfresh, segments, raw', back, head', method?', rfl, hfits, hcut', hfault⟩
  · rintro (hfault | ⟨s, hs, rfl, hfresh, segments, raw', back, head', method?', rfl, hfits, hcut', hfault⟩)
    · exact ⟨[], raw, rest, head, method?, rfl, fits_nil_iff.2 rfl, hcut, hfault⟩
    · rw [Fault.describes_congr mem_names_cons_iff] at hfault
      exact ⟨s :: segments, raw', back, head', method?', rfl, fits_cons_none_iff.2 ⟨hs, hfresh, hfits⟩, hcut', hfault⟩

theorem not_isFirst_nil {bound : List String} {fault : Fault} : ¬ fault.IsFirst bound [] := by
  rintro ⟨segments, raw, back, _, _, hraws, -⟩
  exact List.append_ne_nil_of_right_ne_nil _ (List.cons_ne_nil raw back) hraws.symm

/-- Reading components fails with the fault to report of them. -/
theorem readSegments_eq_error_iff {fault : Fault} :
    ∀ {raws : List (List Char)} {bound : List String}, (∀ raw ∈ raws, '/' ∉ raw) →
      (readSegments bound raws = .error fault ↔ fault.IsFirst bound raws)
  | [], bound, _ => by simp [readSegments, not_isFirst_nil]
  | [raw], bound, _ => by
    obtain ⟨head, method?, hcut⟩ := exists_cut raw
    have hlast : ([] : List (List Char)) = [] := rfl
    rw [readSegments_singleton_eq_error_iff, isFirst_cons_iff hcut, readLast_bindName_eq_error_iff hcut hlast]
    simp [not_isFirst_nil]
  | raw :: raw' :: raws, bound, hslash => by
    obtain ⟨head, method?, hcut⟩ := exists_cut raw
    rw [List.forall_mem_cons] at hslash
    have hne : raw' :: raws ≠ [] := List.cons_ne_nil _ _
    rw [readSegments_cons_eq_error_iff hne, isFirst_cons_iff hcut, readInner_bindName_eq_error_iff hcut hne]
    refine or_congr_right ?_
    simp only [readInner_bindName_eq_ok_iff hslash.1, readSegments_eq_error_iff hslash.2]
    constructor
    · rintro ⟨_, ⟨s, hs, hraw, hfresh, rfl⟩, hfault⟩
      exact ⟨s, hs, hraw, hfresh, hfault⟩
    · rintro ⟨s, hs, hraw, hfresh, hfault⟩
      exact ⟨_, ⟨s, hs, hraw, hfresh, rfl⟩, hfault⟩

/-! ## Patterns -/

theorem parse_eq_error_iff {text : String} {fault : Fault} :
    parse text = .error fault ↔ fault.IsFirst [] (components text.toList) := by
  rw [← readSegments_eq_error_iff fun raw h => not_mem_of_mem_components h]
  unfold parse
  rw [bind_eq_error_iff]
  simp

theorem renderComponents_none : ∀ segments : List Segment, renderComponents segments none = segments.map renderSegment
  | [] => rfl
  | [s] => by simp [renderComponents, renderCustomMethod]
  | s :: s' :: rest => by
    rw [renderComponents_cons s (List.cons_ne_nil _ _), renderComponents_none (s' :: rest)]
    rfl

/-- Components, none of them empty, are joined to a pattern without a custom method exactly when they are the
written forms of segments that fit. -/
theorem exists_parse_joined_iff {raws : List (List Char)} (hslash : ∀ raw ∈ raws, '/' ∉ raw) {segments : List Segment} :
    ([] ∉ raws ∧ ∃ q, parse (.ofList (joined raws)) = .ok q ∧ q.customMethod = none ∧ q.segments = segments) ↔
      Fits [] segments none ∧ raws = segments.map renderSegment := by
  constructor
  · rintro ⟨hne, q, hq, hnone, rfl⟩
    obtain ⟨-, hwf, hraws⟩ := parse_eq_ok_iff_components.1 hq
    rw [String.toList_ofList, components_joined fun raw h => ⟨fun e => hne (e ▸ h), hslash raw h⟩, hnone,
      renderComponents_none] at hraws
    exact ⟨⟨hnone ▸ hwf, by simp⟩, hraws⟩
  · rintro ⟨⟨hwf, -⟩, rfl⟩
    have hne : ∀ raw ∈ segments.map renderSegment, raw ≠ [] := by
      rw [List.forall_mem_map]
      exact fun s hs => renderSegment_ne_nil (hwf.segment s hs)
    refine ⟨fun h => hne [] h rfl, ⟨_, segments, none⟩, parse_eq_ok_iff_components.2 ⟨rfl, hwf, ?_⟩, rfl, rfl⟩
    rw [String.toList_ofList, components_joined fun raw h => ⟨hne raw h, hslash raw h⟩, renderComponents_none]

/-- Only one fault is to be reported of the components of a text. -/
theorem isFirst_unique {raws : List (List Char)} (hslash : ∀ raw ∈ raws, '/' ∉ raw) {bound : List String}
    {fault fault' : Fault} (h : fault.IsFirst bound raws) (h' : fault'.IsFirst bound raws) : fault' = fault :=
  Except.error.inj (((readSegments_eq_error_iff hslash).2 h').symm.trans ((readSegments_eq_error_iff hslash).2 h))

/-- The fault to report of components describes one of them, and those before it, none of them empty, are joined
to a pattern. -/
theorem isFirst_iff_exists_parse_take {raws : List (List Char)} (hslash : ∀ raw ∈ raws, '/' ∉ raw) {fault : Fault} :
    fault.IsFirst [] raws ↔
      ∃ (i : Nat) (raw head : List Char) (method? : Option (List Char)) (q : Pattern),
        raws[i]? = some raw ∧ Cut raw head method? ∧ [] ∉ raws.take i ∧
          parse (.ofList (joined (raws.take i))) = .ok q ∧ q.customMethod = none ∧
            fault.Describes (i + 1 = raws.length) q.parameterNames raw head method? := by
  have hparse : ∀ i segments, _ ↔ _ := fun i segments =>
    @exists_parse_joined_iff (raws.take i) (fun raw h => hslash raw (List.mem_of_mem_take h)) segments
  constructor
  · rintro ⟨segments, raw, back, head, method?, rfl, hfits, hcut, hfault⟩
    obtain ⟨hne, q, hq, hnone, rfl⟩ := (hparse segments.length segments).2 ⟨hfits, by simp⟩
    refine ⟨q.segments.length, raw, head, method?, q, by simp, hcut, hne, hq, hnone, ?_⟩
    rw [List.append_nil] at hfault
    simpa [parameterNames] using hfault
  · rintro ⟨i, raw, head, method?, q, hraw, hcut, hne, hq, hnone, hfault⟩
    obtain ⟨hfits, htake⟩ := (hparse i q.segments).1 ⟨hne, q, hq, hnone, rfl⟩
    obtain ⟨hi, rfl⟩ := List.getElem?_eq_some_iff.1 hraw
    have hlast : (i + 1 = raws.length) = (raws.drop (i + 1) = []) := by
      rw [List.drop_eq_nil_iff, eq_iff_iff]
      omega
    refine ⟨q.segments, raws[i], raws.drop (i + 1), head, method?, ?_, hfits, hcut, ?_⟩
    · rw [← htake, List.getElem_cons_drop, List.take_append_drop]
    · rwa [List.append_nil, ← hlast]

theorem ofString_eq_error_iff {text : String} {rejection : Rejection} :
    (ofString text).value = .error rejection ↔
      ∃ fault, rejection = .invalidPattern text fault ∧ parse text = .error fault := by
  show (parse text).mapError (Rejection.invalidPattern text) = _ ↔ _
  cases parse text with
  | error fault =>
    show Except.error (Rejection.invalidPattern text fault) = _ ↔ _
    simp [eq_comm]
  | ok p =>
    show Except.ok p = _ ↔ _
    simp

/-- A text that is no pattern is turned away as it was supplied, with a fault of one of its components. Those
before it are not empty and make a pattern without a custom method of their own, and the fault is the only one
that describes the component after the names they bind. -/
theorem ofString_eq_error_iff_describes (text : String) (rejection : Rejection) :
    (ofString text).value = .error rejection ↔
      ∃ fault, rejection = .invalidPattern text fault ∧
        ∃ (i : Nat) (raw head : List Char) (method? : Option (List Char)) (q : Pattern),
          (components text.toList)[i]? = some raw ∧ Cut raw head method? ∧
            [] ∉ (components text.toList).take i ∧
              parse (.ofList (joined ((components text.toList).take i))) = .ok q ∧ q.customMethod = none ∧
                ∀ fault' : Fault, fault' = fault ↔
                  fault'.Describes (i + 1 = (components text.toList).length) q.parameterNames raw head method? := by
  have hslash : ∀ raw ∈ components text.toList, '/' ∉ raw := fun raw h => not_mem_of_mem_components h
  have hfirst : ∀ fault : Fault, fault.IsFirst [] (components text.toList) ↔ _ := fun fault =>
    isFirst_iff_exists_parse_take hslash
  rw [ofString_eq_error_iff]
  refine exists_congr fun fault => and_congr_right fun _ => ?_
  rw [parse_eq_error_iff, hfirst]
  constructor
  · rintro ⟨i, raw, head, method?, q, hraw, hcut, hne, hq, hnone, hfault⟩
    refine ⟨i, raw, head, method?, q, hraw, hcut, hne, hq, hnone, fun fault' => ⟨?_, fun hfault' => ?_⟩⟩
    · rintro rfl
      exact hfault
    · exact isFirst_unique hslash ((hfirst fault).2 ⟨i, raw, head, method?, q, hraw, hcut, hne, hq, hnone, hfault⟩)
        ((hfirst fault').2 ⟨i, raw, head, method?, q, hraw, hcut, hne, hq, hnone, hfault'⟩)
  · rintro ⟨i, raw, head, method?, q, hraw, hcut, hne, hq, hnone, hfault⟩
    exact ⟨i, raw, head, method?, q, hraw, hcut, hne, hq, hnone, (hfault fault).1 rfl⟩

example : parse "/{a}/b:{c}/d?" = .error (.customMethodNotLast "b:{c}") := by rfl

example : parse "/{a}/{a}:b:?" = .error (.multipleCustomMethods "{a}:b:?") := by rfl

end PathRouter.Pattern
