/-
The ways in which a path can be read as a route, with no tree at hand. A way is a path of steps, a
custom method or none, and the values bound; `ways` lists all ways of a path. They are listed in the
order of their rank, which compares position by position, so the recursive search, which takes the
first way that ends in a terminal, takes the way of least rank.
-/
import PathRouter.Proofs.Node.Entries
import PathRouter.Search.Recursive

namespace PathRouter

/-- One way to read the segments of a path as a route. -/
structure Way where
  steps : List Step
  customMethod : Option String
  values : List String

/-- Steps that the segments of a path can be taken for, and the values bound on the way. -/
inductive Binds : List Step → List String → List String → Prop
  | nil : Binds [] [] []
  | literal {steps : List Step} {segments values : List String} (text : String) :
      Binds steps segments values → Binds (.literal text :: steps) (text :: segments) values
  | parameter {steps : List Step} {segments values : List String} {value : String} :
      value ≠ "" → Binds steps segments values →
        Binds (.parameter :: steps) (value :: segments) (value :: values)

/-- Whether a path reads as steps that a custom method may follow: without one the steps take all of
the segments, with one they take what stands before it in the final segment. -/
def Reads (steps : List Step) (segments values : List String) : Option String → Prop
  | none => Binds steps segments values
  | some custom =>
    ∃ front last, segments = front ++ [last ++ custom] ∧ Binds steps (front ++ [last]) values

namespace Way

/-- The way that an ending is, where one segment is left. -/
def ofEnding (e : Ending) : Way := ⟨[e.step], e.customMethod, e.binding.toList⟩

/-- A way after the step to a literal child. -/
def afterLiteral (segment : String) (w : Way) : Way := { w with steps := .literal segment :: w.steps }

/-- A way after the step to the child of the parameters. -/
def afterParameter (segment : String) (w : Way) : Way :=
  { w with steps := .parameter :: w.steps, values := segment :: w.values }

end Way

/-- All ways to read a path, the most specific first. -/
def ways (customMethodAllowed : Bool) : List String → List Way
  | [] => [⟨[], none, []⟩]
  | [segment] => (endings customMethodAllowed segment).map .ofEnding
  | segment :: following :: rest =>
    let later := ways customMethodAllowed (following :: rest)
    later.map (.afterLiteral segment) ++ if segment = "" then [] else later.map (.afterParameter segment)

/-- What a way leads to from a node. -/
def Way.arrival? {φ : Phase} {α : Type} (m : Method) (n : Node φ α) (w : Way) : Option (Arrival α) :=
  (n.at? w.steps ⟨w.customMethod, m⟩).map (⟨·, w.values⟩)

/-! ## The search takes the first way -/

section Search

variable {α : Type}

theorem Way.arrival?_ofEnding (m : Method) (n : Node .final α) (e : Ending) :
    (Way.ofEnding e).arrival? m n = (e.terminal? n m).map (⟨·, e.binding.toList⟩) := by
  simp only [Way.arrival?, Way.ofEnding, Node.at?_cons, Ending.terminal?]
  rfl

theorem Way.arrival?_afterLiteral (m : Method) (n : Node .final α) (segment : String) (w : Way) :
    (w.afterLiteral segment).arrival? m n = (n.child? (.literal segment)).bind (w.arrival? m ·) := by
  simp only [Way.arrival?, Way.afterLiteral, Node.at?_cons]
  rw [Option.map_bind]
  rfl

theorem Way.arrival?_afterParameter (m : Method) (n : Node .final α) (segment : String) (w : Way) :
    (w.afterParameter segment).arrival? m n =
      ((n.child? .parameter).bind (w.arrival? m ·)).map (.bind segment) := by
  simp only [Way.arrival?, Way.afterParameter, Node.at?_cons, Option.map_bind]
  congr 1
  funext c
  simp [Arrival.bind, Function.comp_def]

/-- Looking below a child that may be missing finds nothing when it is. -/
theorem findSome?_bind {β γ δ : Type} (o : Option β) (f : β → γ → Option δ) (l : List γ) :
    l.findSome? (fun w => o.bind (f · w)) = o.bind fun c => l.findSome? (f c) := by
  cases o with
  | none => simp
  | some c => rfl

/-- The recursive search finds what the first way with a terminal leads to. -/
theorem find?_eq_findSome?_ways (target : Target) :
    ∀ (segments : List String) (n : Node .final α),
      n.find? target segments =
        (ways target.customMethodAllowed segments).findSome? (Way.arrival? target.method n)
  | [], n => by simp [ways, Node.find?, Way.arrival?, Slot.plain]
  | [segment], n => by
    rw [ways, List.findSome?_map, Node.find?, Node.finish?, List.map_findSome?]
    congr 1
    funext e
    rw [Function.comp_apply, Function.comp_apply, Way.arrival?_ofEnding, Option.map_map]
    rfl
  | segment :: following :: rest, n => by
    have ih := find?_eq_findSome?_ways target (following :: rest)
    have hlit : ((ways target.customMethodAllowed (following :: rest)).map (.afterLiteral segment)).findSome?
        (Way.arrival? target.method n) =
          (n.child? (.literal segment)).bind (Node.find? target (following :: rest)) := by
      rw [List.findSome?_map, show Node.find? target (following :: rest) = _ from funext ih,
        ← findSome?_bind]
      congr 1
      funext w
      exact Way.arrival?_afterLiteral ..
    have hpar : ((ways target.customMethodAllowed (following :: rest)).map (.afterParameter segment)).findSome?
        (Way.arrival? target.method n) =
          ((n.child? .parameter).bind (Node.find? target (following :: rest))).map (.bind segment) := by
      rw [List.findSome?_map, show Node.find? target (following :: rest) = _ from funext ih,
        ← findSome?_bind, List.map_findSome?]
      congr 1
      funext w
      exact Way.arrival?_afterParameter ..
    -- below a parameter the search goes on only when nothing was found below the literal
    rw [ways, Node.find?, List.findSome?_append, hlit]
    cases (n.child? (.literal segment)).bind (Node.find? target (following :: rest)) with
    | some a => rfl
    | none =>
      by_cases hs : segment = ""
      · simp [hs]
      · simp [hs, hpar]

/-- The machine finds what the recursion finds. -/
theorem value_search? (target : Target) (root : Node .final α) (segments : List String) :
    (root.search? target segments).value = root.find? target segments := by
  cases segments with
  | nil => rfl
  | cons segment rest =>
    obtain ⟨b, trail, -, -, hrun⟩ :=
      Search.leadsTo_fresh rest segment root [] [] 0 [] (Nat.le_refl 0)
    show (Search.run target ⟨[.fresh root segment rest 0], [], []⟩).value = _
    rw [hrun]
    cases root.find? target (segment :: rest) with
    | some a => rfl
    | none =>
      have hdone : Search.turn target (⟨[], b, trail⟩ : Search.State α) = .done none trail := rfl
      show (Search.run target ⟨[], b, trail⟩).value = none
      rw [Search.run_of_done hdone]

end Search

/-! ## What the ways are -/

theorem eq_nil_or_concat {β : Type} (l : List β) : l = [] ∨ ∃ front last, l = front ++ [last] := by
  rcases List.eq_nil_or_concat l with h | ⟨front, last, h⟩
  · exact .inl h
  · exact .inr ⟨front, last, h.trans List.concat_eq_append⟩

theorem binds_nil_iff {steps : List Step} {values : List String} :
    Binds steps [] values ↔ steps = [] ∧ values = [] := by
  constructor
  · rintro ⟨⟩
    exact ⟨rfl, rfl⟩
  · rintro ⟨rfl, rfl⟩
    exact .nil

theorem binds_cons_iff {steps : List Step} {segment : String} {segments values : List String} :
    Binds steps (segment :: segments) values ↔
      (∃ later, steps = .literal segment :: later ∧ Binds later segments values) ∨
        segment ≠ "" ∧ ∃ later bound, steps = .parameter :: later ∧ values = segment :: bound ∧
          Binds later segments bound := by
  constructor
  · rintro (_ | ⟨_, h⟩ | ⟨hne, h⟩)
    · exact .inl ⟨_, rfl, h⟩
    · exact .inr ⟨hne, _, _, rfl, rfl, h⟩
  · rintro (⟨later, rfl, h⟩ | ⟨hne, later, bound, rfl, rfl, h⟩)
    · exact .literal _ h
    · exact .parameter hne h

theorem binds_singleton_iff {steps : List Step} {segment : String} {values : List String} :
    Binds steps [segment] values ↔
      steps = [.literal segment] ∧ values = [] ∨
        segment ≠ "" ∧ steps = [.parameter] ∧ values = [segment] := by
  simp only [binds_cons_iff, binds_nil_iff]
  constructor
  · rintro (⟨_, rfl, rfl, rfl⟩ | ⟨hne, _, _, rfl, rfl, rfl, rfl⟩)
    · exact .inl ⟨rfl, rfl⟩
    · exact .inr ⟨hne, rfl, rfl⟩
  · rintro (⟨rfl, rfl⟩ | ⟨hne, rfl, rfl⟩)
    · exact .inl ⟨[], rfl, rfl, rfl⟩
    · exact .inr ⟨hne, [], [], rfl, rfl, rfl, rfl⟩

/-- Steps are taken one after another. -/
theorem binds_concat_iff {front : List Step} {s : Step} {segments values : List String} :
    Binds (front ++ [s]) segments values ↔
      ∃ before last bound more, segments = before ++ [last] ∧ values = bound ++ more ∧
        Binds front before bound ∧ Binds [s] [last] more := by
  constructor
  · intro h
    induction front generalizing segments values with
    | nil =>
      obtain ⟨last, rfl⟩ : ∃ last, segments = [last] := by
        rcases h with _ | ⟨text, h⟩ | ⟨_, h⟩
        · cases h
          exact ⟨text, rfl⟩
        · cases h
          exact ⟨_, rfl⟩
      exact ⟨[], last, [], values, rfl, rfl, .nil, h⟩
    | cons r front ih =>
      rcases h with _ | ⟨text, h⟩ | ⟨hne, h⟩
      · obtain ⟨before, last, bound, more, rfl, rfl, hfront, hlast⟩ := ih h
        exact ⟨text :: before, last, bound, more, rfl, rfl, .literal text hfront, hlast⟩
      · obtain ⟨before, last, bound, more, rfl, rfl, hfront, hlast⟩ := ih h
        exact ⟨_ :: before, last, _ :: bound, more, rfl, rfl, .parameter hne hfront, hlast⟩
  · rintro ⟨before, last, bound, more, rfl, rfl, hfront, hlast⟩
    induction hfront with
    | nil => exact hlast
    | literal text _ ih => exact .literal text ih
    | parameter hne _ ih => exact .parameter hne ih

theorem reads_nil_iff {steps : List Step} {values : List String} {custom : Option String} :
    Reads steps [] values custom ↔ steps = [] ∧ values = [] ∧ custom = none := by
  cases custom with
  | none => simp [Reads, binds_nil_iff]
  | some c => simp [Reads]

/-- Where segments are left, a way takes the first one for a literal or binds it, and reads on. -/
theorem reads_cons_cons_iff {steps : List Step} {segment following : String} {rest values : List String}
    {custom : Option String} :
    Reads steps (segment :: following :: rest) values custom ↔
      (∃ later, steps = .literal segment :: later ∧ Reads later (following :: rest) values custom) ∨
        segment ≠ "" ∧ ∃ later bound, steps = .parameter :: later ∧ values = segment :: bound ∧
          Reads later (following :: rest) bound custom := by
  cases custom with
  | none => exact binds_cons_iff
  | some c =>
    simp only [Reads]
    constructor
    · rintro ⟨front, last, hsplit, hbinds⟩
      -- two segments are left, so the one with the custom method is not the first
      obtain ⟨front, rfl⟩ : ∃ front', front = segment :: front' := by
        cases front with
        | nil => simp at hsplit
        | cons x front => exact ⟨front, by rw [(List.cons.inj hsplit).1]⟩
      have hrest := (List.cons.inj hsplit).2
      rcases binds_cons_iff.1 hbinds with ⟨later, rfl, h⟩ | ⟨hne, later, bound, rfl, rfl, h⟩
      · exact .inl ⟨later, rfl, front, last, hrest, h⟩
      · exact .inr ⟨hne, later, bound, rfl, rfl, front, last, hrest, h⟩
    · rintro (⟨later, rfl, front, last, hsplit, h⟩ | ⟨hne, later, bound, rfl, rfl, front, last, hsplit, h⟩)
      · exact ⟨segment :: front, last, by rw [hsplit]; rfl, .literal _ h⟩
      · exact ⟨segment :: front, last, by rw [hsplit]; rfl, .parameter hne h⟩

/-- The values bound are what the steps leave of the segments. -/
theorem Binds.values_unique {steps : List Step} {segments values others : List String}
    (h : Binds steps segments values) (h' : Binds steps segments others) : values = others := by
  induction h generalizing others with
  | nil => exact (binds_nil_iff.1 h').2.symm
  | literal text _ ih =>
    cases h' with
    | literal _ h' => exact ih h'
  | parameter _ _ ih =>
    cases h' with
    | parameter _ h' => rw [ih h']

theorem Reads.values_unique {steps : List Step} {segments values others : List String}
    {custom : Option String} (h : Reads steps segments values custom)
    (h' : Reads steps segments others custom) : values = others := by
  cases custom with
  | none => exact Binds.values_unique h h'
  | some c =>
    obtain ⟨front, last, rfl, hbinds⟩ := h
    obtain ⟨front', last', hsplit, hbinds'⟩ := h'
    obtain ⟨rfl, hlast⟩ := List.append_inj' hsplit (by rfl)
    cases String.append_left_inj c |>.1 (List.cons.inj hlast).1
    exact hbinds.values_unique hbinds'

/-- A custom method stands after what the last step takes. -/
theorem reads_concat_iff {front : List Step} {s : Step} {segments values : List String}
    {custom : Option String} :
    Reads (front ++ [s]) segments values custom ↔
      ∃ before last bound more, segments = before ++ [last ++ custom.getD ""] ∧ values = bound ++ more ∧
        Binds front before bound ∧ Binds [s] [last] more := by
  cases custom with
  | none => simp only [Reads, binds_concat_iff, Option.getD_none, String.append_empty]
  | some c =>
    simp only [Reads, binds_concat_iff, Option.getD_some]
    constructor
    · rintro ⟨front', last', rfl, before, last, bound, more, hsplit, rfl, hfront, hlast⟩
      obtain ⟨rfl, heq⟩ := List.append_inj' hsplit (by rfl)
      cases heq
      exact ⟨_, _, bound, more, rfl, rfl, hfront, hlast⟩
    · rintro ⟨before, last, bound, more, rfl, rfl, hfront, hlast⟩
      exact ⟨before, last, rfl, before, last, bound, more, rfl, rfl, hfront, hlast⟩

theorem mem_colonSplits_iff {cs : List Char} {split : List Char × List Char} :
    split ∈ colonSplits cs ↔ split.1 ++ split.2 = cs ∧ split.2.head? = some ':' := by
  refine ⟨append_of_mem_colonSplits, ?_⟩
  rintro ⟨rfl, hhead⟩
  obtain ⟨front, back⟩ := split
  obtain ⟨back, rfl⟩ : ∃ back', back = ':' :: back' := by
    cases back with
    | nil => simp at hhead
    | cons c back => exact ⟨back, by rw [Option.some.inj hhead]⟩
  simp only
  induction front with
  | nil => simp [colonSplits]
  | cons c front ih =>
    simp only [List.cons_append, colonSplits]
    have hlater : (c :: front, ':' :: back) ∈
        (colonSplits (front ++ ':' :: back)).map fun split => (c :: split.1, split.2) :=
      List.mem_map.2 ⟨_, ih rfl, rfl⟩
    split
    · exact List.mem_cons_of_mem _ hlater
    · exact hlater

theorem mem_customSplits_iff {allowed : Bool} {segment text custom : String} :
    (text, custom) ∈ customSplits allowed segment ↔
      allowed = true ∧ text ++ custom = segment ∧ custom.toList.head? = some ':' := by
  unfold customSplits
  split
  · next h =>
    simp only [List.mem_map, mem_colonSplits_iff, Prod.mk.injEq, Prod.exists]
    constructor
    · rintro ⟨front, back, ⟨happ, hhead⟩, rfl, rfl⟩
      exact ⟨h, by rw [← String.ofList_append, happ, String.ofList_toList], by simpa using hhead⟩
    · rintro ⟨-, rfl, hhead⟩
      exact ⟨text.toList, custom.toList, ⟨String.toList_append.symm, hhead⟩, String.ofList_toList,
        String.ofList_toList⟩
  · next h => simp [h]

theorem mem_endings_iff {allowed : Bool} {segment : String} {e : Ending} :
    e ∈ endings allowed segment ↔
      e = ⟨.literal segment, none, none⟩ ∨
        (∃ text custom, (text, custom) ∈ customSplits allowed segment ∧
          (e = ⟨.literal text, some custom, none⟩ ∨
            text ≠ "" ∧ e = ⟨.parameter, some custom, some text⟩)) ∨
        segment ≠ "" ∧ e = ⟨.parameter, none, some segment⟩ := by
  have hplain : (e ∈ if segment = "" then [] else [⟨.parameter, none, some segment⟩]) ↔
      segment ≠ "" ∧ e = ⟨.parameter, none, some segment⟩ := by
    split
    · next h => simp [h]
    · next h => simp [h]
  simp only [endings, List.cons_append, List.mem_cons, List.mem_append, hplain, List.mem_map,
    List.mem_filter, Prod.exists, bne_iff_ne]
  constructor
  · rintro (h | (⟨text, custom, hm, rfl⟩ | ⟨text, custom, ⟨hm, hne⟩, rfl⟩) | h)
    · exact .inl h
    · exact .inr (.inl ⟨text, custom, hm, .inl rfl⟩)
    · exact .inr (.inl ⟨text, custom, hm, .inr ⟨hne, rfl⟩⟩)
    · exact .inr (.inr h)
  · rintro (h | ⟨text, custom, hm, rfl | ⟨hne, rfl⟩⟩ | h)
    · exact .inl h
    · exact .inr (.inl (.inl ⟨text, custom, hm, rfl⟩))
    · exact .inr (.inl (.inr ⟨text, custom, ⟨hm, hne⟩, rfl⟩))
    · exact .inr (.inr h)

theorem reads_singleton_iff {steps : List Step} {segment custom : String} {values : List String} :
    Reads steps [segment] values (some custom) ↔
      ∃ text, text ++ custom = segment ∧ Binds steps [text] values := by
  simp only [Reads]
  constructor
  · rintro ⟨front, last, hsplit, h⟩
    obtain ⟨rfl, hlast⟩ := List.append_eq_singleton_iff.1 hsplit.symm |>.resolve_right (by simp)
    exact ⟨last, (List.cons.inj hlast).1, h⟩
  · rintro ⟨text, rfl, h⟩
    exact ⟨[], text, rfl, h⟩

theorem mem_ways_singleton_iff {allowed : Bool} {segment : String} {w : Way} :
    w ∈ ways allowed [segment] ↔
      Reads w.steps [segment] w.values w.customMethod ∧
        ∀ c ∈ w.customMethod, allowed = true ∧ c.toList.head? = some ':' := by
  obtain ⟨steps, custom, values⟩ := w
  simp only [ways, List.mem_map, mem_endings_iff, mem_customSplits_iff]
  cases custom with
  | none =>
    simp only [Reads, binds_singleton_iff]
    constructor
    · rintro ⟨e, rfl | ⟨text, c, -, rfl | ⟨-, rfl⟩⟩ | ⟨hne, rfl⟩, hw⟩
      · cases hw
        exact ⟨.inl ⟨rfl, rfl⟩, by simp⟩
      · cases hw
      · cases hw
      · cases hw
        exact ⟨.inr ⟨hne, rfl, rfl⟩, by simp⟩
    · rintro ⟨⟨rfl, rfl⟩ | ⟨hne, rfl, rfl⟩, -⟩
      · exact ⟨_, .inl rfl, rfl⟩
      · exact ⟨_, .inr (.inr ⟨hne, rfl⟩), rfl⟩
  | some c =>
    simp only [reads_singleton_iff, binds_singleton_iff]
    constructor
    · rintro ⟨e, rfl | ⟨text, c, ⟨hallowed, happ, hhead⟩, rfl | ⟨hne, rfl⟩⟩ | ⟨hne, rfl⟩, hw⟩
      · cases hw
      · cases hw
        exact ⟨⟨text, happ, .inl ⟨rfl, rfl⟩⟩, fun c hc => by cases hc; exact ⟨hallowed, hhead⟩⟩
      · cases hw
        exact ⟨⟨text, happ, .inr ⟨hne, rfl, rfl⟩⟩, fun c hc => by cases hc; exact ⟨hallowed, hhead⟩⟩
      · cases hw
    · rintro ⟨⟨text, happ, ⟨rfl, rfl⟩ | ⟨hne, rfl, rfl⟩⟩, hc⟩
      · obtain ⟨hallowed, hhead⟩ := hc c rfl
        exact ⟨_, .inr (.inl ⟨text, c, ⟨hallowed, happ, hhead⟩, .inl rfl⟩), rfl⟩
      · obtain ⟨hallowed, hhead⟩ := hc c rfl
        exact ⟨_, .inr (.inl ⟨text, c, ⟨hallowed, happ, hhead⟩, .inr ⟨hne, rfl⟩⟩), rfl⟩

/-- The ways of a path are those in which it reads, except that a custom method begins with a colon
and only where it is allowed. -/
theorem mem_ways_iff {allowed : Bool} :
    ∀ {segments : List String} {w : Way},
      w ∈ ways allowed segments ↔
        Reads w.steps segments w.values w.customMethod ∧
          ∀ c ∈ w.customMethod, allowed = true ∧ c.toList.head? = some ':'
  | [], w => by
    obtain ⟨steps, custom, values⟩ := w
    simp only [ways, List.mem_singleton, Way.mk.injEq, reads_nil_iff]
    constructor
    · rintro ⟨rfl, rfl, rfl⟩
      simp
    · rintro ⟨⟨rfl, rfl, rfl⟩, -⟩
      simp
  | [segment], w => mem_ways_singleton_iff
  | segment :: following :: rest, w => by
    have hpar : (w ∈ if segment = "" then []
        else (ways allowed (following :: rest)).map (.afterParameter segment)) ↔
          segment ≠ "" ∧ ∃ v ∈ ways allowed (following :: rest), v.afterParameter segment = w := by
      split
      · next h => simp [h]
      · next h => simp [h]
    rw [ways, List.mem_append, hpar, List.mem_map, reads_cons_cons_iff]
    simp only [mem_ways_iff]
    obtain ⟨steps, custom, values⟩ := w
    constructor
    · rintro (⟨v, ⟨hreads, hc⟩, hw⟩ | ⟨hne, v, ⟨hreads, hc⟩, hw⟩)
      · cases hw
        exact ⟨.inl ⟨_, rfl, hreads⟩, hc⟩
      · cases hw
        exact ⟨.inr ⟨hne, _, _, rfl, rfl, hreads⟩, hc⟩
    · rintro ⟨⟨later, rfl, hreads⟩ | ⟨hne, later, bound, rfl, rfl, hreads⟩, hc⟩
      · exact .inl ⟨⟨later, custom, values⟩, ⟨hreads, hc⟩, rfl⟩
      · exact .inr ⟨hne, ⟨later, custom, bound⟩, ⟨hreads, hc⟩, rfl⟩

end PathRouter
