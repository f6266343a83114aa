/-
Matches that can be read back. The pattern kept in a terminal reads as the steps to its node and the
custom method of its slot, and its parameters are those of the terminal. A search binds one part of
the path for each of them, so that the values put into the pattern give the path again, its leading
slash aside, and the match has all of them.
-/
import PathRouter.Proofs.Router.Resolution
import PathRouter.Proofs.Tree.Insertions

namespace PathRouter

open Text

variable {α : Type}

/-- The parts of a path that segments stand for, with values put in order in place of the parameters. -/
def Segment.parts : List Segment → List String → List String
  | [], _ => []
  | .literal text :: segments, values => text :: parts segments values
  | .parameter _ :: segments, values => values.headD "" :: parts segments values.tail

/-- The path that a pattern stands for, with values put in order in place of its parameters. -/
def Pattern.pathWith (p : Pattern) (values : List String) : String :=
  "/".intercalate (Segment.parts p.segments values) ++ p.customMethod.getD ""

/-! ## Values bound -/

namespace Binds

/-- Every parameter binds a value. -/
theorem length_values {steps : List Step} {parts values : List String} (h : Binds steps parts values) :
    values.length = steps.count .parameter := by
  induction h with
  | nil => rfl
  | literal text _ ih => rw [ih, List.count_cons_of_ne (by simp)]
  | parameter _ _ ih => rw [List.length_cons, ih, List.count_cons_self]

/-- A value is a part of the path, and not an empty one. -/
theorem ne_and_mem {steps : List Step} {parts values : List String} (h : Binds steps parts values) :
    ∀ v ∈ values, v ≠ "" ∧ v ∈ parts := by
  induction h with
  | nil => simp
  | literal text _ ih => exact fun v hv => ⟨(ih v hv).1, List.mem_cons_of_mem _ (ih v hv).2⟩
  | parameter hne _ ih =>
    intro v hv
    rcases List.mem_cons.1 hv with rfl | hv
    · exact ⟨hne, List.mem_cons_self ..⟩
    · exact ⟨(ih v hv).1, List.mem_cons_of_mem _ (ih v hv).2⟩

/-- The values put in place of the parameters give the parts back. -/
theorem parts_eq : ∀ {segments : List Segment} {parts values : List String},
    Binds (segments.map Segment.step) parts values → Segment.parts segments values = parts
  | [], _, _, .nil => rfl
  | .literal text :: _, _, _, .literal _ h => congrArg (text :: ·) h.parts_eq
  | .parameter _ :: _, _, _, .parameter _ h => congrArg (_ :: ·) h.parts_eq

end Binds

namespace Reads

variable {steps : List Step} {parts values : List String} {custom : Option String}

/-- What is read before the custom method is bound by the steps. -/
theorem exists_binds (h : Reads steps parts values custom) :
    ∃ bound, Binds steps bound values ∧
      joined (bound.map String.toList) ++ (custom.getD "").toList = joined (parts.map String.toList) := by
  cases custom with
  | none => exact ⟨parts, h, by simp⟩
  | some c =>
    obtain ⟨front, last, rfl, hbinds⟩ := h
    refine ⟨front ++ [last], hbinds, ?_⟩
    simp only [List.map_append, List.map_cons, List.map_nil, Option.getD_some, String.toList_append]
    exact joined_concat_append ..

theorem length_values (h : Reads steps parts values custom) : values.length = steps.count .parameter := by
  obtain ⟨bound, hbinds, -⟩ := h.exists_binds
  exact hbinds.length_values

/-- A value is not empty, and its characters are among those of a part of the path. -/
theorem ne_and_subset (h : Reads steps parts values custom) :
    ∀ v ∈ values, v ≠ "" ∧ ∃ part ∈ parts, v.toList ⊆ part.toList := by
  intro v hv
  cases custom with
  | none =>
    obtain ⟨hne, hmem⟩ := Binds.ne_and_mem h v hv
    exact ⟨hne, v, hmem, List.Subset.refl _⟩
  | some c =>
    obtain ⟨front, last, rfl, hbinds⟩ := h
    obtain ⟨hne, hmem⟩ := hbinds.ne_and_mem v hv
    refine ⟨hne, ?_⟩
    rcases List.mem_append.1 hmem with hmem | hmem
    · exact ⟨v, List.mem_append_left _ hmem, List.Subset.refl _⟩
    · cases List.mem_singleton.1 hmem
      refine ⟨v ++ c, List.mem_append_right _ (List.mem_singleton.2 rfl), ?_⟩
      rw [String.toList_append]
      exact List.subset_append_left _ _

/-- The values put into a pattern give the path that was read. -/
theorem toList_pathWith {p : Pattern} (h : Reads p.steps parts values p.customMethod) :
    (p.pathWith values).toList = joined (parts.map String.toList) := by
  obtain ⟨bound, hbinds, hjoined⟩ := h.exists_binds
  have hparts : Segment.parts p.segments values = bound := hbinds.parts_eq
  rw [Pattern.pathWith, hparts, String.toList_append, String.toList_intercalate, ← hjoined]
  rfl

end Reads

namespace Pattern

theorem length_parameterNames (p : Pattern) : p.parameterNames.length = p.steps.count .parameter := by
  unfold parameterNames steps
  induction p.segments with
  | nil => rfl
  | cons s segments ih =>
    cases s with
    | literal text =>
      rw [List.filterMap_cons_none (by rfl), List.map_cons, Segment.step, List.count_cons_of_ne (by simp), ih]
    | parameter name =>
      rw [List.filterMap_cons_some (by rfl), List.map_cons, Segment.step, List.count_cons_self, List.length_cons, ih]

theorem nodup_parameterNames {text : String} {p : Pattern} (h : parse text = .ok p) : p.parameterNames.Nodup :=
  (wellFormed_of_parse h).names

end Pattern

namespace RequestPath

theorem joined_segments (path : String) :
    joined ((ofString path).segments.map String.toList) = dropSlash path.toList := by
  simp only [ofString, List.map_map, Function.comp_def, String.toList_ofList, List.map_id']
  exact joined_components _

theorem slash_not_mem_segment {path s : String} (h : s ∈ (ofString path).segments) : '/' ∉ s.toList := by
  obtain ⟨part, hpart, rfl⟩ := List.mem_map.1 h
  rw [String.toList_ofList]
  exact not_mem_of_mem_components hpart

end RequestPath

/-! ## The map of the values -/

namespace Arrival

variable {a : Arrival α}

/-- Names and values go together one by one. -/
theorem map_namedBindings (h : a.bindings.length = a.terminal.parameterNames.length) :
    a.namedBindings.map Prod.fst = a.terminal.parameterNames ∧ a.namedBindings.map Prod.snd = a.bindings :=
  ⟨List.map_fst_zip (Nat.le_of_eq h.symm), List.map_snd_zip (Nat.le_of_eq h)⟩

/-- Where the names are distinct, the match has every value. -/
theorem entries_parameters (hnames : a.terminal.parameterNames.Nodup)
    (h : a.bindings.length = a.terminal.parameterNames.length) :
    a.toMatch.value.parameters.entries =
      a.namedBindings.map fun (name, raw) => (name, Text.Percent.decode raw) := by
  refine Table.entries_ofList ?_
  rw [List.map_map]
  show (a.namedBindings.map Prod.fst).Nodup
  rwa [(map_namedBindings h).1]

end Arrival

/-! ## Trees -/

namespace Tree

namespace Holds

variable {t : Tree .final α} {routes : List (Route α)}

/-- The pattern of a terminal reads as the way to it. -/
theorem exists_parse_of_at? (ht : t.Holds routes) {path : List Step} {slot : Slot} {terminal : Terminal α}
    (h : t.root.at? path slot = some terminal) :
    ∃ p, Pattern.parse terminal.pattern = .ok p ∧ p.steps = path ∧ p.customMethod = slot.customMethod ∧
      p.parameterNames = terminal.parameterNames := by
  obtain ⟨r, hr, hk, rfl⟩ := (ht.entry ⟨slot.method, path, slot.customMethod⟩ terminal).1 h
  exact ⟨r.pattern, ht.parsed r hr, congrArg Key.steps hk, congrArg Key.customMethod hk, rfl⟩

/-- What a search finds reads as the path searched for. -/
theorem exists_reads_of_search (ht : t.Holds routes) {m : Method} {path : String} {a : Arrival α}
    (h : (t.search m (.ofString path)).value = some a) :
    ∃ p, Pattern.parse a.terminal.pattern = .ok p ∧ p.parameterNames = a.terminal.parameterNames ∧
      Reads p.steps (RequestPath.ofString path).segments a.bindings p.customMethod := by
  obtain ⟨r, values, hbest, rfl⟩ := ht.search_eq_some_iff.1 h
  exact ⟨r.pattern, ht.parsed r hbest.mem, rfl, hbest.reads.1⟩

end Holds

/-- Whatever is inserted into an empty tree, the pattern of every terminal reads as the steps to its
node and the custom method of its slot, and has the parameters of the terminal, which are distinct and
as many as the steps to parameters. Whenever a search succeeds, it binds one value to each parameter,
neither empty nor with a slash; the match has every name with its decoded value; and the values put
into the pattern give the path, its leading slash aside. -/
theorem parse_and_pathWith_of_insertAll (policy : Duplicates) (adds : List (Addition α)) :
    let tree := ((empty : Tree .growing α).insertAll policy (adds.filterMap Addition.route?)).finalize
    (∀ path slot terminal, tree.root.at? path slot = some terminal →
      ∃ p, Pattern.parse terminal.pattern = .ok p ∧ p.steps = path ∧ p.customMethod = slot.customMethod ∧
        p.parameterNames = terminal.parameterNames ∧ terminal.parameterNames.Nodup ∧
        terminal.parameterNames.length = path.count .parameter) ∧
    ∀ m path a, (tree.search m (.ofString path)).value = some a →
      a.bindings.length = a.terminal.parameterNames.length ∧
      (∀ v ∈ a.bindings, v ≠ "" ∧ '/' ∉ v.toList) ∧
      (a.namedBindings.map Prod.fst = a.terminal.parameterNames ∧ a.namedBindings.map Prod.snd = a.bindings) ∧
      (∃ found, ((⟨tree⟩ : Router α).resolve m path).value = some found ∧ found.value = a.terminal.value ∧
        found.parameters.entries = a.namedBindings.map fun (name, raw) => (name, Percent.decode raw)) ∧
      ∃ p, Pattern.parse a.terminal.pattern = .ok p ∧
        (p.pathWith a.bindings).toList = dropSlash path.toList := by
  intro tree
  have hholds : tree.Holds (Route.surviving policy adds) := (holds_insertAll policy adds).finalize
  refine ⟨fun path slot terminal h => ?_, fun m path a h => ?_⟩
  · obtain ⟨p, hp, hsteps, hcustom, hnames⟩ := hholds.exists_parse_of_at? h
    refine ⟨p, hp, hsteps, hcustom, hnames, ?_, ?_⟩
    · rw [← hnames]
      exact Pattern.nodup_parameterNames hp
    · rw [← hnames, ← hsteps]
      exact p.length_parameterNames
  · obtain ⟨p, hp, hnames, hreads⟩ := hholds.exists_reads_of_search h
    have hlength : a.bindings.length = a.terminal.parameterNames.length := by
      rw [hreads.length_values, ← hnames, p.length_parameterNames]
    have hnodup : a.terminal.parameterNames.Nodup := hnames ▸ Pattern.nodup_parameterNames hp
    refine ⟨hlength, fun v hv => ?_, Arrival.map_namedBindings hlength, ⟨a.toMatch.value, ?_, rfl, ?_⟩, p, hp, ?_⟩
    · obtain ⟨hne, part, hpart, hsub⟩ := hreads.ne_and_subset v hv
      exact ⟨hne, fun hslash => RequestPath.slash_not_mem_segment hpart (hsub hslash)⟩
    · rw [Router.value_resolve, h]
      rfl
    · exact Arrival.entries_parameters hnodup hlength
    · rw [hreads.toList_pathWith, RequestPath.joined_segments]

/-- The value bound on the way to the first route is given up again, and the name that the third route
has for the parameter it shares with the second one is not used. -/
theorem pathWith_of_shared_parameter :
    let get : Method := ⟨"GET", by decide⟩
    let adds : List (Addition Nat) := [⟨get, "/v1/{a}/{b}/end", 1⟩, ⟨get, "/{c}/x/y\\:z:run", 2⟩, ⟨get, "{d}/x", 3⟩]
    let tree := ((empty : Tree .growing Nat).insertAll .strict (adds.filterMap Addition.route?)).finalize
    let a : Arrival Nat := ⟨⟨2, ["c"], "/{c}/x/y\\:z:run"⟩, ["v1"]⟩
    (tree.search get (.ofString "/v1/x/y:z:run")).value = some a ∧
      a.bindings.length = a.terminal.parameterNames.length ∧
      ∃ p, Pattern.parse a.terminal.pattern = .ok p ∧ (p.pathWith a.bindings).toList = "v1/x/y:z:run".toList := by
  intro get adds tree a
  have hsearch : (tree.search get (.ofString "/v1/x/y:z:run")).value = some a := by
    rw [value_search_finalize (holds_insertAll .strict adds).maps]
    dsimp only [adds, get, a]
    rfl
  have h := (parse_and_pathWith_of_insertAll .strict adds).2 get "/v1/x/y:z:run" a hsearch
  exact ⟨hsearch, h.1, h.2.2.2.2⟩

end Tree

end PathRouter
