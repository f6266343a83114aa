/-
Routers. A router resolves a request by the routes of its tree: the most specific route that matches
the path is found first, and then the values of its parameters are decoded. `allowed` lists the
methods for which a path resolves.
-/
import PathRouter.Request
import PathRouter.Search.Machine
import PathRouter.Text.Percent
import PathRouter.Tree

namespace PathRouter

/-- The values of the parameters of a route, by name. -/
abbrev Parameters := Table String String

/-- A route found for a request: its value, and the decoded values of its parameters. -/
structure Match (α : Type) where
  value : α
  parameters : Parameters

/-- Matches are equal when their values are and their parameters are the same map. -/
instance {α : Type} [BEq α] : BEq (Match α) where
  beq a b := a.value == b.value && a.parameters.sameAs b.parameters

namespace Arrival

variable {α : Type}

/-- The names of the parameters with the values bound to them, still percent encoded. -/
def namedBindings (a : Arrival α) : List (String × String) :=
  a.terminal.parameterNames.zip a.bindings

/-- The match that a search arrived at. Every value decoded is recorded. -/
def toMatch (a : Arrival α) : Logged (Match α) :=
  ⟨⟨a.terminal.value, .ofList (a.namedBindings.map fun (name, raw) => (name, Text.Percent.decode raw))⟩,
    a.namedBindings.map fun (_, raw) => .decoded (Text.Percent.decode raw) raw⟩

end Arrival

/-- Searches a tree for the route of a request. -/
def Tree.search {α : Type} (t : Tree .final α) (m : Method) (path : RequestPath) :
    Logged (Option (Arrival α)) := do
  Logged.write .traversalStarted
  t.root.search? ⟨m, path.customMethodAllowed⟩ path.segments

/-- A router of the routes of a tree. -/
structure Router (α : Type) where
  tree : Tree .final α

namespace Router

variable {α : Type}

/-- The route for a method and a path as it came with a request. -/
def resolve (r : Router α) (m : Method) (path : String) : Logged (Option (Match α)) := do
  match ← r.tree.search m (.ofString path) with
  | none =>
    Logged.write (.unresolved m path)
    pure none
  | some a =>
    let found ← a.toMatch
    Logged.write (.resolved m path a.terminal.pattern)
    pure (some found)

/-- The methods for which a path resolves, ordered by their text. -/
def allowed (r : Router α) (path : String) : Logged (List Method) :=
  let answers := r.tree.methods.map fun m => (m, r.resolve m path)
  let found := (answers.filter fun (_, answer) => answer.value.isSome).map (·.1)
  ⟨found.mergeSort Method.le, answers.flatMap (fun (_, answer) => answer.log) ++ [.allows path found]⟩

/-! ## What the answers are -/

/-- The records of a search and of decoding aside, resolving is searching. -/
theorem value_resolve (r : Router α) (m : Method) (path : String) :
    (r.resolve m path).value =
      (r.tree.search m (.ofString path)).value.map fun a => a.toMatch.value := by
  unfold resolve
  rw [Logged.value_bind]
  cases (r.tree.search m (.ofString path)).value <;> rfl

/-- A method is listed when it has a route and the path resolves for it. -/
theorem mem_allowed {r : Router α} {path : String} {m : Method} :
    m ∈ (r.allowed path).value ↔ m ∈ r.tree.methods ∧ (r.resolve m path).value.isSome := by
  simp only [allowed, List.mem_mergeSort, List.mem_map, List.mem_filter]
  constructor
  · rintro ⟨_, ⟨⟨n, hn, rfl⟩, hsome⟩, rfl⟩
    exact ⟨hn, hsome⟩
  · rintro ⟨hm, hsome⟩
    exact ⟨_, ⟨⟨m, hm, rfl⟩, hsome⟩, rfl⟩

end Router

end PathRouter
