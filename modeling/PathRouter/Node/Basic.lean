/-
The tree that routes are kept in. A node stands for a position in request paths. It has a child for
each step that leads on from it, and terminals for the routes that end with it, one for each slot: a
method, behind a custom method or plain. The terminals behind one custom method are a table of their
own. A node is read through `child?`, `walk?` and `terminal?`. A tree grows while routes are added, and it
is searched in a form of its own, which nothing is added to (`PathRouter.Node.Final`).
-/
import PathRouter.Log
import PathRouter.Table

namespace PathRouter

/-- A place for one route at a node: its custom method, if it has one, and its method. -/
structure Slot where
  customMethod : Option String
  method : Method
deriving DecidableEq

/-- The slot of the routes for a method that have no custom method. -/
def Slot.plain (m : Method) : Slot := ⟨none, m⟩

/-- The end of a route. -/
structure Terminal (α : Type) where
  value : α
  /-- The names of the parameters bound on the way, in path order. -/
  parameterNames : List String
  /-- The pattern of the route as it was supplied. -/
  pattern : String

/-- Whether a tree still grows. -/
inductive Phase where
  /-- Routes are added. -/
  | growing
  /-- Nothing is added any more, and the tree is searched. -/
  | final

/-- A node with the tree below it. -/
structure Node (φ : Phase) (α : Type) where
  edges : Table Step (Node φ α)
  /-- The terminals of the routes without a custom method, by method. -/
  plain : Table Method (Terminal α)
  /-- The terminals of the other routes, by custom method and then by method. -/
  custom : Table String (Table Method (Terminal α))

namespace Node

variable {φ : Phase} {α : Type}

/-- The child a step leads to. -/
def child? (n : Node φ α) (s : Step) : Option (Node φ α) := n.edges.get? s

/-- The node a path of steps leads to. -/
def walk? : List Step → Node φ α → Option (Node φ α)
  | [], n => some n
  | s :: path, n => (n.child? s).bind (walk? path)

/-- The terminals behind a custom method, or the plain ones, by method. -/
def table? (n : Node φ α) : Option String → Option (Table Method (Terminal α))
  | none => some n.plain
  | some c => n.custom.get? c

/-- The terminal in a slot. -/
def terminal? (n : Node φ α) (slot : Slot) : Option (Terminal α) :=
  (n.table? slot.customMethod).bind (·.get? slot.method)

/-! ## Changes -/

/-- The node with neither children nor terminals. -/
def empty : Node .growing α := ⟨.empty, .empty, .empty⟩

/-- The node with `c` as its child for the step. -/
def setChild (n : Node .growing α) (s : Step) (c : Node .growing α) : Node .growing α :=
  { n with edges := n.edges.put s c }

/-- The node with other terminals behind a custom method, or other plain ones. -/
def setTable (n : Node .growing α) (ts : Table Method (Terminal α)) : Option String → Node .growing α
  | none => { n with plain := ts }
  | some c => { n with custom := n.custom.put c ts }

/-- The node with a table behind a custom method, which is empty if there was none. -/
def openTable (n : Node .growing α) (custom : Option String) : Node .growing α :=
  match n.table? custom with
  | none => n.setTable .empty custom
  | some _ => n

/-- The node with `t` in the slot. -/
def setTerminal (n : Node .growing α) (slot : Slot) (t : Terminal α) : Node .growing α :=
  n.setTable (((n.table? slot.customMethod).getD .empty).put slot.method t) slot.customMethod

/-! ## What a change shows -/

@[simp]
theorem child?_empty (s : Step) : (empty : Node .growing α).child? s = none := rfl

@[simp]
theorem terminal?_empty (slot : Slot) : (empty : Node .growing α).terminal? slot = none := by
  obtain ⟨custom, m⟩ := slot
  cases custom <;> rfl

theorem child?_setChild (n : Node .growing α) (s r : Step) (c : Node .growing α) :
    (n.setChild s c).child? r = if s = r then some c else n.child? r :=
  Table.get?_put ..

@[simp]
theorem terminal?_setChild (n : Node .growing α) (s : Step) (c : Node .growing α) (slot : Slot) :
    (n.setChild s c).terminal? slot = n.terminal? slot := rfl

@[simp]
theorem child?_setTable (n : Node .growing α) (ts : Table Method (Terminal α)) (custom : Option String) (s : Step) :
    (n.setTable ts custom).child? s = n.child? s := by
  cases custom <;> rfl

theorem table?_setTable (n : Node .growing α) (ts : Table Method (Terminal α)) (custom custom' : Option String) :
    (n.setTable ts custom).table? custom' = if custom = custom' then some ts else n.table? custom' := by
  cases custom with
  | none => cases custom' <;> rfl
  | some c =>
    cases custom' with
    | none => rfl
    | some c' =>
      show (n.custom.put c ts).get? c' = if some c = some c' then some ts else n.custom.get? c'
      simp only [Table.get?_put, Option.some.injEq]

theorem terminal?_setTerminal (n : Node .growing α) (slot slot' : Slot) (t : Terminal α) :
    (n.setTerminal slot t).terminal? slot' = if slot = slot' then some t else n.terminal? slot' := by
  obtain ⟨custom, m⟩ := slot
  obtain ⟨custom', m'⟩ := slot'
  simp only [terminal?, setTerminal, table?_setTable, Slot.mk.injEq]
  by_cases hc : custom = custom'
  · subst hc
    by_cases hm : m = m'
    · simp [hm]
    · cases h : n.table? custom <;> simp [hm, Table.get?_put]
  · simp [hc]

@[simp]
theorem child?_setTerminal (n : Node .growing α) (slot : Slot) (t : Terminal α) (s : Step) :
    (n.setTerminal slot t).child? s = n.child? s := child?_setTable ..

/-- Of two tables put behind a custom method the later one counts. -/
theorem setTable_setTable (n : Node .growing α) (ts ts' : Table Method (Terminal α)) (custom : Option String) :
    (n.setTable ts custom).setTable ts' custom = n.setTable ts' custom := by
  cases custom with
  | none => rfl
  | some c =>
    simp only [setTable]
    rw [Table.put_put]

/-- An empty table holds no terminal. -/
@[simp]
theorem terminal?_openTable (n : Node .growing α) (custom : Option String) (slot : Slot) :
    (n.openTable custom).terminal? slot = n.terminal? slot := by
  unfold openTable
  cases h : n.table? custom with
  | some ts => rfl
  | none =>
    simp only [terminal?, table?_setTable]
    split
    · next hc => rw [← hc, h]; rfl
    · rfl

/-- A terminal is put into its table, whether that is there or not. -/
theorem setTerminal_openTable (n : Node .growing α) (slot : Slot) (t : Terminal α) :
    (n.openTable slot.customMethod).setTerminal slot t = n.setTerminal slot t := by
  unfold openTable
  cases h : n.table? slot.customMethod with
  | some ts => rfl
  | none =>
    simp only [setTerminal, table?_setTable, if_true, setTable_setTable, h]
    rfl

/-- A slot that is taken has its table. -/
theorem openTable_of_terminal? {n : Node .growing α} {slot : Slot} {t : Terminal α}
    (h : n.terminal? slot = some t) : n.openTable slot.customMethod = n := by
  obtain ⟨ts, hts, -⟩ := Option.bind_eq_some_iff.1 h
  rw [openTable, hts]

/-- Putting a child where it is changes nothing. -/
theorem setChild_of_child? {n c : Node .growing α} {s : Step} (h : n.child? s = some c) : n.setChild s c = n := by
  cases n
  simp only [setChild]
  rw [Table.put_of_get? h]

@[simp]
theorem walk?_nil (n : Node φ α) : walk? [] n = some n := rfl

theorem walk?_cons (s : Step) (path : List Step) (n : Node φ α) :
    walk? (s :: path) n = (n.child? s).bind (walk? path) := rfl

end Node

end PathRouter
