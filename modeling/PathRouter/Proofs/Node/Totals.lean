/-
Totals over trees of nodes. `total` adds up what every node counts for. Growing a tree changes it by what
the new nodes count for and by what the operation changes at the last one (`total_growAt`), and finalizing
the tree keeps it (`total_finalize`). The records of a walk are one for each node that it makes, and none if
all of them are there.
-/
import Mathlib.Data.List.Basic
import PathRouter.Proofs.Node.Maps

namespace PathRouter

/-! ## Sums over a table -/

namespace Table

variable {κ ν : Type}

/-- The sum of what the values of a table count for. -/
def sum (f : ν → Nat) (t : Table κ ν) : Nat := t.entries.foldr (fun e n => f e.2 + n) 0

theorem sum_congr {f g : ν → Nat} {t : Table κ ν} (h : ∀ e ∈ t.entries, f e.2 = g e.2) : t.sum f = t.sum g :=
  List.foldr_ext _ _ 0 fun e he n => by rw [h e he]

variable [DecidableEq κ]

/-- A value takes the place of the one that its key had. -/
theorem sum_put (f : ν → Nat) (t : Table κ ν) (k : κ) (v : ν) :
    (t.put k v).sum f + (t.get? k).elim 0 f = t.sum f + f v := by
  obtain ⟨es⟩ := t
  show (replace k v es).foldr (fun e n => f e.2 + n) 0 + (find? k es).elim 0 f =
    es.foldr (fun e n => f e.2 + n) 0 + f v
  induction es with
  | nil => simp [replace, find?]
  | cons e es ih =>
    obtain ⟨j, w⟩ := e
    by_cases hjk : j = k
    · simp only [replace, find?, hjk, if_true, List.foldr_cons, Option.elim_some]
      omega
    · simp only [replace, find?, hjk, if_false, List.foldr_cons]
      omega

theorem sum_mapValues {ω : Type} {t : Table κ ν} (h : t.keys.Nodup) (f : ν → ω) (g : ω → Nat) :
    (t.mapValues f).sum g = t.sum fun v => g (f v) := by
  rw [sum, entries_mapValues h, List.foldr_map]
  rfl

end Table

namespace Node

variable {φ : Phase} {α : Type}

mutual

/-- The sum of what a node and every node below it count for. -/
def total (f : Node φ α → Nat) : Node φ α → Nat
  | ⟨⟨children⟩, plain, custom⟩ => f ⟨⟨children⟩, plain, custom⟩ + totalBelow f children

/-- The sum over the nodes below. -/
def totalBelow (f : Node φ α → Nat) : List (Step × Node φ α) → Nat
  | [] => 0
  | (_, c) :: children => total f c + totalBelow f children

end

theorem totalBelow_eq (f : Node φ α → Nat) (children : List (Step × Node φ α)) :
    totalBelow f children = children.foldr (fun e n => total f e.2 + n) 0 := by
  induction children with
  | nil => rfl
  | cons e children ih => rw [totalBelow, List.foldr_cons, ih]

theorem total_eq (f : Node φ α → Nat) (n : Node φ α) : n.total f = f n + n.edges.sum (total f) := by
  obtain ⟨⟨children⟩, plain, custom⟩ := n
  exact congrArg (f _ + ·) (totalBelow_eq f children)

theorem total_empty (f : Node .growing α → Nat) : (empty : Node .growing α).total f = f empty := rfl

/-! ## Finalizing a tree -/

mutual

/-- Induction over a tree: what is true of a node when it is of its children is true of every node. -/
theorem induct {P : Node φ α → Prop} (step : ∀ n : Node φ α, (∀ e ∈ n.edges.entries, P e.2) → P n) :
    ∀ n : Node φ α, P n
  | ⟨⟨children⟩, _, _⟩ => step _ (induct_below step children)

theorem induct_below {P : Node φ α → Prop} (step : ∀ n : Node φ α, (∀ e ∈ n.edges.entries, P e.2) → P n) :
    ∀ children : List (Step × Node φ α), ∀ e ∈ children, P e.2
  | [], _, he => nomatch he
  | (_, c) :: children, e, he => by
    rcases List.mem_cons.1 he with rfl | he
    · exact induct step c
    · exact induct_below step children e he

end

/-- A total is kept when every node counts for what it did before. -/
theorem total_finalize {f : Node .growing α → Nat} {g : Node .final α → Nat} (hfg : ∀ m, g m.finalize = f m)
    {n : Node .growing α} (h : Everywhere DistinctKeys n) : n.finalize.total g = n.total f := by
  induction n using induct with
  | step n ih =>
    rw [total_eq, total_eq f, hfg, edges_finalize, Table.sum_mapValues h.here.edges]
    congr 1
    exact Table.sum_congr fun e he => ih e he (h.child (Table.get?_eq_some_of_mem h.here.edges he))

/-! ## Growing a tree -/

/-- The node that a path leads to, or the empty node that it will lead to. -/
def nodeAt (path : List Step) (n : Node .growing α) : Node .growing α := (n.walk? path).getD empty

theorem nodeAt_empty (path : List Step) : (empty : Node .growing α).nodeAt path = empty := by
  cases path <;> rfl

theorem nodeAt_cons (s : Step) (path : List Step) (n : Node .growing α) :
    n.nodeAt (s :: path) = (n.childOrEmpty s).nodeAt path := by
  unfold childOrEmpty
  cases hc : n.child? s with
  | none => rw [Option.getD_none, nodeAt_empty, nodeAt, walk?_cons, hc]; rfl
  | some c => rw [Option.getD_some, nodeAt, walk?_cons, hc]; rfl

theorem terminal?_nodeAt (path : List Step) (n : Node .growing α) (slot : Slot) :
    (n.nodeAt path).terminal? slot = n.at? path slot := by
  unfold nodeAt at?
  cases n.walk? path <;> simp

section GrowAt

variable (op : Node .growing α → Attempt (Node .growing α))

theorem error?_growAt : ∀ (path : List Step) (n : Node .growing α),
    (growAt op path n).error? = (op (n.nodeAt path)).error?
  | [], _ => rfl
  | s :: path, n => by
    rw [nodeAt_cons, ← error?_growAt path]
    rfl

/-- The records of the nodes that are made come before those of the operation. -/
theorem log_growAt : ∀ (path : List Step) (n : Node .growing α),
    (growAt op path n).log = (n.grow path).log ++ (op (n.nodeAt path)).log
  | [], _ => rfl
  | s :: path, n => by
    rw [nodeAt_cons]
    show n.stepLog s ++ (growAt op path (n.childOrEmpty s)).log =
      n.stepLog s ++ ((n.childOrEmpty s).grow path).log ++ _
    rw [log_growAt path, List.append_assoc]

theorem log_grow_cons (s : Step) (path : List Step) (n : Node .growing α) :
    (n.grow (s :: path)).log = n.stepLog s ++ ((n.childOrEmpty s).grow path).log := rfl

/-- A walk is recorded by the nodes that it makes. -/
theorem exists_of_mem_log_grow {r : Record} :
    ∀ {path : List Step} {n : Node .growing α}, r ∈ (n.grow path).log → ∃ s, r = .childAdded s
  | [], _, h => absurd h (List.not_mem_nil)
  | s :: path, n, h => by
    rw [log_grow_cons, List.mem_append] at h
    rcases h with h | h
    · unfold stepLog at h
      split at h
      · exact ⟨s, List.mem_singleton.1 h⟩
      · exact absurd h (List.not_mem_nil)
    · exact exists_of_mem_log_grow h

/-- A walk along nodes that are there has no record. -/
theorem log_grow_of_isSome :
    ∀ {path : List Step} {n : Node .growing α}, (n.walk? path).isSome = true → (n.grow path).log = []
  | [], _, _ => rfl
  | s :: path, n, h => by
    rw [walk?_cons] at h
    obtain ⟨c, hc⟩ := Option.isSome_iff_exists.1 (Option.isSome_of_isSome_bind h)
    rw [hc, Option.bind_some] at h
    rw [log_grow_cons, childOrEmpty_of_child? hc, log_grow_of_isSome h]
    simp [stepLog, hc]

section Total

variable {f : Node .growing α → Nat} (hf : ∀ n s c, f (setChild n s c) = f n)
include hf

/-- A child takes the place of the one that its step led to. -/
theorem total_setChild (n : Node .growing α) (s : Step) (c : Node .growing α) :
    (n.setChild s c).total f + (n.child? s).elim 0 (total f) = n.total f + c.total f := by
  have hsum := Table.sum_put (total f) n.edges s c
  rw [total_eq, hf, total_eq f n]
  show f n + (n.edges.put s c).sum (total f) + (n.edges.get? s).elim 0 (total f) = _
  omega

/-- Growing adds what the nodes count for that it makes, and what the operation adds at the last one. -/
theorem total_growAt : ∀ (path : List Step) (n : Node .growing α),
    (growAt op path n).state.total f + (n.nodeAt path).total f =
      n.total f + (op (n.nodeAt path)).state.total f + (n.grow path).log.length * f empty
  | [], n => by
    show (op n).state.total f + n.total f = n.total f + (op n).state.total f + 0 * f empty
    omega
  | s :: path, n => by
    have ih := total_growAt path (n.childOrEmpty s)
    have hset := total_setChild hf n s (growAt op path (n.childOrEmpty s)).state
    rw [nodeAt_cons, log_grow_cons, List.length_append, Nat.add_mul]
    show (n.setChild s (growAt op path (n.childOrEmpty s)).state).total f + _ = _
    cases hc : n.child? s with
    | none =>
      have hempty : (n.childOrEmpty s).total f = f empty := by simp [childOrEmpty, hc, total_empty]
      have hlog : (n.stepLog s).length = 1 := by simp [stepLog, hc]
      rw [hc] at hset
      rw [hlog]
      rw [Option.elim_none] at hset
      omega
    | some c =>
      have hchild : (n.childOrEmpty s).total f = c.total f := by rw [childOrEmpty_of_child? hc]
      have hlog : (n.stepLog s).length = 0 := by simp [stepLog, hc]
      rw [hc] at hset
      rw [hlog]
      rw [Option.elim_some] at hset
      omega

end Total

end GrowAt

/-! ## Nodes and terminals -/

/-- The number of nodes of a tree, its root included. -/
def nodes (n : Node φ α) : Nat := n.total fun _ => 1

/-- The number of terminals at a node. -/
def ownTerminals (n : Node φ α) : Nat := n.plain.sum (fun _ => 1) + n.custom.sum fun ts => ts.sum fun _ => 1

/-- The number of terminals of a tree. -/
def terminals (n : Node φ α) : Nat := n.total ownTerminals

theorem nodes_finalize {n : Node .growing α} (h : Everywhere DistinctKeys n) : n.finalize.nodes = n.nodes :=
  total_finalize (fun _ => rfl) h

theorem terminals_finalize {n : Node .growing α} (h : Everywhere DistinctKeys n) :
    n.finalize.terminals = n.terminals :=
  total_finalize (fun m => by simp [ownTerminals]) h

theorem edges_setTerminal (n : Node .growing α) (slot : Slot) (t : Terminal α) :
    (n.setTerminal slot t).edges = n.edges := by
  obtain ⟨custom, m⟩ := slot
  cases custom <;> rfl

/-- A terminal takes the place of the one in its slot. -/
theorem ownTerminals_setTerminal (n : Node .growing α) (slot : Slot) (t : Terminal α) :
    (n.setTerminal slot t).ownTerminals + (n.terminal? slot).elim 0 (fun _ => 1) = n.ownTerminals + 1 := by
  obtain ⟨custom, m⟩ := slot
  cases custom with
  | none =>
    have hput := Table.sum_put (fun _ : Terminal α => 1) n.plain m t
    show (n.plain.put m t).sum (fun _ => 1) + n.custom.sum _ + (n.plain.get? m).elim 0 (fun _ => 1) =
      n.plain.sum (fun _ => 1) + n.custom.sum _ + 1
    omega
  | some c =>
    let ts : Table Method (Terminal α) := (n.custom.get? c).getD .empty
    have hput := Table.sum_put (fun _ : Terminal α => 1) ts m t
    have hcustom := Table.sum_put (fun ts : Table Method (Terminal α) => ts.sum fun _ => 1) n.custom c (ts.put m t)
    have hsize : (n.custom.get? c).elim 0 (fun ts => ts.sum fun _ => 1) = ts.sum fun _ => 1 := by
      dsimp only [ts]
      cases n.custom.get? c <;> rfl
    have hget : (n.custom.get? c).bind (·.get? m) = ts.get? m := by
      dsimp only [ts]
      cases n.custom.get? c <;> rfl
    show n.plain.sum (fun _ => 1) + (n.custom.put c (ts.put m t)).sum (fun ts => ts.sum fun _ => 1) +
        ((n.custom.get? c).bind (·.get? m)).elim 0 (fun _ => 1) =
      n.plain.sum (fun _ => 1) + n.custom.sum (fun ts => ts.sum fun _ => 1) + 1
    rw [hget]
    omega

theorem total_setTerminal (f : Node .growing α → Nat) (n : Node .growing α) (slot : Slot) (t : Terminal α) :
    (n.setTerminal slot t).total f + f n = n.total f + f (n.setTerminal slot t) := by
  rw [total_eq, total_eq f n, edges_setTerminal]
  omega

section Occupy

variable (policy : Duplicates) (slot : Slot) (t : Terminal α)

/-- A terminal that is taken is recorded, after the one whose place it takes, and one that is turned away is
not. -/
theorem log_occupy (n : Node .growing α) :
    (occupy policy slot t n).log =
      if (occupy policy slot t n).error? = none then
        ((n.terminal? slot).map fun former => .terminalReplaced slot.method t.pattern former.pattern).toList ++
          [.terminalAdded slot.method t.pattern]
      else [] := by
  rw [error?_occupy]
  simp only [occupy, refusal, terminal?_openTable]
  cases n.terminal? slot with
  | none => rfl
  | some former => cases policy <;> rfl

/-- An addition that fails makes no node: its slot is taken, so its path is there. -/
theorem log_grow_of_error {path : List Step} {n : Node .growing α}
    (h : (growAt (occupy policy slot t) path n).error? ≠ none) : (n.grow path).log = [] := by
  refine log_grow_of_isSome ?_
  rw [error?_growAt_occupy] at h
  cases hw : n.walk? path with
  | some m => rfl
  | none =>
    rw [at?, hw] at h
    exact absurd rfl h

theorem nodes_growAt_occupy (path : List Step) (n : Node .growing α) :
    (growAt (occupy policy slot t) path n).state.nodes = n.nodes + (n.grow path).log.length := by
  have htotal := total_growAt (occupy policy slot t) (f := fun _ => 1) (fun _ _ _ => rfl) path n
  have hlast : (occupy policy slot t (n.nodeAt path)).state.total (fun _ => 1) =
      (n.nodeAt path).total fun _ => 1 := by
    rw [state_occupy]
    split
    · have := total_setTerminal (fun _ => 1) (n.nodeAt path) slot t
      omega
    · rfl
  unfold nodes
  omega

theorem terminals_growAt_occupy {path : List Step} {n : Node .growing α}
    (h : (growAt (occupy policy slot t) path n).error? = none) :
    (growAt (occupy policy slot t) path n).state.terminals + (n.at? path slot).elim 0 (fun _ => 1) =
      n.terminals + 1 := by
  have htotal := total_growAt (occupy policy slot t) (f := ownTerminals) (fun _ _ _ => rfl) path n
  have hset := total_setTerminal ownTerminals (n.nodeAt path) slot t
  have hown := ownTerminals_setTerminal (n.nodeAt path) slot t
  have hempty : (empty : Node .growing α).ownTerminals = 0 := rfl
  rw [error?_growAt] at h
  rw [state_occupy, if_pos h, hempty] at htotal
  rw [terminal?_nodeAt] at hown
  unfold terminals
  omega

end Occupy

end Node

end PathRouter
