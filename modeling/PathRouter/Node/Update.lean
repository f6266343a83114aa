/-
Growing a tree. `growAt` walks a path of steps, makes the nodes that are missing, and lets an
operation act on the node at its end; `occupy` is the operation that fills a slot. Both give the
tree as it stands afterwards, also when the route is turned away, together with the records written.
-/
import PathRouter.Settings
import PathRouter.Node.Basic
import PathRouter.Rejection

namespace PathRouter

/-- What is left of a state after an operation that may have failed. -/
structure Attempt (σ : Type) where
  state : σ
  /-- Why the operation failed, if it did. -/
  error? : Option Rejection
  log : List Record

namespace Attempt

variable {σ : Type} {τ : Type}

/-- An attempt seen as one on a larger state. -/
def map (f : σ → τ) (a : Attempt σ) : Attempt τ := ⟨f a.state, a.error?, a.log⟩

/-- An attempt with records written before it. -/
def after (records : List Record) (a : Attempt σ) : Attempt σ := { a with log := records ++ a.log }

end Attempt

namespace Node

variable {α : Type}

/-- The child a step leads to, or the empty node that it will lead to. -/
def childOrEmpty (n : Node .growing α) (s : Step) : Node .growing α := (n.child? s).getD empty

/-- The record of a step to a child that is missing. -/
def stepLog (n : Node .growing α) (s : Step) : List Record :=
  if (n.child? s).isNone then [.childAdded s] else []

/-- Walks `path`, making the missing nodes, and lets `op` act on the node at its end. -/
def growAt (op : Node .growing α → Attempt (Node .growing α)) :
    List Step → Node .growing α → Attempt (Node .growing α)
  | [], n => op n
  | s :: path, n =>
    ((growAt op path (n.childOrEmpty s)).map (n.setChild s)).after (n.stepLog s)

/-- Walks a path and makes the missing nodes, no more. -/
def grow (path : List Step) (n : Node .growing α) : Attempt (Node .growing α) :=
  growAt (fun m => ⟨m, none, []⟩) path n

/-- Puts a terminal into a slot, after making the table of the slot if it is missing. Where the slot is
taken, the policy decides which terminal stays. -/
def occupy (policy : Duplicates) (slot : Slot) (t : Terminal α) (n : Node .growing α) :
    Attempt (Node .growing α) :=
  let opened := n.openTable slot.customMethod
  let added : Attempt (Node .growing α) :=
    ⟨opened.setTerminal slot t, none, [.terminalAdded slot.method t.pattern]⟩
  match opened.terminal? slot with
  | none => added
  | some former =>
    match policy with
    | .strict => ⟨opened, some (.duplicateRoute slot.method t.pattern former.pattern), []⟩
    | .lax => added.after [.terminalReplaced slot.method t.pattern former.pattern]

/-! ## Single steps -/

theorem growAt_nil (op : Node .growing α → Attempt (Node .growing α)) (n : Node .growing α) :
    growAt op [] n = op n := rfl

theorem growAt_cons (op : Node .growing α → Attempt (Node .growing α)) (s : Step) (path : List Step)
    (n : Node .growing α) :
    growAt op (s :: path) n =
      ((growAt op path (n.childOrEmpty s)).map (n.setChild s)).after (n.stepLog s) := rfl

theorem childOrEmpty_of_child? {n c : Node .growing α} {s : Step} (h : n.child? s = some c) :
    n.childOrEmpty s = c := by
  simp [childOrEmpty, h]

end Node

end PathRouter
