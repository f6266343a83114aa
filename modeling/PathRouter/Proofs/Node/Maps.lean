/-
Nodes whose tables are maps. No table of a node has a key twice, nor has any below it, and growing keeps it
so. Finalizing relies on it, since it collects the children by their steps: of two with the same step one
would be lost. As none is, a finalized tree has the nodes and the entries of the tree that has grown
(`walk?_finalize`, `at?_finalize`).
-/
import PathRouter.Node.Final
import PathRouter.Proofs.Node.Entries

namespace PathRouter.Node

variable {φ : Phase} {α : Type}

/-- No table of the node has a key twice. -/
structure DistinctKeys (n : Node φ α) : Prop where
  edges : n.edges.keys.Nodup
  plain : n.plain.keys.Nodup
  custom : n.custom.keys.Nodup
  tables : ∀ c ts, n.custom.get? c = some ts → ts.keys.Nodup

namespace DistinctKeys

theorem of_empty : (empty : Node .growing α).DistinctKeys :=
  ⟨List.nodup_nil, List.nodup_nil, List.nodup_nil, fun _ _ h => by cases h⟩

theorem setChild {n : Node .growing α} (h : n.DistinctKeys) (s : Step) (c : Node .growing α) :
    (n.setChild s c).DistinctKeys :=
  ⟨Table.nodup_keys_put h.edges s c, h.plain, h.custom, h.tables⟩

theorem setTerminal {n : Node .growing α} (h : n.DistinctKeys) (slot : Slot) (t : Terminal α) :
    (n.setTerminal slot t).DistinctKeys := by
  obtain ⟨custom, m⟩ := slot
  cases custom with
  | none => exact ⟨h.edges, Table.nodup_keys_put h.plain m t, h.custom, h.tables⟩
  | some c =>
    refine ⟨h.edges, h.plain, Table.nodup_keys_put h.custom c _, fun c' ts hts => ?_⟩
    have hold : ((n.custom.get? c).getD .empty).keys.Nodup := by
      cases hc : n.custom.get? c with
      | none => exact List.nodup_nil
      | some ts => exact h.tables c ts hc
    change (n.custom.put c _).get? c' = some ts at hts
    rw [Table.get?_put] at hts
    split at hts
    · cases hts
      exact Table.nodup_keys_put hold m t
    · exact h.tables c' ts hts

theorem finalize {n : Node .growing α} (h : n.DistinctKeys) : n.finalize.DistinctKeys where
  edges := by rw [edges_finalize, Table.keys_mapValues h.edges]; exact h.edges
  plain := by rw [plain_finalize]; exact h.plain
  custom := by rw [custom_finalize]; exact h.custom
  tables := by rw [custom_finalize]; exact h.tables

end DistinctKeys

/-- A property of every node that a path leads to. -/
def Everywhere (P : Node φ α → Prop) (n : Node φ α) : Prop := ∀ path m, n.walk? path = some m → P m

namespace Everywhere

theorem here {P : Node φ α → Prop} {n : Node φ α} (h : Everywhere P n) : P n := h [] n rfl

theorem child {P : Node φ α → Prop} {n c : Node φ α} {s : Step} (h : Everywhere P n) (hc : n.child? s = some c) :
    Everywhere P c :=
  fun path m hm => h (s :: path) m (by rw [walk?_cons, hc]; exact hm)

theorem of_children {P : Node φ α → Prop} {n : Node φ α} (h : P n)
    (hc : ∀ s c, n.child? s = some c → Everywhere P c) : Everywhere P n
  | [], m, hm => by cases hm; exact h
  | s :: path, m, hm => by
    obtain ⟨c, hs, hm⟩ := Option.bind_eq_some_iff.1 hm
    exact hc s c hs path m hm

variable {P : Node .growing α → Prop}

theorem of_empty (h : P empty) : Everywhere P empty :=
  of_children h fun s c hc => by cases hc

theorem growAt {op : Node .growing α → Attempt (Node .growing α)} (hempty : P empty)
    (hchild : ∀ n s c, P n → P (setChild n s c)) (hop : ∀ n, Everywhere P n → Everywhere P (op n).state) :
    ∀ (path : List Step) (n : Node .growing α), Everywhere P n → Everywhere P (Node.growAt op path n).state
  | [], n, h => hop n h
  | s :: path, n, h => by
    have hnext : Everywhere P (n.childOrEmpty s) := by
      unfold childOrEmpty
      cases hc : n.child? s with
      | some c => exact h.child hc
      | none => exact of_empty hempty
    refine of_children (hchild n s _ h.here) fun r c hc => ?_
    change (n.setChild s _).child? r = some c at hc
    rw [child?_setChild] at hc
    split at hc
    · cases hc
      exact growAt hempty hchild hop path _ hnext
    · exact h.child hc

end Everywhere

/-! ## Growing keeps tables maps -/

theorem everywhere_distinctKeys_empty : Everywhere DistinctKeys (empty : Node .growing α) :=
  .of_empty .of_empty

theorem everywhere_distinctKeys_growAt_occupy (policy : Duplicates) (slot : Slot) (t : Terminal α)
    (path : List Step) {n : Node .growing α} (h : Everywhere DistinctKeys n) :
    Everywhere DistinctKeys (growAt (occupy policy slot t) path n).state := by
  refine Everywhere.growAt .of_empty (fun _ s c h => h.setChild s c) (fun n h => ?_) path n h
  rw [state_occupy]
  split
  · refine .of_children (h.here.setTerminal slot t) fun s c hc => ?_
    rw [child?_setTerminal] at hc
    exact h.child hc
  · exact h

theorem everywhere_distinctKeys_grow (path : List Step) {n : Node .growing α} (h : Everywhere DistinctKeys n) :
    Everywhere DistinctKeys (n.grow path).state :=
  Everywhere.growAt .of_empty (fun _ s c h => h.setChild s c) (fun _ h => h) path n h

/-! ## Finalizing keeps nodes and entries -/

/-- A path leads to the finalized node where it led to a node before. -/
theorem walk?_finalize : ∀ (path : List Step) {n : Node .growing α}, Everywhere DistinctKeys n →
    n.finalize.walk? path = (n.walk? path).map finalize
  | [], _, _ => rfl
  | s :: path, n, h => by
    rw [walk?_cons, child?_finalize h.here.edges, walk?_cons]
    cases hc : n.child? s with
    | none => rfl
    | some c => exact walk?_finalize path (h.child hc)

theorem at?_finalize {n : Node .growing α} (h : Everywhere DistinctKeys n) (path : List Step) (slot : Slot) :
    n.finalize.at? path slot = n.at? path slot := by
  rw [at?, walk?_finalize path h, at?]
  cases n.walk? path with
  | none => rfl
  | some m => exact terminal?_finalize m slot

theorem everywhere_distinctKeys_finalize {n : Node .growing α} (h : Everywhere DistinctKeys n) :
    Everywhere DistinctKeys n.finalize := by
  intro path m hm
  rw [walk?_finalize path h] at hm
  obtain ⟨grown, hgrown, rfl⟩ := Option.map_eq_some_iff.1 hm
  exact (h path grown hgrown).finalize

end PathRouter.Node
