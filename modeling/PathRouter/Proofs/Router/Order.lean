/-
Additions in another order. As long as those with one key stay in their order, each addition comes to
the same and the routers give the same answers: positions with one key are listed alike in both orders
(`map_eq_of_increasing`), so the same routes contend for it, up to every addition and in the end.
-/
import Mathlib.Data.List.FinRange
import PathRouter.Proofs.Router.Contenders

namespace PathRouter

variable {α : Type}

namespace Addition

/-- Whether two additions are of routes with one key. -/
def SameKey (a b : Addition α) : Prop := a.key?.isSome = true ∧ a.key? = b.key?

instance (a b : Addition α) : Decidable (a.SameKey b) := inferInstanceAs (Decidable (_ ∧ _))

/-- Additions in another order: what comes at `i` is what came at `σ i`. -/
def reorder (adds : List (Addition α)) (σ : Equiv.Perm (Fin adds.length)) : List (Addition α) :=
  List.ofFn fun i => adds.get (σ i)

/-- Whether another order leaves additions with the same key in theirs. -/
def KeepsKeyOrder (adds : List (Addition α)) (σ : Equiv.Perm (Fin adds.length)) : Prop :=
  ∀ i j, i < j → (adds.get (σ i)).SameKey (adds.get (σ j)) → σ i < σ j

instance (adds : List (Addition α)) (σ : Equiv.Perm (Fin adds.length)) : Decidable (KeepsKeyOrder adds σ) :=
  inferInstanceAs (Decidable (∀ _, _))

/-! ## Positions -/

/-- A list of positions that is increasing, also once they are moved, is moved to the increasing list
of the same positions. -/
theorem map_eq_of_increasing {n : Nat} {f : Fin n → Fin n} {l l' : List (Fin n)} (hl : l.Pairwise (· < ·))
    (hl' : l'.Pairwise (· < ·)) (hf : ∀ i ∈ l, ∀ j ∈ l, i < j → f i < f j)
    (hmem : ∀ j, j ∈ l.map f ↔ j ∈ l') : l.map f = l' := by
  have hmap : (l.map f).Pairwise (· < ·) := by
    rw [List.pairwise_map]
    exact hl.imp_of_mem fun hi hj hlt => hf _ hi _ hj hlt
  have hperm : (l.map f).Perm l' :=
    (List.perm_ext_iff_of_nodup (hmap.imp Fin.ne_of_lt) (hl'.imp Fin.ne_of_lt)).2 hmem
  exact hperm.eq_of_pairwise (fun i j _ _ hlt hgt => absurd (Fin.lt_trans hlt hgt) (Fin.lt_irrefl i)) hmap hl'

theorem mem_take_finRange_iff {n a : Nat} {i : Fin n} : i ∈ (List.finRange n).take a ↔ i.val < a := by
  rw [List.mem_take_iff_getElem]
  constructor
  · rintro ⟨j, hj, rfl⟩
    simp only [List.length_finRange] at hj
    simp only [List.getElem_finRange, Fin.val_cast]
    omega
  · intro hi
    exact ⟨i.val, by simp [hi], by simp⟩

/-- The positions in a list of additions, up to some place, at which a key is found. -/
def positions (k : Key) {n : Nat} (adds : Fin n → Addition α) (place : Nat) : List (Fin n) :=
  ((List.finRange n).take place).filter fun i => (adds i).key? = some k

theorem pairwise_positions (k : Key) {n : Nat} (adds : Fin n → Addition α) (place : Nat) :
    (positions k adds place).Pairwise (· < ·) :=
  ((List.pairwise_lt_finRange n).take).filter _

theorem mem_positions_iff {k : Key} {n : Nat} {adds : Fin n → Addition α} {place : Nat} {i : Fin n} :
    i ∈ positions k adds place ↔ i.val < place ∧ (adds i).key? = some k := by
  rw [positions, List.mem_filter, mem_take_finRange_iff, decide_eq_true_eq]

/-- The contenders for a key are the routes at its positions. -/
theorem contenders_take_ofFn (k : Key) {n : Nat} (adds : Fin n → Addition α) (place : Nat) :
    contenders k ((List.ofFn adds).take place) = ((positions k adds place).map adds).filterMap route? := by
  rw [contenders_eq_filterMap, List.ofFn_eq_map, ← List.map_take, List.filter_map, positions]
  rfl

/-- Where one place of the new order has the same additions with a key before it as a place of the old
one, the same routes contend for the key there. -/
theorem contenders_take_reorder {adds : List (Addition α)} {σ : Equiv.Perm (Fin adds.length)}
    (hσ : KeepsKeyOrder adds σ) {k : Key} {place place' : Nat}
    (h : ∀ i : Fin adds.length, (adds.get (σ i)).key? = some k → (i.val < place ↔ (σ i).val < place')) :
    contenders k ((reorder adds σ).take place) = contenders k (adds.take place') := by
  have hpositions : (positions k (fun i => adds.get (σ i)) place).map σ = positions k adds.get place' := by
    refine map_eq_of_increasing (pairwise_positions ..) (pairwise_positions ..) (fun i hi j hj hlt => ?_)
      fun j => ?_
    · have hki := (mem_positions_iff.1 hi).2
      have hkj := (mem_positions_iff.1 hj).2
      exact hσ i j hlt ⟨by rw [hki]; rfl, hki.trans hkj.symm⟩
    · rw [List.mem_map, mem_positions_iff]
      constructor
      · rintro ⟨i, hi, rfl⟩
        obtain ⟨hlt, hk⟩ := mem_positions_iff.1 hi
        exact ⟨(h i hk).1 hlt, hk⟩
      · rintro ⟨hlt, hk⟩
        refine ⟨σ.symm j, mem_positions_iff.2 ?_, σ.apply_symm_apply j⟩
        have hk' : (adds.get (σ (σ.symm j))).key? = some k := by rwa [σ.apply_symm_apply]
        exact ⟨(h _ hk').2 (by rwa [σ.apply_symm_apply]), hk'⟩
  have hold := contenders_take_ofFn k adds.get place'
  rw [List.ofFn_get] at hold
  rw [reorder, contenders_take_ofFn, hold, ← hpositions, List.map_map]
  rfl

end Addition

namespace Router.Builder

open Addition

/-- Whatever order additions are made in that keeps those with the same key in theirs, each of them comes to
the same, errors included, and the routers built give the same answers. -/
theorem sameAnswers_of_reorder (settings : Settings) (adds : List (Addition α))
    (σ : Equiv.Perm (Fin adds.length)) (hσ : KeepsKeyOrder adds σ) :
    let start := (create settings : Logged (Builder α)).value
    (∀ i : Fin adds.length, ∃ result,
      (start.outcomes (reorder adds σ))[i.val]? = some result ∧ (start.outcomes adds)[(σ i).val]? = some result) ∧
    SameAnswers (start.addAll (reorder adds σ)).build (start.addAll adds).build := by
  intro start
  refine ⟨fun i => ⟨(start.addAll (adds.take (σ i))).outcome (adds.get (σ i)), ?_, ?_⟩, ?_⟩
  · have hsame : (start.addAll ((reorder adds σ).take i)).outcome (adds.get (σ i)) =
        (start.addAll (adds.take (σ i))).outcome (adds.get (σ i)) := by
      refine outcome_congr (by rw [policy_addAll, policy_addAll]) fun k hk => ?_
      rw [at?_addAll, at?_addAll, contenders_take_reorder hσ]
      -- of two additions with the key the one that came first still comes first
      intro j hkj
      constructor
      · intro hlt
        exact hσ j i hlt ⟨by rw [hkj]; rfl, hkj.trans hk.symm⟩
      · intro hlt
        rcases Nat.lt_trichotomy j.val i.val with hji | heq | hij
        · exact hji
        · exact absurd hlt (by rw [Fin.ext heq]; exact Nat.lt_irrefl _)
        · exact absurd (hσ i j hij ⟨by rw [hk]; rfl, hk.trans hkj.symm⟩) (Nat.lt_asymm hlt)
    rw [getElem?_outcomes, ← hsame]
    simp [reorder]
  · rw [getElem?_outcomes]
    simp
  · refine sameAnswers_of_holder_eq fun k => ?_
    have h : contenders k ((reorder adds σ).take adds.length) = contenders k (adds.take adds.length) :=
      contenders_take_reorder hσ fun i _ => by simp
    rw [List.take_of_length_le (by simp [reorder]), List.take_length] at h
    rw [h]

/-- An addition that is turned away still is, for the same route, when the two before it change places. -/
theorem sameAnswers_of_swap :
    let get : Method := ⟨"GET", by decide⟩
    let adds : List (Addition Nat) := [⟨get, "/{a}", 1⟩, ⟨get, "/x", 2⟩, ⟨get, "{b}", 3⟩]
    let swapped : List (Addition Nat) := [⟨get, "/x", 2⟩, ⟨get, "/{a}", 1⟩, ⟨get, "{b}", 3⟩]
    let start := (create ⟨.strict⟩ : Logged (Builder Nat)).value
    (start.outcomes swapped)[2]? = some (.error (.duplicateRoute get "{b}" "/{a}")) ∧
      SameAnswers (start.addAll swapped).build (start.addAll adds).build := by
  intro get adds swapped start
  have hσ : KeepsKeyOrder adds (Equiv.swap (0 : Fin 3) 1) := by decide +kernel
  have hswapped : reorder adds (Equiv.swap (0 : Fin 3) 1) = swapped := by rfl
  obtain ⟨houtcomes, hsame⟩ := sameAnswers_of_reorder ⟨.strict⟩ adds (Equiv.swap (0 : Fin 3) 1) hσ
  rw [hswapped] at houtcomes hsame
  have hlast : (start.outcomes adds)[2]? = some (.error (.duplicateRoute get "{b}" "/{a}")) := by
    have hparse : Pattern.parse "{b}" = .ok ⟨"{b}", [.parameter "b"], none⟩ := by rfl
    rw [getElem?_outcomes]
    show some ((start.addAll (adds.take 2)).outcome ⟨get, "{b}", 3⟩) = _
    rw [outcome_of_ok hparse]
    dsimp only [start, adds, get]
    rfl
  obtain ⟨result, hthere, hhere⟩ := houtcomes 2
  exact ⟨hthere.trans (hhere.symm.trans hlast), hsame⟩

end Router.Builder

end PathRouter
