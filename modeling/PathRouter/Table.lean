/-
Finite maps that keep their keys in the order of first arrival. `get?` reads the first entry of a
key; `put` replaces the value there, or appends an entry when the key is new. The view of a table is
the function `get?`: `get?_put` says all that `put` does to it, `get?_mapValues` that collecting changed
values under the same keys changes nothing else, and `sameAs_iff` that two tables are the same map
exactly when they agree on every key, whatever the order of their entries.
-/
namespace PathRouter

universe u v w

/-- A finite map, as the list of its entries. -/
structure Table (κ : Type u) (ν : Type v) where
  entries : List (κ × ν)

namespace Table

variable {κ : Type u} {ν : Type v}

/-- The map with no entry. -/
def empty : Table κ ν := ⟨[]⟩

/-- The keys, in order of first arrival. -/
def keys (t : Table κ ν) : List κ := t.entries.map Prod.fst

section Lookup

variable [DecidableEq κ]

/-- The value of the first entry for `k` in a list of entries. -/
def find? (k : κ) : List (κ × ν) → Option ν
  | [] => none
  | (j, w) :: rest => if j = k then some w else find? k rest

/-- The list of entries with the value at `k` replaced, or with a new last entry. -/
def replace (k : κ) (v : ν) : List (κ × ν) → List (κ × ν)
  | [] => [(k, v)]
  | (j, w) :: rest => if j = k then (j, v) :: rest else (j, w) :: replace k v rest

/-- The value held for `k`. -/
def get? (t : Table κ ν) (k : κ) : Option ν := find? k t.entries

/-- The map that holds `v` for `k` and is otherwise `t`. -/
def put (t : Table κ ν) (k : κ) (v : ν) : Table κ ν := ⟨replace k v t.entries⟩

/-- The map of a list of pairs; of two pairs with one key the later one counts. -/
def ofList (pairs : List (κ × ν)) : Table κ ν :=
  pairs.foldl (fun t p => t.put p.1 p.2) empty

/-- The map with `f` applied to each value, collected entry by entry. -/
def mapValues {ω : Type w} (f : ν → ω) (t : Table κ ν) : Table κ ω :=
  ofList (t.entries.map fun e => (e.1, f e.2))

/-- Whether two tables are the same map, the order of entries aside. -/
def sameAs [BEq ν] (s t : Table κ ν) : Bool :=
  (s.keys ++ t.keys).all fun k => s.get? k == t.get? k

/-! ## Reading back -/

@[simp]
theorem get?_empty (k : κ) : (empty : Table κ ν).get? k = none := rfl

theorem find?_replace (k j : κ) (v : ν) (es : List (κ × ν)) :
    find? j (replace k v es) = if k = j then some v else find? j es := by
  induction es with
  | nil => simp [replace, find?]
  | cons e rest ih =>
    obtain ⟨i, w⟩ := e
    by_cases hik : i = k
    · by_cases hkj : k = j <;> simp [replace, find?, hik, hkj]
    · by_cases hij : i = j
      · have hkj : k ≠ j := fun h => hik (hij.trans h.symm)
        simp [replace, find?, hij, hkj, Ne.symm hkj]
      · simp [replace, find?, hik, hij, ih]

theorem get?_put (t : Table κ ν) (k j : κ) (v : ν) :
    (t.put k v).get? j = if k = j then some v else t.get? j :=
  find?_replace k j v t.entries

@[simp]
theorem get?_put_self (t : Table κ ν) (k : κ) (v : ν) : (t.put k v).get? k = some v := by
  simp [get?_put]

theorem replace_of_find? {k : κ} {v : ν} {es : List (κ × ν)} (h : find? k es = some v) :
    replace k v es = es := by
  induction es with
  | nil => simp [find?] at h
  | cons e rest ih =>
    obtain ⟨i, w⟩ := e
    by_cases hik : i = k
    · simp_all [find?, replace]
    · simp_all [find?, replace]

/-- Writing what is already held changes nothing. -/
theorem put_of_get? {t : Table κ ν} {k : κ} {v : ν} (h : t.get? k = some v) : t.put k v = t := by
  cases t
  exact congrArg Table.mk (replace_of_find? h)

theorem replace_replace (k : κ) (v w : ν) (es : List (κ × ν)) :
    replace k w (replace k v es) = replace k w es := by
  induction es with
  | nil => simp [replace]
  | cons e rest ih =>
    obtain ⟨i, u⟩ := e
    by_cases hik : i = k
    · simp [replace, hik]
    · simp [replace, hik, ih]

/-- Of two values written for one key the later one counts. -/
theorem put_put (t : Table κ ν) (k : κ) (v w : ν) : (t.put k v).put k w = t.put k w :=
  congrArg Table.mk (replace_replace k v w t.entries)

theorem find?_eq_none_iff {k : κ} {es : List (κ × ν)} : find? k es = none ↔ k ∉ es.map Prod.fst := by
  induction es with
  | nil => simp [find?]
  | cons e rest ih =>
    obtain ⟨i, w⟩ := e
    by_cases hik : i = k
    · simp [find?, hik]
    · simp [find?, hik, ih, Ne.symm hik]

theorem get?_eq_none_iff {t : Table κ ν} {k : κ} : t.get? k = none ↔ k ∉ t.keys :=
  find?_eq_none_iff

/-- Two tables pass the comparison exactly when they agree on every key. -/
theorem sameAs_iff [BEq ν] [LawfulBEq ν] {s t : Table κ ν} :
    s.sameAs t = true ↔ ∀ k, s.get? k = t.get? k := by
  simp only [sameAs, List.all_eq_true, beq_iff_eq]
  refine ⟨fun h k => ?_, fun h k _ => h k⟩
  by_cases hk : k ∈ s.keys ++ t.keys
  · exact h k hk
  · rw [List.mem_append, not_or] at hk
    rw [get?_eq_none_iff.2 hk.1, get?_eq_none_iff.2 hk.2]

/-! ## Keys -/

theorem keys_replace (k : κ) (v : ν) (es : List (κ × ν)) :
    (replace k v es).map Prod.fst =
      if k ∈ es.map Prod.fst then es.map Prod.fst else es.map Prod.fst ++ [k] := by
  induction es with
  | nil => simp [replace]
  | cons e rest ih =>
    obtain ⟨i, w⟩ := e
    by_cases hik : i = k
    · simp [replace, hik]
    · by_cases hk : k ∈ rest.map Prod.fst <;> simp_all [replace, Ne.symm hik]

/-- A new key comes last; a key that is already there stays where it is. -/
theorem keys_put (t : Table κ ν) (k : κ) (v : ν) :
    (t.put k v).keys = if k ∈ t.keys then t.keys else t.keys ++ [k] :=
  keys_replace k v t.entries

theorem nodup_keys_put {t : Table κ ν} (h : t.keys.Nodup) (k : κ) (v : ν) : (t.put k v).keys.Nodup := by
  rw [keys_put]
  split
  · exact h
  · next hk =>
    rw [List.nodup_append]
    exact ⟨h, by simp, fun a ha b hb hab => hk (by simp_all)⟩

/-- Where keys are distinct, every entry is found by its key. -/
theorem get?_eq_some_of_mem {t : Table κ ν} (h : t.keys.Nodup) {k : κ} {v : ν} (hmem : (k, v) ∈ t.entries) :
    t.get? k = some v := by
  obtain ⟨es⟩ := t
  unfold keys at h
  show find? k es = some v
  induction es with
  | nil => cases hmem
  | cons e rest ih =>
    obtain ⟨j, w⟩ := e
    rw [List.map_cons, List.nodup_cons] at h
    rcases List.mem_cons.1 hmem with heq | hmem
    · cases heq
      simp [find?]
    · have hne : j ≠ k := by
        rintro rfl
        exact h.1 (List.mem_map.2 ⟨(j, v), hmem, rfl⟩)
      rw [find?, if_neg hne]
      exact ih h.2 hmem

/-! ## Collecting entries -/

theorem replace_of_find?_eq_none {k : κ} {v : ν} {es : List (κ × ν)} (h : find? k es = none) :
    replace k v es = es ++ [(k, v)] := by
  induction es with
  | nil => rfl
  | cons e rest ih =>
    obtain ⟨i, w⟩ := e
    by_cases hik : i = k
    · simp [find?, hik] at h
    · simp only [find?, hik, if_false] at h
      simp [replace, hik, ih h]

/-- A new key gets an entry of its own. -/
theorem entries_put_of_not_mem {t : Table κ ν} {k : κ} (h : k ∉ t.keys) (v : ν) :
    (t.put k v).entries = t.entries ++ [(k, v)] :=
  replace_of_find?_eq_none (find?_eq_none_iff.2 h)

/-- A list of pairs with distinct keys loses none of them. -/
theorem entries_ofList {pairs : List (κ × ν)} (h : (pairs.map Prod.fst).Nodup) :
    (ofList pairs).entries = pairs := by
  have hfold : ∀ (later : List (κ × ν)) (t : Table κ ν), (t.keys ++ later.map Prod.fst).Nodup →
      (later.foldl (fun t p => t.put p.1 p.2) t).entries = t.entries ++ later := by
    intro later
    induction later with
    | nil => simp
    | cons p later ih =>
      intro t ht
      have hnew : p.1 ∉ t.keys := fun hmem => (List.nodup_append.1 ht).2.2 _ hmem _ (List.mem_cons_self ..) rfl
      have hkeys : (t.put p.1 p.2).keys = t.keys ++ [p.1] := by rw [keys_put, if_neg hnew]
      rw [List.map_cons, List.append_cons, ← hkeys] at ht
      rw [List.foldl_cons, ih _ ht, entries_put_of_not_mem hnew, List.append_assoc, List.singleton_append]
  exact hfold pairs empty h

theorem find?_map {ω : Type w} (f : ν → ω) (k : κ) (es : List (κ × ν)) :
    find? k (es.map fun e => (e.1, f e.2)) = (find? k es).map f := by
  induction es with
  | nil => rfl
  | cons e rest ih =>
    obtain ⟨i, w⟩ := e
    by_cases hik : i = k
    · simp [find?, hik]
    · simp [find?, hik, ih]

section MapValues

variable {ω : Type w} {t : Table κ ν} (h : t.keys.Nodup) (f : ν → ω)
include h

/-- Where no key is there twice, every entry is kept. -/
theorem entries_mapValues : (t.mapValues f).entries = t.entries.map fun e => (e.1, f e.2) :=
  entries_ofList (by simpa [keys, Function.comp_def] using h)

theorem get?_mapValues (k : κ) : (t.mapValues f).get? k = (t.get? k).map f := by
  rw [get?, entries_mapValues h, find?_map, get?]

theorem keys_mapValues : (t.mapValues f).keys = t.keys := by
  rw [keys, entries_mapValues h, List.map_map, keys]
  rfl

end MapValues

end Lookup

end Table

end PathRouter
