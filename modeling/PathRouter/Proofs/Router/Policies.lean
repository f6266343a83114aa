/-
How the two policies relate. A lax builder takes every addition whose pattern can be read, and its
router gives the same answers as that of a strict builder that is spared the additions replaced later.
A strict builder, for its part, ends like a lax one that is given the same additions in reverse: for
each key the first route is then the last.
-/
import PathRouter.Proofs.Router.Contenders

namespace PathRouter

variable {α : Type}

namespace Addition

/-- The additions of a list whose pattern can be read, and whose key no later one has. -/
def lasting : List (Addition α) → List (Addition α)
  | [] => []
  | a :: later => if a.key?.isSome ∧ a.key? ∉ later.map key? then a :: lasting later else lasting later

/-! ## Contenders of a changed list -/

theorem contenders_reverse (k : Key) (adds : List (Addition α)) :
    contenders k adds.reverse = (contenders k adds).reverse := by
  rw [contenders, contenders, List.filterMap_reverse, List.filter_reverse]

/-- Of the routes with a key the last one stays. -/
theorem contenders_lasting (k : Key) (adds : List (Addition α)) :
    contenders k (lasting adds) = (contenders k adds).getLast?.toList := by
  induction adds with
  | nil => rfl
  | cons a later ih =>
    rw [lasting, contenders_cons k a later]
    by_cases hkey : a.key? = some k
    · obtain ⟨r, hr, -⟩ := Option.map_eq_some_iff.1 hkey
      by_cases hlater : some k ∈ later.map key?
      · -- a later route takes the place
        have hne : contenders k later ≠ [] := fun hnil => contenders_eq_nil_iff.1 hnil hlater
        have hlast : (contenders k later).getLast? = some ((contenders k later).getLast hne) :=
          List.getLast?_eq_some_getLast hne
        rw [if_neg (by rw [hkey]; exact fun h => h.2 hlater), if_pos hkey, ih, List.getLast?_append, hlast,
          Option.some_or]
      · have hnil : contenders k later = [] := contenders_eq_nil_iff.2 hlater
        rw [if_pos ⟨by rw [hkey]; rfl, by rwa [hkey]⟩, contenders_cons, if_pos hkey, if_pos hkey, ih, hnil, hr]
        rfl
    · rw [if_neg hkey, ← ih]
      split
      · rw [contenders_cons, if_neg hkey]
      · rfl

theorem mem_of_mem_lasting {a : Addition α} {adds : List (Addition α)} (h : a ∈ lasting adds) : a ∈ adds := by
  induction adds with
  | nil => exact h
  | cons b later ih =>
    rw [lasting] at h
    split at h
    · rcases List.mem_cons.1 h with rfl | h
      · exact List.mem_cons_self ..
      · exact List.mem_cons_of_mem _ (ih h)
    · exact List.mem_cons_of_mem _ (ih h)

/-- The additions that last have keys, and these are distinct. -/
theorem isSome_and_nodup_lasting (adds : List (Addition α)) :
    (∀ a ∈ lasting adds, a.key?.isSome = true) ∧ ((lasting adds).map key?).Nodup := by
  induction adds with
  | nil => simp [lasting]
  | cons a later ih =>
    rw [lasting]
    split
    · next h =>
      refine ⟨List.forall_mem_cons.2 ⟨h.1, ih.1⟩, List.nodup_cons.2 ⟨fun hmem => h.2 ?_, ih.2⟩⟩
      obtain ⟨b, hb, hkey⟩ := List.mem_map.1 hmem
      exact List.mem_map.2 ⟨b, mem_of_mem_lasting hb, hkey⟩
    · exact ih

end Addition

namespace Router.Builder

/-! ## What the additions come to -/

theorem at?_take (b : Builder α) (a : Addition α) (k : Key) :
    (b.take a).tree.at? k =
      b.policy.holder ((b.tree.at? k).toList ++ (Addition.contenders k [a]).map Route.terminal) := by
  have hroutes : a.route?.toList = [a].filterMap Addition.route? := by
    cases h : a.route? <;> simp [h]
  rw [take_eq, hroutes]
  exact Tree.at?_insertAll b.policy k _ b.tree

/-- Under the lax policy nothing is turned away but what cannot be read. -/
theorem outcome_eq_error_iff_of_lax {b : Builder α} (hb : b.policy = .lax) {a : Addition α} {e : Rejection} :
    b.outcome a = .error e ↔
      ∃ fault, Pattern.parse a.pattern = .error fault ∧ e = .invalidPattern a.pattern fault := by
  cases hp : Pattern.parse a.pattern with
  | error fault => simp [outcome_of_error hp, eq_comm]
  | ok p =>
    rw [outcome_of_ok hp, hb]
    cases b.tree.at? ⟨a.method, p.steps, p.customMethod⟩ <;> simp [Node.refusal]

/-- Additions with distinct keys that nothing is held for all succeed, whatever the policy. -/
theorem outcomes_of_nodup (adds : List (Addition α)) :
    ∀ b : Builder α, (∀ a ∈ adds, a.key?.isSome = true) → (adds.map Addition.key?).Nodup →
      (∀ k, some k ∈ adds.map Addition.key? → b.tree.at? k = none) →
        b.outcomes adds = adds.map fun _ => .ok () := by
  induction adds with
  | nil => exact fun _ _ _ _ => rfl
  | cons a adds ih =>
    intro b hsome hnodup hfree
    rw [List.forall_mem_cons] at hsome
    rw [List.map_cons, List.nodup_cons] at hnodup
    obtain ⟨key, hkey⟩ := Option.isSome_iff_exists.1 hsome.1
    have hfirst : b.outcome a = .ok () := by
      cases hp : Pattern.parse a.pattern with
      | error fault => simp [Addition.key?, Addition.route?, hp] at hkey
      | ok p =>
        have hmem : some ⟨a.method, p.steps, p.customMethod⟩ ∈ (a :: adds).map Addition.key? := by
          rw [← Addition.key?_of_ok hp]
          exact List.mem_cons_self ..
        rw [outcome_of_ok hp, hfree _ hmem]
        rfl
    have hrest : ∀ k, some k ∈ adds.map Addition.key? → (b.take a).tree.at? k = none := by
      intro k hk
      have hne : a.key? ≠ some k := fun heq => hnodup.1 (heq ▸ hk)
      rw [at?_take, hfree k (List.mem_cons_of_mem _ hk), Addition.contenders_cons, if_neg hne]
      cases b.policy <;> rfl
    rw [outcomes, List.map_cons, hfirst, ih (b.take a) hsome.2 hnodup.2 hrest]

/-- A new lax builder turns an addition away exactly when its pattern cannot be read. Its router gives the
same answers as that of a new strict builder to which only those additions are made whose pattern can be
read and which no later one with the same key follows, and which takes all of these. The router of a
strict builder gives the same answers as that of a lax one to which the additions are made in reverse. -/
theorem lax_and_strict_sameAnswers (adds : List (Addition α)) :
    let strict := (create ⟨.strict⟩ : Logged (Builder α)).value
    let lax := (create ⟨.lax⟩ : Logged (Builder α)).value
    let lasting := Addition.lasting adds
    (∀ (i : Nat) e, (lax.outcomes adds)[i]? = some (.error e) ↔
      ∃ a fault, adds[i]? = some a ∧ Pattern.parse a.pattern = .error fault ∧ e = .invalidPattern a.pattern fault) ∧
    strict.outcomes lasting = lasting.map (fun _ => .ok ()) ∧
    SameAnswers (lax.addAll adds).build (strict.addAll lasting).build ∧
    SameAnswers (strict.addAll adds).build (lax.addAll adds.reverse).build := by
  intro strict lax lasting
  refine ⟨fun i e => ?_, ?_, sameAnswers_of_holder_eq fun k => ?_, sameAnswers_of_holder_eq fun k => ?_⟩
  · rw [getElem?_outcomes, Option.map_eq_some_iff]
    have hpolicy : (lax.addAll (adds.take i)).policy = .lax := policy_addAll _ lax
    simp only [outcome_eq_error_iff_of_lax hpolicy, exists_and_left]
  · obtain ⟨hsome, hnodup⟩ := Addition.isSome_and_nodup_lasting adds
    exact outcomes_of_nodup lasting strict hsome hnodup fun k _ => Node.at?_empty k.steps k.slot
  · show (Addition.contenders k adds).getLast? = (Addition.contenders k (Addition.lasting adds)).head?
    rw [Addition.contenders_lasting]
    cases (Addition.contenders k adds).getLast? <;> rfl
  · show (Addition.contenders k adds).head? = (Addition.contenders k adds.reverse).getLast?
    rw [Addition.contenders_reverse, List.getLast?_reverse]

end Router.Builder

end PathRouter
