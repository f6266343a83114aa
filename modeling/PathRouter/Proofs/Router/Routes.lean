/-
Routes without a tree, and the histories of builders. Of a list of additions those are admitted whose
pattern can be read and, under the strict policy, whose key no admitted one has (`Route.admitted`);
those survive that no later admitted one with the same key takes the place of (`Route.surviving`).
`Tree.Holds` says that the entries of a tree are exactly the routes of a list. `holds_addAll` carries
it through every history, so builders accept what is admitted and hold what survives; finalizing the tree
keeps it, so the router that is built holds the same (`holds_build`).
-/
import PathRouter.Proofs.Node.Maps
import PathRouter.Proofs.Pattern.RoundTrip
import PathRouter.Router.Builder

namespace PathRouter

variable {φ : Phase} {α : Type}

/-- What tells routes apart. -/
structure Key where
  method : Method
  /-- The segments of the pattern, with the names of the parameters left out. -/
  steps : List Step
  customMethod : Option String
deriving DecidableEq

/-- The slot of a key at the node that its steps lead to. -/
def Key.slot (k : Key) : Slot := ⟨k.customMethod, k.method⟩

/-- A route whose pattern has been read. -/
structure Route (α : Type) where
  method : Method
  pattern : Pattern
  value : α

namespace Route

def key (r : Route α) : Key := ⟨r.method, r.pattern.steps, r.pattern.customMethod⟩

theorem key_eq_iff {r s : Route α} :
    r.key = s.key ↔
      r.method = s.method ∧ r.pattern.steps = s.pattern.steps ∧ r.pattern.customMethod = s.pattern.customMethod := by
  rw [key, key, Key.mk.injEq]

def terminal (r : Route α) : Terminal α := Tree.terminalOf r.pattern r.value

/-- The routes of a list that no later one with the same key takes the place of. -/
def latest : List (Route α) → List (Route α)
  | [] => []
  | r :: later => if r.key ∈ later.map key then latest later else r :: latest later

theorem mem_latest_concat {r s : Route α} :
    ∀ {routes : List (Route α)}, s ∈ latest (routes ++ [r]) ↔ s = r ∨ s ∈ latest routes ∧ s.key ≠ r.key
  | [] => by simp [latest]
  | x :: routes => by
    have ih := @mem_latest_concat r s routes
    simp only [List.cons_append, latest, List.map_append, List.mem_append, List.map_cons, List.map_nil,
      List.mem_singleton]
    by_cases hmem : x.key ∈ routes.map key
    · simp only [hmem, true_or, if_true]
      exact ih
    · simp only [hmem, false_or, if_false]
      -- the new route takes the place of `x` exactly when the keys agree
      by_cases hkey : x.key = r.key
      · rw [if_pos hkey, ih]
        constructor
        · rintro (h | h)
          · exact .inl h
          · exact .inr ⟨List.mem_cons_of_mem _ h.1, h.2⟩
        · rintro (h | ⟨h, hne⟩)
          · exact .inl h
          · rcases List.mem_cons.1 h with rfl | h
            · exact absurd hkey hne
            · exact .inr ⟨h, hne⟩
      · rw [if_neg hkey, List.mem_cons, ih]
        constructor
        · rintro (rfl | h | h)
          · exact .inr ⟨List.mem_cons_self .., hkey⟩
          · exact .inl h
          · exact .inr ⟨List.mem_cons_of_mem _ h.1, h.2⟩
        · rintro (h | ⟨h, hne⟩)
          · exact .inr (.inl h)
          · rcases List.mem_cons.1 h with rfl | h
            · exact .inl rfl
            · exact .inr (.inr ⟨h, hne⟩)

theorem mem_map_key_latest {k : Key} :
    ∀ {routes : List (Route α)}, k ∈ (latest routes).map key ↔ k ∈ routes.map key
  | [] => Iff.rfl
  | r :: routes => by
    have ih := @mem_map_key_latest k routes
    unfold latest
    split
    · next hr =>
      rw [ih, List.map_cons, List.mem_cons]
      constructor
      · exact .inr
      · rintro (rfl | h)
        · exact hr
        · exact h
    · rw [List.map_cons, List.map_cons, List.mem_cons, List.mem_cons, ih]

end Route

/-! ## Histories -/

/-- A route on its way into a router, its pattern as it is written. -/
structure Addition (α : Type) where
  method : Method
  pattern : String
  value : α

/-- The route that an addition is of, if its pattern can be read. -/
def Addition.route? (a : Addition α) : Option (Route α) :=
  match Pattern.parse a.pattern with
  | .ok p => some ⟨a.method, p, a.value⟩
  | .error _ => none

namespace Route

/-- Whether a route is turned away where those of `past` were admitted before. -/
def Refused (policy : Duplicates) (past : List (Route α)) (r : Route α) : Prop :=
  policy = .strict ∧ r.key ∈ past.map key

instance (policy : Duplicates) (past : List (Route α)) (r : Route α) : Decidable (r.Refused policy past) :=
  inferInstanceAs (Decidable (_ ∧ _))

/-- The routes that are admitted where those of `past` were before. -/
def admitted (policy : Duplicates) (past : List (Route α)) : List (Addition α) → List (Route α)
  | [] => []
  | a :: adds =>
    match a.route? with
    | none => admitted policy past adds
    | some r =>
      if r.Refused policy past then admitted policy past adds else r :: admitted policy (past ++ [r]) adds

/-- The routes that a list of additions leaves. -/
def surviving (policy : Duplicates) (adds : List (Addition α)) : List (Route α) :=
  latest (admitted policy [] adds)

end Route

namespace Router.Builder

/-- The builder after an addition, which may fail and then leaves it as it was. -/
def take (b : Builder α) (a : Addition α) : Builder α :=
  match (b.add a.method a.pattern a.value).value with
  | .ok b' => b'
  | .error _ => b

/-- The builder after a history of additions. -/
def addAll (b : Builder α) (adds : List (Addition α)) : Builder α := adds.foldl take b

/-- The routes of the additions that did not fail, in their order. -/
def accepted (b : Builder α) : List (Addition α) → List (Route α)
  | [] => []
  | a :: adds =>
    match (b.add a.method a.pattern a.value).value with
    | .ok b' => a.route?.toList ++ b'.accepted adds
    | .error _ => b.accepted adds

theorem value_addPattern (b : Builder α) (m : Method) (p : Pattern) (v : α) :
    (b.addPattern m p v).value =
      match (b.tree.insert b.policy m p v).error? with
      | some e => .error e
      | none => .ok { b with tree := (b.tree.insert b.policy m p v).state } := by
  cases he : (b.tree.insert b.policy m p v).error? <;> simp [addPattern, he]

/-- An addition succeeds when its pattern is read and the tree takes the route. -/
theorem value_add_eq_ok_iff {b b' : Builder α} {m : Method} {text : String} {v : α} :
    (b.add m text v).value = .ok b' ↔
      ∃ p, Pattern.parse text = .ok p ∧ (b.tree.insert b.policy m p v).error? = none ∧
        b' = { b with tree := (b.tree.insert b.policy m p v).state } := by
  unfold add Pattern.ofString
  rw [Logged.value_bind]
  cases hp : Pattern.parse text with
  | error e =>
    constructor
    · intro h
      cases h
    · rintro ⟨p, hp', -⟩
      cases hp'
  | ok p =>
    show (b.addPattern m p v).value = .ok b' ↔ _
    rw [value_addPattern]
    cases he : (b.tree.insert b.policy m p v).error? with
    | none =>
      constructor
      · intro h
        cases h
        exact ⟨p, rfl, he, rfl⟩
      · rintro ⟨p', hp', -, rfl⟩
        cases hp'
        rfl
    | some e =>
      constructor
      · intro h
        cases h
      · rintro ⟨p', hp', he', -⟩
        cases hp'
        rw [he] at he'
        cases he'

end Router.Builder

/-! ## Trees and routes -/

namespace Tree

/-- The terminal that a tree has for a key. -/
def at? (t : Tree φ α) (k : Key) : Option (Terminal α) := t.root.at? k.steps k.slot

/-- The routes of a list are what a tree holds. -/
structure Holds (t : Tree φ α) (routes : List (Route α)) : Prop where
  entry : ∀ k terminal, t.at? k = some terminal ↔ ∃ r ∈ routes, r.key = k ∧ r.terminal = terminal
  distinct : ∀ r ∈ routes, ∀ s ∈ routes, r.key = s.key → r = s
  parsed : ∀ r ∈ routes, Pattern.parse r.pattern.text = .ok r.pattern
  methods : ∀ m, m ∈ t.methods ↔ ∃ r ∈ routes, r.method = m
  maps : t.root.Everywhere Node.DistinctKeys

theorem holds_empty : (empty : Tree .growing α).Holds [] :=
  ⟨by simp [at?, empty], by simp, by simp, by simp [empty], Node.everywhere_distinctKeys_empty⟩

theorem at?_finalize {t : Tree .growing α} (h : t.root.Everywhere Node.DistinctKeys) (k : Key) :
    t.finalize.at? k = t.at? k :=
  Node.at?_finalize h k.steps k.slot

/-- A finalized tree holds the routes of the tree that has grown. -/
theorem Holds.finalize {t : Tree .growing α} {routes : List (Route α)} (ht : t.Holds routes) :
    t.finalize.Holds routes where
  entry k terminal := by rw [at?_finalize ht.maps]; exact ht.entry k terminal
  distinct := ht.distinct
  parsed := ht.parsed
  methods := ht.methods
  maps := Node.everywhere_distinctKeys_finalize ht.maps

/-- Terminals keep the text of their pattern, so they tell the routes of a method apart. -/
theorem Holds.eq_of_terminal_eq {t : Tree φ α} {routes : List (Route α)} (ht : t.Holds routes) {r s : Route α}
    (hr : r ∈ routes) (hs : s ∈ routes) (hmethod : r.method = s.method) (h : r.terminal = s.terminal) : r = s := by
  have htext : r.pattern.text = s.pattern.text := congrArg Terminal.pattern h
  have hparsed := ht.parsed r hr
  rw [htext, ht.parsed s hs] at hparsed
  have hpattern : s.pattern = r.pattern := Except.ok.inj hparsed
  exact ht.distinct r hr s hs (Route.key_eq_iff.2 ⟨hmethod, by rw [hpattern], by rw [hpattern]⟩)

theorem error?_insert (policy : Duplicates) (t : Tree .growing α) (m : Method) (p : Pattern) (v : α) :
    (t.insert policy m p v).error? =
      Node.refusal policy (slotOf m p) (terminalOf p v) (t.at? ⟨m, p.steps, p.customMethod⟩) :=
  Node.error?_growAt_occupy ..

/-- A route that is taken fills the entry of its key, and no other. -/
theorem at?_insert {policy : Duplicates} {t : Tree .growing α} {m : Method} {p : Pattern} {v : α}
    (h : (t.insert policy m p v).error? = none) (k : Key) :
    (t.insert policy m p v).state.at? k =
      if (⟨m, p.steps, p.customMethod⟩ : Key) = k then some (terminalOf p v) else t.at? k := by
  unfold at?
  rw [insert_root, Node.at?_growAt_occupy]
  have hkey : ((t.root.growAt (Node.occupy policy (slotOf m p) (terminalOf p v)) p.steps).error? = none ∧
      p.steps = k.steps ∧ slotOf m p = k.slot) ↔ (⟨m, p.steps, p.customMethod⟩ : Key) = k := by
    obtain ⟨m', steps, custom⟩ := k
    simp only [slotOf, Key.slot, Slot.mk.injEq, Key.mk.injEq]
    constructor
    · rintro ⟨-, hs, hc, hm⟩
      exact ⟨hm, hs, hc⟩
    · rintro ⟨hm, hs, hc⟩
      exact ⟨h, hs, hc, hm⟩
  simp only [hkey]

section Taken

variable {policy : Duplicates} {t : Tree .growing α} {past : List (Route α)} {r : Route α}

/-- The entries once a route is taken are those of the routes that are then the latest. -/
theorem Holds.at?_insert_eq_some_iff (ht : t.Holds (Route.latest past))
    (h : (t.insert policy r.method r.pattern r.value).error? = none) {k : Key} {terminal : Terminal α} :
    (t.insert policy r.method r.pattern r.value).state.at? k = some terminal ↔
      ∃ s ∈ Route.latest (past ++ [r]), s.key = k ∧ s.terminal = terminal := by
  rw [at?_insert h]
  simp only [Route.mem_latest_concat]
  by_cases hk : r.key = k
  · subst hk
    rw [if_pos (by rfl)]
    constructor
    · intro ht
      exact ⟨r, .inl rfl, rfl, Option.some.inj ht⟩
    · rintro ⟨s, rfl | ⟨-, hne⟩, hs, rfl⟩
      · rfl
      · exact absurd hs hne
  · rw [if_neg (show ¬ (⟨r.method, r.pattern.steps, r.pattern.customMethod⟩ : Key) = k from hk), ht.entry]
    constructor
    · rintro ⟨s, hs, rfl, rfl⟩
      exact ⟨s, .inr ⟨hs, Ne.symm hk⟩, rfl, rfl⟩
    · rintro ⟨s, rfl | ⟨hs, -⟩, hsk, hst⟩
      · exact absurd hsk hk
      · exact ⟨s, hs, hsk, hst⟩

theorem Holds.mem_methods_insert_iff (ht : t.Holds (Route.latest past))
    (h : (t.insert policy r.method r.pattern r.value).error? = none) {m : Method} :
    m ∈ (t.insert policy r.method r.pattern r.value).state.methods ↔
      ∃ s ∈ Route.latest (past ++ [r]), s.method = m := by
  rw [mem_insert_methods h, ht.methods]
  simp only [Route.mem_latest_concat]
  constructor
  · rintro (⟨s, hs, rfl⟩ | rfl)
    · -- a route that is replaced leaves its method to the new one
      by_cases hk : s.key = r.key
      · exact ⟨r, .inl rfl, (congrArg Key.method hk).symm⟩
      · exact ⟨s, .inr ⟨hs, hk⟩, rfl⟩
    · exact ⟨r, .inl rfl, rfl⟩
  · rintro ⟨s, rfl | ⟨hs, -⟩, rfl⟩
    · exact .inr rfl
    · exact .inl ⟨s, hs, rfl⟩

/-- Taking a route keeps tree and routes in step. -/
theorem Holds.insert (ht : t.Holds (Route.latest past)) (hparse : Pattern.parse r.pattern.text = .ok r.pattern)
    (h : (t.insert policy r.method r.pattern r.value).error? = none) :
    (t.insert policy r.method r.pattern r.value).state.Holds (Route.latest (past ++ [r])) := by
  refine ⟨fun k terminal => ht.at?_insert_eq_some_iff h, ?_, ?_, fun m => ht.mem_methods_insert_iff h,
    Node.everywhere_distinctKeys_growAt_occupy _ _ _ _ ht.maps⟩
  · intro a ha b hb hab
    rw [Route.mem_latest_concat] at ha hb
    rcases ha with rfl | ⟨ha, hane⟩
    · rcases hb with rfl | ⟨-, hbne⟩
      · rfl
      · exact absurd hab.symm hbne
    · rcases hb with rfl | ⟨hb, -⟩
      · exact absurd hab hane
      · exact ht.distinct a ha b hb hab
  · intro s hs
    rcases Route.mem_latest_concat.1 hs with rfl | ⟨hs, -⟩
    · exact hparse
    · exact ht.parsed s hs

end Taken

/-- A tree takes the routes that are not refused. -/
theorem Holds.error?_insert_eq_none_iff {t : Tree .growing α} {past : List (Route α)}
    (ht : t.Holds (Route.latest past)) {policy : Duplicates} {r : Route α} :
    (t.insert policy r.method r.pattern r.value).error? = none ↔ ¬ r.Refused policy past := by
  have hkey : t.at? r.key ≠ none ↔ r.key ∈ past.map Route.key := by
    rw [← Route.mem_map_key_latest, List.mem_map, Option.ne_none_iff_exists']
    simp only [ht.entry]
    constructor
    · rintro ⟨_, s, hs, hk, -⟩
      exact ⟨s, hs, hk⟩
    · rintro ⟨s, hs, hk⟩
      exact ⟨_, s, hs, hk, rfl⟩
  rw [error?_insert, show (⟨r.method, r.pattern.steps, r.pattern.customMethod⟩ : Key) = r.key from rfl]
  unfold Route.Refused Node.refusal
  rw [← hkey]
  cases t.at? r.key with
  | none => simp
  | some former => cases policy <;> simp

end Tree

namespace Router.Builder

theorem holds_create (settings : Settings) : (create settings : Logged (Builder α)).value.tree.Holds [] :=
  Tree.holds_empty

theorem accepted_cons (b : Builder α) (a : Addition α) (adds : List (Addition α)) :
    b.accepted (a :: adds) =
      match (b.add a.method a.pattern a.value).value with
      | .ok b' => a.route?.toList ++ b'.accepted adds
      | .error _ => b.accepted adds := rfl

theorem addAll_cons (b : Builder α) (a : Addition α) (adds : List (Addition α)) :
    b.addAll (a :: adds) = (b.take a).addAll adds := rfl

/-- A route that is not refused is taken. -/
theorem exists_value_add_eq_ok {b : Builder α} {past : List (Route α)} (h : b.tree.Holds (Route.latest past))
    {a : Addition α} {r : Route α} (hr : a.route? = some r) (hnew : ¬ r.Refused b.policy past) :
    ∃ b', (b.add a.method a.pattern a.value).value = .ok b' ∧ b'.policy = b.policy ∧
      b'.tree.Holds (Route.latest (past ++ [r])) := by
  unfold Addition.route? at hr
  split at hr
  · next p hp =>
    cases hr
    have herr := h.error?_insert_eq_none_iff.2 hnew
    refine ⟨_, value_add_eq_ok_iff.2 ⟨p, hp, herr, rfl⟩, rfl, ?_⟩
    exact h.insert (r := ⟨a.method, p, a.value⟩) (by rwa [Pattern.text_of_parse hp]) herr
  · cases hr

/-- An addition whose pattern cannot be read, or whose route is refused, fails. -/
theorem exists_value_add_eq_error {b : Builder α} {past : List (Route α)} (h : b.tree.Holds (Route.latest past))
    {a : Addition α} (hrefused : ∀ r, a.route? = some r → r.Refused b.policy past) :
    ∃ e, (b.add a.method a.pattern a.value).value = .error e := by
  cases hadd : (b.add a.method a.pattern a.value).value with
  | error e => exact ⟨e, rfl⟩
  | ok b' =>
    obtain ⟨p, hp, herr, -⟩ := value_add_eq_ok_iff.1 hadd
    have hroute : a.route? = some ⟨a.method, p, a.value⟩ := by simp [Addition.route?, hp]
    exact absurd (hrefused _ hroute) (h.error?_insert_eq_none_iff.1 herr)

/-- Whatever is added, a builder accepts the routes that are admitted, and its tree holds those of
them that were not replaced. -/
theorem holds_addAll (adds : List (Addition α)) :
    ∀ (b : Builder α) (past : List (Route α)), b.tree.Holds (Route.latest past) →
      b.accepted adds = Route.admitted b.policy past adds ∧
        (b.addAll adds).tree.Holds (Route.latest (past ++ Route.admitted b.policy past adds)) := by
  induction adds with
  | nil =>
    intro b past h
    exact ⟨rfl, by simpa [addAll, Route.admitted] using h⟩
  | cons a adds ih =>
    intro b past h
    rw [accepted_cons, addAll_cons]
    unfold take Route.admitted
    cases hr : a.route? with
    | none =>
      obtain ⟨e, he⟩ := exists_value_add_eq_error h (a := a) (by simp [hr])
      rw [he]
      exact ih b past h
    | some r =>
      by_cases hrefused : r.Refused b.policy past
      · obtain ⟨e, he⟩ := exists_value_add_eq_error h (a := a) (by simp [hr, hrefused])
        rw [he]
        simp only [hrefused, if_true]
        exact ih b past h
      · obtain ⟨b', hb', hpolicy, hholds⟩ := exists_value_add_eq_ok h hr hrefused
        rw [hb']
        simp only [hrefused, if_false]
        obtain ⟨hacc, hall⟩ := ih b' _ hholds
        rw [hpolicy] at hacc hall
        exact ⟨by rw [hacc]; rfl, by rwa [List.append_assoc] at hall⟩

/-- A new builder accepts the routes that are admitted. -/
theorem accepted_eq_admitted (settings : Settings) (adds : List (Addition α)) :
    (create settings : Logged (Builder α)).value.accepted adds = Route.admitted settings.duplicates [] adds :=
  (holds_addAll adds _ [] (holds_create settings)).1

/-- After any additions, the tree of a new builder holds the routes that survive them. -/
theorem holds_surviving (settings : Settings) (adds : List (Addition α)) :
    ((create settings : Logged (Builder α)).value.addAll adds).tree.Holds
      (Route.surviving settings.duplicates adds) :=
  (holds_addAll adds _ [] (holds_create settings)).2

/-- So does the tree of the router that is built. -/
theorem holds_build (settings : Settings) (adds : List (Addition α)) :
    ((create settings : Logged (Builder α)).value.addAll adds).build.tree.Holds
      (Route.surviving settings.duplicates adds) :=
  (holds_surviving settings adds).finalize

end Router.Builder

end PathRouter
