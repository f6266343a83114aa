/-
The routes that contend for one key. Of these a strict builder holds the first and a lax builder the
last, whatever is added besides (`at?_addAll`). What becomes of a further addition depends on the route
held for its key alone (`outcome_congr`), and the answers of a router on the routes held for all keys
(`sameAnswers_of_holder_eq`).
-/
import PathRouter.Proofs.Router.Allowed

namespace PathRouter

variable {α : Type}

/-! ## Who holds a place -/

namespace Duplicates

variable {β γ : Type}

/-- Of those that come for one place, the one that holds it in the end. -/
def holder (policy : Duplicates) (comers : List β) : Option β :=
  match policy with
  | strict => comers.head?
  | lax => comers.getLast?

@[simp]
theorem holder_toList (policy : Duplicates) (o : Option β) : policy.holder o.toList = o := by
  cases policy <;> cases o <;> rfl

theorem holder_map (policy : Duplicates) (f : β → γ) (comers : List β) :
    policy.holder (comers.map f) = (policy.holder comers).map f := by
  cases policy with
  | strict => exact List.head?_map
  | lax => exact List.getLast?_map

/-- Those that come later contend with the holder only. -/
theorem holder_append (policy : Duplicates) (comers later : List β) :
    policy.holder ((policy.holder comers).toList ++ later) = policy.holder (comers ++ later) := by
  cases policy with
  | strict => cases comers <;> rfl
  | lax =>
    simp only [holder, List.getLast?_append]
    cases comers.getLast? <;> rfl

end Duplicates

namespace Addition

/-- The key of an addition, if its pattern can be read. -/
def key? (a : Addition α) : Option Key := a.route?.map Route.key

/-- The routes of a list of additions that have a key, in their order. -/
def contenders (k : Key) (adds : List (Addition α)) : List (Route α) :=
  (adds.filterMap route?).filter fun r => r.key = k

theorem route?_of_ok {a : Addition α} {p : Pattern} (h : Pattern.parse a.pattern = .ok p) :
    a.route? = some ⟨a.method, p, a.value⟩ := by
  rw [route?, h]

theorem key?_of_ok {a : Addition α} {p : Pattern} (h : Pattern.parse a.pattern = .ok p) :
    a.key? = some ⟨a.method, p.steps, p.customMethod⟩ := by
  rw [key?, route?_of_ok h]
  rfl

theorem contenders_cons (k : Key) (a : Addition α) (adds : List (Addition α)) :
    contenders k (a :: adds) =
      if a.key? = some k then a.route?.toList ++ contenders k adds else contenders k adds := by
  unfold contenders key?
  cases ha : a.route? with
  | none => simp [ha]
  | some r => by_cases hkey : r.key = k <;> simp [ha, hkey]

theorem contenders_eq_nil_iff {k : Key} {adds : List (Addition α)} :
    contenders k adds = [] ↔ some k ∉ adds.map key? := by
  induction adds with
  | nil => simp [contenders]
  | cons a adds ih =>
    rw [contenders_cons, List.map_cons, List.mem_cons, not_or]
    by_cases hkey : a.key? = some k
    · obtain ⟨r, hr, -⟩ := Option.map_eq_some_iff.1 hkey
      simp [hkey, hr]
    · rw [if_neg hkey, ih, and_iff_right (Ne.symm hkey)]

/-- The contenders for a key are the routes of the additions that have it. -/
theorem contenders_eq_filterMap (k : Key) (adds : List (Addition α)) :
    contenders k adds = (adds.filter fun a => a.key? = some k).filterMap route? := by
  induction adds with
  | nil => rfl
  | cons a adds ih =>
    rw [contenders_cons, List.filter_cons]
    by_cases hkey : a.key? = some k
    · obtain ⟨r, hr, -⟩ := Option.map_eq_some_iff.1 hkey
      simp [hkey, hr, ih]
    · simp [hkey, ih]

end Addition

namespace Tree

/-- Inserting a route changes the entry of its key only, and there the policy decides. -/
theorem at?_insert_route (policy : Duplicates) (t : Tree .growing α) (r : Route α) (k : Key) :
    (t.insert policy r.method r.pattern r.value).state.at? k =
      if r.key = k then policy.holder ((t.at? k).toList ++ [r.terminal]) else t.at? k := by
  have herror : (t.insert policy r.method r.pattern r.value).error? =
      Node.refusal policy (slotOf r.method r.pattern) r.terminal (t.at? r.key) :=
    error?_insert policy t r.method r.pattern r.value
  by_cases hkey : r.key = k
  · subst hkey
    rw [if_pos rfl]
    cases hformer : t.at? r.key with
    | none =>
      rw [hformer] at herror
      rw [at?_insert herror, if_pos (by rfl)]
      cases policy <;> rfl
    | some former =>
      rw [hformer] at herror
      cases policy with
      | strict => rw [state_insert_of_error (by rw [herror]; simp [Node.refusal]), hformer]; rfl
      | lax => rw [at?_insert herror, if_pos (by rfl)]; rfl
  · rw [if_neg hkey]
    by_cases herr : (t.insert policy r.method r.pattern r.value).error? = none
    · rw [at?_insert herr]
      exact if_neg hkey
    · rw [state_insert_of_error herr]

/-- What a tree has for a key, and the routes with the key that are inserted, contend for the entry. -/
theorem at?_insertAll (policy : Duplicates) (k : Key) :
    ∀ (routes : List (Route α)) (t : Tree .growing α),
      (t.insertAll policy routes).at? k =
        policy.holder ((t.at? k).toList ++ (routes.filter fun r => r.key = k).map Route.terminal)
  | [], t => by simp [insertAll]
  | r :: routes, t => by
    show ((t.insert policy r.method r.pattern r.value).state.insertAll policy routes).at? k = _
    rw [at?_insertAll policy k routes, at?_insert_route]
    by_cases hkey : r.key = k
    · rw [if_pos hkey, Duplicates.holder_append]
      simp [hkey]
    · simp [hkey]

end Tree

namespace Router.Builder

/-- For each key, a builder holds the route that the policy gives the place to. -/
theorem at?_addAll (settings : Settings) (adds : List (Addition α)) (k : Key) :
    ((create settings : Logged (Builder α)).value.addAll adds).tree.at? k =
      (settings.duplicates.holder (Addition.contenders k adds)).map Route.terminal := by
  have h := Tree.at?_insertAll settings.duplicates k (adds.filterMap Addition.route?) (.empty : Tree .growing α)
  rw [show (.empty : Tree .growing α).at? k = none from Node.at?_empty k.steps k.slot] at h
  rw [tree_addAll, ← Duplicates.holder_map]
  exact h

/-- So does the router that is built. -/
theorem at?_build (settings : Settings) (adds : List (Addition α)) (k : Key) :
    ((create settings : Logged (Builder α)).value.addAll adds).build.tree.at? k =
      (settings.duplicates.holder (Addition.contenders k adds)).map Route.terminal :=
  (Tree.at?_finalize (holds_surviving settings adds).maps k).trans (at?_addAll settings adds k)

/-! ## What becomes of an addition -/

/-- What an addition comes to. -/
def outcome (b : Builder α) (a : Addition α) : Except Rejection Unit :=
  (b.add a.method a.pattern a.value).value.map fun _ => ()

/-- What each addition of a list comes to, one after another. -/
def outcomes (b : Builder α) : List (Addition α) → List (Except Rejection Unit)
  | [] => []
  | a :: adds => b.outcome a :: (b.take a).outcomes adds

theorem getElem?_outcomes (i : Nat) :
    ∀ (adds : List (Addition α)) (b : Builder α),
      (b.outcomes adds)[i]? = adds[i]?.map fun a => (b.addAll (adds.take i)).outcome a := by
  induction i with
  | zero =>
    intro adds b
    cases adds <;> rfl
  | succ i ih =>
    intro adds b
    cases adds with
    | nil => rfl
    | cons a adds => exact ih adds (b.take a)

theorem outcome_of_error {b : Builder α} {a : Addition α} {fault : Pattern.Fault}
    (h : Pattern.parse a.pattern = .error fault) : b.outcome a = .error (.invalidPattern a.pattern fault) := by
  rw [outcome, value_add_of_error h]
  rfl

/-- A pattern that can be read is turned away when the route held for its key refuses it. -/
theorem outcome_of_ok {b : Builder α} {a : Addition α} {p : Pattern} (h : Pattern.parse a.pattern = .ok p) :
    b.outcome a =
      (Node.refusal b.policy (Tree.slotOf a.method p) (Tree.terminalOf p a.value)
        (b.tree.at? ⟨a.method, p.steps, p.customMethod⟩)).elim (.ok ()) .error := by
  rw [outcome, value_add_of_ok h, value_addPattern, Tree.error?_insert]
  cases Node.refusal b.policy (Tree.slotOf a.method p) (Tree.terminalOf p a.value)
    (b.tree.at? ⟨a.method, p.steps, p.customMethod⟩) <;> rfl

/-- An addition comes to the same where the same route is held for its key. -/
theorem outcome_congr {b b' : Builder α} (hpolicy : b.policy = b'.policy) {a : Addition α}
    (h : ∀ k, a.key? = some k → b.tree.at? k = b'.tree.at? k) : b.outcome a = b'.outcome a := by
  cases hp : Pattern.parse a.pattern with
  | error fault => rw [outcome_of_error hp, outcome_of_error hp]
  | ok p =>
    rw [outcome_of_ok hp, outcome_of_ok hp, hpolicy, h _ (Addition.key?_of_ok hp)]

end Router.Builder

/-! ## What is answered -/

namespace Router

/-- Two routers that cannot be told apart by their answers. -/
structure SameAnswers (r s : Router α) : Prop where
  resolve : ∀ m path, (r.resolve m path).value = (s.resolve m path).value
  allowed : ∀ path, (r.allowed path).value = (s.allowed path).value

/-- What is found depends on the terminals that a tree has for the keys. -/
theorem value_resolve_of_at?_eq {t t' : Tree .final α} (h : ∀ k, t.at? k = t'.at? k) (m : Method) (path : String) :
    ((mk t).resolve m path).value = ((mk t').resolve m path).value := by
  have harrival : Way.arrival? m t.root = Way.arrival? m t'.root := by
    funext w
    exact congrArg (Option.map _) (h ⟨m, w.steps, w.customMethod⟩)
  rw [value_resolve, value_resolve]
  show (t.search m (.ofString path)).value.map _ = (t'.search m (.ofString path)).value.map _
  rw [value_search, value_search, harrival]

/-- Methods are listed in an order of their own, so what is listed depends on the same. -/
theorem sameAnswers_of_at?_eq {t t' : Tree .final α} {routes routes' : List (Route α)} (ht : t.Holds routes)
    (ht' : t'.Holds routes') (hmethods : t.methods.Nodup) (hmethods' : t'.methods.Nodup)
    (h : ∀ k, t.at? k = t'.at? k) : SameAnswers (mk t) (mk t') := by
  refine ⟨value_resolve_of_at?_eq h, fun path => ?_⟩
  refine Method.eq_of_mem_iff (pairwise_allowed hmethods path) (pairwise_allowed hmethods' path) fun m => ?_
  rw [ht.mem_allowed_iff, ht'.mem_allowed_iff, value_resolve_of_at?_eq h]

/-- Routers whose keys have the same holders give the same answers. -/
theorem Builder.sameAnswers_of_holder_eq {settings settings' : Settings} {adds adds' : List (Addition α)}
    (h : ∀ k, settings.duplicates.holder (Addition.contenders k adds) =
      settings'.duplicates.holder (Addition.contenders k adds')) :
    SameAnswers ((create settings : Logged (Builder α)).value.addAll adds).build
      ((create settings' : Logged (Builder α)).value.addAll adds').build := by
  refine sameAnswers_of_at?_eq (holds_build settings adds) (holds_build settings' adds')
    (nodup_methods_addAll settings adds) (nodup_methods_addAll settings' adds') fun k => ?_
  refine (at?_build settings adds k).trans (Eq.trans ?_ (at?_build settings' adds' k).symm)
  rw [h]

end Router

end PathRouter
