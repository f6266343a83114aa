/-
Names of parameters decide nothing. Which addition comes to what, and which one a search finds with which
values, follows from the keys of the additions (`found?`), and keys have no names. So when the parameters of
the patterns are renamed, the same additions are taken and the same ones found; only the names under which
the values are handed out are those of the other version.
-/
import Mathlib.Data.List.Forall2
import PathRouter.Proofs.Pattern.Names
import PathRouter.Proofs.Router.Order
import PathRouter.Proofs.Router.ReadBack

namespace PathRouter

open Pattern Text

variable {α : Type}

/-- Whether a match has a value for each of the names, which is the decoded text at its place in a list of
raw ones, and no further values. -/
def Match.Binds (found : Match α) (names raws : List String) : Prop :=
  found.parameters.keys = names ∧
    ∀ i : Nat, names[i]?.bind found.parameters.get? = raws[i]?.map Percent.decode

/-- Whether a router answers a request with the route of an addition, which the search arrives at with these
raw values for the parameters. -/
structure Router.AnswersBy (r : Router α) (m : Method) (path : String) (a : Addition α) (raws : List String)
    (found : Match α) : Prop where
  resolve : (r.resolve m path).value = some found
  value : found.value = a.value
  binds : ∃ p, parse a.pattern = .ok p ∧
    (r.tree.search m (.ofString path)).value = some ⟨Tree.terminalOf p a.value, raws⟩ ∧
      found.Binds p.parameterNames raws

/-! ## The values bound -/

/-- The match that a search arrives at has a value for each parameter. -/
theorem Arrival.binds_toMatch {a : Arrival α} (hnames : a.terminal.parameterNames.Nodup)
    (hlength : a.bindings.length = a.terminal.parameterNames.length) :
    a.toMatch.value.Binds a.terminal.parameterNames a.bindings := by
  have hentries := entries_parameters hnames hlength
  have hkeys : a.toMatch.value.parameters.keys = a.terminal.parameterNames := by
    rw [← (map_namedBindings hlength).1, Table.keys, hentries, List.map_map]
    rfl
  refine ⟨hkeys, fun i => ?_⟩
  by_cases hi : i < a.bindings.length
  · have hi' : i < a.terminal.parameterNames.length := hlength ▸ hi
    have hmem : (a.terminal.parameterNames[i], Percent.decode a.bindings[i]) ∈ a.toMatch.value.parameters.entries := by
      rw [hentries]
      exact List.mem_map.2 ⟨(a.terminal.parameterNames[i], a.bindings[i]),
        List.mem_iff_getElem.2 ⟨i, by simp [namedBindings, hi, hi'], by simp [namedBindings]⟩, rfl⟩
    rw [List.getElem?_eq_getElem hi', List.getElem?_eq_getElem hi, Option.bind_some, Option.map_some]
    exact Table.get?_eq_some_of_mem (hkeys ▸ hnames) hmem
  · rw [List.getElem?_eq_none (Nat.le_of_not_lt hi), List.getElem?_eq_none (hlength ▸ Nat.le_of_not_lt hi)]
    rfl

/-- A search binds one value to each parameter of the terminal it arrives at, and their names are distinct. -/
theorem Tree.Holds.nodup_and_length_of_search {t : Tree .final α} {routes : List (Route α)} (ht : t.Holds routes)
    {m : Method} {path : String} {a : Arrival α} (h : (t.search m (.ofString path)).value = some a) :
    a.terminal.parameterNames.Nodup ∧ a.bindings.length = a.terminal.parameterNames.length := by
  obtain ⟨p, hp, hnames, hreads⟩ := ht.exists_reads_of_search h
  rw [← hnames, hreads.length_values, p.length_parameterNames]
  exact ⟨nodup_parameterNames hp, rfl⟩

/-! ## What is found, by keys alone -/

namespace Addition

/-- Two versions of an addition: both patterns are accepted, and they differ in the names of their parameters
at most. -/
structure Renamed (a a' : Addition α) : Prop where
  method : a.method = a'.method
  value : a.value = a'.value
  accepted : ∃ p, parse a.pattern = .ok p
  accepted' : ∃ p, parse a'.pattern = .ok p
  agree : AgreeUpToNames a.pattern a'.pattern

/-- Versions of an addition have the same key. -/
theorem Renamed.key?_eq {a a' : Addition α} (h : a.Renamed a') : a.key? = a'.key? := by
  obtain ⟨p, hp⟩ := h.accepted
  obtain ⟨p', hp'⟩ := h.accepted'
  obtain ⟨hsteps, hcustom⟩ := (agreeUpToNames_iff hp hp').1 h.agree
  rw [key?_of_ok hp, key?_of_ok hp', h.method, hsteps, hcustom]

variable {n : Nat} {adds adds' : Fin n → Addition α}

/-- The position of the addition that a search finds once all of them are made, and the values bound. -/
def found? (policy : Duplicates) (adds : Fin n → Addition α) (m : Method) (path : String) :
    Option (Fin n × List String) :=
  (ways (RequestPath.ofString path).customMethodAllowed (RequestPath.ofString path).segments).findSome? fun w =>
    (policy.holder (positions ⟨m, w.steps, w.customMethod⟩ adds n)).map (·, w.values)

theorem positions_congr (h : ∀ i, (adds i).key? = (adds' i).key?) (k : Key) (place : Nat) :
    positions k adds place = positions k adds' place := by
  simp only [positions, h]

theorem found?_congr (h : ∀ i, (adds i).key? = (adds' i).key?) (policy : Duplicates) (m : Method) (path : String) :
    found? policy adds m path = found? policy adds' m path := by
  simp only [found?, positions_congr h]

end Addition

namespace Router.Builder

open Addition

section Accepted

variable {n : Nat} {adds : Fin n → Addition α} {patterns : Fin n → Pattern}
  (hp : ∀ i, parse (adds i).pattern = .ok (patterns i))

include hp

/-- Who holds a key after some of the additions is decided by the positions of those that have it. -/
theorem at?_addAll_take (settings : Settings) (place : Nat) (k : Key) :
    ((create settings : Logged (Builder α)).value.addAll ((List.ofFn adds).take place)).tree.at? k =
      (settings.duplicates.holder (positions k adds place)).map fun i =>
        Tree.terminalOf (patterns i) (adds i).value := by
  have hroutes : route? ∘ adds = some ∘ fun i => (⟨(adds i).method, patterns i, (adds i).value⟩ : Route α) :=
    funext fun i => route?_of_ok (hp i)
  rw [at?_addAll, contenders_take_ofFn, List.filterMap_map, hroutes, List.filterMap_eq_map, Duplicates.holder_map,
    Option.map_map]
  rfl

/-- An addition is taken when the policy is lax, or else when none before it has its key. -/
theorem getElem?_outcomes_eq_ok_iff (settings : Settings) (i : Fin n) :
    ((create settings : Logged (Builder α)).value.outcomes (List.ofFn adds))[i.val]? = some (.ok ()) ↔
      (settings.duplicates = .strict → ∀ k, (adds i).key? = some k →
        settings.duplicates.holder (positions k adds i) = none) := by
  have hpolicy : ((create settings : Logged (Builder α)).value.addAll ((List.ofFn adds).take i)).policy =
      settings.duplicates := policy_addAll ..
  rw [getElem?_outcomes, List.getElem?_ofFn]
  simp only [i.isLt, dif_pos, Option.map_some, Option.some_inj, Fin.eta, outcome_of_ok (hp i), hpolicy,
    at?_addAll_take hp, key?_of_ok (hp i), forall_eq']
  cases settings.duplicates.holder (positions ⟨(adds i).method, (patterns i).steps, (patterns i).customMethod⟩ adds i) with
  | none => simp [Node.refusal]
  | some j => cases settings.duplicates <;> simp [Node.refusal]

/-- A search arrives at the terminal of the addition that is found by the keys. -/
theorem value_search_build_ofFn (settings : Settings) (m : Method) (path : String) :
    (((create settings : Logged (Builder α)).value.addAll (List.ofFn adds)).build.tree.search m
        (.ofString path)).value =
      (found? settings.duplicates adds m path).map fun found =>
        ⟨Tree.terminalOf (patterns found.1) (adds found.1).value, found.2⟩ := by
  have hat := at?_addAll_take hp settings n
  rw [List.take_of_length_le (by simp)] at hat
  rw [value_search_build, found?, List.map_findSome?]
  congr 1
  funext w
  rw [Function.comp_apply, Option.map_map]
  show (Tree.at? _ ⟨m, w.steps, w.customMethod⟩).map _ = _
  rw [hat, Option.map_map]
  rfl

/-- The addition that is found by the keys is the one that the router answers by. -/
theorem exists_answersBy_of_found? (settings : Settings) {m : Method} {path : String} {i : Fin n} {raws : List String}
    (h : found? settings.duplicates adds m path = some (i, raws)) :
    ∃ found, ((create settings : Logged (Builder α)).value.addAll (List.ofFn adds)).build.AnswersBy m path (adds i)
      raws found := by
  have hsearch := value_search_build_ofFn hp settings m path
  rw [h, Option.map_some] at hsearch
  obtain ⟨hnodup, hlength⟩ := (holds_build settings (List.ofFn adds)).nodup_and_length_of_search hsearch
  refine ⟨_, ?_, rfl, patterns i, hp i, hsearch, Arrival.binds_toMatch hnodup hlength⟩
  rw [value_resolve]
  exact congrArg (Option.map _) hsearch

theorem value_resolve_eq_none_of_found? (settings : Settings) {m : Method} {path : String}
    (h : found? settings.duplicates adds m path = none) :
    (((create settings : Logged (Builder α)).value.addAll (List.ofFn adds)).build.resolve m path).value = none := by
  have hsearch := value_search_build_ofFn hp settings m path
  rw [h] at hsearch
  rw [value_resolve]
  exact congrArg (Option.map _) hsearch

end Accepted

/-- Lists that go together one by one have the same positions. -/
theorem exists_ofFn_of_forall₂ {β γ : Type} {R : β → γ → Prop} {l : List β} {l' : List γ} (h : List.Forall₂ R l l') :
    ∃ (n : Nat) (f : Fin n → β) (g : Fin n → γ), l = List.ofFn f ∧ l' = List.ofFn g ∧ ∀ i, R (f i) (g i) := by
  obtain ⟨hlength, hget⟩ := List.forall₂_iff_get.1 h
  refine ⟨l.length, l.get, fun i => l'.get (i.cast hlength), (List.ofFn_get l).symm, ?_, fun i => ?_⟩
  · exact List.ext_getElem (by simp [hlength]) (by simp)
  · exact hget i i.isLt (hlength ▸ i.isLt)

/-- Whatever the policy, when the parameters in the patterns of accepted additions are renamed, each of them
succeeds or fails as before. For every request the two routers both answer with none, or both with the route
of the same addition: the parameters of either version are bound to the same decoded values in their order,
and there are no values besides. -/
theorem answersBy_of_renamed (settings : Settings) (adds adds' : List (Addition α))
    (h : List.Forall₂ Addition.Renamed adds adds') :
    let start := (create settings : Logged (Builder α)).value
    let router := (start.addAll adds).build
    let router' := (start.addAll adds').build
    (∀ i : Nat, (start.outcomes adds)[i]? = some (.ok ()) ↔ (start.outcomes adds')[i]? = some (.ok ())) ∧
    ∀ m path,
      ((router.resolve m path).value = none ∧ (router'.resolve m path).value = none) ∨
      ∃ (i : Nat) (a a' : Addition α) (raws : List String) (found found' : Match α),
        adds[i]? = some a ∧ adds'[i]? = some a' ∧ found.value = found'.value ∧
          router.AnswersBy m path a raws found ∧ router'.AnswersBy m path a' raws found' := by
  obtain ⟨n, f, f', rfl, rfl, hrenamed⟩ := exists_ofFn_of_forall₂ h
  choose patterns hp using fun i => (hrenamed i).accepted
  choose patterns' hp' using fun i => (hrenamed i).accepted'
  have hkeys : ∀ i, (f i).key? = (f' i).key? := fun i => (hrenamed i).key?_eq
  intro start router router'
  refine ⟨fun i => ?_, fun m path => ?_⟩
  · by_cases hi : i < n
    · rw [getElem?_outcomes_eq_ok_iff hp settings ⟨i, hi⟩, getElem?_outcomes_eq_ok_iff hp' settings ⟨i, hi⟩]
      simp only [hkeys, positions_congr hkeys]
    · rw [getElem?_outcomes, getElem?_outcomes]
      simp [hi]
  · have hsame : found? settings.duplicates f' m path = found? settings.duplicates f m path :=
      (found?_congr hkeys ..).symm
    cases hfound : found? settings.duplicates f m path with
    | none =>
      exact .inl ⟨value_resolve_eq_none_of_found? hp settings hfound,
        value_resolve_eq_none_of_found? hp' settings (hsame.trans hfound)⟩
    | some place =>
      obtain ⟨found, hanswer⟩ := exists_answersBy_of_found? hp settings hfound
      obtain ⟨found', hanswer'⟩ := exists_answersBy_of_found? hp' settings (hsame.trans hfound)
      refine .inr ⟨place.1, f place.1, f' place.1, place.2, found, found', by simp, by simp, ?_, hanswer, hanswer'⟩
      rw [hanswer.value, hanswer'.value, (hrenamed place.1).value]

/-- Two names change places in the first pattern, and the second one, which has other names for the same
parameters, is turned away in both versions. -/
theorem answersBy_of_swapped_names :
    let get : Method := ⟨"GET", by decide⟩
    let adds : List (Addition Nat) := [⟨get, "/{a}/{b}", 1⟩, ⟨get, "/{c}/{d}", 2⟩]
    let adds' : List (Addition Nat) := [⟨get, "/{b}/{a}", 1⟩, ⟨get, "/{b}/{c}", 2⟩]
    let start := (create ⟨.strict⟩ : Logged (Builder Nat)).value
    List.Forall₂ Addition.Renamed adds adds' ∧
      ¬ (start.outcomes adds)[1]? = some (.ok ()) ∧ ¬ (start.outcomes adds')[1]? = some (.ok ()) ∧
      ∃ found found', ((start.addAll adds).build.resolve get "/v/w").value = some found ∧
        ((start.addAll adds').build.resolve get "/v/w").value = some found' ∧ found.value = found'.value ∧
          found.Binds ["a", "b"] ["v", "w"] ∧ found'.Binds ["b", "a"] ["v", "w"] := by
  intro get adds adds' start
  have hab : parse "/{a}/{b}" = .ok ⟨"/{a}/{b}", [.parameter "a", .parameter "b"], none⟩ := by rfl
  have hba : parse "/{b}/{a}" = .ok ⟨"/{b}/{a}", [.parameter "b", .parameter "a"], none⟩ := by rfl
  have hcd : parse "/{c}/{d}" = .ok ⟨"/{c}/{d}", [.parameter "c", .parameter "d"], none⟩ := by rfl
  have hbc : parse "/{b}/{c}" = .ok ⟨"/{b}/{c}", [.parameter "b", .parameter "c"], none⟩ := by rfl
  have hrenamed : List.Forall₂ Addition.Renamed adds adds' :=
    .cons ⟨rfl, rfl, ⟨_, hab⟩, ⟨_, hba⟩, (agreeUpToNames_iff hab hba).2 ⟨rfl, rfl⟩⟩
      (.cons ⟨rfl, rfl, ⟨_, hcd⟩, ⟨_, hbc⟩, (agreeUpToNames_iff hcd hbc).2 ⟨rfl, rfl⟩⟩ .nil)
  obtain ⟨houtcomes, hanswers⟩ := answersBy_of_renamed ⟨.strict⟩ adds adds' hrenamed
  have hrefused : ¬ (start.outcomes adds)[1]? = some (.ok ()) := by
    rw [getElem?_outcomes]
    show ¬ some ((start.addAll (adds.take 1)).outcome ⟨get, "/{c}/{d}", 2⟩) = _
    rw [outcome_of_ok hcd]
    dsimp only [start, adds, get]
    exact fun h => nomatch h
  have hsearch : ((start.addAll adds).build.tree.search get (.ofString "/v/w")).value =
      some ⟨⟨1, ["a", "b"], "/{a}/{b}"⟩, ["v", "w"]⟩ := by
    rw [value_search_build]
    dsimp only [adds, get]
    rfl
  have hsearch' : ((start.addAll adds').build.tree.search get (.ofString "/v/w")).value =
      some ⟨⟨1, ["b", "a"], "/{b}/{a}"⟩, ["v", "w"]⟩ := by
    rw [value_search_build]
    dsimp only [adds', get]
    rfl
  refine ⟨hrenamed, hrefused, fun h => hrefused ((houtcomes 1).2 h), ?_⟩
  rcases hanswers get "/v/w" with ⟨hnone, -⟩ | ⟨_, _, _, _, found, found', -, -, hvalue, hanswer, hanswer'⟩
  · rw [value_resolve, hsearch] at hnone
    cases hnone
  · obtain ⟨p, -, hfound, hbinds⟩ := hanswer.binds
    obtain ⟨p', -, hfound', hbinds'⟩ := hanswer'.binds
    obtain ⟨hterminal, rfl⟩ := Arrival.mk.inj (Option.some.inj (hsearch.symm.trans hfound))
    obtain ⟨hterminal', -⟩ := Arrival.mk.inj (Option.some.inj (hsearch'.symm.trans hfound'))
    refine ⟨found, found', hanswer.resolve, hanswer'.resolve, hvalue, ?_, ?_⟩
    · rwa [show p.parameterNames = ["a", "b"] from (congrArg Terminal.parameterNames hterminal).symm] at hbinds
    · rwa [show p'.parameterNames = ["b", "a"] from (congrArg Terminal.parameterNames hterminal').symm] at hbinds'

end Router.Builder

end PathRouter
