/-
Requests dispatched one after another on one context. Where a route is found for a request, its context
is given the parameters of the route and then the handler of the route runs, once and no other; any
other request leaves the context alone, and is told the methods that the path resolves for. So what
handlers leave in a context adds up in the order of the requests that a route is found for.
-/
import PathRouter.Dispatcher.Recorder
import PathRouter.Proofs.Router.Allowed
import PathRouter.Proofs.Router.Values

namespace PathRouter

variable {α ε γ : Type}

/-- Gives a context the parameters of a route that was found, and then runs the handler of its value. -/
def Match.serve [TakesParameters γ] (handler : α → Handler ε γ) (found : Match α) (context : γ) :
    Except ε Outcome × γ :=
  match handler found.value (TakesParameters.setParameters found.parameters context) with
  | (.ok (), after) => (.ok .handled, after)
  | (.error e, after) => (.error e, after)

/-- What a request is told that no route is found for, where the path resolves for the given methods. -/
def Outcome.ofAllowed (allow : List Method) : Outcome := if allow.isEmpty then .notFound else .methodNotAllowed allow

namespace Dispatcher

/-! ## Handlers in the place of values -/

/-- A dispatcher whose handlers are those of the values of a router with the same routes. -/
structure Serves (d : Dispatcher ε γ) (r : Router α) (handler : α → Handler ε γ) : Prop where
  resolve : ∀ m path, (d.resolve m path).value = (r.resolve m path).value.map (Match.map handler)
  allowed : ∀ m path, m ∈ (d.allowed path).value ↔ (r.resolve m path).value.isSome = true
  sorted : ∀ path, (d.allowed path).value.Pairwise fun m n => m.bytes < n.bytes

/-- Handlers may be put in the place of values before the routes are added. -/
theorem serves_addAll (settings : Settings) (adds : List (Addition α)) (handler : α → Handler ε γ) :
    Serves ((Router.Builder.create settings : Logged (Router.Builder (Handler ε γ))).value.addAll
        (adds.map (Addition.map handler))).build
      ((Router.Builder.create settings : Logged (Router.Builder α)).value.addAll adds).build handler := by
  have ht := Router.Builder.holds_build settings adds
  have ht' := Router.Builder.holds_build settings (adds.map (Addition.map handler))
  rw [Route.surviving_map] at ht'
  have hresolve (m : Method) (path : String) := Router.value_resolve_map ht ht' m path
  refine ⟨hresolve, fun m path => ?_, fun path => ?_⟩
  · refine ht'.mem_allowed_iff.trans ?_
    rw [hresolve, Option.isSome_map]
  · exact Router.pairwise_allowed (Router.Builder.nodup_methods_addAll settings _) path

theorem Serves.isEmpty_allowed_iff {d : Dispatcher ε γ} {r : Router α} {handler : α → Handler ε γ}
    (h : Serves d r handler) {path : String} :
    (d.allowed path).value.isEmpty = true ↔ ∀ m, (r.resolve m path).value = none := by
  rw [List.isEmpty_iff, List.eq_nil_iff_forall_not_mem]
  simp only [h.allowed, Bool.not_eq_true, Option.isSome_eq_false_iff, Option.isNone_iff_eq_none]

/-! ## One request -/

section Requests

variable [TakesParameters γ]

/-- Dispatching by the route that is found for the request, if there is one. -/
theorem value_dispatch (d : Dispatcher ε γ) (m : Method) (path : String) (context : γ) :
    (d.dispatch m path context).value =
      match (d.resolve m path).value with
      | some found => found.serve id context
      | none => (.ok (.ofAllowed (d.allowed path).value), context) := by
  unfold dispatch
  rw [Logged.value_bind]
  cases (d.resolve m path).value with
  | none =>
    show (Logged.value (d.allowed path >>= _)) = _
    rw [Logged.value_bind, Outcome.ofAllowed]
    cases (d.allowed path).value.isEmpty <;> rfl
  | some found =>
    show ((found.value (TakesParameters.setParameters found.parameters context)).1.map _, _) = _
    unfold Match.serve
    rcases hran : found.value (TakesParameters.setParameters found.parameters context) with ⟨result | result, after⟩
    · simp only [id_eq, hran]
      rfl
    · simp only [id_eq, hran]
      rfl

/-- Dispatches requests one after another: the results, and the context that is left. -/
def dispatchAll (d : Dispatcher ε γ) : List (Method × String) → γ → List (Except ε Outcome) × γ
  | [], context => ([], context)
  | (m, path) :: requests, context =>
    let (result, after) := (d.dispatch m path context).value
    let (results, last) := d.dispatchAll requests after
    (result :: results, last)

namespace Serves

variable {d : Dispatcher ε γ} {r : Router α} {handler : α → Handler ε γ} {m : Method} {path : String}

/-- A request whose route is found is served by its handler. -/
theorem value_dispatch_of_some (h : Serves d r handler) {found : Match α}
    (hfound : (r.resolve m path).value = some found) (context : γ) :
    (d.dispatch m path context).value = found.serve handler context := by
  rw [value_dispatch, h.resolve, hfound]
  rfl

theorem value_dispatch_of_none (h : Serves d r handler) (hnone : (r.resolve m path).value = none) (context : γ) :
    (d.dispatch m path context).value = (.ok (.ofAllowed (d.allowed path).value), context) := by
  rw [value_dispatch, h.resolve, hnone]
  rfl

/-- A request whose route is not found leaves the context alone, and is told the methods that the path
resolves for. -/
theorem exists_value_dispatch_of_none (h : Serves d r handler) (hnone : (r.resolve m path).value = none)
    (context : γ) :
    ∃ outcome, (d.dispatch m path context).value = (.ok outcome, context) ∧
      (outcome = .notFound ↔ ∀ n, (r.resolve n path).value = none) ∧
      (outcome ≠ .notFound → ∃ allow, outcome = .methodNotAllowed allow ∧ allow ≠ [] ∧
        (allow.Pairwise fun m n => m.bytes < n.bytes) ∧ m ∉ allow ∧
        ∀ n ∈ allow, ∃ found, (r.resolve n path).value = some found ∧
          ∀ context, (d.dispatch n path context).value = found.serve handler context) := by
  refine ⟨_, h.value_dispatch_of_none hnone context, ?_, fun hne => ?_⟩
  · rw [← h.isEmpty_allowed_iff, Outcome.ofAllowed]
    cases (d.allowed path).value.isEmpty <;> simp
  · by_cases hempty : (d.allowed path).value.isEmpty = true
    · exact absurd (if_pos hempty) hne
    · refine ⟨_, if_neg hempty, fun hnil => hempty (List.isEmpty_iff.2 hnil), h.sorted path, ?_, fun n hn => ?_⟩
      · rw [h.allowed, hnone]
        simp
      · obtain ⟨found, hfound⟩ := Option.isSome_iff_exists.1 ((h.allowed n path).1 hn)
        exact ⟨found, hfound, h.value_dispatch_of_some hfound⟩

/-! ## Runs of requests -/

/-- The context that a request leaves. -/
theorem context_dispatch (h : Serves d r handler) (m : Method) (path : String) (context : γ) :
    (d.dispatch m path context).value.2 =
      ((r.resolve m path).value.map fun found => (found.serve handler context).2).getD context := by
  cases hfound : (r.resolve m path).value with
  | none => rw [h.value_dispatch_of_none hfound]; rfl
  | some found => rw [h.value_dispatch_of_some hfound]; rfl

/-- The context that requests leave is what the routes found for them make of it, one after another. -/
theorem context_dispatchAll (h : Serves d r handler) :
    ∀ (requests : List (Method × String)) (context : γ), (d.dispatchAll requests context).2 =
      (requests.filterMap fun q => (r.resolve q.1 q.2).value).foldl
        (fun context found => (found.serve handler context).2) context
  | [], context => rfl
  | (m, path) :: requests, context => by
    show (d.dispatchAll requests (d.dispatch m path context).value.2).2 = _
    rw [context_dispatchAll h requests, h.context_dispatch, List.filterMap_cons]
    cases (r.resolve m path).value <;> rfl

/-- Where the results of handlers do not depend on the context, those of requests do not either. -/
theorem result_dispatch (h : Serves d r handler)
    (hresult : ∀ (found : Match α) (c c' : γ), (found.serve handler c).1 = (found.serve handler c').1)
    (m : Method) (path : String) (c c' : γ) :
    (d.dispatch m path c).value.1 = (d.dispatch m path c').value.1 := by
  cases hfound : (r.resolve m path).value with
  | none => rw [h.value_dispatch_of_none hfound, h.value_dispatch_of_none hfound]
  | some found => rw [h.value_dispatch_of_some hfound, h.value_dispatch_of_some hfound, hresult found c c']

theorem results_dispatchAll (h : Serves d r handler)
    (hresult : ∀ (found : Match α) (c c' : γ), (found.serve handler c).1 = (found.serve handler c').1) (start : γ) :
    ∀ (requests : List (Method × String)) (context : γ), (d.dispatchAll requests context).1 =
      requests.map fun q => (d.dispatch q.1 q.2 start).value.1
  | [], context => rfl
  | (m, path) :: requests, context => by
    show (d.dispatch m path context).value.1 :: (d.dispatchAll requests (d.dispatch m path context).value.2).1 = _
    rw [results_dispatchAll h hresult start requests, h.result_dispatch hresult m path context start]
    rfl

end Serves

end Requests

/-! ## Handlers that leave their name -/

section Recorded

variable (name : α → String) (failure? : α → Option String)

/-- What a handler that leaves its name makes of a context, and its result. -/
theorem serve_recorder (found : Match α) (r : Recorder) :
    found.serve (fun v => Recorder.handler (name v) (failure? v)) r =
      (match failure? found.value with | none => .ok .handled | some text => .error text,
        ⟨found.parameters, r.updates + 1, r.calls ++ [name found.value]⟩) := by
  simp only [Match.serve, Recorder.handler]
  cases failure? found.value <;> rfl

/-- The history of a context after the routes of a list were served on it. -/
theorem foldl_serve_recorder (found : List (Match α)) (r : Recorder) :
    found.foldl (fun r found => (found.serve (fun v => Recorder.handler (name v) (failure? v)) r).2) r =
      ⟨(found.getLast?.map Match.parameters).getD r.parameters, r.updates + found.length,
        r.calls ++ found.map fun found => name found.value⟩ := by
  induction found generalizing r with
  | nil => simp
  | cons first found ih =>
    rw [List.foldl_cons, serve_recorder, ih, List.getLast?_cons]
    simp only [Recorder.mk.injEq, List.length_cons, List.map_cons, List.append_assoc, List.singleton_append, and_true]
    refine ⟨?_, by omega⟩
    cases found.getLast? <;> rfl

end Recorded

/-! ## Dispatchers that were built -/

/-- Whatever routes are added to a new builder, the dispatcher built serves a request by the handler of
the route that resolves it, and leaves the context of any other request alone: the path is not found
when it resolves for no method, and otherwise the methods that a handler would run for are named. So a
run of requests leaves in the context what the routes found for them make of it in turn; handlers that
leave their name show that each of these routes is served once, and in order. -/
theorem dispatch_eq_serve_of_resolve (settings : Settings) (adds : List (Addition α)) :
    let resolve (q : Method × String) :=
      (((Router.Builder.create settings : Logged (Router.Builder α)).value.addAll adds).build.resolve q.1 q.2).value
    let dispatcher (ε γ : Type) (handler : α → Handler ε γ) : Dispatcher ε γ :=
      ((Router.Builder.create settings : Logged (Router.Builder (Handler ε γ))).value.addAll
        (adds.map (Addition.map handler))).build
    (∀ (ε γ : Type) [TakesParameters γ] (handler : α → Handler ε γ) (context : γ),
      let d := dispatcher ε γ handler
      (∀ m path found, resolve (m, path) = some found →
        (d.dispatch m path context).value = found.serve handler context) ∧
      (∀ m path, resolve (m, path) = none → ∃ outcome, (d.dispatch m path context).value = (.ok outcome, context) ∧
        (outcome = .notFound ↔ ∀ n, resolve (n, path) = none) ∧
        (outcome ≠ .notFound → ∃ allow, outcome = .methodNotAllowed allow ∧ allow ≠ [] ∧
          (allow.Pairwise fun m n => m.bytes < n.bytes) ∧ m ∉ allow ∧
          ∀ n ∈ allow, ∃ found, resolve (n, path) = some found ∧
            ∀ context, (d.dispatch n path context).value = found.serve handler context)) ∧
      ∀ requests, (d.dispatchAll requests context).2 =
        (requests.filterMap resolve).foldl (fun context found => (found.serve handler context).2) context) ∧
    ∀ (name : α → String) (failure? : α → Option String) (requests : List (Method × String)) (r : Recorder),
      let d := dispatcher String Recorder fun v => Recorder.handler (name v) (failure? v)
      let found := requests.filterMap resolve
      let (results, last) := d.dispatchAll requests r
      last.updates = r.updates + found.length ∧
      last.calls = r.calls ++ found.map (fun found => name found.value) ∧
      last.parameters = (found.getLast?.map Match.parameters).getD r.parameters ∧
      results = requests.map fun q => (d.dispatch q.1 q.2 r).value.1 := by
  intro resolve dispatcher
  refine ⟨fun ε γ _ handler context => ?_, fun name failure? requests r => ?_⟩
  · have h := serves_addAll settings adds handler
    exact ⟨fun m path found hfound => h.value_dispatch_of_some hfound context,
      fun m path hnone => h.exists_value_dispatch_of_none hnone context,
      fun requests => h.context_dispatchAll requests context⟩
  · intro d found
    have h := serves_addAll settings adds fun v => Recorder.handler (name v) (failure? v)
    have hlast : (d.dispatchAll requests r).2 = _ :=
      (h.context_dispatchAll requests r).trans (foldl_serve_recorder name failure? found r)
    have hresults : (d.dispatchAll requests r).1 = _ :=
      h.results_dispatchAll (fun found c c' => by rw [serve_recorder, serve_recorder]) r requests r
    show (d.dispatchAll requests r).2.updates = _ ∧ (d.dispatchAll requests r).2.calls = _ ∧
      (d.dispatchAll requests r).2.parameters = _ ∧ (d.dispatchAll requests r).1 = _
    rw [hlast]
    exact ⟨rfl, rfl, rfl, hresults⟩

/-- Two of four requests are served, and the second handler fails; the method of a third one is not allowed. -/
theorem dispatchAll_of_four_requests :
    let get : Method := ⟨"GET", by decide⟩
    let put : Method := ⟨"PUT", by decide⟩
    let adds : List (Addition (String × Option String)) :=
      [⟨get, "discovery/{version}/rest", ("rest", none)⟩, ⟨get, "broken", ("broken", some "handler failed")⟩]
    let d : Dispatcher String Recorder := ((Router.Builder.create ⟨.strict⟩ : Logged (Router.Builder _)).value.addAll
      (adds.map (Addition.map fun v => Recorder.handler v.1 v.2))).build
    let requests := [(get, "discovery/v1/rest"), (get, "broken"), (put, "broken"), (get, "nothing/here")]
    let last := (d.dispatchAll requests {}).2
    (last.updates = 2 ∧ last.calls = ["rest", "broken"] ∧ last.parameters = .empty) ∧
      (d.dispatch get "broken" {}).value.1 = .error "handler failed" ∧
      ∃ allow, (d.dispatch put "broken" {}).value = (.ok (.methodNotAllowed allow), {}) ∧ allow ≠ [] ∧ put ∉ allow := by
  intro get put adds d requests last
  let resolve (q : Method × String) :=
    (((Router.Builder.create ⟨.strict⟩ : Logged (Router.Builder _)).value.addAll adds).build.resolve q.1 q.2).value
  have hfound : requests.filterMap resolve =
      [⟨("rest", none), .ofList [("version", "v1")]⟩, ⟨("broken", some "handler failed"), .empty⟩] := by
    simp only [resolve, Router.value_resolve, Router.Builder.value_search_build]
    dsimp only [get, put, adds, requests]
    rfl
  have hbroken : resolve (get, "broken") = some ⟨("broken", some "handler failed"), .empty⟩ := by
    simp only [resolve, Router.value_resolve, Router.Builder.value_search_build]
    dsimp only [get, adds]
    rfl
  have hput : resolve (put, "broken") = none := by
    simp only [resolve, Router.value_resolve, Router.Builder.value_search_build]
    dsimp only [get, put, adds]
    rfl
  obtain ⟨hserve, hrun⟩ := dispatch_eq_serve_of_resolve ⟨.strict⟩ adds
  obtain ⟨hsome, hnone, -⟩ := hserve String Recorder (fun v => Recorder.handler v.1 v.2) {}
  obtain ⟨hupdates, hcalls, hparameters, -⟩ := hrun Prod.fst Prod.snd requests {}
  refine ⟨⟨?_, ?_, ?_⟩, ?_, ?_⟩
  · exact hupdates.trans (congrArg (fun found => 0 + found.length) hfound)
  · exact hcalls.trans (congrArg (fun found => [] ++ found.map fun found => found.value.1) hfound)
  · exact hparameters.trans (congrArg (fun found => (found.getLast?.map Match.parameters).getD .empty) hfound)
  · exact congrArg Prod.fst (hsome get "broken" _ hbroken)
  · obtain ⟨outcome, hvalue, hnotFound, hallow⟩ := hnone put "broken" hput
    have hresolves : outcome ≠ .notFound := by
      intro hout
      have hget := hnotFound.1 hout get
      exact absurd (hbroken.symm.trans hget) (by simp)
    obtain ⟨allow, rfl, hne, -, hmem, -⟩ := hallow hresolves
    exact ⟨allow, hvalue, hne, hmem⟩

end Dispatcher

end PathRouter
