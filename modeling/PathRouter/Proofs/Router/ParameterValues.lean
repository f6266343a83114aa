/-
Values of parameters cannot change the structure of a request. Whatever text each parameter of a
pattern is to have, and however it is percent-encoded, the request made from the pattern resolves to
its route and gives these very texts back.
-/
import PathRouter.Proofs.Router.Requests
import PathRouter.Proofs.Text.Percent

namespace PathRouter

open Text

variable {α : Type}

/-- The map of names to values that depend on the name only. -/
theorem Table.get?_ofList_map {κ ν : Type} [DecidableEq κ] (names : List κ) (f : κ → ν) (k : κ) :
    (Table.ofList (names.map fun name => (name, f name))).get? k = if k ∈ names then some (f k) else none := by
  have hfold : ∀ t : Table κ ν, ((names.map fun name => (name, f name)).foldl (fun t p => t.put p.1 p.2) t).get? k =
      if k ∈ names then some (f k) else t.get? k := by
    induction names with
    | nil => simp
    | cons name names ih =>
      intro t
      rw [List.map_cons, List.foldl_cons, ih, get?_put]
      by_cases hk : k ∈ names
      · simp [hk]
      · by_cases hname : name = k
        · simp [hk, hname]
        · simp [hk, hname, Ne.symm hname]
  exact hfold empty

/-- Encodings of texts that are not empty can be filled in. -/
theorem Pattern.Fills.of_encodes {p : Pattern} {values raws : String → String}
    (h : ∀ name ∈ p.parameterNames, values name ≠ "" ∧ Percent.Encodes (values name).toList (raws name).toList) :
    p.Fills raws := by
  refine ⟨fun name hname hempty => ?_, fun name hname => ?_, fun name hname => ?_⟩
  · obtain ⟨hne, hencodes⟩ := h name hname
    exact hencodes.ne_nil (by simpa using hne) (by simp [hempty])
  · exact (h name hname).2.separator_not_mem (by decide)
  · exact (h name hname).2.separator_not_mem (by decide)

namespace Router

/-- The only route of a router is the answer to every request made from its pattern. -/
theorem resolve_requestPath_of_holds {t : Tree .final α} {r : Route α} (ht : t.Holds [r]) {raws : String → String}
    (hraws : r.pattern.Fills raws) (hcolon : r.pattern.customMethod ≠ none → ¬ r.pattern.ColonBeforeLast) :
    ((⟨t⟩ : Router α).resolve r.method (r.pattern.requestPath raws)).value =
      some (r.answer (r.pattern.parameterNames.map raws)) := by
  have hr : r ∈ [r] := List.mem_singleton.2 rfl
  have hwf := Pattern.wellFormed_of_parse (ht.parsed r hr)
  have hbest : Route.IsBest [r] r.method (RequestPath.ofString (r.pattern.requestPath raws)).segments r
      (r.pattern.parameterNames.map raws) :=
    ⟨hr, rfl, hraws.matches_requestPath hwf hcolon r.method,
      fun s hs _ _ _ hne => absurd (List.mem_singleton.1 hs) hne⟩
  rw [value_resolve, ht.search_eq_some_iff.2 ⟨r, _, hbest, rfl⟩]
  rfl

/-- The values of the parameters are those that were encoded. -/
theorem get?_parameters_answer {r : Route α} {values raws : String → String}
    (h : ∀ name ∈ r.pattern.parameterNames,
      values name ≠ "" ∧ Percent.Encodes (values name).toList (raws name).toList) (name : String) :
    (r.answer (r.pattern.parameterNames.map raws)).parameters.get? name =
      if name ∈ r.pattern.parameterNames then some (values name) else none := by
  have hpairs : ((r.pattern.parameterNames.zip (r.pattern.parameterNames.map raws)).map fun p =>
      (p.1, Percent.decode p.2)) = r.pattern.parameterNames.map fun name => (name, values name) := by
    have hzip : r.pattern.parameterNames.zip (r.pattern.parameterNames.map raws) =
        r.pattern.parameterNames.map fun name => (name, raws name) := by
      simpa using @List.zip_map' _ _ _ id raws r.pattern.parameterNames
    rw [hzip, List.map_map]
    refine List.map_congr_left fun name hname => ?_
    exact congrArg (name, ·) (Percent.decode_of_encodes (h name hname).2)
  show (Table.ofList _).get? name = _
  rw [hpairs, Table.get?_ofList_map]

/-- A router with one route whose custom method no colon hides: whatever texts its parameters are to
have, and however these are percent-encoded, the path made from the pattern, with or without a
leading slash, resolves to the value of the route and to exactly these texts. -/
theorem resolve_requestPath_encoded (settings : Settings) (m : Method) (text : String) (p : Pattern) (value : α)
    (values raws : String → String) (hp : Pattern.parse text = .ok p)
    (hcolon : p.customMethod = none ∨ ¬ p.ColonBeforeLast)
    (hencodes : ∀ name ∈ p.parameterNames,
      values name ≠ "" ∧ Percent.Encodes (values name).toList (raws name).toList) :
    ∃ b, ((Builder.create settings).value.add m text value).value = .ok b ∧
      ∀ path ∈ [p.requestPath raws, "/" ++ p.requestPath raws],
        ∃ found, (b.build.resolve m path).value = some found ∧ found.value = value ∧
          ∀ name, found.parameters.get? name = if name ∈ p.parameterNames then some (values name) else none := by
  have hroute : (⟨m, text, value⟩ : Addition α).route? = some ⟨m, p, value⟩ := by
    unfold Addition.route?
    rw [hp]
  obtain ⟨b, hadd, -, hholds⟩ :=
    @Builder.exists_value_add_eq_ok α _ [] (Builder.holds_create settings) _ _ hroute fun h => by cases h.2
  refine ⟨b, hadd, fun path hpath => ?_⟩
  have hraws := Pattern.Fills.of_encodes hencodes
  have hanswer := resolve_requestPath_of_holds hholds.finalize hraws fun hne => hcolon.resolve_left hne
  have hsame : (b.build.resolve m path).value = (b.build.resolve m (p.requestPath raws)).value := by
    rcases List.mem_cons.1 hpath with rfl | hpath
    · rfl
    · cases List.mem_singleton.1 hpath
      rw [value_resolve, hraws.ofString_slash_append (Pattern.wellFormed_of_parse hp), ← value_resolve]
  exact ⟨_, hsame.trans hanswer, rfl, get?_parameters_answer hencodes⟩

/-- A value with a slash, a colon and a character of two bytes. -/
theorem resolve_requestPath_encoded_slash :
    let get : Method := ⟨"GET", by decide⟩
    let p : Pattern := ⟨"/v1/{id}:run", [.literal "v1", .parameter "id"], some ":run"⟩
    ∃ b, ((Builder.create ⟨.strict⟩).value.add get "/v1/{id}:run" 7).value = .ok b ∧
      ∀ path ∈ [p.requestPath fun _ => "%2f%3Aé", "/" ++ p.requestPath fun _ => "%2f%3Aé"],
        ∃ found, (b.build.resolve get path).value = some found ∧ found.value = 7 ∧
          ∀ name, found.parameters.get? name = if name ∈ p.parameterNames then some "/:é" else none := by
  intro get p
  have hslash : Percent.Escapes (String.utf8EncodeChar '/') ['%', '2', 'f'] := by
    show Percent.Escapes [0x2F] _
    exact .cons (.inl rfl) (.inl rfl) .nil
  have hcolon : Percent.Escapes (String.utf8EncodeChar ':') ['%', '3', 'A'] := by
    show Percent.Escapes [0x3A] _
    exact .cons (.inl rfl) (.inr rfl) .nil
  have hencodes : Percent.Encodes "/:é".toList "%2f%3Aé".toList := by
    show Percent.Encodes ['/', ':', 'é'] (['%', '2', 'f'] ++ (['%', '3', 'A'] ++ ['é']))
    exact .escape hslash (.escape hcolon (.keep (by decide) .nil))
  have hbefore : ¬ p.ColonBeforeLast := by
    rintro ⟨text, hmem, hcolon⟩
    cases List.mem_singleton.1 hmem
    exact absurd hcolon (by decide)
  exact resolve_requestPath_encoded ⟨.strict⟩ get "/v1/{id}:run" p 7 (fun _ => "/:é") (fun _ => "%2f%3Aé")
    (by rfl) (.inr hbefore) fun _ _ => ⟨by decide, hencodes⟩

end Router

end PathRouter
