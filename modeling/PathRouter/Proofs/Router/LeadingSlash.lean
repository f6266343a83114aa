/-
Paths with and without a leading slash. The segments of a request path are its text again, one leading
slash aside, so nothing is lost when a path is cut up and nothing but that slash is passed over. Requests
and patterns are cut up alike: with a slash in front of it a text is answered and read as without.
-/
import PathRouter.Proofs.Router.ReadBack

namespace PathRouter

open Text

variable {α : Type}

namespace RequestPath

/-- The text of a path after one leading slash. -/
def stripped (path : String) : String := .ofList (dropSlash path.toList)

theorem toList_stripped (path : String) : (stripped path).toList = dropSlash path.toList := String.toList_ofList

theorem stripped_eq_iff {p q : String} : stripped p = stripped q ↔ dropSlash p.toList = dropSlash q.toList := by
  rw [← String.toList_inj, toList_stripped, toList_stripped]

theorem stripped_eq_empty_iff {path : String} : stripped path = "" ↔ dropSlash path.toList = [] := by
  rw [← String.toList_inj, toList_stripped]
  rfl

/-- A path is its stripped text with a slash in front, or that text if it has no leading slash. -/
theorem eq_slash_append_stripped_or (path : String) :
    path = "/" ++ stripped path ∨ path = stripped path ∧ path.toList.head? ≠ some '/' := by
  by_cases h : path.toList.head? = some '/'
  · obtain ⟨rest, hrest⟩ := List.head?_eq_some_iff.1 h
    refine .inl ?_
    rw [← String.toList_inj, String.toList_append, toList_stripped, hrest, dropSlash_slash]
    rfl
  · refine .inr ⟨?_, h⟩
    rw [← String.toList_inj, toList_stripped, dropSlash_of_head? h]

/-! ## The segments of a path -/

theorem segments_eq_map (path : String) : (ofString path).segments = (components path.toList).map String.ofList := rfl

/-- The segments are the text of the path again. -/
theorem intercalate_segments (path : String) : "/".intercalate (ofString path).segments = stripped path := by
  rw [← String.toList_inj, String.toList_intercalate, toList_stripped, ← joined_segments]
  rfl

theorem segments_eq_nil_iff {path : String} : (ofString path).segments = [] ↔ stripped path = "" := by
  rw [segments_eq_map, List.map_eq_nil_iff, components_eq_nil_iff, stripped_eq_empty_iff]

theorem segments_ne_singleton_empty (path : String) : (ofString path).segments ≠ [""] := by
  rw [segments_eq_map]
  intro h
  obtain ⟨c, hc, hempty⟩ := List.map_eq_singleton_iff.1 h
  exact components_ne_singleton_nil path.toList (by rw [hc, String.ofList_eq_empty_iff.1 hempty])

theorem segments_eq_segments_iff {p q : String} :
    (ofString p).segments = (ofString q).segments ↔ stripped p = stripped q := by
  constructor
  · intro h
    rw [← intercalate_segments, h, intercalate_segments]
  · intro h
    rw [segments_eq_map, segments_eq_map, components_inj.2 (stripped_eq_iff.1 h)]

/-- A custom method is looked for where the path has no colon before a slash. -/
theorem customMethodAllowed_iff_stripped {path : String} :
    (ofString path).customMethodAllowed = true ↔
      stripped path ≠ "" ∧ ¬ [':', '/'].Sublist (stripped path).toList := by
  have hcolon : (∀ s ∈ (ofString path).segments.dropLast, ':' ∉ s.toList) ↔
      ∀ c ∈ (components path.toList).dropLast, ':' ∉ c := by
    simp only [segments_eq_map, ← List.map_dropLast, List.forall_mem_map, String.toList_ofList]
  rw [customMethodAllowed_ofString_iff, Ne, segments_eq_nil_iff, hcolon, toList_stripped, ← joined_components,
    colon_slash_sublist_joined_iff fun _ => not_mem_of_mem_components]
  simp only [not_exists, not_and]

end RequestPath

/-! ## With a slash in front -/

theorem Pattern.map_parse (text : String) :
    (parse text).map (fun p => (p.segments, p.customMethod)) = readSegments [] (components text.toList) := by
  unfold parse
  cases readSegments [] (components text.toList) <;> rfl

theorem Router.value_allowed (r : Router α) (path : String) :
    (r.allowed path).value =
      (r.tree.methods.filter fun m => (r.resolve m path).value.isSome).mergeSort Method.le := by
  simp only [allowed, List.filter_map, List.map_map, Function.comp_def, List.map_id']

section Slash

variable {text : String} (h : text.toList.head? ≠ some '/')
include h

theorem components_slash_append : components ("/" ++ text).toList = components text.toList := by
  rw [String.toList_append]
  exact components_cons_slash h

theorem RequestPath.ofString_slash_append_of_head? : ofString ("/" ++ text) = ofString text := by
  simp only [ofString, components_slash_append h]

theorem Router.value_resolve_slash_append (r : Router α) (m : Method) :
    (r.resolve m ("/" ++ text)).value = (r.resolve m text).value := by
  rw [value_resolve, value_resolve, RequestPath.ofString_slash_append_of_head? h]

end Slash

/-- The segments of a path have no slash and are its text again, one leading slash aside, so paths have the
same segments exactly when they differ in that slash at most. There is no segment where nothing else is in
the path. A custom method is looked for unless nothing is in the path or a colon stands before a slash. A
slash in front of a text without one makes no difference to what a router answers, nor to what is read as
a pattern or found to be wrong with it. -/
theorem RequestPath.segments_lossless_and_slash_irrelevant (path : String) :
    ((path = "/" ++ stripped path ∨ path = stripped path ∧ path.toList.head? ≠ some '/') ∧
      (∀ s ∈ (ofString path).segments, '/' ∉ s.toList) ∧ "/".intercalate (ofString path).segments = stripped path ∧
      ((ofString path).segments = [] ↔ stripped path = "") ∧ (ofString path).segments ≠ [""] ∧
      (∀ other, (ofString other).segments = (ofString path).segments ↔ stripped other = stripped path) ∧
      ((ofString path).customMethodAllowed = true ↔
        stripped path ≠ "" ∧ ¬ [':', '/'].Sublist (stripped path).toList)) ∧
    ∀ text : String, text.toList.head? ≠ some '/' →
      (∀ (r : Router α) (m : Method), (r.resolve m ("/" ++ text)).value = (r.resolve m text).value) ∧
      (∀ r : Router α, (r.allowed ("/" ++ text)).value = (r.allowed text).value) ∧
      (Pattern.parse ("/" ++ text)).map (fun p => (p.segments, p.customMethod)) =
        (Pattern.parse text).map fun p => (p.segments, p.customMethod) := by
  refine ⟨⟨eq_slash_append_stripped_or path, fun s => slash_not_mem_segment, intercalate_segments path,
    segments_eq_nil_iff, segments_ne_singleton_empty path, fun other => segments_eq_segments_iff,
    customMethodAllowed_iff_stripped⟩, fun text h => ⟨fun r m => r.value_resolve_slash_append h m, fun r => ?_, ?_⟩⟩
  · rw [Router.value_allowed, Router.value_allowed]
    simp only [Router.value_resolve_slash_append h]
  · rw [Pattern.map_parse, Pattern.map_parse, components_slash_append h]

/-- Of two leading slashes the second one separates segments, and the last segment of this path is empty. A
request is resolved with a slash in front as it is without. -/
theorem RequestPath.segments_of_two_slashes :
    let get : Method := ⟨"GET", by decide⟩
    let router := ((Router.Builder.create ⟨.strict⟩ : Logged (Router.Builder Nat)).value.addAll
      [⟨get, "/v1/{x}:run", 1⟩]).build
    (ofString "//a:b/").segments = ["", "a:b", ""] ∧ "/".intercalate ["", "a:b", ""] = stripped "//a:b/" ∧
      (ofString "//a:b/").customMethodAllowed = false ∧
      (router.resolve get "v1/a:run").value.isSome = true ∧
      (router.resolve get "/v1/a:run").value = (router.resolve get "v1/a:run").value := by
  intro get router
  have hsegments : (ofString "//a:b/").segments = ["", "a:b", ""] := by rfl
  obtain ⟨⟨-, -, hjoin, -, -, -, hcustom⟩, hslash⟩ := @segments_lossless_and_slash_irrelevant Nat "//a:b/"
  rw [hsegments] at hjoin
  refine ⟨hsegments, hjoin, ?_, ?_, (hslash "v1/a:run" (by decide)).1 router get⟩
  · rw [← Bool.not_eq_true, hcustom]
    decide
  · dsimp only [router]
    rw [Router.value_resolve, Router.Builder.value_search_build]
    dsimp only [get]
    rfl

end PathRouter
