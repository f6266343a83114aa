/-
The methods that a path resolves for. Every method with a route is listed once in the tree, so none is
missed and none comes twice; the order of the listed methods by text is strict, and it is the order
by byte since tokens are ASCII. What is listed depends on the keys of the routes alone, and these do
not depend on the order in which the routes were added.
-/
import PathRouter.Proofs.Router.Resolution
import PathRouter.Proofs.Text.Utf8
import PathRouter.Proofs.Tree.Insertions

namespace PathRouter

variable {α : Type}

/-! ## The order of methods -/

namespace Method

theorem toNat_lt_of_isTokenChar {c : Char} (h : isTokenChar c = true) : c.toNat < 0x80 := by
  rw [isTokenChar, Bool.or_eq_true] at h
  rcases h with h | h
  · delta Char.isAlphanum Char.isAlpha Char.isUpper Char.isLower Char.isDigit at h
    simp only [Bool.or_eq_true, Bool.and_eq_true, decide_eq_true_eq, ge_iff_le, UInt32.le_iff_toNat_le] at h
    change c.val.toNat < 0x80
    rcases h with (h | h) | h
    · exact Nat.lt_of_le_of_lt h.2 (by decide)
    · exact Nat.lt_of_le_of_lt h.2 (by decide)
    · exact Nat.lt_of_le_of_lt h.2 (by decide)
  · have hmarks : ("`!*+-.^_|~".toList.all fun c => decide (c.toNat < 0x80)) = true := by decide
    exact of_decide_eq_true (List.all_eq_true.1 hmarks c (List.contains_iff_mem.1 h))

/-- The bytes of the text of a method. -/
def bytes (m : Method) : List UInt8 := Text.Utf8.encode m.text.toList

theorem bytes_lt_bytes_iff {m n : Method} : m.bytes < n.bytes ↔ m.text < n.text := by
  have hascii (m : Method) : ∀ c ∈ m.text.toList, c.toNat < 0x80 :=
    fun c hc => toNat_lt_of_isTokenChar (List.all_eq_true.1 m.isToken.2 c hc)
  rw [bytes, bytes, Text.Utf8.encode_lt_encode_iff (hascii m) (hascii n), String.lt_iff]

theorem text_lt_of_le_of_ne {m n : Method} (h : m.le n = true) (hne : m ≠ n) : m.text < n.text := by
  refine String.not_le.1 fun hge => hne (Method.ext ?_)
  exact String.le_antisymm (of_decide_eq_true h) hge

/-- Distinct methods once sorted are strictly increasing. -/
theorem pairwise_mergeSort {ms : List Method} (h : ms.Nodup) :
    (ms.mergeSort le).Pairwise fun m n => m.bytes < n.bytes := by
  have hsorted : (ms.mergeSort le).Pairwise fun m n => m.le n = true := by
    refine List.pairwise_mergeSort (fun a b c hab hbc => ?_) (fun a b => ?_) ms
    · exact decide_eq_true (String.le_trans (of_decide_eq_true hab) (of_decide_eq_true hbc))
    · simpa [le] using String.le_total a.text b.text
  have hnodup : (ms.mergeSort le).Nodup := (List.mergeSort_perm ms le).nodup_iff.2 h
  exact (hsorted.and hnodup).imp fun h => bytes_lt_bytes_iff.2 (text_lt_of_le_of_ne h.1 h.2)

theorem ne_of_bytes_lt {m n : Method} (h : m.bytes < n.bytes) : m ≠ n := by
  rintro rfl
  exact List.lt_irrefl _ h

/-- Lists of methods that are strictly increasing are equal when they have the same members. -/
theorem eq_of_mem_iff {ms ns : List Method} (hm : ms.Pairwise fun m n => m.bytes < n.bytes)
    (hn : ns.Pairwise fun m n => m.bytes < n.bytes) (h : ∀ m, m ∈ ms ↔ m ∈ ns) : ms = ns := by
  have hperm : ms.Perm ns := (List.perm_ext_iff_of_nodup (hm.imp ne_of_bytes_lt) (hn.imp ne_of_bytes_lt)).2 h
  exact hperm.eq_of_pairwise (fun _ _ _ _ hlt hgt => absurd (List.lt_trans hlt hgt) (List.lt_irrefl _)) hm hn

end Method

/-! ## The keys that survive -/

namespace Route

theorem mem_map_key_admitted {policy : Duplicates} {k : Key} (adds : List (Addition α)) :
    ∀ {past : List (Route α)}, k ∈ (past ++ admitted policy past adds).map key ↔
      k ∈ (past ++ adds.filterMap Addition.route?).map key := by
  induction adds with
  | nil => simp [admitted]
  | cons a adds ih =>
    intro past
    unfold admitted
    cases ha : a.route? with
    | none => simpa [ha] using ih
    | some r =>
      by_cases hrefused : r.Refused policy past
      · -- what is refused has the key of a route that is there
        have hmem := hrefused.2
        simp only [hrefused, if_true, List.filterMap_cons, ha]
        rw [ih]
        simp only [List.map_append, List.map_cons, List.mem_append, List.mem_cons]
        constructor
        · rintro (h | h)
          · exact .inl h
          · exact .inr (.inr h)
        · rintro (h | rfl | h)
          · exact .inl h
          · exact .inl hmem
          · exact .inr h
      · simp only [hrefused, if_false, List.filterMap_cons, ha]
        rw [List.append_cons past r, ih, ← List.append_cons]

/-- The keys that survive are those of the additions that can be read, whatever the policy. -/
theorem mem_map_key_surviving {policy : Duplicates} {adds : List (Addition α)} {k : Key} :
    k ∈ (surviving policy adds).map key ↔ k ∈ (adds.filterMap Addition.route?).map key := by
  have h := @mem_map_key_admitted α policy k adds []
  rwa [List.nil_append, List.nil_append, ← mem_map_key_latest] at h

end Route

/-! ## What is listed -/

namespace Tree.Holds

variable {t : Tree .final α} {routes : List (Route α)} {m : Method} {path : String}

/-- A path resolves for a method when it matches the key of a route of the method. -/
theorem isSome_resolve_iff (ht : t.Holds routes) :
    ((Router.mk t).resolve m path).value.isSome = true ↔
      ∃ k ∈ routes.map Route.key, k.method = m ∧ ∃ values, k.Matches (RequestPath.ofString path).segments values := by
  rw [Router.value_resolve, Option.isSome_map]
  constructor
  · intro h
    obtain ⟨a, ha⟩ := Option.isSome_iff_exists.1 h
    obtain ⟨r, values, hbest, -⟩ := ht.search_eq_some_iff.1 ha
    exact ⟨r.key, List.mem_map_of_mem hbest.mem, hbest.method, values, hbest.reads⟩
  · rintro ⟨k, hk, rfl, values, hmatch⟩
    obtain ⟨r, hr, rfl⟩ := List.mem_map.1 hk
    rw [Option.isSome_iff_ne_none]
    exact fun hnone => ht.search_eq_none_iff.1 hnone r hr rfl values hmatch

/-- The methods that a path resolves for are listed, and no others. -/
theorem mem_allowed_iff (ht : t.Holds routes) :
    m ∈ ((Router.mk t).allowed path).value ↔ ((Router.mk t).resolve m path).value.isSome = true := by
  rw [Router.mem_allowed, and_iff_right_iff_imp, ht.isSome_resolve_iff, ht.methods]
  rintro ⟨k, hk, rfl, -⟩
  obtain ⟨r, hr, rfl⟩ := List.mem_map.1 hk
  exact ⟨r, hr, rfl⟩

end Tree.Holds

namespace Router

/-- Methods are listed in the order of their bytes if each of them is in the tree once. -/
theorem pairwise_allowed {t : Tree .final α} (h : t.methods.Nodup) (path : String) :
    ((mk t).allowed path).value.Pairwise fun m n => m.bytes < n.bytes := by
  refine Method.pairwise_mergeSort ?_
  rw [List.filter_map, List.map_map]
  show (((t.methods.filter _).map fun m => m).Nodup)
  rw [List.map_id']
  exact h.sublist List.filter_sublist

/-- Whatever is added to a new builder, the methods that the router built lists for a path are exactly
those that the path resolves for, strictly increasing in the order of their bytes, and the same ones
in whichever order the additions are made. -/
theorem mem_allowed_iff_isSome_resolve (settings : Settings) (adds : List (Addition α)) (path : String) :
    let start := (Builder.create settings : Logged (Builder α)).value
    let router := (start.addAll adds).build
    let allowed := (router.allowed path).value
    (∀ m, m ∈ allowed ↔ (router.resolve m path).value.isSome = true) ∧
    (allowed.Pairwise fun m n => m.bytes < n.bytes) ∧ allowed.Nodup ∧
    ∀ adds', adds'.Perm adds → ((start.addAll adds').build.allowed path).value = allowed := by
  intro start router allowed
  have hholds (adds : List (Addition α)) :
      (start.addAll adds).build.tree.Holds (Route.surviving settings.duplicates adds) :=
    Builder.holds_build settings adds
  have hsorted (adds : List (Addition α)) :
      ((start.addAll adds).build.allowed path).value.Pairwise fun m n => m.bytes < n.bytes :=
    pairwise_allowed (Builder.nodup_methods_addAll settings adds) path
  refine ⟨fun m => (hholds adds).mem_allowed_iff, hsorted adds, (hsorted adds).imp Method.ne_of_bytes_lt,
    fun adds' hperm => Method.eq_of_mem_iff (hsorted adds') (hsorted adds) fun m => ?_⟩
  have hkeys (k : Key) : k ∈ (Route.surviving settings.duplicates adds').map Route.key ↔
      k ∈ (Route.surviving settings.duplicates adds).map Route.key := by
    rw [Route.mem_map_key_surviving, Route.mem_map_key_surviving]
    exact ((hperm.filterMap _).map _).mem_iff
  refine ((hholds adds').mem_allowed_iff.trans ?_).trans (hholds adds).mem_allowed_iff.symm
  rw [(hholds adds').isSome_resolve_iff, (hholds adds).isSome_resolve_iff]
  simp only [hkeys]

/-- The two methods with a route that matches are listed, in the same order when the routes change
places; a method without routes is not. -/
theorem mem_allowed_of_two_orders :
    let get : Method := ⟨"GET", by decide⟩
    let post : Method := ⟨"POST", by decide⟩
    let head : Method := ⟨"HEAD", by decide⟩
    let start := (Builder.create ⟨.strict⟩ : Logged (Builder Nat)).value
    let router (adds : List (Addition Nat)) := (start.addAll adds).build
    let allowed := ((router [⟨post, "/a", 1⟩, ⟨get, "/{x}", 2⟩]).allowed "/a").value
    (get ∈ allowed ∧ post ∈ allowed ∧ head ∉ allowed) ∧
      ((router [⟨get, "/{x}", 2⟩, ⟨post, "/a", 1⟩]).allowed "/a").value = allowed := by
  intro get post head start router allowed
  have h := mem_allowed_iff_isSome_resolve ⟨.strict⟩ [⟨post, "/a", 1⟩, ⟨get, "/{x}", 2⟩] "/a"
  have hanswers : ((router [⟨post, "/a", 1⟩, ⟨get, "/{x}", 2⟩]).resolve get "/a").value.isSome = true ∧
      ((router [⟨post, "/a", 1⟩, ⟨get, "/{x}", 2⟩]).resolve post "/a").value.isSome = true ∧
      ((router [⟨post, "/a", 1⟩, ⟨get, "/{x}", 2⟩]).resolve head "/a").value.isSome = false := by
    simp only [router, start, value_resolve, Builder.value_search_build]
    dsimp only [get, post, head]
    exact ⟨rfl, rfl, rfl⟩
  obtain ⟨hget, hpost, hhead⟩ := hanswers
  refine ⟨⟨(h.1 get).2 hget, (h.1 post).2 hpost, fun hmem => ?_⟩, h.2.2.2 _ (List.Perm.swap ..)⟩
  rw [(h.1 head).1 hmem] at hhead
  cases hhead

end Router

end PathRouter
