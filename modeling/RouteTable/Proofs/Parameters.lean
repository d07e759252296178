import Mathlib.Logic.Function.Iterate
import RouteTable.Proofs.Paths

namespace RouteTable

open Segment

namespace Route

/-- An index page among the siblings answers for the folder of these keys. -/
def indexAnswers (siblings : List Route) (folder : List Text) : Bool :=
  siblings.any fun s => s.origin.keys == folder ++ [indexKey]

/-- The segments of a route among its siblings, one for each key behind the base. -/
def segmentsAmong (siblings : List Route) (origin : Origin) : List Text :=
  (withoutIndex (origin.keys.drop origin.base)).mapIdx fun i key =>
    if indexAnswers siblings (origin.keys.take (origin.base + i)) then required (pattern key) else pattern key

variable {origin : Origin} {prefixes : List (List Text)} {segments : List Text}

theorem getElem?_requireAt (origin : Origin) (segments indexPrefix : List Text) {i : Nat}
    (hi : origin.base + i < origin.keys.length) :
    (requireAt origin segments indexPrefix)[i]? =
      if indexPrefix = origin.keys.take (origin.base + i) then segments[i]?.map required else segments[i]? := by
  rw [requireAt]
  by_cases he : indexPrefix = origin.keys.take (origin.base + i)
  · have hdepth : indexPrefix.length = origin.base + i := by
      rw [he, List.length_take]
      omega
    have hguard : (origin.base ≤ indexPrefix.length && indexPrefix.length < origin.keys.length &&
        origin.keys.take indexPrefix.length == indexPrefix) = true := by
      simp [hdepth, hi, ← he]
    rw [if_pos hguard, if_pos he, hdepth, Nat.add_sub_cancel_left, List.getElem?_modify_eq]
    rfl
  · rw [if_neg he]
    split
    · next hguard =>
        simp only [Bool.and_eq_true, decide_eq_true_eq, beq_iff_eq] at hguard
        refine List.getElem?_modify_ne _ _ fun hdepth => he ?_
        have hlength : indexPrefix.length = origin.base + i := by omega
        rw [← hlength]
        exact hguard.2.symm
    · rfl

theorem getElem?_requireAll (origin : Origin) (prefixes : List (List Text)) (segments : List Text) {i : Nat}
    (hi : origin.base + i < origin.keys.length) :
    (requireAll origin prefixes segments)[i]? =
      segments[i]?.map (required^[prefixes.count (origin.keys.take (origin.base + i))]) := by
  induction prefixes generalizing segments with
  | nil => simp [requireAll]
  | cons indexPrefix prefixes ih =>
      have hstep := ih (requireAt origin segments indexPrefix)
      rw [getElem?_requireAt origin segments indexPrefix hi] at hstep
      rw [requireAll, List.foldl_cons]
      refine hstep.trans ?_
      by_cases he : indexPrefix = origin.keys.take (origin.base + i)
      · subst he
        rw [if_pos rfl, List.count_cons_self, Option.map_map, Function.iterate_succ]
      · rw [if_neg he, List.count_cons_of_ne he]

theorem length_requireAll (origin : Origin) (prefixes : List (List Text)) (segments : List Text) :
    (requireAll origin prefixes segments).length = segments.length := by
  induction prefixes generalizing segments with
  | nil => rfl
  | cons indexPrefix prefixes ih =>
      refine (ih _).trans ?_
      rw [requireAt]
      split
      · exact List.length_modify _ _ _
      · rfl

theorem length_patterns_le (origin : Origin) {i : Nat}
    (hi : i < (patterns (origin.keys.drop origin.base)).length) : origin.base + i < origin.keys.length := by
  have hle := (withoutIndex_sublist (origin.keys.drop origin.base)).length_le
  rw [patterns, List.length_map] at hi
  rw [List.length_drop] at hle
  omega

theorem requireAll_of_plain (h : ∀ s ∈ patterns (origin.keys.drop origin.base), '?' ∉ s) :
    requireAll origin prefixes (patterns (origin.keys.drop origin.base)) =
      patterns (origin.keys.drop origin.base) := by
  refine List.ext_getElem (length_requireAll origin prefixes _) fun i _ hi => ?_
  refine Option.some.inj ?_
  rw [← List.getElem?_eq_getElem, getElem?_requireAll _ _ _ (length_patterns_le origin hi),
    List.getElem?_eq_getElem hi, Option.map_some]
  exact congrArg some (Function.iterate_fixed (required_eq_self (h _ (List.getElem_mem hi))) _)

theorem Joins.normalPath_eq {r : Route} {above : Option Route} (h : r.Joins above) (hne : r.origin.keys ≠ [])
    (hkeys : ∀ key ∈ r.origin.keys, Path.IsSegment key) (prefixes : List (List Text)) :
    r.normalPath prefixes above.isSome = (if above.isSome then [] else ['/']) ++
      Text.joinWith '/' (requireAll r.origin prefixes (patterns (r.origin.keys.drop r.origin.base))) := by
  have hsegments : ∀ s ∈ patterns (r.origin.keys.drop r.origin.base), Path.IsSegment s :=
    isSegment_of_mem_patterns fun key hkey => hkeys key (List.mem_of_mem_drop hkey)
  rw [normalPath, h.bare_path hne]
  dsimp only
  rw [Text.parts_lead_joinWith _ hsegments]
  by_cases hmark : ((if above.isSome then [] else ['/']) ++
      Text.joinWith '/' (patterns (r.origin.keys.drop r.origin.base))).contains '?'
  · rw [if_pos hmark]
  · rw [if_neg hmark, requireAll_of_plain]
    intro s hs hc
    refine hmark (List.contains_iff_mem.2 (List.mem_append_right _ ?_))
    exact Text.mem_joinWith_of_mem hs hc

end Route

theorem Origin.indexPrefix?_eq_some {origin : Origin} {folder : List Text} :
    origin.indexPrefix? = some folder ↔ origin.keys = folder ++ [indexKey] := by
  rw [indexPrefix?, isIndex]
  constructor
  · intro h
    split at h
    · next hlast =>
        cases h
        exact (List.dropLast_append_getLast? indexKey (by simpa using hlast)).symm
    · cases h
  · intro h
    simp [h]

theorem count_le_one_of_pairwise {l : List (List Text)} {folder : List Text}
    (h : l.Pairwise fun a b => ¬(a = folder ∧ b = folder)) : l.count folder ≤ 1 := by
  induction l with
  | nil => simp
  | cons a l ih =>
      rw [List.pairwise_cons] at h
      by_cases ha : a = folder
      · have hrest : l.count folder = 0 := List.count_eq_zero.2 fun hmem => h.1 folder hmem ⟨ha, rfl⟩
        rw [ha, List.count_cons_self, hrest]
      · rw [List.count_cons_of_ne ha]
        exact ih h.2

namespace Forest

variable {f : Forest Route} {above : Option Route} {siblings : List Route} {r s : Route}

/-- Where a route starts behind a prefix of the keys of a folder, the folder's index page does not collide. -/
theorem Linked.index_not_collides (h : f.Linked) (hf : (above, siblings) ∈ f.families) (hr : r ∈ siblings)
    (hs : s ∈ siblings) (i : Nat) (hindex : s.origin.keys = r.origin.keys.take (r.origin.base + i) ++ [indexKey]) :
    ¬s.Collides := by
  intro hcollides
  have hjoinr := h.joins above r ⟨siblings, hf, hr⟩
  have hjoins := h.joins above s ⟨siblings, hf, hs⟩
  have hbase : s.origin.base = s.origin.keys.length := hcollides
  cases above with
  | none =>
      have hpos : 0 < s.origin.keys.length := by simp [hindex]
      have htop := hjoins.top rfl
      omega
  | some p =>
      have hnamer := (hjoinr.below p rfl).2
      have hnames := (hjoins.below p rfl).2
      rw [hbase, List.take_length, hindex, hnamer, Option.some.injEq] at hnames
      have hsplit : r.origin.keys.take (r.origin.base + i) =
          r.origin.keys.take r.origin.base ++ (r.origin.keys.drop r.origin.base).take i := List.take_add
      have hle := length_nameOf_le_append (r.origin.keys.take r.origin.base) ((r.origin.keys.drop r.origin.base).take i)
      have hlt := length_nameOf_lt_index (r.origin.keys.take (r.origin.base + i))
      rw [← hsplit] at hle
      have hsame := congrArg List.length hnames
      omega

theorem Linked.count_folders_le_one (h : f.Linked) (hf : (above, siblings) ∈ f.families) (hr : r ∈ siblings)
    (i : Nat) : (Route.folders siblings).count (r.origin.keys.take (r.origin.base + i)) ≤ 1 := by
  refine count_le_one_of_pairwise (List.pairwise_filterMap.2 ?_)
  refine (h.apart above siblings hf).imp_of_mem ?_
  intro s t hs ht hname a ha b hb ⟨hfolder, hfolder'⟩
  have hkeys := Origin.indexPrefix?_eq_some.1 (hfolder ▸ ha)
  have hkeys' := Origin.indexPrefix?_eq_some.1 (hfolder' ▸ hb)
  have hsame : s.name = t.name := by
    rw [(h.joins above s ⟨siblings, hf, hs⟩).name_eq, (h.joins above t ⟨siblings, hf, ht⟩).name_eq, hkeys, hkeys']
  rcases hname hsame with hc | hc
  · exact h.index_not_collides hf hr hs i hkeys hc
  · exact h.index_not_collides hf hr ht i hkeys' hc

theorem indexAnswers_eq_decide (siblings : List Route) (folder : List Text) :
    Route.indexAnswers siblings folder = decide (folder ∈ Route.folders siblings) := by
  rw [Bool.eq_iff_iff, Route.indexAnswers, List.any_eq_true, decide_eq_true_iff, Route.folders,
    List.mem_filterMap]
  simp only [Origin.indexPrefix?_eq_some, beq_iff_eq]

theorem Linked.requireAll_eq (h : f.Linked) (hf : (above, siblings) ∈ f.families) (hr : r ∈ siblings) :
    Route.requireAll r.origin (Route.folders siblings)
      (patterns (r.origin.keys.drop r.origin.base)) = Route.segmentsAmong siblings r.origin := by
  refine List.ext_getElem (by simp [Route.length_requireAll, Route.segmentsAmong, patterns]) fun i hi hi' => ?_
  rw [Route.length_requireAll] at hi
  refine Option.some.inj ?_
  rw [← List.getElem?_eq_getElem, Route.getElem?_requireAll _ _ _ (Route.length_patterns_le r.origin hi),
    List.getElem?_eq_getElem hi, Option.map_some]
  simp only [Route.segmentsAmong, List.getElem_mapIdx, indexAnswers_eq_decide]
  have hle := h.count_folders_le_one hf hr i
  by_cases hmem : r.origin.keys.take (r.origin.base + i) ∈ Route.folders siblings
  · have hone := Nat.le_antisymm hle (List.count_pos_iff.2 hmem)
    rw [hone, if_pos (decide_eq_true hmem)]
    simp [patterns]
  · rw [List.count_eq_zero.2 hmem, if_neg (by simpa using hmem)]
    simp [patterns]

end Forest

namespace Route

theorem isSegment_of_mem_segmentsAmong {siblings : List Route} {origin : Origin}
    (hkeys : ∀ key ∈ origin.keys, Path.IsSegment key) : ∀ s ∈ segmentsAmong siblings origin, Path.IsSegment s := by
  intro s hs
  obtain ⟨i, hi, rfl⟩ := List.mem_mapIdx.1 hs
  have hkey := isSegment_pattern (hkeys _ (List.mem_of_mem_drop ((withoutIndex_sublist _).mem (List.getElem_mem hi))))
  split
  · exact isSegment_required hkey
  · exact hkey

theorem segmentsAmong_congr {siblings siblings' : List Route}
    (h : siblings.map stem = siblings'.map stem) : segmentsAmong siblings = segmentsAmong siblings' := by
  have hany : indexAnswers siblings = indexAnswers siblings' := by
    funext folder
    have hmap : ∀ routes : List Route, indexAnswers routes folder =
        (routes.map stem).any fun s => s.2.keys == folder ++ [indexKey] := fun routes => by
      rw [List.any_map]
      rfl
    rw [hmap, hmap, h]
  funext origin
  rw [segmentsAmong, segmentsAmong, hany]

end Route

namespace Compilation

variable {options : CompileOptions} {files : List Text} {above : Option Route} {siblings : List Route} {r : Route}

theorem isSegment_of_mem_keys (hr : r ∈ (compile options files).routes.labels)
    (hkeys : ∀ key ∈ r.origin.keys, key ≠ []) :
    r.origin.keys ≠ [] ∧ ∀ key ∈ r.origin.keys, Path.IsSegment key := by
  obtain ⟨page, hpage, _, hpagekeys⟩ := exists_page_of_mem_labels hr
  constructor
  · rw [hpagekeys]
    simpa [Page.routeKeys] using keys_ne_nil_of_mem_pagesOf hpage
  · intro key hkey
    exact ⟨hkeys key hkey, Page.slash_not_mem_routeKeys hpage key (hpagekeys ▸ hkey)⟩

theorem path_eq_segmentsAmong (hf : (above, siblings) ∈ (compile options files).routes.families) (hr : r ∈ siblings)
    (hne : r.origin.keys ≠ []) (hkeys : ∀ key ∈ r.origin.keys, Path.IsSegment key) :
    r.path = (if above.isSome then [] else ['/']) ++ Text.joinWith '/' (Route.segmentsAmong siblings r.origin) := by
  obtain ⟨above₀, siblings₀, r₀, hf₀, hr₀, habove, hsiblings, holdsIndex, rfl⟩ := exists_draft_family hf hr
  have hlinked := linked_draftOf options files
  have hjoins := hlinked.joins above₀ r₀ ⟨siblings₀, hf₀, hr₀⟩
  have hsome : above.isSome = above₀.isSome := by rw [← Option.isSome_map, habove, Option.isSome_map]
  have hpath := hjoins.normalPath_eq hne hkeys (Route.folders siblings₀)
  rw [hlinked.requireAll_eq hf₀ hr₀, ← Route.segmentsAmong_congr hsiblings] at hpath
  rw [hsome]
  exact hpath

theorem parts_path_eq (hf : (above, siblings) ∈ (compile options files).routes.families) (hr : r ∈ siblings)
    (hkeys : ∀ key ∈ r.origin.keys, key ≠ []) :
    Text.parts Path.isSlash r.path = Route.segmentsAmong siblings r.origin := by
  obtain ⟨hne, hproper⟩ := isSegment_of_mem_keys (Forest.mem_labels_iff.2 ⟨above, siblings, hf, hr⟩) hkeys
  rw [path_eq_segmentsAmong hf hr hne hproper]
  exact Text.parts_lead_joinWith above.isSome (Route.isSegment_of_mem_segmentsAmong hproper)

/-- A parameter is required exactly where an index page among the siblings answers for the folder before it. -/
theorem compile_path_eq (options : CompileOptions) (files : List Text) (above : Option Route)
    (siblings : List Route) (r : Route) (hf : (above, siblings) ∈ (compile options files).routes.families)
    (hr : r ∈ siblings) (hkeys : ∀ key ∈ r.origin.keys, key ≠ []) :
    r.path = (if above.isSome then [] else ['/']) ++ Text.joinWith '/' (Route.segmentsAmong siblings r.origin) ∧
      Text.parts Path.isSlash r.path = Route.segmentsAmong siblings r.origin ∧
      (Text.startsWith '/' r.path = true ↔ above = none) := by
  obtain ⟨hne, hproper⟩ := isSegment_of_mem_keys (Forest.mem_labels_iff.2 ⟨above, siblings, hf, hr⟩) hkeys
  have hpath := path_eq_segmentsAmong hf hr hne hproper
  refine ⟨hpath, parts_path_eq hf hr hkeys, ?_⟩
  rw [hpath]
  cases above with
  | none => simp [Text.startsWith]
  | some p => simp [Text.startsWith_joinWith (Route.isSegment_of_mem_segmentsAmong hproper)]

/-- Below a page `users` its index page answers where a parameter would be left out. -/
theorem compile_path_eq_users :
    let users : Route := ⟨none, "/users".toList, some "./p/users.vue".toList, [], ⟨["users".toList], 0⟩⟩
    let index : Route :=
      ⟨some "users".toList, [], some "./p/users/index.vue".toList, [], ⟨["users".toList, "index".toList], 1⟩⟩
    let user : Route :=
      ⟨some "users_id".toList, ":id".toList, some "./p/users/_id.vue".toList, [], ⟨["users".toList, "_id".toList], 1⟩⟩
    let files := ["p/users.vue".toList, "p/users/_id.vue".toList, "p/users/index.vue".toList]
    (some users, [index, user]) ∈ (compile (.forPages "p".toList) files).routes.families ∧
      (∀ key ∈ user.origin.keys, key ≠ []) ∧
      Route.segmentsAmong [index, user] user.origin = [":id".toList] ∧
      Text.parts Path.isSlash user.path = Route.segmentsAmong [index, user] user.origin := by
  intro users index user files
  have hfamilies : (compile (.forPages "p".toList) files).routes.families =
      [(none, [users]), (some users, [index, user]), (some index, []), (some user, [])] := by
    have hpages : pagesOf (.forPages "p".toList) files =
        [⟨"p/users.vue".toList, ["users".toList], "./p/users.vue".toList⟩,
          ⟨"p/users/_id.vue".toList, ["users".toList, "_id".toList], "./p/users/_id.vue".toList⟩,
          ⟨"p/users/index.vue".toList, ["users".toList, "index".toList], "./p/users/index.vue".toList⟩] := rfl
    rw [routes_compile, draftOf_eq hpages (by decide)]
    rfl
  have hf : (some users, [index, user]) ∈ (compile (.forPages "p".toList) files).routes.families := by
    rw [hfamilies]
    exact List.mem_cons_of_mem _ List.mem_cons_self
  have hkeys : ∀ key ∈ user.origin.keys, key ≠ [] := by decide
  have hpath := compile_path_eq _ files _ _ user hf (by simp) hkeys
  exact ⟨hf, hkeys, by decide, hpath.2.1⟩

end Compilation

end RouteTable
