import RouteTable.Proofs.MatchingOrder

namespace RouteTable

open Segment

/-- The keys behind the base begin with an empty one and go on, and none gives a question mark. -/
def Origin.DoublesSlash (origin : Origin) : Prop :=
  let own := patterns (origin.keys.drop origin.base)
  own.head? = some [] ∧ 1 < own.length ∧ ∀ s ∈ own, '?' ∉ s

namespace Segment

variable {keys : List Text}

theorem slash_not_mem_patterns (h : ∀ key ∈ keys, '/' ∉ key) : ∀ s ∈ patterns keys, '/' ∉ s := by
  intro s hs hslash
  obtain ⟨key, hkey, rfl⟩ := List.mem_map.1 hs
  exact h key ((withoutIndex_sublist keys).mem hkey) (mem_of_mem_pattern (by decide) (by decide) hslash)

theorem nil_mem_of_nil_mem_patterns (h : [] ∈ patterns keys) : [] ∈ keys := by
  obtain ⟨key, hkey, hnil⟩ := List.mem_map.1 h
  have hempty : key = [] := by
    by_contra hne
    exact pattern_ne_nil hne hnil
  exact hempty ▸ (withoutIndex_sublist keys).mem hkey

end Segment

namespace Route

variable {r p : Route} {prefixes : List (List Text)}

theorem startsWith_join_requireAll (origin : Origin) (prefixes : List (List Text)) (path : Text) :
    Text.startsWith '/' (Text.joinWith '/' (requireAll origin prefixes (Text.parts Path.isSlash path))) = false :=
  Text.startsWith_joinWith (isSegment_of_mem_requireAll origin prefixes fun _ => isSegment_of_mem_parts)

theorem Joins.startsWith_normalPath_top (h : r.Joins none) (hne : r.origin.keys ≠ []) :
    Text.startsWith '/' (r.normalPath prefixes false) = true := by
  rcases normalPath_cases prefixes false r with hbare | ⟨_, hjoined⟩
  · rw [hbare, barePath, if_neg Bool.false_ne_true, h.path_eq, h.top rfl, List.drop_zero, Landing.pathFrom_zero hne]
    rfl
  · rw [hjoined]
    rfl

theorem Joins.startsWith_normalPath_nested (h : r.Joins (some p)) (hne : r.origin.keys ≠ [])
    (hslash : ∀ key ∈ r.origin.keys, '/' ∉ key) :
    Text.startsWith '/' (r.normalPath prefixes true) = true ↔ r.origin.DoublesSlash := by
  have hown : ∀ s ∈ patterns (r.origin.keys.drop r.origin.base), '/' ∉ s :=
    slash_not_mem_patterns fun key hkey => hslash key (List.mem_of_mem_drop hkey)
  have hbare : r.barePath true = Text.joinWith '/' (patterns (r.origin.keys.drop r.origin.base)) :=
    h.bare_path hne
  have hmarked : '?' ∈ Text.joinWith '/' (patterns (r.origin.keys.drop r.origin.base)) ↔
      ∃ s ∈ patterns (r.origin.keys.drop r.origin.base), '?' ∈ s := Text.mem_joinWith_iff (by decide)
  by_cases hmark : '?' ∈ r.barePath true
  · have hjoined : r.normalPath prefixes true =
        Text.joinWith '/' (requireAll r.origin prefixes (Text.parts Path.isSlash (r.barePath true))) :=
      if_pos (List.contains_iff_mem.2 hmark)
    rw [hjoined, startsWith_join_requireAll]
    refine iff_of_false Bool.false_ne_true fun ⟨_, _, hnone⟩ => ?_
    obtain ⟨s, hs, hc⟩ := hmarked.1 (hbare ▸ hmark)
    exact hnone s hs hc
  · have hkept : r.normalPath prefixes true = r.barePath true :=
      if_neg fun hc => hmark (List.contains_iff_mem.1 hc)
    have hnone : ∀ s ∈ patterns (r.origin.keys.drop r.origin.base), '?' ∉ s :=
      fun s hs hc => hmark (hbare ▸ hmarked.2 ⟨s, hs, hc⟩)
    rw [hkept, hbare, Text.startsWith_joinWith_iff hown]
    exact ⟨fun ⟨hhead, hlength⟩ => ⟨hhead, hlength, hnone⟩, fun ⟨hhead, hlength, _⟩ => ⟨hhead, hlength⟩⟩

end Route

namespace Compilation

variable {options : CompileOptions} {files : List Text} {above : Option Route} {r : Route}

theorem keys_of_mem_labels (hr : r ∈ (compile options files).routes.labels) :
    r.origin.keys ≠ [] ∧ ∀ key ∈ r.origin.keys, '/' ∉ key := by
  obtain ⟨page, hpage, _, hkeys⟩ := exists_page_of_mem_labels hr
  rw [hkeys]
  exact ⟨by simpa [Page.routeKeys] using keys_ne_nil_of_mem_pagesOf hpage, Page.slash_not_mem_routeKeys hpage⟩

/-- The outermost routes are absolute; a nested one is relative unless an empty key doubles its slash. -/
theorem compile_startsWith_slash_iff (options : CompileOptions) (files : List Text) (above : Option Route) (r : Route)
    (h : (compile options files).routes.IsChild above r) :
    Text.startsWith '/' r.path = true ↔ above = none ∨ r.origin.DoublesSlash := by
  obtain ⟨hne, hslash⟩ := keys_of_mem_labels (Forest.mem_labels_iff.2 ⟨above, h⟩)
  obtain ⟨siblings, hf, hr⟩ := h
  obtain ⟨above₀, siblings₀, r₀, hf₀, hr₀, habove, _, holdsIndex, rfl⟩ := exists_draft_family hf hr
  have hjoins := (linked_draftOf options files).joins above₀ r₀ ⟨siblings₀, hf₀, hr₀⟩
  cases above₀ with
  | none =>
      have hnone : above = none := by simpa using habove
      exact iff_of_true (hjoins.startsWith_normalPath_top hne) (.inl hnone)
  | some p₀ =>
      have hsome : above ≠ none := by
        rintro rfl
        cases habove
      exact (hjoins.startsWith_normalPath_nested hne hslash).trans (or_iff_right hsome).symm

/-- A folder whose name is blank has an empty key; its page keeps one of two slashes. -/
theorem startsWith_slash_below_blank_folder :
    let page : Route := ⟨some "a".toList, "/a".toList, some "./p/a.vue".toList, [], ⟨["a".toList], 0⟩⟩
    let nested : Route :=
      ⟨some "a__b".toList, "/b".toList, some "./p/a/ /b.vue".toList, [], ⟨["a".toList, [], "b".toList], 1⟩⟩
    let files := ["p/a.vue".toList, "p/a/ /b.vue".toList]
    (compile (.forPages "p".toList) files).routes.IsChild (some page) nested ∧ nested.origin.DoublesSlash ∧
      Text.startsWith '/' nested.path = true := by
  intro page nested files
  have hpages : pagesOf (.forPages "p".toList) files =
      [⟨"p/a.vue".toList, ["a".toList], "./p/a.vue".toList⟩,
        ⟨"p/a/ /b.vue".toList, ["a".toList, " ".toList, "b".toList], "./p/a/ /b.vue".toList⟩] := rfl
  have hroutes : (compile (.forPages "p".toList) files).routes = .cons page (.cons nested .nil .nil) .nil := by
    rw [routes_compile, draftOf_eq hpages (by decide)]
    rfl
  have hchild : (compile (.forPages "p".toList) files).routes.IsChild (some page) nested := by
    rw [hroutes]
    exact ⟨[nested], List.mem_cons_of_mem _ List.mem_cons_self, List.mem_cons_self⟩
  have hdoubles : nested.origin.DoublesSlash := ⟨by decide, by decide, by decide⟩
  exact ⟨hchild, hdoubles, (compile_startsWith_slash_iff _ files _ nested hchild).2 (.inr hdoubles)⟩

end Compilation

end RouteTable
