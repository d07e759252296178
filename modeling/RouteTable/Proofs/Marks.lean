import Mathlib.Data.List.TakeWhile
import RouteTable.Proofs.LeadingSlashes

namespace RouteTable

open Segment

namespace Text

variable {c : Char} {s : Text}

theorem startsWith_head_parts (isSep : Char → Bool) (c : Char) (s : Text) :
    startsWith c ((parts isSep s).headD []) = startsWith c (s.dropWhile isSep) := by
  induction s with
  | nil => rfl
  | cons d s ih =>
      by_cases hd : isSep d
      · have hparts : parts isSep (d :: s) = parts isSep s := by simp [parts, pieces, hd]
        rw [hparts, List.dropWhile_cons_of_pos hd, ih]
      · obtain ⟨p, ps, hpieces⟩ := List.exists_cons_of_ne_nil (pieces_ne_nil isSep s)
        have hparts : (parts isSep (d :: s)).headD [] = d :: p := by simp [parts, pieces, hd, hpieces]
        rw [hparts, List.dropWhile_cons_of_neg hd]
        rfl

theorem startsWith_eq_true_iff : startsWith c s = true ↔ ∃ rest, s = c :: rest := by
  cases s <;> simp [startsWith]

end Text

namespace Segment

variable {raw key s : Text} {keys : List Text}

/-- Blanks before a `!`. -/
def HidesMark (raw : Text) : Prop :=
  ∃ blanks rest, blanks ≠ [] ∧ (∀ c ∈ blanks, Text.isBlank c = true) ∧ raw = blanks ++ '!' :: rest

theorem startsWith_key_iff (h : Text.startsWith '!' raw = false) :
    Text.startsWith '!' (ofText raw).key = true ↔ HidesMark raw := by
  rw [key_ofText, Text.words, Text.startsWith_head_parts, Text.startsWith_eq_true_iff]
  constructor
  · rintro ⟨rest, hrest⟩
    have hraw : raw = raw.takeWhile Text.isBlank ++ '!' :: rest := by rw [← hrest, List.takeWhile_append_dropWhile]
    refine ⟨raw.takeWhile Text.isBlank, rest, fun hnil => ?_, fun c => List.mem_takeWhile_imp, hraw⟩
    rw [hnil] at hraw
    rw [hraw] at h
    cases h
  · rintro ⟨blanks, rest, _, hblanks, rfl⟩
    exact ⟨rest, by rw [List.dropWhile_append_of_pos hblanks, List.dropWhile_cons_of_neg (by decide)]⟩

/-- Static text that starts with a mark. -/
def isMarkedLiteral (s : Text) : Bool := PatternKind.of s == .static && Text.startsWith '!' s

theorem isMarkedLiteral_iff : isMarkedLiteral s = true ↔ PatternKind.of s = .static ∧ Text.startsWith '!' s = true := by
  rw [isMarkedLiteral, Bool.and_eq_true, beq_iff_eq]

theorem isMarkedLiteral_of_colon (h : ':' ∈ s) : isMarkedLiteral s = false := by
  refine Bool.eq_false_iff.2 fun hmarked => ?_
  have hstatic := (isMarkedLiteral_iff.1 hmarked).1
  rw [PatternKind.of, if_pos (List.contains_iff_mem.2 h)] at hstatic
  split at hstatic <;> cases hstatic

theorem isMarkedLiteral_required (s : Text) : isMarkedLiteral (required s) = isMarkedLiteral s := by
  rcases required_cases s with hs | ⟨front, rfl, hcolon, hs⟩
  · rw [hs]
  · rw [hs, isMarkedLiteral_of_colon hcolon, isMarkedLiteral_of_colon (List.mem_append_left _ hcolon)]

theorem isMarkedLiteral_pattern (key : Text) : isMarkedLiteral (pattern key) = isMarkedLiteral key := by
  rcases pattern_cases key with ⟨name, rfl, _, hp⟩ | ⟨_, hp⟩
  · rw [hp, isMarkedLiteral_of_colon (List.mem_append_left _ List.mem_cons_self), isMarkedLiteral]
    exact (Bool.and_false _).symm
  · rw [hp]

theorem exists_marked_patterns_iff (keys : List Text) :
    (∃ s ∈ patterns keys, isMarkedLiteral s = true) ↔ ∃ key ∈ keys, isMarkedLiteral key = true := by
  constructor
  · rintro ⟨s, hs, hmarked⟩
    obtain ⟨key, hkey, rfl⟩ := List.mem_map.1 hs
    exact ⟨key, (withoutIndex_sublist keys).mem hkey, isMarkedLiteral_pattern key ▸ hmarked⟩
  · rintro ⟨key, hkey, hmarked⟩
    have hkept : key ∈ withoutIndex keys := by
      rcases withoutIndex_cases keys with hsame | ⟨front, rfl, hfront⟩
      · rwa [hsame]
      · rw [hfront]
        rcases List.mem_append.1 hkey with hkey | hindex
        · exact hkey
        · cases List.mem_singleton.1 hindex
          cases hmarked
    exact ⟨pattern key, List.mem_map_of_mem hkept, (isMarkedLiteral_pattern key).trans hmarked⟩

end Segment

namespace Route

variable {r : Route} {above : Option Route}

theorem Joins.parts_path (h : r.Joins above) (hne : r.origin.keys ≠ []) (hslash : ∀ key ∈ r.origin.keys, '/' ∉ key) :
    Text.parts Path.isSlash r.path =
      (patterns (r.origin.keys.drop r.origin.base)).filter fun s => !s.isEmpty := by
  have hbare : r.barePath above.isSome = (if above.isSome then [] else ['/']) ++
      Text.joinWith '/' (patterns (r.origin.keys.drop r.origin.base)) := h.bare_path hne
  rw [← parts_barePath above.isSome, hbare, Text.parts_lead]
  exact Text.parts_joinWith_eq_filter (slash_not_mem_patterns fun key hkey => hslash key (List.mem_of_mem_drop hkey))

theorem Joins.exists_marked_iff (h : r.Joins above) (hne : r.origin.keys ≠ [])
    (hslash : ∀ key ∈ r.origin.keys, '/' ∉ key) (prefixes : List (List Text)) (nested : Bool) :
    (∃ s ∈ Text.parts Path.isSlash (r.normalPath prefixes nested), isMarkedLiteral s = true) ↔
      ∃ key ∈ r.origin.keys.drop r.origin.base, isMarkedLiteral key = true := by
  have hsegments : (∃ s ∈ Text.parts Path.isSlash r.path, isMarkedLiteral s = true) ↔
      ∃ s ∈ patterns (r.origin.keys.drop r.origin.base), isMarkedLiteral s = true := by
    rw [h.parts_path hne hslash]
    refine exists_congr fun s => ⟨fun ⟨hs, hmarked⟩ => ⟨(List.mem_filter.1 hs).1, hmarked⟩, fun ⟨hs, hmarked⟩ => ?_⟩
    cases s with
    | nil => cases hmarked
    | cons c s => exact ⟨List.mem_filter.2 ⟨hs, rfl⟩, hmarked⟩
  calc (∃ s ∈ Text.parts Path.isSlash (r.normalPath prefixes nested), isMarkedLiteral s = true)
      ↔ true ∈ (Text.parts Path.isSlash (r.normalPath prefixes nested)).map isMarkedLiteral := List.mem_map.symm
    _ ↔ true ∈ (Text.parts Path.isSlash r.path).map isMarkedLiteral := by
        rw [map_parts_normalPath isMarkedLiteral_required]
    _ ↔ ∃ s ∈ Text.parts Path.isSlash r.path, isMarkedLiteral s = true := List.mem_map
    _ ↔ ∃ s ∈ patterns (r.origin.keys.drop r.origin.base), isMarkedLiteral s = true := hsegments
    _ ↔ ∃ key ∈ r.origin.keys.drop r.origin.base, isMarkedLiteral key = true := exists_marked_patterns_iff _

end Route

namespace Page

variable {page : Page}

theorem exists_marked_routeKeys_iff (h : isDeleted page.keys = false) :
    (∃ key ∈ page.routeKeys, Text.startsWith '!' key = true) ↔ ∃ raw ∈ page.keys, HidesMark raw := by
  have hraw : ∀ raw ∈ page.keys, Text.startsWith '!' raw = false := by
    simpa [isDeleted] using h
  constructor
  · rintro ⟨key, hkey, hmarked⟩
    obtain ⟨raw, hmem, rfl⟩ := List.mem_map.1 hkey
    exact ⟨raw, hmem, (startsWith_key_iff (hraw raw hmem)).1 hmarked⟩
  · rintro ⟨raw, hmem, hhides⟩
    exact ⟨_, List.mem_map_of_mem hmem, (startsWith_key_iff (hraw raw hmem)).2 hhides⟩

end Page

namespace Compilation

variable {options : CompileOptions} {files : List Text} {page : Page}

theorem not_isDeleted_of_mem_pagesOf (h : page ∈ pagesOf options files) : Page.isDeleted page.keys = false := by
  have hrole := (mem_pagesOf.1 h).2
  have hkeys := (FileRole.of_eq_page hrole).2.1
  by_contra hdeleted
  rw [CompileOptions.roleOf, FileRole.of, ← hkeys, if_pos (by simpa using hdeleted)] at hrole
  cases hrole

/-- The page of a route is not switched off. What can bring a mark into the route all the same are blanks before
it: they hide it from the one test there is, which is made before the mixins are split off. -/
theorem compile_marked_iff (options : CompileOptions) (files : List Text) (r : Route)
    (h : r ∈ (compile options files).routes.labels) :
    (∃ page ∈ pagesOf options files, r.IsOf page ∧ Page.isDeleted page.keys = false ∧
        ((∃ key ∈ r.origin.keys, Text.startsWith '!' key = true) ↔ ∃ raw ∈ page.keys, HidesMark raw)) ∧
      ((∃ s ∈ r.segments, isMarkedLiteral s = true) ↔
        ∃ key ∈ r.origin.keys.drop r.origin.base, isMarkedLiteral key = true) := by
  constructor
  · obtain ⟨page, hpage, hof⟩ := exists_page_of_mem_labels h
    have hlive := not_isDeleted_of_mem_pagesOf hpage
    refine ⟨page, hpage, hof, hlive, ?_⟩
    rw [hof.2]
    exact Page.exists_marked_routeKeys_iff hlive
  · obtain ⟨hne, hslash⟩ := keys_of_mem_labels h
    obtain ⟨above, siblings, hf, hr⟩ := Forest.mem_labels_iff.1 h
    obtain ⟨above₀, siblings₀, r₀, hf₀, hr₀, _, _, holdsIndex, rfl⟩ := exists_draft_family hf hr
    have hjoins := (linked_draftOf options files).joins above₀ r₀ ⟨siblings₀, hf₀, hr₀⟩
    exact hjoins.exists_marked_iff hne hslash _ _

/-- A page whose name starts with a blank and a mark is not switched off, and its route has the mark. -/
theorem marked_behind_blank :
    let draft : Route :=
      ⟨some "!draft".toList, "/!draft".toList, some "./p/ !draft.vue".toList, [], ⟨["!draft".toList], 0⟩⟩
    let files := ["p/ !draft.vue".toList]
    draft ∈ (compile (.forPages "p".toList) files).routes.labels ∧ HidesMark " !draft".toList ∧
      (∃ key ∈ draft.origin.keys, Text.startsWith '!' key = true) ∧ ∃ s ∈ draft.segments, isMarkedLiteral s = true := by
  intro draft files
  have hpages : pagesOf (.forPages "p".toList) files =
      [⟨"p/ !draft.vue".toList, [" !draft".toList], "./p/ !draft.vue".toList⟩] := rfl
  have hroutes : (compile (.forPages "p".toList) files).routes = .cons draft .nil .nil := by
    rw [routes_compile, draftOf_eq hpages (by decide)]
    rfl
  have hlabel : draft ∈ (compile (.forPages "p".toList) files).routes.labels := by
    rw [hroutes]
    exact List.mem_cons_self
  have hhides : HidesMark " !draft".toList := ⟨[' '], "draft".toList, by decide, List.forall_mem_singleton.2 rfl, rfl⟩
  obtain ⟨⟨page, hpage, _, _, hkeys⟩, hsegments⟩ := compile_marked_iff _ files draft hlabel
  rw [hpages] at hpage
  cases List.mem_singleton.1 hpage
  exact ⟨hlabel, hhides, hkeys.2 ⟨_, List.mem_cons_self, hhides⟩,
    hsegments.2 ⟨"!draft".toList, List.mem_cons_self, by decide⟩⟩

end Compilation

end RouteTable
