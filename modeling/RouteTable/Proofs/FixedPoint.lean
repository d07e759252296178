import RouteTable.Proofs.Address
import RouteTable.Proofs.LeadingSlashes

namespace RouteTable

open Segment

namespace Segment

variable {s : Text}

theorem length_required_le (s : Text) : (required s).length ≤ s.length := by
  rcases required_cases s with hs | ⟨front, he, _, hs⟩
  · rw [hs]
  · rw [hs, he, List.length_append]
    exact Nat.le_add_right _ _

theorem length_iterate_required_le (n : Nat) (s : Text) : (required^[n] s).length ≤ s.length := by
  induction n generalizing s with
  | zero => exact Nat.le_refl _
  | succ n ih => exact (ih (required s)).trans (length_required_le s)

theorem required_eq_self_iff : required s = s ↔ (PatternKind.of s).isOptional = false := by
  constructor
  · intro h
    by_contra hoptional
    have hoptional : (PatternKind.of s).isOptional = true := by simpa using hoptional
    have hdrop : s.dropLast = s := by rwa [required, if_pos hoptional] at h
    have hnil : s = [] := by
      have hlength := congrArg List.length hdrop
      rw [List.length_dropLast] at hlength
      exact List.eq_nil_of_length_eq_zero (by omega)
    subst hnil
    cases hoptional
  · intro h
    simp [required, h]

theorem iterate_required_eq_self_iff {n : Nat} (hn : 0 < n) : required^[n] s = s ↔ required s = s := by
  refine ⟨fun h => ?_, fun h => Function.iterate_fixed h n⟩
  obtain ⟨n, rfl⟩ := Nat.exists_eq_succ_of_ne_zero hn.ne'
  rw [Function.iterate_succ_apply] at h
  have hlength := length_iterate_required_le n (required s)
  rw [h] at hlength
  rcases required_cases s with hs | ⟨front, he, _, hs⟩
  · exact hs
  · rw [hs, he, List.length_append, List.length_singleton] at hlength
    omega

end Segment

namespace Route

variable {origin : Origin} {prefixes : List (List Text)} {segments : List Text} {nested : Bool} {r r' : Route}

theorem getElem?_requireAll_of_le (origin : Origin) (prefixes : List (List Text)) (segments : List Text) {i : Nat}
    (hi : origin.keys.length ≤ origin.base + i) : (requireAll origin prefixes segments)[i]? = segments[i]? := by
  induction prefixes generalizing segments with
  | nil => rfl
  | cons indexPrefix prefixes ih =>
      rw [requireAll, List.foldl_cons, ← requireAll, ih, requireAt]
      split
      · next hguard =>
          simp only [Bool.and_eq_true, decide_eq_true_eq] at hguard
          exact List.getElem?_modify_ne _ _ (by omega)
      · rfl

/-- A segment is still optional where an index page answers for the folder of the keys before it. -/
def LeavesOptional (prefixes : List (List Text)) (origin : Origin) (segments : List Text) : Prop :=
  ∃ i s, origin.base + i < origin.keys.length ∧ origin.keys.take (origin.base + i) ∈ prefixes ∧
    segments[i]? = some s ∧ (PatternKind.of s).isOptional = true

theorem requireAll_eq_self_iff :
    requireAll origin prefixes segments = segments ↔ ¬LeavesOptional prefixes origin segments := by
  constructor
  · rintro h ⟨i, s, hi, hmem, hs, hoptional⟩
    have hstep := getElem?_requireAll origin prefixes segments hi
    rw [h, hs, Option.map_some, Option.some.injEq, eq_comm,
      iterate_required_eq_self_iff (List.count_pos_iff.2 hmem), required_eq_self_iff, hoptional] at hstep
    cases hstep
  · intro h
    refine List.ext_getElem? fun i => ?_
    by_cases hi : origin.base + i < origin.keys.length
    · rw [getElem?_requireAll origin prefixes segments hi]
      cases hs : segments[i]? with
      | none => rfl
      | some s =>
          refine congrArg some ?_
          by_cases hmem : origin.keys.take (origin.base + i) ∈ prefixes
          · refine Function.iterate_fixed (required_eq_self_iff.2 ?_) _
            by_contra hoptional
            exact h ⟨i, s, hi, hmem, hs, by simpa using hoptional⟩
          · rw [List.count_eq_zero.2 hmem]
            rfl
    · exact getElem?_requireAll_of_le origin prefixes segments (Nat.le_of_not_lt hi)

theorem normalPath_eq (prefixes : List (List Text)) (nested : Bool) (r : Route) :
    r.normalPath prefixes nested = if (r.barePath nested).contains '?' then
      (if nested then [] else ['/']) ++
        Text.joinWith '/' (requireAll r.origin prefixes (Text.parts Path.isSlash (r.barePath nested)))
    else r.barePath nested := rfl

theorem withoutSlash_eq_self_iff {path : Text} :
    withoutSlash path = path ↔ Text.startsWith '/' path = false := by
  cases path with
  | nil => exact iff_of_true rfl rfl
  | cons c path =>
      by_cases hc : c = '/'
      · subst hc
        refine iff_of_false (fun h => ?_) (by simp [Text.startsWith])
        have hlength := congrArg List.length h
        rw [withoutSlash, List.length_cons] at hlength
        omega
      · refine iff_of_true ?_ (by simpa [Text.startsWith] using hc)
        unfold withoutSlash
        split
        · next he => exact absurd (List.cons.inj he).1 hc
        · rfl

theorem join_parts_normalPath (h : '?' ∈ r.normalPath prefixes nested) :
    (if nested then [] else ['/']) ++ Text.joinWith '/' (Text.parts Path.isSlash (r.normalPath prefixes nested)) =
      r.normalPath prefixes nested := by
  rw [normalPath_eq] at h ⊢
  by_cases hmark : (r.barePath nested).contains '?'
  · rw [if_pos hmark, Text.parts_lead_joinWith]
    exact isSegment_of_mem_requireAll _ _ fun _ => isSegment_of_mem_parts
  · rw [if_neg hmark] at h
    exact absurd (List.contains_iff_mem.2 h) hmark

theorem not_leavesOptional_of_not_mem {path : Text} (h : '?' ∉ path) :
    ¬LeavesOptional prefixes origin (Text.parts Path.isSlash path) := by
  rintro ⟨i, s, _, _, hs, hoptional⟩
  have hmark : '?' ∈ s := by
    by_contra hnone
    rw [required_eq_self_iff.1 (required_eq_self hnone)] at hoptional
    cases hoptional
  exact h (Text.mem_of_mem_parts (List.mem_of_getElem? hs) hmark).1

structure Settled (prefixes : List (List Text)) (nested : Bool) (r : Route) : Prop where
  relative : nested = true → Text.startsWith '/' r.path = false
  required : ¬LeavesOptional prefixes r.origin r.segments

theorem normalPath_eq_path_iff (hpath : r'.path = r.normalPath prefixes nested) :
    r'.normalPath prefixes nested = r'.path ↔ r'.Settled prefixes nested := by
  constructor
  · intro h
    constructor
    · rintro rfl
      rcases normalPath_cases prefixes true r' with hbare | ⟨_, hjoined⟩
      · exact withoutSlash_eq_self_iff.1 (hbare.symm.trans h)
      · rw [← h, hjoined]
        exact startsWith_join_requireAll r'.origin prefixes r'.path
    · rw [segments, ← parts_barePath nested]
      by_cases hmark : '?' ∈ r'.barePath nested
      · have hjoined := normalPath_eq prefixes nested r'
        rw [if_pos (List.contains_iff_mem.2 hmark), h] at hjoined
        have hparts := congrArg (Text.parts Path.isSlash) hjoined
        rw [Text.parts_lead_joinWith nested
          (isSegment_of_mem_requireAll _ _ fun _ => isSegment_of_mem_parts), ← parts_barePath nested] at hparts
        exact requireAll_eq_self_iff.1 hparts.symm
      · exact not_leavesOptional_of_not_mem hmark
  · rintro ⟨hrelative, hleft⟩
    have hbare : r'.barePath nested = r'.path := by
      cases nested with
      | false => rfl
      | true => exact withoutSlash_eq_self_iff.2 (hrelative rfl)
    rw [normalPath_eq, hbare]
    have hkept : requireAll r'.origin prefixes (Text.parts Path.isSlash r'.path) = Text.parts Path.isSlash r'.path :=
      requireAll_eq_self_iff.2 hleft
    by_cases hmark : '?' ∈ r'.path
    · rw [if_pos (List.contains_iff_mem.2 hmark), hkept]
      rw [hpath] at hmark ⊢
      exact join_parts_normalPath hmark
    · exact if_neg fun hc => hmark (List.contains_iff_mem.1 hc)

theorem indexName_of_ne {name : Text} (h : name ≠ builtName origin.keys) : indexName origin name = name := by
  rw [indexName, if_neg (by simp [h])]

theorem indexName_indexName (origin : Origin) (name : Text) :
    indexName origin (indexName origin name) = indexName origin name := by
  by_cases hname : indexName origin name = name
  · rw [hname, hname]
  · refine indexName_of_ne fun hbuilt => hname ?_
    have hsame : name = builtName origin.keys := by
      by_contra hne
      exact hname (indexName_of_ne hne)
    exact hbuilt.trans hsame.symm

theorem normal_eq_self_iff {holdsIndex holdsIndex' : Bool} (hr : r' = r.normal prefixes nested holdsIndex) :
    r'.normal prefixes nested holdsIndex' = r' ↔
      r'.Settled prefixes nested ∧ (holdsIndex' = true → r'.name = none) := by
  have hname : r'.name.map (indexName r'.origin) = r'.name := by
    subst hr
    cases holdsIndex with
    | true => rfl
    | false => simp [normal, Option.map_map, Function.comp_def, indexName_indexName]
  have hparts : r'.normal prefixes nested holdsIndex' = r' ↔ r'.normalPath prefixes nested = r'.path ∧
      (if holdsIndex' then none else r'.name.map (indexName r'.origin)) = r'.name := by
    refine ⟨fun h => ⟨congrArg Route.path h, congrArg Route.name h⟩, fun ⟨hpath, hkept⟩ => ?_⟩
    rw [normal, hpath, hkept]
  have hpath : r'.path = r.normalPath prefixes nested := congrArg Route.path hr
  rw [hparts, hname, normalPath_eq_path_iff hpath]
  cases holdsIndex' with
  | true => simp [eq_comm]
  | false => simp

end Route

namespace Forest

variable {prefixes : List (List Text)} {nested : Bool} {f : Forest Route}

theorem indexPrefixes_normalizeWith (prefixes : List (List Text)) (nested : Bool) (f : Forest Route) :
    indexPrefixes (f.normalizeWith prefixes nested) = indexPrefixes f := by
  have hstems : (f.normalizeWith prefixes nested).roots.map Route.stem = f.roots.map Route.stem := by
    rw [← roots_map, ← roots_map, map_stem_normalizeWith]
  exact Route.folders_eq_of_map_stem_eq hstems

theorem holdsIndex_iff (f : Forest Route) : holdsIndex f = true ↔ ∃ r ∈ f.roots, r.path = [] := by
  simp [holdsIndex]

/-- What a second pass keeps below a route: the paths, and the name above an empty one. -/
def Keeps (family : Option Route × List Route) : Prop :=
  ∀ r ∈ family.2, r.Settled (Route.folders family.2) true ∧ ∀ p, family.1 = some p → r.path = [] → p.name = none

theorem keeps_below_iff {route : Route} {below : Forest Route} :
    Keeps (some route, below.roots) ↔
      (∀ r ∈ below.roots, r.Settled (indexPrefixes below) true) ∧ (holdsIndex below = true → route.name = none) := by
  rw [holdsIndex_iff]
  constructor
  · intro h
    refine ⟨fun r hr => (h r hr).1, ?_⟩
    rintro ⟨r, hr, hpath⟩
    exact (h r hr).2 route rfl hpath
  · rintro ⟨hsettled, hname⟩ r hr
    refine ⟨hsettled r hr, ?_⟩
    rintro p ⟨rfl⟩ hpath
    exact hname ⟨r, hr, hpath⟩

theorem normalizeWith_normalizeWith_iff (prefixes : List (List Text)) (nested : Bool) (f : Forest Route) :
    (f.normalizeWith prefixes nested).normalizeWith prefixes nested = f.normalizeWith prefixes nested ↔
      (∀ r ∈ (f.normalizeWith prefixes nested).roots, r.Settled prefixes nested) ∧
        ∀ family ∈ (f.normalizeWith prefixes nested).inner, Keeps family := by
  induction f generalizing prefixes nested with
  | nil => exact iff_of_true rfl ⟨fun _ hr => absurd hr List.not_mem_nil, fun _ hf => absurd hf List.not_mem_nil⟩
  | cons route below after ihb iha =>
      have hbelow := ihb (indexPrefixes below) true
      have hafter := iha prefixes nested
      have hroute : ∀ holdsIndex',
          (route.normal prefixes nested (holdsIndex below)).normal prefixes nested holdsIndex' =
            route.normal prefixes nested (holdsIndex below) ↔ _ := fun _ => Route.normal_eq_self_iff rfl
      have hfolders := indexPrefixes_normalizeWith (indexPrefixes below) true below
      simp only [normalizeWith, roots, inner, cons.injEq, List.forall_mem_cons, List.forall_mem_append,
        keeps_below_iff, hroute, hfolders, hbelow, hafter]
      tauto

/-- What normalizing promises of a forest, a `nested` one hanging below a route that is not part of it. -/
structure IsNormal (nested : Bool) (f : Forest Route) : Prop where
  relative : ∀ above siblings, (above, siblings) ∈ f.families → (nested || above.isSome) = true →
    ∀ r ∈ siblings, Text.startsWith '/' r.path = false
  unnamed : ∀ p r, f.IsChild (some p) r → r.path = [] → p.name = none
  required : ∀ above siblings, (above, siblings) ∈ f.families →
    ∀ r ∈ siblings, ¬Route.LeavesOptional (Route.folders siblings) r.origin r.segments

theorem isSome_of_mem_inner {above : Option Route} {siblings : List Route} (h : (above, siblings) ∈ f.inner) :
    above.isSome = true := by
  induction f with
  | nil => cases h
  | cons route below after ihb iha =>
      simp only [inner, List.mem_cons, List.mem_append, Prod.mk.injEq] at h
      rcases h with ⟨rfl, _⟩ | h | h
      · rfl
      · exact ihb h
      · exact iha h

theorem isNormal_iff : f.IsNormal nested ↔
    (∀ r ∈ f.roots, r.Settled (indexPrefixes f) nested) ∧ ∀ family ∈ f.inner, Keeps family := by
  constructor
  · intro h
    refine ⟨fun r hr => ⟨fun hn => ?_, ?_⟩, fun ⟨above, siblings⟩ hf r hr => ⟨⟨fun _ => ?_, ?_⟩, ?_⟩⟩
    · exact h.relative none f.roots List.mem_cons_self (by rw [hn]; rfl) r hr
    · exact h.required none f.roots List.mem_cons_self r hr
    · exact h.relative above siblings (List.mem_cons_of_mem _ hf) (by simp [isSome_of_mem_inner hf]) r hr
    · exact h.required above siblings (List.mem_cons_of_mem _ hf) r hr
    · rintro p rfl
      exact h.unnamed p r ⟨siblings, List.mem_cons_of_mem _ hf, hr⟩
  · rintro ⟨houter, hinner⟩
    refine ⟨fun above siblings hf hn r hr => ?_, ?_, fun above siblings hf r hr => ?_⟩
    · rcases List.mem_cons.1 hf with he | hf
      · cases he
        exact (houter r hr).relative (by simpa using hn)
      · exact (hinner _ hf r hr).1.relative rfl
    · rintro p r ⟨siblings, hf, hr⟩
      rcases List.mem_cons.1 hf with he | hf
      · cases he
      · exact (hinner _ hf r hr).2 p rfl
    · rcases List.mem_cons.1 hf with he | hf
      · cases he
        exact (houter r hr).required
      · exact (hinner _ hf r hr).1.required

theorem normalize_normalize_eq_iff (nested : Bool) (f : Forest Route) :
    (f.normalize nested).normalize nested = f.normalize nested ↔ (f.normalize nested).IsNormal nested := by
  rw [isNormal_iff, normalize, normalize, indexPrefixes_normalizeWith]
  exact normalizeWith_normalizeWith_iff (indexPrefixes f) nested f

end Forest

namespace Route

variable {r p : Route}

theorem Joins.path_eq_nil {prefixes : List (List Text)} (h : r.Joins (some p))
    (hkeys : ∀ key ∈ r.origin.keys, key ≠ []) (hpath : r.normalPath prefixes true = []) : r.path = [] := by
  rcases ((normalPath_eq_nil_iff fun htop => by cases htop).1 hpath).2 with hnil | hslash
  · exact hnil
  · have hown := h.path_eq.symm.trans hslash
    rw [Landing.pathFrom_of_pos (h.below p rfl).1] at hown
    cases hpatterns : patterns (r.origin.keys.drop r.origin.base) with
    | nil =>
        rw [hpatterns] at hown
        cases hown
    | cons s rest =>
        rw [hpatterns, List.flatMap_cons, List.cons_append, List.cons.injEq] at hown
        have hs : s = [] := (List.append_eq_nil_iff.1 hown.2).1
        have hmem : [] ∈ patterns (r.origin.keys.drop r.origin.base) := by
          rw [hpatterns, hs]
          exact List.mem_cons_self
        exact absurd rfl (hkeys [] (List.mem_of_mem_drop (nil_mem_of_nil_mem_patterns hmem)))

end Route

namespace Compilation

variable {options : CompileOptions} {files : List Text}

/-- No segment of a page is blank, and no parameter has a mark left when it is required. -/
structure Tidy (options : CompileOptions) (files : List Text) : Prop where
  not_blank : ∀ page ∈ pagesOf options files, ∀ raw ∈ page.keys, raw.all Text.isBlank = false
  marked_once : ∀ page ∈ pagesOf options files, ∀ key ∈ page.routeKeys,
    (PatternKind.of (required (pattern key))).isOptional = false

namespace Tidy

variable (h : Tidy options files) {above : Option Route} {siblings : List Route} {p r : Route}
include h

theorem not_leavesOptional (hf : (above, siblings) ∈ (compile options files).routes.families) (hr : r ∈ siblings) :
    ¬Route.LeavesOptional (Route.folders siblings) r.origin r.segments := by
  have hlabel : r ∈ (compile options files).routes.labels := Forest.mem_labels_iff.2 ⟨above, siblings, hf, hr⟩
  obtain ⟨page, hpage, _, hpagekeys⟩ := exists_page_of_mem_labels hlabel
  rintro ⟨i, s, hi, hmem, hs, hoptional⟩
  rw [Route.segments, parts_path_eq hf hr (key_ne_nil_of_not_blank h.not_blank hlabel), Route.segmentsAmong,
    List.getElem?_mapIdx] at hs
  obtain ⟨key, hkey, he⟩ := Option.map_eq_some_iff.1 hs
  have hanswers : Route.indexAnswers siblings (r.origin.keys.take (r.origin.base + i)) = true := by
    rw [Forest.indexAnswers_eq_decide]
    exact decide_eq_true hmem
  rw [if_pos hanswers] at he
  have hown : key ∈ r.origin.keys :=
    List.mem_of_mem_drop ((withoutIndex_sublist _).mem (List.mem_of_getElem? hkey))
  rw [← he, h.marked_once page hpage key (hpagekeys ▸ hown)] at hoptional
  cases hoptional

theorem name_eq_none (hchild : (compile options files).routes.IsChild (some p) r) (hpath : r.path = []) :
    p.name = none := by
  have hkeys := key_ne_nil_of_not_blank h.not_blank (Forest.mem_labels_iff.2 ⟨_, hchild⟩)
  obtain ⟨siblings, hf, hr⟩ := hchild
  obtain ⟨above₀, siblings₀, hf₀, hfamily⟩ := Forest.exists_normalizesFamily hf
  obtain ⟨p₀, prefixes, nested, rfl, rfl⟩ := hfamily.exists_above
  obtain ⟨r₀, hr₀, holdsIndex, rfl⟩ := exists_mem_of_forall₂ hfamily.siblings hr
  have hjoins := (linked_draftOf options files).joins _ r₀ ⟨siblings₀, hf₀, hr₀⟩
  have hempty : (siblings₀.any fun r => r.path.isEmpty) = true :=
    List.any_eq_true.2 ⟨r₀, hr₀, List.isEmpty_iff.2 (hjoins.path_eq_nil hkeys hpath)⟩
  exact if_pos hempty

theorem isNormal : (compile options files).routes.IsNormal false where
  relative above siblings hf hn r hr := by
    have hlabel : r ∈ (compile options files).routes.labels := Forest.mem_labels_iff.2 ⟨above, siblings, hf, hr⟩
    obtain ⟨hne, hkeys⟩ := isSegment_of_mem_keys hlabel (key_ne_nil_of_not_blank h.not_blank hlabel)
    rw [path_eq_segmentsAmong hf hr hne hkeys, if_pos (by simpa using hn)]
    exact Text.startsWith_joinWith (Route.isSegment_of_mem_segmentsAmong hkeys)
  unnamed p r := h.name_eq_none
  required above siblings hf r hr := h.not_leavesOptional hf hr

end Tidy

/-- A second pass keeps a compiled table if and only if the table is normal, as it is where no segment of a page
is blank and no parameter has a second mark. -/
theorem normalize_compile_eq_iff (options : CompileOptions) (files : List Text) :
    ((compile options files).routes.normalize false = (compile options files).routes ↔
        (compile options files).routes.IsNormal false) ∧
      (Tidy options files →
        (compile options files).routes.normalize false = (compile options files).routes) := by
  have hiff : (compile options files).routes.normalize false = (compile options files).routes ↔
      (compile options files).routes.IsNormal false := by
    rw [routes_compile]
    exact Forest.normalize_normalize_eq_iff false _
  exact ⟨hiff, fun h => hiff.2 h.isNormal⟩

/-- Each promise is broken alone: by a blank folder, by a blank page, and by a parameter with two marks. -/
theorem normalize_compile_ne_apart :
    let options := CompileOptions.forPages "p".toList
    let folder := ["p/a.vue".toList, "p/a/ /b.vue".toList]
    let page := ["p/a.vue".toList, "p/a/ .vue".toList]
    let marked := ["p/_x?.vue".toList, "p/index.vue".toList]
    let users := ["p/users.vue".toList, "p/users/_id.vue".toList]
    (compile options folder).routes.normalize false ≠ (compile options folder).routes ∧
      (compile options page).routes.normalize false ≠ (compile options page).routes ∧
      (compile options marked).routes.normalize false ≠ (compile options marked).routes ∧
      Tidy options users ∧ (compile options users).routes.normalize false = (compile options users).routes := by
  intro options folder page marked users
  let a : Route := ⟨some "a".toList, "/a".toList, some "./p/a.vue".toList, [], ⟨["a".toList], 0⟩⟩
  refine ⟨fun h => ?_, fun h => ?_, fun h => ?_, ?_⟩
  · let b : Route :=
      ⟨some "a__b".toList, "/b".toList, some "./p/a/ /b.vue".toList, [], ⟨["a".toList, [], "b".toList], 1⟩⟩
    have hpages : pagesOf options folder = [⟨"p/a.vue".toList, ["a".toList], "./p/a.vue".toList⟩,
        ⟨"p/a/ /b.vue".toList, ["a".toList, " ".toList, "b".toList], "./p/a/ /b.vue".toList⟩] := rfl
    have hroutes : (compile options folder).routes = .cons a (.cons b .nil .nil) .nil := by
      rw [routes_compile, draftOf_eq hpages (by decide)]
      rfl
    have hnormal := (normalize_compile_eq_iff options folder).1.1 h
    rw [hroutes] at hnormal
    have hrelative := hnormal.relative (some a) [b] (List.mem_cons_of_mem _ List.mem_cons_self) rfl b List.mem_cons_self
    cases hrelative
  · let b : Route := ⟨some "a_".toList, [], some "./p/a/ .vue".toList, [], ⟨["a".toList, []], 1⟩⟩
    have hpages : pagesOf options page = [⟨"p/a.vue".toList, ["a".toList], "./p/a.vue".toList⟩,
        ⟨"p/a/ .vue".toList, ["a".toList, " ".toList], "./p/a/ .vue".toList⟩] := rfl
    have hroutes : (compile options page).routes = .cons a (.cons b .nil .nil) .nil := by
      rw [routes_compile, draftOf_eq hpages (by decide)]
      rfl
    have hnormal := (normalize_compile_eq_iff options page).1.1 h
    rw [hroutes] at hnormal
    have hunnamed := hnormal.unnamed a b ⟨[b], List.mem_cons_of_mem _ List.mem_cons_self, List.mem_cons_self⟩ rfl
    cases hunnamed
  · let index : Route := ⟨some "index".toList, "/".toList, some "./p/index.vue".toList, [], ⟨["index".toList], 0⟩⟩
    let x : Route := ⟨some "x?".toList, "/:x?".toList, some "./p/_x?.vue".toList, [], ⟨["_x?".toList], 0⟩⟩
    have hpages : pagesOf options marked = [⟨"p/_x?.vue".toList, ["_x?".toList], "./p/_x?.vue".toList⟩,
        ⟨"p/index.vue".toList, ["index".toList], "./p/index.vue".toList⟩] := rfl
    have hroutes : (compile options marked).routes = .cons index .nil (.cons x .nil .nil) := by
      rw [routes_compile, draftOf_eq hpages (by decide)]
      rfl
    have hnormal := (normalize_compile_eq_iff options marked).1.1 h
    rw [hroutes] at hnormal
    refine hnormal.required none [index, x] List.mem_cons_self x (by simp) ⟨0, ":x?".toList, by decide, ?_, rfl, rfl⟩
    decide
  · have htidy : Tidy options users := by
      have hpages : pagesOf options users = [⟨"p/users.vue".toList, ["users".toList], "./p/users.vue".toList⟩,
          ⟨"p/users/_id.vue".toList, ["users".toList, "_id".toList], "./p/users/_id.vue".toList⟩] := rfl
      refine ⟨?_, ?_⟩
      · rw [hpages]
        decide
      · rw [hpages]
        decide
    exact ⟨htidy, (normalize_compile_eq_iff options users).2 htidy⟩

end Compilation

end RouteTable
