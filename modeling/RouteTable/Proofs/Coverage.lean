import Mathlib.Data.List.Perm.Basic
import RouteTable.Proofs.NormalForm

namespace RouteTable

def FileRole.isPage : FileRole → Bool
  | page _ => true
  | _ => false

namespace Draft

variable {mixins : MixinSet} {page : Page} {w : Warning}

theorem file_of_mem_warningsOf {landing : Landing} (h : w ∈ warningsOf mixins page landing) :
    w.file = page.source ∧ w.isEmptyRoute = false := by
  rcases List.mem_append.1 h with h | h
  · obtain ⟨rejected, _, rfl⟩ := List.mem_map.1 h
    exact ⟨rfl, rfl⟩
  · split at h
    · cases List.mem_singleton.1 h
      exact ⟨rfl, rfl⟩
    · cases h

theorem file_of_mem_insertAll (mixins : MixinSet) (pages : List Page) (hkeys : ∀ p ∈ pages, p.keys ≠ []) :
    ∀ w ∈ (empty.insertAll mixins pages).warnings,
      w.isEmptyRoute = false ∧ ∃ page ∈ pages, w.file = page.source := by
  refine insertAll_induction mixins pages (motive := fun done draft =>
    ∀ w ∈ draft.warnings, w.isEmptyRoute = false ∧ ∃ page ∈ done, w.file = page.source) ?_ ?_
  · intro w hw
    cases hw
  · intro done page rest draft hpages hdone w hw
    rw [insert_of_keys mixins draft page (hkeys page (by simp [hpages]))] at hw
    rcases List.mem_append.1 hw with hold | hnew
    · obtain ⟨hempty, p, hp, hfile⟩ := hdone w hold
      exact ⟨hempty, p, List.mem_append_left _ hp, hfile⟩
    · obtain ⟨hfile, hempty⟩ := file_of_mem_warningsOf hnew
      exact ⟨hempty, page, List.mem_append_right _ (List.mem_singleton_self page), hfile⟩

end Draft

theorem exists_perm_of_map_perm {α β γ : Type} {g : α → γ} {h : β → γ} {xs : List α} {ys : List β}
    (hperm : (xs.map g).Perm (ys.map h)) : ∃ ys', ys'.Perm ys ∧ List.Forall₂ (fun y x => h y = g x) ys' xs := by
  have hcomp := (congrFun₂ (List.eq_map_comp_perm h) (xs.map g) ys).mpr hperm
  obtain ⟨ys', hmap, hys⟩ := hcomp
  have heq := List.forall₂_eq_eq_eq ▸ hmap.symm
  exact ⟨ys', hys, List.forall₂_map_right_iff.1 (List.forall₂_map_left_iff.1 heq)⟩

namespace Forest

variable {f : Forest Route} {pages : List Page}

theorem Covers.exists_perm (h : f.Covers pages) :
    ∃ pages', pages'.Perm pages ∧ List.Forall₂ Route.IsOf pages' f.labels := by
  obtain ⟨pages', hperm, hshown⟩ := exists_perm_of_map_perm h
  exact ⟨pages', hperm, hshown.imp fun p r he => ⟨(Prod.mk.inj he).1.symm, (Prod.mk.inj he).2.symm⟩⟩

end Forest

namespace Compilation

variable {options : CompileOptions} {files : List Text}

theorem map_source_pagesOf (options : CompileOptions) (files : List Text) :
    (pagesOf options files).map Page.source = files.filter fun file => (options.roleOf file).isPage := by
  induction files with
  | nil => rfl
  | cons file files ih =>
      rw [pagesOf] at ih ⊢
      rw [List.filterMap_cons, List.filter_cons]
      cases hrole : options.roleOf file with
      | page page =>
          have hsource : page.source = file := (FileRole.of_eq_page hrole).1
          simpa [FileRole.isPage, hsource] using ih
      | deleted => simpa [FileRole.isPage] using ih
      | empty => simpa [FileRole.isPage] using ih

theorem emptyRoutes_eq (options : CompileOptions) (files : List Text) :
    emptyRoutes options files = (files.filter fun file => options.roleOf file = .empty).map .emptyRoute := by
  induction files with
  | nil => rfl
  | cons file files ih =>
      rw [emptyRoutes] at ih ⊢
      rw [List.filterMap_cons, List.filter_cons]
      cases hrole : options.roleOf file with
      | page page => simpa using ih
      | deleted => simpa using ih
      | empty => simpa using ih

theorem filter_isEmptyRoute_warnings (options : CompileOptions) (files : List Text) :
    (compile options files).warnings.filter Warning.isEmptyRoute = emptyRoutes options files := by
  have hdraft : (draftOf options files).warnings.filter Warning.isEmptyRoute = [] := by
    refine List.filter_eq_nil_iff.2 fun w hw => ?_
    have hfile := Draft.file_of_mem_insertAll options.mixins _ (keys_ne_nil_of_mem_inOrder options files) w hw
    simp [hfile.1]
  have hempty : (emptyRoutes options files).filter Warning.isEmptyRoute = emptyRoutes options files := by
    rw [emptyRoutes_eq, List.filter_map]
    exact congrArg _ (List.filter_eq_self.2 fun _ _ => rfl)
  rw [draftOf] at hdraft
  rw [compile, List.filter_append, hdraft, List.append_nil, hempty]

theorem roleOf_file_of_mem_warnings {w : Warning} (h : w ∈ (compile options files).warnings) :
    options.roleOf w.file ≠ .deleted := by
  intro hdeleted
  rcases List.mem_append.1 h with h | h
  · rw [emptyRoutes_eq] at h
    obtain ⟨file, hfile, rfl⟩ := List.mem_map.1 h
    have hrole : options.roleOf file = .empty := by simpa using (List.mem_filter.1 hfile).2
    cases hrole.symm.trans hdeleted
  · have hfile := Draft.file_of_mem_insertAll options.mixins _ (keys_ne_nil_of_mem_inOrder options files) w h
    obtain ⟨page, hpage, hsource⟩ := hfile.2
    have hrole := (mem_pagesOf.1 (mem_inOrder.1 hpage)).2
    rw [hsource, hrole] at hdeleted
    cases hdeleted

theorem filterMap_filter_of_eq_none {α : Type} {f : Text → Option α} {p : Text → Bool}
    (h : ∀ file, p file = false → f file = none) (files : List Text) :
    (files.filter p).filterMap f = files.filterMap f := by
  rw [List.filterMap_filter]
  refine congrArg (List.filterMap · files) ?_
  funext file
  by_cases hp : p file
  · rw [if_pos hp]
  · rw [if_neg hp, h file (by simpa using hp)]

theorem compile_filter_not_deleted (options : CompileOptions) (files : List Text) :
    compile options (files.filter fun file => options.roleOf file ≠ .deleted) = compile options files := by
  have hrole : ∀ file, decide (options.roleOf file ≠ .deleted) = false → options.roleOf file = .deleted := by
    intro file h
    simpa using h
  have hpages : pagesOf options (files.filter fun file => options.roleOf file ≠ .deleted) = pagesOf options files :=
    filterMap_filter_of_eq_none (fun file h => by rw [hrole file h]) files
  have hempty : emptyRoutes options (files.filter fun file => options.roleOf file ≠ .deleted) =
      emptyRoutes options files :=
    filterMap_filter_of_eq_none (fun file h => by rw [hrole file h]) files
  rw [compile, compile, hpages, hempty]

/-- Every file that is a page has one route, with the component and the keys of the page, and there are no other
routes; names that collide make no difference. Reports of files that are no pages keep the order of the list, and
a file that is switched off changes nothing. -/
theorem compile_covers_files (options : CompileOptions) (files : List Text) :
    (∃ sources, sources.Perm (files.dedup.filter fun file => (options.roleOf file).isPage) ∧
      List.Forall₂ (fun file r => ∃ page, options.roleOf file = .page page ∧ r.IsOf page) sources
        (compile options files).routes.labels) ∧
      (compile options files).routes.Covers (pagesOf options files.dedup) ∧
      (compile options files).routeCount = (files.dedup.filter fun file => (options.roleOf file).isPage).length ∧
      (compile options files).warnings.filter Warning.isEmptyRoute =
        (files.filter fun file => options.roleOf file = .empty).map .emptyRoute ∧
      compile options (files.filter fun file => options.roleOf file ≠ .deleted) = compile options files ∧
      (compile options files).warnings.filter (fun w => options.roleOf w.file = .deleted) = [] := by
  have hcovers := covers_compile options files
  obtain ⟨pages, hperm, hroutes⟩ := hcovers.exists_perm
  -- a page is known by its file, so what is said of pages can be said of files
  have hsources : (pages.map Page.source).Perm (files.dedup.filter fun file => (options.roleOf file).isPage) := by
    rw [← map_source_pagesOf]
    exact hperm.map Page.source
  refine ⟨⟨pages.map Page.source, hsources, ?_⟩, hcovers, ?_, ?_, compile_filter_not_deleted options files, ?_⟩
  · have hroles : ∀ page ∈ pages, options.roleOf page.source = .page page :=
      fun page hpage => (mem_pagesOf.1 (hperm.mem_iff.1 hpage)).2
    apply List.forall₂_map_left_iff.2
    exact ((List.forall₂_and_left _ _).2 ⟨hroles, hroutes⟩).imp fun page r h => ⟨page, h⟩
  · rw [routeCount, ← Forest.length_labels, ← hroutes.length_eq, ← hsources.length_eq, List.length_map]
  · rw [filter_isEmptyRoute_warnings, emptyRoutes_eq]
  · refine List.filter_eq_nil_iff.2 fun w hw => ?_
    simpa using roleOf_file_of_mem_warnings hw

theorem draftOf_congr {files' : List Text} (h : ∀ file, file ∈ files ↔ file ∈ files') :
    draftOf options files = draftOf options files' := by
  rw [draftOf, draftOf, inOrder_congr h]

theorem warnings_compile (options : CompileOptions) (files : List Text) :
    (compile options files).warnings = emptyRoutes options files ++ (draftOf options files).warnings := rfl

/-- Two lists of the same files give the same reports, but the reports of files that are no pages follow the list:
they stand in its order, each as often as its file. -/
theorem warnings_eq_iff_of_same_files (options : CompileOptions) (files files' : List Text)
    (h : ∀ file, file ∈ files ↔ file ∈ files') :
    (∀ w, w ∈ (compile options files).warnings ↔ w ∈ (compile options files').warnings) ∧
      ((compile options files).warnings = (compile options files').warnings ↔
        (files.filter fun file => options.roleOf file = .empty) =
          files'.filter fun file => options.roleOf file = .empty) := by
  rw [warnings_compile, warnings_compile, draftOf_congr h, emptyRoutes_eq, emptyRoutes_eq]
  constructor
  · intro w
    simp only [List.mem_append, List.mem_map, List.mem_filter, h]
  · have hinjective : Function.Injective Warning.emptyRoute := fun _ _ he => Warning.emptyRoute.inj he
    rw [List.append_left_inj, (List.map_injective_iff.2 hinjective).eq_iff]

/-- A file without keys that is listed again is reported again. -/
theorem warnings_ne_of_repeated_file :
    let files := ["p/.vue".toList, "p/a.vue".toList]
    let files' := ["p/.vue".toList, "p/a.vue".toList, "p/.vue".toList]
    (∀ file, file ∈ files ↔ file ∈ files') ∧
      (compile (.forPages "p".toList) files).warnings ≠ (compile (.forPages "p".toList) files').warnings := by
  intro files files'
  have hsame : ∀ file, file ∈ files ↔ file ∈ files' := by
    intro file
    simp only [files, files', List.mem_cons, List.not_mem_nil, or_false]
    tauto
  refine ⟨hsame, fun he => ?_⟩
  have hfilter := (warnings_eq_iff_of_same_files _ files files' hsame).2.1 he
  revert hfilter
  decide

end Compilation

end RouteTable
