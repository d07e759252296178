import Mathlib.Data.List.Dedup
import Mathlib.Data.List.Sort
import Mathlib.Tactic.Tauto
import RouteTable.Compilation
import RouteTable.Route.Script

namespace RouteTable

namespace Page

theorem eq_of_order_eq {p q : Page} (h : order p q = .eq) : p.keys = q.keys ∧ p.source = q.source := by
  simp only [order, compareLex, Ordering.then_eq_eq] at h
  obtain ⟨_, hkeys, hsource⟩ := h
  exact ⟨(inferInstance : Std.LawfulEqCmp Order.texts).eq_of_compare hkeys, Order.eq_of_text hsource⟩

theorem length_keys_le {p q : Page} (h : (order p q).isLE) : p.keys.length ≤ q.keys.length := by
  apply Order.nat_isLE.1
  simp only [order, compareLex, Order.on] at h
  cases hn : Order.nat p.keys.length q.keys.length with
  | lt | eq => rfl
  | gt => simp [hn] at h

theorem order_ne_lt_self (p : Page) : order p p ≠ .lt := by
  have h : order p p = .eq := Std.ReflCmp.compare_self
  simp [h]

theorem mem_of_mem_dropRepeats {last : Option Text} {pages : List Page} {p : Page}
    (h : p ∈ dropRepeats last pages) : p ∈ pages := by
  induction pages generalizing last with
  | nil => exact h
  | cons page pages ih =>
      rw [dropRepeats] at h
      split at h
      · exact List.mem_cons_of_mem _ (ih h)
      · rcases List.mem_cons.1 h with rfl | h
        · exact List.mem_cons_self
        · exact List.mem_cons_of_mem _ (ih h)

theorem source_kept_by_dropRepeats {last : Option Text} {pages : List Page} {p : Page} (h : p ∈ pages) :
    last = some p.source ∨ ∃ q ∈ dropRepeats last pages, q.source = p.source := by
  induction pages generalizing last with
  | nil => cases h
  | cons page pages ih =>
      rw [dropRepeats]
      split
      · next hl =>
          rcases List.mem_cons.1 h with rfl | h
          · exact .inl hl
          · exact ih h
      · rcases List.mem_cons.1 h with rfl | h
        · exact .inr ⟨p, List.mem_cons_self, rfl⟩
        · have hkept : some page.source = some p.source ∨
              ∃ q ∈ dropRepeats (some page.source) pages, q.source = p.source := ih h
          rcases hkept with hs | ⟨q, hq, hs⟩
          · exact .inr ⟨page, List.mem_cons_self, Option.some.inj hs⟩
          · exact .inr ⟨q, List.mem_cons_of_mem _ hq, hs⟩

/-- In a list of pages that are functions of their files, a file stands for one page. -/
def Faithful (pages : List Page) : Prop := ∀ p ∈ pages, ∀ q ∈ pages, p.source = q.source → p = q

theorem Faithful.tail {page : Page} {pages : List Page} (h : Faithful (page :: pages)) : Faithful pages :=
  fun p hp q hq => h p (List.mem_cons_of_mem _ hp) q (List.mem_cons_of_mem _ hq)

/-- Behind a page and its repeats nothing of its file is left, since equal pages are neighbours. -/
theorem source_ne_of_mem_dropRepeats {p q : Page} {pages : List Page} (hf : Faithful (p :: pages))
    (hs : (p :: pages).Pairwise fun a b => (order a b).isLE)
    (hq : q ∈ dropRepeats (some p.source) pages) : q.source ≠ p.source := by
  intro he
  induction pages with
  | nil => cases hq
  | cons page pages ih =>
      have hmem := mem_of_mem_dropRepeats hq
      rw [dropRepeats] at hq
      split at hq
      · refine ih (fun a ha b hb => hf a ?_ b ?_) (hs.sublist (by simp)) hq
        · exact List.mem_cons.2 ((List.mem_cons.1 ha).imp_right (List.mem_cons_of_mem _))
        · exact List.mem_cons.2 ((List.mem_cons.1 hb).imp_right (List.mem_cons_of_mem _))
      · next hne =>
          have hqp : q = p := hf q (List.mem_cons_of_mem _ hmem) p List.mem_cons_self he
          subst hqp
          have hfirst : (order q page).isLE := List.rel_of_pairwise_cons hs List.mem_cons_self
          have hlast : (order page q).isLE := by
            rcases List.mem_cons.1 hmem with rfl | hmem
            · exact Std.ReflCmp.isLE_rfl
            · exact List.rel_of_pairwise_cons hs.of_cons hmem
          exact hne (congrArg some (eq_of_order_eq (Std.OrientedCmp.isLE_antisymm hfirst hlast)).2)

theorem pairwise_dropRepeats {last : Option Text} {pages : List Page} (hf : Faithful pages)
    (hs : pages.Pairwise fun a b => (order a b).isLE) :
    (dropRepeats last pages).Pairwise fun a b => order a b = .lt := by
  induction pages generalizing last with
  | nil => exact List.Pairwise.nil
  | cons page pages ih =>
      rw [dropRepeats]
      split
      · exact ih hf.tail hs.of_cons
      · refine List.pairwise_cons.2 ⟨fun q hq => ?_, ih hf.tail hs.of_cons⟩
        have hle : (order page q).isLE := List.rel_of_pairwise_cons hs (mem_of_mem_dropRepeats hq)
        have hne := source_ne_of_mem_dropRepeats hf hs hq
        cases ho : order page q with
        | lt => rfl
        | eq => exact absurd (eq_of_order_eq ho).2.symm hne
        | gt => simp [ho] at hle

end Page

theorem FileRole.of_eq_page {file pagesDir outputDir extension : Text} {page : Page}
    (h : FileRole.of file pagesDir outputDir extension = .page page) :
    page.source = file ∧ page.keys = Page.keysOf file pagesDir extension ∧ page.keys ≠ [] := by
  simp only [FileRole.of] at h
  split at h
  · cases h
  · split at h
    · cases h
    · next hne =>
        cases h
        exact ⟨rfl, rfl, by simpa using hne⟩

namespace Compilation

variable {options : CompileOptions} {files files' : List Text} {page : Page}

theorem mem_pagesOf :
    page ∈ pagesOf options files ↔ page.source ∈ files ∧ options.roleOf page.source = .page page := by
  simp only [pagesOf, List.mem_filterMap]
  constructor
  · rintro ⟨file, hfile, h⟩
    split at h
    · next hrole =>
        cases h
        obtain rfl := (FileRole.of_eq_page hrole).1
        exact ⟨hfile, hrole⟩
    · cases h
  · rintro ⟨hfile, hrole⟩
    exact ⟨page.source, hfile, by simp [hrole]⟩

theorem keys_ne_nil_of_mem_pagesOf (h : page ∈ pagesOf options files) : page.keys ≠ [] :=
  (FileRole.of_eq_page (mem_pagesOf.1 h).2).2.2

theorem faithful_pagesOf : Page.Faithful (pagesOf options files) := by
  intro p hp q hq h
  have hp := (mem_pagesOf.1 hp).2
  have hq := (mem_pagesOf.1 hq).2
  rw [h, hq] at hp
  exact (FileRole.page.inj hp).symm

theorem mem_inOrder : page ∈ inOrder (pagesOf options files) ↔ page ∈ pagesOf options files := by
  constructor
  · intro h
    exact List.mem_mergeSort.1 (Page.mem_of_mem_dropRepeats h)
  · intro h
    have hkept : none = some page.source ∨
        ∃ q ∈ inOrder (pagesOf options files), q.source = page.source :=
      Page.source_kept_by_dropRepeats (List.mem_mergeSort.2 h)
    rcases hkept with hn | ⟨q, hq, hs⟩
    · cases hn
    · have hq' := List.mem_mergeSort.1 (Page.mem_of_mem_dropRepeats hq)
      have he : q = page := faithful_pagesOf q hq' page h hs
      exact he ▸ hq

theorem pairwise_inOrder :
    (inOrder (pagesOf options files)).Pairwise fun a b => Page.order a b = .lt := by
  apply Page.pairwise_dropRepeats
  · intro p hp q hq h
    exact faithful_pagesOf p (List.mem_mergeSort.1 hp) q (List.mem_mergeSort.1 hq) h
  · apply List.pairwise_mergeSort
    · intro a b c hab hbc
      exact Std.TransCmp.isLE_trans hab hbc
    · intro a b
      have hswap : Page.order b a = (Page.order a b).swap := Std.OrientedCmp.eq_swap
      rw [hswap]
      cases Page.order a b <;> rfl

theorem nodup_inOrder : (inOrder (pagesOf options files)).Nodup := by
  refine pairwise_inOrder.imp ?_
  rintro a _ h rfl
  exact Page.order_ne_lt_self a h

theorem pairwise_length_inOrder :
    (inOrder (pagesOf options files)).Pairwise fun a b => a.keys.length ≤ b.keys.length :=
  pairwise_inOrder.imp fun h => Page.length_keys_le (by rw [h]; rfl)

theorem inOrder_eq_of_pairwise {pages : List Page} (hs : pages.Pairwise fun a b => Page.order a b = .lt)
    (h : ∀ page, page ∈ pagesOf options files ↔ page ∈ pages) : inOrder (pagesOf options files) = pages := by
  have : Std.Irrefl fun a b => Page.order a b = .lt :=
    ⟨fun a => Page.order_ne_lt_self a⟩
  have : Std.Antisymm fun a b => Page.order a b = .lt :=
    ⟨fun a b hab hba => absurd hba (Std.OrientedCmp.not_lt_of_lt hab)⟩
  refine pairwise_inOrder.eq_of_mem_iff hs fun page => ?_
  rw [mem_inOrder, h]

theorem inOrder_congr (h : ∀ file, file ∈ files ↔ file ∈ files') :
    inOrder (pagesOf options files) = inOrder (pagesOf options files') := by
  refine inOrder_eq_of_pairwise pairwise_inOrder fun page => ?_
  rw [mem_inOrder, mem_pagesOf, mem_pagesOf, h]

theorem inOrder_perm_dedup : (inOrder (pagesOf options files)).Perm (pagesOf options files.dedup) := by
  refine (List.perm_ext_iff_of_nodup nodup_inOrder ?_).2 fun page => ?_
  · refine List.Nodup.filterMap ?_ (List.nodup_dedup files)
    intro a b p ha hb
    simp only [Option.mem_def] at ha hb
    split at ha
    · next hra =>
        split at hb
        · next hrb =>
            cases ha
            cases hb
            rw [← (FileRole.of_eq_page hra).1, (FileRole.of_eq_page hrb).1]
        · cases hb
    · cases ha
  · rw [mem_inOrder, mem_pagesOf, mem_pagesOf, List.mem_dedup]

end Compilation

def Warning.isEmptyRoute : Warning → Bool
  | .emptyRoute _ => true
  | _ => false

namespace Compilation

theorem filter_emptyRoutes (options : CompileOptions) (files : List Text) :
    (emptyRoutes options files).filter (fun w => !w.isEmptyRoute) = [] := by
  refine List.filter_eq_nil_iff.2 fun w hw => ?_
  obtain ⟨file, _, h⟩ := List.mem_filterMap.1 hw
  split at h
  · cases h
    simp [Warning.isEmptyRoute]
  · cases h

end Compilation

/-- Order and repetitions in the list of files change nothing but the reports of files that are no pages. -/
theorem compile_eq_of_same_files (options : CompileOptions) (files files' : List Text)
    (h : ∀ file, file ∈ files ↔ file ∈ files') :
    (compile options files).routes = (compile options files').routes ∧
      (compile options files).routes.script = (compile options files').routes.script ∧
      (compile options files).warnings.filter (fun w => !w.isEmptyRoute) =
        (compile options files').warnings.filter (fun w => !w.isEmptyRoute) := by
  have hroutes : (compile options files).routes = (compile options files').routes := by
    simp only [compile, Compilation.inOrder_congr h]
  refine ⟨hroutes, congrArg Forest.script hroutes, ?_⟩
  simp only [compile, List.filter_append, Compilation.filter_emptyRoutes, Compilation.inOrder_congr h]

/-- Two pages and a file that is no page, listed once and listed again in another order. -/
theorem compile_eq_of_same_files_again :
    let files := ["p/a.vue".toList, "p/.vue".toList, "p/b/index.vue".toList]
    let files' := ["p/b/index.vue".toList, "p/a.vue".toList, "p/.vue".toList, "p/b/index.vue".toList, "p/.vue".toList]
    (∀ file, file ∈ files ↔ file ∈ files') ∧
      (compile (.forPages "p".toList) files).routes = (compile (.forPages "p".toList) files').routes := by
  intro files files'
  have hsame : ∀ file, file ∈ files ↔ file ∈ files' := by
    intro file
    simp only [files, files', List.mem_cons, List.not_mem_nil, or_false]
    tauto
  exact ⟨hsame, (compile_eq_of_same_files _ files files' hsame).1⟩

end RouteTable
