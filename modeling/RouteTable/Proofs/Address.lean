import RouteTable.Proofs.Parameters

namespace RouteTable

open Segment

namespace Route

/-- A chain of routes at whose end a page is served at the address of its keys. -/
def Serves (chain : List Route) (keys : List Text) : Prop :=
  List.Forall₂ Spells (chain.flatMap segments) (withoutIndex keys)

theorem spells_segmentsAmong (siblings : List Route) (origin : Origin) :
    List.Forall₂ Spells (segmentsAmong siblings origin) (withoutIndex (origin.keys.drop origin.base)) := by
  refine List.forall₂_iff_get.2 ⟨List.length_mapIdx, fun i hi hi' => ?_⟩
  simp only [segmentsAmong, List.get_eq_getElem, List.getElem_mapIdx]
  split
  · exact .inr rfl
  · exact .inl rfl

end Route

namespace Compilation

variable {options : CompileOptions} {files : List Text} {above : Option Route} {p q r : Route}

theorem key_ne_nil_of_not_blank
    (hblank : ∀ page ∈ pagesOf options files, ∀ raw ∈ page.keys, raw.all Text.isBlank = false)
    (hr : r ∈ (compile options files).routes.labels) : ∀ key ∈ r.origin.keys, key ≠ [] := by
  obtain ⟨page, hpage, _, hkeys⟩ := exists_page_of_mem_labels hr
  intro key hkey
  rw [hkeys] at hkey
  obtain ⟨raw, hraw, rfl⟩ := List.mem_map.1 hkey
  exact Segment.key_ne_nil (hblank page hpage raw hraw)

/-- No segment of a page is blank, and no key before its last is `index`. -/
structure Plain (options : CompileOptions) (files : List Text) : Prop where
  not_blank : ∀ page ∈ pagesOf options files, ∀ raw ∈ page.keys, raw.all Text.isBlank = false
  not_index : ∀ page ∈ pagesOf options files, indexKey ∉ page.routeKeys.dropLast

theorem Plain.index_not_mem_take (h : Plain options files) (hr : r ∈ (compile options files).routes.labels)
    (hbase : r.origin.base < r.origin.keys.length) : indexKey ∉ r.origin.keys.take r.origin.base := by
  obtain ⟨page, hpage, _, hkeys⟩ := exists_page_of_mem_labels hr
  intro hmem
  refine h.not_index page hpage ?_
  rw [← hkeys, List.dropLast_eq_take]
  exact (List.take_sublist_take_left (by omega)).mem hmem

theorem Plain.spells_path (h : Plain options files) (hchild : (compile options files).routes.IsChild above r) :
    List.Forall₂ Spells r.segments (withoutIndex (r.origin.keys.drop r.origin.base)) := by
  have hlabel := Forest.mem_labels_iff.2 ⟨above, hchild⟩
  obtain ⟨siblings, hf, hr⟩ := hchild
  rw [Route.segments, parts_path_eq hf hr (key_ne_nil_of_not_blank h.not_blank hlabel)]
  exact Route.spells_segmentsAmong siblings r.origin

theorem isChild_none_of_singleton_mem_chains (hr : [r] ∈ (compile options files).routes.chains) :
    (compile options files).routes.IsChild none r :=
  ⟨_, List.mem_cons_self, Forest.singleton_mem_chains.1 hr⟩

theorem Plain.serves_of_links (h : Plain options files)
    (hnone : CollisionFree options files)
    (hlinks : ∀ p q, (compile options files).routes.IsChild (some p) q →
      p.origin.keys = q.origin.keys.take q.origin.base)
    (front : List Route) (r : Route) (hchain : front ++ [r] ∈ (compile options files).routes.chains) :
    Route.Serves (front ++ [r]) r.origin.keys := by
  induction front using List.reverseRecOn generalizing r with
  | nil =>
      have htop := isChild_none_of_singleton_mem_chains hchain
      have hspells := h.spells_path htop
      rw [base_eq_zero_of_isChild htop, List.drop_zero] at hspells
      simpa [Route.Serves] using hspells
  | append_singleton front p ih =>
      rw [List.append_assoc] at hchain
      obtain ⟨hinit, hchild⟩ := Forest.chains_init hchain
      have hlabel := Forest.mem_labels_iff.2 ⟨_, hchild⟩
      have hbase := hnone.base_lt hlabel
      have hserved := ih p hinit
      rw [Route.Serves, hlinks p r hchild, withoutIndex_of_not_mem (h.index_not_mem_take hlabel hbase)] at hserved
      rw [Route.Serves, List.flatMap_append, withoutIndex_eq_take_append hbase]
      refine List.rel_append hserved ?_
      simpa using h.spells_path hchild

theorem Plain.link_of_serves (h : Plain options files)
    (hnone : CollisionFree options files)
    (hchild : (compile options files).routes.IsChild (some p) q) {front : List Route}
    (hp : Route.Serves (front ++ [p]) p.origin.keys) (hq : Route.Serves (front ++ [p, q]) q.origin.keys) :
    p.origin.keys = q.origin.keys.take q.origin.base := by
  have hlabel := Forest.mem_labels_iff.2 ⟨_, hchild⟩
  have hbase := hnone.base_lt hlabel
  have hspells := h.spells_path hchild
  have hname := nameOf_eq_of_isChild hchild
  have hsplit : (front ++ [p, q]).flatMap Route.segments = (front ++ [p]).flatMap Route.segments ++ q.segments := by
    simp
  rw [Route.Serves, hsplit, withoutIndex_eq_take_append hbase] at hq
  have hlength : ((front ++ [p]).flatMap Route.segments).length = (q.origin.keys.take q.origin.base).length := by
    have hall := hq.length_eq
    have hown := hspells.length_eq
    simp only [List.length_append] at hall
    omega
  have hfront : List.Forall₂ Spells ((front ++ [p]).flatMap Route.segments) (q.origin.keys.take q.origin.base) := by
    have htake := List.forall₂_take_append _ _ _ hq
    rwa [← hlength, List.take_left] at htake
  have halike := alike_of_spells hp hfront
  rcases withoutIndex_cases p.origin.keys with hsame | ⟨keys, hkeys, hwithout⟩
  · rw [hsame] at halike
    exact eq_of_nameOf_eq halike hname
  · rw [hwithout] at halike
    rw [hkeys] at hname
    exact absurd hname (nameOf_index_ne halike)

theorem Plain.serves_of_names_apart (h : Plain options files)
    (hnone : CollisionFree options files)
    (hnames : ∀ page ∈ pagesOf options files, ∀ page' ∈ pagesOf options files, ∀ i,
      nameOf page.routeKeys = nameOf (page'.routeKeys.take i) → page.routeKeys = page'.routeKeys.take i)
    (front : List Route) (r : Route) (hchain : front ++ [r] ∈ (compile options files).routes.chains) :
    Route.Serves (front ++ [r]) r.origin.keys := by
  refine h.serves_of_links hnone (fun p q hchild => ?_) front r hchain
  obtain ⟨page, hpage, _, hkeys⟩ := exists_page_of_mem_labels (Forest.mem_labels_of_isChild hchild)
  obtain ⟨page', hpage', _, hkeys'⟩ := exists_page_of_mem_labels (Forest.mem_labels_iff.2 ⟨_, hchild⟩)
  have hname := nameOf_eq_of_isChild hchild
  rw [hkeys, hkeys'] at hname ⊢
  exact hnames page hpage page' hpage' _ hname

/-- Without collisions every page is served at the address of its file, parameters being required or not, if and
only if every nested page hangs below the page of its own first keys. -/
theorem serves_iff_links (options : CompileOptions) (files : List Text) (h : Plain options files)
    (hnone : CollisionFree options files) :
    (∀ front r, front ++ [r] ∈ (compile options files).routes.chains → Route.Serves (front ++ [r]) r.origin.keys) ↔
      ∀ p q, (compile options files).routes.IsChild (some p) q →
        p.origin.keys = q.origin.keys.take q.origin.base := by
  constructor
  · intro hserved p q hchild
    obtain ⟨front, hp, hpq⟩ := Forest.exists_chain hchild
    have hq := hserved (front ++ [p]) q (by rwa [List.append_assoc])
    rw [List.append_assoc] at hq
    exact h.link_of_serves hnone hchild (hserved front p hp) hq
  · intro hlinks front r hchain
    exact h.serves_of_links hnone hlinks front r hchain

/-- The folder `a/b` has no page, but its contents hang below the page `a_b`, at an address of no file. -/
theorem not_serves_below_name_alike :
    let page : Route := ⟨some "a_b".toList, "/a_b".toList, some "./p/a_b.vue".toList, [], ⟨["a_b".toList], 0⟩⟩
    let nested : Route :=
      ⟨some "a_b_c".toList, "c".toList, some "./p/a/b/c.vue".toList, [], ⟨["a".toList, "b".toList, "c".toList], 2⟩⟩
    let files := ["p/a_b.vue".toList, "p/a/b/c.vue".toList]
    let compilation := compile (.forPages "p".toList) files
    Plain (.forPages "p".toList) files ∧ CollisionFree (.forPages "p".toList) files ∧
      [page, nested] ∈ compilation.routes.chains ∧
      [page, nested].flatMap Route.segments = ["a_b".toList, "c".toList] ∧
      ¬∀ front r, front ++ [r] ∈ compilation.routes.chains → Route.Serves (front ++ [r]) r.origin.keys := by
  intro page nested files compilation
  have hpages : pagesOf (.forPages "p".toList) files =
      [⟨"p/a_b.vue".toList, ["a_b".toList], "./p/a_b.vue".toList⟩,
        ⟨"p/a/b/c.vue".toList, ["a".toList, "b".toList, "c".toList], "./p/a/b/c.vue".toList⟩] := rfl
  have hdraft := draftOf_eq hpages (by decide)
  have hroutes : compilation.routes = .cons page (.cons nested .nil .nil) .nil := by
    rw [routes_compile, hdraft]
    rfl
  have hplain : Plain (.forPages "p".toList) files := by
    refine ⟨?_, ?_⟩
    · rw [hpages]
      decide
    · rw [hpages]
      decide
  have hnone : CollisionFree (.forPages "p".toList) files := by
    intro file name h
    rw [nameCollision_mem_compile, hdraft] at h
    cases h
  refine ⟨hplain, hnone, by simp [hroutes, Forest.chains], by decide, fun hserved => ?_⟩
  have hchild : compilation.routes.IsChild (some page) nested :=
    ⟨[nested], by simp [hroutes, Forest.families, Forest.under, Forest.inner, Forest.roots], List.mem_cons_self⟩
  have hlink := (serves_iff_links _ files hplain hnone).1 hserved page nested hchild
  exact absurd hlink (by decide)

end Compilation

end RouteTable
