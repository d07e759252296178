import Mathlib.Data.List.Pairwise
import RouteTable.Proofs.NormalForm

namespace RouteTable

open Segment

namespace Route

variable {r s : Route} {above : Option Route}

/-- The index page `r` has the name of its folder, and the page `s`, which is not in the folder, has it too. -/
def TakesNameOf (r s : Route) : Prop :=
  ∃ folder, r.origin.keys = folder ++ [indexKey] ∧ ¬folder <+: s.origin.keys ∧
    r.origin.keys.length ≤ s.origin.keys.length ∧
    r.name = some (nameOf folder) ∧ s.name = some (nameOf folder) ∧ nameOf folder = nameOf s.origin.keys

theorem TakesNameOf.name_eq (h : r.TakesNameOf s) : r.name = s.name ∧ r.name ≠ none := by
  obtain ⟨folder, _, _, _, hr, hs, _⟩ := h
  exact ⟨hr.trans hs.symm, by simp [hr]⟩

theorem TakesNameOf.ne (h : r.TakesNameOf s) : r ≠ s := by
  rintro rfl
  obtain ⟨folder, hkeys, hfolder, _⟩ := h
  exact hfolder (hkeys ▸ List.prefix_append folder [indexKey])

theorem Joins.base_lt (h : r.Joins above) (hcollides : ¬r.Collides) : r.origin.base < r.origin.keys.length :=
  Nat.lt_of_le_of_ne h.base_le hcollides

theorem indexName_cases (origin : Origin) :
    indexName origin (nameOf origin.keys) = nameOf origin.keys ∨
      ∃ folder, origin.keys = folder ++ [indexKey] ∧ nameOf folder ≠ [] ∧
        indexName origin (nameOf origin.keys) = nameOf folder := by
  by_cases hindex : origin.isIndex && nameOf origin.keys == builtName origin.keys
  · rw [indexName, if_pos hindex]
    have hlast : origin.keys.getLast? = some indexKey := by
      simpa [Origin.isIndex] using (Bool.and_eq_true_iff.1 hindex).1
    obtain ⟨folder, hkeys⟩ := List.getLast?_eq_some_iff.1 hlast
    rw [hkeys, nameOf_concat, extendName]
    by_cases hname : nameOf folder = []
    · refine .inl ?_
      rw [hname]
      rfl
    · refine .inr ⟨folder, rfl, hname, ?_⟩
      have hback : nameOf folder ++ ['_'] ++ plainKey indexKey = nameOf folder ++ '_' :: indexKey :=
        List.append_assoc _ _ _
      rw [if_neg (by simpa using hname), hback, Text.beforeBack?_eq_some.2 rfl, Option.getD_some]
  · exact .inl (by rw [indexName, if_neg hindex])

theorem Normalizes.name_cases {siblings : List Route} {nested : Bool} (h : Normalizes siblings nested r s)
    (hname : r.name = some (nameOf r.origin.keys)) :
    s.name = none ∨ s.name = some (nameOf r.origin.keys) ∨
      ∃ folder, r.origin.keys = folder ++ [indexKey] ∧ nameOf folder ≠ [] ∧ s.name = some (nameOf folder) := by
  obtain ⟨holdsIndex, rfl⟩ := h
  cases holdsIndex with
  | true => exact .inl rfl
  | false =>
      have hs : (r.normal (folders siblings) nested false).name = some (indexName r.origin (nameOf r.origin.keys)) := by
        rw [normal, hname]
        rfl
      rw [hs]
      rcases indexName_cases r.origin with hkept | ⟨folder, hkeys, hne, hfolder⟩
      · exact .inr (.inl (congrArg some hkept))
      · exact .inr (.inr ⟨folder, hkeys, hne, congrArg some hfolder⟩)

end Route

namespace Route

variable {r s : Route}

theorem takesNameOf_of_name_eq {folder : List Text} (hkeys : r.origin.keys = folder ++ [indexKey])
    (hlength : r.origin.keys.length ≤ s.origin.keys.length) (hfolder : nameOf folder ≠ [])
    (hr : r.name = some (nameOf folder)) (hs : s.name = some (nameOf s.origin.keys)) (hname : r.name = s.name) :
    r.TakesNameOf s := by
  have hsame : nameOf folder = nameOf s.origin.keys := by
    rwa [hr, hs, Option.some.injEq] at hname
  refine ⟨folder, hkeys, ?_, hlength, hr, hname.symm.trans hr, hsame⟩
  rintro ⟨more, hmore⟩
  have hne : more ≠ [] := by
    rintro rfl
    rw [hkeys, ← hmore, List.append_nil, List.length_append, List.length_singleton] at hlength
    omega
  have hlt := length_nameOf_lt_append hfolder hne
  rw [hmore, ← hsame] at hlt
  exact Nat.lt_irrefl _ hlt

end Route

namespace Forest

/-- Where an index page's folder has the name of a sibling, the index page came no later. -/
def IndexFirst (f : Forest Route) : Prop :=
  ∀ above siblings, (above, siblings) ∈ f.families → ∀ r ∈ siblings, ∀ s ∈ siblings, ¬s.Collides →
    ∀ folder, r.origin.keys = folder ++ [indexKey] → nameOf folder ≠ [] → nameOf folder = nameOf s.origin.keys →
      r.origin.keys.length ≤ s.origin.keys.length

end Forest

namespace Draft

variable {mixins : MixinSet} {draft : Draft} {page : Page} {r : Route} {above : Option Route}
  {siblings siblings' : List Route} {others : List (Option Route × List Route)}

namespace Insertion

variable (h : Insertion mixins draft page r above siblings siblings' others)
include h

theorem folder_name_ne {s : Route} {folder : List Text} (hs : s ∈ siblings) (hjoins : s.Joins above)
    (hcollides : ¬s.Collides) (hkeys : r.origin.keys = folder ++ [indexKey]) (hname : nameOf folder ≠ []) :
    nameOf folder ≠ nameOf s.origin.keys := by
  intro hsame
  have htake : r.origin.keys.take folder.length = folder := by rw [hkeys, List.take_left]
  have hlength : r.origin.keys.length = folder.length + 1 := by simp [hkeys]
  by_cases hbase : r.origin.base < folder.length
  · refine h.fresh folder.length hbase (by omega) s hs ?_
    rw [hjoins.name_eq, htake, hsame]
  · cases above with
    | none =>
        have htop := h.joins.top rfl
        have hnil : folder = [] := List.eq_nil_of_length_eq_zero (by omega)
        exact hname (by rw [hnil]; rfl)
    | some p =>
        -- The name of the route above is at least as long as that of the folder, and shorter than that of `s`.
        have hparent := (h.joins.below p rfl).2
        have hparent' := (hjoins.below p rfl).2
        rw [hparent, Option.some.injEq] at hparent'
        have hfolder : folder = (r.origin.keys.take r.origin.base).take folder.length := by
          rw [List.take_take, Nat.min_eq_left (by omega), htake]
        have hle := length_nameOf_le_append folder ((r.origin.keys.take r.origin.base).drop folder.length)
        nth_rewrite 2 [hfolder] at hle
        rw [List.take_append_drop, hparent'] at hle
        have hmore : s.origin.keys.drop s.origin.base ≠ [] := by simpa using hjoins.base_lt hcollides
        have hpos : 0 < (nameOf folder).length := List.length_pos_of_ne_nil hname
        have hlt : (nameOf (s.origin.keys.take s.origin.base)).length < (nameOf s.origin.keys).length := by
          have hnonempty : nameOf (s.origin.keys.take s.origin.base) ≠ [] := List.ne_nil_of_length_pos (by omega)
          have hlonger := length_nameOf_lt_append hnonempty hmore
          rwa [List.take_append_drop] at hlonger
        rw [← hsame] at hlt
        omega

theorem indexFirst (hl : draft.routes.Linked) (hi : draft.routes.IndexFirst)
    (hlength : ∀ s ∈ draft.routes.labels, s.origin.keys.length ≤ r.origin.keys.length) :
    (draft.insert mixins page).routes.IndexFirst := by
  intro parent routes hmem a ha b hb hcollides folder hkeys hname hsame
  -- the list that grows, the empty one below the new route, and those that stay
  rcases List.mem_cons.1 (h.after.mem_iff.1 hmem) with he | hmem
  · cases he
    have hfamily : (above, siblings) ∈ draft.routes.families := h.before.mem_iff.2 List.mem_cons_self
    rcases List.mem_cons.1 (h.grown.mem_iff.1 ha) with rfl | ha
    · rcases List.mem_cons.1 (h.grown.mem_iff.1 hb) with rfl | hb
      · exact Nat.le_refl _
      · have hjoins := hl.joins above b ⟨siblings, hfamily, hb⟩
        exact absurd hsame (h.folder_name_ne hb hjoins hcollides hkeys hname)
    · rcases List.mem_cons.1 (h.grown.mem_iff.1 hb) with rfl | hb
      · exact hlength a (Forest.mem_labels_iff.2 ⟨above, siblings, hfamily, ha⟩)
      · exact hi above siblings hfamily a ha b hb hcollides folder hkeys hname hsame
  · rcases List.mem_cons.1 hmem with he | hmem
    · cases he
      cases ha
    · have hfamily : (parent, routes) ∈ draft.routes.families :=
        h.before.mem_iff.2 (List.mem_cons_of_mem _ hmem)
      exact hi parent routes hfamily a ha b hb hcollides folder hkeys hname hsame

end Insertion

theorem indexFirst_insertAll (mixins : MixinSet) (pages : List Page) (hkeys : ∀ p ∈ pages, p.keys ≠ [])
    (hlength : pages.Pairwise fun p q => p.keys.length ≤ q.keys.length) :
    (empty.insertAll mixins pages).routes.IndexFirst := by
  refine (insertAll_induction mixins pages (motive := fun done draft =>
    draft.routes.Linked ∧ draft.routes.Covers done ∧ draft.routes.IndexFirst) ?_ ?_).2.2
  · refine ⟨linked_insertAll mixins [] (by simp), List.Perm.refl _, ?_⟩
    intro above siblings hmem r hr
    cases List.mem_singleton.1 hmem
    cases hr
  · rintro done page rest draft hpages ⟨hl, hc, hi⟩
    obtain ⟨r, above, siblings, siblings', others, h⟩ :=
      exists_insertion mixins draft page (hkeys page (by simp [hpages]))
    refine ⟨h.linked hl, h.covers hc, h.indexFirst hl hi fun s hs => ?_⟩
    -- every route is that of a page before, and those have no more keys
    obtain ⟨p, hp, _, hpkeys⟩ := hc.exists_page hs
    rw [hpages, List.pairwise_append] at hlength
    have hle := hlength.2.2 p hp page List.mem_cons_self
    rw [hpkeys, h.isOf.2]
    simpa [Page.routeKeys] using hle

end Draft

namespace Compilation

variable {options : CompileOptions} {files : List Text} {above : Option Route} {siblings : List Route} {r s : Route}

theorem indexFirst_draftOf (options : CompileOptions) (files : List Text) :
    (draftOf options files).routes.IndexFirst :=
  Draft.indexFirst_insertAll options.mixins _ (keys_ne_nil_of_mem_inOrder options files) pairwise_length_inOrder

theorem CollisionFree.name_ne_draftOf (hnone : CollisionFree options files)
    (hf : (above, siblings) ∈ (draftOf options files).routes.families) :
    siblings.Pairwise fun r s => r.name ≠ s.name := by
  have hfree : ∀ r ∈ siblings, ¬r.Collides := fun r hr =>
    collisionFree_iff.1 hnone r (Forest.mem_labels_iff.2 ⟨above, siblings, hf, hr⟩)
  refine ((linked_draftOf options files).apart above siblings hf).imp_of_mem fun {r s} hr hs h hname => ?_
  exact (h hname).elim (hfree r hr) (hfree s hs)

theorem CollisionFree.pairwise_takesNameOf (hnone : CollisionFree options files)
    (hf : (above, siblings) ∈ (compile options files).routes.families) :
    siblings.Pairwise fun r s => r.name = s.name → r.name = none ∨ r.TakesNameOf s ∨ s.TakesNameOf r := by
  obtain ⟨above₀, siblings₀, hf₀, _, hall⟩ := exists_draft_siblings hf
  have hfree : ∀ r ∈ siblings₀, ¬r.Collides := fun r hr =>
    collisionFree_iff.1 hnone r (Forest.mem_labels_iff.2 ⟨above₀, siblings₀, hf₀, hr⟩)
  have hnames : ∀ r ∈ siblings₀, r.name = some (nameOf r.origin.keys) := fun r hr =>
    ((linked_draftOf options files).joins above₀ r ⟨siblings₀, hf₀, hr⟩).name_eq
  have hfirst := indexFirst_draftOf options files above₀ siblings₀ hf₀
  have hdraft := (hnone.name_ne_draftOf hf₀).imp_of_mem
    fun {r s} hr hs h => And.intro h (And.intro hr hs)
  refine Route.pairwise_of_normalizes hall hdraft ?_
  rintro r s r' s' hr hs ⟨hne, hrmem, hsmem⟩ hname
  have hrkeys : r'.origin = r.origin := (Prod.mk.inj hr.stem_eq).2
  have hskeys : s'.origin = s.origin := (Prod.mk.inj hs.stem_eq).2
  rw [hnames r hrmem, hnames s hsmem, Ne, Option.some.injEq] at hne
  -- Of each route the name is taken away, kept, or cut down to that of the folder. Two kept names differ, and so do
  -- two that are cut down; what is left is a kept name against one that is cut down.
  rcases hr.name_cases (hnames r hrmem) with hr' | hr' | ⟨folder, hfolder, hnil, hr'⟩
  · exact .inl hr'
  · rcases hs.name_cases (hnames s hsmem) with hs' | hs' | ⟨folder, hfolder, hnil, hs'⟩
    · exact .inl (hname.trans hs')
    · rw [hr', hs', Option.some.injEq] at hname
      exact absurd hname hne
    · refine .inr (.inr (Route.takesNameOf_of_name_eq (hskeys ▸ hfolder) ?_ hnil hs' (hrkeys ▸ hr') hname.symm))
      rw [hr', hs', Option.some.injEq] at hname
      rw [hrkeys, hskeys]
      exact hfirst s hsmem r hrmem (hfree r hrmem) folder hfolder hnil hname.symm
  · rcases hs.name_cases (hnames s hsmem) with hs' | hs' | ⟨folder', hfolder', hnil', hs'⟩
    · exact .inl (hname.trans hs')
    · refine .inr (.inl (Route.takesNameOf_of_name_eq (hrkeys ▸ hfolder) ?_ hnil hr' (hskeys ▸ hs') hname))
      rw [hr', hs', Option.some.injEq] at hname
      rw [hrkeys, hskeys]
      exact hfirst r hrmem s hsmem (hfree s hsmem) folder hfolder hnil hname
    · rw [hr', hs', Option.some.injEq] at hname
      refine absurd ?_ hne
      rw [hfolder, hfolder', nameOf_concat, nameOf_concat, hname]

theorem CollisionFree.names_unique_of_folders_apart (hnone : CollisionFree options files)
    (hapart : ∀ page ∈ pagesOf options files, ∀ page' ∈ pagesOf options files, ∀ folder,
      page.routeKeys = folder ++ [indexKey] → nameOf folder = nameOf page'.routeKeys → folder <+: page'.routeKeys)
    (hf : (above, siblings) ∈ (compile options files).routes.families) :
    siblings.Pairwise fun r s => r.name = s.name → r.name = none := by
  have hnot : ∀ r ∈ siblings, ∀ s ∈ siblings, ¬r.TakesNameOf s := by
    rintro r hr s hs ⟨folder, hkeys, hfolder, _, _, _, hname⟩
    obtain ⟨page, hpage, _, hof⟩ := exists_page_of_mem_labels (Forest.mem_labels_iff.2 ⟨above, siblings, hf, hr⟩)
    obtain ⟨page', hpage', _, hof'⟩ := exists_page_of_mem_labels (Forest.mem_labels_iff.2 ⟨above, siblings, hf, hs⟩)
    rw [hof] at hkeys
    rw [hof'] at hname hfolder
    exact hfolder (hapart page hpage page' hpage' folder hkeys hname)
  refine (hnone.pairwise_takesNameOf hf).imp_of_mem fun {r s} hr hs h hname => ?_
  rcases h hname with hnil | htakes | htakes
  · exact hnil
  · exact absurd htakes (hnot r hr s hs)
  · exact absurd htakes (hnot s hs r hr)

/-- Without collisions siblings have names of their own if and only if no index page has the name that the keys of
a sibling add up to. -/
theorem names_unique_iff (options : CompileOptions) (files : List Text) (hnone : CollisionFree options files) :
    (∀ above siblings, (above, siblings) ∈ (compile options files).routes.families →
      siblings.Pairwise fun r s => r.name = s.name → r.name = none) ↔
    ∀ above siblings, (above, siblings) ∈ (compile options files).routes.families →
      ∀ r ∈ siblings, ∀ s ∈ siblings, ¬r.TakesNameOf s := by
  constructor
  · intro hunique above siblings hf r hr s hs htakes
    have hsymm : Std.Symm fun r s : Route => r.name = s.name → r.name = none :=
      ⟨fun r s h hname => hname.trans (h hname.symm)⟩
    obtain ⟨hname, hsome⟩ := htakes.name_eq
    exact hsome ((hunique above siblings hf).forall hr hs htakes.ne hname)
  · intro hnot above siblings hf
    refine (hnone.pairwise_takesNameOf hf).imp_of_mem fun {r s} hr hs h hname => ?_
    rcases h hname with hnil | htakes | htakes
    · exact hnil
    · exact absurd htakes (hnot above siblings hf r hr s hs)
    · exact absurd htakes (hnot above siblings hf s hs r hr)

/-- The index page of the folder `a_b_c` and the page `c` in the folder `a/b`, where nothing is reported. -/
theorem names_not_unique_a_b_c :
    let index : Route :=
      ⟨some "a_b_c".toList, "/a_b_c".toList, some "./p/a_b_c/index.vue".toList, [],
        ⟨["a_b_c".toList, "index".toList], 0⟩⟩
    let page : Route :=
      ⟨some "a_b_c".toList, "/a/b/c".toList, some "./p/a/b/c.vue".toList, [],
        ⟨["a".toList, "b".toList, "c".toList], 0⟩⟩
    let files := ["p/a_b_c/index.vue".toList, "p/a/b/c.vue".toList]
    CollisionFree (.forPages "p".toList) files ∧
      (compile (.forPages "p".toList) files).routes.roots = [index, page] ∧ index.TakesNameOf page ∧
      ¬∀ above siblings, (above, siblings) ∈ (compile (.forPages "p".toList) files).routes.families →
        siblings.Pairwise fun r s => r.name = s.name → r.name = none := by
  intro index page files
  have hpages : pagesOf (.forPages "p".toList) files =
      [⟨"p/a_b_c/index.vue".toList, ["a_b_c".toList, "index".toList], "./p/a_b_c/index.vue".toList⟩,
        ⟨"p/a/b/c.vue".toList, ["a".toList, "b".toList, "c".toList], "./p/a/b/c.vue".toList⟩] := rfl
  have hdraft := draftOf_eq hpages (by decide)
  have hroots : (compile (.forPages "p".toList) files).routes.roots = [index, page] := by
    rw [routes_compile, hdraft]
    rfl
  have hnone : CollisionFree (.forPages "p".toList) files := by
    intro file name h
    rw [nameCollision_mem_compile, hdraft] at h
    cases h
  have htakes : index.TakesNameOf page :=
    ⟨["a_b_c".toList], rfl, by decide, by decide, rfl, rfl, by decide⟩
  refine ⟨hnone, hroots, htakes, fun hunique => ?_⟩
  have hfamily : (none, [index, page]) ∈ (compile (.forPages "p".toList) files).routes.families :=
    hroots ▸ List.mem_cons_self
  exact (names_unique_iff _ files hnone).1 hunique none _ hfamily index (by simp) page (by simp) htakes

end Compilation

end RouteTable
