import Mathlib.Data.List.Infix
import RouteTable.Proofs.Hanging
import RouteTable.Proofs.NormalForm

namespace RouteTable

open Segment

namespace Page

def Above (p q : Page) : Prop := p.routeKeys <+: q.routeKeys ∧ p.routeKeys ≠ q.routeKeys

/-- Of the pages above `q`, the one with the most keys. -/
def Nearest (pages : List Page) (p q : Page) : Prop :=
  p.Above q ∧ ∀ p' ∈ pages, p'.Above q → p'.routeKeys.length ≤ p.routeKeys.length

/-- Pages of different files have different keys, and different beginnings of keys different names. -/
structure Separate (pages : List Page) : Prop where
  source_eq : ∀ p ∈ pages, ∀ q ∈ pages, p.routeKeys = q.routeKeys → p.source = q.source
  name_inj : ∀ keys keys', Begins pages keys → Begins pages keys' → nameOf keys = nameOf keys' → keys = keys'

theorem begins_iff_mem {pages : List Page} {keys : List Text} :
    Begins pages keys ↔ keys ∈ (pages.flatMap fun p => p.routeKeys.inits).filter (· ≠ []) := by
  simp only [Begins, List.mem_filter, List.mem_flatMap, List.mem_inits, decide_eq_true_eq, and_comm]

theorem separate_iff {pages : List Page} :
    Separate pages ↔ (∀ p ∈ pages, ∀ q ∈ pages, p.routeKeys = q.routeKeys → p.source = q.source) ∧
      ∀ keys ∈ (pages.flatMap fun p => p.routeKeys.inits).filter (· ≠ []),
        ∀ keys' ∈ (pages.flatMap fun p => p.routeKeys.inits).filter (· ≠ []),
          nameOf keys = nameOf keys' → keys = keys' := by
  simp only [← begins_iff_mem]
  constructor
  · rintro ⟨hsource, hname⟩
    exact ⟨hsource, fun keys hkeys keys' hkeys' => hname keys keys' hkeys hkeys'⟩
  · rintro ⟨hsource, hname⟩
    exact ⟨hsource, fun keys keys' hkeys hkeys' => hname keys hkeys keys' hkeys'⟩

/-- The same of the first words of the segments, and of names written out as their joined keys. -/
theorem separate_iff_words {pages : List Page} :
    Separate pages ↔
      (∀ p ∈ pages, ∀ q ∈ pages, (p.keys.map fun raw => (Text.words raw).headD []) =
        (q.keys.map fun raw => (Text.words raw).headD []) → p.source = q.source) ∧
      ∀ keys keys', Begins pages keys → Begins pages keys' →
        Text.joinWith '_' ((keys.map plainKey).dropWhile List.isEmpty) =
          Text.joinWith '_' ((keys'.map plainKey).dropWhile List.isEmpty) → keys = keys' := by
  simp only [← routeKeys_eq, ← nameOf_eq_joinWith_dropWhile]
  exact ⟨fun ⟨hsource, hname⟩ => ⟨hsource, hname⟩, fun ⟨hsource, hname⟩ => ⟨hsource, hname⟩⟩

instance (pages : List Page) : Decidable (Separate pages) := decidable_of_iff _ separate_iff.symm

end Page

namespace Forest

/-- Each page has one route, below the route of the nearest page above it, with the keys of that page as its base. -/
structure IsPrefixForest (pages : List Page) (routes : Forest Route) : Prop where
  covers : routes.Covers pages
  below : ∀ p ∈ pages, ∀ q ∈ pages,
    (∃ r s, r.IsOf p ∧ s.IsOf q ∧ routes.IsChild (some r) s) ↔ Page.Nearest pages p q
  top : ∀ q ∈ pages, (∃ s, s.IsOf q ∧ routes.IsChild none s) ↔ ∀ p ∈ pages, ¬p.Above q
  base_below : ∀ r s, routes.IsChild (some r) s → s.origin.base = r.origin.keys.length
  base_top : ∀ s, routes.IsChild none s → s.origin.base = 0

variable {f f' : Forest Route} {pages pages' : List Page} {p q : Page} {r s : Route}

theorem Hung.above_of_isChild (h : f.Hung pages) (hchild : f.IsChild (some r) s) (hr : r.IsOf p) (hs : s.IsOf q) :
    p.Above q ∧ s.origin.base = p.routeKeys.length := by
  have hhangs := h.hangs _ s hchild
  have hkeys := hhangs.above_keys r rfl
  have hlt := hhangs.base_lt
  rw [hr.2, hs.2] at hkeys
  rw [hs.2] at hlt
  have hlength : s.origin.base = p.routeKeys.length := by
    rw [hkeys, List.length_take, Nat.min_eq_left (Nat.le_of_lt hlt)]
  refine ⟨⟨hkeys ▸ List.take_prefix _ _, fun he => ?_⟩, hlength⟩
  rw [hlength, he] at hlt
  exact Nat.lt_irrefl _ hlt

theorem Hung.length_le_base {above : Option Route} (h : f.Hung pages) (hchild : f.IsChild above s)
    (hs : s.IsOf q) (hp : p ∈ pages) (habove : p.Above q) : p.routeKeys.length ≤ s.origin.base := by
  refine (h.hangs above s hchild).nearest p hp ?_ ?_
  · rw [hs.2]
    exact habove.1
  · rw [hs.2]
    exact habove.2

theorem Hung.isPrefixForest (h : f.Hung pages) (ho : Page.Orderly pages) : f.IsPrefixForest pages where
  covers := h.covers
  below p hp q hq := by
    constructor
    · rintro ⟨r, s, hr, hs, hchild⟩
      obtain ⟨habove, hbase⟩ := h.above_of_isChild hchild hr hs
      refine ⟨habove, fun p' hp' habove' => ?_⟩
      rw [← hbase]
      exact h.length_le_base hchild hs hp' habove'
    · rintro ⟨habove, hmost⟩
      obtain ⟨s, hs, hsq⟩ := h.covers.exists_route hq
      obtain ⟨parent, hchild⟩ := mem_labels_iff.1 hs
      have hle := h.length_le_base hchild hsq hp habove
      cases parent with
      | none =>
          rw [(h.linked.joins none s hchild).top rfl] at hle
          exact absurd (List.eq_nil_of_length_eq_zero (Nat.le_zero.1 hle)) (ho.ne_nil p hp)
      | some r =>
          obtain ⟨p', hp', hr⟩ := h.covers.exists_page (mem_labels_of_isChild hchild)
          obtain ⟨habove', hbase⟩ := h.above_of_isChild hchild hr hsq
          have hlength : p.routeKeys.length = p'.routeKeys.length :=
            Nat.le_antisymm (hbase ▸ hle) (hmost p' hp' habove')
          have hkeys : p.routeKeys = p'.routeKeys :=
            (List.prefix_of_prefix_length_le habove.1 habove'.1 (Nat.le_of_eq hlength)).eq_of_length hlength
          have hpp' : p = p' := List.inj_on_of_nodup_map ho.nodup hp hp' hkeys
          exact ⟨r, s, hpp' ▸ hr, hsq, hchild⟩
  top q hq := by
    constructor
    · rintro ⟨s, hs, hchild⟩ p hp habove
      have hle := h.length_le_base hchild hs hp habove
      rw [(h.linked.joins none s hchild).top rfl] at hle
      exact ho.ne_nil p hp (List.eq_nil_of_length_eq_zero (Nat.le_zero.1 hle))
    · intro hnone
      obtain ⟨s, hs, hsq⟩ := h.covers.exists_route hq
      obtain ⟨parent, hchild⟩ := mem_labels_iff.1 hs
      cases parent with
      | none => exact ⟨s, hsq, hchild⟩
      | some r =>
          obtain ⟨p, hp, hr⟩ := h.covers.exists_page (mem_labels_of_isChild hchild)
          exact absurd (h.above_of_isChild hchild hr hsq).1 (hnone p hp)
  base_below r s hchild := by
    have hhangs := h.hangs _ s hchild
    rw [hhangs.above_keys r rfl, List.length_take, Nat.min_eq_left (Nat.le_of_lt hhangs.base_lt)]
  base_top s hchild := (h.linked.joins none s hchild).top rfl

theorem exists_child_of_map_stem_eq (hstem : f.map Route.stem = f'.map Route.stem)
    (h : ∃ r s, r.IsOf p ∧ s.IsOf q ∧ f.IsChild (some r) s) : ∃ r s, r.IsOf p ∧ s.IsOf q ∧ f'.IsChild (some r) s := by
  obtain ⟨r, s, hr, hs, hchild⟩ := h
  obtain ⟨parent, s', hchild', hparent, hs'⟩ := exists_isChild_of_map_eq hstem hchild
  cases parent with
  | none => cases hparent
  | some r' =>
      have hr' : r'.stem = r.stem := Option.some.inj hparent
      exact ⟨r', s', (Route.isOf_iff_of_stem_eq hr' p).2 hr, (Route.isOf_iff_of_stem_eq hs' q).2 hs, hchild'⟩

theorem exists_top_of_map_stem_eq (hstem : f.map Route.stem = f'.map Route.stem)
    (h : ∃ s, s.IsOf q ∧ f.IsChild none s) : ∃ s, s.IsOf q ∧ f'.IsChild none s := by
  obtain ⟨s, hs, hchild⟩ := h
  obtain ⟨parent, s', hchild', hparent, hs'⟩ := exists_isChild_of_map_eq hstem hchild
  cases parent with
  | none => exact ⟨s', (Route.isOf_iff_of_stem_eq hs' q).2 hs, hchild'⟩
  | some r' => cases hparent

theorem IsPrefixForest.congr (h : f.IsPrefixForest pages) (hstem : f.map Route.stem = f'.map Route.stem)
    (hpages : pages.Perm pages') : f'.IsPrefixForest pages' where
  covers := (h.covers.of_map_stem_eq hstem).trans (hpages.map _)
  below p hp q hq := by
    rw [Page.Nearest]
    simp only [← hpages.mem_iff]
    refine Iff.trans ⟨?_, ?_⟩ (h.below p (hpages.mem_iff.2 hp) q (hpages.mem_iff.2 hq))
    · exact exists_child_of_map_stem_eq hstem.symm
    · exact exists_child_of_map_stem_eq hstem
  top q hq := by
    simp only [← hpages.mem_iff]
    refine Iff.trans ⟨?_, ?_⟩ (h.top q (hpages.mem_iff.2 hq))
    · exact exists_top_of_map_stem_eq hstem.symm
    · exact exists_top_of_map_stem_eq hstem
  base_below r s hchild := by
    obtain ⟨parent, s', hchild', hparent, hs'⟩ := exists_isChild_of_map_eq hstem.symm hchild
    cases parent with
    | none => cases hparent
    | some r' =>
        have hr' : r'.stem = r.stem := Option.some.inj hparent
        have hbase := h.base_below r' s' hchild'
        rwa [(Prod.mk.inj hr').2, (Prod.mk.inj hs').2] at hbase
  base_top s hchild := by
    obtain ⟨parent, s', hchild', hparent, hs'⟩ := exists_isChild_of_map_eq hstem.symm hchild
    cases parent with
    | none =>
        have hbase := h.base_top s' hchild'
        rwa [(Prod.mk.inj hs').2] at hbase
    | some r' => cases hparent

end Forest

namespace Compilation

variable {options : CompileOptions} {files : List Text}

theorem orderly_inOrder (h : Page.Separate (pagesOf options files)) :
    Page.Orderly (inOrder (pagesOf options files)) where
  ne_nil p hp := by simpa [Page.routeKeys] using keys_ne_nil_of_mem_inOrder options files p hp
  nodup := by
    refine List.Nodup.map_on (fun p hp q hq hkeys => ?_) nodup_inOrder
    have hp := mem_inOrder.1 hp
    have hq := mem_inOrder.1 hq
    exact faithful_pagesOf p hp q hq (h.source_eq p hp q hq hkeys)
  name_inj keys keys' hkeys hkeys' :=
    h.name_inj keys keys' (hkeys.mono fun _ hp => mem_inOrder.1 hp) (hkeys'.mono fun _ hp => mem_inOrder.1 hp)
  length_le := pairwise_length_inOrder.imp fun {p q} hpq => by simpa [Page.routeKeys] using hpq

/-- Where the pages are separate, no page collides and the table is their prefix forest. -/
theorem compile_isPrefixForest (options : CompileOptions) (files : List Text)
    (h : Page.Separate (pagesOf options files)) :
    CollisionFree options files ∧
      (compile options files).routes.IsPrefixForest (pagesOf options files.dedup) := by
  have ho := orderly_inOrder h
  have hung := Draft.hung_insertAll options.mixins _ ho
  constructor
  · refine collisionFree_iff.2 fun r hr hcollides => ?_
    obtain ⟨above, hchild⟩ := Forest.mem_labels_iff.1 hr
    have hlt := (hung.hangs above r hchild).base_lt
    rw [hcollides] at hlt
    exact Nat.lt_irrefl _ hlt
  · exact (hung.isPrefixForest ho).congr (map_stem_compile options files).symm inOrder_perm_dedup

/-- A page below its folder's page, whatever is read first, and a page without a page above it. -/
theorem isPrefixForest_users :
    let files := ["p/users/_id/posts.vue".toList, "p/users.vue".toList, "p/about/team.vue".toList]
    Page.Separate (pagesOf (.forPages "p".toList) files) ∧
      (compile (.forPages "p".toList) files).routes.IsPrefixForest (pagesOf (.forPages "p".toList) files.dedup) := by
  intro files
  have hpages : pagesOf (.forPages "p".toList) files =
      [⟨"p/users/_id/posts.vue".toList, ["users".toList, "_id".toList, "posts".toList],
          "./p/users/_id/posts.vue".toList⟩,
        ⟨"p/users.vue".toList, ["users".toList], "./p/users.vue".toList⟩,
        ⟨"p/about/team.vue".toList, ["about".toList, "team".toList], "./p/about/team.vue".toList⟩] := rfl
  have hseparate : Page.Separate (pagesOf (.forPages "p".toList) files) := by
    rw [hpages]
    decide
  exact ⟨hseparate, (compile_isPrefixForest _ files hseparate).2⟩

end Compilation

end RouteTable
