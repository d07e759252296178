import RouteTable.Proofs.Linkage

namespace RouteTable

open Segment

namespace Page

def Begins (pages : List Page) (keys : List Text) : Prop := keys ≠ [] ∧ ∃ p ∈ pages, keys <+: p.routeKeys

/-- Pages of different keys by the number of their keys, with different names for different beginnings of keys. -/
structure Orderly (pages : List Page) : Prop where
  ne_nil : ∀ p ∈ pages, p.routeKeys ≠ []
  nodup : (pages.map routeKeys).Nodup
  name_inj : ∀ keys keys', Begins pages keys → Begins pages keys' → nameOf keys = nameOf keys' → keys = keys'
  length_le : pages.Pairwise fun p q => p.routeKeys.length ≤ q.routeKeys.length

variable {pages pages' done : List Page} {page p : Page}

theorem Begins.mono {keys : List Text} (h : Begins pages' keys) (hsub : ∀ p ∈ pages', p ∈ pages) :
    Begins pages keys := by
  obtain ⟨hne, p, hp, hbegins⟩ := h
  exact ⟨hne, p, hsub p hp, hbegins⟩

theorem Orderly.sublist (h : Orderly pages) (hs : pages'.Sublist pages) : Orderly pages' where
  ne_nil p hp := h.ne_nil p (hs.mem hp)
  nodup := h.nodup.sublist (hs.map routeKeys)
  name_inj keys keys' hkeys hkeys' :=
    h.name_inj keys keys' (hkeys.mono fun _ hp => hs.mem hp) (hkeys'.mono fun _ hp => hs.mem hp)
  length_le := h.length_le.sublist hs

theorem Orderly.routeKeys_ne (h : Orderly (done ++ [page])) (hp : p ∈ done) : p.routeKeys ≠ page.routeKeys := by
  have hd := h.nodup
  rw [List.map_append, List.nodup_append] at hd
  exact hd.2.2 _ (List.mem_map_of_mem hp) _ List.mem_cons_self

theorem Orderly.length_le_last (h : Orderly (done ++ [page])) (hp : p ∈ done) :
    p.routeKeys.length ≤ page.routeKeys.length :=
  (List.pairwise_append.1 h.length_le).2.2 p hp page List.mem_cons_self

end Page

namespace Route

variable {pages : List Page} {above : Option Route} {s : Route} {page : Page}

/-- A route below the page of the first `base` keys, where no page has more of its keys. -/
structure Hangs (pages : List Page) (above : Option Route) (s : Route) : Prop where
  base_lt : s.origin.base < s.origin.keys.length
  above_keys : ∀ a, above = some a → a.origin.keys = s.origin.keys.take s.origin.base
  nearest : ∀ p ∈ pages, p.routeKeys <+: s.origin.keys → p.routeKeys ≠ s.origin.keys →
    p.routeKeys.length ≤ s.origin.base

theorem Hangs.concat (h : Hangs pages above s) (hlength : s.origin.keys.length ≤ page.routeKeys.length) :
    Hangs (pages ++ [page]) above s where
  base_lt := h.base_lt
  above_keys := h.above_keys
  nearest p hp hbegins hne := by
    rcases List.mem_append.1 hp with hp | hp
    · exact h.nearest p hp hbegins hne
    · cases List.mem_singleton.1 hp
      exact absurd (hbegins.eq_of_length_le hlength) hne

end Route

namespace Forest

variable {f : Forest Route} {pages : List Page} {r a b : Route} {page : Page}

/-- One route for each page, each hanging where its keys say. -/
structure Hung (pages : List Page) (f : Forest Route) : Prop where
  linked : f.Linked
  covers : f.Covers pages
  hangs : ∀ above s, f.IsChild above s → s.Hangs pages above

section Distinct

variable (h : f.Hung pages) (hd : (pages.map Page.routeKeys).Nodup)
include h hd

theorem Hung.nodup_keys : (f.labels.map fun r => r.origin.keys).Nodup := by
  have hkeys := h.covers.map Prod.snd
  rw [List.map_map, List.map_map] at hkeys
  exact hkeys.nodup_iff.2 hd

theorem Hung.eq_of_keys_eq (ha : a ∈ f.labels) (hb : b ∈ f.labels) (hkeys : a.origin.keys = b.origin.keys) : a = b :=
  List.inj_on_of_nodup_map (h.nodup_keys hd) ha hb hkeys

theorem Hung.nodup_labels : f.labels.Nodup := (h.nodup_keys hd).of_map _

end Distinct

end Forest

namespace Draft

variable {mixins : MixinSet} {draft : Draft} {page : Page} {r : Route} {above : Option Route}
  {siblings siblings' : List Route} {others : List (Option Route × List Route)} {done : List Page}

namespace Insertion

variable (h : Insertion mixins draft page r above siblings siblings' others) (hung : draft.routes.Hung done)
  (ho : Page.Orderly (done ++ [page]))
include h hung ho

theorem above_keys (a : Route) (ha : above = some a) : a.origin.keys = r.origin.keys.take r.origin.base := by
  have hlabel := h.mem_labels_above a ha
  obtain ⟨hpos, hname⟩ := h.joins.below a ha
  obtain ⟨p, hp, _, hkeys⟩ := hung.covers.exists_page hlabel
  obtain ⟨parent, hchild⟩ := Forest.mem_labels_iff.1 hlabel
  rw [(hung.linked.joins parent a hchild).name_eq, Option.some.injEq] at hname
  refine ho.name_inj _ _ ⟨?_, p, List.mem_append_left _ hp, hkeys ▸ List.prefix_refl _⟩ ⟨?_, page, ?_, ?_⟩ hname
  · rw [hkeys]
    exact ho.ne_nil p (List.mem_append_left _ hp)
  · intro hnil
    have hlength := congrArg List.length hnil
    have hle := h.joins.base_le
    rw [List.length_take, List.length_nil] at hlength
    omega
  · exact List.mem_append_right _ (List.mem_singleton_self page)
  · rw [h.isOf.2]
    exact List.take_prefix _ _

theorem base_lt : r.origin.base < r.origin.keys.length := by
  refine Nat.lt_of_le_of_ne h.joins.base_le fun hbase => ?_
  cases above with
  | none =>
      rw [h.joins.top rfl, h.isOf.2] at hbase
      exact ho.ne_nil page (by simp) (List.eq_nil_of_length_eq_zero hbase.symm)
  | some a =>
      obtain ⟨p, hp, _, hkeys⟩ := hung.covers.exists_page (h.mem_labels_above a rfl)
      refine ho.routeKeys_ne hp ?_
      rw [← hkeys, h.above_keys hung ho a rfl, hbase, List.take_length, h.isOf.2]

theorem base_le_of_take {i : Nat} (hbase : r.origin.base < i) (hi : i < r.origin.keys.length)
    {parent : Option Route} {s : Route} (hchild : draft.routes.IsChild parent s)
    (hkeys : s.origin.keys = r.origin.keys.take i) (a : Route) (ha : above = some a) :
    r.origin.base ≤ s.origin.base := by
  obtain ⟨p, hp, _, hpage⟩ := hung.covers.exists_page (h.mem_labels_above a ha)
  have hpkeys : p.routeKeys = r.origin.keys.take r.origin.base := by rw [← hpage, h.above_keys hung ho a ha]
  have hlength : p.routeKeys.length = r.origin.base := by
    rw [hpkeys, List.length_take]
    omega
  rw [← hlength]
  refine (hung.hangs parent s hchild).nearest p hp ?_ fun he => ?_
  · rw [hpkeys, hkeys]
    exact List.take_prefix_take_left (Nat.le_of_lt hbase)
  · have hsame := congrArg List.length he
    rw [hlength, hkeys, List.length_take] at hsame
    omega

theorem parent_eq {i : Nat} (hbase : r.origin.base < i) (hi : i < r.origin.keys.length)
    (hno : ∀ j, r.origin.base < j → j < i → ∀ p ∈ done, p.routeKeys ≠ r.origin.keys.take j)
    {parent : Option Route} {s : Route} (hchild : draft.routes.IsChild parent s)
    (hkeys : s.origin.keys = r.origin.keys.take i) : parent = above := by
  have hhangs := hung.hangs parent s hchild
  have hjoins := hung.linked.joins parent s hchild
  have hlt : s.origin.base < i := by
    have := hhangs.base_lt
    rw [hkeys, List.length_take] at this
    omega
  have hparent : ∀ a, parent = some a → a.origin.keys = r.origin.keys.take s.origin.base := by
    intro a ha
    rw [hhangs.above_keys a ha, hkeys, List.take_take, Nat.min_eq_left (Nat.le_of_lt hlt)]
  have hle : ∀ a, parent = some a → s.origin.base ≤ r.origin.base := by
    intro a ha
    subst ha
    obtain ⟨p, hp, _, hpage⟩ := hung.covers.exists_page (Forest.mem_labels_of_isChild hchild)
    by_contra hgt
    exact hno s.origin.base (by omega) hlt p hp (hpage.symm.trans (hparent a rfl))
  have hge := h.base_le_of_take hung ho hbase hi hchild hkeys
  cases above with
  | none =>
      have htop := h.joins.top rfl
      cases parent with
      | none => rfl
      | some a =>
          have hpos := (hjoins.below a rfl).1
          have := hle a rfl
          omega
  | some a =>
      have hpos := (h.joins.below a rfl).1
      have hbase := hge a rfl
      cases parent with
      | none =>
          have := hjoins.top rfl
          omega
      | some a' =>
          have heq : s.origin.base = r.origin.base := Nat.le_antisymm (hle a' rfl) hbase
          have hd := (ho.sublist (List.sublist_append_left done [page])).nodup
          have hmem := Forest.mem_labels_of_isChild hchild
          refine congrArg some (hung.eq_of_keys_eq hd hmem (h.mem_labels_above a rfl) ?_)
          rw [hparent a' rfl, h.above_keys hung ho a rfl, heq]

/-- Between the route above and the new one there is no page: its route would be a sibling of a searched name. -/
theorem no_page_between (i : Nat) (hbase : r.origin.base < i) (hi : i < r.origin.keys.length) :
    ∀ p ∈ done, p.routeKeys ≠ r.origin.keys.take i := by
  have hd := (ho.sublist (List.sublist_append_left done [page])).nodup
  induction i using Nat.strongRecOn with
  | ind i ih =>
      intro p hp hkeys
      obtain ⟨s, hs, _, hskeys⟩ := hung.covers.exists_route hp
      rw [hkeys] at hskeys
      obtain ⟨parent, hchild⟩ := Forest.mem_labels_iff.1 hs
      have hname := (hung.linked.joins parent s hchild).name_eq
      have hsame : parent = above := by
        refine h.parent_eq hung ho hbase hi (fun j hj hji => ?_) hchild hskeys
        exact ih j hji hj (Nat.lt_trans hji hi)
      obtain ⟨xs, hxs, hsx⟩ := hchild
      rw [hsame] at hxs
      have hxs' := Forest.siblings_unique (hung.nodup_labels hd) hxs (h.before.mem_iff.2 List.mem_cons_self)
      refine h.fresh i hbase (Nat.le_of_lt hi) s (hxs' ▸ hsx) ?_
      rw [hname, hskeys]

theorem hangs : r.Hangs (done ++ [page]) above where
  base_lt := h.base_lt hung ho
  above_keys := h.above_keys hung ho
  nearest p hp hbegins hne := by
    rcases List.mem_append.1 hp with hp | hp
    · by_contra hgt
      have hshort : p.routeKeys.length < r.origin.keys.length :=
        Nat.lt_of_le_of_ne hbegins.length_le fun he => hne (hbegins.eq_of_length he)
      exact h.no_page_between hung ho _ (by omega) hshort p hp (List.prefix_iff_eq_take.1 hbegins)
    · cases List.mem_singleton.1 hp
      exact absurd h.isOf.2.symm hne

theorem hung_insert : (draft.insert mixins page).routes.Hung (done ++ [page]) := by
  refine ⟨h.linked hung.linked, h.covers hung.covers, fun parent s hs => ?_⟩
  rcases h.isChild_iff.1 hs with ⟨rfl, rfl⟩ | hs
  · exact h.hangs hung ho
  · refine (hung.hangs parent s hs).concat ?_
    obtain ⟨p, hp, _, hkeys⟩ := hung.covers.exists_page (Forest.mem_labels_iff.2 ⟨parent, hs⟩)
    rw [hkeys]
    exact ho.length_le_last hp

end Insertion

theorem hung_insertAll (mixins : MixinSet) (pages : List Page) (ho : Page.Orderly pages) :
    (empty.insertAll mixins pages).routes.Hung pages := by
  refine insertAll_induction mixins pages (motive := fun done draft => draft.routes.Hung done) ?_ ?_
  · refine ⟨linked_insertAll mixins [] (by simp), List.Perm.refl _, ?_⟩
    rintro above s ⟨xs, hmem, hs⟩
    cases List.mem_singleton.1 hmem
    cases hs
  · intro done page rest draft hpages hung
    have hsub : (done ++ [page]).Sublist pages := by
      rw [hpages]
      exact (List.Sublist.refl done).append (List.singleton_sublist.2 List.mem_cons_self)
    have hne : page.routeKeys ≠ [] := ho.ne_nil page (by simp [hpages])
    obtain ⟨r, above, siblings, siblings', others, h⟩ :=
      exists_insertion mixins draft page (by simpa [Page.routeKeys] using hne)
    exact h.hung_insert hung (ho.sublist hsub)

end Draft

end RouteTable
