import RouteTable.Proofs.Landing

namespace RouteTable

open Segment

def Page.routeKeys (page : Page) : List Text := page.keys.map fun k => (Segment.ofText k).key

theorem Page.routeKeys_eq (page : Page) : page.routeKeys = page.keys.map fun raw => (Text.words raw).headD [] :=
  List.map_congr_left fun raw _ => key_ofText raw

theorem Page.routeKeys_ne_nil {page : Page} (h : page.keys ≠ []) : page.routeKeys ≠ [] :=
  mt List.map_eq_nil_iff.1 h

namespace Route

/-- A route that went below the route of its whole name. -/
def Collides (r : Route) : Prop := r.origin.base = r.origin.keys.length

/-- What ties a route to the one above it. -/
structure Joins (above : Option Route) (r : Route) : Prop where
  name_eq : r.name = some (nameOf r.origin.keys)
  base_le : r.origin.base ≤ r.origin.keys.length
  top : above = none → r.origin.base = 0
  below : ∀ p, above = some p → 0 < r.origin.base ∧ p.name = some (nameOf (r.origin.keys.take r.origin.base))
  path_eq : r.path = Landing.pathFrom r.origin.base (r.origin.keys.drop r.origin.base)

def IsOf (page : Page) (r : Route) : Prop := r.component = some page.component ∧ r.origin.keys = page.routeKeys

end Route

namespace Forest

variable {f : Forest Route} {pages : List Page} {r : Route} {page : Page}

/-- One route for each page, with the component and the keys of the page. -/
def Covers (pages : List Page) (f : Forest Route) : Prop :=
  (f.labels.map fun r => (r.component, r.origin.keys)).Perm (pages.map fun p => (some p.component, p.routeKeys))

theorem Covers.exists_page (h : f.Covers pages) (hr : r ∈ f.labels) : ∃ p ∈ pages, r.IsOf p := by
  have hmem := h.mem_iff.1 (List.mem_map_of_mem hr)
  obtain ⟨p, hp, he⟩ := List.mem_map.1 hmem
  exact ⟨p, hp, (Prod.mk.inj he).1.symm, (Prod.mk.inj he).2.symm⟩

theorem Covers.exists_route (h : f.Covers pages) (hp : page ∈ pages) : ∃ r ∈ f.labels, r.IsOf page := by
  have hmem := h.mem_iff.2 (List.mem_map_of_mem hp)
  obtain ⟨r, hr, he⟩ := List.mem_map.1 hmem
  exact ⟨r, hr, (Prod.mk.inj he).1, (Prod.mk.inj he).2⟩

end Forest

namespace Draft

variable {mixins : MixinSet} {draft : Draft} {page : Page} {r : Route} {above : Option Route}
  {siblings siblings' : List Route} {others : List (Option Route × List Route)}

/-- A page's route joins the siblings below `above`; the other families stay as they are. -/
structure Insertion (mixins : MixinSet) (draft : Draft) (page : Page) (r : Route) (above : Option Route)
    (siblings siblings' : List Route) (others : List (Option Route × List Route)) : Prop where
  before : draft.routes.families.Perm ((above, siblings) :: others)
  after : (draft.insert mixins page).routes.families.Perm ((above, siblings') :: (some r, []) :: others)
  grown : siblings'.Perm (r :: siblings)
  isOf : r.IsOf page
  joins : r.Joins above
  fresh : ∀ i, r.origin.base < i → i ≤ r.origin.keys.length →
    ∀ s ∈ siblings, s.name ≠ some (nameOf (r.origin.keys.take i))
  collision : ∀ file name, .nameCollision file name ∈ (draft.insert mixins page).warnings ↔
    .nameCollision file name ∈ draft.warnings ∨
      file = page.source ∧ name = nameOf page.routeKeys ∧ r.Collides

theorem nameCollision_mem_warningsOf {landing : Landing} {file name : Text} :
    .nameCollision file name ∈ warningsOf mixins page landing ↔
      file = page.source ∧ name = landing.name ∧ landing.collides = true := by
  unfold warningsOf
  cases landing.collides <;> simp

theorem insert_of_keys (mixins : MixinSet) (draft : Draft) (page : Page) (hne : page.keys ≠ []) :
    draft.insert mixins page =
      let landing := Landing.of page.routeKeys draft.forest
      { forest := plant ⟨draft.forest.size, routeOf mixins page landing⟩ landing.address draft.forest
        warnings := draft.warnings ++ warningsOf mixins page landing } := by
  rw [insert, if_neg (by simpa using hne)]
  rfl

theorem insert_of_no_keys (mixins : MixinSet) (draft : Draft) (page : Page) (hnone : page.keys = []) :
    draft.insert mixins page = { draft with warnings := draft.warnings ++ [.emptyRoute page.source] } := by
  rw [insert, if_pos (by rw [hnone]; rfl)]

theorem routeOf_keys (mixins : MixinSet) (page : Page) (landing : Landing) :
    (routeOf mixins page landing).origin.keys = page.routeKeys :=
  List.map_map

theorem exists_insertion (mixins : MixinSet) (draft : Draft) (page : Page) (hne : page.keys ≠ []) :
    ∃ r above siblings siblings' others, Insertion mixins draft page r above siblings siblings' others := by
  have hkeys := Page.routeKeys_ne_nil hne
  obtain ⟨above, siblings, hdescend, hland, hname, hcollides⟩ := Landing.of_underway hkeys draft.forest
  have hinsert := insert_of_keys mixins draft page hne
  have hr := routeOf_keys mixins page (Landing.of page.routeKeys draft.forest)
  generalize Landing.of page.routeKeys draft.forest = landing at *
  let leaf : Planted := ⟨draft.forest.size, routeOf mixins page landing⟩
  obtain ⟨others, hbefore, hafter⟩ := plant_families leaf hdescend
  let shown := Prod.map (Option.map Planted.route) (List.map Planted.route)
  refine ⟨leaf.route, above.map Planted.route, siblings.roots.map Planted.route,
    (Forest.place Planted.order leaf .nil siblings).roots.map Planted.route, others.map shown,
    ?_, ?_, ?_, ⟨rfl, hr⟩, ⟨?_, ?_, ?_, ?_, ?_⟩, ?_, ?_⟩
  · rw [routes, Forest.families_map]
    exact hbefore.map shown
  · rw [hinsert, routes, Forest.families_map]
    exact hafter.map shown
  · exact (Forest.roots_place _ _ _ _).map Planted.route
  · exact congrArg some (hname.trans (congrArg nameOf hr.symm))
  · rw [hr]
    exact hland.base_le
  · intro h
    exact hland.top (by simpa using h)
  · intro p h
    obtain ⟨q, hq, rfl⟩ := Option.map_eq_some_iff.1 h
    rw [hr]
    exact hland.below q hq
  · have hpath := hland.path_eq
    rw [List.drop_length, Landing.pathFrom, List.append_nil] at hpath
    rw [hr]
    exact hpath
  · intro i hi hi' s hs
    obtain ⟨q, hq, rfl⟩ := List.mem_map.1 hs
    rw [hr] at hi' ⊢
    exact hland.fresh i hi hi' q hq
  · intro file name
    rw [hinsert, List.mem_append, nameCollision_mem_warningsOf, hname, hcollides, Route.Collides, hr]
    rfl

namespace Insertion

variable (h : Insertion mixins draft page r above siblings siblings' others)
include h

theorem isChild_iff {p : Option Route} {x : Route} :
    (draft.insert mixins page).routes.IsChild p x ↔ (p = above ∧ x = r) ∨ draft.routes.IsChild p x := by
  simp only [Forest.IsChild, h.before.mem_iff, h.after.mem_iff, List.mem_cons, Prod.mk.injEq]
  constructor
  · rintro ⟨xs, ⟨rfl, rfl⟩ | ⟨rfl, rfl⟩ | hmem, hx⟩
    · rcases List.mem_cons.1 (h.grown.mem_iff.1 hx) with rfl | hx
      · exact .inl ⟨rfl, rfl⟩
      · exact .inr ⟨siblings, .inl ⟨rfl, rfl⟩, hx⟩
    · cases hx
    · exact .inr ⟨xs, .inr hmem, hx⟩
  · rintro (⟨rfl, rfl⟩ | ⟨xs, ⟨rfl, rfl⟩ | hmem, hx⟩)
    · exact ⟨siblings', .inl ⟨rfl, rfl⟩, h.grown.mem_iff.2 List.mem_cons_self⟩
    · exact ⟨siblings', .inl ⟨rfl, rfl⟩, h.grown.mem_iff.2 (List.mem_cons_of_mem _ hx)⟩
    · exact ⟨xs, .inr (.inr hmem), hx⟩

theorem mem_labels_above (a : Route) (ha : above = some a) : a ∈ draft.routes.labels := by
  subst ha
  exact Forest.mem_labels_of_mem_families (h.before.mem_iff.2 List.mem_cons_self)

theorem labels_perm : (draft.insert mixins page).routes.labels.Perm (r :: draft.routes.labels) := by
  have hb := draft.routes.labels_perm_families.trans (h.before.flatMap_right Prod.snd)
  have ha := (draft.insert mixins page).routes.labels_perm_families.trans (h.after.flatMap_right Prod.snd)
  simp only [List.flatMap_cons, List.nil_append] at hb ha
  exact (ha.trans (h.grown.append_right _)).trans (hb.symm.cons r)

theorem covers {done : List Page} (hc : draft.routes.Covers done) :
    (draft.insert mixins page).routes.Covers (done ++ [page]) := by
  refine (h.labels_perm.map _).trans ?_
  rw [List.map_cons, h.isOf.1, h.isOf.2, List.map_append]
  exact (hc.cons _).trans (List.perm_append_singleton _ _).symm

end Insertion

/-- An invariant of drafts that holds at the start and survives each page holds after all pages. -/
theorem insertAll_induction {motive : List Page → Draft → Prop} (mixins : MixinSet) (pages : List Page)
    (start : motive [] empty)
    (step : ∀ done page rest draft, pages = done ++ page :: rest → motive done draft →
      motive (done ++ [page]) (draft.insert mixins page)) :
    motive pages (empty.insertAll mixins pages) := by
  suffices ∀ done rest draft, pages = done ++ rest → motive done draft →
      motive pages (draft.insertAll mixins rest) from this [] pages empty rfl start
  intro done rest draft hpages hdone
  induction rest generalizing done draft with
  | nil => exact (hpages.trans (List.append_nil done)) ▸ hdone
  | cons page rest ih =>
      exact ih (done ++ [page]) (draft.insert mixins page) (by rw [hpages, List.append_assoc]; rfl)
        (step done page rest draft hpages hdone)

end Draft

namespace Forest

structure Linked (f : Forest Route) : Prop where
  joins : ∀ above r, f.IsChild above r → r.Joins above
  apart : ∀ above siblings, (above, siblings) ∈ f.families →
    siblings.Pairwise fun r s => r.name = s.name → r.Collides ∨ s.Collides

end Forest

namespace Draft

variable {mixins : MixinSet} {draft : Draft} {page : Page} {r : Route} {above : Option Route}
  {siblings siblings' : List Route} {others : List (Option Route × List Route)}

theorem Insertion.linked (h : Insertion mixins draft page r above siblings siblings' others)
    (hl : draft.routes.Linked) : (draft.insert mixins page).routes.Linked where
  joins p x hx := by
    rcases h.isChild_iff.1 hx with ⟨rfl, rfl⟩ | hx
    · exact h.joins
    · exact hl.joins p x hx
  apart p xs hmem := by
    simp only [h.after.mem_iff, List.mem_cons, Prod.mk.injEq] at hmem
    rcases hmem with ⟨rfl, rfl⟩ | ⟨rfl, rfl⟩ | hmem
    · have hsymm : ∀ {r s : Route}, (r.name = s.name → r.Collides ∨ s.Collides) →
          s.name = r.name → s.Collides ∨ r.Collides := fun hrs hname => (hrs hname.symm).symm
      refine (h.grown.pairwise_iff hsymm).2 (List.pairwise_cons.2 ⟨fun s hs hname => ?_, ?_⟩)
      · by_contra hcollides
        have hlt : r.origin.base < r.origin.keys.length :=
          Nat.lt_of_le_of_ne h.joins.base_le fun he => hcollides (.inl he)
        refine h.fresh _ hlt (Nat.le_refl _) s hs ?_
        rw [List.take_length, ← h.joins.name_eq, hname]
      · exact hl.apart _ _ (h.before.mem_iff.2 List.mem_cons_self)
    · exact List.Pairwise.nil
    · exact hl.apart p xs (h.before.mem_iff.2 (List.mem_cons_of_mem _ hmem))

theorem linked_insertAll (mixins : MixinSet) (pages : List Page) (hkeys : ∀ p ∈ pages, p.keys ≠ []) :
    (empty.insertAll mixins pages).routes.Linked := by
  refine insertAll_induction mixins pages (motive := fun _ draft => draft.routes.Linked) ⟨?_, ?_⟩ ?_
  · rintro above r ⟨xs, hmem, hr⟩
    cases List.mem_singleton.1 hmem
    cases hr
  · intro above xs hmem
    cases List.mem_singleton.1 hmem
    exact List.Pairwise.nil
  · intro done page rest draft hpages hdone
    obtain ⟨r, above, siblings, siblings', others, h⟩ :=
      exists_insertion mixins draft page (hkeys page (by simp [hpages]))
    exact h.linked hdone

theorem covers_insertAll (mixins : MixinSet) (pages : List Page) (hkeys : ∀ p ∈ pages, p.keys ≠ []) :
    (empty.insertAll mixins pages).routes.Covers pages := by
  refine insertAll_induction mixins pages (motive := fun done draft => draft.routes.Covers done) (List.Perm.refl _) ?_
  intro done page rest draft hpages hdone
  obtain ⟨r, above, siblings, siblings', others, h⟩ :=
    exists_insertion mixins draft page (hkeys page (by simp [hpages]))
  exact h.covers hdone

theorem collision_insertAll (mixins : MixinSet) (pages : List Page) (hkeys : ∀ p ∈ pages, p.keys ≠ []) :
    (∃ file name, .nameCollision file name ∈ (empty.insertAll mixins pages).warnings) ↔
      ∃ r ∈ (empty.insertAll mixins pages).routes.labels, r.Collides := by
  refine insertAll_induction mixins pages (motive := fun _ draft =>
    (∃ file name, .nameCollision file name ∈ draft.warnings) ↔ ∃ r ∈ draft.routes.labels, r.Collides) ?_ ?_
  · constructor
    · rintro ⟨file, name, h⟩
      cases h
    · rintro ⟨r, h, _⟩
      cases h
  · intro done page rest draft hpages hdone
    obtain ⟨r, above, siblings, siblings', others, h⟩ :=
      exists_insertion mixins draft page (hkeys page (by simp [hpages]))
    simp only [h.collision, h.labels_perm.mem_iff, List.mem_cons]
    constructor
    · rintro ⟨file, name, hold | ⟨_, _, hnew⟩⟩
      · obtain ⟨s, hs, hcollides⟩ := hdone.1 ⟨file, name, hold⟩
        exact ⟨s, .inr hs, hcollides⟩
      · exact ⟨r, .inl rfl, hnew⟩
    · rintro ⟨s, rfl | hs, hcollides⟩
      · exact ⟨page.source, _, .inr ⟨rfl, rfl, hcollides⟩⟩
      · obtain ⟨file, name, hold⟩ := hdone.2 ⟨s, hs, hcollides⟩
        exact ⟨file, name, .inl hold⟩

end Draft

end RouteTable
