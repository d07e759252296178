import RouteTable.Proofs.MixinFields
import RouteTable.Proofs.Paths

namespace RouteTable

open Segment

def Warning.isNameCollision : Warning → Bool
  | nameCollision _ _ => true
  | _ => false

def Page.hasKeys (page : Page) : Bool := !page.keys.isEmpty

theorem Page.hasKeys_iff {page : Page} : page.hasKeys = true ↔ page.keys ≠ [] := by
  simp [Page.hasKeys]

instance (r : Route) : Decidable r.Collides := inferInstanceAs (Decidable (_ = _))

theorem Route.Joins.path_eq_flatMap {r : Route} {above : Option Route} (h : r.Joins above)
    (hne : r.origin.keys ≠ []) :
    r.path = if above.isNone ∧ r.origin.keys = [indexKey] then ['/'] else
      (patterns (r.origin.keys.drop r.origin.base)).flatMap ('/' :: ·) := by
  rw [h.path_eq]
  cases above with
  | some p =>
      rw [if_neg (by simp)]
      exact Landing.pathFrom_of_pos (h.below p rfl).1 _
  | none =>
      rw [h.top rfl, List.drop_zero, Landing.pathFrom_zero hne]
      split
      · next hindex =>
          rw [hindex.2]
          rfl
      · next hindex =>
          refine (Text.flatMap_cons_eq_joinWith '/' fun hnil => hindex ⟨rfl, ?_⟩).symm
          rcases withoutIndex_cases r.origin.keys with hsame | ⟨front, hkeys, hfront⟩
          · exact absurd (hsame.symm.trans (List.map_eq_nil_iff.1 hnil)) hne
          · rw [hkeys, hfront.symm.trans (List.map_eq_nil_iff.1 hnil), List.nil_append]

namespace Draft

variable {mixins : MixinSet} {draft draft' : Draft} {page : Page} {pages : List Page} {planted : List Planted}

theorem forest_insert (mixins : MixinSet) (page : Page) (h : draft.forest = draft'.forest) :
    (draft.insert mixins page).forest = (draft'.insert mixins page).forest := by
  rw [insert, insert]
  split
  · exact h
  · rw [h]

theorem forest_insertAll (mixins : MixinSet) (pages : List Page) (h : draft.forest = draft'.forest) :
    (draft.insertAll mixins pages).forest = (draft'.insertAll mixins (pages.filter Page.hasKeys)).forest := by
  induction pages generalizing draft draft' with
  | nil => exact h
  | cons page pages ih =>
      rw [List.filter_cons]
      split
      · exact ih (forest_insert mixins page h)
      · next hkeys =>
          refine ih (Eq.trans ?_ h)
          rw [insert_of_no_keys mixins draft page (by simpa [Page.hasKeys] using hkeys)]

def collisionsOf (pages : List Page) (planted : List Planted) : List Warning :=
  ((pages.zip planted).filter fun e => e.2.route.Collides).map fun e =>
    .nameCollision e.1.source (nameOf e.2.route.origin.keys)

/-- The routes of a draft by their numbers, beside the pages that they came with. -/
structure Arrived (pages : List Page) (planted : List Planted) (draft : Draft) : Prop where
  perm : planted.Perm draft.forest.labels
  ids : planted.map Planted.id = List.range planted.length
  isOf : List.Forall₂ (fun page p => p.route.IsOf page) pages planted
  collisions : draft.warnings.filter Warning.isNameCollision = collisionsOf pages planted

theorem Arrived.size_eq (h : Arrived pages planted draft) : draft.forest.size = planted.length := by
  rw [← Forest.length_labels, h.perm.length_eq]

theorem filter_isNameCollision_warningsOf (mixins : MixinSet) (page : Page) (landing : Landing) :
    (warningsOf mixins page landing).filter Warning.isNameCollision =
      if landing.collides then [.nameCollision page.source landing.name] else [] := by
  have hreserved : ((Mixin.rejected mixins ((page.keys.map Segment.ofText).flatMap Segment.mixins)).map
      fun r => Warning.reservedMixinField page.source r.mixin r.field).filter Warning.isNameCollision = [] := by
    refine List.filter_eq_nil_iff.2 fun w hw => ?_
    obtain ⟨rejected, _, rfl⟩ := List.mem_map.1 hw
    exact Bool.false_ne_true
  rw [warningsOf, List.filter_append, hreserved, List.nil_append]
  split <;> rfl

def leafOf (mixins : MixinSet) (draft : Draft) (page : Page) : Planted :=
  ⟨draft.forest.size, routeOf mixins page (Landing.of page.routeKeys draft.forest)⟩

theorem isOf_leafOf (mixins : MixinSet) (draft : Draft) (page : Page) : (draft.leafOf mixins page).route.IsOf page :=
  ⟨rfl, routeOf_keys mixins page _⟩

theorem collisionsOf_leafOf (mixins : MixinSet) (draft : Draft) (hne : page.keys ≠ []) :
    (warningsOf mixins page (Landing.of page.routeKeys draft.forest)).filter Warning.isNameCollision =
      collisionsOf [page] [draft.leafOf mixins page] := by
  obtain ⟨_, _, _, _, hname, hcollides⟩ := Landing.of_underway (Page.routeKeys_ne_nil hne) draft.forest
  have hleaf : (draft.leafOf mixins page).route.Collides ↔
      (Landing.of page.routeKeys draft.forest).collides = true := by
    rw [hcollides, Route.Collides, (isOf_leafOf mixins draft page).2]
    rfl
  replace hname := hname.trans (congrArg nameOf (isOf_leafOf mixins draft page).2.symm)
  rw [filter_isNameCollision_warningsOf, hname, collisionsOf, List.zip_cons_cons, List.zip_nil_left]
  by_cases hc : (draft.leafOf mixins page).route.Collides
  · rw [if_pos (hleaf.1 hc), List.filter_cons_of_pos (by simpa using hc)]
    rfl
  · rw [if_neg (mt hleaf.2 hc), List.filter_cons_of_neg (by simpa using hc)]
    rfl

theorem Arrived.insert (mixins : MixinSet) (h : Arrived pages planted draft) (hne : page.keys ≠ []) :
    Arrived (pages ++ [page]) (planted ++ [draft.leafOf mixins page]) (draft.insert mixins page) := by
  obtain ⟨above, siblings, hdescend, _⟩ := Landing.of_underway (Page.routeKeys_ne_nil hne) draft.forest
  rw [insert_of_keys mixins draft page hne]
  refine ⟨?_, ?_, List.rel_append h.isOf (.cons (isOf_leafOf mixins draft page) .nil), ?_⟩
  · exact (List.perm_append_singleton _ planted).trans ((h.perm.cons _).trans (labels_plant _ hdescend).symm)
  · rw [List.map_append, h.ids, List.length_append, List.length_singleton, List.range_succ, ← h.size_eq]
    rfl
  · rw [List.filter_append, h.collisions, collisionsOf_leafOf mixins draft hne, collisionsOf, collisionsOf,
      collisionsOf, ← List.map_append, ← List.filter_append, List.zip_append h.isOf.length_eq]

theorem Arrived.report (mixins : MixinSet) (h : Arrived pages planted draft) (hnone : page.keys = []) :
    Arrived pages planted (draft.insert mixins page) := by
  rw [insert_of_no_keys mixins draft page hnone]
  refine ⟨h.perm, h.ids, h.isOf, ?_⟩
  rw [List.filter_append, h.collisions]
  exact List.append_nil _

theorem exists_arrived (mixins : MixinSet) (pages : List Page) :
    ∃ planted, Arrived (pages.filter Page.hasKeys) planted (empty.insertAll mixins pages) := by
  refine insertAll_induction mixins pages
    (motive := fun done draft => ∃ planted, Arrived (done.filter Page.hasKeys) planted draft)
    ⟨[], .nil, rfl, .nil, rfl⟩ ?_
  rintro done page _ draft - ⟨planted, h⟩
  rw [List.filter_append]
  by_cases hkeys : page.hasKeys
  · refine ⟨planted ++ [draft.leafOf mixins page], ?_⟩
    rw [List.filter_cons_of_pos hkeys, List.filter_nil]
    exact Arrived.insert mixins h (Page.hasKeys_iff.1 hkeys)
  · refine ⟨planted, ?_⟩
    rw [List.filter_cons_of_neg hkeys, List.filter_nil, List.append_nil]
    exact Arrived.report mixins h (by simpa [Page.hasKeys] using hkeys)

/-- The keys of a route are the first words of its page's segments, and its name is these keys joined. -/
theorem exists_page_of_isChild (mixins : MixinSet) (pages : List Page) {above : Option Route} {r : Route}
    (h : (empty.insertAll mixins pages).routes.IsChild above r) : ∃ page ∈ pages, page.keys ≠ [] ∧
      r.Joins above ∧ r.origin.keys = (page.keys.map fun raw => (Text.words raw).headD []) ∧
      r.name = some (Text.joinWith '_' ((r.origin.keys.map plainKey).dropWhile List.isEmpty)) := by
  have hroutes : (empty.insertAll mixins pages).routes = (empty.insertAll mixins (pages.filter Page.hasKeys)).routes :=
    congrArg (Forest.map Planted.route) (forest_insertAll mixins pages rfl)
  have hkeys : ∀ page ∈ pages.filter Page.hasKeys, page.keys ≠ [] :=
    fun page hpage => Page.hasKeys_iff.1 (List.mem_filter.1 hpage).2
  rw [hroutes] at h
  have hjoins := (linked_insertAll mixins _ hkeys).joins above r h
  obtain ⟨page, hpage, hof⟩ := (covers_insertAll mixins _ hkeys).exists_page (Forest.mem_labels_iff.2 ⟨above, h⟩)
  refine ⟨page, (List.mem_filter.1 hpage).1, hkeys page hpage, hjoins, hof.2.trans page.routeKeys_eq, ?_⟩
  rw [hjoins.name_eq, nameOf_eq_joinWith_dropWhile]

/-- However pages come in: by their numbers, the routes are those of the pages with keys in turn, and each that
went below the route of its whole name is reported, in that order. A route bears the name of its keys. It stands
at the top if none of its keys belongs to a route above, and else below a route with the name of those that do;
the others are the segments of its path, where a last key `index` gives none. -/
theorem insertAll_links (mixins : MixinSet) (pages : List Page) :
    let draft := empty.insertAll mixins pages
    (∃ planted : List Planted, planted.Perm draft.forest.labels ∧ planted.map Planted.id = List.range planted.length ∧
      List.Forall₂ (fun page p => p.route.IsOf page) (pages.filter Page.hasKeys) planted ∧
      draft.warnings.filter Warning.isNameCollision = collisionsOf (pages.filter Page.hasKeys) planted) ∧
      ∀ above r, draft.routes.IsChild above r →
        r.name = some (nameOf r.origin.keys) ∧
        (above = none ↔ r.origin.base = 0) ∧
        (∀ p, above = some p → 0 < r.origin.base ∧ r.origin.base ≤ r.origin.keys.length ∧
          p.name = some (nameOf (r.origin.keys.take r.origin.base))) ∧
        r.path = if above.isNone ∧ r.origin.keys = [indexKey] then ['/'] else
          (patterns (r.origin.keys.drop r.origin.base)).flatMap ('/' :: ·) := by
  intro draft
  obtain ⟨planted, harrived⟩ := exists_arrived mixins pages
  refine ⟨⟨planted, harrived.perm, harrived.ids, harrived.isOf, harrived.collisions⟩, fun above r hchild => ?_⟩
  obtain ⟨page, _, hpage, hjoins, hkeys, _⟩ := exists_page_of_isChild mixins pages hchild
  have hne : r.origin.keys ≠ [] := by
    rw [hkeys]
    simpa using hpage
  refine ⟨hjoins.name_eq, ⟨hjoins.top, fun hbase => ?_⟩, fun p hp => ?_, hjoins.path_eq_flatMap hne⟩
  · cases above with
    | none => rfl
    | some p => exact absurd hbase (Nat.ne_of_gt (hjoins.below p rfl).1)
  · exact ⟨(hjoins.below p hp).1, hjoins.base_le, (hjoins.below p hp).2⟩

end Draft

end RouteTable
