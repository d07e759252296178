import RouteTable.Proofs.MixinFields

namespace RouteTable

namespace Page

/-- A page without its reference, which is all that the directory of the table decides. -/
def unplaced (page : Page) : Page := { page with component := [] }

theorem order_unplaced (p q : Page) : order p.unplaced q.unplaced = order p q := rfl

theorem map_unplaced_dropRepeats (last : Option Text) (pages : List Page) :
    (dropRepeats last pages).map unplaced = dropRepeats last (pages.map unplaced) := by
  induction pages generalizing last with
  | nil => rfl
  | cons page pages ih =>
      have hsource : page.unplaced.source = page.source := rfl
      rw [List.map_cons, dropRepeats, dropRepeats, hsource]
      split
      · exact ih last
      · rw [List.map_cons, ih]

end Page

namespace Route

/-- A route without what mixins and the directory of the table decide. -/
def outline (r : Route) : Route := { r with component := none, fields := [] }

theorem normal_outline (r : Route) (prefixes : List (List Text)) (nested holdsIndex : Bool) :
    r.outline.normal prefixes nested holdsIndex = (r.normal prefixes nested holdsIndex).outline := rfl

end Route

namespace Planted

def outline (p : Planted) : Planted := { p with route := p.route.outline }

end Planted

namespace Landing

theorem follow_outline (name path : Text) (base depth : Nat) (keys : List Text) (f : Forest Planted) :
    follow name path base depth keys (f.map Planted.outline) = follow name path base depth keys f := by
  induction keys generalizing name path base depth f with
  | nil => rfl
  | cons key keys ih =>
      -- an outline has the name of its route, so both walks find the same sibling
      have hbelow : (f.map Planted.outline).below? (Planted.hasName (Segment.extendName name key)) =
          (f.below? (Planted.hasName (Segment.extendName name key))).map (Forest.map Planted.outline) :=
        Forest.below?_map _ _ f
      rw [follow, follow, hbelow]
      cases f.below? (Planted.hasName (Segment.extendName name key)) with
      | none => exact ih _ _ _ _ f
      | some below => simp only [Option.map_some, ih]

end Landing

namespace Draft

variable {mixins mixins' : MixinSet} {draft draft' : Draft} {page page' : Page} {pages pages' : List Page}

theorem plant_outline (leaf : Planted) (address : List Text) (f : Forest Planted) :
    (plant leaf address f).map Planted.outline = plant leaf.outline address (f.map Planted.outline) := by
  induction address generalizing f with
  | nil =>
      have horder : ∀ p q, Planted.order (Planted.outline p) (Planted.outline q) = Planted.order p q := fun _ _ => rfl
      exact Forest.map_place horder leaf .nil f
  | cons name address ih => exact Forest.map_modifyBelow ih (Planted.hasName name) f

/-- Drafts with the same routes up to components and fields, and the same reports up to reserved fields. -/
structure SameOutline (draft draft' : Draft) : Prop where
  forest_eq : draft.forest.map Planted.outline = draft'.forest.map Planted.outline
  warnings_eq : draft.warnings.filter (fun w => !w.isReservedMixinField) =
    draft'.warnings.filter fun w => !w.isReservedMixinField

theorem filter_not_reserved_warningsOf (mixins : MixinSet) (page : Page) (landing : Landing) :
    (warningsOf mixins page landing).filter (fun w => !w.isReservedMixinField) =
      if landing.collides then [.nameCollision page.source landing.name] else [] := by
  have hreserved : ((Mixin.rejected mixins ((page.keys.map Segment.ofText).flatMap Segment.mixins)).map fun r =>
      Warning.reservedMixinField page.source r.mixin r.field).filter (fun w => !w.isReservedMixinField) = [] := by
    refine List.filter_eq_nil_iff.2 fun w hw => ?_
    obtain ⟨r, _, rfl⟩ := List.mem_map.1 hw
    simp [Warning.isReservedMixinField]
  rw [warningsOf, List.filter_append, hreserved, List.nil_append]
  split <;> rfl

theorem outline_routeOf (mixins mixins' : MixinSet) (h : page.unplaced = page'.unplaced) (landing : Landing) :
    (routeOf mixins page landing).outline = (routeOf mixins' page' landing).outline := by
  have hkeys : page.keys = page'.keys := congrArg (·.keys) h
  simp only [routeOf, Route.outline, hkeys]

theorem SameOutline.insert (h : SameOutline draft draft') (hpage : page.unplaced = page'.unplaced) :
    SameOutline (draft.insert mixins page) (draft'.insert mixins' page') := by
  have hkeys : page.keys = page'.keys := congrArg (·.keys) hpage
  have hsource : page.source = page'.source := congrArg (·.source) hpage
  by_cases hne : page.keys = []
  · have hne' : page'.keys = [] := hkeys ▸ hne
    simp only [Draft.insert, hne, hne', List.isEmpty_nil, if_true]
    exact ⟨h.forest_eq, by rw [List.filter_append, List.filter_append, h.warnings_eq, hsource]⟩
  · have hroute : page.routeKeys = page'.routeKeys := by rw [Page.routeKeys, Page.routeKeys, hkeys]
    have hland : Landing.of page.routeKeys draft.forest = Landing.of page'.routeKeys draft'.forest := by
      rw [Landing.of, Landing.of, hroute, ← Landing.follow_outline, h.forest_eq, Landing.follow_outline]
    have hsize : draft.forest.size = draft'.forest.size := by
      rw [← Forest.size_map Planted.outline, h.forest_eq, Forest.size_map]
    rw [insert_of_keys mixins draft page hne, insert_of_keys mixins' draft' page' (hkeys ▸ hne), hland, hsize]
    generalize Landing.of page'.routeKeys draft'.forest = landing
    refine ⟨?_, ?_⟩
    · simp only [plant_outline, Planted.outline, outline_routeOf mixins mixins' hpage, h.forest_eq]
    · simp only [List.filter_append, filter_not_reserved_warningsOf, h.warnings_eq, hsource]

theorem SameOutline.insertAll (h : SameOutline draft draft')
    (hpages : pages.map Page.unplaced = pages'.map Page.unplaced) :
    SameOutline (draft.insertAll mixins pages) (draft'.insertAll mixins' pages') := by
  induction pages generalizing pages' draft draft' with
  | nil =>
      obtain rfl := List.map_eq_nil_iff.1 hpages.symm
      exact h
  | cons page pages ih =>
      cases pages' with
      | nil => cases hpages
      | cons page' pages' =>
          obtain ⟨hpage, hrest⟩ := List.cons.inj hpages
          have hinsert : SameOutline (draft.insert mixins page) (draft'.insert mixins' page') := h.insert hpage
          have hrun := ih hinsert hrest
          exact hrun

end Draft

namespace Forest

theorem indexPrefixes_outline (f : Forest Route) : indexPrefixes (f.map Route.outline) = indexPrefixes f := by
  rw [indexPrefixes, indexPrefixes, roots_map, List.filterMap_map]
  rfl

theorem holdsIndex_outline (f : Forest Route) : holdsIndex (f.map Route.outline) = holdsIndex f := by
  rw [holdsIndex, holdsIndex, roots_map, List.any_map]
  rfl

theorem normalizeWith_outline (prefixes : List (List Text)) (nested : Bool) (f : Forest Route) :
    (f.map Route.outline).normalizeWith prefixes nested = (f.normalizeWith prefixes nested).map Route.outline := by
  induction f generalizing prefixes nested with
  | nil => rfl
  | cons r below after ihb iha =>
      rw [map, normalizeWith, normalizeWith, map, indexPrefixes_outline, holdsIndex_outline, ihb, iha,
        Route.normal_outline]

theorem normalize_outline (nested : Bool) (f : Forest Route) :
    (f.map Route.outline).normalize nested = (f.normalize nested).map Route.outline := by
  rw [normalize, normalize, indexPrefixes_outline, normalizeWith_outline]

theorem map_outline_planted (f : Forest Planted) :
    (f.map Planted.route).map Route.outline = (f.map Planted.outline).map Planted.route := by
  induction f with
  | nil => rfl
  | cons p below after ihb iha =>
      simp only [map, ihb, iha]
      rfl

end Forest

namespace Compilation

theorem map_unplaced_inOrder (pages : List Page) :
    (inOrder pages).map Page.unplaced = inOrder (pages.map Page.unplaced) := by
  rw [inOrder, inOrder, Page.map_unplaced_dropRepeats, List.map_mergeSort]
  intro a _ b _
  rw [Page.order_unplaced]

variable {options options' : CompileOptions}

theorem roleOf_cases (hdir : options.pagesDir = options'.pagesDir) (hext : options.extension = options'.extension)
    (file : Text) :
    (options.roleOf file = .deleted ∧ options'.roleOf file = .deleted) ∨
      (options.roleOf file = .empty ∧ options'.roleOf file = .empty) ∨
      ∃ page page', options.roleOf file = .page page ∧ options'.roleOf file = .page page' ∧
        page.unplaced = page'.unplaced := by
  simp only [CompileOptions.roleOf, FileRole.of, hdir, hext]
  by_cases hdeleted : Page.isDeleted (Page.keysOf file options'.pagesDir options'.extension)
  · exact .inl ⟨if_pos hdeleted, if_pos hdeleted⟩
  · rw [if_neg hdeleted, if_neg hdeleted]
    by_cases hempty : (Page.keysOf file options'.pagesDir options'.extension).isEmpty
    · exact .inr (.inl ⟨if_pos hempty, if_pos hempty⟩)
    · rw [if_neg hempty, if_neg hempty]
      exact .inr (.inr ⟨_, _, rfl, rfl, rfl⟩)

theorem map_unplaced_pagesOf (hdir : options.pagesDir = options'.pagesDir)
    (hext : options.extension = options'.extension) (files : List Text) :
    (pagesOf options files).map Page.unplaced = (pagesOf options' files).map Page.unplaced := by
  rw [pagesOf, pagesOf, List.map_filterMap, List.map_filterMap]
  refine congrArg (List.filterMap · files) (funext fun file => ?_)
  rcases roleOf_cases hdir hext file with ⟨h, h'⟩ | ⟨h, h'⟩ | ⟨page, page', h, h', hpage⟩
  · rw [h, h']
  · rw [h, h']
  · rw [h, h']
    exact congrArg some hpage

theorem emptyRoutes_congr (hdir : options.pagesDir = options'.pagesDir)
    (hext : options.extension = options'.extension) (files : List Text) :
    emptyRoutes options files = emptyRoutes options' files := by
  refine congrArg (List.filterMap · files) (funext fun file => ?_)
  rcases roleOf_cases hdir hext file with ⟨h, h'⟩ | ⟨h, h'⟩ | ⟨page, page', h, h', _⟩ <;> rw [h, h']

theorem sameOutline_draftOf (hdir : options.pagesDir = options'.pagesDir)
    (hext : options.extension = options'.extension) (files : List Text) :
    (draftOf options files).SameOutline (draftOf options' files) := by
  have hpages : (inOrder (pagesOf options files)).map Page.unplaced =
      (inOrder (pagesOf options' files)).map Page.unplaced := by
    rw [map_unplaced_inOrder, map_unplaced_inOrder, map_unplaced_pagesOf hdir hext]
  exact Draft.SameOutline.insertAll ⟨rfl, rfl⟩ hpages

/-- What mixins and the directory of the table decide is in the components, the fields and the reports of reserved
fields: without these, two compilations of the same files that differ only there are the same. -/
theorem compile_outline_eq (pagesDir extension outputDir outputDir' : Text) (mixins mixins' : MixinSet)
    (files : List Text) :
    let here := compile ⟨pagesDir, outputDir, extension, mixins⟩ files
    let there := compile ⟨pagesDir, outputDir', extension, mixins'⟩ files
    here.routes.map Route.outline = there.routes.map Route.outline ∧
      here.warnings.filter (fun w => !w.isReservedMixinField) =
        there.warnings.filter fun w => !w.isReservedMixinField := by
  intro here there
  let options : CompileOptions := ⟨pagesDir, outputDir, extension, mixins⟩
  let options' : CompileOptions := ⟨pagesDir, outputDir', extension, mixins'⟩
  have hdir : options.pagesDir = options'.pagesDir := rfl
  have hext : options.extension = options'.extension := rfl
  have hdraft := sameOutline_draftOf hdir hext files
  constructor
  · calc here.routes.map Route.outline
        = (((draftOf options files).forest.map Planted.outline).map Planted.route).normalize false := by
          rw [← Forest.map_outline_planted, Forest.normalize_outline]
          rfl
      _ = (((draftOf options' files).forest.map Planted.outline).map Planted.route).normalize false := by
          rw [hdraft.forest_eq]
      _ = there.routes.map Route.outline := by
          rw [← Forest.map_outline_planted, Forest.normalize_outline]
          rfl
  · have hhere : here.warnings = emptyRoutes options files ++ (draftOf options files).warnings := rfl
    have hthere : there.warnings = emptyRoutes options' files ++ (draftOf options' files).warnings := rfl
    rw [hhere, hthere, List.filter_append, List.filter_append, emptyRoutes_congr hdir hext, hdraft.warnings_eq]

end Compilation

end RouteTable
