import RouteTable.Proofs.Linkage
import RouteTable.Proofs.PageOrder

namespace RouteTable

open Segment

theorem exists_mem_of_forall₂ {α β : Type} {R : α → β → Prop} {as : List α} {bs : List β} {b : β}
    (h : List.Forall₂ R as bs) (hb : b ∈ bs) : ∃ a ∈ as, R a b := by
  induction h with
  | nil => cases hb
  | @cons a c as bs hac _ ih =>
      rcases List.mem_cons.1 hb with rfl | hb
      · exact ⟨a, List.mem_cons_self, hac⟩
      · obtain ⟨a', hmem, hab⟩ := ih hb
        exact ⟨a', List.mem_cons_of_mem _ hmem, hab⟩

namespace Route

/-- What a normal form keeps of a route. -/
def stem (r : Route) : Option Text × Origin := (r.component, r.origin)

def folders (siblings : List Route) : List (List Text) := siblings.filterMap fun s => s.origin.indexPrefix?

def Normalizes (siblings : List Route) (nested : Bool) (r r' : Route) : Prop :=
  ∃ holdsIndex, r' = r.normal (folders siblings) nested holdsIndex

theorem Normalizes.stem_eq {siblings : List Route} {nested : Bool} {r r' : Route}
    (h : Normalizes siblings nested r r') : r'.stem = r.stem := by
  obtain ⟨holdsIndex, rfl⟩ := h
  rfl

theorem map_stem_of_normalizes {siblings routes routes' : List Route} {nested : Bool}
    (h : List.Forall₂ (Normalizes siblings nested) routes routes') : routes'.map stem = routes.map stem := by
  induction h with
  | nil => rfl
  | cons hr _ ih => rw [List.map_cons, List.map_cons, hr.stem_eq, ih]

theorem folders_eq_of_map_stem_eq {routes routes' : List Route} (h : routes'.map stem = routes.map stem) :
    folders routes' = folders routes := by
  have hshown : ∀ routes : List Route, folders routes = (routes.map stem).filterMap fun s => s.2.indexPrefix? :=
    fun routes => by rw [List.filterMap_map]; rfl
  rw [hshown, hshown, h]

theorem pairwise_of_normalizes {siblings routes routes' : List Route} {nested : Bool} {S T : Route → Route → Prop}
    (h : List.Forall₂ (Normalizes siblings nested) routes routes') (hs : routes.Pairwise S)
    (hst : ∀ r s r' s', Normalizes siblings nested r r' → Normalizes siblings nested s s' → S r s → T r' s') :
    routes'.Pairwise T := by
  induction h with
  | nil => exact List.Pairwise.nil
  | @cons r r' routes routes' hr hroutes ih =>
      obtain ⟨hfirst, hrest⟩ := List.pairwise_cons.1 hs
      refine List.pairwise_cons.2 ⟨fun s' hs' => ?_, ih hrest⟩
      obtain ⟨s, hmem, hnormal⟩ := exists_mem_of_forall₂ hroutes hs'
      exact hst r s r' s' hr hnormal (hfirst s hmem)

/-- A sibling list and the route above it, and what normalizing makes of them. -/
structure NormalizesFamily (nested : Bool) (family family' : Option Route × List Route) : Prop where
  above : Option.Rel
    (fun p p' => ∃ prefixes nested, p' = p.normal prefixes nested (family.2.any fun r => r.path.isEmpty))
    family.1 family'.1
  siblings : List.Forall₂ (Normalizes family.2 (nested || family.1.isSome)) family.2 family'.2

namespace NormalizesFamily

variable {nested : Bool} {family : Option Route × List Route} {above' : Option Route} {siblings' : List Route}

theorem exists_above {p' : Route} (h : NormalizesFamily nested family (some p', siblings')) :
    ∃ p prefixes nested', family.1 = some p ∧
      p' = p.normal prefixes nested' (family.2.any fun r => r.path.isEmpty) := by
  obtain ⟨above, siblings⟩ := family
  obtain ⟨habove, _⟩ := h
  cases habove with
  | some hp =>
      obtain ⟨prefixes, nested', hp⟩ := hp
      exact ⟨_, prefixes, nested', rfl, hp⟩

theorem map_stem_above (h : NormalizesFamily nested family (above', siblings')) :
    family.1.map stem = above'.map stem := by
  cases above' with
  | none =>
      obtain ⟨above, siblings⟩ := family
      obtain ⟨habove, _⟩ := h
      cases habove
      rfl
  | some p' =>
      obtain ⟨p, prefixes, nested', hp, rfl⟩ := h.exists_above
      rw [hp]
      rfl

theorem isSome_above (h : NormalizesFamily nested family (above', siblings')) : family.1.isSome = above'.isSome := by
  rw [← Option.isSome_map (f := stem), h.map_stem_above, Option.isSome_map]

theorem folders_eq (h : NormalizesFamily nested family (above', siblings')) : folders siblings' = folders family.2 :=
  folders_eq_of_map_stem_eq (map_stem_of_normalizes h.siblings)

end NormalizesFamily

theorem isOf_iff_of_stem_eq {r s : Route} (h : r.stem = s.stem) (page : Page) : r.IsOf page ↔ s.IsOf page := by
  obtain ⟨hcomponent, horigin⟩ := Prod.mk.inj h
  rw [IsOf, IsOf, hcomponent, horigin]

end Route

namespace Forest

variable {prefixes : List (List Text)} {nested : Bool} {f : Forest Route} {above' : Option Route}
  {siblings' : List Route}

theorem map_normalizeWith {γ : Type} {g : Route → γ}
    (hg : ∀ r prefixes nested holdsIndex, g (r.normal prefixes nested holdsIndex) = g r)
    (prefixes : List (List Text)) (nested : Bool) (f : Forest Route) :
    (f.normalizeWith prefixes nested).map g = f.map g := by
  induction f generalizing prefixes nested with
  | nil => rfl
  | cons route below after ihb iha => rw [normalizeWith, map, map, hg, ihb, iha]

theorem map_stem_normalizeWith (prefixes : List (List Text)) (nested : Bool) (f : Forest Route) :
    (f.normalizeWith prefixes nested).map Route.stem = f.map Route.stem :=
  map_normalizeWith (fun _ _ _ _ => rfl) prefixes nested f

theorem map_stem_normalize (nested : Bool) (f : Forest Route) :
    (f.normalize nested).map Route.stem = f.map Route.stem :=
  map_stem_normalizeWith _ nested f

theorem Covers.of_map_stem_eq {f f' : Forest Route} {pages : List Page} (h : f.Covers pages)
    (hstem : f.map Route.stem = f'.map Route.stem) : f'.Covers pages := by
  have hlabels : f.labels.map Route.stem = f'.labels.map Route.stem := by
    rw [← labels_map, ← labels_map, hstem]
  have hshown : ∀ routes : List Route, (routes.map fun r => (r.component, r.origin.keys)) =
      (routes.map Route.stem).map fun s => (s.1, s.2.keys) := fun routes => by rw [List.map_map]; rfl
  rw [Covers, hshown, ← hlabels, ← hshown]
  exact h

theorem roots_normalizeWith (prefixes : List (List Text)) (nested : Bool) (f : Forest Route) :
    List.Forall₂ (fun r r' => ∃ holdsIndex, r' = r.normal prefixes nested holdsIndex)
      f.roots (f.normalizeWith prefixes nested).roots := by
  induction f with
  | nil => exact List.Forall₂.nil
  | cons route below after _ iha => exact List.Forall₂.cons ⟨_, rfl⟩ iha

theorem inner_normalizeWith (nested' : Bool) (prefixes : List (List Text)) (nested : Bool) (f : Forest Route) :
    List.Forall₂ (Route.NormalizesFamily nested') f.inner (f.normalizeWith prefixes nested).inner := by
  induction f generalizing prefixes nested with
  | nil => exact List.Forall₂.nil
  | cons route below after ihb iha =>
      refine List.Forall₂.cons ⟨.some ⟨prefixes, nested, rfl⟩, ?_⟩ (List.rel_append (ihb _ true) (iha prefixes nested))
      rw [Option.isSome_some, Bool.or_true]
      exact roots_normalizeWith _ true below

/-- Every sibling list of the normal form comes from the one in its place, and is nested unless it is outermost. -/
theorem families_normalize (nested : Bool) (f : Forest Route) :
    List.Forall₂ (Route.NormalizesFamily nested) f.families (f.normalize nested).families := by
  refine List.Forall₂.cons ⟨.none, ?_⟩ (inner_normalizeWith nested _ nested f)
  rw [Option.isSome_none, Bool.or_false]
  exact roots_normalizeWith _ nested f

theorem exists_normalizesFamily (h : (above', siblings') ∈ (f.normalize nested).families) :
    ∃ above siblings, (above, siblings) ∈ f.families ∧
      Route.NormalizesFamily nested (above, siblings) (above', siblings') := by
  obtain ⟨⟨above, siblings⟩, hf, hfamily⟩ := exists_mem_of_forall₂ (families_normalize nested f) h
  exact ⟨above, siblings, hf, hfamily⟩

end Forest

namespace Compilation

variable {options : CompileOptions} {files : List Text} {r : Route}

def draftOf (options : CompileOptions) (files : List Text) : Draft :=
  Draft.empty.insertAll options.mixins (inOrder (pagesOf options files))

theorem draftOf_eq {pages : List Page} (hpages : pagesOf options files = pages)
    (hs : pages.Pairwise fun a b => Page.order a b = .lt) :
    draftOf options files = Draft.empty.insertAll options.mixins pages := by
  rw [draftOf, inOrder_eq_of_pairwise hs fun page => by rw [hpages]]

theorem routes_compile (options : CompileOptions) (files : List Text) :
    (compile options files).routes = (draftOf options files).routes.normalize false := rfl

theorem map_stem_compile (options : CompileOptions) (files : List Text) :
    (compile options files).routes.map Route.stem = (draftOf options files).routes.map Route.stem :=
  Forest.map_stem_normalize false _

theorem exists_draft_siblings {above : Option Route} {siblings : List Route}
    (hf : (above, siblings) ∈ (compile options files).routes.families) :
    ∃ above₀ siblings₀, (above₀, siblings₀) ∈ (draftOf options files).routes.families ∧
      above.map Route.stem = above₀.map Route.stem ∧
      List.Forall₂ (Route.Normalizes siblings₀ above₀.isSome) siblings₀ siblings := by
  obtain ⟨above₀, siblings₀, hf₀, hfamily⟩ := Forest.exists_normalizesFamily hf
  exact ⟨above₀, siblings₀, hf₀, hfamily.map_stem_above.symm, hfamily.siblings⟩

theorem exists_draft_family {above : Option Route} {siblings : List Route}
    (hf : (above, siblings) ∈ (compile options files).routes.families) (hr : r ∈ siblings) :
    ∃ above₀ siblings₀ r₀, (above₀, siblings₀) ∈ (draftOf options files).routes.families ∧ r₀ ∈ siblings₀ ∧
      above.map Route.stem = above₀.map Route.stem ∧ siblings.map Route.stem = siblings₀.map Route.stem ∧
      Route.Normalizes siblings₀ above₀.isSome r₀ r := by
  obtain ⟨above₀, siblings₀, hf₀, habove, hall⟩ := exists_draft_siblings hf
  obtain ⟨r₀, hr₀, hnormal⟩ := exists_mem_of_forall₂ hall hr
  exact ⟨above₀, siblings₀, r₀, hf₀, hr₀, habove, Route.map_stem_of_normalizes hall, hnormal⟩

theorem keys_ne_nil_of_mem_inOrder (options : CompileOptions) (files : List Text) :
    ∀ page ∈ inOrder (pagesOf options files), page.keys ≠ [] :=
  fun _ hpage => keys_ne_nil_of_mem_pagesOf (mem_inOrder.1 hpage)

theorem linked_draftOf (options : CompileOptions) (files : List Text) : (draftOf options files).routes.Linked :=
  Draft.linked_insertAll options.mixins _ (keys_ne_nil_of_mem_inOrder options files)

theorem keys_ne_nil_of_mem_draftOf (hr : r ∈ (draftOf options files).routes.labels) : r.origin.keys ≠ [] := by
  have hkeys := keys_ne_nil_of_mem_inOrder options files
  obtain ⟨page, hpage, _, hof⟩ := (Draft.covers_insertAll options.mixins _ hkeys).exists_page hr
  rw [hof]
  simpa [Page.routeKeys] using hkeys page hpage

theorem covers_compile (options : CompileOptions) (files : List Text) :
    (compile options files).routes.Covers (pagesOf options files.dedup) := by
  have hcovers := Draft.covers_insertAll options.mixins _ (keys_ne_nil_of_mem_inOrder options files)
  exact (hcovers.of_map_stem_eq (map_stem_compile options files).symm).trans (inOrder_perm_dedup.map _)

theorem exists_page_of_mem_labels (hr : r ∈ (compile options files).routes.labels) :
    ∃ page ∈ pagesOf options files, r.IsOf page := by
  obtain ⟨page, hpage, hof⟩ := (covers_compile options files).exists_page hr
  obtain ⟨hsource, hrole⟩ := mem_pagesOf.1 hpage
  exact ⟨page, mem_pagesOf.2 ⟨List.mem_dedup.1 hsource, hrole⟩, hof⟩

theorem exists_isChild_draftOf {above : Option Route} (h : (compile options files).routes.IsChild above r) :
    ∃ above₀ r₀, (draftOf options files).routes.IsChild above₀ r₀ ∧ above₀.map Route.stem = above.map Route.stem ∧
      r₀.stem = r.stem :=
  Forest.exists_isChild_of_map_eq (map_stem_compile options files) h

theorem base_eq_zero_of_isChild (h : (compile options files).routes.IsChild none r) : r.origin.base = 0 := by
  obtain ⟨above₀, r₀, h₀, habove, hstem⟩ := exists_isChild_draftOf h
  have htop := ((linked_draftOf options files).joins above₀ r₀ h₀).top (by simpa using habove)
  rwa [(Prod.mk.inj hstem).2] at htop

theorem nameOf_eq_of_isChild {p : Route} (h : (compile options files).routes.IsChild (some p) r) :
    nameOf p.origin.keys = nameOf (r.origin.keys.take r.origin.base) := by
  obtain ⟨above₀, r₀, h₀, habove, hstem⟩ := exists_isChild_draftOf h
  cases above₀ with
  | none => cases habove
  | some p₀ =>
      have hp : p₀.stem = p.stem := Option.some.inj habove
      have hlinked := linked_draftOf options files
      have hname := (((hlinked.joins _ r₀ h₀).below p₀ rfl)).2
      obtain ⟨parent, hparent⟩ := Forest.mem_labels_iff.1 (Forest.mem_labels_of_isChild h₀)
      rw [(hlinked.joins parent p₀ hparent).name_eq, Option.some.injEq] at hname
      rwa [(Prod.mk.inj hstem).2, (Prod.mk.inj hp).2] at hname

theorem nameCollision_mem_compile {file name : Text} :
    .nameCollision file name ∈ (compile options files).warnings ↔
      .nameCollision file name ∈ (draftOf options files).warnings := by
  rw [compile, List.mem_append, draftOf]
  refine or_iff_right fun h => ?_
  obtain ⟨other, _, hrole⟩ := List.mem_filterMap.1 h
  split at hrole <;> cases hrole

/-- No page is reported for a name that was there before it. -/
def CollisionFree (options : CompileOptions) (files : List Text) : Prop :=
  ∀ file name, .nameCollision file name ∉ (compile options files).warnings

theorem collisionFree_iff : CollisionFree options files ↔ ∀ r ∈ (draftOf options files).routes.labels, ¬r.Collides := by
  have hcollision := Draft.collision_insertAll options.mixins _ (keys_ne_nil_of_mem_inOrder options files)
  constructor
  · intro hnone r hr hcollides
    obtain ⟨file, name, hwarning⟩ := hcollision.2 ⟨r, hr, hcollides⟩
    exact hnone file name (nameCollision_mem_compile.2 hwarning)
  · intro hnone file name hwarning
    obtain ⟨r, hr, hcollides⟩ := hcollision.1 ⟨file, name, nameCollision_mem_compile.1 hwarning⟩
    exact hnone r hr hcollides

theorem CollisionFree.base_lt (hnone : CollisionFree options files)
    (hr : r ∈ (compile options files).routes.labels) : r.origin.base < r.origin.keys.length := by
  obtain ⟨above, hchild⟩ := Forest.mem_labels_iff.1 hr
  obtain ⟨above₀, r₀, h₀, _, hstem⟩ := exists_isChild_draftOf hchild
  have hle := ((linked_draftOf options files).joins above₀ r₀ h₀).base_le
  rw [← (Prod.mk.inj hstem).2]
  exact Nat.lt_of_le_of_ne hle (collisionFree_iff.1 hnone r₀ (Forest.mem_labels_iff.2 ⟨above₀, h₀⟩))

end Compilation

end RouteTable
