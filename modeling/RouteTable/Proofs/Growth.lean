import RouteTable.Proofs.Arrivals
import RouteTable.Proofs.SortingOnce

namespace RouteTable

namespace Forest

variable {α : Type} {p q : α → Bool} {cmp : α → α → Ordering} {x : α} {below f : Forest α}

/-- Without the trees whose roots `p` selects, wherever they stand. -/
def without (p : α → Bool) : Forest α → Forest α
  | nil => nil
  | cons x below after => if p x then without p after else cons x (without p below) (without p after)

theorem forall_labels_cons {P : α → Prop} {after : Forest α} : (∀ y ∈ (cons x below after).labels, P y) ↔
    P x ∧ (∀ y ∈ below.labels, P y) ∧ ∀ y ∈ after.labels, P y := by
  rw [labels, List.forall_mem_cons, List.forall_mem_append]

theorem without_cons_of_false {after : Forest α} (hx : p x = false) :
    (cons x below after).without p = cons x (below.without p) (after.without p) := by
  rw [without, hx, if_neg Bool.false_ne_true]

theorem without_eq_self (h : ∀ x ∈ f.labels, p x = false) : f.without p = f := by
  induction f with
  | nil => rfl
  | cons x below after ihb iha =>
      obtain ⟨hx, hbelow, hafter⟩ := forall_labels_cons.1 h
      rw [without_cons_of_false hx, ihb hbelow, iha hafter]

theorem without_place (hx : p x = true) (h : ∀ y ∈ f.labels, p y = false) : (place cmp x below f).without p = f := by
  induction f with
  | nil => rw [place, without, if_pos hx, without]
  | cons y below' after _ iha =>
      rw [place]
      split
      · rw [without, if_pos hx, without_eq_self h]
      · obtain ⟨hy, hbelow, hafter⟩ := forall_labels_cons.1 h
        rw [without_cons_of_false hy, without_eq_self hbelow, iha hafter]

theorem without_modifyBelow {g : Forest α → Forest α} (h : ∀ x ∈ f.labels, p x = false)
    (hg : ∀ below : Forest α, (∀ x ∈ below.labels, p x = false) → (g below).without p = below) :
    (f.modifyBelow q g).without p = f := by
  induction f with
  | nil => rfl
  | cons x below after _ iha =>
      obtain ⟨hx, hbelow, hafter⟩ := forall_labels_cons.1 h
      rw [modifyBelow]
      split
      · rw [without_cons_of_false hx, hg below hbelow, without_eq_self hafter]
      · rw [without_cons_of_false hx, without_eq_self hbelow, iha hafter]

theorem modifyBelow_congr {g g' : Forest α → Forest α} (h : ∀ below, f.below? p = some below → g below = g' below) :
    f.modifyBelow p g = f.modifyBelow p g' := by
  induction f with
  | nil => rfl
  | cons x below after _ iha =>
      simp only [below?_cons] at h
      rw [modifyBelow, modifyBelow]
      by_cases hx : p x = true
      · rw [if_pos hx, if_pos hx, h below (if_pos hx)]
      · simp only [if_neg hx] at h ⊢
        rw [iha h]

theorem placeAll_append (cmp : α → α → Ordering) (x : α) (below f : Forest α) (sorted : Forest α) :
    placeAll cmp sorted (append x below f) = place cmp x below (placeAll cmp sorted f) := by
  induction f generalizing sorted with
  | nil => rfl
  | cons y below' after _ iha => exact iha _

theorem placeAll_cons (h : ∀ y ∈ f.roots, cmp y x ≠ .lt) (sorted : Forest α) :
    placeAll cmp (cons x below sorted) f = cons x below (placeAll cmp sorted f) := by
  induction f generalizing sorted with
  | nil => rfl
  | cons y below' after _ iha =>
      obtain ⟨hy, hafter⟩ := List.forall_mem_cons.1 h
      rw [placeAll, place, if_neg hy, iha hafter, placeAll]

theorem sort_eq_self [Std.TransCmp cmp] (h : f.roots.Pairwise fun a b => (cmp a b).isLE) : f.sort cmp = f := by
  induction f with
  | nil => rfl
  | cons x below after _ iha =>
      obtain ⟨hfirst, hafter⟩ := List.pairwise_cons.1 h
      rw [sort, placeAll, place, placeAll_cons fun y hy => Std.OrientedCmp.not_lt_of_isLE (hfirst y hy)]
      exact congrArg (cons x below) (iha hafter)

theorem sort_append [Std.TransCmp cmp] (x : α) (below : Forest α)
    (h : f.roots.Pairwise fun a b => (cmp a b).isLE) : (append x below f).sort cmp = place cmp x below f := by
  rw [sort, placeAll_append]
  exact congrArg (place cmp x below) (sort_eq_self h)

end Forest

namespace Draft

variable {draft : Draft} {pages : List Page} {planted : List Planted} {leaf : Planted} {address : List Text}
  {above : Option Planted} {f siblings : Forest Planted} {page : Page}

def planted? (draft : Draft) (id : Nat) : Option Planted := draft.forest.labels.find? fun p => p.id == id

/-- Puts a leaf behind the routes below `address` and sorts their list again. -/
def plantSorting (leaf : Planted) : (address : List Text) → Forest Planted → Forest Planted
  | [], siblings => (Forest.append leaf .nil siblings).sort Planted.order
  | name :: address, siblings => siblings.modifyBelow (Planted.hasName name) (plantSorting leaf address)

theorem plantSorting_eq (leaf : Planted) (address : List Text) (h : f.Sorted Planted.order) :
    plantSorting leaf address f = plant leaf address f := by
  induction address generalizing f with
  | nil => exact Forest.sort_append leaf .nil (Forest.pairwiseSiblings_iff.1 h).1
  | cons name address ih =>
      exact Forest.modifyBelow_congr fun below hbelow => ih (Forest.PairwiseSiblings.below? h hbelow)

theorem without_plant {p : Planted → Bool} (hleaf : p leaf = true) (address : List Text)
    (h : ∀ q ∈ f.labels, p q = false) : (plant leaf address f).without p = f := by
  induction address generalizing f with
  | nil => exact Forest.without_place hleaf h
  | cons name address ih => exact Forest.without_modifyBelow h fun below hbelow => ih hbelow

theorem isChild_plant (leaf : Planted) (hdescend : descend none address f = some (above, siblings))
    (hn : (leaf :: f.labels).Nodup) :
    (plant leaf address f).IsChild above leaf ∧ ∀ q, ¬(plant leaf address f).IsChild (some leaf) q := by
  obtain ⟨others, _, hafter⟩ := plant_families leaf hdescend
  constructor
  · exact ⟨_, hafter.mem_iff.2 List.mem_cons_self, Forest.mem_roots_place.2 (.inl rfl)⟩
  · rintro q ⟨below, hbelow, hq⟩
    have hnone : (some leaf, []) ∈ (plant leaf address f).families :=
      hafter.mem_iff.2 (List.mem_cons_of_mem _ List.mem_cons_self)
    have hnodup : (plant leaf address f).labels.Nodup := (labels_plant leaf hdescend).nodup_iff.2 hn
    rw [Forest.siblings_unique hnodup hbelow hnone] at hq
    cases hq

namespace Arrived

theorem perm_ids (h : Arrived pages planted draft) :
    (draft.forest.labels.map Planted.id).Perm (List.range draft.forest.size) := by
  rw [h.size_eq, ← h.ids]
  exact (h.perm.map Planted.id).symm

theorem nodup_ids (h : Arrived pages planted draft) : (draft.forest.labels.map Planted.id).Nodup :=
  h.perm_ids.nodup_iff.2 List.nodup_range

theorem id_lt (h : Arrived pages planted draft) {p : Planted} (hp : p ∈ draft.forest.labels) :
    p.id < draft.forest.size :=
  List.mem_range.1 (h.perm_ids.mem_iff.1 (List.mem_map_of_mem hp))

theorem planted?_eq_some_iff (h : Arrived pages planted draft) {id : Nat} {p : Planted} :
    draft.planted? id = some p ↔ p ∈ draft.forest.labels ∧ p.id = id := by
  constructor
  · intro hp
    exact ⟨List.mem_of_find?_eq_some hp, by simpa using List.find?_some hp⟩
  · rintro ⟨hp, rfl⟩
    cases hq : draft.planted? p.id with
    | none => exact absurd (beq_self_eq_true p.id) (List.find?_eq_none.1 hq p hp)
    | some q =>
        have hid : q.id = p.id := by simpa using List.find?_some hq
        exact congrArg some (List.inj_on_of_nodup_map h.nodup_ids (List.mem_of_find?_eq_some hq) hp hid)

theorem exists_planted (h : Arrived pages planted draft) {id : Nat} (hid : id < draft.forest.size) :
    ∃ p, draft.planted? id = some p := by
  obtain ⟨p, hp, he⟩ := List.mem_map.1 (h.perm_ids.mem_iff.2 (List.mem_range.2 hid))
  exact ⟨p, h.planted?_eq_some_iff.2 ⟨hp, he⟩⟩

theorem planted?_insert (h : Arrived pages planted draft) (mixins : MixinSet) (hne : page.keys ≠ []) {id : Nat} :
    (draft.insert mixins page).planted? id =
      if id = draft.forest.size then some (draft.leafOf mixins page) else draft.planted? id := by
  have hafter := Arrived.insert mixins h hne
  have hlabels := hafter.perm.symm.trans ((List.perm_append_singleton _ planted).trans (h.perm.cons _))
  refine Option.ext fun p => ?_
  rw [hafter.planted?_eq_some_iff, hlabels.mem_iff, List.mem_cons]
  split
  · next hid =>
      subst hid
      constructor
      · rintro ⟨rfl | hp, hid⟩
        · rfl
        · exact absurd hid (Nat.ne_of_lt (h.id_lt hp))
      · intro hp
        cases hp
        exact ⟨.inl rfl, rfl⟩
  · next hid =>
      rw [h.planted?_eq_some_iff]
      constructor
      · rintro ⟨rfl | hp, he⟩
        · exact absurd he.symm hid
        · exact ⟨hp, he⟩
      · rintro ⟨hp, he⟩
        exact ⟨.inr hp, he⟩

end Arrived

/-- One route more, with nothing below it, and all else as it was. -/
structure Grows (before after : Draft) (above : Option Planted) (leaf : Planted) : Prop where
  child : after.forest.IsChild above leaf
  childless : ∀ q, ¬after.forest.IsChild (some leaf) q
  without_eq : after.forest.without (fun p => p.id == leaf.id) = before.forest
  size_eq : after.forest.size = before.forest.size + 1
  new : after.planted? leaf.id = some leaf
  kept : ∀ id < before.forest.size, ∃ p, before.planted? id = some p ∧ after.planted? id = some p

theorem Arrived.grows (h : Arrived pages planted draft) (mixins : MixinSet) (hne : page.keys ≠ []) :
    ∃ above, Grows draft (draft.insert mixins page) above (draft.leafOf mixins page) := by
  obtain ⟨above, siblings, hdescend, _⟩ := Landing.of_underway (Page.routeKeys_ne_nil hne) draft.forest
  have hfresh : ∀ p ∈ draft.forest.labels, p.id ≠ (draft.leafOf mixins page).id :=
    fun p hp => Nat.ne_of_lt (h.id_lt hp)
  have hforest : (draft.insert mixins page).forest =
      plant (draft.leafOf mixins page) (Landing.of page.routeKeys draft.forest).address draft.forest :=
    congrArg Draft.forest (insert_of_keys mixins draft page hne)
  have hchild := isChild_plant (draft.leafOf mixins page) hdescend
    (List.nodup_cons.2 ⟨fun hmem => hfresh _ hmem rfl, h.nodup_ids.of_map _⟩)
  rw [← hforest] at hchild
  refine ⟨above, hchild.1, hchild.2, ?_, ?_, ?_, fun id hid => ?_⟩
  · rw [hforest]
    exact without_plant (beq_self_eq_true (draft.leafOf mixins page).id) _ fun p hp => by simpa using hfresh p hp
  · rw [hforest, ← Forest.length_labels, (labels_plant _ hdescend).length_eq, List.length_cons, Forest.length_labels]
  · rw [h.planted?_insert mixins hne]
    exact if_pos rfl
  · obtain ⟨p, hp⟩ := h.exists_planted hid
    refine ⟨p, hp, ?_⟩
    rw [h.planted?_insert mixins hne, if_neg (Nat.ne_of_lt hid), hp]

/-- A page without keys leaves the forest as it is and is reported. Any other adds one leaf to it, under the next
number: without the leaf the forest is the one before, and each number below means the route that it meant. The
reports of before stay in front. To put the leaf behind its siblings and to sort all of them comes to the same. -/
theorem insert_grows (mixins : MixinSet) (pages : List Page) (page : Page) :
    let before := empty.insertAll mixins pages
    let after := before.insert mixins page
    after = before.insertBy plantSorting mixins page ∧ before.warnings <+: after.warnings ∧
      if page.keys = [] then
        before.nextId? page = none ∧ after.forest = before.forest ∧
          after.warnings = before.warnings ++ [.emptyRoute page.source]
      else
        ∃ leaf above, before.nextId? page = some leaf.id ∧ leaf.route.IsOf page ∧ Grows before after above leaf := by
  intro before after
  obtain ⟨planted, harrived⟩ := exists_arrived mixins pages
  refine ⟨?_, warnings_prefix_insert, ?_⟩
  · have hsorted := sorted_forest_insertAll mixins pages
    simp only [after, Draft.insert, insertBy, plantSorting_eq _ _ hsorted, before]
  · split
    · next hnone =>
        have hafter : after = _ := insert_of_no_keys mixins before page hnone
        rw [hafter, nextId?, hnone]
        exact ⟨rfl, rfl, rfl⟩
    · next hne =>
        obtain ⟨above, hgrows⟩ := harrived.grows mixins hne
        refine ⟨before.leafOf mixins page, above, if_neg (by simpa using hne), isOf_leafOf mixins before page, hgrows⟩

end Draft

end RouteTable
