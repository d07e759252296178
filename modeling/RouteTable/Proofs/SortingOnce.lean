import Mathlib.Data.List.Pairwise
import RouteTable.Proofs.MatchingOrder

namespace RouteTable

namespace Forest

variable {α : Type} {R : α → α → Prop} {cmp : α → α → Ordering} {p : α → Bool} {below f g : Forest α}

def append (x : α) (below : Forest α) : Forest α → Forest α
  | nil => cons x below nil
  | cons y below' after => cons y below' (append x below after)

/-- The two forests differ in the order of siblings at most. -/
inductive Shuffled : Forest α → Forest α → Prop
  | nil : Shuffled nil nil
  | cons (x : α) {below below' after after' : Forest α} :
    Shuffled below below' → Shuffled after after' → Shuffled (cons x below after) (cons x below' after')
  | swap (x y : α) (below below' after : Forest α) :
    Shuffled (cons x below (cons y below' after)) (cons y below' (cons x below after))
  | trans {f g h : Forest α} : Shuffled f g → Shuffled g h → Shuffled f h

namespace Shuffled

theorem refl (f : Forest α) : Shuffled f f := by
  induction f with
  | nil => exact .nil
  | cons x below after ihb iha => exact .cons x ihb iha

theorem symm (h : Shuffled f g) : Shuffled g f := by
  induction h with
  | nil => exact .nil
  | cons x _ _ ihb iha => exact .cons x ihb iha
  | swap x y below below' after => exact .swap y x below' below after
  | trans _ _ ihf ihg => exact ihg.trans ihf

theorem roots_perm (h : Shuffled f g) : f.roots.Perm g.roots := by
  induction h with
  | nil => exact List.Perm.nil
  | cons x _ _ _ ih => exact ih.cons x
  | swap x y _ _ _ => exact List.Perm.swap y x _
  | trans _ _ ihf ihg => exact ihf.trans ihg

theorem size_eq (h : Shuffled f g) : f.size = g.size := by
  induction h with
  | nil => rfl
  | cons x _ _ ihb iha => rw [size, size, ihb, iha]
  | swap x y _ _ _ =>
      simp only [size]
      omega
  | trans _ _ ihf ihg => exact ihf.trans ihg

theorem pairwiseSiblings [Std.Symm R] (h : Shuffled f g) (hf : f.PairwiseSiblings R) : g.PairwiseSiblings R := by
  induction h with
  | nil => exact hf
  | cons x _ hafter ihb iha =>
      obtain ⟨hfirst, hbelow, hrest⟩ := pairwiseSiblings_cons.1 hf
      refine pairwiseSiblings_cons.2 ⟨fun y hy => ?_, ihb hbelow, iha hrest⟩
      exact hfirst y (hafter.roots_perm.mem_iff.2 hy)
  | swap x y _ _ _ =>
      obtain ⟨hx, hbelow, hrest⟩ := pairwiseSiblings_cons.1 hf
      obtain ⟨hy, hbelow', hrest⟩ := pairwiseSiblings_cons.1 hrest
      refine pairwiseSiblings_cons.2 ⟨fun z hz => ?_, hbelow', pairwiseSiblings_cons.2 ⟨fun z hz => ?_, hbelow, hrest⟩⟩
      · rcases List.mem_cons.1 hz with rfl | hz
        · exact Std.Symm.symm _ _ (hx y List.mem_cons_self)
        · exact hy z hz
      · exact hx z (List.mem_cons_of_mem _ hz)
  | trans _ _ ihf ihg => exact ihg (ihf hf)

theorem place (cmp : α → α → Ordering) (x : α) (below f : Forest α) :
    Shuffled (Forest.place cmp x below f) (Forest.cons x below f) := by
  induction f with
  | nil => exact refl _
  | cons y below' after _ ih =>
      rw [Forest.place]
      split
      · exact refl _
      · exact (Shuffled.cons y (refl below') ih).trans (.swap y x below' below after)

theorem append (x : α) (below f : Forest α) : Shuffled (Forest.cons x below f) (Forest.append x below f) := by
  induction f with
  | nil => exact refl _
  | cons y below' after _ ih => exact (Shuffled.swap x y below below' after).trans (.cons y (refl below') ih)

theorem modifyBelow {h h' : Forest α → Forest α} (hbelow : ∀ below, Shuffled (h below) (h' below))
    (p : α → Bool) (f : Forest α) : Shuffled (f.modifyBelow p h) (f.modifyBelow p h') := by
  induction f with
  | nil => exact .nil
  | cons x below after _ ih =>
      rw [Forest.modifyBelow, Forest.modifyBelow]
      split
      · exact .cons x (hbelow below) (refl after)
      · exact .cons x (refl below) ih

end Shuffled

theorem below?_cons (p : α → Bool) (x : α) (below after : Forest α) :
    (cons x below after).below? p = if p x then some below else after.below? p := by
  rw [below?, find?]
  split <;> rfl

theorem Shuffled.rel_trans {a b c : Option (Forest α)} (hab : Option.Rel Shuffled a b)
    (hbc : Option.Rel Shuffled b c) : Option.Rel Shuffled a c := by
  cases hab with
  | none => exact hbc
  | some h =>
      cases hbc with
      | some h' => exact .some (h.trans h')

theorem PairwiseSiblings.below? (h : f.PairwiseSiblings R) (hbelow : f.below? p = some below) :
    below.PairwiseSiblings R := by
  induction f with
  | nil => cases hbelow
  | cons x below' after _ ih =>
      obtain ⟨_, hb, ha⟩ := pairwiseSiblings_cons.1 h
      rw [below?_cons] at hbelow
      split at hbelow
      · exact Option.some.inj hbelow ▸ hb
      · exact ih ha hbelow

theorem Shuffled.below? [Std.Symm R] (hp : ∀ x y, R x y → p x = true → p y = false) (h : Shuffled f g)
    (hf : f.PairwiseSiblings R) : Option.Rel Shuffled (f.below? p) (g.below? p) := by
  induction h with
  | nil => exact .none
  | cons x hbelow _ _ iha =>
      rw [below?_cons, below?_cons]
      split
      · exact .some hbelow
      · exact iha (pairwiseSiblings_cons.1 hf).2.2
  | swap x y below below' after =>
      have hxy := (pairwiseSiblings_cons.1 hf).1 y List.mem_cons_self
      simp only [below?_cons]
      by_cases hx : p x = true
      · rw [if_pos hx, if_pos hx, if_neg (Bool.eq_false_iff.1 (hp x y hxy hx))]
        exact .some (refl below)
      · rw [if_neg hx, if_neg hx]
        split
        · exact .some (refl below')
        · cases after.below? p with
          | none => exact .none
          | some b => exact .some (refl b)
  | trans hfg _ ihf ihg =>
      exact Shuffled.rel_trans (ihf hf) (ihg (hfg.pairwiseSiblings hf))

theorem Shuffled.modifyBelow_congr [Std.Symm R] (hp : ∀ x y, R x y → p x = true → p y = false)
    {h : Forest α → Forest α}
    (hbelow : ∀ b b', Shuffled b b' → b.PairwiseSiblings R → Shuffled (h b) (h b'))
    (hfg : Shuffled f g) (hf : f.PairwiseSiblings R) : Shuffled (f.modifyBelow p h) (g.modifyBelow p h) := by
  induction hfg with
  | nil => exact .nil
  | cons x hb ha _ iha =>
      obtain ⟨_, hb', ha'⟩ := pairwiseSiblings_cons.1 hf
      rw [Forest.modifyBelow, Forest.modifyBelow]
      split
      · exact .cons x (hbelow _ _ hb hb') ha
      · exact .cons x hb (iha ha')
  | swap x y below below' after =>
      have hxy := (pairwiseSiblings_cons.1 hf).1 y List.mem_cons_self
      simp only [Forest.modifyBelow]
      by_cases hx : p x = true
      · rw [if_pos hx, hp x y hxy hx, if_neg Bool.false_ne_true, if_pos hx]
        exact .swap x y _ _ _
      · rw [if_neg hx, if_neg hx]
        split
        · exact .swap x y _ _ _
        · exact .swap x y _ _ _
  | trans hfg _ ihf ihg => exact (ihf hf).trans (ihg (hfg.pairwiseSiblings hf))

def ofTrees : List (α × Forest α) → Forest α
  | [] => nil
  | (x, below) :: trees => cons x below (ofTrees trees)

/-- Stable: trees whose roots tie stay in their order. -/
def sortTrees (cmp : α → α → Ordering) (trees : List (α × Forest α)) : List (α × Forest α) :=
  trees.mergeSort fun a b => (cmp a.1 b.1).isLE

def treesSortedBelow (cmp : α → α → Ordering) : Forest α → List (α × Forest α)
  | nil => []
  | cons x below after => (x, ofTrees (sortTrees cmp (treesSortedBelow cmp below))) :: treesSortedBelow cmp after

def sortLists (cmp : α → α → Ordering) (f : Forest α) : Forest α := ofTrees (sortTrees cmp (treesSortedBelow cmp f))

theorem map_fst_treesSortedBelow (cmp : α → α → Ordering) (f : Forest α) :
    (treesSortedBelow cmp f).map Prod.fst = f.roots := by
  induction f with
  | nil => rfl
  | cons x below after _ ih => rw [treesSortedBelow, List.map_cons, ih, roots]

theorem sortTrees_eq_of_perm [Std.TransCmp cmp] {trees trees' : List (α × Forest α)} (h : trees.Perm trees')
    (hties : trees.Pairwise fun a b => cmp a.1 b.1 ≠ .eq) : sortTrees cmp trees = sortTrees cmp trees' := by
  have : Std.Symm fun a b : α × Forest α => cmp a.1 b.1 ≠ .eq :=
    ⟨fun a b hab he => hab (Std.OrientedCmp.eq_symm he)⟩
  have hsorted : ∀ ts : List (α × Forest α), (sortTrees cmp ts).Pairwise fun a b => (cmp a.1 b.1).isLE := by
    refine List.pairwise_mergeSort (fun a b c hab hbc => Std.TransCmp.isLE_trans hab hbc) fun a b => ?_
    have hswap : cmp b.1 a.1 = (cmp a.1 b.1).swap := Std.OrientedCmp.eq_swap
    rw [hswap]
    cases cmp a.1 b.1 <;> rfl
  refine List.Perm.eq_of_pairwise (fun a b ha hb hab hba => ?_) (hsorted trees) (hsorted trees')
    ((List.mergeSort_perm _ _).trans (h.trans (List.mergeSort_perm _ _).symm))
  by_contra hne
  have ha' : a ∈ trees := List.mem_mergeSort.1 ha
  have hb' : b ∈ trees := h.mem_iff.2 (List.mem_mergeSort.1 hb)
  exact hties.forall ha' hb' hne (Std.OrientedCmp.isLE_antisymm hab hba)

theorem pairwise_treesSortedBelow (h : f.roots.Pairwise R) :
    (treesSortedBelow cmp f).Pairwise fun a b => R a.1 b.1 := by
  rw [← map_fst_treesSortedBelow cmp f] at h
  exact List.pairwise_map.1 h

theorem perm_treesSortedBelow [Std.TransCmp cmp] (h : Shuffled f g)
    (hf : f.PairwiseSiblings fun a b => cmp a b ≠ .eq) :
    (treesSortedBelow cmp f).Perm (treesSortedBelow cmp g) := by
  have : Std.Symm fun a b => cmp a b ≠ .eq := ⟨fun a b hab he => hab (Std.OrientedCmp.eq_symm he)⟩
  induction h with
  | nil => exact List.Perm.nil
  | cons x _ _ ihb iha =>
      obtain ⟨_, hb, ha⟩ := pairwiseSiblings_cons.1 hf
      rw [treesSortedBelow, treesSortedBelow,
        sortTrees_eq_of_perm (ihb hb) (pairwise_treesSortedBelow (pairwiseSiblings_iff.1 hb).1)]
      exact (iha ha).cons _
  | swap x y _ _ _ => exact List.Perm.swap _ _ _
  | trans hfg _ ihf ihg => exact (ihf hf).trans (ihg (hfg.pairwiseSiblings hf))

theorem ofTrees_treesSortedBelow (h : f.Sorted cmp) : ofTrees (treesSortedBelow cmp f) = f := by
  induction f with
  | nil => rfl
  | cons x below after ihb iha =>
      obtain ⟨_, hb, ha⟩ := pairwiseSiblings_cons.1 h
      have hbelow : sortTrees cmp (treesSortedBelow cmp below) = treesSortedBelow cmp below :=
        List.mergeSort_of_pairwise (pairwise_treesSortedBelow (pairwiseSiblings_iff.1 hb).1)
      rw [treesSortedBelow, ofTrees, hbelow, ihb hb, iha ha]

/-- A forest in order is what sorting makes of any forest that differs from it in the order of siblings only. -/
theorem eq_sortLists [Std.TransCmp cmp] (hs : f.Sorted cmp) (hties : f.PairwiseSiblings fun a b => cmp a b ≠ .eq)
    (h : Shuffled f g) : f = sortLists cmp g := by
  have hsorted : sortTrees cmp (treesSortedBelow cmp f) = treesSortedBelow cmp f :=
    List.mergeSort_of_pairwise (pairwise_treesSortedBelow (pairwiseSiblings_iff.1 hs).1)
  calc f = ofTrees (treesSortedBelow cmp f) := (ofTrees_treesSortedBelow hs).symm
    _ = ofTrees (sortTrees cmp (treesSortedBelow cmp f)) := by rw [hsorted]
    _ = sortLists cmp g := by
      rw [sortTrees_eq_of_perm (perm_treesSortedBelow h hties)
        (pairwise_treesSortedBelow (pairwiseSiblings_iff.1 hties).1)]
      rfl

end Forest

namespace Planted

def Apart (p q : Planted) : Prop := p.route.name ≠ q.route.name

instance : Std.Symm Apart := ⟨fun _ _ h => Ne.symm h⟩

theorem Apart.hasName {p q : Planted} (h : p.Apart q) (name : Text) (hp : p.hasName name = true) :
    q.hasName name = false := by
  simp only [Planted.hasName, Route.hasName, beq_iff_eq, beq_eq_false_iff_ne] at hp ⊢
  exact fun hq => h (hp.trans hq.symm)

theorem Apart.order_ne_eq {p q : Planted} (h : p.Apart q) : order p q ≠ .eq := by
  intro he
  simp only [order, Order.on, Route.order, compareLex, Ordering.then_eq_eq] at he
  have hname : p.route.name.toList = q.route.name.toList :=
    (inferInstance : Std.LawfulEqCmp (List.compareLex Order.text)).eq_of_compare he.2.2
  exact h (by simpa using congrArg List.head? hname)

end Planted

theorem Landing.follow_of_shuffled {f g : Forest Planted} (h : f.Shuffled g) (hf : f.PairwiseSiblings Planted.Apart)
    (name path : Text) (base depth : Nat) (keys : List Text) :
    follow name path base depth keys f = follow name path base depth keys g := by
  induction keys generalizing f g name path base depth with
  | nil => rfl
  | cons key keys ih =>
      rw [follow, follow]
      have hbelow := h.below? (fun p q hpq => hpq.hasName (Segment.extendName name key)) hf
      generalize hleft : f.below? (Planted.hasName (Segment.extendName name key)) = left at hbelow
      generalize g.below? (Planted.hasName (Segment.extendName name key)) = right at hbelow
      cases hbelow with
      | none => exact ih h hf _ _ _ _
      | some hb => simp only [ih hb (hf.below? hleft)]

namespace Draft

variable {mixins : MixinSet} {draft draft' : Draft} {page : Page}

def plantLast (leaf : Planted) : (address : List Text) → Forest Planted → Forest Planted
  | [], siblings => Forest.append leaf .nil siblings
  | name :: address, siblings => siblings.modifyBelow (Planted.hasName name) (plantLast leaf address)

def insertBy (put : Planted → List Text → Forest Planted → Forest Planted) (mixins : MixinSet) (draft : Draft)
    (page : Page) : Draft :=
  if page.keys.isEmpty then
    { draft with warnings := draft.warnings ++ [.emptyRoute page.source] }
  else
    let landing := Landing.of (page.keys.map fun k => (Segment.ofText k).key) draft.forest
    { forest := put ⟨draft.forest.size, routeOf mixins page landing⟩ landing.address draft.forest
      warnings := draft.warnings ++ warningsOf mixins page landing }

theorem insertBy_plant (mixins : MixinSet) (draft : Draft) (page : Page) :
    draft.insertBy plant mixins page = draft.insert mixins page := rfl

/-- Takes pages in without ever sorting. -/
def appendAll (mixins : MixinSet) (draft : Draft) (pages : List Page) : Draft :=
  pages.foldl (insertBy plantLast mixins) draft

def sorted (draft : Draft) : Draft := { draft with forest := draft.forest.sortLists Planted.order }

theorem plant_shuffled (leaf : Planted) (address : List Text) (f : Forest Planted) :
    (plant leaf address f).Shuffled (plantLast leaf address f) := by
  induction address generalizing f with
  | nil =>
      rw [plant, plantLast]
      exact (Forest.Shuffled.place Planted.order leaf .nil f).trans (.append leaf .nil f)
  | cons name address ih => exact .modifyBelow ih (Planted.hasName name) f

theorem plantLast_shuffled (leaf : Planted) (address : List Text) {f g : Forest Planted} (h : f.Shuffled g)
    (hf : f.PairwiseSiblings Planted.Apart) : (plantLast leaf address f).Shuffled (plantLast leaf address g) := by
  induction address generalizing f g with
  | nil =>
      exact (Forest.Shuffled.append leaf .nil f).symm.trans
        ((Forest.Shuffled.cons leaf .nil h).trans (.append leaf .nil g))
  | cons name address ih =>
      exact h.modifyBelow_congr (fun p q hpq => hpq.hasName name) (fun b b' hb hapart => ih hb hapart) hf

theorem warnings_prefix_insert : draft.warnings <+: (draft.insert mixins page).warnings := by
  rw [Draft.insert]
  split
  · exact List.prefix_append _ _
  · exact List.prefix_append _ _

/-- A draft in order beside one that is not: no two siblings of one name, and the same reports. -/
structure Mirrors (draft draft' : Draft) : Prop where
  sorted : draft.forest.Sorted Planted.order
  apart : draft.forest.PairwiseSiblings Planted.Apart
  shuffled : draft.forest.Shuffled draft'.forest
  warnings_eq : draft.warnings = draft'.warnings

theorem Mirrors.eq_sorted (h : Mirrors draft draft') : draft = draft'.sorted := by
  have hties : draft.forest.PairwiseSiblings fun p q => Planted.order p q ≠ .eq :=
    fun parent siblings hmem => (h.apart parent siblings hmem).imp fun hpq => hpq.order_ne_eq
  have hforest := Forest.eq_sortLists h.sorted hties h.shuffled
  cases draft with
  | mk forest warnings =>
      rw [Draft.sorted]
      exact congrArg₂ Draft.mk hforest h.warnings_eq

theorem Mirrors.insert (h : Mirrors draft draft')
    (hnone : ∀ file name, .nameCollision file name ∉ (draft.insert mixins page).warnings) :
    Mirrors (draft.insert mixins page) (draft'.insertBy plantLast mixins page) := by
  by_cases hne : page.keys = []
  · simp only [Draft.insert, insertBy, hne, List.isEmpty_nil, if_true]
    exact ⟨h.sorted, h.apart, h.shuffled, by rw [h.warnings_eq]⟩
  · have hroute := Page.routeKeys_ne_nil hne
    have hland : Landing.of page.routeKeys draft'.forest = Landing.of page.routeKeys draft.forest :=
      (Landing.follow_of_shuffled h.shuffled h.apart [] [] 0 0 page.routeKeys).symm
    obtain ⟨above, siblings, hdescend, hunder, hname, hcollides⟩ := Landing.of_underway hroute draft.forest
    have hinsert := insert_of_keys mixins draft page hne
    have hinsert' : draft'.insertBy plantLast mixins page =
        let landing := Landing.of page.routeKeys draft'.forest
        { forest := plantLast ⟨draft'.forest.size, routeOf mixins page landing⟩ landing.address draft'.forest
          warnings := draft'.warnings ++ warningsOf mixins page landing } := by
      rw [insertBy, if_neg (by simpa using hne)]
      rfl
    rw [hland] at hinsert'
    rw [hinsert] at hnone ⊢
    rw [hinsert']
    generalize Landing.of page.routeKeys draft.forest = landing at *
    have hfree : landing.base < page.routeKeys.length := by
      refine Nat.lt_of_le_of_ne hunder.base_le fun he => ?_
      refine hnone page.source landing.name (List.mem_append_right _ ?_)
      exact nameCollision_mem_warningsOf.2 ⟨rfl, rfl, hcollides.2 he⟩
    -- the name was looked for among the siblings and not found
    have hfresh : ∀ p ∈ siblings.roots, p.route.name ≠ some landing.name := by
      intro p hp
      have := hunder.fresh page.routeKeys.length hfree (Nat.le_refl _) p hp
      rwa [List.take_length, ← hname] at this
    simp only [← h.shuffled.size_eq, ← h.warnings_eq]
    let leaf : Planted := ⟨draft.forest.size, routeOf mixins page landing⟩
    refine ⟨sorted_plant leaf hdescend h.sorted, ?_, ?_, rfl⟩
    · refine pairwiseSiblings_plant leaf hdescend (fun hsiblings => ?_) h.apart
      refine ((Forest.roots_place _ _ _ _).pairwise_iff fun hpq => Std.Symm.symm _ _ hpq).2 ?_
      exact List.pairwise_cons.2 ⟨fun p hp he => hfresh p hp he.symm, hsiblings⟩
    · exact (plant_shuffled leaf landing.address draft.forest).trans
        (plantLast_shuffled leaf landing.address h.shuffled h.apart)

theorem appendAll_concat (mixins : MixinSet) (draft : Draft) (pages : List Page) (page : Page) :
    draft.appendAll mixins (pages ++ [page]) = (draft.appendAll mixins pages).insertBy plantLast mixins page := by
  rw [appendAll, List.foldl_append]
  rfl

theorem mirrors_insertAll (mixins : MixinSet) (pages : List Page)
    (hnone : ∀ file name, .nameCollision file name ∉ (empty.insertAll mixins pages).warnings) :
    Mirrors (empty.insertAll mixins pages) (empty.appendAll mixins pages) := by
  refine insertAll_induction mixins pages (motive := fun done draft =>
    (∀ file name, .nameCollision file name ∉ draft.warnings) → Mirrors draft (empty.appendAll mixins done))
    (fun _ => ⟨?_, ?_, .nil, rfl⟩) ?_ hnone
  · intro parent siblings hmem
    cases List.mem_singleton.1 hmem
    exact List.Pairwise.nil
  · intro parent siblings hmem
    cases List.mem_singleton.1 hmem
    exact List.Pairwise.nil
  · intro done page rest draft _ hdone hnone
    rw [appendAll_concat]
    refine Mirrors.insert (hdone fun file name hmem => hnone file name ?_) hnone
    exact warnings_prefix_insert.subset hmem

/-- As long as no names collide, a draft is what one gets by putting each new route behind its siblings and
sorting every sibling list once at the end. On the way the two drafts differ in the order of siblings only, which
no walk along the keys of a page notices, since it finds siblings by their names. -/
theorem insertAll_eq_sorted_appendAll (mixins : MixinSet) (pages : List Page)
    (hnone : ∀ file name, .nameCollision file name ∉ (empty.insertAll mixins pages).warnings) :
    (empty.insertAll mixins pages).routes = (empty.appendAll mixins pages).sorted.routes ∧
      (empty.insertAll mixins pages).warnings = (empty.appendAll mixins pages).warnings := by
  have h := mirrors_insertAll mixins pages hnone
  exact ⟨congrArg routes h.eq_sorted, h.warnings_eq⟩

/-- A parameter, a page with a page in its folder, and a wildcard before them all. -/
theorem insertAll_eq_sorted_appendAll_users :
    let pages : List Page := [⟨"*".toList, ["*".toList], []⟩, ⟨"_id".toList, ["_id".toList], []⟩,
      ⟨"users".toList, ["users".toList], []⟩, ⟨"users/_id".toList, ["users".toList, "_id".toList], []⟩,
      ⟨"users/new".toList, ["users".toList, "new".toList], []⟩]
    (∀ file name, .nameCollision file name ∉ (empty.insertAll [] pages).warnings) ∧
      (empty.insertAll [] pages).routes = (empty.appendAll [] pages).sorted.routes ∧
      (empty.insertAll [] pages).routes.labels.map Route.path =
        ["/users".toList, "/new".toList, "/:id?".toList, "/:id?".toList, "/*".toList] ∧
      (empty.appendAll [] pages).routes.labels.map Route.path =
        ["/*".toList, "/:id?".toList, "/users".toList, "/:id?".toList, "/new".toList] := by
  intro pages
  have hnone : ∀ file name, .nameCollision file name ∉ (empty.insertAll [] pages).warnings := by
    have hwarnings : (empty.insertAll [] pages).warnings = [] := by decide
    simp [hwarnings]
  exact ⟨hnone, (insertAll_eq_sorted_appendAll [] pages hnone).1, by decide, by decide⟩

end Draft

end RouteTable
