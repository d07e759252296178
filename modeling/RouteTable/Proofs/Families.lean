import Mathlib.Data.List.Nodup
import RouteTable.Forest

namespace RouteTable.Forest

variable {α β : Type}

def inner : Forest α → List (Option α × List α)
  | nil => []
  | cons x below after => (some x, below.roots) :: (inner below ++ inner after)

def under (parent : Option α) (f : Forest α) : List (Option α × List α) := (parent, f.roots) :: f.inner

/-- All sibling lists; the roots hang below nothing. -/
def families (f : Forest α) : List (Option α × List α) := f.under none

def IsChild (f : Forest α) (parent : Option α) (x : α) : Prop :=
  ∃ siblings, (parent, siblings) ∈ f.families ∧ x ∈ siblings

/-- `R` holds of any two siblings, the earlier one first. -/
def PairwiseSiblings (R : α → α → Prop) (f : Forest α) : Prop :=
  ∀ parent siblings, (parent, siblings) ∈ f.families → siblings.Pairwise R

/-- The labels on the way from a root down to each node. -/
def chains : Forest α → List (List α)
  | nil => []
  | cons x below after => [x] :: ((chains below).map (x :: ·) ++ chains after)

theorem roots_map (g : α → β) (f : Forest α) : (f.map g).roots = f.roots.map g := by
  induction f with
  | nil => rfl
  | cons x below after _ ih => simp [map, roots, ih]

theorem inner_map (g : α → β) (f : Forest α) :
    (f.map g).inner = f.inner.map (Prod.map (Option.map g) (List.map g)) := by
  induction f with
  | nil => rfl
  | cons x below after ihb iha => simp [map, inner, roots_map, ihb, iha]

theorem families_map (g : α → β) (f : Forest α) :
    (f.map g).families = f.families.map (Prod.map (Option.map g) (List.map g)) := by
  simp [families, under, roots_map, inner_map]

theorem labels_map (g : α → β) (f : Forest α) : (f.map g).labels = f.labels.map g := by
  induction f with
  | nil => rfl
  | cons x below after ihb iha => simp [map, labels, ihb, iha]

theorem pairwiseSiblings_iff {R : α → α → Prop} {f : Forest α} : f.PairwiseSiblings R ↔
    f.roots.Pairwise R ∧ ∀ parent siblings, (parent, siblings) ∈ f.inner → siblings.Pairwise R := by
  constructor
  · intro h
    exact ⟨h none f.roots List.mem_cons_self, fun parent siblings hmem => h _ _ (List.mem_cons_of_mem _ hmem)⟩
  · rintro ⟨hroots, hinner⟩ parent siblings hmem
    rcases List.mem_cons.1 hmem with he | hmem
    · cases he
      exact hroots
    · exact hinner parent siblings hmem

theorem pairwiseSiblings_cons {R : α → α → Prop} {x : α} {below after : Forest α} :
    (cons x below after).PairwiseSiblings R ↔
      (∀ y ∈ after.roots, R x y) ∧ below.PairwiseSiblings R ∧ after.PairwiseSiblings R := by
  simp only [pairwiseSiblings_iff, roots, inner, List.pairwise_cons, List.mem_cons, List.mem_append]
  constructor
  · rintro ⟨⟨hfirst, hafter⟩, hinner⟩
    exact ⟨hfirst, ⟨hinner _ _ (.inl rfl), fun _ _ hmem => hinner _ _ (.inr (.inl hmem))⟩,
      hafter, fun _ _ hmem => hinner _ _ (.inr (.inr hmem))⟩
  · rintro ⟨hfirst, ⟨hbelow, hbelow'⟩, hafter, hafter'⟩
    refine ⟨⟨hfirst, hafter⟩, fun parent siblings hmem => ?_⟩
    rcases hmem with he | hmem | hmem
    · cases he
      exact hbelow
    · exact hbelow' _ _ hmem
    · exact hafter' _ _ hmem

theorem size_map (g : α → β) (f : Forest α) : (f.map g).size = f.size := by
  rw [← length_labels, ← length_labels, labels_map, List.length_map]

theorem find?_map (p : β → Bool) (g : α → β) (f : Forest α) :
    (f.map g).find? p = (f.find? fun x => p (g x)).map (Prod.map g (map g)) := by
  induction f with
  | nil => rfl
  | cons x below after _ iha =>
      rw [map, find?, find?]
      split
      · rfl
      · exact iha

theorem below?_map (p : β → Bool) (g : α → β) (f : Forest α) :
    (f.map g).below? p = (f.below? fun x => p (g x)).map (map g) := by
  rw [below?, below?, find?_map, Option.map_map, Option.map_map]
  rfl

theorem map_modifyBelow {g : α → β} {h : Forest α → Forest α} {h' : Forest β → Forest β}
    (hbelow : ∀ below, (h below).map g = h' (below.map g)) (p : β → Bool) (f : Forest α) :
    (f.modifyBelow (fun x => p (g x)) h).map g = (f.map g).modifyBelow p h' := by
  induction f with
  | nil => rfl
  | cons x below after _ iha =>
      rw [map, modifyBelow, modifyBelow]
      split
      · rw [map, hbelow]
      · rw [map, iha]

theorem map_place {g : α → β} {cmp : α → α → Ordering} {cmp' : β → β → Ordering}
    (hcmp : ∀ x y, cmp' (g x) (g y) = cmp x y) (x : α) (below f : Forest α) :
    (place cmp x below f).map g = place cmp' (g x) (below.map g) (f.map g) := by
  induction f with
  | nil => rfl
  | cons y below' after _ iha =>
      rw [map, place, place, hcmp]
      split
      · rfl
      · rw [map, iha]

theorem isChild_map {g : α → β} {f : Forest α} {parent : Option β} {y : β} :
    (f.map g).IsChild parent y ↔ ∃ p x, f.IsChild p x ∧ p.map g = parent ∧ g x = y := by
  constructor
  · rintro ⟨siblings, hf, hy⟩
    rw [families_map] at hf
    obtain ⟨⟨p, xs⟩, hp, he⟩ := List.mem_map.1 hf
    cases he
    obtain ⟨x, hx, rfl⟩ := List.mem_map.1 hy
    exact ⟨p, x, ⟨xs, hp, hx⟩, rfl, rfl⟩
  · rintro ⟨p, x, ⟨xs, hp, hx⟩, rfl, rfl⟩
    refine ⟨xs.map g, ?_, List.mem_map_of_mem hx⟩
    rw [families_map]
    exact List.mem_map_of_mem hp

theorem exists_isChild_of_map_eq {g : α → β} {f f' : Forest α} (h : f.map g = f'.map g) {parent : Option α} {x : α}
    (hx : f.IsChild parent x) : ∃ parent' x', f'.IsChild parent' x' ∧ parent'.map g = parent.map g ∧ g x' = g x := by
  have hmap : (f.map g).IsChild (parent.map g) (g x) := isChild_map.2 ⟨parent, x, hx, rfl, rfl⟩
  rw [h] at hmap
  exact isChild_map.1 hmap

theorem labels_perm_inner (f : Forest α) :
    f.labels.Perm (f.roots ++ f.inner.flatMap Prod.snd) := by
  induction f with
  | nil => exact List.Perm.nil
  | cons x below after ihb iha =>
      simp only [labels, roots, inner, List.flatMap_cons, List.flatMap_append, List.cons_append]
      refine List.Perm.cons x ((ihb.append iha).trans ?_)
      refine List.perm_append_comm.trans ?_
      simp only [List.append_assoc]
      refine List.Perm.append_left _ ?_
      refine List.perm_append_comm.trans ?_
      simp

theorem labels_perm_families (f : Forest α) : f.labels.Perm (f.families.flatMap Prod.snd) :=
  f.labels_perm_inner

theorem mem_labels_iff {f : Forest α} {x : α} : x ∈ f.labels ↔ ∃ parent, f.IsChild parent x := by
  rw [f.labels_perm_families.mem_iff, List.mem_flatMap]
  constructor
  · rintro ⟨⟨parent, siblings⟩, hf, hx⟩
    exact ⟨parent, siblings, hf, hx⟩
  · rintro ⟨parent, siblings, hf, hx⟩
    exact ⟨(parent, siblings), hf, hx⟩

theorem parents_perm_labels (f : Forest α) : (f.families.map Prod.fst).Perm (none :: f.labels.map some) := by
  suffices h : (f.inner.map Prod.fst).Perm (f.labels.map some) from h.cons none
  induction f with
  | nil => exact List.Perm.nil
  | cons x below after ihb iha =>
      simp only [inner, labels, List.map_cons, List.map_append]
      exact (ihb.append iha).cons (some x)

theorem mem_labels_of_mem_families {f : Forest α} {x : α} {siblings : List α}
    (h : (some x, siblings) ∈ f.families) : x ∈ f.labels := by
  have hparent := f.parents_perm_labels.mem_iff.1 (List.mem_map_of_mem h)
  simpa using hparent

theorem mem_labels_of_isChild {f : Forest α} {x y : α} (h : f.IsChild (some x) y) : x ∈ f.labels := by
  obtain ⟨siblings, hf, _⟩ := h
  exact mem_labels_of_mem_families hf

theorem siblings_unique {f : Forest α} (hn : f.labels.Nodup) {parent : Option α} {siblings siblings' : List α}
    (h : (parent, siblings) ∈ f.families) (h' : (parent, siblings') ∈ f.families) : siblings = siblings' := by
  have hparents : (f.families.map Prod.fst).Nodup := by
    refine f.parents_perm_labels.nodup_iff.2 (List.nodup_cons.2 ⟨by simp, ?_⟩)
    exact hn.map fun _ _ => Option.some.inj
  exact congrArg Prod.snd (List.inj_on_of_nodup_map hparents h h' rfl)

theorem inner_place (cmp : α → α → Ordering) (x : α) (below f : Forest α) :
    (place cmp x below f).inner.Perm ((some x, below.roots) :: (below.inner ++ f.inner)) := by
  induction f with
  | nil => simp [place, inner]
  | cons y below' after _ ih =>
      rw [place]
      split
      · simp [inner]
      · simp only [inner]
        refine ((ih.append_left below'.inner).cons _).trans ?_
        refine (List.perm_middle.cons _).trans ((List.Perm.swap _ _ _).trans (List.Perm.cons _ ?_))
        exact ((List.perm_append_comm_assoc _ _ _).cons _).trans List.perm_middle.symm

/-- A change below the first root that `p` selects changes the families under that root alone. -/
theorem modifyBelow_families {p : α → Bool} {f below : Forest α} {x : α} (h : f.find? p = some (x, below)) :
    ∃ others, f.inner.Perm (below.under (some x) ++ others) ∧ ∀ g : Forest α → Forest α,
      (f.modifyBelow p g).roots = f.roots ∧
        (f.modifyBelow p g).inner.Perm ((g below).under (some x) ++ others) := by
  induction f with
  | nil => cases h
  | cons y below' after _ ih =>
      rw [find?] at h
      by_cases hp : p y
      · rw [if_pos hp] at h
        cases h
        refine ⟨after.inner, by simp [inner, under], fun g => ?_⟩
        simp [modifyBelow, hp, roots, inner, under]
      · rw [if_neg hp] at h
        obtain ⟨others, hinner, hmodify⟩ := ih h
        refine ⟨(some y, below'.roots) :: (below'.inner ++ others), ?_, fun g => ?_⟩
        · exact (((hinner.append_left _).trans (List.perm_append_comm_assoc _ _ _)).cons _).trans
            List.perm_middle.symm
        · obtain ⟨hroots, hg⟩ := hmodify g
          rw [modifyBelow, if_neg hp]
          refine ⟨by rw [roots, roots, hroots], ?_⟩
          exact (((hg.append_left _).trans (List.perm_append_comm_assoc _ _ _)).cons _).trans
            List.perm_middle.symm

theorem find?_eq_some {p : α → Bool} {f below : Forest α} {x : α} (h : f.find? p = some (x, below)) :
    x ∈ f.roots ∧ p x = true := by
  induction f with
  | nil => cases h
  | cons y below' after _ ih =>
      rw [find?] at h
      by_cases hp : p y
      · rw [if_pos hp] at h
        cases h
        exact ⟨List.mem_cons_self, hp⟩
      · rw [if_neg hp] at h
        exact ⟨List.mem_cons_of_mem _ (ih h).1, (ih h).2⟩

theorem find?_eq_none {p : α → Bool} {f : Forest α} (h : f.find? p = none) : ∀ x ∈ f.roots, p x = false := by
  induction f with
  | nil => simp [roots]
  | cons y below after _ ih =>
      rw [find?] at h
      by_cases hp : p y
      · rw [if_pos hp] at h
        cases h
      · rw [if_neg hp] at h
        intro x hx
        rcases List.mem_cons.1 hx with rfl | hx
        · simpa using hp
        · exact ih h x hx

theorem ne_nil_of_mem_chains {f : Forest α} {chain : List α} (h : chain ∈ f.chains) : chain ≠ [] := by
  induction f with
  | nil => cases h
  | cons x below after _ iha =>
      simp only [chains, List.mem_cons, List.mem_append, List.mem_map] at h
      rcases h with rfl | ⟨c, _, rfl⟩ | h
      · simp
      · simp
      · exact iha h

theorem singleton_mem_chains {f : Forest α} {x : α} : [x] ∈ f.chains ↔ x ∈ f.roots := by
  induction f with
  | nil => simp [chains, roots]
  | cons y below after _ iha =>
      simp only [chains, roots, List.mem_cons, List.mem_append, List.mem_map, List.cons.injEq, iha]
      constructor
      · rintro (⟨rfl, _⟩ | ⟨c, hc, rfl, rfl⟩ | h)
        · exact .inl rfl
        · exact absurd rfl (ne_nil_of_mem_chains hc)
        · exact .inr h
      · rintro (rfl | h)
        · exact .inl ⟨rfl, trivial⟩
        · exact .inr (.inr h)

theorem chains_init {f : Forest α} {front : List α} {p q : α} (h : front ++ [p, q] ∈ f.chains) :
    front ++ [p] ∈ f.chains ∧ f.IsChild (some p) q := by
  suffices hs : front ++ [p] ∈ f.chains ∧ ∃ siblings, (some p, siblings) ∈ f.inner ∧ q ∈ siblings from
    ⟨hs.1, hs.2.imp fun _ h => ⟨List.mem_cons_of_mem _ h.1, h.2⟩⟩
  induction f generalizing front with
  | nil => cases h
  | cons x below after ihb iha =>
      simp only [chains, inner, List.mem_cons, List.mem_append, List.mem_map] at h ⊢
      rcases h with h | ⟨c, hc, he⟩ | h
      · have := congrArg List.length h
        simp at this
      · cases front with
        | nil =>
            cases he
            exact ⟨.inl rfl, below.roots, .inl rfl, singleton_mem_chains.1 hc⟩
        | cons y front =>
            simp only [List.cons_append, List.cons.injEq] at he
            obtain ⟨rfl, rfl⟩ := he
            obtain ⟨hchain, siblings, hmem, hq⟩ := ihb hc
            exact ⟨.inr (.inl ⟨_, hchain, rfl⟩), siblings, .inr (.inl hmem), hq⟩
      · obtain ⟨hchain, siblings, hmem, hq⟩ := iha h
        exact ⟨.inr (.inr hchain), siblings, .inr (.inr hmem), hq⟩

theorem exists_chain {f : Forest α} {p q : α} (h : f.IsChild (some p) q) :
    ∃ front, front ++ [p] ∈ f.chains ∧ front ++ [p, q] ∈ f.chains := by
  obtain ⟨siblings, hf, hq⟩ := h
  replace hf : (some p, siblings) ∈ f.inner := by simpa [families, under] using hf
  induction f with
  | nil => cases hf
  | cons x below after ihb iha =>
      simp only [inner, List.mem_cons, List.mem_append, Prod.mk.injEq, Option.some.injEq] at hf
      simp only [chains, List.mem_cons, List.mem_append, List.mem_map]
      rcases hf with ⟨rfl, rfl⟩ | hf | hf
      · exact ⟨[], .inl rfl, .inr (.inl ⟨[q], singleton_mem_chains.2 hq, rfl⟩)⟩
      · obtain ⟨front, hp, hpq⟩ := ihb hf
        exact ⟨x :: front, .inr (.inl ⟨_, hp, rfl⟩), .inr (.inl ⟨_, hpq, rfl⟩)⟩
      · obtain ⟨front, hp, hpq⟩ := iha hf
        exact ⟨front, .inr (.inr hp), .inr (.inr hpq)⟩

end RouteTable.Forest
