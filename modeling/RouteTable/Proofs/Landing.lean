import RouteTable.Draft
import RouteTable.Proofs.Families
import RouteTable.Proofs.Keys

namespace RouteTable

open Segment

namespace Draft

def descend (above : Option Planted) : List Text → Forest Planted → Option (Option Planted × Forest Planted)
  | [], siblings => some (above, siblings)
  | name :: address, siblings =>
      match siblings.find? (Planted.hasName name) with
      | some (p, below) => descend (some p) address below
      | none => none

theorem plant_families (leaf : Planted) {address : List Text} {above above' : Option Planted}
    {siblings siblings' : Forest Planted} (h : descend above address siblings = some (above', siblings')) :
    ∃ others, (siblings.under above).Perm ((above', siblings'.roots) :: others) ∧
      ((plant leaf address siblings).under above).Perm
        ((above', (Forest.place Planted.order leaf .nil siblings').roots) :: (some leaf, []) :: others) := by
  induction address generalizing above siblings with
  | nil =>
      cases h
      exact ⟨_, List.Perm.refl _, (Forest.inner_place _ _ _ _).cons _⟩
  | cons name address ih =>
      rw [descend] at h
      split at h
      · next p below hfind =>
          obtain ⟨others, hbelow, hplant⟩ := ih h
          obtain ⟨rest, hinner, hmodify⟩ := Forest.modifyBelow_families hfind
          obtain ⟨hroots, hinner'⟩ := hmodify (plant leaf address)
          refine ⟨(above, siblings.roots) :: (others ++ rest), ?_, ?_⟩
          · exact ((hinner.trans (hbelow.append_right rest)).cons _).trans (List.Perm.swap _ _ _)
          · rw [plant, Forest.under, hroots]
            refine ((hinner'.trans (hplant.append_right rest)).cons _).trans ?_
            exact (List.Perm.swap _ _ _).trans ((List.Perm.swap _ _ _).cons _)
      · cases h

theorem pairwiseSiblings_plant {R : Planted → Planted → Prop} (leaf : Planted) {address : List Text}
    {above : Option Planted} {f siblings : Forest Planted} (hdescend : descend none address f = some (above, siblings))
    (hplace : siblings.roots.Pairwise R → (Forest.place Planted.order leaf .nil siblings).roots.Pairwise R)
    (h : f.PairwiseSiblings R) : (plant leaf address f).PairwiseSiblings R := by
  obtain ⟨others, hbefore, hafter⟩ := plant_families leaf hdescend
  have hfamily : siblings.roots.Pairwise R := h above siblings.roots (hbefore.mem_iff.2 List.mem_cons_self)
  intro parent routes hmem
  rcases List.mem_cons.1 (hafter.mem_iff.1 hmem) with he | hmem
  · cases he
    exact hplace hfamily
  · rcases List.mem_cons.1 hmem with he | hmem
    · cases he
      exact List.Pairwise.nil
    · exact h parent routes (hbefore.mem_iff.2 (List.mem_cons_of_mem _ hmem))

end Draft

namespace Landing

/-- What the keys that are left add to the path, `depth` keys being behind. -/
def pathFrom (depth : Nat) : List Text → Text
  | [] => []
  | key :: keys => extendPath [] key (depth == 0) keys.isEmpty ++ pathFrom (depth + 1) keys

theorem extendPath_eq_append (path key : Text) (isFirst isLast : Bool) :
    extendPath path key isFirst isLast = path ++ extendPath [] key isFirst isLast := by
  unfold extendPath
  cases isLast && key == indexKey <;> cases isFirst <;> simp

/-- The walk along `keys` with `depth` of them behind: it is among `siblings`, below the route that the
first `base` keys name, and no sibling has the name that more of the keys behind add up to. -/
structure Underway (keys : List Text) (depth : Nat) (path : Text) (base : Nat)
    (above : Option Planted) (siblings : Forest Planted) : Prop where
  base_le : base ≤ depth
  top : above = none → base = 0
  below : ∀ p, above = some p → 0 < base ∧ p.route.name = some (nameOf (keys.take base))
  path_eq : path ++ pathFrom depth (keys.drop depth) = pathFrom base (keys.drop base)
  fresh : ∀ i, base < i → i ≤ depth → ∀ p ∈ siblings.roots, p.route.name ≠ some (nameOf (keys.take i))

variable {keys : List Text} {depth base : Nat} {path key : Text} {above : Option Planted}
  {siblings below : Forest Planted}

theorem underway_start (keys : List Text) (forest : Forest Planted) : Underway keys 0 [] 0 none forest where
  base_le := Nat.le_refl 0
  top _ := rfl
  below p h := by cases h
  path_eq := rfl
  fresh i h h' := by omega

theorem underway_enter {p : Planted} (hname : p.route.name = some (nameOf (keys.take (depth + 1)))) :
    Underway keys (depth + 1) [] (depth + 1) (some p) below where
  base_le := Nat.le_refl _
  top h := by cases h
  below q h := by
    cases h
    exact ⟨Nat.succ_pos _, hname⟩
  path_eq := rfl
  fresh i h h' := by omega

theorem Underway.stay (h : Underway keys depth path base above siblings) {rest : List Text}
    (hkeys : keys.drop depth = key :: rest)
    (hname : ∀ p ∈ siblings.roots, p.route.name ≠ some (nameOf (keys.take (depth + 1)))) :
    Underway keys (depth + 1) (extendPath path key (depth == 0) rest.isEmpty) base above siblings where
  base_le := Nat.le_succ_of_le h.base_le
  top := h.top
  below := h.below
  path_eq := by
    have hrest : keys.drop (depth + 1) = rest := by
      rw [← List.drop_drop, hkeys]
      rfl
    rw [← h.path_eq, hkeys, hrest, pathFrom, extendPath_eq_append, List.append_assoc]
  fresh i hi hi' := by
    rcases Nat.lt_or_eq_of_le hi' with hlt | rfl
    · exact h.fresh i hi (Nat.le_of_lt_succ hlt)
    · exact hname

theorem follow_underway {behind rest : List Text} (hkeys : keys = behind ++ rest)
    (h : Underway keys behind.length path base above siblings) :
    let landing := follow (nameOf behind) path base behind.length rest siblings
    ∃ above' siblings', Draft.descend above landing.address siblings = some (above', siblings') ∧
      Underway keys keys.length landing.path landing.base above' siblings' ∧
      landing.name = nameOf keys ∧
      (rest ≠ [] → (landing.collides = true ↔ landing.base = keys.length)) := by
  induction rest generalizing behind path base above siblings with
  | nil =>
      rw [List.append_nil] at hkeys
      subst hkeys
      exact ⟨above, siblings, rfl, h, rfl, fun hne => absurd rfl hne⟩
  | cons key rest ih =>
      have hkeys' : keys = (behind ++ [key]) ++ rest := by rw [hkeys, List.append_assoc]; rfl
      have hdepth : (behind ++ [key]).length = behind.length + 1 := by simp
      have htake : keys.take (behind.length + 1) = behind ++ [key] := by rw [hkeys', ← hdepth, List.take_left]
      have hdrop : keys.drop behind.length = key :: rest := by rw [hkeys, List.drop_left]
      rw [follow, ← nameOf_concat, ← hdepth]
      cases hfind : siblings.find? (Planted.hasName (nameOf (behind ++ [key]))) with
      | some entry =>
          obtain ⟨p, below⟩ := entry
          have hp : p.route.name = some (nameOf (behind ++ [key])) := by
            simpa [Planted.hasName, Route.hasName] using (Forest.find?_eq_some hfind).2
          have hin : Underway keys (behind ++ [key]).length [] (behind ++ [key]).length (some p) below := by
            rw [hdepth]
            exact underway_enter (by rw [htake]; exact hp)
          obtain ⟨above', siblings', hdescend, hland, hname, hcollides⟩ := ih hkeys' hin
          simp only [Forest.below?, hfind, Option.map_some]
          refine ⟨above', siblings', ?_, hland, hname, fun _ => ?_⟩
          · simpa only [Draft.descend, hfind] using hdescend
          · cases rest with
            | nil =>
                rw [List.append_nil] at hkeys'
                simp [follow, hkeys']
            | cons key' rest => simpa using hcollides (List.cons_ne_nil _ _)
      | none =>
          have hout : ∀ p ∈ siblings.roots, p.route.name ≠ some (nameOf (keys.take (behind.length + 1))) := by
            intro p hp
            rw [htake]
            simpa [Planted.hasName, Route.hasName] using Forest.find?_eq_none hfind p hp
          have hstay := h.stay hdrop hout
          rw [← hdepth] at hstay
          obtain ⟨above', siblings', hdescend, hland, hname, hcollides⟩ := ih hkeys' hstay
          simp only [Forest.below?, hfind, Option.map_none]
          refine ⟨above', siblings', hdescend, hland, hname, fun _ => ?_⟩
          cases rest with
          | nil =>
              have hlt : base < keys.length := by
                have := h.base_le
                rw [hkeys]
                simp
                omega
              simp [follow]
              omega
          | cons key' rest => exact hcollides (List.cons_ne_nil _ _)

theorem of_underway {keys : List Text} (hne : keys ≠ []) (forest : Forest Planted) :
    ∃ above siblings, Draft.descend none (Landing.of keys forest).address forest = some (above, siblings) ∧
      Underway keys keys.length (Landing.of keys forest).path (Landing.of keys forest).base above siblings ∧
      (Landing.of keys forest).name = nameOf keys ∧
      ((Landing.of keys forest).collides = true ↔ (Landing.of keys forest).base = keys.length) := by
  obtain ⟨above, siblings, hdescend, hland, hname, hcollides⟩ :=
    follow_underway (List.nil_append keys).symm (underway_start keys forest)
  exact ⟨above, siblings, hdescend, hland, hname, hcollides hne⟩

end Landing

end RouteTable
