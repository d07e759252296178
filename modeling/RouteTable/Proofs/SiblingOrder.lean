import RouteTable.Proofs.ByteOrder
import RouteTable.Proofs.MatchingOrder

namespace RouteTable

namespace Precedence

/-- The first ranks that differ. -/
def parting? : List Nat → List Nat → Option (Nat × Nat)
  | m :: ms, n :: ns => if m = n then parting? ms ns else some (m, n)
  | _, _ => none

theorem eq_of_parting?_eq_none {ms ns : List Nat} (h : parting? ms ns = none) (hlength : ms.length = ns.length) :
    ms = ns := by
  fun_induction parting? ms ns with
  | case1 m ms ns ih => rw [ih h (Nat.succ.inj hlength)]
  | case2 => cases h
  | case3 ms ns hne =>
      cases ms with
      | nil => exact (List.length_eq_zero_iff.1 hlength.symm).symm
      | cons m ms =>
          cases ns with
          | nil => cases hlength
          | cons n ns => exact absurd rfl (hne m ms n ns rfl)

theorem ne_of_parting?_eq_some {ms ns : List Nat} {m n : Nat} (h : parting? ms ns = some (m, n)) : m ≠ n := by
  fun_induction parting? ms ns with
  | case1 m ms ns ih => exact ih h
  | case2 m ms n ns hne =>
      cases h
      exact hne
  | case3 => cases h

/-- What stands behind the ranks of a path: nothing, or more than any rank. -/
def IsTail (tail : List Nat) : Prop := tail = [] ∨ tail = [afterWildcard]

theorem compareLex_of_tails {ms ns tail tail' : List Nat} (hms : ∀ m ∈ ms, m < afterWildcard)
    (hns : ∀ n ∈ ns, n < afterWildcard) (htail : IsTail tail) (htail' : IsTail tail') :
    List.compareLex Order.nat (ms ++ tail) (ns ++ tail') =
      match parting? ms ns with
      | some (m, n) => Order.nat m n
      | none =>
        if ms.length < ns.length then if tail = [] then .lt else .gt
        else if ns.length < ms.length then if tail' = [] then .gt else .lt
        else List.compareLex Order.nat tail tail' := by
  induction ms generalizing ns with
  | nil =>
      cases ns with
      | nil => rfl
      | cons n ns =>
          have hn := hns n List.mem_cons_self
          rcases htail with rfl | rfl
          · rfl
          · have hgt : Order.nat afterWildcard n = .gt := Std.OrientedCmp.gt_of_lt (Order.nat_eq_lt.2 hn)
            simp [parting?, List.compareLex_cons_cons, hgt]
  | cons m ms ih =>
      have hm := hms m List.mem_cons_self
      cases ns with
      | nil =>
          rcases htail' with rfl | rfl
          · simp [parting?, List.compareLex_cons_nil]
          · have hlt : Order.nat m afterWildcard = .lt := Order.nat_eq_lt.2 hm
            simp [parting?, List.compareLex_cons_cons, hlt]
      | cons n ns =>
          rw [List.cons_append, List.cons_append, List.compareLex_cons_cons, parting?]
          by_cases hmn : m = n
          · have heq : Order.nat m n = .eq := Order.nat_eq_eq.2 hmn
            rw [if_pos hmn, heq, Ordering.eq_then, ih (fun k hk => hms k (List.mem_cons_of_mem m hk))
              (fun k hk => hns k (List.mem_cons_of_mem n hk))]
            simp only [List.length_cons, Nat.add_lt_add_iff_right]
          · rw [if_neg hmn]
            cases hcmp : Order.nat m n with
            | lt => simp [hcmp]
            | gt => simp [hcmp]
            | eq => exact absurd (Order.nat_eq_eq.1 hcmp) hmn

def EndsInWildcard (segments : List Text) : Prop := (segments.map PatternKind.of).getLast? = some .wildcard

instance (segments : List Text) : Decidable (EndsInWildcard segments) := inferInstanceAs (Decidable (_ = _))

def tail (segments : List Text) : List Nat := if EndsInWildcard segments then [afterWildcard] else []

/-- What the precedence of a path compares of its segments. -/
def graded (segments : List Text) : List Nat := PatternKind.ranks segments ++ tail segments

variable {p q : List Text}

theorem isTail_tail (segments : List Text) : IsTail (tail segments) := by
  unfold tail
  split
  · exact .inr rfl
  · exact .inl rfl

theorem tail_eq_nil_iff {segments : List Text} : tail segments = [] ↔ ¬ EndsInWildcard segments := by
  unfold tail
  split <;> simp_all

theorem tail_eq_of_ranks_eq (h : PatternKind.ranks p = PatternKind.ranks q) : tail p = tail q := by
  have hiff : EndsInWildcard p ↔ EndsInWildcard q := by
    rw [EndsInWildcard, EndsInWildcard, PatternKind.getLast?_eq_wildcard_iff, PatternKind.getLast?_eq_wildcard_iff, h]
  simp only [tail, hiff]

theorem of_eq (path : Text) : of path = ⟨!path.isEmpty, graded (Text.parts Path.isSlash path)⟩ := by
  rw [of, graded, PatternKind.ranks, List.map_map]
  rfl

theorem ranks_lt_afterWildcard {segments : List Text} : ∀ m ∈ PatternKind.ranks segments, m < afterWildcard := by
  intro m hm
  obtain ⟨s, _, rfl⟩ := List.mem_map.1 hm
  cases PatternKind.of s with
  | static => exact Nat.zero_lt_succ 2
  | dynamic _ => exact Nat.one_lt_succ_succ 1
  | wildcard => exact Nat.lt_succ_self 2

theorem compareLex_graded (p q : List Text) :
    List.compareLex Order.nat (graded p) (graded q) =
      match parting? (PatternKind.ranks p) (PatternKind.ranks q) with
      | some (m, n) => Order.nat m n
      | none =>
        if p.length < q.length then if EndsInWildcard p then .gt else .lt
        else if q.length < p.length then if EndsInWildcard q then .lt else .gt
        else .eq := by
  rw [graded, graded,
    compareLex_of_tails ranks_lt_afterWildcard ranks_lt_afterWildcard (isTail_tail p) (isTail_tail q)]
  have hlength : ∀ segments, (PatternKind.ranks segments).length = segments.length := fun _ => List.length_map _
  simp only [hlength, tail_eq_nil_iff, ite_not]
  split
  · rfl
  · next hnone =>
      split
      · rfl
      · split
        · rfl
        · rw [tail_eq_of_ranks_eq (eq_of_parting?_eq_none hnone (by rw [hlength, hlength]; omega))]
          exact Std.ReflCmp.compare_self

end Precedence

namespace Route

open Precedence

def byName : Option Text → Option Text → Ordering
  | none, none => .eq
  | none, some _ => .lt
  | some _, none => .gt
  | some s, some t => Order.bytes s t

/-- Which of two routes comes first, case by case. -/
def ruled (a b : Route) : Ordering :=
  if a.path = [] ∧ b.path ≠ [] then .lt
  else if a.path ≠ [] ∧ b.path = [] then .gt
  else match parting? (PatternKind.ranks a.segments) (PatternKind.ranks b.segments) with
    | some (m, n) => Order.nat m n
    | none =>
      if a.segments.length < b.segments.length then if EndsInWildcard a.segments then .gt else .lt
      else if b.segments.length < a.segments.length then if EndsInWildcard b.segments then .lt else .gt
      else (Order.bytes a.path b.path).then (byName a.name b.name)

theorem option_eq_byName (s t : Option Text) : Order.option Order.text s t = byName s t := by
  cases s with
  | none => cases t <;> rfl
  | some s =>
      cases t with
      | none => rfl
      | some t =>
          rw [byName, ← Order.text_eq_bytes, Order.option, Order.on, Option.toList_some, Option.toList_some,
            List.compareLex_cons_cons, List.compareLex_nil_nil, Ordering.then_eq]

theorem order_eq_ruled (a b : Route) : order a b = ruled a b := by
  have horder : order a b = ((Order.nat (!a.path.isEmpty).toNat (!b.path.isEmpty).toNat).then
      (List.compareLex Order.nat (graded a.segments) (graded b.segments))).then
        ((Order.bytes a.path b.path).then (byName a.name b.name)) := by
    rw [order, compareLex, compareLex, Order.on, Order.on, Order.on, option_eq_byName, Order.text_eq_bytes, of_eq,
      of_eq]
    rfl
  have hpath : Order.nat (!a.path.isEmpty).toNat (!b.path.isEmpty).toNat =
      if a.path = [] ∧ b.path ≠ [] then .lt else if a.path ≠ [] ∧ b.path = [] then .gt else .eq := by
    cases a.path <;> cases b.path <;> rfl
  rw [horder, hpath, compareLex_graded, ruled]
  split
  · rfl
  · split
    · rfl
    · rw [Ordering.eq_then]
      split
      · next m n hsome =>
          have hne : Order.nat m n ≠ .eq := fun heq => ne_of_parting?_eq_some hsome (Order.nat_eq_eq.1 heq)
          cases hcmp : Order.nat m n with
          | lt | gt => rfl
          | eq => exact absurd hcmp hne
      · split
        · split <;> rfl
        · split
          · split <;> rfl
          · rfl

theorem order_eq_eq_iff (a b : Route) : order a b = .eq ↔ a.path = b.path ∧ a.name = b.name := by
  have hname : ∀ s t : Option Text, Order.option Order.text s t = .eq ↔ s = t := by
    intro s t
    have hlist : List.compareLex Order.text s.toList t.toList = .eq ↔ s.toList = t.toList :=
      Std.LawfulEqCmp.compare_eq_iff_eq
    refine hlist.trans ⟨fun h => ?_, congrArg Option.toList⟩
    simpa using congrArg List.head? h
  have htext : Order.text a.path b.path = .eq ↔ a.path = b.path := Std.LawfulEqCmp.compare_eq_iff_eq
  simp only [order, compareLex, Order.on, Ordering.then_eq_eq, hname, htext]
  refine ⟨fun h => h.2, fun h => ⟨?_, h⟩⟩
  rw [h.1]
  exact Std.ReflCmp.compare_self

end Route

namespace Forest

variable {α β : Type} {cmp : α → α → Ordering} {f g : Forest α} {key : α → β}

theorem roots_placeAll_perm (cmp : α → α → Ordering) (sorted f : Forest α) :
    (placeAll cmp sorted f).roots.Perm (sorted.roots ++ f.roots) := by
  induction f generalizing sorted with
  | nil => simp [placeAll, roots]
  | cons x below after _ ih =>
      exact (ih _).trans (((roots_place cmp x below sorted).append_right _).trans List.perm_middle.symm)

theorem roots_sort_perm (cmp : α → α → Ordering) (f : Forest α) : (f.sort cmp).roots.Perm f.roots :=
  roots_placeAll_perm cmp nil f

theorem pairwise_roots_placeAll [Std.TransCmp cmp] {sorted : Forest α}
    (h : sorted.roots.Pairwise fun a b => (cmp a b).isLE) (f : Forest α) :
    (placeAll cmp sorted f).roots.Pairwise fun a b => (cmp a b).isLE := by
  induction f generalizing sorted with
  | nil => exact h
  | cons x below after _ ih => exact ih (pairwise_roots_place x below h)

theorem pairwise_roots_sort [Std.TransCmp cmp] (f : Forest α) :
    (f.sort cmp).roots.Pairwise fun a b => (cmp a b).isLE :=
  pairwise_roots_placeAll List.Pairwise.nil f

theorem map_roots_sort_eq [Std.TransCmp cmp] (hkey : ∀ a b, cmp a b = .eq ↔ key a = key b)
    (h : f.roots.Perm g.roots) : (f.sort cmp).roots.map key = (g.sort cmp).roots.map key := by
  let Upto (k l : β) : Prop := ∃ a b, key a = k ∧ key b = l ∧ (cmp a b).isLE
  have hsorted : ∀ f : Forest α, ((f.sort cmp).roots.map key).Pairwise Upto := fun f =>
    List.pairwise_map.2 ((pairwise_roots_sort f).imp fun {a b} hab => ⟨a, b, rfl, rfl, hab⟩)
  have hperm : (f.sort cmp).roots.Perm (g.sort cmp).roots :=
    (roots_sort_perm cmp f).trans (h.trans (roots_sort_perm cmp g).symm)
  refine List.Perm.eq_of_pairwise (fun k l _ _ hkl hlk => ?_) (hsorted f) (hsorted g) (hperm.map key)
  obtain ⟨a, b, rfl, rfl, hab⟩ := hkl
  obtain ⟨b', a', hb, ha, hba⟩ := hlk
  -- labels of one key compare alike
  rw [Std.TransCmp.congr_left ((hkey b' b).2 hb), Std.TransCmp.congr_right ((hkey a' a).2 ha)] at hba
  exact (hkey a b).1 (Std.OrientedCmp.isLE_antisymm hab hba)

end Forest

namespace Route

/-- The order of routes is the rule, and a total order of paths and names: turning the routes round turns the
result round, it is transitive, and only routes of one path and one name tie. So routes have one order in which
their paths and names can stand, and sorting finds it. -/
theorem order_ruled_total :
    (∀ a b, order a b = ruled a b) ∧ (∀ a b, order b a = (order a b).swap) ∧
      (∀ a b c, (order a b).isLE → (order b c).isLE → (order a c).isLE) ∧
      (∀ a b, order a b = .eq ↔ a.path = b.path ∧ a.name = b.name) ∧
      (∀ f : Forest Route, (f.sort order).roots.Perm f.roots ∧
        (f.sort order).roots.Pairwise fun a b => (order a b).isLE) ∧
      ∀ f g : Forest Route, f.roots.Perm g.roots → (f.sort order).roots.map (fun r => (r.path, r.name)) =
        (g.sort order).roots.map fun r => (r.path, r.name) := by
  refine ⟨order_eq_ruled, fun a b => Std.OrientedCmp.eq_swap, fun a b c => Std.TransCmp.isLE_trans, order_eq_eq_iff,
    fun f => ⟨Forest.roots_sort_perm order f, Forest.pairwise_roots_sort f⟩, fun f g => ?_⟩
  refine Forest.map_roots_sort_eq fun a b => ?_
  rw [order_eq_eq_iff, Prod.mk.injEq]

/-- A wildcard at the end lets the routes pass that it would take the URLs from. -/
example :
    let route (path : String) : Route := ⟨none, path.toList, none, [], ⟨[], 0⟩⟩
    ruled (route "/docs/*") (route "/docs/*/edit") = .gt ∧ ruled (route "/docs") (route "/docs/*/edit") = .lt ∧
      ruled (route "/users/:id") (route "/:lang/about") = .lt := by
  decide

end Route

end RouteTable
