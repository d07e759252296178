import RouteTable.Proofs.Paths

namespace RouteTable

open Segment

namespace Forest

variable {α : Type} {cmp : α → α → Ordering} {x y : α} {below f : Forest α}

def Sorted (cmp : α → α → Ordering) (f : Forest α) : Prop :=
  ∀ parent siblings, (parent, siblings) ∈ f.families → siblings.Pairwise fun a b => (cmp a b).isLE

theorem mem_roots_place : y ∈ (place cmp x below f).roots ↔ y = x ∨ y ∈ f.roots := by
  rw [(roots_place cmp x below f).mem_iff, List.mem_cons]

theorem pairwise_roots_place [Std.TransCmp cmp] (x : α) (below : Forest α)
    (h : f.roots.Pairwise fun a b => (cmp a b).isLE) :
    (place cmp x below f).roots.Pairwise fun a b => (cmp a b).isLE := by
  induction f with
  | nil => exact List.pairwise_singleton _ _
  | cons y below' after _ ih =>
      have hfirst := (List.pairwise_cons.1 h).1
      rw [place]
      split
      · next hlt =>
          have hxy : (cmp x y).isLE := by rw [hlt]; rfl
          refine List.pairwise_cons.2 ⟨fun z hz => ?_, h⟩
          rcases List.mem_cons.1 hz with rfl | hz
          · exact hxy
          · exact Std.TransCmp.isLE_trans hxy (hfirst z hz)
      · next hge =>
          have hyx : (cmp y x).isLE := by
            have hswap : cmp y x = (cmp x y).swap := Std.OrientedCmp.eq_swap
            rw [hswap]
            cases hxy : cmp x y with
            | lt => exact absurd hxy hge
            | eq | gt => rfl
          refine List.pairwise_cons.2 ⟨fun z hz => ?_, ih h.of_cons⟩
          rcases mem_roots_place.1 hz with rfl | hz
          · exact hyx
          · exact hfirst z hz

end Forest

namespace Draft

instance : Std.TransCmp Planted.order := inferInstanceAs (Std.TransCmp (Order.on Route.order Planted.route))

theorem sorted_plant (leaf : Planted) {address : List Text} {f siblings : Forest Planted} {above : Option Planted}
    (hdescend : descend none address f = some (above, siblings)) (h : f.Sorted Planted.order) :
    (plant leaf address f).Sorted Planted.order :=
  pairwiseSiblings_plant leaf hdescend (Forest.pairwise_roots_place leaf .nil) h

theorem sorted_forest_insertAll (mixins : MixinSet) (pages : List Page) :
    (empty.insertAll mixins pages).forest.Sorted Planted.order := by
  refine insertAll_induction mixins pages (motive := fun _ draft => draft.forest.Sorted Planted.order) ?_ ?_
  · intro parent siblings hmem
    cases List.mem_singleton.1 hmem
    exact List.Pairwise.nil
  · intro done page rest draft _ hdone
    by_cases hne : page.keys = []
    · rw [insert_of_no_keys mixins draft page hne]
      exact hdone
    · obtain ⟨above, siblings, hdescend, _⟩ := Landing.of_underway (Page.routeKeys_ne_nil hne) draft.forest
      rw [insert_of_keys mixins draft page hne]
      exact sorted_plant _ hdescend hdone

theorem sorted_insertAll (mixins : MixinSet) (pages : List Page) :
    (empty.insertAll mixins pages).routes.Sorted Route.order := by
  intro parent siblings hmem
  rw [routes, Forest.families_map] at hmem
  obtain ⟨⟨planted, leaves⟩, hleaves, he⟩ := List.mem_map.1 hmem
  cases he
  exact List.pairwise_map.2 (sorted_forest_insertAll mixins pages planted leaves hleaves)

end Draft

namespace PatternKind

theorem rank_eq_two_iff {kind : PatternKind} : kind.rank = 2 ↔ kind = wildcard := by
  cases kind <;> simp [rank]

theorem rank_of_required (s : Text) : (of (required s)).rank = (of s).rank := by
  rcases required_cases s with hs | ⟨front, rfl, hcolon, hs⟩
  · rw [hs]
  · obtain ⟨c, front, rfl⟩ := List.exists_cons_of_ne_nil (List.ne_nil_of_mem hcolon)
    rw [hs]
    by_cases hstar : c = '*'
    · simp [of, Text.startsWith, hstar]
    · have hstart : ∀ rest, Text.startsWith '*' (c :: rest) = false := fun rest => by simp [Text.startsWith, hstar]
      have hbefore : (c :: front ++ ['?']).contains ':' :=
        List.contains_iff_mem.2 (List.mem_append_left _ hcolon)
      rw [of, of, List.cons_append, hstart, hstart, if_neg Bool.false_ne_true, if_neg Bool.false_ne_true,
        if_pos (List.contains_iff_mem.2 hcolon), ← List.cons_append, if_pos hbefore]
      rfl

def ranks (segments : List Text) : List Nat := segments.map fun s => (of s).rank

theorem getLast?_eq_wildcard_iff (segments : List Text) :
    (segments.map of).getLast? = some wildcard ↔ (ranks segments).getLast? = some 2 := by
  rw [ranks, List.getLast?_map, List.getLast?_map]
  cases segments.getLast? with
  | none => simp
  | some s => simp [rank_eq_two_iff]

end PatternKind

namespace Precedence

theorem ext {a b : Precedence} (hpath : a.hasPath = b.hasPath) (hranks : a.ranks = b.ranks) : a = b := by
  obtain ⟨path, ranks⟩ := a
  subst hpath
  subst hranks
  rfl

theorem ranks_of_eq (path : Text) :
    (of path).ranks = PatternKind.ranks (Text.parts Path.isSlash path) ++
      if (PatternKind.ranks (Text.parts Path.isSlash path)).getLast? = some 2 then [afterWildcard] else [] := by
  simp only [of, PatternKind.getLast?_eq_wildcard_iff]
  rw [PatternKind.ranks, List.map_map]
  rfl

theorem hasPath_of (path : Text) : (of path).hasPath = true ↔ path ≠ [] := by
  simp [of]

theorem order_isLE {a b : Precedence} :
    (order a b).isLE ↔ (a.hasPath = false ∧ b.hasPath = true) ∨
      (a.hasPath = b.hasPath ∧ (List.compareLex Order.nat a.ranks b.ranks).isLE) := by
  obtain ⟨a, ranks⟩ := a
  obtain ⟨b, ranks'⟩ := b
  cases a <;> cases b <;> simp [order, compareLex, Order.on, Order.nat]

end Precedence

namespace Route

variable {r s r' s' : Route} {prefixes : List (List Text)} {nested : Bool}

theorem parts_withoutSlash (path : Text) :
    Text.parts Path.isSlash (withoutSlash path) = Text.parts Path.isSlash path := by
  unfold withoutSlash
  split <;> rfl

theorem isSegment_of_mem_parts {path segment : Text} (h : segment ∈ Text.parts Path.isSlash path) :
    Path.IsSegment segment := by
  constructor
  · simpa using (List.mem_filter.1 h).2
  · intro hslash
    cases (Text.mem_of_mem_parts h hslash).2

theorem isSegment_of_mem_requireAll (origin : Origin) (prefixes : List (List Text)) {segments : List Text}
    (h : ∀ s ∈ segments, Path.IsSegment s) : ∀ s ∈ requireAll origin prefixes segments, Path.IsSegment s := by
  induction prefixes generalizing segments with
  | nil => exact h
  | cons indexPrefix prefixes ih =>
      apply ih
      intro s hs
      rw [requireAt] at hs
      split at hs
      · obtain ⟨i, hi, rfl⟩ := List.getElem_of_mem hs
        rw [List.getElem_modify]
        split
        · exact isSegment_required (h _ (List.getElem_mem _))
        · exact h _ (List.getElem_mem _)
      · exact h s hs

theorem map_requireAt {β : Type} {f : Text → β} (hf : ∀ s, f (required s) = f s) (origin : Origin)
    (segments indexPrefix : List Text) : (requireAt origin segments indexPrefix).map f = segments.map f := by
  rw [requireAt]
  split
  · refine List.ext_getElem (by simp) fun i hi hi' => ?_
    simp only [List.getElem_map, List.getElem_modify]
    split
    · exact hf _
    · rfl
  · rfl

theorem map_requireAll {β : Type} {f : Text → β} (hf : ∀ s, f (required s) = f s) (origin : Origin)
    (prefixes : List (List Text)) (segments : List Text) :
    (requireAll origin prefixes segments).map f = segments.map f := by
  induction prefixes generalizing segments with
  | nil => rfl
  | cons indexPrefix prefixes ih => exact (ih _).trans (map_requireAt hf origin segments indexPrefix)

def barePath (nested : Bool) (r : Route) : Text := if nested then withoutSlash r.path else r.path

theorem parts_barePath (nested : Bool) (r : Route) :
    Text.parts Path.isSlash (r.barePath nested) = Text.parts Path.isSlash r.path := by
  unfold barePath
  split
  · exact parts_withoutSlash r.path
  · rfl

theorem normalPath_cases (prefixes : List (List Text)) (nested : Bool) (r : Route) :
    r.normalPath prefixes nested = r.barePath nested ∨
      Text.parts Path.isSlash r.path ≠ [] ∧
        r.normalPath prefixes nested = (if nested then [] else ['/']) ++
          Text.joinWith '/' (requireAll r.origin prefixes (Text.parts Path.isSlash r.path)) := by
  rw [← parts_barePath nested]
  by_cases hmark : (r.barePath nested).contains '?'
  · refine .inr ⟨Text.parts_ne_nil_of_mem (List.contains_iff_mem.1 hmark) rfl, ?_⟩
    exact if_pos hmark
  · exact .inl (if_neg hmark)

theorem map_parts_normalPath {β : Type} {f : Text → β} (hf : ∀ s, f (required s) = f s)
    (prefixes : List (List Text)) (nested : Bool) (r : Route) :
    (Text.parts Path.isSlash (r.normalPath prefixes nested)).map f = (Text.parts Path.isSlash r.path).map f := by
  rcases normalPath_cases prefixes nested r with hbare | ⟨_, hjoined⟩
  · rw [hbare, parts_barePath]
  · rw [hjoined, Text.parts_lead_joinWith _ (isSegment_of_mem_requireAll _ _ fun s => isSegment_of_mem_parts),
      map_requireAll hf]

theorem ranks_normalPath (prefixes : List (List Text)) (nested : Bool) (r : Route) :
    PatternKind.ranks (Text.parts Path.isSlash (r.normalPath prefixes nested)) =
      PatternKind.ranks (Text.parts Path.isSlash r.path) :=
  map_parts_normalPath PatternKind.rank_of_required prefixes nested r

theorem ranks_of_normalPath (prefixes : List (List Text)) (nested : Bool) (r : Route) :
    (Precedence.of (r.normalPath prefixes nested)).ranks = (Precedence.of r.path).ranks := by
  rw [Precedence.ranks_of_eq, Precedence.ranks_of_eq, ranks_normalPath]

/-- A path that normalizing takes away where the route is nested. -/
def Vanishes (path : Text) : Prop := path = [] ∨ path = ['/']

theorem normalPath_eq_nil_iff (htop : nested = false → r.path ≠ []) :
    r.normalPath prefixes nested = [] ↔ nested = true ∧ Vanishes r.path := by
  rcases normalPath_cases prefixes nested r with hbare | ⟨hparts, hjoined⟩
  · rw [hbare]
    cases nested with
    | false => simpa [barePath] using htop rfl
    | true =>
        simp only [barePath, if_true, withoutSlash, Vanishes, true_and]
        split <;> simp_all
  · have hranks := ranks_normalPath prefixes nested r
    constructor
    · intro hnil
      rw [hnil] at hranks
      exact absurd (List.map_eq_nil_iff.1 hranks.symm) hparts
    · rintro ⟨_, hnil | hslash⟩
      · rw [hnil] at hparts
        exact absurd rfl hparts
      · rw [hslash] at hparts
        exact absurd rfl hparts

theorem order_isLE (h : (order r s).isLE) :
    (Precedence.order (.of r.path) (.of s.path)).isLE ∧
      (Precedence.order (.of r.path) (.of s.path) = .eq → (Order.text r.path s.path).isLE) := by
  simp only [order, compareLex, Order.on] at h
  obtain ⟨hprecedence, hrest⟩ := Ordering.isLE_then_iff_and.1 h
  refine ⟨hprecedence, fun heq => ?_⟩
  rw [heq] at hrest
  exact (Ordering.isLE_then_iff_and.1 (hrest.resolve_left (by simp))).1

def Rooted (path : Text) : Prop := path = [] ∨ ∃ rest, path = '/' :: rest

theorem vanishes_of_order (h : (order r s).isLE) (hr : Rooted r.path) (hs : Vanishes s.path) : Vanishes r.path := by
  obtain ⟨hprecedence, htext⟩ := order_isLE h
  rcases hr with hnil | ⟨rest, hrest⟩
  · exact .inl hnil
  · have hpath : (Precedence.of r.path).hasPath = true := (Precedence.hasPath_of _).2 (by simp [hrest])
    -- a route with a path does not come before one without, and `/` is the least of the paths without segments
    rcases Precedence.order_isLE.1 hprecedence with ⟨hnone, _⟩ | ⟨hsame, hranks⟩
    · rw [hpath] at hnone
      cases hnone
    · rcases hs with hs | hs
      · rw [hpath, hs] at hsame
        cases hsame
      · rw [hs] at hranks hsame htext
        have hnone : (Precedence.of r.path).ranks = [] := by
          cases hcase : (Precedence.of r.path).ranks with
          | nil => rfl
          | cons rank ranks =>
              rw [hcase] at hranks
              cases hranks
        have hsame' : Precedence.of r.path = Precedence.of ['/'] := Precedence.ext hsame hnone
        have hle : (Order.text r.path ['/']).isLE := htext (by rw [hsame']; exact Std.ReflCmp.compare_self)
        rw [hrest, Order.text, List.compareLex_cons_cons] at hle
        cases rest with
        | nil => exact .inr hrest
        | cons c rest => cases hle

/-- Normal forms of routes in order have precedences in order. -/
theorem precedence_isLE_normalPath (h : (order r s).isLE) (hr : Rooted r.path)
    (htop : nested = false → r.path ≠ [] ∧ s.path ≠ []) :
    (Precedence.order (.of (r.normalPath prefixes nested)) (.of (s.normalPath prefixes nested))).isLE := by
  have hempty : r.normalPath prefixes nested = [] ↔ nested = true ∧ Vanishes r.path :=
    normalPath_eq_nil_iff fun h => (htop h).1
  have hempty' : s.normalPath prefixes nested = [] ↔ nested = true ∧ Vanishes s.path :=
    normalPath_eq_nil_iff fun h => (htop h).2
  -- ranks are kept, so only whether there is a path at all can tell the two orders apart
  rw [Precedence.order_isLE, ranks_of_normalPath, ranks_of_normalPath]
  by_cases hs : s.normalPath prefixes nested = []
  · have hr' : r.normalPath prefixes nested = [] := by
      obtain ⟨hnested, hvanishes⟩ := hempty'.1 hs
      exact hempty.2 ⟨hnested, vanishes_of_order h hr hvanishes⟩
    rw [← ranks_of_normalPath prefixes nested r, ← ranks_of_normalPath prefixes nested s, hr', hs]
    exact .inr ⟨rfl, rfl⟩
  · by_cases hr' : r.normalPath prefixes nested = []
    · refine .inl ⟨?_, (Precedence.hasPath_of _).2 hs⟩
      rw [hr']
      rfl
    · refine .inr ⟨?_, ?_⟩
      · rw [(Precedence.hasPath_of _).2 hr', (Precedence.hasPath_of _).2 hs]
      · rcases Precedence.order_isLE.1 (order_isLE h).1 with ⟨hnone, _⟩ | ⟨_, hranks⟩
        · have hnil : r.path = [] := by
            by_contra hne
            rw [(Precedence.hasPath_of _).2 hne] at hnone
            cases hnone
          cases nested with
          | false => exact absurd hnil (htop rfl).1
          | true => exact absurd (hempty.2 ⟨rfl, .inl hnil⟩) hr'
        · exact hranks

theorem Joins.rooted {above : Option Route} (h : r.Joins above) (hne : r.origin.keys ≠ []) : Rooted r.path := by
  rw [h.path_eq]
  cases above with
  | none =>
      rw [h.top rfl, List.drop_zero, Landing.pathFrom_zero hne]
      exact .inr ⟨_, rfl⟩
  | some p =>
      rw [Landing.pathFrom_of_pos (h.below p rfl).1]
      cases patterns (r.origin.keys.drop r.origin.base) with
      | nil => exact .inl rfl
      | cons segment segments => exact .inr ⟨_, rfl⟩

theorem Joins.path_ne_nil (h : r.Joins none) (hne : r.origin.keys ≠ []) : r.path ≠ [] := by
  rw [h.path_eq, h.top rfl, List.drop_zero, Landing.pathFrom_zero hne]
  exact List.cons_ne_nil _ _

end Route

namespace Compilation

variable {options : CompileOptions} {files : List Text}

theorem sorted_draftOf (options : CompileOptions) (files : List Text) :
    (draftOf options files).routes.Sorted Route.order :=
  Draft.sorted_insertAll options.mixins _

/-- Siblings come in the order of their precedence, as their paths are in the end. -/
theorem compile_precedence_isLE (options : CompileOptions) (files : List Text) (above : Option Route)
    (siblings : List Route) (hf : (above, siblings) ∈ (compile options files).routes.families) :
    siblings.Pairwise fun r s => (Precedence.order (.of r.path) (.of s.path)).isLE := by
  obtain ⟨above₀, siblings₀, hf₀, _, hall⟩ := exists_draft_siblings hf
  have hjoins : ∀ r ∈ siblings₀, r.Joins above₀ ∧ r.origin.keys ≠ [] := by
    intro r hr
    have hchild : (draftOf options files).routes.IsChild above₀ r := ⟨siblings₀, hf₀, hr⟩
    have hlabel : r ∈ (draftOf options files).routes.labels := Forest.mem_labels_iff.2 ⟨above₀, hchild⟩
    exact ⟨(linked_draftOf options files).joins above₀ r hchild, keys_ne_nil_of_mem_draftOf hlabel⟩
  have hsorted := (sorted_draftOf options files above₀ siblings₀ hf₀).imp_of_mem
    fun {r s} hr hs h => And.intro h (And.intro (hjoins r hr) (hjoins s hs))
  refine Route.pairwise_of_normalizes hall hsorted ?_
  rintro r s r' s' ⟨_, rfl⟩ ⟨_, rfl⟩ ⟨horder, ⟨hr, hrkeys⟩, hs, hskeys⟩
  refine Route.precedence_isLE_normalPath horder (hr.rooted hrkeys) fun hnested => ?_
  have hnone : above₀ = none := by simpa using hnested
  subst hnone
  exact ⟨hr.path_ne_nil hrkeys, hs.path_ne_nil hskeys⟩

/-- Below a page with a parameter and an index page, where normalizing changes each path. -/
theorem precedence_isLE_users :
    let users : Route := ⟨none, "/users".toList, some "./p/users.vue".toList, [], ⟨["users".toList], 0⟩⟩
    let index : Route :=
      ⟨some "users".toList, [], some "./p/users/index.vue".toList, [], ⟨["users".toList, "index".toList], 1⟩⟩
    let new : Route :=
      ⟨some "users_new".toList, "new".toList, some "./p/users/new.vue".toList, [], ⟨["users".toList, "new".toList], 1⟩⟩
    let user : Route :=
      ⟨some "users_id".toList, ":id".toList, some "./p/users/_id.vue".toList, [], ⟨["users".toList, "_id".toList], 1⟩⟩
    let files := ["p/users.vue".toList, "p/users/_id.vue".toList, "p/users/index.vue".toList, "p/users/new.vue".toList]
    (some users, [index, new, user]) ∈ (compile (.forPages "p".toList) files).routes.families ∧
      [index, new, user].Pairwise fun r s => (Precedence.order (.of r.path) (.of s.path)).isLE := by
  intro users index new user files
  have hfamilies : (compile (.forPages "p".toList) files).routes.families =
      [(none, [users]), (some users, [index, new, user]), (some index, []), (some new, []), (some user, [])] := by
    have hpages : pagesOf (.forPages "p".toList) files =
        [⟨"p/users.vue".toList, ["users".toList], "./p/users.vue".toList⟩,
          ⟨"p/users/_id.vue".toList, ["users".toList, "_id".toList], "./p/users/_id.vue".toList⟩,
          ⟨"p/users/index.vue".toList, ["users".toList, "index".toList], "./p/users/index.vue".toList⟩,
          ⟨"p/users/new.vue".toList, ["users".toList, "new".toList], "./p/users/new.vue".toList⟩] := rfl
    rw [routes_compile, draftOf_eq hpages (by decide)]
    rfl
  have hf : (some users, [index, new, user]) ∈ (compile (.forPages "p".toList) files).routes.families := by
    rw [hfamilies]
    exact List.mem_cons_of_mem _ List.mem_cons_self
  exact ⟨hf, compile_precedence_isLE _ files _ _ hf⟩

end Compilation

end RouteTable
