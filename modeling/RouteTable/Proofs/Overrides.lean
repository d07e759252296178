import Mathlib.Data.List.Infix
import RouteTable.Json

namespace RouteTable

namespace Dict

variable {β : Type} {k k' : Text}

theorem insert_eq_cons {d : Dict β} (h : ∀ e ∈ d, Order.text k e.1 = .lt) (x : β) : d.insert k x = (k, x) :: d := by
  cases d with
  | nil => rfl
  | cons e d => rw [Dict.insert, h e List.mem_cons_self]

theorem insert_insert (k : Text) (x y : β) (d : Dict β) : (d.insert k x).insert k y = d.insert k y := by
  induction d with
  | nil => simp [insert, Order.text_self]
  | cons e d ih =>
      obtain ⟨j, z⟩ := e
      cases h : Order.text k j with
      | lt => simp [insert, h, Order.text_self]
      | eq => simp [insert, h, Order.text_self]
      | gt => simp [insert, h, ih]

theorem insert_comm_of_lt (h : Order.text k k' = .lt) (x y : β) (d : Dict β) :
    (d.insert k x).insert k' y = (d.insert k' y).insert k x := by
  have hgt : Order.text k' k = .gt := Std.OrientedCmp.gt_iff_lt.2 h
  induction d with
  | nil => simp [insert, h, hgt]
  | cons e d ih =>
      obtain ⟨j, z⟩ := e
      cases hk : Order.text k j with
      | lt => cases hk' : Order.text k' j <;> simp [insert, hk, hk', h, hgt]
      | eq =>
          obtain rfl := Order.eq_of_text hk
          simp [insert, hgt, Order.text_self]
      | gt =>
          have hk' : Order.text k' j = .gt :=
            Std.OrientedCmp.gt_iff_lt.2 (Std.TransCmp.lt_trans (Std.OrientedCmp.gt_iff_lt.1 hk) h)
          simp [insert, hk, hk', ih]

theorem insert_comm (hne : k ≠ k') (x y : β) (d : Dict β) :
    (d.insert k x).insert k' y = (d.insert k' y).insert k x := by
  cases h : Order.text k k' with
  | lt => exact insert_comm_of_lt h x y d
  | eq => exact absurd (Order.eq_of_text h) hne
  | gt => exact (insert_comm_of_lt (Std.OrientedCmp.gt_iff_lt.1 h) y x d).symm

theorem forall_mem_insert {p : β → Prop} {d : Dict β} {x : β} (hx : p x) (h : ∀ e ∈ d, p e.2) (k : Text) :
    ∀ e ∈ d.insert k x, p e.2 := by
  intro e he
  rcases mem_insert he with rfl | he
  · exact hx
  · exact h e he

end Dict

namespace Json

variable {target source value v w : Json} {key : Text} {path q rest : List Text}

def member? (value : Json) (key : Text) : Option Json := value.object?.bind (Dict.get? key)

/-- What a value holds at a path of keys, from object to object. -/
def at? (value : Json) (path : List Text) : Option Json := path.foldlM member? value

def objectAt? (value : Json) (path : List Text) : Option Object := (value.at? path).bind object?

theorem at?_cons (value : Json) (key : Text) (path : List Text) :
    value.at? (key :: path) = (value.member? key).bind fun v => v.at? path := List.foldlM_cons

theorem at?_append (value : Json) (path rest : List Text) :
    value.at? (path ++ rest) = (value.at? path).bind fun v => v.at? rest := List.foldlM_append

theorem getD_at?_getD (found : Option Json) (path : List Text) :
    ((found.getD null).at? path).getD null = (found.bind fun v => v.at? path).getD null := by
  cases found with
  | some v => rfl
  | none => cases path <;> rfl

theorem object?_getD (found : Option Json) : (found.getD null).object? = found.bind object? := by
  cases found <;> rfl

theorem exists_of_member?_eq_some (h : source.member? key = some v) :
    ∃ members, source = object members ∧ Dict.get? key members = some v := by
  cases source with
  | object members => exact ⟨members, rfl, h⟩
  | null | bool | number | string | array => cases h

theorem member?_merge_of_eq_some (h : source.member? key = some v) :
    (merge target source).member? key = some (merge ((target.member? key).getD null) v) := by
  obtain ⟨members, rfl, hget⟩ := exists_of_member?_eq_some h
  cases target with
  | object old =>
      have hmerged := get?_mergeMembers key old members
      rw [hget] at hmerged
      rwa [merge]
  | null | bool | number | string | array =>
      have hnew : merge null v = v := merge_null v
      exact h.trans (congrArg some hnew.symm)

theorem member?_merge_of_eq_none (h : source.member? key = none) : (merge target source).member? key =
    if target.object?.isSome ∧ source.object?.isSome then target.member? key else none := by
  cases source with
  | object members =>
      have hget : Dict.get? key members = none := h
      cases target with
      | object old =>
          have hmerged := get?_mergeMembers key old members
          rw [hget] at hmerged
          rwa [merge]
      | null | bool | number | string | array => exact h
  | null | bool | number | string | array => cases target <;> rfl

theorem at?_merge_of_eq_some (h : source.at? path = some v) :
    (merge target source).at? path = some (merge ((target.at? path).getD null) v) := by
  induction path generalizing target source with
  | nil =>
      obtain rfl : source = v := Option.some.inj h
      rfl
  | cons key path ih =>
      rw [at?_cons] at h
      obtain ⟨w, hw, hv⟩ := Option.bind_eq_some_iff.1 h
      rw [at?_cons, member?_merge_of_eq_some hw, Option.bind_some, ih hv, getD_at?_getD, at?_cons]

/-- Behind the last value of the source, what the target has is kept where both are objects. -/
theorem at?_merge_of_eq_none (hq : source.at? q = some w) (hkey : w.member? key = none) :
    (merge target source).at? (q ++ key :: rest) =
      if (target.objectAt? q).isSome ∧ (source.objectAt? q).isSome then target.at? (q ++ key :: rest) else none := by
  have hsource : source.objectAt? q = w.object? := by rw [objectAt?, hq, Option.bind_some]
  rw [at?_append, at?_merge_of_eq_some hq, Option.bind_some, at?_cons, member?_merge_of_eq_none hkey, object?_getD,
    hsource, ← objectAt?]
  split
  · next hboth =>
      obtain ⟨members, hmembers⟩ := Option.isSome_iff_exists.1 hboth.1
      obtain ⟨u, hu, _⟩ := Option.bind_eq_some_iff.1 hmembers
      rw [hu, Option.getD_some, at?_append, hu, Option.bind_some, at?_cons]
  · rfl

/-- The longest beginning of a path at which there is a value. -/
structure Deepest (value : Json) (path q : List Text) : Prop where
  isPrefix : q <+: path
  isSome : (value.at? q).isSome = true
  longest : ∀ front, front <+: path → (value.at? front).isSome = true → front <+: q

theorem exists_of_at?_eq_none (h : value.at? path = none) :
    ∃ q key rest w, path = q ++ key :: rest ∧ value.at? q = some w ∧ w.member? key = none := by
  induction path generalizing value with
  | nil => cases h
  | cons key path ih =>
      cases hkey : value.member? key with
      | none => exact ⟨[], key, path, value, rfl, rfl, hkey⟩
      | some v =>
          rw [at?_cons, hkey, Option.bind_some] at h
          obtain ⟨q, key', rest, w, rfl, hq, hw⟩ := ih h
          exact ⟨key :: q, key', rest, w, rfl, by rw [at?_cons, hkey, Option.bind_some, hq], hw⟩

theorem Deepest.eq {q' : List Text} (h : value.Deepest path q) (h' : value.Deepest path q') : q = q' :=
  (h'.longest q h.isPrefix h.isSome).eq_of_length_le (h.longest q' h'.isPrefix h'.isSome).length_le

theorem deepest_of_member?_eq_none (hq : value.at? q = some w) (hkey : w.member? key = none) (rest : List Text) :
    value.Deepest (q ++ key :: rest) q where
  isPrefix := List.prefix_append q _
  isSome := Option.isSome_of_eq_some hq
  longest front hfront hsome := by
    -- a longer beginning goes through the key that is missing
    rcases List.prefix_or_prefix_of_prefix hfront (List.prefix_append q (key :: rest)) with hle | ⟨more, rfl⟩
    · exact hle
    · cases more with
      | nil => exact (List.append_nil q).symm ▸ List.prefix_rfl
      | cons key' more =>
          obtain ⟨rfl, _⟩ := List.cons_prefix_cons.1 ((List.prefix_append_right_inj q).1 hfront)
          rw [at?_append, hq, Option.bind_some, at?_cons, hkey] at hsome
          cases hsome

/-- Every object in the value is in key order. -/
inductive Ordered : Json → Prop where
  | null : Ordered null
  | bool (b : Bool) : Ordered (bool b)
  | number (n : Number) : Ordered (number n)
  | string (s : Text) : Ordered (string s)
  | array (items : List Json) (h : ∀ item ∈ items, Ordered item) : Ordered (array items)
  | object (members : Object) (hkeys : Dict.Ordered members) (h : ∀ e ∈ members, Ordered e.2) :
      Ordered (object members)

theorem ordered_of_mem_mergeMembers {old members : Object} (hold : ∀ e ∈ old, Ordered e.2)
    (h : ∀ e ∈ members, ∀ target : Json, target.Ordered → (merge target e.2).Ordered) :
    ∀ e ∈ mergeMembers old members, Ordered e.2 := by
  induction members with
  | nil =>
      rw [mergeMembers]
      exact hold
  | cons e members ih =>
      have hvalue : ((Dict.get? e.1 old).getD Json.null).Ordered := by
        cases hget : Dict.get? e.1 old with
        | none => exact .null
        | some v => exact hold _ (Dict.mem_of_get?_eq_some hget)
      rw [mergeMembers]
      exact Dict.forall_mem_insert (h e List.mem_cons_self _ hvalue)
        (ih fun e' he' => h e' (List.mem_cons_of_mem e he')) e.1

theorem Ordered.merge (hs : source.Ordered) (ht : target.Ordered) : (Json.merge target source).Ordered := by
  induction hs generalizing target with
  | object members hkeys hmembers ih =>
      cases ht with
      | object old hold holdMembers =>
          rw [Json.merge]
          exact .object _ (ordered_mergeMembers hold members)
            (ordered_of_mem_mergeMembers holdMembers fun e he target ht => ih e he ht)
      | null | bool | number | string | array => exact .object members hkeys hmembers
  | array items hitems => cases ht <;> exact .array items hitems
  | null | bool | number | string => cases ht <;> constructor

theorem mergeMembers_nil {members : Object} (h : Dict.Ordered members) : mergeMembers [] members = members := by
  induction members with
  | nil => rfl
  | cons e members ih =>
      obtain ⟨hfirst, hrest⟩ := List.pairwise_cons.1 h
      have hnew : merge ((Dict.get? e.1 ([] : Object)).getD null) e.2 = e.2 := merge_null e.2
      rw [mergeMembers, ih hrest, hnew, Dict.insert_eq_cons hfirst]

theorem insert_mergeMembers_insert (key : Text) (v w : Json) (target source : Object) :
    (mergeMembers (target.insert key w) source).insert key v = (mergeMembers target source).insert key v := by
  induction source with
  | nil => exact Dict.insert_insert key w v target
  | cons e source ih =>
      rw [mergeMembers, mergeMembers]
      by_cases hkey : e.1 = key
      · rw [hkey, Dict.insert_insert, Dict.insert_insert, ih]
      · rw [Dict.get?_insert_of_ne (Ne.symm hkey), Dict.insert_comm hkey, ih, Dict.insert_comm (Ne.symm hkey)]

theorem mergeMembers_mergeMembers {source : Object} (h : ∀ e ∈ source, ∀ t, merge (merge t e.2) e.2 = merge t e.2)
    (target : Object) : mergeMembers (mergeMembers target source) source = mergeMembers target source := by
  induction source with
  | nil => rfl
  | cons e source ih =>
      have hvalue := h e List.mem_cons_self ((Dict.get? e.1 target).getD null)
      have hrest := ih fun e' he' => h e' (List.mem_cons_of_mem e he')
      have hcons : mergeMembers target (e :: source) =
          (mergeMembers target source).insert e.1 (merge ((Dict.get? e.1 target).getD null) e.2) := by
        rw [mergeMembers]
      rw [hcons, mergeMembers, Dict.get?_insert_self, Option.getD_some, hvalue, insert_mergeMembers_insert, hrest]

theorem merge_of_object?_eq_none (target : Json) (h : source.object? = none) : merge target source = source := by
  cases source with
  | object members => cases h
  | null | bool | number | string | array => cases target <;> rfl

theorem merge_merge (h : source.Ordered) (target : Json) :
    merge (merge target source) source = merge target source := by
  induction h generalizing target with
  | object members hkeys _ ih =>
      have htwice := mergeMembers_mergeMembers ih
      cases target with
      | object old => rw [merge, merge, htwice]
      | null | bool | number | string | array =>
          have hself := htwice []
          rw [mergeMembers_nil hkeys] at hself
          exact congrArg object hself
  | null | bool | number | string | array =>
      rw [merge_of_object?_eq_none _ rfl, merge_of_object?_eq_none target rfl]

/-- How a merged value reads at each path of keys. -/
structure Overrides (target source merged : Json) : Prop where
  value : ∀ path v, source.at? path = some v → v.object? = none → merged.at? path = some v
  both : ∀ path old new, target.at? path = some (object old) → source.at? path = some (object new) →
    ∃ members, merged.at? path = some (object members) ∧ object members = merge (object old) (object new)
  alone : ∀ path new, target.objectAt? path = none → source.at? path = some (object new) →
    merged.at? path = some (object new)
  absent : ∀ path, source.at? path = none → (∃ q, source.Deepest path q) ∧ ∀ q, source.Deepest path q →
    merged.at? path = if (target.objectAt? q).isSome ∧ (source.objectAt? q).isSome then target.at? path else none

/-- A merge is the override by paths of keys, and a second merge of a source in key order finds nothing to change. -/
theorem merge_overrides (target source : Json) : Overrides target source (merge target source) ∧
    (source.Ordered → merge (merge target source) source = merge target source ∧
      (target.Ordered → (merge target source).Ordered)) := by
  refine ⟨⟨fun path v hv hnone => ?_, fun path old new hold hnew => ?_, fun path new hold hnew => ?_,
    fun path hnone => ?_⟩, fun h => ⟨merge_merge h target, h.merge⟩⟩
  · rw [at?_merge_of_eq_some hv, merge_of_object?_eq_none _ hnone]
  · rw [at?_merge_of_eq_some hnew, hold, Option.getD_some]
    exact ⟨_, rfl, rfl⟩
  · have hvalue : ((target.at? path).getD null).object? = none := (object?_getD _).trans hold
    rw [at?_merge_of_eq_some hnew]
    cases hfound : (target.at? path).getD null with
    | object old =>
        rw [hfound] at hvalue
        cases hvalue
    | null | bool | number | string | array => rfl
  · obtain ⟨q, key, rest, w, rfl, hq, hkey⟩ := exists_of_at?_eq_none hnone
    have hdeepest := deepest_of_member?_eq_none hq hkey rest
    refine ⟨⟨q, hdeepest⟩, fun q' hq' => ?_⟩
    rw [hq'.eq hdeepest]
    exact at?_merge_of_eq_none hq hkey

/-- A field beside another one, an object in the place of a text, and what is gone with that text. -/
theorem merge_overrides_page :
    let target : Json := .object [("meta".toList, .object [("layout".toList, .string "wide".toList),
      ("role".toList, .string "guest".toList)]), ("title".toList, .object [("size".toList, .bool true)])]
    let source : Json := .object [("meta".toList, .object [("role".toList, .null)]), ("title".toList, .bool false)]
    source.at? ["meta".toList, "role".toList] = some .null ∧
      (merge target source).at? ["meta".toList, "role".toList] = some .null ∧
      source.Deepest ["meta".toList, "layout".toList] ["meta".toList] ∧
      (merge target source).at? ["meta".toList, "layout".toList] = some (.string "wide".toList) ∧
      source.Deepest ["title".toList, "size".toList] ["title".toList] ∧
      (merge target source).at? ["title".toList, "size".toList] = none ∧
      source.Ordered ∧ merge (merge target source) source = merge target source := by
  intro target source
  obtain ⟨h, htwice⟩ := merge_overrides target source
  have hmeta : source.Deepest ["meta".toList, "layout".toList] ["meta".toList] :=
    deepest_of_member?_eq_none (q := ["meta".toList]) (w := .object [("role".toList, .null)]) rfl rfl []
  have htitle : source.Deepest ["title".toList, "size".toList] ["title".toList] :=
    deepest_of_member?_eq_none (q := ["title".toList]) (w := .bool false) rfl rfl []
  have hordered : source.Ordered := by
    refine .object _ (List.pairwise_pair.2 (by decide)) fun e he => ?_
    rcases List.mem_pair.1 he with rfl | rfl
    · refine .object _ (List.pairwise_singleton _ _) fun e he => ?_
      rw [List.mem_singleton.1 he]
      exact .null
    · exact .bool false
  exact ⟨rfl, h.value _ _ rfl rfl, hmeta, (h.absent _ rfl).2 _ hmeta, htitle, (h.absent _ rfl).2 _ htitle, hordered,
    (htwice hordered).1⟩

end Json

end RouteTable
