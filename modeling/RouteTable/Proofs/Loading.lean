import RouteTable.Proofs.MixinFields
import RouteTable.Proofs.Overrides
import RouteTable.Session

namespace RouteTable

namespace Except

variable {α β ε : Type} {failure : ε} {b c : β}

theorem bind_eq_ok {result : Except ε α} {next : α → Except ε β} :
    (result >>= next) = .ok b ↔ ∃ a, result = .ok a ∧ next a = .ok b := by
  cases result with
  | error failure => exact iff_of_false (fun h => nomatch h) fun ⟨_, h, _⟩ => nomatch h
  | ok a => exact ⟨fun h => ⟨a, rfl, h⟩, fun ⟨_, h, hnext⟩ => Except.ok.inj h ▸ hnext⟩

theorem bind_eq_error {result : Except ε α} {next : α → Except ε β} (h : (result >>= next) = .error failure) :
    result = .error failure ∨ ∃ a, result = .ok a ∧ next a = .error failure := by
  cases result with
  | error other =>
      cases h
      exact .inl rfl
  | ok a => exact .inr ⟨a, rfl, h⟩

theorem foldlM_induction {p : β → Prop} {step : β → α → Except ε β}
    (hstep : ∀ b a b', p b → step b a = .ok b' → p b') {l : List α} (hb : p b) (h : l.foldlM step b = .ok c) : p c := by
  induction l generalizing b with
  | nil =>
      cases h
      exact hb
  | cons a l ih =>
      rw [List.foldlM_cons] at h
      obtain ⟨b', hb', h⟩ := bind_eq_ok.1 h
      exact ih (hstep b a b' hb hb') h

end Except

namespace Toml.Value

mutual

theorem ordered_toJson : (value : Value) → value.toJson.Ordered
  | string s => .string s
  | integer n => .number (.integer n)
  | float (.finite x) => .number (.float x)
  | float (.infinite _) | float .notANumber => .null
  | boolean b => .bool b
  | datetime d =>
      .object d.toObject (List.pairwise_singleton _ _) fun _ he => List.mem_singleton.1 he ▸ .string d.text
  | array items => .array (itemsToJson items) (ordered_itemsToJson items)
  | table entries => .object (entriesToJson entries) (ordered_entriesToJson entries).1 (ordered_entriesToJson entries).2

theorem ordered_itemsToJson : (items : List Value) → ∀ item ∈ itemsToJson items, item.Ordered
  | [] => List.forall_mem_nil _
  | value :: items => List.forall_mem_cons.2 ⟨ordered_toJson value, ordered_itemsToJson items⟩

theorem ordered_entriesToJson :
    (entries : Table) → Dict.Ordered (entriesToJson entries) ∧ ∀ e ∈ entriesToJson entries, e.2.Ordered
  | [] => ⟨List.Pairwise.nil, List.forall_mem_nil _⟩
  | (key, value) :: entries =>
      have ⟨hkeys, hmembers⟩ := ordered_entriesToJson entries
      ⟨hkeys.insert key _, Dict.forall_mem_insert (ordered_toJson value) hmembers key⟩

end

end Toml.Value

open Toml

namespace MixinSet

variable {mixins : MixinSet} {fields : Fields} {v : Value}

/-- Every object in every mixin is in key order. -/
def AllOrdered (mixins : MixinSet) : Prop := ∀ e ∈ mixins, (Json.object e.2).Ordered

theorem AllOrdered.fieldsOf (h : mixins.AllOrdered) (name : Text) :
    (Json.object (Mixin.fieldsOf mixins name)).Ordered := by
  rw [Mixin.fieldsOf]
  cases hget : mixins.get? name with
  | none => exact .object [] List.Pairwise.nil (List.forall_mem_nil _)
  | some fields => exact h _ (Dict.mem_of_get?_eq_some hget)

theorem AllOrdered.wellFormed (h : mixins.AllOrdered) : Mixin.WellFormed mixins := by
  intro name fields hget
  cases h _ (Dict.mem_of_get?_eq_some hget) with
  | object _ hkeys _ => exact hkeys

theorem AllOrdered.insert (h : mixins.AllOrdered) (hfields : (Json.object fields).Ordered) (name : Text) :
    AllOrdered (Dict.insert name fields mixins) :=
  Dict.forall_mem_insert (p := fun fields => (Json.object fields).Ordered) hfields h name

theorem AllOrdered.add (h : mixins.AllOrdered) {value : Json} (hvalue : value.Ordered) (name : Text) :
    (mixins.add name value).AllOrdered := by
  rw [MixinSet.add]
  cases hvalue with
  | object members hkeys hmembers => exact h.insert (.object members hkeys hmembers) name
  | null | bool | number | string | array => exact h

theorem ordered_readFields (h : readFields v = .ok fields) : (Json.object fields).Ordered := by
  rw [readFields] at h
  split at h
  · next entries _ =>
      cases h
      obtain ⟨hkeys, hmembers⟩ := Value.ordered_entriesToJson entries
      exact .object _ hkeys hmembers
  · cases h

theorem allOrdered_read (h : read v = .ok mixins) : mixins.AllOrdered := by
  rw [read] at h
  split at h
  · refine Except.foldlM_induction (p := AllOrdered) ?_ (List.forall_mem_nil _) h
    intro mixins e mixins' hmixins hstep
    obtain ⟨fields, hfields, hinsert⟩ := Except.bind_eq_ok.1 hstep
    cases hinsert
    exact AllOrdered.insert hmixins (ordered_readFields hfields) e.1
  · cases h

end MixinSet

namespace Config

variable {fs : FileSystem} {path text : Text} {table : Table} {config : Config}

theorem allOrdered_defaults : defaults.mixins.AllOrdered := List.forall_mem_nil _

theorem allOrdered_ofTable (h : ofTable table = .ok config) : config.mixins.AllOrdered := by
  rw [ofTable] at h
  refine Except.foldlM_induction (p := fun config : Config => config.mixins.AllOrdered) ?_ allOrdered_defaults h
  intro config e config' hconfig hstep
  split at hstep
  · obtain ⟨routing, _, hset⟩ := Except.bind_eq_ok.1 hstep
    cases hset
    exact hconfig
  · split at hstep
    · obtain ⟨mixins, hmixins, hset⟩ := Except.bind_eq_ok.1 hstep
      cases hset
      exact MixinSet.allOrdered_read hmixins
    · cases hstep
      exact hconfig

theorem allOrdered_read (h : read text = .ok config) : config.mixins.AllOrdered := by
  rw [read] at h
  split at h
  · cases h
    exact allOrdered_defaults
  · split at h
    · exact allOrdered_ofTable h
    · cases h

theorem allOrdered_load (h : load fs path = .ok config) : config.mixins.AllOrdered := by
  rw [load] at h
  split at h
  · cases h
    exact allOrdered_defaults
  · split at h
    · next text _ =>
        cases hread : read text with
        | error cause =>
            rw [hread] at h
            cases h
        | ok loaded =>
            rw [hread] at h
            cases h
            exact allOrdered_read hread
    · cases h

end Config

namespace Mixin

variable {mixins : MixinSet} {fields : Fields}

theorem ordered_allowed (h : (Json.object fields).Ordered) : (Json.object (allowed fields)).Ordered := by
  cases h with
  | object _ hkeys hmembers =>
      exact .object _ (hkeys.sublist List.filter_sublist) fun e he => hmembers e (List.mem_of_mem_filter he)

theorem ordered_mergeMembers_allowed (h : mixins.AllOrdered) (hfields : (Json.object fields).Ordered) (name : Text) :
    (Json.object (Json.mergeMembers fields (allowed (fieldsOf mixins name)))).Ordered := by
  have hmerged := (ordered_allowed (h.fieldsOf name)).merge hfields
  rwa [Json.merge] at hmerged

theorem ordered_fields_apply (h : mixins.AllOrdered) (names : List Text) (hfields : (Json.object fields).Ordered) :
    (Json.object (apply mixins fields names)).Ordered := by
  induction names generalizing fields with
  | nil => exact hfields
  | cons name names ih => exact ih (ordered_mergeMembers_allowed h hfields name)

/-- A mixin that is named again at once adds nothing, as where a folder and its page name the same one. -/
theorem apply_repeated (h : mixins.AllOrdered) (fields : Fields) (front : List Text) (name : Text) (rest : List Text) :
    apply mixins fields (front ++ name :: name :: rest) = apply mixins fields (front ++ name :: rest) := by
  have hvalues : ∀ e ∈ allowed (fieldsOf mixins name), ∀ target, Json.merge (Json.merge target e.2) e.2 =
      Json.merge target e.2 := by
    cases ordered_allowed (h.fieldsOf name) with
    | object _ _ hmembers => exact fun e he => Json.merge_merge (hmembers e he)
  rw [apply, apply, List.foldl_append, List.foldl_append, List.foldl_cons, List.foldl_cons, List.foldl_cons,
    Json.mergeMembers_mergeMembers hvalues]

end Mixin

namespace Session

variable {fs : FileSystem} {invocation : Invocation} {config : Config}

theorem allOrdered_effectiveConfig (h : effectiveConfig fs invocation = .ok config) : config.mixins.AllOrdered := by
  rw [effectiveConfig] at h
  cases hload : Config.load fs invocation.configPath with
  | error failure =>
      rw [hload] at h
      cases h
  | ok loaded =>
      rw [hload] at h
      cases h
      have hmixins := Config.allOrdered_load hload
      exact hmixins

/-- Whatever the configuration file says, the fields of every route are in key order, and the reserved fields of the
mixins in it are reported page by page. -/
theorem mixes_of_effectiveConfig (h : effectiveConfig fs invocation = .ok config) (files : List Text) :
    (∀ r ∈ (compile config.compileOptions files).routes.labels, (Json.object r.fields).Ordered) ∧
      (compile config.compileOptions files).warnings.filter Warning.isReservedMixinField =
        (Compilation.inOrder (Compilation.pagesOf config.compileOptions files)).flatMap
          (Page.reservedFields config.mixins) := by
  have hmixins := allOrdered_effectiveConfig h
  refine ⟨fun r hr => ?_, Compilation.filter_isReservedMixinField_warnings hmixins.wellFormed files⟩
  have hshown := (Compilation.map_shown_compile config.compileOptions files).mem_iff.1 (List.mem_map_of_mem hr)
  obtain ⟨page, _, hpage⟩ := List.mem_map.1 hshown
  obtain ⟨_, hrest⟩ := Prod.mk.inj hpage
  rw [← (Prod.mk.inj hrest).2]
  exact Mixin.ordered_fields_apply hmixins page.tokens (.object [] List.Pairwise.nil (List.forall_mem_nil _))

end Session

end RouteTable
