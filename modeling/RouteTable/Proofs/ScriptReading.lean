import RouteTable.Proofs.Literals
import RouteTable.Route.Script

namespace RouteTable

inductive Forest.Forall₂ {α β : Type} (R : α → β → Prop) : Forest α → Forest β → Prop
  | nil : Forall₂ R .nil .nil
  | cons {x : α} {y : β} {below after : Forest α} {below' after' : Forest β} (label : R x y)
      (hbelow : Forall₂ R below below') (hafter : Forall₂ R after after') :
      Forall₂ R (.cons x below after) (.cons y below' after')

namespace Script

open Json Number

def written? (fields : Fields) (key : Text) : Option Json := (fields.get? key).filter fun value => !value.isNull

def writtenFields (fields : Fields) : Fields := (fieldOrder fields).filter fun e => !e.2.isNull

def entry (tab : Text) (e : Text × Json) : Text := member tab (propertyKey e.1) e.2.compact

def optionalMember (tab key : Text) (value : Text → Text) : Option Text → Text
  | some s => member tab (propertyKey key) (value s)
  | none => []

def importOf (path : Text) : Text := "() => import(".toList ++ quoted path ++ [')']

end Script

namespace Route

/-- Fields are a map, and none of them has the key of another member of the route. -/
structure Writable (route : Route) : Prop where
  ordered : Dict.Ordered route.fields
  unreserved : ∀ e ∈ route.fields, Mixin.isReserved e.1 = false

instance (route : Route) : Decidable route.Writable :=
  have : Decidable (Dict.Ordered route.fields) :=
    inferInstanceAs (Decidable (route.fields.Pairwise fun a b => Order.text a.1 b.1 = .lt))
  decidable_of_iff (Dict.Ordered route.fields ∧ ∀ e ∈ route.fields, Mixin.isReserved e.1 = false)
    ⟨fun h => ⟨h.1, h.2⟩, fun h => ⟨h.1, h.2⟩⟩

/-- Routes that differ in their origins and in fields that are null, at most. -/
structure Agrees (route route' : Route) : Prop where
  name : route.name = route'.name
  path : route.path = route'.path
  component : route.component = route'.component
  fields : ∀ key, Option.Rel Json.Agrees (Script.written? route.fields key) (Script.written? route'.fields key)

end Route

namespace Script

open Json Number

section Fields

variable {fields fields' : Fields}

theorem mem_writtenFields (h : Dict.Ordered fields) (e : Text × Json) :
    e ∈ writtenFields fields ↔ written? fields e.1 = some e.2 := by
  have hget : e ∈ fieldOrder fields ↔ fields.get? e.1 = some e.2 := by
    rw [fieldOrder, List.mem_append, List.mem_filterMap, List.mem_filter]
    constructor
    · rintro (⟨key, _, hkey⟩ | ⟨he, _⟩)
      · obtain ⟨value, hvalue, rfl⟩ := Option.map_eq_some_iff.1 hkey
        exact hvalue
      · exact h.get?_of_mem he
    · intro he
      by_cases hlead : e.1 ∈ leadingFields
      · exact .inl ⟨e.1, hlead, by rw [he]; rfl⟩
      · exact .inr ⟨Dict.mem_of_get?_eq_some he, by simpa using hlead⟩
  rw [writtenFields, List.mem_filter, hget, written?, Option.filter_eq_some_iff]

theorem get?_writtenFields (h : Dict.Ordered fields) (key : Text) :
    (writtenFields fields).get? key = written? fields key := by
  refine Option.ext fun value => ⟨fun hvalue => ?_, fun hvalue => ?_⟩
  · exact (mem_writtenFields h (key, value)).1 (Dict.mem_of_get?_eq_some hvalue)
  · obtain ⟨value', hvalue'⟩ := Dict.exists_get?_of_mem ((mem_writtenFields h (key, value)).2 hvalue)
    have hwritten := (mem_writtenFields h (key, value')).1 (Dict.mem_of_get?_eq_some hvalue')
    rw [hvalue', ← hwritten, hvalue]

theorem rel_get?_of_forall₂ (h : List.Forall₂ AgreesAt fields fields') (key : Text) :
    Option.Rel Json.Agrees (fields.get? key) (fields'.get? key) := by
  induction h with
  | nil => exact .none
  | @cons e e' _ _ he _ ih =>
      obtain ⟨k, value⟩ := e
      obtain ⟨k', value'⟩ := e'
      obtain ⟨rfl, hvalue⟩ : k = k' ∧ Json.Agrees value value' := he
      rw [Dict.get?, Dict.get?]
      split
      · exact .some hvalue
      · exact ih

theorem flatMap_field (tab : Text) (fields : Fields) :
    (fieldOrder fields).flatMap (field tab) = (writtenFields fields).flatMap (entry tab) := by
  rw [writtenFields]
  induction fieldOrder fields with
  | nil => rfl
  | cons e fields ih =>
      rw [List.flatMap_cons, ih, List.filter_cons, field]
      cases e.2.isNull with
      | false => rfl
      | true => rfl

end Fields

section Members

variable {tab key key' value value' rest rest' : Text} {P Q : Text → Prop}

theorem propertyKey_cases (key : Text) :
    propertyKey key = quoted key ∨ propertyKey key = key ∧ key.all isKeyChar ∧ key ≠ [] := by
  cases key with
  | nil => exact .inl rfl
  | cons c key =>
      rw [propertyKey]
      split
      · next hbare =>
          rw [Bool.and_eq_true] at hbare
          have hc : isKeyChar c := by
            have hstart := hbare.1
            simp only [isKeyStart, isKeyChar, Char.isAlphanum, Bool.or_eq_true] at hstart ⊢
            tauto
          exact .inr ⟨rfl, by rw [List.all_cons, hc, hbare.2]; rfl, List.cons_ne_nil c key⟩
      · exact .inl rfl

theorem quoted_append_ne {s : Text} (hs : s.all isKeyChar) (hne : s ≠ []) : quoted key ++ rest ≠ s ++ rest' := by
  obtain ⟨c, s, rfl⟩ := List.exists_cons_of_ne_nil hne
  intro h
  have hc : '"' = c := (List.cons.inj h).1
  rw [List.all_cons, ← hc] at hs
  exact absurd hs (by simp [isKeyChar])

theorem propertyKey_append_inj (h : propertyKey key ++ ':' :: rest = propertyKey key' ++ ':' :: rest') :
    key = key' ∧ rest = rest' := by
  have hstop : ∀ rest : Text, ∀ c ∈ (':' :: rest).head?, isKeyChar c = false := by
    intro rest c hc
    cases hc
    decide
  rcases propertyKey_cases key with hk | ⟨hk, hall, hne⟩
  · rcases propertyKey_cases key' with hk' | ⟨hk', hall', hne'⟩
    · rw [hk, hk'] at h
      obtain ⟨hkey, hrest⟩ := quoted_append_inj h
      exact ⟨hkey, (List.cons.inj hrest).2⟩
    · rw [hk, hk'] at h
      exact absurd h (quoted_append_ne hall' hne')
  · rcases propertyKey_cases key' with hk' | ⟨hk', hall', _⟩
    · rw [hk, hk'] at h
      exact absurd h.symm (quoted_append_ne hall hne)
    · rw [hk, hk'] at h
      obtain ⟨hkey, hrest⟩ := Text.append_inj_of_all hall hall' (hstop rest) (hstop rest') h
      exact ⟨hkey, (List.cons.inj hrest).2⟩

theorem member_append_inj
    (h : member tab (propertyKey key) value ++ rest = member tab (propertyKey key') value' ++ rest') :
    key = key' ∧ value ++ rest = value' ++ rest' := by
  simp only [member, List.append_assoc] at h
  have hmember := List.append_cancel_left (List.append_cancel_left h)
  obtain ⟨hkey, hvalue⟩ := propertyKey_append_inj hmember
  exact ⟨hkey, (List.cons.inj hvalue).2⟩

def Follows (P : Text → Prop) (tab rest : Text) : Prop :=
  (∃ s, rest = '\n' :: s) ∨ ∃ key value s, P key ∧ rest = member tab (propertyKey key) value ++ s

namespace Follows

theorem stops (h : Follows P tab rest) : Stops rest := by
  rcases h with ⟨s, rfl⟩ | ⟨key, value, s, _, rfl⟩
  · exact stops_cons rfl
  · exact stops_cons rfl

theorem mono (h : Follows P tab rest) (hpq : ∀ key, P key → Q key) : Follows Q tab rest := by
  rcases h with hend | ⟨key, value, s, hkey, hrest⟩
  · exact .inl hend
  · exact .inr ⟨key, value, s, hpq key hkey, hrest⟩

theorem ne_member (h : Follows P tab rest) (hkey : ¬P key) : rest ≠ member tab (propertyKey key) value ++ rest' := by
  rintro rfl
  rcases h with ⟨s, hs⟩ | ⟨key', value', s, hkey', hs⟩
  · cases (List.cons.inj hs).1
  · exact hkey ((member_append_inj hs).1 ▸ hkey')

theorem optionalMember (h : Follows P tab rest) (hkey : P key) (f : Text → Text) (o : Option Text) :
    Follows P tab (optionalMember tab key f o ++ rest) := by
  cases o with
  | none => exact h
  | some s => exact .inr ⟨key, f s, rest, hkey, rfl⟩

theorem entries {fields : Fields} (h : Follows P tab rest) (hkeys : ∀ e ∈ fields, P e.1) :
    Follows P tab (fields.flatMap (entry tab) ++ rest) := by
  cases fields with
  | nil => exact h
  | cons e fields =>
      refine .inr ⟨e.1, e.2.compact, fields.flatMap (entry tab) ++ rest, hkeys e List.mem_cons_self, ?_⟩
      rw [List.flatMap_cons, List.append_assoc, entry]

theorem stops_entries {fields : Fields} (h : Follows P tab rest) : Stops (fields.flatMap (entry tab) ++ rest) := by
  have hany : Follows (fun _ => True) tab rest := h.mono fun _ _ => trivial
  apply (hany.entries _).stops
  intro _ _
  trivial

end Follows

theorem optionalMember_append_inj {f : Text → Text} {o o' : Option Text}
    (hread : ∀ s t u u', f s ++ u = f t ++ u' → s = t ∧ u = u') (hkey : ¬P key) (hrest : Follows P tab rest)
    (hrest' : Follows P tab rest')
    (h : optionalMember tab key f o ++ rest = optionalMember tab key f o' ++ rest') : o = o' ∧ rest = rest' := by
  cases o with
  | none =>
      cases o' with
      | none => exact ⟨rfl, h⟩
      | some t => exact absurd h (hrest.ne_member hkey)
  | some s =>
      cases o' with
      | none => exact absurd h.symm (hrest'.ne_member hkey)
      | some t =>
          obtain ⟨rfl, hend⟩ := hread s t rest rest' (member_append_inj h).2
          exact ⟨rfl, hend⟩

-- The front is a variable: a literal in its place would be unfolded to cancel it.
theorem between_append_inj {front : Text} {close : Char} {s t : Text}
    (h : front ++ quoted s ++ [close] ++ rest = front ++ quoted t ++ [close] ++ rest') : s = t ∧ rest = rest' := by
  simp only [List.append_assoc, List.append_cancel_left_eq] at h
  obtain ⟨hquoted, hend⟩ := quoted_append_inj h
  exact ⟨hquoted, (List.cons.inj hend).2⟩

theorem importOf_append_inj {s t : Text} (h : importOf s ++ rest = importOf t ++ rest') : s = t ∧ rest = rest' :=
  between_append_inj h

theorem entries_append_inj {fields fields' : Fields} (hkeys : ∀ e ∈ fields, ¬P e.1) (hkeys' : ∀ e ∈ fields', ¬P e.1)
    (hrest : Follows P tab rest) (hrest' : Follows P tab rest')
    (h : fields.flatMap (entry tab) ++ rest = fields'.flatMap (entry tab) ++ rest') :
    List.Forall₂ AgreesAt fields fields' ∧ rest = rest' := by
  induction fields generalizing fields' with
  | nil =>
      cases fields' with
      | nil => exact ⟨.nil, h⟩
      | cons e fields' =>
          rw [List.flatMap_cons, List.append_assoc] at h
          exact absurd h (hrest.ne_member (hkeys' e List.mem_cons_self))
  | cons e fields ih =>
      cases fields' with
      | nil =>
          rw [List.flatMap_cons, List.append_assoc] at h
          exact absurd h.symm (hrest'.ne_member (hkeys e List.mem_cons_self))
      | cons e' fields' =>
          rw [List.flatMap_cons, List.flatMap_cons, List.append_assoc, List.append_assoc] at h
          obtain ⟨hkey, hvalue⟩ := member_append_inj h
          -- a value that is a number ends only where something else follows
          obtain ⟨hagrees, hfields⟩ := compact_append_inj e.2 e'.2 _ _ hrest.stops_entries hrest'.stops_entries hvalue
          obtain ⟨hall, hend⟩ := ih (fun x hx => hkeys x (List.mem_cons_of_mem e hx))
            (fun x hx => hkeys' x (List.mem_cons_of_mem e' hx)) hfields
          exact ⟨.cons ⟨hkey, hagrees⟩ hall, hend⟩

end Members

theorem component_eq (tab : Text) (path : Option Text) :
    component tab path = optionalMember tab "component".toList importOf path := by
  cases path <;> rfl

theorem name_eq (tab : Text) (name : Option Text) :
    Script.name tab name = optionalMember tab "name".toList quoted name := by
  cases name <;> rfl

def membersOf (tab : Text) (route : Route) : Text :=
  quoted route.path ++ (optionalMember tab "component".toList importOf route.component ++
    ((writtenFields route.fields).flatMap (entry tab) ++ optionalMember tab "name".toList quoted route.name))

def childrenOf (tab : Text) (below : Forest Route) : Text :=
  if below.isEmpty then [] else children tab (below.entries (tab ++ ['\t', '\t']))

def separated (tab : Text) (after : Forest Route) : Text :=
  if after.isEmpty then [] else ",\n".toList ++ after.entries tab

theorem entries_cons (tab rest : Text) (route : Route) (below after : Forest Route) :
    (Forest.cons route below after).entries tab ++ rest =
      (tab ++ "\x7b\n".toList ++ tab ++ "\tpath: ".toList) ++ (membersOf tab route ++
        (childrenOf tab below ++ '\n' :: (tab ++ '}' :: (separated tab after ++ rest)))) := by
  simp only [Forest.entries, component_eq, name_eq, flatMap_field, membersOf, childrenOf, separated, List.append_assoc,
    List.cons_append]

section Routes

variable {tab rest rest' : Text} {route route' : Route}

theorem written_unreserved (hroute : route.Writable) : ∀ e ∈ writtenFields route.fields, ¬Mixin.isReserved e.1 := by
  intro e he hreserved
  have hget := (mem_writtenFields hroute.ordered e).1 he
  rw [written?, Option.filter_eq_some_iff] at hget
  have hfree := hroute.unreserved e (Dict.mem_of_get?_eq_some hget.1)
  rw [hreserved] at hfree
  cases hfree

theorem follows_fields (hrest : Follows (· = "children".toList) tab rest) :
    Follows (Mixin.isReserved ·) tab (optionalMember tab "name".toList quoted route.name ++ rest) := by
  apply Follows.optionalMember _ (by decide)
  apply hrest.mono
  rintro _ rfl
  decide

theorem follows_component (hroute : route.Writable) (hrest : Follows (· = "children".toList) tab rest) :
    Follows (· ≠ "component".toList) tab ((writtenFields route.fields).flatMap (entry tab) ++
      (optionalMember tab "name".toList quoted route.name ++ rest)) := by
  apply Follows.entries
  · apply Follows.optionalMember _ (by decide)
    apply hrest.mono
    rintro _ rfl
    decide
  · intro e he hkey
    apply written_unreserved hroute e he
    rw [hkey]
    decide

theorem membersOf_append_inj (hroute : route.Writable) (hroute' : route'.Writable)
    (hrest : Follows (· = "children".toList) tab rest) (hrest' : Follows (· = "children".toList) tab rest')
    (h : membersOf tab route ++ rest = membersOf tab route' ++ rest') : route.Agrees route' ∧ rest = rest' := by
  simp only [membersOf, List.append_assoc] at h
  obtain ⟨hpath, h⟩ := quoted_append_inj h
  obtain ⟨hcomponent, h⟩ := optionalMember_append_inj (fun _ _ _ _ => importOf_append_inj) (by decide)
    (follows_component hroute hrest) (follows_component hroute' hrest') h
  obtain ⟨hfields, h⟩ := entries_append_inj (written_unreserved hroute) (written_unreserved hroute')
    (follows_fields hrest) (follows_fields hrest') h
  obtain ⟨hname, hend⟩ := optionalMember_append_inj (fun _ _ _ _ => quoted_append_inj) (by decide) hrest hrest' h
  refine ⟨⟨hname, hpath, hcomponent, fun key => ?_⟩, hend⟩
  rw [← get?_writtenFields hroute.ordered, ← get?_writtenFields hroute'.ordered]
  exact rel_get?_of_forall₂ hfields key

end Routes

section Forests

variable {tab rest rest' : Text} {f g : Forest Route}

/-- From the entries of `f` with a line behind them, all that a script says of `f` can be read back. -/
def Reads (tab : Text) (f : Forest Route) : Prop :=
  ∀ (g : Forest Route) (rest rest' : Text), (∀ route ∈ g.labels, route.Writable) →
    f.entries tab ++ '\n' :: rest = g.entries tab ++ '\n' :: rest' → Forest.Forall₂ Route.Agrees f g ∧ rest = rest'

theorem follows_childrenOf (tab rest : Text) (below : Forest Route) :
    Follows (· = "children".toList) tab (childrenOf tab below ++ '\n' :: rest) := by
  cases below with
  | nil => exact .inl ⟨rest, rfl⟩
  | cons route below after => exact .inr ⟨"children".toList, _, '\n' :: rest, rfl, rfl⟩

theorem childrenOf_cons (tab : Text) (route : Route) (below after : Forest Route) :
    childrenOf tab (.cons route below after) = member tab (propertyKey "children".toList)
      ("[\n".toList ++ (Forest.cons route below after).entries (tab ++ ['\t', '\t']) ++ "\n\t".toList ++ tab ++
        [']']) :=
  rfl

theorem childrenOf_append_inj (hread : Reads (tab ++ ['\t', '\t']) f) (hg : ∀ route ∈ g.labels, route.Writable)
    (h : childrenOf tab f ++ '\n' :: rest = childrenOf tab g ++ '\n' :: rest') :
    Forest.Forall₂ Route.Agrees f g ∧ rest = rest' := by
  cases f with
  | nil =>
      cases g with
      | nil => exact ⟨.nil, (List.cons.inj h).2⟩
      | cons _ _ _ => cases (List.cons.inj h).1
  | cons _ _ _ =>
      cases g with
      | nil => cases (List.cons.inj h).1
      | cons _ _ _ =>
          rw [childrenOf_cons, childrenOf_cons] at h
          obtain ⟨_, hvalue⟩ := member_append_inj h
          simp only [List.append_assoc, List.append_cancel_left_eq] at hvalue
          obtain ⟨hbelow, hclose⟩ := hread _ _ _ hg hvalue
          have hbehind : tab ++ ']' :: '\n' :: rest = tab ++ ']' :: '\n' :: rest' := (List.cons.inj hclose).2
          exact ⟨hbelow, (List.cons.inj (List.cons.inj (List.append_cancel_left hbehind)).2).2⟩

theorem separated_cons (tab : Text) (route : Route) (below after : Forest Route) :
    separated tab (.cons route below after) = ",\n".toList ++ (Forest.cons route below after).entries tab :=
  rfl

theorem separated_append_inj (hread : Reads tab f) (hg : ∀ route ∈ g.labels, route.Writable)
    (h : separated tab f ++ '\n' :: rest = separated tab g ++ '\n' :: rest') :
    Forest.Forall₂ Route.Agrees f g ∧ rest = rest' := by
  cases f with
  | nil =>
      cases g with
      | nil => exact ⟨.nil, (List.cons.inj h).2⟩
      | cons _ _ _ => cases (List.cons.inj h).1
  | cons _ _ _ =>
      cases g with
      | nil => cases (List.cons.inj h).1
      | cons _ _ _ =>
          rw [separated_cons, separated_cons, List.append_assoc, List.append_assoc] at h
          exact hread _ _ _ hg (List.append_cancel_left h)

theorem newline_ne_entries (htab : '\n' ∉ tab) (route : Route) (below after : Forest Route) :
    '\n' :: rest ≠ (Forest.cons route below after).entries tab ++ rest' := by
  rw [entries_cons]
  cases tab with
  | nil => exact fun h => by cases (List.cons.inj h).1
  | cons c tab =>
      intro h
      have hc : '\n' = c := (List.cons.inj h).1
      exact htab (hc ▸ List.mem_cons_self)

theorem reads (hf : ∀ route ∈ f.labels, route.Writable) (htab : '\n' ∉ tab) : Reads tab f := by
  -- on the forest: children are indented deeper, so the tab varies
  induction f generalizing tab with
  | nil =>
      intro g rest rest' _ h
      cases g with
      | nil => exact ⟨.nil, (List.cons.inj h).2⟩
      | cons _ _ _ => exact absurd h (newline_ne_entries htab _ _ _)
  | cons route below after ihbelow ihafter =>
      intro g rest rest' hg h
      cases g with
      | nil => exact absurd h.symm (newline_ne_entries htab _ _ _)
      | cons route' below' after' =>
          simp only [Forest.labels, List.forall_mem_cons, List.forall_mem_append] at hf hg
          obtain ⟨hroute, hbelow, hafter⟩ := hf
          obtain ⟨hroute', hbelow', hafter'⟩ := hg
          rw [entries_cons, entries_cons] at h
          obtain ⟨hagrees, hmembers⟩ := membersOf_append_inj hroute hroute' (follows_childrenOf _ _ _)
            (follows_childrenOf _ _ _) (List.append_cancel_left h)
          have hdeeper : '\n' ∉ tab ++ ['\t', '\t'] := by
            rw [List.mem_append, not_or]
            exact ⟨htab, by decide⟩
          obtain ⟨hkids, hclose⟩ := childrenOf_append_inj (ihbelow hbelow hdeeper) hbelow' hmembers
          obtain ⟨hothers, hend⟩ := separated_append_inj (ihafter hafter htab) hafter'
            (List.cons.inj (List.append_cancel_left hclose)).2
          exact ⟨.cons hagrees hkids hothers, hend⟩

theorem agrees_of_append_eq {front back : Text} (hf : ∀ route ∈ f.labels, route.Writable)
    (hg : ∀ route ∈ g.labels, route.Writable) (htab : '\n' ∉ tab)
    (h : front ++ f.entries tab ++ '\n' :: back = front ++ g.entries tab ++ '\n' :: back) :
    Forest.Forall₂ Route.Agrees f g := by
  simp only [List.append_assoc, List.append_cancel_left_eq] at h
  exact (reads hf htab g back back hg h).1

end Forests

end Script

namespace Forest

/-- Route tables of one script agree, and no text of a script breaks out of its quotes. -/
theorem agrees_of_script_eq {f g : Forest Route} (hf : ∀ route ∈ f.labels, route.Writable)
    (hg : ∀ route ∈ g.labels, route.Writable) (h : f.script = g.script) :
    Forall₂ Route.Agrees f g ∧ ∀ s rest, Json.readLiteral? (Json.quoted s ++ rest) = some (s, rest) := by
  have htab : '\n' ∉ ['\t'] := by decide
  exact ⟨Script.agrees_of_append_eq hf hg htab h, Json.readLiteral?_quoted⟩

theorem agrees_of_script_eq_users :
    let child : Route := ⟨none, ":id".toList, some "_id.vue".toList, [], ⟨["users".toList, ":id".toList], 1⟩⟩
    let route : Route :=
      ⟨some "users".toList, "/users".toList, none, [("props".toList, .bool true)], ⟨["users".toList], 0⟩⟩
    let route' : Route := { route with fields := ("alias".toList, .null) :: route.fields, origin := ⟨[], 0⟩ }
    let f : Forest Route := .cons route (.cons child .nil .nil) .nil
    let g : Forest Route := .cons route' (.cons child .nil .nil) .nil
    f.script = g.script ∧ Forall₂ Route.Agrees f g := by
  refine ⟨?hscript, (agrees_of_script_eq ?hf ?hg ?hscript).1⟩
  case hscript => rfl
  case hf => decide
  case hg => decide

end Forest

end RouteTable
