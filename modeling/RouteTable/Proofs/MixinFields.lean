import RouteTable.Proofs.Coverage

namespace RouteTable

namespace Dict

variable {β : Type} {d : Dict β} {k : Text}

theorem mem_keys_iff : k ∈ d.keys ↔ (d.get? k).isSome = true := by
  constructor
  · intro h
    obtain ⟨e, he, rfl⟩ := List.mem_map.1 h
    obtain ⟨x, hx⟩ := exists_get?_of_mem he
    rw [hx]
    rfl
  · intro h
    obtain ⟨x, hx⟩ := Option.isSome_iff_exists.1 h
    exact List.mem_map_of_mem (mem_of_get?_eq_some hx)

theorem Ordered.keys_pairwise (h : Ordered d) : d.keys.Pairwise fun a b => Order.text a b = .lt := List.pairwise_map.2 h

theorem Ordered.nodup_keys (h : Ordered d) : d.keys.Nodup := by
  refine h.keys_pairwise.imp fun hlt he => ?_
  rw [he, Order.text_self] at hlt
  cases hlt

theorem get?_filter_key (p : Text → Bool) (d : Dict β) (k : Text) :
    Dict.get? k (d.filter fun e => p e.1) = if p k then d.get? k else none := by
  induction d with
  | nil => exact (ite_self none).symm
  | cons e d ih =>
      rw [List.filter_cons]
      by_cases hk : e.1 = k
      · subst hk
        by_cases hp : p e.1
        · simp [hp, get?]
        · simp [hp, ih]
      · by_cases hp : p e.1
        · simpa [hp, get?, hk] using ih
        · simpa [hp, get?, hk] using ih

theorem eq_of_pairwise_of_mem_iff {ks ks' : List Text} (h : ks.Pairwise fun a b => Order.text a b = .lt)
    (h' : ks'.Pairwise fun a b => Order.text a b = .lt) (hmem : ∀ k, k ∈ ks ↔ k ∈ ks') : ks = ks' := by
  have : Std.Irrefl fun a b => Order.text a b = .lt := ⟨fun a => by simp [Order.text_self]⟩
  have : Std.Antisymm fun a b => Order.text a b = .lt :=
    ⟨fun a b hab hba => absurd hba (Std.OrientedCmp.not_lt_of_lt hab)⟩
  exact h.eq_of_mem_iff h' hmem

end Dict

def Page.tokens (page : Page) : List Text := page.keys.flatMap fun raw => (Text.words raw).tail

namespace Mixin

variable {mixins : MixinSet} {fields : Fields} {key : Text}

def valueAfter (key : Text) (value : Option Json) (fields : Fields) : Option Json :=
  match fields.get? key with
  | some new => some (Json.merge (value.getD .null) new)
  | none => value

/-- What the named mixins make of a field, one after another. -/
def valueOf (mixins : MixinSet) (tokens : List Text) (key : Text) : Option Json :=
  if isReserved key then none
  else tokens.foldl (fun value token => valueAfter key value (fieldsOf mixins token)) none

/-- The reserved keys among the fields of a mixin, in key order. -/
def reservedIn (fields : Fields) : List Text :=
  ["children".toList, "component".toList, "name".toList, "path".toList].filter fun key => (fields.get? key).isSome

theorem isReserved_iff : isReserved key = true ↔
    key ∈ ["children".toList, "component".toList, "name".toList, "path".toList] := by
  simp only [isReserved, reserved, List.contains_iff_mem, List.mem_cons, List.not_mem_nil, or_false]
  tauto

theorem get?_mergeMembers_allowed (h : isReserved key = false) (fields new : Fields) :
    (Json.mergeMembers fields (allowed new)).get? key = valueAfter key (fields.get? key) new := by
  rw [Json.get?_mergeMembers, allowed, Dict.get?_filter_key (fun k => !isReserved k), h]
  rfl

theorem get?_apply_of_not_isReserved (h : isReserved key = false) (mixins : MixinSet) (fields : Fields)
    (names : List Text) : (apply mixins fields names).get? key =
      names.foldl (fun value name => valueAfter key value (fieldsOf mixins name)) (fields.get? key) := by
  induction names generalizing fields with
  | nil => rfl
  | cons name names ih =>
      rw [List.foldl_cons, ← get?_mergeMembers_allowed h]
      exact ih _

theorem get?_apply_nil (mixins : MixinSet) (names : List Text) (key : Text) :
    (apply mixins [] names).get? key = valueOf mixins names key := by
  by_cases h : isReserved key = true
  · rw [get?_apply_of_isReserved h, valueOf, if_pos h]
    rfl
  · rw [get?_apply_of_not_isReserved (by simpa using h), valueOf, if_neg h]
    rfl

theorem keys_filter_isReserved (h : Dict.Ordered fields) :
    (fields.filter fun e => isReserved e.1).map Prod.fst = reservedIn fields := by
  have hreserved : (reservedIn fields).Pairwise fun a b => Order.text a b = .lt := by
    refine List.Pairwise.sublist List.filter_sublist ?_
    decide
  refine Dict.eq_of_pairwise_of_mem_iff (h.keys_pairwise.sublist (List.filter_sublist.map _)) hreserved ?_
  intro k
  have hkey : k ∈ (fields.filter fun e => isReserved e.1).map Prod.fst ↔ _ := Dict.mem_keys_iff
  rw [Dict.get?_filter_key] at hkey
  rw [reservedIn, List.mem_filter, ← isReserved_iff]
  refine hkey.trans ?_
  by_cases hk : isReserved k = true
  · simp [hk]
  · simp [hk]

def WellFormed (mixins : MixinSet) : Prop := ∀ name fields, mixins.get? name = some fields → Dict.Ordered fields

theorem WellFormed.ordered_fieldsOf (h : WellFormed mixins) (name : Text) : Dict.Ordered (fieldsOf mixins name) := by
  cases hget : mixins.get? name with
  | none =>
      rw [fieldsOf, hget]
      exact List.Pairwise.nil
  | some fields =>
      rw [fieldsOf, hget]
      exact h name fields hget

theorem rejected_eq (h : WellFormed mixins) (names : List Text) : rejected mixins names =
    names.flatMap fun name => (reservedIn (fieldsOf mixins name)).map (Rejected.mk name) := by
  refine congrArg (List.flatMap · names) (funext fun name => ?_)
  rw [← keys_filter_isReserved (h.ordered_fieldsOf name), List.map_map]
  rfl

end Mixin

def Warning.isReservedMixinField : Warning → Bool
  | reservedMixinField _ _ _ => true
  | _ => false

namespace Page

variable {mixins : MixinSet} {page : Page} {pages : List Page}

/-- A report for each reserved field of each mixin that the file names, each time that it names it. -/
def reservedFields (mixins : MixinSet) (page : Page) : List Warning :=
  page.tokens.flatMap fun token =>
    (Mixin.reservedIn (Mixin.fieldsOf mixins token)).map fun field => .reservedMixinField page.source token field

theorem tokens_eq (page : Page) : (page.keys.map Segment.ofText).flatMap Segment.mixins = page.tokens := by
  rw [List.flatMap_map, tokens]
  refine congrArg (List.flatMap · page.keys) (funext fun raw => ?_)
  rw [Segment.ofText]
  cases Text.words raw <;> rfl

theorem of_mem_reservedFields {w : Warning} (h : w ∈ page.reservedFields mixins) :
    w.isReservedMixinField = true ∧ w.file = page.source := by
  obtain ⟨token, _, h⟩ := List.mem_flatMap.1 h
  obtain ⟨field, _, rfl⟩ := List.mem_map.1 h
  exact ⟨rfl, rfl⟩

theorem filter_flatMap_reservedFields (hs : pages.Pairwise fun p q => p.source ≠ q.source) (hp : page ∈ pages) :
    (pages.flatMap (reservedFields mixins)).filter (fun w => w.file == page.source) = page.reservedFields mixins := by
  have hothers : ∀ others : List Page, (∀ q ∈ others, q.source ≠ page.source) →
      (others.flatMap (reservedFields mixins)).filter (fun w => w.file == page.source) = [] := by
    intro others hne
    refine List.filter_eq_nil_iff.2 fun w hw => ?_
    obtain ⟨q, hq, hw⟩ := List.mem_flatMap.1 hw
    rw [(of_mem_reservedFields hw).2]
    simpa using hne q hq
  have hown : (page.reservedFields mixins).filter (fun w => w.file == page.source) = page.reservedFields mixins :=
    List.filter_eq_self.2 fun w hw => by simpa using (of_mem_reservedFields hw).2
  obtain ⟨before, after, rfl⟩ := List.append_of_mem hp
  obtain ⟨_, hafter, hbefore⟩ := List.pairwise_append.1 hs
  have hlater := (List.pairwise_cons.1 hafter).1
  rw [List.flatMap_append, List.flatMap_cons, List.filter_append, List.filter_append, hown,
    hothers before fun q hq => hbefore q hq page List.mem_cons_self,
    hothers after fun q hq => (hlater q hq).symm, List.nil_append, List.append_nil]

end Page

namespace Route

variable {r : Route}

def shown (r : Route) : Option Text × List Text × Fields := (r.component, r.origin.keys, r.fields)

/-- The route of a page has the fields that the mixins named in its file add up to, and no member twice. -/
structure Mixes (mixins : MixinSet) (page : Page) (r : Route) : Prop where
  isOf : r.IsOf page
  ordered : Dict.Ordered r.fields
  get?_eq : ∀ key, r.fields.get? key = Mixin.valueOf mixins page.tokens key
  unreserved : ∀ key ∈ Mixin.reserved, key ∉ r.fields.keys
  nodup_members : ∀ children, ((r.members children).map Prod.fst).Nodup

theorem nodup_members (hordered : Dict.Ordered r.fields) (hfields : ∀ key ∈ Mixin.reserved, key ∉ r.fields.keys)
    (children : List Json) : ((r.members children).map Prod.fst).Nodup := by
  have hoptional : ∀ (key : String) (value : Option Text),
      ((optional key value).map Prod.fst).Sublist [key.toList] := by
    intro key value
    cases value with
    | none => exact List.nil_sublist _
    | some text => exact List.Sublist.refl _
  have hchildren : ((if children.isEmpty then [] else [("children".toList, Json.array children)]).map
      Prod.fst).Sublist ["children".toList] := by
    split
    · exact List.nil_sublist _
    · exact List.Sublist.refl _
  have hall : (["name".toList] ++ ["path".toList] ++ ["component".toList] ++ r.fields.keys ++
      ["children".toList]).Nodup := by
    have hown : ∀ key ∈ r.fields.keys, key ∉ Mixin.reserved := fun key hkey hreserved => hfields key hreserved hkey
    refine (List.nodup_append.2 ⟨List.nodup_append.2 ⟨by decide, hordered.nodup_keys, ?_⟩, by decide, ?_⟩)
    · rintro key hkey _ hmem rfl
      exact hown key hmem (by simp only [Mixin.reserved, List.mem_append, List.mem_cons] at hkey ⊢; tauto)
    · rintro key hkey _ hmem rfl
      obtain rfl := List.mem_singleton.1 hmem
      rcases List.mem_append.1 hkey with hkey | hkey
      · exact absurd hkey (by decide)
      · exact hown _ hkey (by decide)
  -- a member of its own that a route lacks is missing in the list, so the full list is enough
  refine hall.sublist ?_
  simp only [members, List.map_append]
  exact ((((hoptional _ _).append (List.Sublist.refl _)).append (hoptional _ _)).append (List.Sublist.refl _)).append
    hchildren

theorem mixes_of_shown_eq {mixins : MixinSet} {page : Page}
    (h : (some page.component, page.routeKeys, Mixin.apply mixins [] page.tokens) = r.shown) : r.Mixes mixins page := by
  obtain ⟨hcomponent, hrest⟩ := Prod.mk.inj h
  obtain ⟨hkeys, hfields⟩ := Prod.mk.inj hrest
  have hordered : Dict.Ordered r.fields := hfields ▸ Mixin.ordered_apply List.Pairwise.nil mixins page.tokens
  have hget : ∀ key, r.fields.get? key = Mixin.valueOf mixins page.tokens key := by
    intro key
    rw [← hfields, Mixin.get?_apply_nil]
  have hunreserved : ∀ key ∈ Mixin.reserved, key ∉ r.fields.keys := by
    intro key hkey hmem
    have hreserved : Mixin.isReserved key = true := List.contains_iff_mem.2 hkey
    rw [Dict.mem_keys_iff, hget, Mixin.valueOf, if_pos hreserved] at hmem
    cases hmem
  exact ⟨⟨hcomponent.symm, hkeys.symm⟩, hordered, hget, hunreserved, nodup_members hordered hunreserved⟩

end Route

namespace Draft

variable {mixins : MixinSet} {draft : Draft} {page : Page}

theorem labels_plant (leaf : Planted) {address : List Text} {above : Option Planted} {siblings f : Forest Planted}
    (h : descend none address f = some (above, siblings)) : (plant leaf address f).labels.Perm (leaf :: f.labels) := by
  obtain ⟨others, hbefore, hafter⟩ := plant_families leaf h
  have hb := f.labels_perm_families.trans (hbefore.flatMap_right Prod.snd)
  have ha := (plant leaf address f).labels_perm_families.trans (hafter.flatMap_right Prod.snd)
  simp only [List.flatMap_cons, List.nil_append] at hb ha
  exact (ha.trans ((Forest.roots_place _ _ _ _).append_right _)).trans (hb.symm.cons leaf)

theorem labels_insert (mixins : MixinSet) (draft : Draft) (page : Page) (hne : page.keys ≠ []) :
    (draft.insert mixins page).routes.labels.Perm
      (routeOf mixins page (Landing.of page.routeKeys draft.forest) :: draft.routes.labels) := by
  have hkeys := Page.routeKeys_ne_nil hne
  obtain ⟨above, siblings, hdescend, _⟩ := Landing.of_underway hkeys draft.forest
  rw [insert_of_keys mixins draft page hne, routes, routes, Forest.labels_map, Forest.labels_map]
  exact (labels_plant _ hdescend).map Planted.route

theorem shown_routeOf (mixins : MixinSet) (page : Page) (landing : Landing) : (routeOf mixins page landing).shown =
    (some page.component, page.routeKeys, Mixin.apply mixins [] page.tokens) := by
  rw [Route.shown, routeOf_keys, ← Page.tokens_eq]
  rfl

theorem map_shown_insertAll (mixins : MixinSet) (pages : List Page) (hkeys : ∀ p ∈ pages, p.keys ≠ []) :
    ((empty.insertAll mixins pages).routes.labels.map Route.shown).Perm
      (pages.map fun page => (some page.component, page.routeKeys, Mixin.apply mixins [] page.tokens)) := by
  refine insertAll_induction mixins pages (motive := fun done draft => (draft.routes.labels.map Route.shown).Perm
    (done.map fun page => (some page.component, page.routeKeys, Mixin.apply mixins [] page.tokens)))
    List.Perm.nil ?_
  intro done page rest draft hpages hdone
  refine ((labels_insert mixins draft page (hkeys page (by simp [hpages]))).map Route.shown).trans ?_
  rw [List.map_cons, shown_routeOf, List.map_append]
  exact (hdone.cons _).trans (List.perm_append_singleton _ _).symm

theorem filter_warningsOf (h : Mixin.WellFormed mixins) (page : Page) (landing : Landing) :
    (warningsOf mixins page landing).filter Warning.isReservedMixinField = page.reservedFields mixins := by
  have hcollision : (if landing.collides then [Warning.nameCollision page.source landing.name] else []).filter
      Warning.isReservedMixinField = [] := by
    split <;> rfl
  have hreserved : (Mixin.rejected mixins page.tokens).map
      (fun r => Warning.reservedMixinField page.source r.mixin r.field) = page.reservedFields mixins := by
    rw [Mixin.rejected_eq h, List.map_flatMap, Page.reservedFields]
    refine congrArg (List.flatMap · page.tokens) (funext fun token => ?_)
    rw [List.map_map]
    rfl
  rw [warningsOf, List.filter_append, hcollision, List.append_nil, Page.tokens_eq, hreserved]
  exact List.filter_eq_self.2 fun w hw => (Page.of_mem_reservedFields hw).1

theorem filter_warnings_insertAll (h : Mixin.WellFormed mixins) (pages : List Page) (hkeys : ∀ p ∈ pages, p.keys ≠ []) :
    (empty.insertAll mixins pages).warnings.filter Warning.isReservedMixinField =
      pages.flatMap (Page.reservedFields mixins) := by
  refine insertAll_induction mixins pages (motive := fun done draft =>
    draft.warnings.filter Warning.isReservedMixinField = done.flatMap (Page.reservedFields mixins)) rfl ?_
  intro done page rest draft hpages hdone
  rw [insert_of_keys mixins draft page (hkeys page (by simp [hpages])), List.filter_append, filter_warningsOf h, hdone,
    List.flatMap_append, List.flatMap_singleton]

end Draft

namespace Compilation

variable {options : CompileOptions} {files : List Text}

theorem source_ne_of_inOrder (options : CompileOptions) (files : List Text) :
    (inOrder (pagesOf options files)).Pairwise fun p q => p.source ≠ q.source := by
  refine nodup_inOrder.imp_of_mem fun hp hq hne hs => hne ?_
  exact faithful_pagesOf _ (mem_inOrder.1 hp) _ (mem_inOrder.1 hq) hs

theorem filter_isReservedMixinField_warnings (h : Mixin.WellFormed options.mixins) (files : List Text) :
    (compile options files).warnings.filter Warning.isReservedMixinField =
      (inOrder (pagesOf options files)).flatMap (Page.reservedFields options.mixins) := by
  have hempty : (emptyRoutes options files).filter Warning.isReservedMixinField = [] := by
    rw [emptyRoutes_eq, List.filter_map]
    exact List.map_eq_nil_iff.2 (List.filter_eq_nil_iff.2 fun _ _ => Bool.false_ne_true)
  have hdraft := Draft.filter_warnings_insertAll h _ (keys_ne_nil_of_mem_inOrder options files)
  rw [compile, List.filter_append, hempty, List.nil_append, hdraft]

theorem map_shown_compile (options : CompileOptions) (files : List Text) :
    ((compile options files).routes.labels.map Route.shown).Perm ((pagesOf options files.dedup).map fun page =>
      (some page.component, page.routeKeys, Mixin.apply options.mixins [] page.tokens)) := by
  rw [← Forest.labels_map, routes_compile, Forest.normalize, Forest.map_normalizeWith fun _ _ _ _ => rfl,
    Forest.labels_map]
  exact (Draft.map_shown_insertAll options.mixins _ (keys_ne_nil_of_mem_inOrder options files)).trans
    (inOrder_perm_dedup.map _)

/-- Each page has one route, with the fields that the mixins named in its file add up to. The reports of reserved
fields are, page by page, those of the mixins that its file names, and there are no others. -/
theorem compile_mixes (options : CompileOptions) (files : List Text) (h : Mixin.WellFormed options.mixins) :
    (∃ pages, pages.Perm (pagesOf options files.dedup) ∧
        List.Forall₂ (Route.Mixes options.mixins) pages (compile options files).routes.labels) ∧
      (∀ page ∈ pagesOf options files,
        (compile options files).warnings.filter (fun w => w.isReservedMixinField && w.file == page.source) =
          page.reservedFields options.mixins) ∧
      ∀ w ∈ (compile options files).warnings, w.isReservedMixinField = true →
        ∃ page ∈ pagesOf options files, w ∈ page.reservedFields options.mixins := by
  have hreports := filter_isReservedMixinField_warnings h files
  refine ⟨?_, fun page hpage => ?_, fun w hw hreserved => ?_⟩
  · obtain ⟨pages, hperm, hall⟩ := exists_perm_of_map_perm (map_shown_compile options files)
    exact ⟨pages, hperm, hall.imp fun page r => Route.mixes_of_shown_eq⟩
  · have hsplit : ∀ ws : List Warning, ws.filter (fun w => w.isReservedMixinField && w.file == page.source) =
        (ws.filter Warning.isReservedMixinField).filter fun w => w.file == page.source := by
      intro ws
      rw [List.filter_filter]
      exact List.filter_congr fun w _ => Bool.and_comm _ _
    rw [hsplit, hreports]
    exact Page.filter_flatMap_reservedFields (source_ne_of_inOrder options files) (mem_inOrder.2 hpage)
  · have hmem := List.mem_filter.2 ⟨hw, hreserved⟩
    rw [hreports] at hmem
    obtain ⟨page, hpage, hw⟩ := List.mem_flatMap.1 hmem
    exact ⟨page, mem_inOrder.1 hpage, hw⟩

/-- A folder and the page in it name a mixin each; of the first one a field is reserved. -/
theorem compile_mixes_folder_and_page :
    let auth : Fields := [("meta".toList, .object [("role".toList, .string "user".toList)]), ("path".toList, .null)]
    let wide : Fields := [("meta".toList, .object [("layout".toList, .string "wide".toList)])]
    let options : CompileOptions :=
      { CompileOptions.forPages "p".toList with mixins := [("auth".toList, auth), ("wide".toList, wide)] }
    let file := "p/a auth/b wide.vue".toList
    Mixin.WellFormed options.mixins ∧
      (∃ r, (compile options [file]).routes.labels = [r] ∧ r.fields.get? "meta".toList = some
        (.object [("layout".toList, .string "wide".toList), ("role".toList, .string "user".toList)])) ∧
      (compile options [file]).warnings.filter (fun w => w.isReservedMixinField && w.file == file) =
        [.reservedMixinField file "auth".toList "path".toList] := by
  intro auth wide options file
  let page : Page := ⟨file, ["a auth".toList, "b wide".toList], "./p/a auth/b wide.vue".toList⟩
  have hpages : pagesOf options [file] = [page] := rfl
  have hordered : ∀ e ∈ options.mixins, Dict.Ordered e.2 := by
    intro e he
    rcases List.mem_pair.1 he with rfl | rfl
    · exact List.pairwise_pair.2 (by decide)
    · exact List.pairwise_singleton _ _
  have hmixins : Mixin.WellFormed options.mixins :=
    fun name fields hget => hordered (name, fields) (Dict.mem_of_get?_eq_some hget)
  obtain ⟨⟨pages, hperm, hroutes⟩, hreports, _⟩ := compile_mixes options [file] hmixins
  refine ⟨hmixins, ?_, hreports page (hpages ▸ List.mem_singleton_self page)⟩
  have hdedup : [file].dedup = [file] := (List.nodup_singleton file).dedup
  rw [hdedup, hpages, List.perm_singleton] at hperm
  rw [hperm] at hroutes
  obtain ⟨r, rest, hr, hrest, hlabels⟩ := List.forall₂_cons_left_iff.1 hroutes
  rw [List.forall₂_nil_left_iff.1 hrest] at hlabels
  exact ⟨r, hlabels, hr.get?_eq _⟩

end Compilation

end RouteTable
