import RouteTable.Proofs.Paths

namespace RouteTable

open Segment

namespace Segment

variable {key : Text} {keys : List Text}

theorem plainKey_eq_nil_iff : plainKey key = [] ↔ key = [] ∨ key = ['_'] := by
  rcases pattern_cases key with ⟨name, rfl, hplain, _⟩ | ⟨hplain, _⟩
  · rw [hplain]
    simp
  · rw [hplain]
    refine ⟨.inl, ?_⟩
    rintro (hnil | rfl)
    · exact hnil
    · cases hplain

theorem nameOf_eq_joinWith (h : ∀ key, keys.head? = some key → plainKey key ≠ []) :
    nameOf keys = Text.joinWith '_' (keys.map plainKey) := by
  rw [nameOf_eq_joinWith_dropWhile]
  cases keys with
  | nil => rfl
  | cons key keys => rw [List.map_cons, List.dropWhile_cons_of_neg (by simpa using h key rfl)]

def namingKeys (keys : List Text) : List Text :=
  if 2 ≤ keys.length ∧ keys.getLast? = some indexKey then keys.dropLast else keys

theorem withoutIndex_eq_nil_iff : withoutIndex keys = [] ↔ keys = [] ∨ keys = [indexKey] := by
  rw [withoutIndex]
  split
  · next hlast =>
      obtain ⟨front, rfl⟩ := List.getLast?_eq_some_iff.1 hlast
      simp
  · next hlast =>
      refine ⟨.inl, ?_⟩
      rintro (hnil | rfl)
      · exact hnil
      · exact absurd rfl hlast

theorem drop_eq_singleton_iff {base : Nat} :
    keys.drop base = [key] ↔ keys.getLast? = some key ∧ base + 1 = keys.length := by
  constructor
  · intro h
    have hlength := congrArg List.length h
    rw [List.length_drop, List.length_singleton] at hlength
    refine ⟨?_, by omega⟩
    rw [← List.take_append_drop base keys, h, List.getLast?_concat]
  · rintro ⟨hlast, hlength⟩
    obtain ⟨front, rfl⟩ := List.getLast?_eq_some_iff.1 hlast
    rw [List.length_append, List.length_singleton, Nat.add_right_cancel_iff] at hlength
    rw [hlength, List.drop_left]

end Segment

namespace Route

variable {r p : Route}

theorem indexName_nameOf {origin : Origin} (h : ∀ key, origin.keys.head? = some key → plainKey key ≠ []) :
    indexName origin (nameOf origin.keys) = Text.joinWith '_' ((namingKeys origin.keys).map plainKey) := by
  have hbuilt : nameOf origin.keys = builtName origin.keys := nameOf_eq_joinWith h
  rw [hbuilt, namingKeys, indexName, Origin.isIndex]
  by_cases hlast : origin.keys.getLast? = some indexKey
  · obtain ⟨front, hkeys⟩ := List.getLast?_eq_some_iff.1 hlast
    rw [hkeys, List.getLast?_concat, List.dropLast_concat]
    by_cases hfront : front = []
    · subst hfront
      rfl
    · have hjoined : builtName (front ++ [indexKey]) = builtName front ++ '_' :: indexKey := by
        rw [builtName, List.map_append]
        exact Text.joinWith_append_of_ne_nil '_' (by simpa using hfront) (by simp)
      have hlong : 2 ≤ (front ++ [indexKey]).length := by
        have hpos := List.length_pos_of_ne_nil hfront
        rw [List.length_append, List.length_singleton]
        omega
      rw [if_pos (by simp), if_pos ⟨hlong, rfl⟩, hjoined, Text.beforeBack?_eq_some.2 rfl]
      rfl
  · rw [if_neg (by simp [hlast]), if_neg fun h => hlast h.2]
    rfl

theorem Joins.path_eq_nil_iff (h : r.Joins (some p)) : r.path = [] ↔
    r.origin.isIndex = true ∧ r.origin.base + 1 = r.origin.keys.length ∨ r.origin.base = r.origin.keys.length := by
  have hpath : r.path = [] ↔ withoutIndex (r.origin.keys.drop r.origin.base) = [] := by
    rw [h.path_eq, Landing.pathFrom_of_pos (h.below p rfl).1, patterns]
    cases withoutIndex (r.origin.keys.drop r.origin.base) with
    | nil => exact iff_of_true rfl rfl
    | cons key keys => exact iff_of_false (List.cons_ne_nil _ _) (List.cons_ne_nil _ _)
  have hindex : r.origin.isIndex = true ↔ r.origin.keys.getLast? = some indexKey := beq_iff_eq
  have hle := h.base_le
  rw [hpath, withoutIndex_eq_nil_iff, List.drop_eq_nil_iff, drop_eq_singleton_iff, hindex, or_comm]
  refine or_congr_right ?_
  omega

/-- The name of a route, told by its children as the draft has them and by its keys. -/
def nameAbove (children₀ : List Route) (keys : List Text) : Option Text :=
  if ∃ c ∈ children₀, c.path = [] then none else some (Text.joinWith '_' ((namingKeys keys).map plainKey))

theorem name_normal {children₀ : List Route} (prefixes : List (List Text)) (nested : Bool)
    (hname : r.name = some (nameOf r.origin.keys)) (h : ∀ key, r.origin.keys.head? = some key → plainKey key ≠ []) :
    (r.normal prefixes nested (children₀.any fun c => c.path.isEmpty)).name = nameAbove children₀ r.origin.keys := by
  have hempty : (children₀.any fun c => c.path.isEmpty) = true ↔ ∃ c ∈ children₀, c.path = [] := by simp
  rw [nameAbove, normal, hname, Option.map_some, indexName_nameOf h]
  exact if_congr hempty rfl rfl

end Route

namespace Compilation

/-- Family by family, what stands in the table beside what stands in the draft: the children that were built with
an empty path decide whether a route has a name, and its keys which one. -/
theorem compile_name_eq (options : CompileOptions) (files : List Text) :
    List.Forall₂ (fun family₀ family => ∀ r, family.1 = some r →
        (∃ r₀, family₀.1 = some r₀ ∧ r₀.stem = r.stem) ∧ family₀.2.map Route.stem = family.2.map Route.stem ∧
        (∀ c ∈ family₀.2, c.path = [] ↔
          c.origin.isIndex = true ∧ c.origin.base + 1 = c.origin.keys.length ∨ c.origin.base = c.origin.keys.length) ∧
        ((∀ key, r.origin.keys.head? = some key → key ≠ [] ∧ key ≠ ['_']) →
          r.name = Route.nameAbove family₀.2 r.origin.keys))
      (draftOf options files).routes.families (compile options files).routes.families := by
  have hlinked := linked_draftOf options files
  have hall := Forest.families_normalize false (draftOf options files).routes
  refine List.forall₂_iff_zip.2 ⟨hall.length_eq, ?_⟩
  rintro ⟨above₀, children₀⟩ ⟨above, children⟩ hzip r ⟨rfl : above = some r⟩
  have hfamily := List.forall₂_zip hall hzip
  have hf₀ := (List.of_mem_zip hzip).1
  obtain ⟨r₀, prefixes, nested, rfl, rfl⟩ := hfamily.exists_above
  obtain ⟨above, hchild⟩ := Forest.mem_labels_iff.1 (Forest.mem_labels_of_mem_families hf₀)
  refine ⟨⟨r₀, rfl, rfl⟩, (Route.map_stem_of_normalizes hfamily.siblings).symm,
    fun c hc => (hlinked.joins (some r₀) c ⟨children₀, hf₀, hc⟩).path_eq_nil_iff, fun hfirst => ?_⟩
  refine Route.name_normal prefixes nested (hlinked.joins above r₀ hchild).name_eq fun key hkey hnil => ?_
  exact (plainKey_eq_nil_iff.1 hnil).elim (hfirst key hkey).1 (hfirst key hkey).2

/-- A page above its index page; a parameter called `index`; and the index page of a folder with such an end. -/
theorem compile_name_eq_index :
    let files := ["p/a.vue".toList, "p/a/index.vue".toList, "p/b/_index.vue".toList, "p/c_index/index.vue".toList]
    let page : Route := ⟨none, "/a".toList, some "./p/a.vue".toList, [], ⟨["a".toList], 0⟩⟩
    let start : Route := ⟨some "a".toList, [], some "./p/a/index.vue".toList, [], ⟨["a".toList, "index".toList], 1⟩⟩
    let folder : Route :=
      ⟨some "c_index".toList, "/c_index".toList, some "./p/c_index/index.vue".toList, [],
        ⟨["c_index".toList, "index".toList], 0⟩⟩
    let parameter : Route :=
      ⟨some "b_index".toList, "/b/:index?".toList, some "./p/b/_index.vue".toList, [],
        ⟨["b".toList, "_index".toList], 0⟩⟩
    let start₀ : Route := { start with name := some "a_index".toList }
    (compile (.forPages "p".toList) files).routes.families =
        [(none, [page, folder, parameter]), (some page, [start]), (some start, []), (some folder, []),
          (some parameter, [])] ∧
      page.name = Route.nameAbove [start₀] page.origin.keys ∧ (∃ c ∈ [start₀], c.path = []) ∧
      folder.name = some (Text.joinWith '_' (folder.origin.keys.dropLast.map plainKey)) ∧
      parameter.name = some (Text.joinWith '_' (parameter.origin.keys.map plainKey)) := by
  intro files page start folder parameter start₀
  have hpages : pagesOf (.forPages "p".toList) files =
      [⟨"p/a.vue".toList, ["a".toList], "./p/a.vue".toList⟩,
        ⟨"p/a/index.vue".toList, ["a".toList, "index".toList], "./p/a/index.vue".toList⟩,
        ⟨"p/b/_index.vue".toList, ["b".toList, "_index".toList], "./p/b/_index.vue".toList⟩,
        ⟨"p/c_index/index.vue".toList, ["c_index".toList, "index".toList], "./p/c_index/index.vue".toList⟩] := rfl
  have hdraft : (draftOf (.forPages "p".toList) files).routes =
      .cons { page with name := some "a".toList } (.cons start₀ .nil .nil)
        (.cons { folder with name := some "c_index_index".toList } .nil (.cons parameter .nil .nil)) := by
    rw [draftOf_eq hpages (by decide)]
    rfl
  have hroutes : (compile (.forPages "p".toList) files).routes =
      .cons page (.cons start .nil .nil) (.cons folder .nil (.cons parameter .nil .nil)) := by
    rw [routes_compile, hdraft]
    rfl
  have hnames := compile_name_eq (.forPages "p".toList) files
  rw [hdraft, hroutes] at hnames
  obtain ⟨_, hbelow⟩ := List.forall₂_cons.1 hnames
  obtain ⟨hpage, hbelow⟩ := List.forall₂_cons.1 hbelow
  obtain ⟨_, hbelow⟩ := List.forall₂_cons.1 hbelow
  obtain ⟨hfolder, hbelow⟩ := List.forall₂_cons.1 hbelow
  obtain ⟨hparameter, _⟩ := List.forall₂_cons.1 hbelow
  refine ⟨by rw [hroutes]; rfl, ?_, by decide, ?_, ?_⟩
  · exact (hpage page rfl).2.2.2 (by rintro key ⟨⟩; decide)
  · exact ((hfolder folder rfl).2.2.2 (by rintro key ⟨⟩; decide)).trans (if_neg (by decide))
  · exact ((hparameter parameter rfl).2.2.2 (by rintro key ⟨⟩; decide)).trans (if_neg (by decide))

end Compilation

end RouteTable
