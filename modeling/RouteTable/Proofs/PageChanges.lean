import RouteTable.Proofs.Layout
import RouteTable.Proofs.Patterns
import RouteTable.Watch

namespace RouteTable

namespace Path

variable {path e : Text}

theorem extension?_eq_some :
    extension? path = some e ↔ '.' ∉ e ∧ ∃ stem, stem ≠ [] ∧ fileName? path = some (stem ++ '.' :: e) := by
  constructor
  · intro h
    obtain ⟨name, hname, h⟩ := Option.bind_eq_some_iff.1 h
    have hsplit := List.takeWhile_append_dropWhile (p := (· != '.')) (l := name.reverse)
    dsimp only at h
    split at h
    · next d b front hdrop =>
        have hd : d = '.' := by
          have hhead := List.head_dropWhile_not (p := (· != '.')) (l := name.reverse) (by simp [hdrop])
          simpa [hdrop] using hhead
        obtain rfl := Option.some.inj h
        refine ⟨fun hdot => ?_, (b :: front).reverse, by simp, ?_⟩
        · simpa using List.mem_takeWhile_imp (List.mem_reverse.1 hdot)
        · have hreverse := congrArg List.reverse hsplit
          rw [hdrop, hd, List.reverse_append, List.reverse_reverse, List.reverse_cons, List.append_assoc] at hreverse
          exact hname.trans (congrArg some hreverse.symm)
    · cases h
  · rintro ⟨hdot, stem, hstem, hname⟩
    have hclean : ∀ c ∈ e.reverse, (c != '.') = true := by
      intro c hc
      have hne : c ≠ '.' := fun he => hdot (he ▸ List.mem_reverse.1 hc)
      simpa using hne
    obtain ⟨b, front, hfront⟩ := List.exists_cons_of_ne_nil (List.reverse_ne_nil_iff.2 hstem)
    have hreverse : (stem ++ '.' :: e).reverse = e.reverse ++ '.' :: b :: front := by
      rw [List.reverse_append, List.reverse_cons, hfront, List.append_assoc]
      rfl
    have htake : (e.reverse ++ '.' :: b :: front).takeWhile (· != '.') = e.reverse := by
      rw [List.takeWhile_append_of_pos hclean, List.takeWhile_cons_of_neg (by decide), List.append_nil]
    have hdrop : (e.reverse ++ '.' :: b :: front).dropWhile (· != '.') = '.' :: b :: front := by
      rw [List.dropWhile_append_of_pos hclean, List.dropWhile_cons_of_neg (by decide)]
    rw [extension?, hname]
    simp only [Option.bind_eq_bind, Option.bind_some, hreverse, hdrop, htake, List.reverse_reverse]

end Path

namespace Page

variable {extension name : Text}

/-- The name of a file whose key is in front of a dot and the extension. -/
def IsPageName (extension name : Text) : Prop :=
  ∃ stem, stem ≠ [] ∧ name = stem ++ '.' :: Text.dropLeading '.' extension

theorem isPageName_iff (hne : Text.dropLeading '.' extension ≠ []) : IsPageName extension name ↔
    Glob.isMatch (Glob.suffixTokens (Text.dropLeading '.' extension)) name = true ∧
      withoutExtension extension name ≠ [] := by
  rw [Glob.isMatch_suffixTokens]
  constructor
  · rintro ⟨stem, hstem, rfl⟩
    exact ⟨⟨stem, rfl⟩, by rwa [withoutExtension_append hne]⟩
  · rintro ⟨⟨stem, rfl⟩, hkey⟩
    rw [withoutExtension_append hne] at hkey
    exact ⟨stem, hkey, rfl⟩

def HasPageName (extension path : Text) : Prop := ∃ name, Path.fileName? path = some name ∧ IsPageName extension name

end Page

namespace ChangeKind

open Page

variable {kind : ChangeKind} {extension path : Text}

theorem isPage_iff :
    isPage extension path = true ↔ '.' ∉ Text.dropLeading '.' extension ∧ HasPageName extension path := by
  rw [isPage, beq_iff_eq, Path.extension?_eq_some]
  refine and_congr_right fun _ => ⟨?_, ?_⟩
  · rintro ⟨stem, hstem, hname⟩
    exact ⟨_, hname, stem, hstem, rfl⟩
  · rintro ⟨_, hname, stem, hstem, rfl⟩
    exact ⟨stem, hstem, hname⟩

theorem pageChange?_eq_find? (hkind : kind = create ∨ kind = remove) (paths : List Text) (extension : Text) :
    pageChange? kind paths extension = paths.find? (isPage extension) := by
  rcases hkind with rfl | rfl <;> rfl

/-- Where pages are noticed at all, one is as soon as a path has the name of a page, which is the name that the
search and the reading of keys take for one's; where a dot is inside the extension, none is. -/
theorem pageChange?_isSome_iff (kind : ChangeKind) (paths : List Text) (extension : Text)
    (hkind : kind = create ∨ kind = remove) (hne : Text.dropLeading '.' extension ≠ []) :
    ((pageChange? kind paths extension).isSome = true ↔
        '.' ∉ Text.dropLeading '.' extension ∧ ∃ path ∈ paths, HasPageName extension path) ∧
      (∀ path, pageChange? kind paths extension = some path → path ∈ paths ∧ HasPageName extension path) ∧
      ∀ name, IsPageName extension name ↔
        Glob.isMatch (Glob.suffixTokens (Text.dropLeading '.' extension)) name = true ∧
          withoutExtension extension name ≠ [] := by
  rw [pageChange?_eq_find? hkind]
  refine ⟨?_, fun path hfound => ?_, fun name => isPageName_iff hne⟩
  · rw [List.find?_isSome]
    constructor
    · rintro ⟨path, hpath, hpage⟩
      obtain ⟨hdot, hname⟩ := isPage_iff.1 hpage
      exact ⟨hdot, path, hpath, hname⟩
    · rintro ⟨hdot, path, hpath, hname⟩
      exact ⟨path, hpath, isPage_iff.2 ⟨hdot, hname⟩⟩
  · exact ⟨List.mem_of_find?_eq_some hfound, (isPage_iff.1 (List.find?_some hfound)).2⟩

/-- The extension `page.vue` is searched for and taken away, but its pages come and go without notice. -/
theorem page_unnoticed_behind_dotted_extension :
    let path := "p/a.page.vue".toList
    let dotted := "page.vue".toList
    HasPageName dotted path ∧ Glob.isMatch (Glob.suffixTokens dotted) "a.page.vue".toList = true ∧
      withoutExtension dotted "a.page.vue".toList = "a".toList ∧ pageChange? .create [path] dotted = none ∧
      HasPageName ".vue".toList path ∧
      (pageChange? .remove ["p/notes.md".toList, path] ".vue".toList).isSome = true := by
  intro path dotted
  have hname : HasPageName dotted path := ⟨"a.page.vue".toList, rfl, "a".toList, by decide, rfl⟩
  have hname' : HasPageName ".vue".toList path := ⟨"a.page.vue".toList, rfl, "a.page".toList, by decide, rfl⟩
  obtain ⟨hiff, _, hpage⟩ := pageChange?_isSome_iff .create [path] dotted (.inl rfl) (by decide)
  obtain ⟨hiff', _, _⟩ :=
    pageChange?_isSome_iff .remove ["p/notes.md".toList, path] ".vue".toList (.inr rfl) (by decide)
  have hmatch := ((hpage "a.page.vue".toList).1 ⟨"a".toList, by decide, rfl⟩).1
  refine ⟨hname, hmatch, rfl, ?_, hname', hiff'.2 ⟨by decide, path, by simp, hname'⟩⟩
  by_contra hsome
  exact (hiff.1 (Option.isSome_iff_ne_none.2 hsome)).1 (by decide)

end ChangeKind

end RouteTable
