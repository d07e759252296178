import RouteTable.Proofs.CleanPaths

namespace RouteTable

namespace Text

theorem joinWith_concat_append (sep : Char) (ps : List Text) (p t : Text) :
    joinWith sep (ps ++ [p ++ t]) = joinWith sep (ps ++ [p]) ++ t := by
  cases ps with
  | nil => rfl
  | cons q ps =>
      have hne := List.cons_ne_nil q ps
      rw [joinWith_append_of_ne_nil sep hne (by simp), joinWith_append_of_ne_nil sep hne (by simp), List.append_assoc]
      rfl

end Text

namespace Path

variable {dir path : Text} {ss : List Text}

theorem segments_append_slash (s t : Text) : segments (s ++ '/' :: t) = segments s ++ segments t := by
  rw [segments, Text.parts, Text.pieces_append_cons rfl, List.filter_append, List.filter_append]
  rfl

theorem clean_append_joinWith (dir : Text) (h : ∀ s ∈ ss, IsCleanSegment s) :
    clean (dir ++ '/' :: Text.joinWith '/' ss) = spelled (dir.isEmpty || isRooted dir) (segments dir ++ ss) := by
  have hss : segments (Text.joinWith '/' ss) = ss := segments_spelled false h
  rw [clean_eq_spelled, segments_append_slash, hss]
  cases dir with
  | nil => rfl
  | cons c dir => rfl

theorem spelled_append (rooted : Bool) {ss' : List Text} (hne : ss ≠ []) (hne' : ss' ≠ []) :
    spelled rooted (ss ++ ss') = spelled rooted ss ++ spelled true ss' := by
  rw [spelled, Text.joinWith_append_of_ne_nil '/' hne hne', ← List.append_assoc]
  rfl

theorem IsCleanSegment.append {s t : Text} (h : IsCleanSegment s) (hne : t ≠ []) (hslash : '/' ∉ t)
    (hback : '\\' ∉ t) : IsCleanSegment (s ++ t) where
  ne_nil := by simp [hne]
  ne_dot he := by
    have hlength := congrArg List.length he
    have hs := List.length_pos_of_ne_nil h.ne_nil
    have ht := List.length_pos_of_ne_nil hne
    rw [List.length_append, List.length_singleton] at hlength
    omega
  slash_not_mem := by simp [h.slash_not_mem, hslash]
  backslash_not_mem := by simp [h.backslash_not_mem, hback]

end Path

namespace Page

open RouteTable.Path

variable {pagesDir extension file : Text} {ss : List Text}

theorem belowRoot_append {root rest : Text}
    (h : Text.startsWith '/' rest = true ∨ Text.endsWith '/' root = true) : belowRoot root (root ++ rest) = rest := by
  rw [belowRoot, Text.afterFront?_append]
  split
  · next hroot => rw [List.isEmpty_iff.1 hroot, List.nil_append]
  · refine if_pos ?_
    rcases h with h | h <;> simp [h]

theorem exists_belowRoot_clean (pagesDir : Text) (h : ∀ s ∈ ss, IsCleanSegment s) (hne : ss ≠ []) :
    ∃ rooted, belowRoot (clean pagesDir) (clean (pagesDir ++ '/' :: Text.joinWith '/' ss)) = spelled rooted ss := by
  rw [clean_append_joinWith pagesDir h, clean_eq_spelled]
  cases hsegments : segments pagesDir with
  | nil =>
      -- the directory is empty or made of dots, which the path does not show, or the root
      cases hrooted : isRooted pagesDir with
      | false => exact ⟨pagesDir.isEmpty || false, rfl⟩
      | true =>
          rw [Bool.or_true]
          exact ⟨false, belowRoot_append (.inr rfl)⟩
  | cons s front =>
      have hdir : pagesDir ≠ [] := by
        rintro rfl
        cases hsegments
      have hempty : pagesDir.isEmpty = false := by simpa using hdir
      rw [hempty, Bool.false_or, spelled_append _ (List.cons_ne_nil s front) hne]
      exact ⟨true, belowRoot_append (.inl rfl)⟩

theorem withoutExtension_append (hne : Text.dropLeading '.' extension ≠ []) (path : Text) :
    withoutExtension extension (path ++ '.' :: Text.dropLeading '.' extension) = path := by
  have hextension : (Text.dropLeading '.' extension).isEmpty = false := by simpa using hne
  rw [withoutExtension, hextension, Text.beforeBack?_eq_some.2 rfl]
  rfl

/-- Where the page of these segments lies. -/
def layout (pagesDir extension : Text) (ss : List Text) : Text :=
  pagesDir ++ '/' :: Text.joinWith '/' ss ++ '.' :: Text.dropLeading '.' extension

theorem keysOf_of_clean_eq (hextension : Text.dropLeading '.' extension ≠ [])
    (hslash : '/' ∉ Text.dropLeading '.' extension) (hback : '\\' ∉ Text.dropLeading '.' extension) (hne : ss ≠ [])
    (h : ∀ s ∈ ss, IsCleanSegment s) (hfile : clean file = clean (layout pagesDir extension ss)) :
    keysOf file pagesDir extension = ss := by
  obtain ⟨front, last, rfl⟩ := (List.eq_nil_or_concat ss).resolve_left hne
  rw [List.concat_eq_append] at *
  -- the extension belongs to the last name of the path, and leaves it again when all in front of that is off
  have hjoined := Text.joinWith_concat_append '/' front last ('.' :: Text.dropLeading '.' extension)
  have hlayout : layout pagesDir extension (front ++ [last]) =
      pagesDir ++ '/' :: Text.joinWith '/' (front ++ [last ++ '.' :: Text.dropLeading '.' extension]) := by
    rw [layout, hjoined, List.append_assoc]
    rfl
  have hnames : ∀ s ∈ front ++ [last ++ '.' :: Text.dropLeading '.' extension], IsCleanSegment s := by
    intro s hs
    rcases List.mem_append.1 hs with hs | hs
    · exact h s (List.mem_append_left _ hs)
    · rw [List.mem_singleton.1 hs]
      refine (h last (by simp)).append (List.cons_ne_nil _ _) ?_ ?_
      · simpa using hslash
      · simpa using hback
  obtain ⟨rooted, hbelow⟩ := exists_belowRoot_clean pagesDir hnames (by simp)
  have hspelled : spelled rooted (front ++ [last ++ '.' :: Text.dropLeading '.' extension]) =
      spelled rooted (front ++ [last]) ++ '.' :: Text.dropLeading '.' extension := by
    rw [spelled, hjoined, ← List.append_assoc]
    rfl
  rw [keysOf, hfile, hlayout, hbelow, hspelled, withoutExtension_append hextension]
  exact parts_spelled rooted h

end Page

namespace FileRole

open RouteTable.Path Page

/-- A file that lies where the segments say has them as its keys, or is switched off by the mark of one of them. -/
theorem of_laidOut (file pagesDir outputDir extension : Text) (ss : List Text)
    (hextension : Text.dropLeading '.' extension ≠ []) (hslash : '/' ∉ Text.dropLeading '.' extension)
    (hback : '\\' ∉ Text.dropLeading '.' extension) (hne : ss ≠ []) (h : ∀ s ∈ ss, IsCleanSegment s)
    (hfile : clean file = clean (layout pagesDir extension ss)) :
    FileRole.of file pagesDir outputDir extension =
      if ∃ s ∈ ss, Text.startsWith '!' s = true then .deleted
      else .page ⟨file, ss, reference (clean file) outputDir⟩ := by
  have hdeleted : isDeleted ss = true ↔ ∃ s ∈ ss, Text.startsWith '!' s = true := List.any_eq_true
  have hempty : ss.isEmpty = false := by simpa using hne
  rw [FileRole.of, keysOf_of_clean_eq hextension hslash hback hne h hfile]
  simp only [hempty, hdeleted, Bool.false_eq_true, if_false]

/-- Steps up, dots and separators to spare; the root as the pages directory; a page switched off below the empty one. -/
theorem of_laidOut_users :
    let users := ["users".toList, "..".toList, "_id".toList]
    FileRole.of "../src/./pages\\users/../_id.vue".toList "..\\src//pages/./".toList "../src".toList "..vue".toList =
        .page ⟨"../src/./pages\\users/../_id.vue".toList, users, "./pages/users/../_id.vue".toList⟩ ∧
      FileRole.of "//users/..\\_id.vue".toList "/".toList "/".toList "vue".toList =
        .page ⟨"//users/..\\_id.vue".toList, users, "./users/../_id.vue".toList⟩ ∧
      FileRole.of "/users/!draft.vue".toList [] [] "vue".toList = .deleted := by
  intro users
  let draft := ["users".toList, "!draft".toList]
  have husers : ∀ s ∈ users, IsCleanSegment s := by decide
  have hdraft : ∀ s ∈ draft, IsCleanSegment s := by decide
  refine ⟨?_, ?_, ?_⟩
  · exact of_laidOut "../src/./pages\\users/../_id.vue".toList "..\\src//pages/./".toList "../src".toList
      "..vue".toList users (by decide) (by decide) (by decide) (by decide) husers rfl
  · exact of_laidOut "//users/..\\_id.vue".toList "/".toList "/".toList "vue".toList users (by decide) (by decide)
      (by decide) (by decide) husers rfl
  · exact of_laidOut "/users/!draft.vue".toList [] [] "vue".toList draft (by decide) (by decide) (by decide)
      (by decide) hdraft rfl

end FileRole

end RouteTable
