import RouteTable.Proofs.PageSearch

namespace RouteTable

namespace Discovery

open FileSystem

variable {fs : FileSystem} {folder : Location} {path q : Text}

/-- Where the search for a directory starts, and the steps from there. Slashes at its end count for nothing. -/
def bearings (pagesDir : Text) : Text × List Text :=
  match Text.dropTrailing '/' pagesDir with
  | [] => (['/'], [])
  | '/' :: rest => (['/'], Text.pieces Path.isSlash rest)
  | path => (['.'], Text.pieces Path.isSlash path)

theorem bearings_cases (pagesDir : Text) :
    Text.dropTrailing '/' pagesDir = [] ∧ bearings pagesDir = (['/'], []) ∨
      (∃ rest, Text.dropTrailing '/' pagesDir = '/' :: rest ∧
        bearings pagesDir = (['/'], Text.pieces Path.isSlash rest)) ∨
      Text.dropTrailing '/' pagesDir ≠ [] ∧ Path.isAbsolute (Text.dropTrailing '/' pagesDir) = false ∧
        bearings pagesDir = (['.'], Text.pieces Path.isSlash (Text.dropTrailing '/' pagesDir)) := by
  rw [bearings]
  generalize Text.dropTrailing '/' pagesDir = path
  match path with
  | [] => exact .inl ⟨rfl, rfl⟩
  | c :: rest =>
      by_cases hc : c = '/'
      · subst hc
        exact .inr (.inl ⟨rest, rfl, rfl⟩)
      · refine .inr (.inr ⟨List.cons_ne_nil c rest, by simpa [Path.isAbsolute, Text.startsWith] using hc, ?_⟩)
        split <;> simp_all

theorem slash_not_mem_bearings (pagesDir : Text) : ∀ p ∈ (bearings pagesDir).2, '/' ∉ p := by
  rcases bearings_cases pagesDir with ⟨_, h⟩ | ⟨rest, _, h⟩ | ⟨_, _, h⟩ <;> rw [h]
  · exact fun p hp => nomatch hp
  · exact fun p => Path.slash_not_mem_piece
  · exact fun p => Path.slash_not_mem_piece

theorem isStation_bearings (pagesDir : Text) : IsStation (bearings pagesDir).1 := by
  have hroot : IsStation ['/'] := .inr (by decide)
  rcases bearings_cases pagesDir with ⟨_, h⟩ | ⟨rest, _, h⟩ | ⟨_, _, h⟩ <;> rw [h]
  · exact hroot
  · exact hroot
  · exact .inl rfl

def wild (extension : Text) : Text := "**/*.".toList ++ extension

theorem pieces_wild {extension : Text} (h : '/' ∉ extension) :
    Text.pieces Path.isSlash (wild extension) = [['*', '*'], '*' :: '.' :: extension] := by
  have hlast : '/' ∉ '*' :: '.' :: extension := by simpa using h
  change Text.pieces Path.isSlash (['*', '*'] ++ '/' :: '*' :: '.' :: extension) = _
  rw [Text.pieces_append_cons rfl, Path.pieces_of_slash_not_mem hlast]
  rfl

theorem patternText_eq (pagesDir extension : Text) : patternText pagesDir extension =
    Glob.escape (Text.dropTrailing '/' pagesDir) ++ '/' :: wild (Text.dropLeading '.' extension) := by
  rw [patternText, Glob.dropTrailing_escape, List.append_assoc]
  rfl

theorem segments_of_relative (h : Path.isAbsolute path = false) :
    segments path = (['.'], Text.pieces Path.isSlash path) := by
  unfold segments
  split
  · cases h
  · rfl

theorem segments_patternText {pagesDir extension : Text} (h : '/' ∉ Text.dropLeading '.' extension) :
    segments (patternText pagesDir extension) = ((bearings pagesDir).1,
      (bearings pagesDir).2.map Glob.escape ++
        [['*', '*'], '*' :: '.' :: Text.dropLeading '.' extension]) := by
  have hbelow : ∀ s, Text.pieces Path.isSlash (Glob.escape s ++ '/' :: wild (Text.dropLeading '.' extension)) =
      (Text.pieces Path.isSlash s).map Glob.escape ++ [['*', '*'], '*' :: '.' :: Text.dropLeading '.' extension] := by
    intro s
    rw [Text.pieces_append_cons rfl, Glob.pieces_escape, pieces_wild h]
  rw [patternText_eq]
  rcases bearings_cases pagesDir with ⟨ht, hb⟩ | ⟨rest, ht, hb⟩ | ⟨hne, habsolute, hb⟩
  · rw [hb, ht, ← pieces_wild h]
    rfl
  · rw [hb, ht, ← hbelow rest]
    rfl
  · have hrelative : Path.isAbsolute (Glob.escape (Text.dropTrailing '/' pagesDir) ++
        '/' :: wild (Text.dropLeading '.' extension)) = false := by
      obtain ⟨c, s, ht⟩ := List.exists_cons_of_ne_nil hne
      rw [ht] at habsolute ⊢
      rcases Glob.escapeChar_cases c with he | ⟨_, he⟩
      · simpa [Glob.escape, he, Path.isAbsolute, Text.startsWith] using habsolute
      · simp [Glob.escape, he, Path.isAbsolute, Text.startsWith]
    rw [hb, segments_of_relative hrelative, hbelow]

theorem mapM_pattern?_escape (ps : List Text) : (ps.map Glob.escape).mapM Glob.pattern? = some (wayPatterns ps) := by
  induction ps with
  | nil => rfl
  | cons p ps ih =>
      rw [List.map_cons, List.mapM_cons, Glob.pattern?_escape, ih]
      rfl

theorem matchingFiles?_patternText {pagesDir extension : Text} (hslash : '/' ∉ Text.dropLeading '.' extension)
    (hplain : Glob.IsPlain (Text.dropLeading '.' extension)) :
    matchingFiles? fs (patternText pagesDir extension) =
      some ((search fs (wayPatterns (bearings pagesDir).2 ++
        [.descend, .name (Glob.suffixTokens (Text.dropLeading '.' extension))])
          (bearings pagesDir).1).filter fs.isFile) := by
  have hend : Text.endsWith '/' (patternText pagesDir extension) = false := by
    rw [patternText_eq]
    have hlast : '/' ∉ '.' :: Text.dropLeading '.' extension := by simpa using hslash
    have hwild : Glob.escape (Text.dropTrailing '/' pagesDir) ++ '/' :: wild (Text.dropLeading '.' extension) =
        (Glob.escape (Text.dropTrailing '/' pagesDir) ++ "/**/*".toList) ++ '.' :: Text.dropLeading '.' extension := by
      rw [List.append_assoc]
      rfl
    rw [hwild, Text.endsWith_append_eq_false (List.cons_ne_nil _ _) hlast]
  have hbelow : [['*', '*'], '*' :: '.' :: Text.dropLeading '.' extension].mapM Glob.pattern? =
      some [.descend, .name (Glob.suffixTokens (Text.dropLeading '.' extension))] := by
    rw [List.mapM_cons, List.mapM_cons, Glob.pattern?_suffix hplain]
    rfl
  rw [matchingFiles?, segments_patternText hslash]
  simp only [hend, Bool.false_eq_true, if_false, List.mapM_append, mapM_pattern?_escape, hbelow]
  rfl

/-- Behind its leading dots a relative path has an empty step. The search is in the working directory then, and
follows the empty path. -/
def stumbles (pagesDir : Text) : Bool :=
  !Path.isAbsolute pagesDir &&
    ((Text.pieces Path.isSlash (Text.dropTrailing '/' pagesDir)).dropWhile (· == ['.'])).head? == some []

def rootOf (pagesDir : Text) : Text :=
  (bearings pagesDir).2.foldl enter (bearings pagesDir).1

theorem pieces_eq_bearings {pagesDir : Text} (h : pagesDir ≠ []) : ∃ n ps,
    (bearings pagesDir = (['/'], ps) ∧ Path.isAbsolute pagesDir = true ∧
        Text.pieces Path.isSlash pagesDir = [] :: (ps ++ List.replicate n [])) ∨
      (bearings pagesDir = (['.'], ps) ∧ Path.isAbsolute pagesDir = false ∧
        Text.pieces Path.isSlash pagesDir = ps ++ List.replicate n [] ∧
        ps = Text.pieces Path.isSlash (Text.dropTrailing '/' pagesDir)) := by
  obtain ⟨n, hpath⟩ := Text.exists_dropTrailing '/' pagesDir
  have hpieces := Text.pieces_append_replicate (Text.dropTrailing '/' pagesDir) n
  rw [← hpath] at hpieces
  rcases bearings_cases pagesDir with ⟨ht, hb⟩ | ⟨rest, ht, hb⟩ | ⟨hne, habsolute, hb⟩
  · rw [ht] at hpath hpieces
    refine ⟨n, [], .inl ⟨hb, ?_, hpieces⟩⟩
    cases n with
    | zero => exact absurd hpath h
    | succ n => rw [hpath]; rfl
  · rw [ht] at hpath hpieces
    exact ⟨n, _, .inl ⟨hb, by rw [hpath]; rfl, hpieces⟩⟩
  · refine ⟨n, _, .inr ⟨hb, ?_, hpieces, rfl⟩⟩
    obtain ⟨c, s, ht⟩ := List.exists_cons_of_ne_nil hne
    rw [ht] at hpath habsolute
    rw [hpath]
    exact habsolute

theorem reach?_rootOf {pagesDir : Text} (h : fs.locate? pagesDir = some folder) :
    fs.reach? (rootOf pagesDir) = some folder := by
  obtain ⟨hfollowable, hreach⟩ := locate?_eq_some.1 h
  rw [rootOf, reach?_foldl_enter _ (slash_not_mem_bearings _)]
  obtain ⟨n, ps, ⟨hb, habsolute, hpieces⟩ | ⟨hb, habsolute, hpieces, hps⟩⟩ :=
    pieces_eq_bearings (isFollowable_iff.1 hfollowable).1
  · rw [reach?, start, habsolute, hpieces] at hreach
    rw [hb]
    exact foldlM_step?_of_append_replicate hreach
  · rw [reach?, start, habsolute, hpieces] at hreach
    have hlead := foldlM_step?_of_append_replicate hreach
    obtain ⟨p, ps', rfl⟩ : ∃ p ps', ps = p :: ps' := List.exists_cons_of_ne_nil (hps ▸ Text.pieces_ne_nil _ _)
    have hworkingDir : fs.get? fs.workingDir = some .folder := by
      rw [List.foldlM_cons] at hlead
      obtain ⟨next, hnext, _⟩ := Option.bind_eq_some_iff.1 hlead
      exact (step?_eq_some.1 hnext).1
    rw [hb, reach?_here hworkingDir]
    exact hlead

theorem plainComponents_rootOf {pagesDir : Text} (h : pagesDir ≠ []) :
    Path.plainComponents (rootOf pagesDir) = Path.plainComponents pagesDir := by
  have hvoids : ∀ n, (List.replicate n ([] : Text)).flatMap Path.plainComponents = [] :=
    fun n => List.flatMap_eq_nil_iff.2 fun q hq => by rw [List.eq_of_mem_replicate hq]; rfl
  rw [rootOf, plainComponents_foldl_enter _ (slash_not_mem_bearings _), Path.plainComponents_eq pagesDir,
    ← Path.flatMap_plainComponents_pieces]
  obtain ⟨n, ps, ⟨hb, habsolute, hpieces⟩ | ⟨hb, habsolute, hpieces, _⟩⟩ := pieces_eq_bearings h
  · rw [hb, habsolute, hpieces, List.flatMap_cons, List.flatMap_append, hvoids, List.append_nil]
    rfl
  · rw [hb, habsolute, hpieces, List.flatMap_append, hvoids, List.append_nil]
    rfl

theorem free_bearings {pagesDir : Text} (h : pagesDir ≠ []) :
    Free (bearings pagesDir).1 (bearings pagesDir).2 ↔
      stumbles pagesDir = false := by
  obtain ⟨n, ps, ⟨hb, habsolute, _⟩ | ⟨hb, habsolute, _, hps⟩⟩ := pieces_eq_bearings h
  · rw [hb, stumbles, habsolute]
    have hroot : ['/'] ≠ ['.'] := by decide
    exact iff_of_true (fun hdot => absurd hdot hroot) rfl
  · rw [hb, stumbles, habsolute, hps]
    simp [Free]

theorem mem_eraseRepsBy_loop (last : Text) (ps done : List Text) :
    q ∈ List.eraseRepsBy.loop (· == ·) last ps done ↔ q ∈ done ∨ q = last ∨ q ∈ ps := by
  induction ps generalizing last done with
  | nil => simp [List.eraseRepsBy.loop, or_comm]
  | cons p ps ih =>
      rw [List.eraseRepsBy.loop]
      split
      · next he =>
          rw [ih, beq_iff_eq.1 he]
          simp
      · rw [ih]
        simp only [List.mem_cons]
        tauto

theorem mem_sortPaths {paths : List Text} : q ∈ sortPaths paths ↔ q ∈ paths := by
  have hreps : ∀ ps : List Text, q ∈ ps.eraseReps ↔ q ∈ ps := by
    intro ps
    cases ps with
    | nil => rfl
    | cons p ps => exact (mem_eraseRepsBy_loop p ps []).trans (by simp)
  rw [sortPaths, hreps, List.mem_mergeSort]

/-- All the pages of a directory, at any depth. Their paths name the directory as it is given, but for dots and
repeated slashes. -/
def ListsPages (fs : FileSystem) (pagesDir extension : Text) (files : List Text) : Prop :=
  ∃ folder lead, fs.locate? pagesDir = some folder ∧ fs.get? folder = some .folder ∧
    Path.plainComponents lead = Path.plainComponents pagesDir ∧ (lead = [] ∨ Text.endsWith '/' lead = true) ∧
    ∀ file, file ∈ files ↔ IsPage fs folder lead extension file

end Discovery

open FileSystem Discovery

theorem discover_eq {fs : FileSystem} {pagesDir extension : Text} (hslash : '/' ∉ extension)
    (hplain : Glob.IsPlain extension) (h : fs.isFolder pagesDir = true) :
    discover fs pagesDir extension = .ok (sortPaths
      ((search fs (wayPatterns (bearings pagesDir).2 ++
        [.descend, .name (Glob.suffixTokens (Text.dropLeading '.' extension))])
          (bearings pagesDir).1).filter fs.isFile)) := by
  have hsublist : (Text.dropLeading '.' extension).Sublist extension := List.dropWhile_sublist _
  rw [discover, matchingFiles?_patternText (fun hmem => hslash (hsublist.mem hmem))
    (fun c hc => hplain c (hsublist.mem hc))]
  exact if_pos h

theorem isFolder_of_discover {fs : FileSystem} {pagesDir extension : Text} {files : List Text}
    (h : discover fs pagesDir extension = .ok files) : fs.isFolder pagesDir = true := by
  by_contra hmissing
  rw [discover, if_neg hmissing] at h
  cases h

/-- An extension without pattern characters finds all pages, unless the search stumbles and finds none. -/
theorem discover_eq_ok {fs : FileSystem} {pagesDir extension : Text} {files : List Text} (hslash : '/' ∉ extension)
    (hplain : Glob.IsPlain extension) (h : discover fs pagesDir extension = .ok files) :
    if stumbles pagesDir then files = [] else ListsPages fs pagesDir extension files := by
  have hisFolder := isFolder_of_discover h
  obtain ⟨folder, hlocate, hfolder⟩ : ∃ folder, fs.locate? pagesDir = some folder ∧
      fs.get? folder = some .folder := Option.bind_eq_some_iff.1 (beq_iff_eq.1 hisFolder)
  have hne : pagesDir ≠ [] := (isFollowable_iff.1 (locate?_eq_some.1 hlocate).1).1
  have hfree := free_bearings hne
  rw [discover_eq hslash hplain hisFolder] at h
  cases h
  split
  · next hstumbles =>
      have hstuck := mt hfree.1 (by simp [hstumbles])
      have hdot := (Classical.not_imp.1 hstuck).1
      rw [hdot] at hstuck ⊢
      rw [search_of_not_free hstuck, List.filter_nil, List.eq_nil_iff_forall_not_mem]
      exact fun q hq => List.not_mem_nil (mem_sortPaths.1 hq)
  · next hstumbles =>
      have hclear := hfree.2 (Bool.eq_false_iff.2 hstumbles)
      have hstation : IsStation (rootOf pagesDir) :=
        (isStation_bearings _).foldl_enter (slash_not_mem_bearings _) hclear
      refine ⟨folder, leadOf (rootOf pagesDir), hlocate, hfolder, ?_, leadOf_cases _, fun file => ?_⟩
      · rw [plainComponents_leadOf hstation.ne_nil, plainComponents_rootOf hne]
      · rw [mem_sortPaths, List.mem_filter, ← mem_search_iff_isPage hstation (reach?_rootOf hlocate) hfolder]
        refine and_congr_left fun _ => ⟨mem_search_of_mem_search_wayPatterns, fun hfound => ?_⟩
        obtain ⟨way, name, hway, _⟩ := mem_search_descend.1 hfound
        obtain ⟨_, _, hroot, _⟩ := mem_within.1 hway
        exact mem_search_wayPatterns (isStation_bearings _) (slash_not_mem_bearings _) hclear
          (Option.isSome_of_eq_some hroot) hfound

end RouteTable
