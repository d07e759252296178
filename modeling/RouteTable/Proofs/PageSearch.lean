import RouteTable.Proofs.Following
import RouteTable.Proofs.Patterns

namespace RouteTable

namespace Discovery

open FileSystem

variable {fs : FileSystem} {folder location : Location} {path p q : Text} {ps : List Text} {rest : List Glob.Pattern}

theorem isMatch_escapedTokens (p s : Text) : Glob.isMatch (p.map Glob.escapedToken) s = true ↔ s = p := by
  rw [Glob.isMatch_eq, Glob.fits_map_escapedToken]

theorem mem_literalStep : q ∈ literalStep fs path p ↔
    (if leadsOn p then fs.isFolder path else (fs.locate? (enter path p)).isSome) = true ∧ q = enter path p := by
  simp only [literalStep]
  generalize (if leadsOn p then fs.isFolder path else (fs.locate? (enter path p)).isSome) = leads
  cases leads <;> simp

theorem mem_choiceStep {tokens : List Glob.Token} : q ∈ choiceStep fs path tokens ↔
    (∃ name, [name] ∈ fs.within path ∧ Glob.isMatch tokens name.text = true ∧ q = enter path name.text) ∨
      (tokens.head? = some (.char '.') ∧ fs.isFolder path = true) ∧
        ∃ mark ∈ [Path.Component.here.text, Path.Component.up.text],
          Glob.isMatch tokens mark = true ∧ q = Path.push path mark := by
  rw [choiceStep, List.mem_append]
  refine or_congr ?_ ?_
  · rw [List.mem_filterMap]
    constructor
    · rintro ⟨way, hway, hq⟩
      split at hq
      · next name =>
          split at hq
          · next hmatch => exact ⟨name, hway, hmatch, (Option.some.inj hq).symm⟩
          · cases hq
      · cases hq
    · rintro ⟨name, hway, hmatch, rfl⟩
      exact ⟨[name], hway, if_pos hmatch⟩
  · split
    · next h =>
        rw [and_iff_right h, List.mem_map]
        simp only [List.mem_filter, and_assoc, eq_comm]
    · next h => simp [h]

theorem eq_enter_of_mem_step (h : q ∈ step fs path (p.map Glob.escapedToken)) : q = enter path p := by
  rw [step] at h
  rcases Glob.literal?_escapedTokens p with hp | ⟨hp, c, hc, hdot⟩
  · rw [hp] at h
    exact (mem_literalStep.1 h).2
  · rw [hp] at h
    rcases mem_choiceStep.1 h with ⟨name, _, hmatch, rfl⟩ | ⟨_, mark, hmark, hmatch, _⟩
    · rw [(isMatch_escapedTokens p name.text).1 hmatch]
    · have hdots : ∀ d ∈ mark, d = '.' := by
        rcases List.mem_pair.1 hmark with rfl | rfl <;> simp [Path.Component.text]
      rw [isMatch_escapedTokens] at hmatch
      exact absurd (hdots c (hmatch ▸ hc)) hdot

theorem exists_ofText? (hp : '/' ∉ p) {c : Char} (hc : c ∈ p) (hdot : c ≠ '.') :
    ∃ name, FileName.ofText? p = some name ∧ name.text = p := by
  have hne : ∀ n, p ≠ List.replicate n '.' := fun n he => hdot (List.eq_of_mem_replicate (he ▸ hc))
  have hvoid : Path.isVoid p = false := by
    have hnil : p ≠ [] := hne 0
    have hhere : p ≠ ['.'] := hne 1
    simp [Path.isVoid, hnil, hhere]
  have hup : p ≠ Path.Component.up.text := hne 2
  have hslash : p.any Path.isSlash = false := List.any_eq_false.2 fun d hd => by
    simpa [Path.isSlash] using fun he : d = '/' => hp (he ▸ hd)
  have hname : isEntryName p = true := by simp [isEntryName, hvoid, hup, hslash]
  exact ⟨⟨p, hname⟩, dif_pos hname, rfl⟩

theorem enter_mem_step (hp : '/' ∉ p) (hpath : fs.locate? path = some folder)
    (hstep : fs.step? folder p = some location)
    (hthere : (fs.locate? (enter path p)).isSome = true) : enter path p ∈ step fs path (p.map Glob.escapedToken) := by
  obtain ⟨hfolder, hentry⟩ := step?_eq_some.1 hstep
  rw [step]
  rcases Glob.literal?_escapedTokens p with hliteral | ⟨hliteral, c, hc, hdot⟩
  · have hisFolder : fs.isFolder path = true := by simp [isFolder, find?, hpath, hfolder]
    rw [hliteral]
    refine mem_literalStep.2 ⟨?_, rfl⟩
    split
    · exact hisFolder
    · exact hthere
  · rw [hliteral]
    obtain ⟨name, hname, htext⟩ := exists_ofText? hp hc hdot
    have hsome : (fs.get? (folder ++ [name])).isSome = true := by
      rcases hentry with ⟨found, hfound, rfl, hsome⟩ | ⟨hnone, _⟩
      · rwa [Option.some.inj (hname.symm.trans hfound)]
      · cases hname.symm.trans hnone
    have hwithin := mem_within.2 ⟨List.cons_ne_nil name [], folder, hpath, hfolder, hsome⟩
    refine mem_choiceStep.2 (.inl ⟨name, hwithin, ?_, ?_⟩)
    · exact (isMatch_escapedTokens p name.text).2 htext
    · rw [htext]

def wayPatterns (ps : List Text) : List Glob.Pattern := ps.map fun p => .name (p.map Glob.escapedToken)

theorem mem_search_of_mem_search_wayPatterns (h : q ∈ search fs (wayPatterns ps ++ rest) path) :
    q ∈ search fs rest (ps.foldl enter path) := by
  induction ps generalizing path with
  | nil => exact h
  | cons p ps ih =>
      rw [wayPatterns, List.map_cons, List.cons_append, search] at h
      obtain ⟨next, hnext, hq⟩ := List.mem_flatMap.1 h
      rw [eq_enter_of_mem_step hnext] at hq
      exact ih hq

theorem mem_search_wayPatterns (hpath : IsStation path) (hps : ∀ p ∈ ps, '/' ∉ p) (hfree : Free path ps)
    (hlead : (fs.locate? (ps.foldl enter path)).isSome = true)
    (h : q ∈ search fs rest (ps.foldl enter path)) : q ∈ search fs (wayPatterns ps ++ rest) path := by
  induction ps generalizing path with
  | nil => exact h
  | cons p ps ih =>
      have hp := hps p List.mem_cons_self
      have hps' : ∀ r ∈ ps, '/' ∉ r := fun r hr => hps r (List.mem_cons_of_mem p hr)
      obtain ⟨hnext, hrest⟩ := hfree.cons hpath hp
      have hstation := hpath.enter hp hnext
      have hthere := isSome_locate?_of_foldl_enter hstation hps' hrest hlead
      obtain ⟨location, hlocation⟩ := Option.isSome_iff_exists.1 hthere
      obtain ⟨folder, hfolder, hstep⟩ := locate?_of_locate?_enter hpath hp hnext hlocation
      rw [wayPatterns, List.map_cons, List.cons_append, search]
      exact List.mem_flatMap.2 ⟨enter path p, enter_mem_step hp hfolder hstep hthere, ih hstation hps' hrest hlead h⟩

/-- The empty step has no text to look for, so an empty path is followed, which leads nowhere. -/
theorem search_of_not_free (h : ¬ Free ['.'] ps) : search fs (wayPatterns ps ++ rest) ['.'] = [] := by
  have hhead : (ps.dropWhile (· == ['.'])).head? = some [] := by simpa [Free] using h
  rw [List.eq_nil_iff_forall_not_mem]
  intro q hq
  clear h
  induction ps with
  | nil => cases hhead
  | cons p ps ih =>
      rw [wayPatterns, List.map_cons, List.cons_append, search] at hq
      obtain ⟨next, hnext, hmem⟩ := List.mem_flatMap.1 hq
      by_cases hdot : p = ['.']
      · subst hdot
        rw [eq_enter_of_mem_step hnext] at hmem
        exact ih hhead hmem
      · have hnil : p = [] := by
          rw [List.dropWhile_cons_of_neg (by simpa using hdot)] at hhead
          simpa using hhead
        subst hnil
        change next ∈ literalStep fs ['.'] [] at hnext
        cases (mem_literalStep.1 hnext).1

theorem mem_descendants {name : FileName} : (q, name) ∈ descendants fs path ↔
    ∃ way, way ++ [name] ∈ fs.within path ∧ q = ((way ++ [name]).map FileName.text).foldl enter path := by
  rw [descendants, List.mem_filterMap]
  constructor
  · rintro ⟨whole, hwhole, h⟩
    obtain ⟨last, hlast, he⟩ := Option.map_eq_some_iff.1 h
    obtain ⟨way, rfl⟩ := List.getLast?_eq_some_iff.1 hlast
    obtain ⟨rfl, rfl⟩ := Prod.mk.inj he
    exact ⟨way, hwhole, List.foldl_map.symm⟩
  · rintro ⟨way, hway, rfl⟩
    refine ⟨way ++ [name], hway, ?_⟩
    rw [List.getLast?_concat, List.foldl_map]
    rfl

theorem mem_search_descend {tokens : List Glob.Token} : q ∈ search fs [.descend, .name tokens] path ↔
    ∃ way name, way ++ [name] ∈ fs.within path ∧ Glob.isMatch tokens name.text = true ∧
      q = ((way ++ [name]).map FileName.text).foldl enter path := by
  rw [search, List.mem_flatMap]
  constructor
  · rintro ⟨⟨found, name⟩, hfound, hq⟩
    obtain ⟨hmem, hmatch⟩ := List.mem_filter.1 hfound
    obtain ⟨way, hway, rfl⟩ := mem_descendants.1 hmem
    exact ⟨way, name, hway, hmatch, List.mem_singleton.1 hq⟩
  · rintro ⟨way, name, hway, hmatch, rfl⟩
    exact ⟨_, List.mem_filter.2 ⟨mem_descendants.2 ⟨way, hway, rfl⟩, hmatch⟩, List.mem_singleton_self _⟩

theorem isFile_eq_true : fs.isFile path = true ↔
    ∃ location text, fs.locate? path = some location ∧ fs.get? location = some (.file text) := by
  rw [isFile, find?]
  cases hlocate : fs.locate? path with
  | none => simp
  | some location =>
      cases hget : fs.get? location with
      | none => simp [hget]
      | some entry => cases entry <;> simp [hget]

def leadOf (path : Text) : Text :=
  if isHere path then [] else if Text.endsWith '/' path then path else path ++ ['/']

theorem plainComponents_concat_slash (h : path ≠ []) :
    Path.plainComponents (path ++ ['/']) = Path.plainComponents path := by
  obtain ⟨c, s, rfl⟩ := List.exists_cons_of_ne_nil h
  have habsolute : Path.isAbsolute (c :: s ++ ['/']) = Path.isAbsolute (c :: s) := rfl
  have hsteps : Path.steps (c :: s ++ ['/']) = Path.steps (c :: s) :=
    (Path.steps_append_slash (c :: s) []).trans (List.append_nil _)
  rw [Path.plainComponents_eq, Path.plainComponents_eq, habsolute, hsteps]

theorem plainComponents_leadOf (h : path ≠ []) :
    Path.plainComponents (leadOf path) = Path.plainComponents path := by
  rw [leadOf]
  split
  · next hhere => rw [plainComponents_of_isHere hhere]; rfl
  · split
    · rfl
    · exact plainComponents_concat_slash h

theorem leadOf_cases (path : Text) : leadOf path = [] ∨ Text.endsWith '/' (leadOf path) = true := by
  rw [leadOf]
  split
  · exact .inl rfl
  · split
    · next hend => exact .inr hend
    · exact .inr (by simp [Text.endsWith])

theorem enter_eq_leadOf_append (hpath : IsStation path) (hp : '/' ∉ p) : enter path p = leadOf path ++ p := by
  rw [enter, leadOf]
  split
  · rfl
  · have hrelative : Path.isAbsolute p ≠ true := by simp [Path.isAbsolute_eq_false_of_not_mem hp]
    have hne : path.isEmpty = false := by simpa using hpath.ne_nil
    rw [Path.push, if_neg hrelative, hne, Bool.false_or]
    split
    · rfl
    · exact List.append_cons path '/' p

theorem foldl_enter_eq (hpath : IsStation path) (hne : ps ≠ [])
    (hps : ∀ p ∈ ps, '/' ∉ p ∧ Path.isVoid p = false) : ps.foldl enter path = leadOf path ++ Text.joinWith '/' ps := by
  induction ps generalizing path with
  | nil => exact absurd rfl hne
  | cons p ps ih =>
      obtain ⟨hp, hvoid⟩ := hps p List.mem_cons_self
      have henter := enter_eq_leadOf_append hpath hp
      cases ps with
      | nil => exact henter
      | cons p' ps =>
          have hplain : Path.plainComponents (enter path p) ≠ [] := by
            simp [plainComponents_enter path hp, Path.plainComponents_of_slash_not_mem hp, hvoid]
          have hhere : isHere (enter path p) ≠ true := fun hhere => hplain (plainComponents_of_isHere hhere)
          have hend : Text.endsWith '/' (enter path p) ≠ true := by
            have hne : p ≠ [] := fun hnil => by simp [hnil, Path.isVoid] at hvoid
            simp [henter, Text.endsWith_append_eq_false hne hp]
          have hlead : leadOf (enter path p) = leadOf path ++ p ++ ['/'] := by
            rw [leadOf, if_neg hhere, if_neg hend, henter]
          rw [List.foldl_cons, ih (.inr hplain) (List.cons_ne_nil p' ps) fun r hr => hps r (List.mem_cons_of_mem p hr),
            hlead, Text.joinWith_cons_cons '/' p (List.cons_ne_nil p' ps), List.append_assoc, List.append_assoc]
          rfl

/-- A page below a folder: a file behind folders on the way, whose path is short enough to be followed and whose
name ends in a dot and the extension. -/
def IsPage (fs : FileSystem) (folder : Location) (lead extension file : Text) : Prop :=
  ∃ way name text, (∀ front, front <+: way → fs.get? (folder ++ front) = some .folder) ∧
    fs.get? (folder ++ (way ++ [name])) = some (.file text) ∧
    (∃ front, name.text = front ++ '.' :: Text.dropLeading '.' extension) ∧
    file = lead ++ Text.joinWith '/' ((way ++ [name]).map FileName.text) ∧ isFollowable file = true

theorem mem_search_iff_isPage {root : Text} {extension file : Text} (hroot : IsStation root)
    (hreach : fs.reach? root = some folder) (hfolder : fs.get? folder = some .folder) :
    (file ∈ search fs [.descend, .name (Glob.suffixTokens (Text.dropLeading '.' extension))] root ∧
      fs.isFile file = true) ↔ IsPage fs folder (leadOf root) extension file := by
  have hsegments : ∀ way : Location, ∀ p ∈ way.map FileName.text, '/' ∉ p ∧ Path.isVoid p = false := by
    intro way p hp
    obtain ⟨name, _, rfl⟩ := List.mem_map.1 hp
    exact slash_not_mem_text name
  have hpath : ∀ (way : Location) (name : FileName), ((way ++ [name]).map FileName.text).foldl enter root =
      leadOf root ++ Text.joinWith '/' ((way ++ [name]).map FileName.text) :=
    fun way name => foldl_enter_eq hroot (by simp) (hsegments _)
  have hreachBelow : ∀ way (name : FileName), fs.reach? (((way ++ [name]).map FileName.text).foldl enter root) =
      ((way ++ [name]).map FileName.text).foldlM fs.step? folder := by
    intro way name
    rw [reach?_foldl_enter root fun p hp => (hsegments _ p hp).1, hreach]
    rfl
  constructor
  · rintro ⟨hmem, hfile⟩
    obtain ⟨way, name, _, hmatch, rfl⟩ := mem_search_descend.1 hmem
    obtain ⟨location, text, hlocate, hget⟩ := isFile_eq_true.1 hfile
    obtain ⟨hfollowable, hlead⟩ := locate?_eq_some.1 hlocate
    rw [hreachBelow] at hlead
    obtain ⟨hfront, _, rfl⟩ := foldlM_step?_text_eq_some.1 hlead
    exact ⟨way, name, text, hfront, hget, (Glob.isMatch_suffixTokens _ _).1 hmatch, hpath way name, hfollowable⟩
  · rintro ⟨way, name, text, hfront, hget, hname, rfl, hfollowable⟩
    rw [← hpath] at hfollowable ⊢
    have hthere : (fs.get? (folder ++ (way ++ [name]))).isSome = true := Option.isSome_of_eq_some hget
    have hlocate := locate?_eq_some.2 ⟨hfollowable,
      (hreachBelow way name).trans (foldlM_step?_text_eq_some.2 ⟨hfront, hthere, rfl⟩)⟩
    have hfree : Free root ((way ++ [name]).map FileName.text) :=
      free_of_nil_not_mem fun hnil => nomatch (hsegments _ _ hnil).2
    obtain ⟨folder', hfolder'⟩ := Option.isSome_iff_exists.1 (isSome_locate?_of_foldl_enter hroot
      (fun p hp => (hsegments _ p hp).1) hfree (Option.isSome_of_eq_some hlocate))
    obtain rfl : folder' = folder := Option.some.inj ((locate?_eq_some.1 hfolder').2.symm.trans hreach)
    have hway : way ++ [name] ∈ fs.within root := mem_within.2 ⟨by simp, folder', hfolder', hfolder, hthere⟩
    exact ⟨mem_search_descend.2 ⟨way, name, hway, (Glob.isMatch_suffixTokens _ _).2 hname, rfl⟩,
      isFile_eq_true.2 ⟨_, text, hlocate, hget⟩⟩

end Discovery

end RouteTable
