import Mathlib.Data.List.DropRight
import RouteTable.Discovery
import RouteTable.Proofs.Components
import RouteTable.Proofs.FileChanges

namespace RouteTable

namespace Text

variable {s t : Text} {c : Char}

theorem foldl_utf8Size (s : Text) (n : Nat) :
    s.foldl (fun n c => n + c.utf8Size) n = n + byteCount s := by
  induction s generalizing n with
  | nil => rfl
  | cons c s ih =>
      rw [byteCount, List.foldl_cons, List.foldl_cons, ih, ih]
      omega

theorem byteCount_append (s t : Text) : byteCount (s ++ t) = byteCount s + byteCount t := by
  rw [byteCount, List.foldl_append, foldl_utf8Size]
  rfl

theorem byteCount_pos (h : s ≠ []) : 0 < byteCount s := by
  obtain ⟨c, s, rfl⟩ := List.exists_cons_of_ne_nil h
  rw [byteCount, List.foldl_cons, foldl_utf8Size]
  have := c.utf8Size_pos
  omega

theorem exists_dropTrailing (c : Char) (s : Text) : ∃ n, s = dropTrailing c s ++ List.replicate n c := by
  have htrail : ∀ d ∈ s.rtakeWhile (· == c), d = c := fun d hd => by simpa using List.mem_rtakeWhile_imp hd
  exact ⟨_, (List.rdropWhile_append_rtakeWhile.symm.trans
    (congrArg (s.rdropWhile (· == c) ++ ·) (List.eq_replicate_of_mem htrail)))⟩

theorem endsWith_append_eq_false (hne : t ≠ []) (h : c ∉ t) : endsWith c (s ++ t) = false := by
  have hlast : (s ++ t).getLast? = some (t.getLast hne) := by
    rw [List.getLast?_append_of_ne_nil s hne, List.getLast?_eq_some_getLast hne]
  have hc : t.getLast hne ≠ c := fun he => h (he ▸ List.getLast_mem hne)
  rw [endsWith, hlast]
  simpa using hc

theorem pieces_append_replicate (s : Text) (n : Nat) :
    pieces Path.isSlash (s ++ List.replicate n '/') = pieces Path.isSlash s ++ List.replicate n [] := by
  induction n generalizing s with
  | zero => rw [List.replicate_zero, List.replicate_zero, List.append_nil, List.append_nil]
  | succ n ih =>
      rw [List.replicate_succ, List.replicate_succ, List.append_cons, ih, pieces_append_cons rfl]
      exact List.append_assoc _ _ _

end Text

namespace Path

variable {path p : Text}

theorem pieces_of_slash_not_mem (h : '/' ∉ p) : Text.pieces isSlash p = [p] :=
  Text.pieces_of_clean fun _ hc => beq_eq_false_iff_ne.2 fun he => h (he ▸ hc)

theorem plainComponents_eq_nil :
    plainComponents path = [] ↔ isAbsolute path = false ∧ ∀ q ∈ Text.pieces isSlash path, isVoid q = true := by
  rw [plainComponents_eq, List.append_eq_nil_iff, List.map_eq_nil_iff, steps, List.filter_eq_nil_iff]
  cases isAbsolute path <;> simp

theorem plainComponents_of_slash_not_mem (h : '/' ∉ p) :
    plainComponents p = if isVoid p then [] else [Component.ofPiece p] := by
  rw [plainComponents_eq, isAbsolute_eq_false_of_not_mem h, steps, pieces_of_slash_not_mem h, List.filter_singleton]
  cases isVoid p <;> rfl

theorem flatMap_plainComponents_pieces (s : Text) :
    (Text.pieces isSlash s).flatMap plainComponents = (steps s).map Component.ofPiece := by
  have hpieces : ∀ ps : List Text, (∀ p ∈ ps, '/' ∉ p) →
      ps.flatMap plainComponents = (ps.filter fun p => !isVoid p).map Component.ofPiece := by
    intro ps h
    induction ps with
    | nil => rfl
    | cons p ps ih =>
        rw [List.flatMap_cons, plainComponents_of_slash_not_mem (h p List.mem_cons_self),
          ih fun q hq => h q (List.mem_cons_of_mem p hq)]
        cases hvoid : isVoid p <;> simp [hvoid]
  exact hpieces _ fun p => slash_not_mem_piece

end Path

namespace FileSystem

open RouteTable.Path Discovery

variable {fs : FileSystem} {location location' : Location} {path p : Text} {ps : List Text}

def reach? (fs : FileSystem) (path : Text) : Option Location :=
  (Text.pieces isSlash path).foldlM fs.step? (fs.start path)

theorem locate?_eq_some :
    fs.locate? path = some location ↔ isFollowable path = true ∧ fs.reach? path = some location := by
  rw [locate?, reach?]
  split
  · next h => simp [h]
  · next h => simp [h]

theorem isFollowable_iff : isFollowable path = true ↔ path ≠ [] ∧ Text.byteCount path < 4096 := by
  simp [isFollowable]

theorem step?_of_isVoid (h : isVoid p = true) :
    fs.step? location p = if fs.get? location = some .folder then some location else none := by
  have hname : FileName.ofText? p = none := dif_neg (by simp [isEntryName, h])
  have hup : p ≠ Component.up.text := by
    rintro rfl
    cases h
  rw [step?, hname, if_neg hup]

theorem step?_bind_step? {q : Text} (h : isVoid q = true) :
    (fs.step? location q).bind (fs.step? · p) = fs.step? location p := by
  rw [step?_of_isVoid h]
  by_cases hfolder : fs.get? location = some .folder
  · rw [if_pos hfolder, Option.bind_some]
  · rw [if_neg hfolder, Option.bind_none, step?, if_neg hfolder]

theorem foldlM_step?_bind_step? (h : ∀ q ∈ ps, isVoid q = true) :
    (ps.foldlM fs.step? location).bind (fs.step? · p) = fs.step? location p := by
  induction ps generalizing location with
  | nil => rfl
  | cons q ps ih =>
      have hrest : ∀ l, (ps.foldlM fs.step? l).bind (fs.step? · p) = fs.step? l p :=
        fun l => ih fun r hr => h r (List.mem_cons_of_mem q hr)
      calc ((q :: ps).foldlM fs.step? location).bind (fs.step? · p)
          = (fs.step? location q).bind fun l => (ps.foldlM fs.step? l).bind (fs.step? · p) := by
            rw [List.foldlM_cons]
            exact Option.bind_assoc _ _ _
        _ = (fs.step? location q).bind (fs.step? · p) := by simp only [hrest]
        _ = fs.step? location p := step?_bind_step? (h q List.mem_cons_self)

theorem eq_of_foldlM_step? (h : ∀ q ∈ ps, isVoid q = true)
    (hlead : ps.foldlM fs.step? location = some location') : location' = location := by
  induction ps generalizing location with
  | nil => exact (Option.some.inj hlead).symm
  | cons q ps ih =>
      rw [List.foldlM_cons, step?_of_isVoid (h q List.mem_cons_self)] at hlead
      split at hlead
      · exact ih (fun r hr => h r (List.mem_cons_of_mem q hr)) hlead
      · cases hlead

theorem foldlM_step?_of_append_replicate {n : Nat}
    (h : (ps ++ List.replicate n []).foldlM fs.step? location = some location') :
    ps.foldlM fs.step? location = some location' := by
  rw [List.foldlM_append] at h
  obtain ⟨reached, hreached, hvoids⟩ := Option.bind_eq_some_iff.1 h
  rwa [eq_of_foldlM_step? (fun q hq => by rw [List.eq_of_mem_replicate hq]; rfl) hvoids]

theorem foldlM_concat_step? (ps : List Text) (location : Location) :
    (ps ++ [p]).foldlM fs.step? location = (ps.foldlM fs.step? location).bind (fs.step? · p) := by
  rw [List.foldlM_append]
  exact congrArg _ (funext fun l => bind_pure (fs.step? l p))

theorem reach?_of_plainComponents_eq_nil (h : plainComponents path = []) (hp : '/' ∉ p) :
    fs.reach? p = (fs.reach? path).bind (fs.step? · p) := by
  obtain ⟨habsolute, hvoid⟩ := plainComponents_eq_nil.1 h
  rw [reach?, reach?, start, start, habsolute, isAbsolute_eq_false_of_not_mem hp, foldlM_step?_bind_step? hvoid,
    pieces_of_slash_not_mem hp]
  exact bind_pure _

theorem reach?_here (h : fs.get? fs.workingDir = some .folder) : fs.reach? ['.'] = some fs.workingDir := by
  change (fs.step? fs.workingDir ['.']).bind some = _
  rw [step?_of_isVoid rfl, if_pos h]
  rfl

theorem reach?_push (hne : path ≠ []) (hp : '/' ∉ p) :
    fs.reach? (push path p) = (fs.reach? path).bind (fs.step? · p) := by
  have hrelative : isAbsolute p ≠ true := by simp [isAbsolute_eq_false_of_not_mem hp]
  have hlast : Text.pieces isSlash p = [p] := pieces_of_slash_not_mem hp
  rw [push, if_neg hrelative]
  by_cases hend : Text.endsWith '/' path = true
  · obtain ⟨front, rfl⟩ := List.getLast?_eq_some_iff.1 (beq_iff_eq.1 hend)
    have hstart : fs.start (front ++ '/' :: p) = fs.start (front ++ ['/']) := by cases front <;> rfl
    rw [if_pos (by simp [hend]), List.append_assoc, List.singleton_append, reach?, reach?, hstart,
      Text.pieces_append_cons rfl, Text.pieces_append_cons rfl, hlast, Text.pieces, foldlM_concat_step?,
      foldlM_concat_step?, Option.bind_assoc]
    exact congrArg _ (funext fun l => (step?_bind_step? rfl).symm)
  · have hstart : fs.start (path ++ '/' :: p) = fs.start path := by
      obtain ⟨d, s, rfl⟩ := List.exists_cons_of_ne_nil hne
      rfl
    rw [if_neg (by simp [hend, hne]), reach?, reach?, hstart, Text.pieces_append_cons rfl, hlast, foldlM_concat_step?]

theorem plainComponents_of_isHere (h : isHere path = true) : plainComponents path = [] := by
  have hhere : components path = [.here] := by simpa [isHere] using h
  rw [plainComponents, hhere]
  rfl

theorem reach?_enter (path : Text) (hp : '/' ∉ p) :
    fs.reach? (enter path p) = (fs.reach? path).bind (fs.step? · p) := by
  rw [enter]
  split
  · next hhere => exact reach?_of_plainComponents_eq_nil (plainComponents_of_isHere hhere) hp
  · cases path with
    | nil =>
        rw [push, if_neg (by simp [isAbsolute_eq_false_of_not_mem hp])]
        exact reach?_of_plainComponents_eq_nil rfl hp
    | cons c path => exact reach?_push (List.cons_ne_nil c path) hp

theorem reach?_foldl_enter (path : Text) (h : ∀ p ∈ ps, '/' ∉ p) :
    fs.reach? (ps.foldl enter path) = (fs.reach? path).bind (ps.foldlM fs.step? ·) := by
  induction ps generalizing path with
  | nil => exact (bind_pure _).symm
  | cons p ps ih =>
      rw [List.foldl_cons, ih _ fun q hq => h q (List.mem_cons_of_mem p hq), reach?_enter path (h p List.mem_cons_self),
        Option.bind_assoc]
      rfl

theorem plainComponents_enter (path : Text) (hp : '/' ∉ p) :
    plainComponents (enter path p) = plainComponents path ++ plainComponents p := by
  rw [enter]
  split
  · next hhere => rw [plainComponents_of_isHere hhere, List.nil_append]
  · rw [plainComponents_push, if_neg (by simp [isAbsolute_eq_false_of_not_mem hp])]

theorem plainComponents_foldl_enter (path : Text) (h : ∀ p ∈ ps, '/' ∉ p) :
    plainComponents (ps.foldl enter path) = plainComponents path ++ ps.flatMap plainComponents := by
  induction ps generalizing path with
  | nil => exact (List.append_nil _).symm
  | cons p ps ih =>
      rw [List.foldl_cons, ih _ fun q hq => h q (List.mem_cons_of_mem p hq),
        plainComponents_enter path (h p List.mem_cons_self), List.append_assoc, List.flatMap_cons]

end FileSystem

namespace Discovery

open FileSystem RouteTable.Path

variable {fs : FileSystem} {location : Location} {path p : Text} {ps : List Text}

/-- What a search from the working directory or from the root is at: the mark of the former stands alone. -/
def IsStation (path : Text) : Prop := path = ['.'] ∨ plainComponents path ≠ []

/-- A search that is in the working directory takes no empty step before it has left. -/
def Free (path : Text) (ps : List Text) : Prop := path = ['.'] → (ps.dropWhile (· == ['.'])).head? ≠ some []

theorem free_of_nil_not_mem (h : [] ∉ ps) : Free path ps := fun _ hhead =>
  h ((List.dropWhile_sublist _).mem (List.mem_of_mem_head? hhead))

theorem IsStation.ne_nil (h : IsStation path) : path ≠ [] := by
  rintro rfl
  rcases h with h | h
  · cases h
  · exact h rfl

theorem IsStation.enter (h : IsStation path) (hp : '/' ∉ p) (hfree : path = ['.'] → p ≠ []) :
    IsStation (enter path p) := by
  by_cases hplain : plainComponents path = []
  · obtain rfl : path = ['.'] := h.resolve_right fun hne => hne hplain
    change IsStation p
    by_cases hdot : p = ['.']
    · exact .inl hdot
    · have hvoid : isVoid p = false := by simp [isVoid, hfree rfl, hdot]
      exact .inr (by simp [plainComponents_of_slash_not_mem hp, hvoid])
  · exact .inr (by simp [plainComponents_enter path hp, hplain])

theorem Free.cons (h : Free path (p :: ps)) (hstation : IsStation path) (hp : '/' ∉ p) :
    (path = ['.'] → p ≠ []) ∧ Free (enter path p) ps := by
  refine ⟨fun hdot hnil => h hdot (by simp [hnil]), fun hnext => ?_⟩
  have hplain : plainComponents path = [] := by
    have hboth : plainComponents path ++ plainComponents p = [] := by
      rw [← plainComponents_enter path hp, hnext]
      rfl
    exact (List.append_eq_nil_iff.1 hboth).1
  obtain rfl : path = ['.'] := hstation.resolve_right fun hne => hne hplain
  obtain rfl : p = ['.'] := hnext
  exact h rfl

theorem enter_of_ne_nil (h : plainComponents path ≠ []) (hp : '/' ∉ p) :
    enter path p = path ++ p ∨ enter path p = path ++ '/' :: p := by
  have hhere : isHere path ≠ true := fun hhere => h (plainComponents_of_isHere hhere)
  rw [enter, if_neg hhere, push, if_neg (by simp [isAbsolute_eq_false_of_not_mem hp])]
  split
  · exact .inl rfl
  · exact .inr rfl

theorem byteCount_le_enter (h : IsStation path) (hp : '/' ∉ p) (hfree : path = ['.'] → p ≠ []) :
    Text.byteCount path ≤ Text.byteCount (enter path p) := by
  rcases h with rfl | h
  · exact Text.byteCount_pos (hfree rfl)
  · rcases enter_of_ne_nil h hp with he | he
    · rw [he, Text.byteCount_append]
      exact Nat.le_add_right _ _
    · rw [he, Text.byteCount_append]
      exact Nat.le_add_right _ _

theorem locate?_of_locate?_enter (h : IsStation path) (hp : '/' ∉ p) (hfree : path = ['.'] → p ≠ [])
    (hlead : fs.locate? (enter path p) = some location) :
    ∃ folder, fs.locate? path = some folder ∧ fs.step? folder p = some location := by
  obtain ⟨hfollowable, hreach⟩ := locate?_eq_some.1 hlead
  rw [reach?_enter path hp] at hreach
  obtain ⟨folder, hfolder, hstep⟩ := Option.bind_eq_some_iff.1 hreach
  have hbytes := (isFollowable_iff.1 hfollowable).2
  have hshorter := byteCount_le_enter h hp hfree
  exact ⟨folder, locate?_eq_some.2 ⟨isFollowable_iff.2 ⟨h.ne_nil, by omega⟩, hfolder⟩, hstep⟩

theorem isSome_locate?_of_foldl_enter (h : IsStation path) (hps : ∀ p ∈ ps, '/' ∉ p) (hfree : Free path ps)
    (hlead : (fs.locate? (ps.foldl enter path)).isSome = true) : (fs.locate? path).isSome = true := by
  induction ps generalizing path with
  | nil => exact hlead
  | cons p ps ih =>
      have hp := hps p List.mem_cons_self
      obtain ⟨hnext, hrest⟩ := hfree.cons h hp
      obtain ⟨location, hlocation⟩ := Option.isSome_iff_exists.1
        (ih (h.enter hp hnext) (fun q hq => hps q (List.mem_cons_of_mem p hq)) hrest hlead)
      obtain ⟨folder, hfolder, _⟩ := locate?_of_locate?_enter h hp hnext hlocation
      rw [hfolder]
      rfl

theorem IsStation.foldl_enter (h : IsStation path) (hps : ∀ p ∈ ps, '/' ∉ p) (hfree : Free path ps) :
    IsStation (ps.foldl Discovery.enter path) := by
  induction ps generalizing path with
  | nil => exact h
  | cons p ps ih =>
      have hp := hps p List.mem_cons_self
      obtain ⟨hnext, hrest⟩ := hfree.cons h hp
      exact ih (h.enter hp hnext) (fun q hq => hps q (List.mem_cons_of_mem p hq)) hrest

end Discovery

namespace FileSystem

variable {fs : FileSystem} {location location' : Location} {path : Text}

theorem ofText?_text (name : FileName) : FileName.ofText? name.text = some name := dif_pos name.isEntryName_text

theorem slash_not_mem_text (name : FileName) : '/' ∉ name.text ∧ Path.isVoid name.text = false := by
  have hname := name.isEntryName_text
  simp only [isEntryName, Bool.and_eq_true, Bool.not_eq_true', List.any_eq_false] at hname
  exact ⟨fun hslash => hname.2 _ hslash rfl, hname.1.1⟩

theorem step?_text_eq_some {name : FileName} : fs.step? location name.text = some location' ↔
    fs.get? location = some .folder ∧ (fs.get? (location ++ [name])).isSome = true ∧
      location' = location ++ [name] := by
  rw [step?_eq_some]
  refine and_congr_right fun _ => ?_
  constructor
  · rintro (⟨found, hfound, rfl, hthere⟩ | ⟨hnone, _⟩)
    · obtain rfl : name = found := Option.some.inj ((ofText?_text name).symm.trans hfound)
      exact ⟨hthere, rfl⟩
    · cases (ofText?_text name).symm.trans hnone
  · rintro ⟨hthere, rfl⟩
    exact .inl ⟨name, ofText?_text name, rfl, hthere⟩

theorem foldlM_step?_text_eq_some {way : Location} {name : FileName} :
    ((way ++ [name]).map FileName.text).foldlM fs.step? location = some location' ↔
      (∀ front, front <+: way → fs.get? (location ++ front) = some .folder) ∧
        (fs.get? (location ++ (way ++ [name]))).isSome = true ∧ location' = location ++ (way ++ [name]) := by
  induction way generalizing location with
  | nil =>
      have hlone : ([name].map FileName.text).foldlM fs.step? location = fs.step? location name.text := bind_pure _
      simp only [List.prefix_nil, forall_eq, List.append_nil, List.nil_append, hlone]
      exact step?_text_eq_some
  | cons first way ih =>
      rw [List.cons_append, List.map_cons, List.foldlM_cons]
      refine Option.bind_eq_some_iff.trans ?_
      simp only [step?_text_eq_some, ih]
      constructor
      · rintro ⟨inner, ⟨hfolder, _, rfl⟩, hfront, hthere, hlocation⟩
        rw [List.append_assoc] at hthere hlocation
        refine ⟨fun front hprefix => ?_, hthere, hlocation⟩
        rcases List.prefix_cons_iff.1 hprefix with rfl | ⟨below, rfl, hbelow⟩
        · rwa [List.append_nil]
        · have hinner := hfront below hbelow
          rwa [List.append_assoc] at hinner
      · rintro ⟨hfront, hthere, hlocation⟩
        have hinner : ∀ front, front <+: way → fs.get? (location ++ [first] ++ front) = some .folder := by
          intro front hprefix
          rw [List.append_assoc]
          exact hfront _ (List.prefix_cons_iff.2 (.inr ⟨front, rfl, hprefix⟩))
        have hfolder := hfront [] (List.nil_prefix)
        have hfirst := hinner [] List.nil_prefix
        rw [List.append_nil] at hfolder hfirst
        refine ⟨location ++ [first], ⟨hfolder, by rw [hfirst]; rfl, rfl⟩, hinner, ?_, ?_⟩
        · rwa [List.append_assoc]
        · rwa [List.append_assoc]

theorem isSome_get?_iff (h : location ≠ []) :
    (fs.get? location).isSome = true ↔ ∃ e ∈ fs.entries, e.1 = location := by
  rw [get?, if_neg h, List.lookup_isSome_iff]
  exact exists_congr fun e => and_congr_right fun _ => beq_iff_eq.trans eq_comm

theorem way_eq_some_iff {way : Location} :
    (if location.isPrefixOf location' && location' != location then some (location'.drop location.length) else none) =
      some way ↔ way ≠ [] ∧ location' = location ++ way := by
  constructor
  · intro h
    split at h
    · next hbelow =>
        obtain ⟨⟨rest, rfl⟩, hne⟩ : location <+: location' ∧ location' ≠ location := by simpa using hbelow
        obtain rfl : rest = way := by simpa using h
        exact ⟨fun hnil => hne (by simp [hnil]), rfl⟩
    · cases h
  · rintro ⟨hne, rfl⟩
    simp [hne]

theorem mem_within {way : Location} : way ∈ fs.within path ↔ way ≠ [] ∧ ∃ folder, fs.locate? path = some folder ∧
    fs.get? folder = some .folder ∧ (fs.get? (folder ++ way)).isSome = true := by
  rw [within]
  cases hlocate : fs.locate? path with
  | none => simp
  | some folder =>
      by_cases hfolder : fs.get? folder = some .folder
      · simp only [hfolder, if_true, List.mem_filterMap, way_eq_some_iff, Option.some.injEq, exists_eq_left', true_and]
        constructor
        · rintro ⟨e, he, hne, hlocation⟩
          exact ⟨hne, (isSome_get?_iff (by simp [hne])).2 ⟨e, he, hlocation⟩⟩
        · rintro ⟨hne, hthere⟩
          obtain ⟨e, he, hlocation⟩ := (isSome_get?_iff (by simp [hne])).1 hthere
          exact ⟨e, he, hne, hlocation⟩
      · simp [hfolder]

end FileSystem

end RouteTable
