import Mathlib.Data.List.Basic
import Mathlib.Data.Option.Basic
import RouteTable.FileSystem

namespace RouteTable.FileSystem

variable {fs fs' : FileSystem} {location location' : Location} {path piece text : Text} {pieces : List Text}

/-- The same files with the same texts; there may be other folders. -/
def SameFiles (fs fs' : FileSystem) : Prop :=
  ∀ location text, fs'.get? location = some (.file text) ↔ fs.get? location = some (.file text)

theorem SameFiles.refl (fs : FileSystem) : fs.SameFiles fs := fun _ _ => Iff.rfl

theorem SameFiles.trans {fs'' : FileSystem} (h : fs.SameFiles fs') (h' : fs'.SameFiles fs'') : fs.SameFiles fs'' :=
  fun location text => (h' location text).trans (h location text)

theorem ne_nil_of_get?_ne_folder (h : fs.get? location ≠ some .folder) : location ≠ [] :=
  fun hnil => h (if_pos hnil)

theorem sameFiles_set_folder (h : fs.get? location = none) : fs.SameFiles (fs.set location .folder) := by
  intro other text
  by_cases hother : other = location
  · have hfree : fs.get? location ≠ some .folder := by simp [h]
    rw [hother, get?_set_self (ne_nil_of_get?_ne_folder hfree), h]
    simp
  · rw [get?_set_of_ne hother]

theorem makeStep?_cases (h : makeStep? (fs, location) piece = some (fs', location')) :
    fs' = fs ∧ fs.step? location piece = some location' ∨
      fs.get? location' = none ∧ fs' = fs.set location' .folder := by
  have hstep : (fs.step? location piece).map (fun found => (fs, found)) = some (fs', location') →
      fs' = fs ∧ fs.step? location piece = some location' := by
    intro h
    obtain ⟨found, hfound, he⟩ := Option.map_eq_some_iff.1 h
    cases he
    exact ⟨rfl, hfound⟩
  simp only [makeStep?] at h
  split at h
  · split at h
    · next hmissing =>
        cases h
        exact .inr ⟨hmissing.2.1, rfl⟩
    · exact .inl (hstep h)
  · exact .inl (hstep h)

theorem sameFiles_makeStep? (h : makeStep? (fs, location) piece = some (fs', location')) : fs.SameFiles fs' := by
  rcases makeStep?_cases h with ⟨rfl, _⟩ | ⟨hnone, rfl⟩
  · exact SameFiles.refl _
  · exact sameFiles_set_folder hnone

theorem sameFiles_makeWay (fs : FileSystem) (location : Location) (pieces : List Text) :
    fs.SameFiles (makeWay (fs, location) pieces) := by
  induction pieces generalizing fs location with
  | nil => exact SameFiles.refl fs
  | cons piece pieces ih =>
      rw [makeWay]
      split
      · next reached hstep =>
          obtain ⟨made, inner⟩ := reached
          exact (sameFiles_makeStep? hstep).trans (ih made inner)
      · exact SameFiles.refl fs

theorem sameFiles_afterMaking (fs : FileSystem) (path : Text) : fs.SameFiles (fs.afterMaking path) := by
  rw [afterMaking]
  split
  · exact sameFiles_makeWay fs _ _
  · exact SameFiles.refl fs

theorem makeWay_of_foldlM {reached reached' : FileSystem × Location}
    (h : pieces.foldlM makeStep? reached = some reached') : makeWay reached pieces = reached'.1 := by
  induction pieces generalizing reached with
  | nil => rw [makeWay, Option.some.inj h]
  | cons piece pieces ih =>
      rw [List.foldlM_cons] at h
      obtain ⟨next, hnext, hrest⟩ := Option.bind_eq_some_iff.1 h
      simp only [makeWay, hnext]
      exact ih hrest

theorem sameFiles_makeFolders? (h : fs.makeFolders? path = some fs') : fs.SameFiles fs' := by
  obtain ⟨⟨made, location⟩, hfold, hend⟩ := Option.bind_eq_some_iff.1 h
  have hmade := sameFiles_makeWay fs (fs.start path) (Text.pieces Path.isSlash path)
  rw [makeWay_of_foldlM hfold] at hmade
  dsimp only at hend
  split at hend
  · cases hend
    exact hmade
  · cases hend

theorem step?_eq_some : fs.step? location piece = some location' ↔ fs.get? location = some .folder ∧
    ((∃ name, FileName.ofText? piece = some name ∧ location' = location ++ [name] ∧
        (fs.get? location').isSome = true) ∨
      FileName.ofText? piece = none ∧
        location' = if piece = Path.Component.up.text then location.dropLast else location) := by
  rw [step?]
  by_cases hfolder : fs.get? location = some .folder
  · rw [if_pos hfolder]
    cases FileName.ofText? piece with
    | none =>
        simp only [hfolder, Option.some.injEq, true_and, reduceCtorEq, false_and, exists_false, false_or]
        exact eq_comm
    | some name =>
        by_cases hthere : (fs.get? (location ++ [name])).isSome = true
        · simp only [hthere, if_true, hfolder, Option.some.injEq, true_and, reduceCtorEq, false_and, or_false]
          constructor
          · rintro rfl
            exact ⟨name, rfl, rfl, hthere⟩
          · rintro ⟨_, rfl, rfl, _⟩
            rfl
        · simp only [hthere, hfolder, Option.some.injEq, true_and, reduceCtorEq, false_and, or_false]
          constructor
          · intro h
            cases h
          · rintro ⟨_, rfl, rfl, h⟩
            exact absurd h hthere
  · simp [hfolder]

theorem foldlM_step?_mono (hstep : ∀ l p l', fs.step? l p = some l' → fs'.step? l p = some l') {start : Location}
    (h : pieces.foldlM fs.step? start = some location) : pieces.foldlM fs'.step? start = some location := by
  induction pieces generalizing start with
  | nil => exact h
  | cons piece pieces ih =>
      rw [List.foldlM_cons] at h ⊢
      obtain ⟨next, hnext, hrest⟩ := Option.bind_eq_some_iff.1 h
      exact Option.bind_eq_some_iff.2 ⟨next, hstep _ _ _ hnext, ih hrest⟩

theorem step?_set_file (hfree : fs.get? location ≠ some .folder) (text : Text) {l l' : Location}
    (h : fs.step? l piece = some l') : (fs.set location (.file text)).step? l piece = some l' := by
  obtain ⟨hfolder, hrest⟩ := step?_eq_some.1 h
  have hl : l ≠ location := fun he => hfree (he ▸ hfolder)
  refine step?_eq_some.2 ⟨by rw [get?_set_of_ne hl, hfolder], ?_⟩
  rcases hrest with ⟨name, hname, rfl, hthere⟩ | hstay
  · refine .inl ⟨name, hname, rfl, ?_⟩
    by_cases he : l ++ [name] = location
    · rw [he, get?_set_self (ne_nil_of_get?_ne_folder hfree)]
      rfl
    · rw [get?_set_of_ne he, hthere]
  · exact .inr hstay

theorem target?_eq_some (h : fs.target? path = some location) : isFollowable path = true ∧
    fs.get? location ≠ some .folder ∧ ∃ folder last name, (Text.pieces Path.isSlash path).getLast? = some last ∧
      (Text.pieces Path.isSlash path).dropLast.foldlM fs.step? (fs.start path) = some folder ∧
      FileName.ofText? last = some name ∧ fs.get? folder = some .folder ∧ location = folder ++ [name] := by
  obtain ⟨folder, hfolder, h⟩ := Option.bind_eq_some_iff.1 h
  obtain ⟨name, hname, h⟩ := Option.bind_eq_some_iff.1 h
  obtain ⟨last, hlast, hname⟩ := Option.bind_eq_some_iff.1 hname
  split at h
  · next hfree =>
      cases h
      exact ⟨hfree.1, hfree.2.2.2, folder, last, name, hlast, hfolder, hname, hfree.2.2.1, rfl⟩
  · cases h

/-- What is written is found under its path, and nothing else changes. -/
theorem write?_eq_some (h : fs.write? path text = some fs') : ∃ location, fs'.locate? path = some location ∧
    fs'.get? location = some (.file text) ∧ ∀ other, other ≠ location → fs'.get? other = fs.get? other := by
  obtain ⟨location, htarget, rfl⟩ := Option.map_eq_some_iff.1 h
  obtain ⟨hfollowable, hfree, folder, last, name, hlast, hfold, hname, hfolder, rfl⟩ := target?_eq_some htarget
  have hself := get?_set_self (ne_nil_of_get?_ne_folder hfree) (.file text) fs
  refine ⟨folder ++ [name], ?_, hself, fun other hother => get?_set_of_ne hother _ fs⟩
  have hne : folder ≠ folder ++ [name] := by simp
  have hpieces : Text.pieces Path.isSlash path = (Text.pieces Path.isSlash path).dropLast ++ [last] :=
    (List.dropLast_append_getLast? last hlast).symm
  have hstart : (fs.set (folder ++ [name]) (.file text)).start path = fs.start path := rfl
  rw [locate?, if_pos hfollowable, hpieces, List.foldlM_append, hstart]
  refine Option.bind_eq_some_iff.2 ⟨folder, foldlM_step?_mono (fun _ _ _ => step?_set_file hfree text) hfold, ?_⟩
  have hlaststep : (fs.set (folder ++ [name]) (.file text)).step? folder last = some (folder ++ [name]) :=
    step?_eq_some.2 ⟨by rw [get?_set_of_ne hne, hfolder], .inl ⟨name, hname, rfl, by rw [hself]; rfl⟩⟩
  rw [List.foldlM_cons, hlaststep]
  rfl

end RouteTable.FileSystem
