import RouteTable.Proofs.Loading
import RouteTable.Proofs.PageFiles

namespace RouteTable

open FileSystem Discovery

namespace FileSystem

/-- The path leads to the text, and every other file is as it was. -/
def Writes (fs fs' : FileSystem) (path text : Text) : Prop :=
  ∃ location, fs'.locate? path = some location ∧ fs'.get? location = some (.file text) ∧
    ∀ other, other ≠ location → ∀ content, fs'.get? other = some (.file content) ↔ fs.get? other = some (.file content)

end FileSystem

namespace Session

variable {host : Host} {room? : Option Nat} {fs fs' : FileSystem} {config : Config} {failure : Failure}
  {path text table : Text} {arguments : List Text}

theorem writes_store (h : store fs path text = .ok fs') : fs.Writes fs' path text := by
  simp only [store] at h
  split at h
  · cases h
  · next made hmade =>
      split at h
      · cases h
      · next written hwritten =>
          cases h
          have hmaking : fs.SameFiles made := by
            split at hmade
            · cases hmade
              exact SameFiles.refl fs
            · exact sameFiles_makeFolders? hmade
          obtain ⟨location, hlocate, hget, hothers⟩ := write?_eq_some hwritten
          refine ⟨location, hlocate, hget, fun other hother content => ?_⟩
          rw [hothers other hother]
          exact hmaking other content

theorem survey_eq_ok {pages : Nat} {compilation : Compilation} : survey fs config = .ok (pages, compilation) ↔
    ∃ files, discover fs config.pagesDir config.routing.extension = .ok files ∧ pages = files.length ∧
      compilation = compile config.compileOptions files := by
  rw [survey]
  cases discover fs config.pagesDir config.routing.extension with
  | error failure => exact iff_of_false (fun h => nomatch h) fun ⟨_, h, _⟩ => nomatch h
  | ok files => simp [Except.map, eq_comm]

theorem kept_eq_self_or (room? : Option Nat) (text : Text) :
    kept room? text = text ∨ ∃ room, room? = some room ∧ room < text.length ∧ kept room? text = text.take room := by
  cases room? with
  | none => exact .inl rfl
  | some room =>
      by_cases hroom : room < text.length
      · exact .inr ⟨room, rfl, hroom, rfl⟩
      · exact .inl (List.take_of_length_le (Nat.le_of_not_lt hroom))

theorem storeTable_eq_ok :
    storeTable room? fs path table = .ok fs' ↔ kept room? table = table ∧ store fs path table = .ok fs' := by
  rw [storeTable, Except.bind_eq_ok]
  by_cases hkept : kept room? table = table
  · simp [hkept, pure, Except.pure]
  · simp [hkept, throw, throwThe, MonadExceptOf.throw]

theorem storeTable_eq_error (h : storeTable room? fs path table = .error failure) :
    store fs path (kept room? table) = .error failure ∨
      failure = .cutTable path (kept room? table) ∧ kept room? table ≠ table := by
  rcases Except.bind_eq_error h with hstore | ⟨stored, _, hcut⟩
  · exact .inl hstore
  · split at hcut
    · cases hcut
    · next hkept =>
        cases hcut
        exact .inr ⟨rfl, hkept⟩

theorem store_ne_cutTable {other kept : Text} : store fs path text ≠ .error (.cutTable other kept) := by
  intro h
  rw [store] at h
  split at h
  · cases h
  · split at h <;> cases h

theorem survey_ne_cutTable {other kept : Text} : survey fs config ≠ .error (.cutTable other kept) := by
  intro h
  rw [survey, discover] at h
  split at h
  · split at h <;> cases h
  · cases h

theorem generate_eq_ok : (∃ generated, generate room? fs config = .ok (generated, fs')) ↔
    ∃ files, discover fs config.pagesDir config.routing.extension = .ok files ∧
      storeTable room? fs config.outputPath (compile config.compileOptions files).routes.script = .ok fs' := by
  constructor
  · rintro ⟨generated, h⟩
    obtain ⟨⟨pages, compilation⟩, hsurvey, h⟩ := Except.bind_eq_ok.1 h
    obtain ⟨written, hstore, h⟩ := Except.bind_eq_ok.1 h
    obtain ⟨files, hfiles, rfl, rfl⟩ := survey_eq_ok.1 hsurvey
    cases h
    exact ⟨files, hfiles, hstore⟩
  · rintro ⟨files, hfiles, hstore⟩
    have hsurvey := survey_eq_ok.2 ⟨files, hfiles, rfl, rfl⟩
    exact ⟨_, Except.bind_eq_ok.2 ⟨_, hsurvey, Except.bind_eq_ok.2 ⟨fs', hstore, rfl⟩⟩⟩

def Rendered (fs fs' : FileSystem) (config : Config) : Prop :=
  ∃ files, discover fs config.pagesDir config.routing.extension = .ok files ∧
    fs.Writes fs' config.outputPath (compile config.compileOptions files).routes.script

/-- The disk was full when it had taken a beginning of the table of the pages that were found. -/
def Cut (room? : Option Nat) (fs fs' : FileSystem) (config : Config) : Prop :=
  ∃ room files, room? = some room ∧ discover fs config.pagesDir config.routing.extension = .ok files ∧
    let table := (compile config.compileOptions files).routes.script
    room < table.length ∧ fs.Writes fs' config.outputPath (table.take room)

theorem rendered_of_generate {generated : Generated} (h : generate room? fs config = .ok (generated, fs')) :
    Rendered fs fs' config := by
  obtain ⟨files, hfiles, hstore⟩ := generate_eq_ok.1 ⟨generated, h⟩
  exact ⟨files, hfiles, writes_store (storeTable_eq_ok.1 hstore).2⟩

theorem remains_cases (fs : FileSystem) (failure : Failure) : fs.SameFiles (remains fs failure) ∨
    ∃ path kept, failure = .cutTable path kept ∧ store fs path kept = .ok (remains fs failure) := by
  unfold remains
  split
  · exact .inl (sameFiles_afterMaking fs _)
  · exact .inl (sameFiles_afterMaking fs _)
  · next path kept =>
      cases hstore : store fs path kept with
      | error failure => exact .inl (SameFiles.refl fs)
      | ok fs' => exact .inr ⟨path, kept, rfl, hstore⟩
  · exact .inl (SameFiles.refl fs)

theorem remains_of_generate (h : generate room? fs config = .error failure) :
    fs.SameFiles (remains fs failure) ∨ Cut room? fs (remains fs failure) config := by
  refine (remains_cases fs failure).imp_right ?_
  rintro ⟨path, kept, rfl, hstore⟩
  rcases Except.bind_eq_error h with hsurvey | ⟨⟨pages, compilation⟩, hsurvey, h⟩
  · exact absurd hsurvey survey_ne_cutTable
  · obtain ⟨files, hfiles, rfl, rfl⟩ := survey_eq_ok.1 hsurvey
    rcases Except.bind_eq_error h with h | ⟨_, _, h⟩
    · rcases storeTable_eq_error h with hfail | ⟨hcut, hshort⟩
      · exact absurd hfail store_ne_cutTable
      · cases hcut
        obtain ⟨room, hroom, hlength, htake⟩ := (kept_eq_self_or room? _).resolve_left hshort
        exact ⟨room, files, hroom, hfiles, hlength, htake ▸ writes_store hstore⟩
    · cases h

theorem build_cases (room? : Option Nat) (fs : FileSystem) (config : Config) :
    (build room? fs config).code = 1 ∧ (fs.SameFiles (build room? fs config).files ∨
        Cut room? fs (build room? fs config).files config) ∨
      (build room? fs config).code = 0 ∧ Rendered fs (build room? fs config).files config := by
  rw [build]
  split
  · next generated written hgenerate => exact .inr ⟨rfl, rendered_of_generate hgenerate⟩
  · next failure hgenerate => exact .inl ⟨rfl, remains_of_generate hgenerate⟩

theorem build_code_eq_zero {files : List Text}
    (hfiles : discover fs config.pagesDir config.routing.extension = .ok files)
    (hstore : store fs config.outputPath (compile config.compileOptions files).routes.script = .ok fs') :
    (build none fs config).code = 0 := by
  have hstored : storeTable none fs config.outputPath (compile config.compileOptions files).routes.script = .ok fs' :=
    storeTable_eq_ok.2 ⟨rfl, hstore⟩
  obtain ⟨generated, hgenerate⟩ := generate_eq_ok.2 ⟨files, hfiles, hstored⟩
  rw [build, hgenerate]

theorem inspect_files (fs : FileSystem) (config : Config) : (inspect fs config).files = fs := by
  rw [inspect]
  split <;> rfl

theorem halted_files (fs : FileSystem) (halt : CommandLine.Halt) : (halted fs halt).files = fs := by
  cases halt <;> rfl

theorem respond_code (config : Config) (outcome : Outcome) (burst : Burst) :
    (respond config outcome burst).code = outcome.code := by
  simp only [respond]
  split
  · rfl
  · split <;> rfl

/-- Whatever happens while pages are watched, it does not end the watch. -/
theorem foldl_respond_code (config : Config) (bursts : List Burst) (outcome : Outcome) :
    (bursts.foldl (respond config) outcome).code = outcome.code := by
  induction bursts generalizing outcome with
  | nil => rfl
  | cons burst bursts ih => exact (ih _).trans (respond_code config outcome burst)

/-- The table is the only file that may have changed. -/
def KeepsOthers (fs fs' : FileSystem) (config : Config) : Prop :=
  fs.SameFiles fs' ∨ ∃ text, fs.Writes fs' config.outputPath text

theorem Rendered.keepsOthers (h : Rendered fs fs' config) : KeepsOthers fs fs' config := by
  obtain ⟨_, _, hwrites⟩ := h
  exact .inr ⟨_, hwrites⟩

theorem keepsOthers_remains (h : generate room? fs config = .error failure) :
    KeepsOthers fs (remains fs failure) config :=
  (remains_of_generate h).imp_right fun ⟨_, _, _, _, _, hwrites⟩ => ⟨_, hwrites⟩

theorem keepsOthers_build (room? : Option Nat) (fs : FileSystem) (config : Config) :
    KeepsOthers fs (build room? fs config).files config := by
  rw [build]
  split
  · next generated written hgenerate => exact (rendered_of_generate hgenerate).keepsOthers
  · next failure hgenerate => exact keepsOthers_remains hgenerate

theorem keepsOthers_respond (config : Config) (outcome : Outcome) (burst : Burst) :
    KeepsOthers (burst.meanwhile outcome.files) (respond config outcome burst).files config := by
  simp only [respond]
  split
  · exact .inl (SameFiles.refl _)
  · split
    · next generated written hgenerate => exact (rendered_of_generate hgenerate).keepsOthers
    · next failure hgenerate => exact keepsOthers_remains hgenerate

theorem foldl_respond_invariant {p : FileSystem → Prop} {bursts : List Burst}
    (htable : ∀ fs fs', KeepsOthers fs fs' config → p fs → p fs')
    (hothers : ∀ burst ∈ bursts, ∀ fs, p fs → p (burst.meanwhile fs)) {outcome : Outcome} (h : p outcome.files) :
    p (bursts.foldl (respond config) outcome).files := by
  induction bursts generalizing outcome with
  | nil => exact h
  | cons burst bursts ih =>
      have hburst := hothers burst List.mem_cons_self outcome.files h
      have hstep := htable _ _ (keepsOthers_respond config outcome burst) hburst
      exact ih (fun later hlater => hothers later (List.mem_cons_of_mem burst hlater)) hstep

/-- What no new table undoes, and nobody else while pages are watched, holds when the watch ends. -/
theorem watch_invariant {p : FileSystem → Prop} (htable : ∀ fs fs', KeepsOthers fs fs' config → p fs → p fs')
    (hothers : ∀ burst ∈ host.bursts, ∀ fs, p fs → p (burst.meanwhile fs)) (h : p fs) :
    p (watch host fs config).files := by
  have hbuilt := htable _ _ (keepsOthers_build host.room? fs config) h
  simp only [watch]
  split
  · split
    · exact hbuilt
    · exact foldl_respond_invariant htable hothers hbuilt
  · exact hbuilt

/-- The table could be written, but then the system refused to watch the pages. -/
def Refused (host : Host) (fs : FileSystem) (config : Config) : Prop :=
  host.refusal? ≠ none ∧ (build host.room? fs config).code = 0

theorem watch_of_refused (h : Refused host fs config) :
    (watch host fs config).code = 1 ∧ (watch host fs config).files = (build host.room? fs config).files := by
  obtain ⟨hrefusal, hcode⟩ := h
  obtain ⟨refusal, hrefusal⟩ := Option.ne_none_iff_exists'.1 hrefusal
  simp only [watch, if_pos hcode, hrefusal]
  exact ⟨rfl, rfl⟩

theorem watch_of_build_ne_zero (h : (build host.room? fs config).code ≠ 0) :
    watch host fs config = build host.room? fs config := by
  simp only [watch, if_neg h]

theorem watch_of_granted (hrefusal : host.refusal? = none) (hcode : (build host.room? fs config).code = 0) :
    (watch host fs config).code = 0 := by
  simpa only [watch, if_pos hcode, hrefusal, foldl_respond_code] using hcode

theorem build_of_ne_zero (h : (build room? fs config).code ≠ 0) :
    fs.SameFiles (build room? fs config).files ∨ Cut room? fs (build room? fs config).files config := by
  rcases build_cases room? fs config with ⟨_, hleft⟩ | ⟨hcode, _⟩
  · exact hleft
  · exact absurd hcode h

theorem rendered_of_build (h : (build room? fs config).code = 0) :
    Rendered fs (build room? fs config).files config := by
  rcases build_cases room? fs config with ⟨hfail, _⟩ | ⟨_, hrendered⟩
  · cases h.symm.trans hfail
  · exact hrendered

theorem watch_of_ne_zero (h : (watch host fs config).code ≠ 0) :
    fs.SameFiles (watch host fs config).files ∨ Cut host.room? fs (watch host fs config).files config ∨
      Refused host fs config ∧ Rendered fs (watch host fs config).files config := by
  by_cases hcode : (build host.room? fs config).code = 0
  · cases hrefusal : host.refusal? with
    | none => exact absurd (watch_of_granted hrefusal hcode) h
    | some refusal =>
        have hrefused : Refused host fs config := ⟨by simp [hrefusal], hcode⟩
        rw [(watch_of_refused hrefused).2]
        exact .inr (.inr ⟨hrefused, rendered_of_build hcode⟩)
  · rw [watch_of_build_ne_zero hcode]
    exact (build_of_ne_zero hcode).imp_right .inl

theorem runOn_of_read {invocation : Invocation} (h : CommandLine.read arguments = .ok invocation) :
    (∃ failure, Config.load fs invocation.configPath = .error failure ∧
        runOn host fs arguments = failed fs [] failure) ∨
      ∃ loaded, Config.load fs invocation.configPath = .ok loaded ∧
        runOn host fs arguments = perform host fs invocation.action (invocation.overrides.apply loaded) := by
  simp only [runOn, h, effectiveConfig]
  cases hload : Config.load fs invocation.configPath with
  | error failure => exact .inl ⟨failure, rfl, rfl⟩
  | ok loaded => exact .inr ⟨loaded, rfl, rfl⟩

theorem runOn_of_load {invocation : Invocation} {loaded : Config} (hread : CommandLine.read arguments = .ok invocation)
    (hload : Config.load fs invocation.configPath = .ok loaded) :
    runOn host fs arguments = perform host fs invocation.action (invocation.overrides.apply loaded) := by
  rcases runOn_of_read hread with ⟨failure, hfailure, _⟩ | ⟨other, hother, hrun⟩
  · cases hload.symm.trans hfailure
  · cases hload.symm.trans hother
    exact hrun

/-- Where the extension is plain text, the file of the table is all that changes, and it holds the table of all the
pages; if the search for them stumbles, that of none. -/
def WritesTable (fs fs' : FileSystem) (config : Config) : Prop :=
  '/' ∉ config.routing.extension → Glob.IsPlain config.routing.extension →
    ∃ files, (if stumbles config.pagesDir then files = []
        else ListsPages fs config.pagesDir config.routing.extension files) ∧
      fs.Writes fs' config.outputPath (compile config.compileOptions files).routes.script

theorem writesTable_of_build (h : (build room? fs config).code = 0) :
    WritesTable fs (build room? fs config).files config := by
  intro hslash hplain
  obtain ⟨files, hfiles, hwrites⟩ := rendered_of_build h
  exact ⟨files, discover_eq_ok hslash hplain hfiles, hwrites⟩

theorem sameFiles_of_inspect {invocation : Invocation} (hread : CommandLine.read arguments = .ok invocation)
    (haction : invocation.action = .inspect) : fs.SameFiles (runOn host fs arguments).files := by
  rcases runOn_of_read hread with ⟨failure, _, hrun⟩ | ⟨loaded, _, hrun⟩
  · rw [hrun]
    exact SameFiles.refl fs
  · rw [hrun, haction, perform, inspect_files]
    exact SameFiles.refl fs

theorem runOn_of_ne_zero (h : (runOn host fs arguments).code ≠ 0) : fs.SameFiles (runOn host fs arguments).files ∨
    ∃ invocation loaded config, CommandLine.read arguments = .ok invocation ∧
      Config.load fs invocation.configPath = .ok loaded ∧ config = invocation.overrides.apply loaded ∧
      (Cut host.room? fs (runOn host fs arguments).files config ∨
        invocation.action = .watch ∧ Refused host fs config ∧ Rendered fs (runOn host fs arguments).files config) := by
  cases hread : CommandLine.read arguments with
  | error halt =>
      rw [runOn, hread, halted_files]
      exact .inl (SameFiles.refl fs)
  | ok invocation =>
      rcases runOn_of_read hread with ⟨failure, _, hrun⟩ | ⟨loaded, hload, hrun⟩
      · rw [hrun]
        exact .inl (SameFiles.refl fs)
      · rw [hrun] at h ⊢
        cases haction : invocation.action with
        | inspect =>
            rw [perform, inspect_files]
            exact .inl (SameFiles.refl fs)
        | build =>
            rw [haction] at h
            exact (build_of_ne_zero h).imp_right fun hcut => ⟨invocation, loaded, _, rfl, hload, rfl, .inl hcut⟩
        | watch =>
            rw [haction] at h
            exact (watch_of_ne_zero h).imp_right fun hleft =>
              ⟨invocation, loaded, _, rfl, hload, rfl, hleft.imp_right fun hrefused => ⟨haction, hrefused⟩⟩

/-- Where the disk has room and nothing is refused, a run that fails leaves every file as it was. -/
theorem sameFiles_of_ne_zero (hroom : host.room? = none) (hrefusal : host.refusal? = none)
    (h : (runOn host fs arguments).code ≠ 0) : fs.SameFiles (runOn host fs arguments).files := by
  rcases runOn_of_ne_zero h with hsame | ⟨_, _, _, _, _, _, hcut | ⟨_, hrefused, _⟩⟩
  · exact hsame
  · obtain ⟨_, _, hfull, _⟩ := hcut
    cases hroom.symm.trans hfull
  · exact absurd hrefusal hrefused.1

theorem script_compile_nil (options : CompileOptions) :
    (compile options []).routes.script = "export default [\n\n]\n".toList := by
  rw [compile, Compilation.inOrder, Compilation.pagesOf, List.filterMap_nil, List.mergeSort_nil]
  rfl

end Session

end RouteTable
