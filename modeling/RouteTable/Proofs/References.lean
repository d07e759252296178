import RouteTable.Config
import RouteTable.Proofs.CleanPaths
import RouteTable.Proofs.Coverage
import RouteTable.Proofs.Relative

namespace RouteTable

namespace Path

variable {path base target directory : Text} {c : Component}

def Downward (path : Text) : Prop := ∀ c ∈ plainComponents path, c.isName = true

instance : Decidable (Downward path) := inferInstanceAs (Decidable (∀ c ∈ plainComponents path, c.isName = true))

theorem Downward.isAbsolute_eq_false (h : Downward path) : isAbsolute path = false := by
  by_contra habsolute
  cases h .root (root_mem_plainComponents.2 (by simpa using habsolute))

theorem components_clean (path : Text) : components (clean path) = plainComponents (clean path) := by
  have hdot := dot_not_mem_pieces_clean path
  have hhere : ∀ anchor body, anchored (clean path) = (anchor, body) → anchor ≠ ['.'] →
      components (clean path) = plainComponents (clean path) := by
    intro anchor body h hanchor
    have hlead : (anchorComponents anchor).filter (· != .here) = anchorComponents anchor := by
      rw [anchorComponents, if_neg hanchor]
      split
      · rfl
      · rfl
    rw [plainComponents, components, h, List.filter_append, hlead, filter_ne_here_map_ofPiece]
  rcases anchored_cases (clean path) with ⟨rest, _, h⟩ | ⟨body, hbody, _, hrest⟩ | ⟨_, h, _⟩
  · exact hhere _ _ h (by decide)
  · refine absurd ?_ hdot
    rcases hrest with rfl | ⟨rest, rfl⟩
    · rw [hbody]
      decide
    · rw [hbody, ← List.singleton_append, Text.pieces_append_cons rfl]
      exact List.mem_cons_self
  · exact hhere _ _ h (by decide)

theorem exists_parent (h : steps path ≠ []) : ∃ directory, parent? path = some directory := by
  have hbody : ∀ anchor body, anchored path = (anchor, body) → steps path = steps body →
      ∃ directory, parent? path = some directory := by
    intro anchor body hanchored hsteps
    cases hdrop : (Text.pieces isSlash body).reverse.dropWhile isVoid with
    | cons p before => exact ⟨_, by simp only [parent?, hanchored, hdrop]; rfl⟩
    | nil => exact absurd (hsteps.trans (steps_eq_nil_of_dropWhile hdrop)) h
  rcases anchored_cases path with ⟨rest, rfl, ha⟩ | ⟨body, rfl, ha, hrest⟩ | ⟨_, ha, _⟩
  · exact hbody _ _ ha (steps_cons_slash rest)
  · exact hbody _ _ ha (steps_cons_dot hrest)
  · exact hbody _ _ ha rfl

theorem lexical_of_downward (h : Downward path) : lexical path = plainComponents path := by
  rw [lexical, ← goAll_filter_ne_here]
  exact goAll_names h []

/-- `here` has names only, as many as `base`, and begins with what `base` shares with `target`. -/
structure Level (base target here : List Component) : Prop where
  names : ∀ c ∈ here, c.isName = true
  length_eq : here.length = base.length
  shares : ∀ front, front <+: base → front <+: target → front <+: here

theorem resolve_reference_iff (hbase : Downward base) (htarget : Downward target) (hslash : '\\' ∉ target)
    (directory : Text) : resolve directory (reference target base) = plainComponents target ↔
      Level (plainComponents base) (plainComponents target) (lexical directory) := by
  have hkind : isAbsolute base = isAbsolute target := hbase.isAbsolute_eq_false.trans htarget.isAbsolute_eq_false.symm
  obtain ⟨common, climbed, rest, hparting, hway, _⟩ := plainComponents_relative hkind
  have hrest : ∀ c ∈ rest, c.isName = true := fun c hc => htarget c (hparting.right ▸ List.mem_append_right _ hc)
  have hcommon : ∀ c ∈ common, c.isName = true := fun c hc => htarget c (hparting.right ▸ List.mem_append_left _ hc)
  have hup : .up ∉ common := fun hup => by cases hcommon _ hup
  have hlength : (plainComponents base).length = common.length + climbed.length := by
    rw [hparting.left, List.length_append]
  -- the rest of the target goes on from wherever the steps up end, so these must end at what both share
  rw [resolve_eq, plainComponents_reference hkind hslash, hway, goAll_append, goAll_names hrest, hparting.right,
    List.append_left_inj, goAll_climb_eq_iff _ hup, ← hparting.right]
  constructor
  · rintro ⟨names, hcount, hnames, hhere⟩
    refine ⟨?_, by rw [hhere, hlength, List.length_append, hcount], fun front has hbs => ?_⟩
    · rw [hhere]
      exact List.forall_mem_append.2 ⟨hcommon, hnames⟩
    · rw [hhere]
      exact (hparting.longest front has hbs).trans (List.prefix_append _ _)
  · intro hlevel
    obtain ⟨names, hnames⟩ := hlevel.shares common hparting.common_prefix_left hparting.common_prefix_right
    refine ⟨names, ?_, fun c hc => hlevel.names c (hnames ▸ List.mem_append_right _ hc), hnames.symm⟩
    have hdeep := hlevel.length_eq
    rw [← hnames, List.length_append, hlength] at hdeep
    omega

end Path

namespace Compilation

open RouteTable.Path

variable {config : Config} {files : List Text} {page : Page}

theorem component_of_mem_pagesOf {options : CompileOptions} (h : page ∈ pagesOf options files) :
    page.component = reference (clean page.source) options.outputDir := by
  have hrole := (mem_pagesOf.1 h).2
  rw [CompileOptions.roleOf, FileRole.of] at hrole
  split at hrole
  · cases hrole
  · split at hrole
    · cases hrole
    · injection hrole with hpage
      rw [← hpage]

theorem exists_parent_outputPath {n : Text} (h : plainComponents config.routing.outputFile = [.name n]) :
    ∃ directory, parent? config.outputPath = some directory ∧
      plainComponents directory = plainComponents config.outputDir := by
  have hrelative : isAbsolute config.routing.outputFile ≠ true := by
    intro habsolute
    have hroot := root_mem_plainComponents.2 habsolute
    rw [h, List.mem_singleton] at hroot
    cases hroot
  have hpath : plainComponents config.outputPath = plainComponents config.outputDir ++ [.name n] := by
    rw [Config.outputPath, plainComponents_push, if_neg hrelative, h]
  have hsteps : steps config.outputPath ≠ [] := by
    intro hnone
    have hlast := congrArg List.getLast? hpath
    rw [plainComponents_eq, hnone, List.getLast?_concat] at hlast
    split at hlast
    · cases hlast
    · cases hlast
  obtain ⟨directory, hdirectory⟩ := exists_parent hsteps
  exact ⟨directory, hdirectory, by rw [plainComponents_parent hdirectory, hpath, List.dropLast_concat]⟩

/-- Where the output directory and the file of a page are relative and go down only, the page has a route, and
from the directory of the table its component leads to the file just if that directory is level with the output
directory. -/
theorem compile_reference_resolves_iff (config : Config) (files : List Text) (page : Page)
    (hpage : page ∈ pagesOf config.compileOptions files) (hdir : Downward config.outputDir)
    (hfile : Downward (clean page.source)) :
    (∃ r ∈ (compile config.compileOptions files).routes.labels, r.IsOf page) ∧
      ∀ r ∈ (compile config.compileOptions files).routes.labels, r.IsOf page →
        ∃ way, r.component = some way ∧
          (∀ directory, parent? config.outputPath = some directory →
            (resolve directory way = components (clean page.source) ↔
              Level (plainComponents config.outputDir) (components (clean page.source)) (lexical directory))) ∧
          (∀ n, plainComponents config.routing.outputFile = [.name n] →
            ∃ directory, parent? config.outputPath = some directory ∧
              resolve directory way = components (clean page.source)) := by
  have hiff : ∀ directory, resolve directory page.component = components (clean page.source) ↔
      Level (plainComponents config.outputDir) (components (clean page.source)) (lexical directory) := by
    rw [components_clean, component_of_mem_pagesOf hpage]
    exact resolve_reference_iff hdir hfile (backslash_not_mem_clean page.source)
  refine ⟨?_, fun r _ hr => ⟨page.component, hr.1, fun directory _ => hiff directory, fun n hn => ?_⟩⟩
  · obtain ⟨hsource, hrole⟩ := mem_pagesOf.1 hpage
    exact (covers_compile config.compileOptions files).exists_route (mem_pagesOf.2 ⟨List.mem_dedup.2 hsource, hrole⟩)
  · obtain ⟨directory, hparent, hplain⟩ := exists_parent_outputPath hn
    have hdirectory : Downward directory := fun c hc => hdir c (hplain ▸ hc)
    refine ⟨directory, hparent, (hiff directory).2 ?_⟩
    rw [lexical_of_downward hdirectory, hplain]
    exact ⟨hdir, rfl, fun front hbase _ => hbase⟩

/-- A table in a directory of its own below the output directory misses the pages; beside them it does not. -/
theorem reference_misses_from_nested_directory :
    let nested : Config := ⟨⟨"src/pages".toList, "vue".toList, none, "router/routes.js".toList⟩, []⟩
    let beside : Config := ⟨⟨"src/pages".toList, "vue".toList, none, "routes.js".toList⟩, []⟩
    let about := "src/pages/about.vue".toList
    (∃ r ∈ (compile nested.compileOptions [about]).routes.labels, ∃ way, r.component = some way ∧
        parent? nested.outputPath = some "src/router".toList ∧
        resolve "src/router".toList way ≠ components (clean about)) ∧
      ∃ r ∈ (compile beside.compileOptions [about]).routes.labels, ∃ way, r.component = some way ∧
        parent? beside.outputPath = some "src".toList ∧ resolve "src".toList way = components (clean about) := by
  intro nested beside about
  let page : Page := ⟨about, ["about".toList], "./pages/about.vue".toList⟩
  have hfile : Downward (clean page.source) := by decide
  obtain ⟨⟨r, hr, hof⟩, hway⟩ := compile_reference_resolves_iff nested [about] page
    (List.mem_singleton_self page) (by decide) hfile
  obtain ⟨⟨r', hr', hof'⟩, hway'⟩ := compile_reference_resolves_iff beside [about] page
    (List.mem_singleton_self page) (by decide) hfile
  obtain ⟨way, hcomponent, hiff, _⟩ := hway r hr hof
  obtain ⟨way', hcomponent', _, hname⟩ := hway' r' hr' hof'
  refine ⟨⟨r, hr, way, hcomponent, rfl, fun hleads => ?_⟩, r', hr', way', hcomponent', rfl, ?_⟩
  · have hlevel := (hiff "src/router".toList rfl).1 hleads
    exact absurd hlevel.length_eq (by decide)
  · obtain ⟨directory, hparent, hleads⟩ := hname "routes.js".toList rfl
    obtain rfl : directory = "src".toList := (Option.some.inj hparent).symm
    exact hleads

end Compilation

end RouteTable
