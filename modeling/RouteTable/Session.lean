import RouteTable.CommandLine
import RouteTable.Discovery
import RouteTable.Host
import RouteTable.Route.Script

namespace RouteTable

structure Outcome where
  code : Nat
  stdout : Text
  stderr : Text
  files : FileSystem

namespace Config

def load (fs : FileSystem) (path : Text) : Except Failure Config :=
  match fs.locate? path with
  | none => .ok defaults
  | some location =>
    match fs.get? location with
    | some (.file text) => (read text).mapError (.invalidConfig path)
    | _ => .error (.unreadableConfig path)

end Config

structure Generated where
  output : Text
  pages : Nat
  routes : Nat
  warnings : Nat
deriving DecidableEq, Repr

namespace Session

def line (s : Text) : Text := s ++ ['\n']

def announcement (config : Config) : Text :=
  line "Generating routes...".toList ++ line ("Pages: ".toList ++ config.pagesDir) ++ line []

def summary (generated : Generated) : Text :=
  line ("✓ ".toList ++ Text.ofNat generated.routes ++ " routes from ".toList ++
      Text.ofNat generated.pages ++ " pages → ".toList ++ generated.output) ++
    if generated.warnings = 0 then []
    else line ("⚠ ".toList ++ Text.ofNat generated.warnings ++
      " warning(s), see log output above".toList)

def survey (fs : FileSystem) (config : Config) : Except Failure (Nat × Compilation) :=
  (discover fs config.pagesDir config.routing.extension).map fun files =>
    (files.length, compile config.compileOptions files)

def store (fs : FileSystem) (path text : Text) : Except Failure FileSystem :=
  let folder := Path.parentOrEmpty path
  match if folder = [] then some fs else fs.makeFolders? folder with
  | none => .error (.noOutputFolder folder)
  | some fs =>
    match fs.write? path text with
    | none => .error (.unwritableTable path)
    | some fs => .ok fs

def kept (room? : Option Nat) (text : Text) : Text :=
  match room? with
  | some room => text.take room
  | none => text

/-- A disk without room for the whole table keeps a beginning of it. -/
def storeTable (room? : Option Nat) (fs : FileSystem) (path table : Text) : Except Failure FileSystem := do
  let fs ← store fs path (kept room? table)
  if kept room? table = table then pure fs else throw (.cutTable path (kept room? table))

def generate (room? : Option Nat) (fs : FileSystem) (config : Config) : Except Failure (Generated × FileSystem) := do
  let (pages, compilation) ← survey fs config
  let fs ← storeTable room? fs config.outputPath compilation.routes.script
  pure (⟨config.outputPath, pages, compilation.routeCount, compilation.warnings.length⟩, fs)

def failed (fs : FileSystem) (printed : Text) (failure : Failure) : Outcome :=
  ⟨1, printed, failure.report, fs⟩

/-- What a build leaves that could not write its table: folders made on the way to it stay, and what the disk kept. -/
def remains (fs : FileSystem) : Failure → FileSystem
  | .noOutputFolder folder => fs.afterMaking folder
  | .unwritableTable path => fs.afterMaking (Path.parentOrEmpty path)
  | .cutTable path kept => (store fs path kept).toOption.getD fs
  | _ => fs

def build (room? : Option Nat) (fs : FileSystem) (config : Config) : Outcome :=
  match generate room? fs config with
  | .ok (generated, fs) => ⟨0, announcement config ++ summary generated, [], fs⟩
  | .error failure => failed (remains fs failure) (announcement config) failure

def inspect (fs : FileSystem) (config : Config) : Outcome :=
  match survey fs config with
  | .ok (_, compilation) =>
    ⟨0, line (Json.indented 0 (.array compilation.routes.toJson)),
      compilation.warnings.flatMap fun w => line ("⚠ ".toList ++ w.message), fs⟩
  | .error failure => failed fs [] failure

def changeLine (path : Text) (events : Nat) : Text :=
  line ("🔄 Page change: ".toList ++ path ++ " (".toList ++ Text.ofNat events ++ " event(s))".toList)

/-- A build that fails while pages are watched is reported, and the watch goes on. -/
def respond (config : Config) (outcome : Outcome) (burst : Burst) : Outcome :=
  let fs := burst.meanwhile outcome.files
  match burst.events.filterMap (Event.page? config.routing.extension) with
  | [] => { outcome with files := fs }
  | path :: more =>
    let printed := outcome.stdout ++ changeLine path (more.length + 1)
    match generate burst.room? fs config with
    | .ok (generated, fs) => { outcome with stdout := printed ++ summary generated, files := fs }
    | .error failure =>
      { outcome with
        stdout := printed
        stderr := outcome.stderr ++ line ("❌ Failed to regenerate routes: ".toList ++ failure.inline)
        files := remains fs failure }

def watchLine : Text := line "Watching for page changes (Ctrl-C to stop)...".toList

def watchedLine (config : Config) : Text := line ("  👀 Watching: ".toList ++ config.pagesDir)

def stoppedLine : Text := line "✓ Stopped watching".toList

/-- The table is written before the system is asked for anything, so it stays where a watch is refused. -/
def watch (host : Host) (fs : FileSystem) (config : Config) : Outcome :=
  let built := build host.room? fs config
  if built.code = 0 then
    let printed := built.stdout ++ line [] ++ watchLine
    match host.refusal? with
    | some refusal => failed built.files printed (refusal.failure config.pagesDir)
    | none =>
      let told := host.bursts.foldl (respond config) { built with stdout := printed ++ watchedLine config }
      { told with stdout := told.stdout ++ stoppedLine }
  else built

def perform (host : Host) (fs : FileSystem) (action : Action) (config : Config) : Outcome :=
  match action with
  | .build => build host.room? fs config
  | .watch => watch host fs config
  | .inspect => inspect fs config

def effectiveConfig (fs : FileSystem) (invocation : Invocation) : Except Failure Config :=
  (Config.load fs invocation.configPath).map invocation.overrides.apply

def versionText : Text := "pageroute 0.1.0".toList

def helpText : Text :=
  Text.joinWith '\n' ([
    "Route tables from a pages directory",
    "",
    "Usage: pageroute [-c FILE] [-v] <build|watch|inspect> [OPTIONS]",
    "",
    "Commands:",
    "  build    Generate the route table once",
    "  watch    Generate it, and again whenever pages are added or removed",
    "  inspect  Print the compiled routes as JSON without writing anything",
    "",
    "Options:",
    "  -c, --config FILE    Configuration file (pageroute.toml)",
    "  -v, --verbose        Log details",
    "  --pages-dir DIR      Directory of the page files",
    "  --output-dir DIR     Directory of the route table",
    "  --output-file FILE   File name of the route table",
    "  -e, --extension EXT  Extension of page files",
    "  -h, --help           Print help",
    "  -V, --version        Print version"].map String.toList)

def halted (fs : FileSystem) : CommandLine.Halt → Outcome
  | .version => ⟨0, line versionText, [], fs⟩
  | .help => ⟨0, line helpText, [], fs⟩
  | .usage error => ⟨2, [], line ("error: ".toList ++ error.message), fs⟩

def runOn (host : Host) (fs : FileSystem) (arguments : List Text) : Outcome :=
  match CommandLine.read arguments with
  | .error halt => halted fs halt
  | .ok invocation =>
    match effectiveConfig fs invocation with
    | .ok config => perform host fs invocation.action config
    | .error failure => failed fs [] failure

def run (fs : FileSystem) (arguments : List Text) : Outcome := runOn .calm fs arguments

end Session

end RouteTable
