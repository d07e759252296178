import RouteTable.Session
import RouteTable.Watch

namespace RouteTable.Disk

def pathOf (location : Location) : String :=
  String.ofList ('/' :: Text.joinWith '/' (location.map FileName.text))

def kind? (location : Location) : IO (Option Entry) := do
  let here ← IO.currentDir
  let path := here / pathOf location
  if ← path.isDir then return some .folder
  if ← path.pathExists then return some (.file [])
  return none

def follow (fs : FileSystem) (path : Text) : IO FileSystem := do
  let mut fs := fs
  let mut location := fs.start path
  for piece in Text.pieces Path.isSlash path do
    match FileName.ofText? piece with
    | none => if piece = Path.Component.up.text then location := location.dropLast
    | some name =>
      location := location ++ [name]
      if let some entry ← kind? location then
        fs := { fs with entries := fs.entries ++ [(location, entry)] }
  return fs

partial def contents (location : Location) : IO (List (Location × Entry)) := do
  let here ← IO.currentDir
  let mut entries := []
  for found in ← (here / pathOf location).readDir do
    if let some name := FileName.ofText? found.fileName.toList then
      let inner := location ++ [name]
      if ← found.path.isDir then
        entries := (inner, .folder) :: (← contents inner) ++ entries
      else entries := (inner, .file []) :: entries
  return entries

def workingDir : IO FileSystem := do
  let here := (← IO.currentDir).toString.toList
  let location := (Text.pieces Path.isSlash here).filterMap FileName.ofText?
  let fronts := (List.range (location.length + 1)).map location.take
  return ⟨fronts.map fun front => (front, .folder), location⟩

def withText (fs : FileSystem) (path : Text) : IO FileSystem := do
  match fs.locate? path with
  | some location =>
    if fs.isFile path then
      let text ← IO.FS.readFile (pathOf location)
      return fs.set location (.file text.toList)
    else return fs
  | none => return fs

/-- Takes in the pages directory with all that is in it, and the way to the table. -/
def surroundings (config : Config) (fs : FileSystem) : IO FileSystem := do
  let fs ← follow (← follow fs config.pagesDir) config.outputPath
  match fs.locate? config.pagesDir with
  | some location =>
    if fs.isFolder config.pagesDir then
      return { fs with entries := fs.entries ++ (← contents location) }
    else return fs
  | none => return fs

/-- What a run with these arguments looks at, and the configuration where it gets so far. -/
def view (arguments : List Text) : IO (FileSystem × Option (Invocation × Config)) := do
  let fs ← workingDir
  match CommandLine.read arguments with
  | .error _ => return (fs, none)
  | .ok invocation =>
    let fs ← withText (← follow fs invocation.configPath) invocation.configPath
    match Session.effectiveConfig fs invocation with
    | .error _ => return (fs, none)
    | .ok config => return (← surroundings config fs, some (invocation, config))

def store (changes : List (Location × Text)) : IO Unit := do
  for (location, text) in changes do
    IO.FS.createDirAll (pathOf location.dropLast)
    IO.FS.writeFile (pathOf location) (String.ofList text)

def print (s : Text) : IO Unit := do
  let out ← IO.getStdout
  out.putStr (String.ofList s)
  out.flush

def finish (fs : FileSystem) (outcome : Outcome) : IO Unit := do
  for location in outcome.files.foldersSince fs do
    IO.FS.createDirAll (pathOf location)
  store (outcome.files.changesSince fs)
  print outcome.stdout
  (← IO.getStderr).putStr (String.ofList outcome.stderr)

/-- Looks every second which pages came and went. -/
partial def watch (config : Config) (known : List Text) : IO Unit := do
  IO.sleep 1000
  let fs ← surroundings config (← workingDir)
  let pages := (discover fs config.pagesDir config.routing.extension).toOption.getD []
  let events : List Event := (pages.filter (!known.contains ·)).map (fun page => ⟨.create, [page]⟩) ++
    (known.filter (!pages.contains ·)).map fun page => ⟨.remove, [page]⟩
  finish fs (Session.respond config ⟨0, [], [], fs⟩ ⟨events, id, none⟩)
  watch config pages

end RouteTable.Disk

open RouteTable in
def main (args : List String) : IO UInt32 := do
  let arguments := args.map String.toList
  let (fs, reached) ← Disk.view arguments
  match reached with
  | some (⟨.watch, _, _⟩, config) =>
    let outcome := Session.build none fs config
    Disk.finish fs outcome
    if outcome.code = 0 then
      Disk.print (Session.line [] ++ Session.watchLine ++ Session.watchedLine config)
      Disk.watch config ((discover fs config.pagesDir config.routing.extension).toOption.getD [])
    return outcome.code.toUInt32
  | _ =>
    let outcome := Session.run fs arguments
    Disk.finish fs outcome
    return outcome.code.toUInt32
