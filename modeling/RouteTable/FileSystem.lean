import RouteTable.Path

namespace RouteTable

def isEntryName (s : Text) : Bool :=
  !Path.isVoid s && s != Path.Component.up.text && !s.any Path.isSlash

structure FileName where
  text : Text
  isEntryName_text : isEntryName text = true
deriving DecidableEq

namespace FileName

def ofText? (s : Text) : Option FileName :=
  if h : isEntryName s = true then some ⟨s, h⟩ else none

def isStorable (name : FileName) : Bool :=
  name.text.all (fun c => c.toNat != 0) && Text.byteCount name.text ≤ 255

end FileName

abbrev Location := List FileName

inductive Entry where
  | folder
  | file (text : Text)
deriving DecidableEq

/-- The first entry of a location counts. The outermost folder needs none. -/
structure FileSystem where
  entries : List (Location × Entry)
  workingDir : Location

namespace FileSystem

def get? (fs : FileSystem) (location : Location) : Option Entry :=
  if location = [] then some .folder else fs.entries.lookup location

def set (location : Location) (entry : Entry) (fs : FileSystem) : FileSystem :=
  { fs with entries := (location, entry) :: fs.entries }

/-- A path that can be followed at all: it is not empty, and has less than 4096 bytes. -/
def isFollowable (path : Text) : Bool := !path.isEmpty && Text.byteCount path < 4096

def start (fs : FileSystem) (path : Text) : Location :=
  if Path.isAbsolute path then [] else fs.workingDir

def step? (fs : FileSystem) (location : Location) (piece : Text) : Option Location :=
  if fs.get? location = some .folder then
    match FileName.ofText? piece with
    | some name =>
      if (fs.get? (location ++ [name])).isSome then some (location ++ [name]) else none
    | none => some (if piece = Path.Component.up.text then location.dropLast else location)
  else none

/-- Every step but the last must lead to a folder, so a step up behind a missing folder leads nowhere. -/
def locate? (fs : FileSystem) (path : Text) : Option Location :=
  if isFollowable path then (Text.pieces Path.isSlash path).foldlM fs.step? (fs.start path)
  else none

def find? (fs : FileSystem) (path : Text) : Option Entry := fs.locate? path >>= fs.get?

def isFolder (fs : FileSystem) (path : Text) : Bool := fs.find? path == some .folder

def isFile (fs : FileSystem) (path : Text) : Bool :=
  match fs.find? path with
  | some (.file _) => true
  | _ => false

def within (fs : FileSystem) (path : Text) : List Location :=
  match fs.locate? path with
  | none => []
  | some location =>
    if fs.get? location = some .folder then
      fs.entries.filterMap fun e =>
        if location.isPrefixOf e.1 && e.1 != location then some (e.1.drop location.length) else none
    else []

/-- Where a file of this path is or goes, which must be in a folder that is there. -/
def target? (fs : FileSystem) (path : Text) : Option Location := do
  let pieces := Text.pieces Path.isSlash path
  let folder ← pieces.dropLast.foldlM fs.step? (fs.start path)
  let name ← pieces.getLast? >>= FileName.ofText?
  if isFollowable path ∧ name.isStorable ∧ fs.get? folder = some .folder ∧
      fs.get? (folder ++ [name]) ≠ some .folder then
    some (folder ++ [name])
  else none

def write? (fs : FileSystem) (path text : Text) : Option FileSystem :=
  (fs.target? path).map fun location => fs.set location (.file text)

def makeStep? (reached : FileSystem × Location) (piece : Text) :
    Option (FileSystem × Location) :=
  let (fs, location) := reached
  match FileName.ofText? piece with
  | some name =>
    let inner := location ++ [name]
    if fs.get? location = some .folder ∧ fs.get? inner = none ∧ name.isStorable then
      some (fs.set inner .folder, inner)
    else (fs.step? location piece).map fun found => (fs, found)
  | none => (fs.step? location piece).map fun found => (fs, found)

def makeFolders? (fs : FileSystem) (path : Text) : Option FileSystem := do
  let (made, location) ← (Text.pieces Path.isSlash path).foldlM makeStep? (fs, fs.start path)
  if isFollowable path ∧ made.get? location = some .folder then some made else none

def makeWay : FileSystem × Location → (pieces : List Text) → FileSystem
  | reached, [] => reached.1
  | reached, piece :: pieces =>
    match makeStep? reached piece with
    | some reached => makeWay reached pieces
    | none => reached.1

/-- What is there after an attempt to make the folders of a path: those made before it failed stay. -/
def afterMaking (fs : FileSystem) (path : Text) : FileSystem :=
  if isFollowable path ∧ path.all (fun c => c.toNat != 0) then
    makeWay (fs, fs.start path) (Text.pieces Path.isSlash path)
  else fs

def changesSince (fs before : FileSystem) : List (Location × Text) :=
  fs.entries.filterMap fun e =>
    match e.2 with
    | .folder => none
    | .file text =>
      if fs.get? e.1 = some e.2 ∧ before.get? e.1 ≠ some e.2 then some (e.1, text) else none

def foldersSince (fs before : FileSystem) : List Location :=
  fs.entries.filterMap fun e => if e.2 = .folder ∧ before.get? e.1 = none then some e.1 else none

theorem get?_set_self {location : Location} (h : location ≠ []) (entry : Entry)
    (fs : FileSystem) : (fs.set location entry).get? location = some entry := by
  simp [get?, set, h]

theorem get?_set_of_ne {location other : Location} (h : other ≠ location) (entry : Entry)
    (fs : FileSystem) : (fs.set location entry).get? other = fs.get? other := by
  have hb : (other == location) = false := beq_eq_false_iff_ne.2 h
  simp [get?, set, List.lookup_cons, hb]

end FileSystem

end RouteTable
