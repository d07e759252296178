import RouteTable.Failure
import RouteTable.FileSystem
import RouteTable.Glob
import RouteTable.Order

namespace RouteTable

namespace Discovery

def isHere (path : Text) : Bool := Path.components path == [.here]

def enter (path step : Text) : Text := if isHere path then step else Path.push path step

def leadsOn (step : Text) : Bool := step == Path.Component.here.text || step == Path.Component.up.text

def literalStep (fs : FileSystem) (path step : Text) : List Text :=
  let next := enter path step
  if (if leadsOn step then fs.isFolder path else (fs.locate? next).isSome) then [next] else []

/-- The names in a folder that fit, and its two marks if the pattern asks for the dot. -/
def choiceStep (fs : FileSystem) (path : Text) (tokens : List Glob.Token) : List Text :=
  let names := (fs.within path).filterMap fun
    | [name] => if Glob.isMatch tokens name.text then some (enter path name.text) else none
    | _ => none
  let marks :=
    if tokens.head? = some (.char '.') ∧ fs.isFolder path then
      ([Path.Component.here.text, Path.Component.up.text].filter (Glob.isMatch tokens)).map
        (Path.push path)
    else []
  names ++ marks

def step (fs : FileSystem) (path : Text) (tokens : List Glob.Token) : List Text :=
  match Glob.literal? tokens with
  | some text => literalStep fs path text
  | none => choiceStep fs path tokens

def descendants (fs : FileSystem) (path : Text) : List (Text × FileName) :=
  (fs.within path).filterMap fun way =>
    way.getLast?.map fun name => (way.foldl (fun p n => enter p n.text) path, name)

def search (fs : FileSystem) : List Glob.Pattern → Text → List Text
  | [], path => [path]
  | .name tokens :: rest, path => (step fs path tokens).flatMap (search fs rest)
  | [.descend], path => ((descendants fs path).map Prod.fst).filter fs.isFolder
  | .descend :: .descend :: rest, path => search fs (.descend :: rest) path
  | .descend :: .name tokens :: rest, path =>
    ((descendants fs path).filter fun d => Glob.isMatch tokens d.2.text).flatMap fun d =>
      search fs rest d.1

def patternText (pagesDir extension : Text) : Text :=
  Text.dropTrailing '/' (Glob.escape pagesDir) ++ "/**/*.".toList ++ Text.dropLeading '.' extension

def segments (pattern : Text) : Text × List Text :=
  match pattern with
  | '/' :: rest => (['/'], Text.pieces Path.isSlash rest)
  | _ => (['.'], Text.pieces Path.isSlash pattern)

/-- A pattern that ends in a slash is for folders only, so it finds no page. -/
def matchingFiles? (fs : FileSystem) (pattern : Text) : Option (List Text) :=
  let (top, pieces) := segments pattern
  if Text.endsWith '/' pattern then
    (pieces.dropLast.mapM Glob.pattern?).map fun _ => []
  else
    (pieces.mapM Glob.pattern?).map fun patterns => (search fs patterns top).filter fs.isFile

def sortPaths (paths : List Text) : List Text :=
  (paths.mergeSort fun a b => (Order.text a b).isLE).eraseReps

end Discovery

/-- All files at any depth in the directory whose name ends in the extension, which may itself be a glob pattern: in the
order of their paths, each once. -/
def discover (fs : FileSystem) (pagesDir extension : Text) : Except Failure (List Text) :=
  let pattern := Discovery.patternText pagesDir extension
  if fs.isFolder pagesDir then
    match Discovery.matchingFiles? fs pattern with
    | some paths => .ok (Discovery.sortPaths paths)
    | none => .error (.invalidPattern pattern)
  else .error (.noPagesFolder pagesDir)

end RouteTable
