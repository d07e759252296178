import RouteTable.Text

namespace RouteTable.Path

def isSlash (c : Char) : Bool := c == '/'

def isAbsolute (path : Text) : Bool := Text.startsWith '/' path

def isVoid (piece : Text) : Bool := piece == [] || piece == ['.']

inductive Component where
  | root
  | here
  | up
  | name (text : Text)
deriving DecidableEq, Repr

def Component.text : Component → Text
  | root => ['/']
  | here => ['.']
  | up => ['.', '.']
  | name s => s

def Component.ofPiece (piece : Text) : Component :=
  if piece = ['.', '.'] then up else name piece

/-- A leading slash or a leading dot, which count as components of their own, and what follows. -/
def anchored (path : Text) : Text × Text :=
  match path with
  | '/' :: rest => (['/'], rest)
  | ['.'] => (['.'], [])
  | '.' :: '/' :: rest => (['.'], '/' :: rest)
  | _ => ([], path)

def anchorComponents (anchor : Text) : List Component :=
  if anchor = ['/'] then [.root] else if anchor = ['.'] then [.here] else []

def components (path : Text) : List Component :=
  let (anchor, body) := anchored path
  anchorComponents anchor ++
    ((Text.pieces isSlash body).filter fun p => !isVoid p).map Component.ofPiece

/-- The text in front of the last component, without the separators between them. A root and the empty path have
none. -/
def parent? (path : Text) : Option Text :=
  let (anchor, body) := anchored path
  match (Text.pieces isSlash body).reverse.dropWhile isVoid with
  | _ :: before => some (anchor ++ Text.joinWith '/' (before.dropWhile isVoid).reverse)
  | [] => if anchor = ['.'] then some [] else none

def parentOrEmpty (path : Text) : Text := (parent? path).getD []

/-- An absolute `step` replaces the path; an empty one leaves a slash behind a path that has none. -/
def push (path step : Text) : Text :=
  if isAbsolute step then step
  else if path.isEmpty || Text.endsWith '/' path then path ++ step
  else path ++ '/' :: step

def ofComponents (components : List Component) : Text :=
  components.foldl (fun path c => push path c.text) []

def fileName? (path : Text) : Option Text :=
  match (components path).getLast? with
  | some (.name s) => some s
  | _ => none

/-- What follows the last dot of the file name, unless the name has no other character before it. -/
def extension? (path : Text) : Option Text := do
  let reversed := (← fileName? path).reverse
  match reversed.dropWhile (· != '.') with
  | _ :: _ :: _ => some (reversed.takeWhile (· != '.')).reverse
  | _ => none

def plainComponents (path : Text) : List Component :=
  (components path).filter (· != .here)

def afterCommon : List Component → List Component → List Component × List Component
  | a :: as, b :: bs => if a = b then afterCommon as bs else (a :: as, b :: bs)
  | as, bs => (as, bs)

/-- The path of `target` as seen from the directory `base`: up to what both share, then down. -/
def relative (base target : Text) : Text :=
  let (climbed, rest) := afterCommon (plainComponents base) (plainComponents target)
  push (climbed.foldl (fun path _ => push path Component.up.text) []) (ofComponents rest)

def reference (file directory : Text) : Text :=
  let way := (relative directory file).map fun c => if c = '\\' then '/' else c
  if (Text.afterFront? "./".toList way).isSome || (Text.afterFront? "../".toList way).isSome then way
  else "./".toList ++ way

end RouteTable.Path
