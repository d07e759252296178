import RouteTable.Path

namespace RouteTable.Path

def isSeparator (c : Char) : Bool := c == '/' || c == '\\'

def hasDoubleSlash : Text → Bool
  | '/' :: '/' :: _ => true
  | _ :: s => hasDoubleSlash s
  | [] => false

def isClean (path : Text) : Bool :=
  !path.contains '\\' && !hasDoubleSlash path &&
    !(Text.pieces isSlash path).contains ['.'] &&
    (path == ['/'] || !Text.endsWith '/' path)

def segments (path : Text) : List Text :=
  (Text.parts isSeparator path).filter (· != ['.'])

def rebuild (path : Text) : Text :=
  (if path.head?.any isSeparator then ['/'] else []) ++ Text.joinWith '/' (segments path)

def clean (path : Text) : Text := if isClean path then path else rebuild path

end RouteTable.Path
