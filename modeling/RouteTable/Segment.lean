import RouteTable.Text

namespace RouteTable

structure Segment where
  key : Text
  mixins : List Text
deriving DecidableEq, Repr

/-- The first word is the key, the others name mixins. -/
def Segment.ofText (raw : Text) : Segment :=
  match Text.words raw with
  | [] => ⟨[], []⟩
  | key :: mixins => ⟨key, mixins⟩

inductive PatternKind where
  | static
  | dynamic (optional : Bool)
  | wildcard
deriving DecidableEq, Repr

namespace PatternKind

def of (segment : Text) : PatternKind :=
  if Text.startsWith '*' segment then wildcard
  else if segment.contains ':' then dynamic (Text.endsWith '?' segment)
  else static

def rank : PatternKind → Nat
  | static => 0
  | dynamic _ => 1
  | wildcard => 2

def isOptional : PatternKind → Bool
  | dynamic optional => optional
  | _ => false

end PatternKind

namespace Segment

def plainKey : (key : Text) → Text
  | '_' :: name => name
  | key => key

/-- A marked key becomes an optional parameter, any other stands for itself. -/
def pattern : (key : Text) → Text
  | '_' :: name => ':' :: name ++ ['?']
  | key => key

/-- An optional parameter without its last character; any other segment as it is. -/
def required (segment : Text) : Text :=
  if (PatternKind.of segment).isOptional then segment.dropLast else segment

def indexKey : Text := "index".toList

/-- The name so far and one more key, with an underscore between them unless there is no name yet. -/
def extendName (name key : Text) : Text :=
  (if name.isEmpty then [] else name ++ ['_']) ++ plainKey key

def nameOf (keys : List Text) : Text := keys.foldl extendName []

end Segment

end RouteTable
