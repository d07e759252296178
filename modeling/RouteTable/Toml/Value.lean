import RouteTable.Json

namespace RouteTable.Toml

inductive Real where
  | finite (value : Binary64)
  | infinite (negative : Bool)
  | notANumber
deriving DecidableEq, Repr

structure Date where
  year : Nat
  month : Nat
  day : Nat
deriving DecidableEq, Repr

structure Time where
  hour : Nat
  minute : Nat
  second : Nat
  nanosecond : Nat
deriving DecidableEq, Repr

inductive Zone where
  | utc
  | offset (minutes : Int)
deriving DecidableEq, Repr

structure Datetime where
  date : Option Date
  time : Option Time
  zone : Option Zone
deriving DecidableEq, Repr

namespace Datetime

def dateText (d : Date) : Text :=
  Text.padded 4 d.year ++ '-' :: Text.padded 2 d.month ++ '-' :: Text.padded 2 d.day

def timeText (t : Time) : Text :=
  Text.padded 2 t.hour ++ ':' :: Text.padded 2 t.minute ++ ':' :: Text.padded 2 t.second ++
    if t.nanosecond = 0 then []
    else '.' :: Text.dropTrailing '0' (Text.padded 9 t.nanosecond)

def zoneText : Zone → Text
  | .utc => ['Z']
  | .offset minutes =>
    let m := minutes.natAbs
    (if minutes < 0 then '-' else '+') :: Text.padded 2 (m / 60) ++ ':' :: Text.padded 2 (m % 60)

def text (d : Datetime) : Text :=
  (d.date.map dateText).getD [] ++
    (if d.date.isSome && d.time.isSome then ['T'] else []) ++
    (d.time.map timeText).getD [] ++ (d.zone.map zoneText).getD []

/-- The member under which a date-time's text stands among data values. -/
def memberKey : Text := "$__toml_private_datetime".toList

def toObject (d : Datetime) : Json.Object := [(memberKey, .string d.text)]

end Datetime

inductive Value where
  | string (value : Text)
  | integer (value : Int)
  | float (value : Real)
  | boolean (value : Bool)
  | datetime (value : Datetime)
  | array (items : List Value)
  | table (entries : List (Text × Value))

/-- The entries of a table in the order in which the document defines them. -/
abbrev Table := List (Text × Value)

namespace Value

mutual

/-- A number that is not finite is null, and a date-time is an object that holds its text. -/
def toJson : Value → Json
  | string s => .string s
  | integer n => .number (.integer n)
  | float (.finite x) => .number (.float x)
  | float _ => .null
  | boolean b => .bool b
  | datetime d => .object d.toObject
  | array items => .array (itemsToJson items)
  | table entries => .object (entriesToJson entries)

def itemsToJson : List Value → List Json
  | [] => []
  | v :: items => toJson v :: itemsToJson items

def entriesToJson : List (Text × Value) → Json.Object
  | [] => []
  | (key, v) :: entries => Dict.insert key (toJson v) (entriesToJson entries)

end

end Value

end RouteTable.Toml
