import RouteTable.Forest
import RouteTable.Mixin

namespace RouteTable

structure Origin where
  keys : List Text
  /-- How many of the keys belong to routes above; the path answers to the others. -/
  base : Nat
deriving DecidableEq, Repr

namespace Origin

def isIndex (origin : Origin) : Bool := origin.keys.getLast? == some Segment.indexKey

def indexPrefix? (origin : Origin) : Option (List Text) :=
  if origin.isIndex then some origin.keys.dropLast else none

end Origin

structure Route where
  name : Option Text
  /-- Empty where the route answers at the path of the route above it. -/
  path : Text
  component : Option Text
  fields : Fields
  origin : Origin

namespace Route

def meta? (route : Route) : Option Json := route.fields.get? "meta".toList

def redirect? (route : Route) : Option Json := route.fields.get? "redirect".toList

def hasName (name : Text) (route : Route) : Bool := route.name == some name

def optional (key : String) : Option Text → List (Text × Json)
  | some value => [(key.toList, .string value)]
  | none => []

/-- The members in written order: fields stand between the route's own members. -/
def members (route : Route) (children : List Json) : List (Text × Json) :=
  optional "name" route.name ++ [("path".toList, .string route.path)] ++
    optional "component" route.component ++ route.fields ++
    (if children.isEmpty then [] else [("children".toList, .array children)])

end Route

namespace Forest

def toJson : Forest Route → List Json
  | nil => []
  | cons route below after => .object (route.members (toJson below)) :: toJson after

end Forest

end RouteTable
