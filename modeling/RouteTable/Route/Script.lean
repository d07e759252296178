import RouteTable.Json.Printer
import RouteTable.Route

namespace RouteTable

namespace Script

def leadingFields : List Text := ["redirect".toList, "meta".toList]

def isKeyStart (c : Char) : Bool := c.isAlpha || c == '_' || c == '$'

def isKeyChar (c : Char) : Bool := c.isAlphanum || c == '_' || c == '$'

/-- A key stands bare where it is an identifier, and quoted elsewhere. -/
def propertyKey : (key : Text) → Text
  | [] => Json.quoted []
  | c :: key => if isKeyStart c && key.all isKeyChar then c :: key else Json.quoted (c :: key)

def member (tab key value : Text) : Text :=
  ",\n\t".toList ++ tab ++ key ++ ": ".toList ++ value

def field (tab : Text) (e : Text × Json) : Text :=
  if e.2.isNull then [] else member tab (propertyKey e.1) e.2.compact

/-- The fields in written order: the leading ones, then the others by key. -/
def fieldOrder (fields : Fields) : Fields :=
  (leadingFields.filterMap fun key => (fields.get? key).map (key, ·)) ++
    fields.filter fun e => !leadingFields.contains e.1

def component (tab : Text) : Option Text → Text
  | some path => member tab "component".toList ("() => import(".toList ++ Json.quoted path ++ [')'])
  | none => []

def name (tab : Text) : Option Text → Text
  | some name => member tab "name".toList (Json.quoted name)
  | none => []

def children (tab rendered : Text) : Text :=
  member tab "children".toList ("[\n".toList ++ rendered ++ "\n\t".toList ++ tab ++ [']'])

end Script

namespace Forest

open Script in
def entries (tab : Text) : Forest Route → Text
  | nil => []
  | cons route below after =>
    tab ++ "\x7b\n".toList ++ tab ++ "\tpath: ".toList ++ Json.quoted route.path ++
      component tab route.component ++ (fieldOrder route.fields).flatMap (field tab) ++
      name tab route.name ++
      (if below.isEmpty then [] else children tab (entries (tab ++ ['\t', '\t']) below)) ++
      '\n' :: tab ++ '}' :: (if after.isEmpty then [] else ",\n".toList ++ entries tab after)

def script (routes : Forest Route) : Text :=
  "export default [\n".toList ++ entries ['\t'] routes ++ "\n]\n".toList

end Forest

end RouteTable
