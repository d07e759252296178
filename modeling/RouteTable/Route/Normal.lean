import RouteTable.Path
import RouteTable.Route

namespace RouteTable

namespace Route

def withoutSlash : (path : Text) → Text
  | '/' :: rest => rest
  | path => path

/-- An index page below the keys `indexPrefix` answers where a parameter right behind these keys would be left
out, so that parameter is required. The path's segments answer to the keys from `base` on. -/
def requireAt (origin : Origin) (segments indexPrefix : List Text) : List Text :=
  let depth := indexPrefix.length
  if origin.base ≤ depth && depth < origin.keys.length && origin.keys.take depth == indexPrefix then
    segments.modify (depth - origin.base) Segment.required
  else segments

def requireAll (origin : Origin) (indexPrefixes : List (List Text)) (segments : List Text) :
    List Text :=
  indexPrefixes.foldl (requireAt origin) segments

def normalPath (indexPrefixes : List (List Text)) (nested : Bool) (route : Route) : Text :=
  let path := if nested then withoutSlash route.path else route.path
  if path.contains '?' then
    let segments := requireAll route.origin indexPrefixes (Text.parts Path.isSlash path)
    (if nested then [] else ['/']) ++ Text.joinWith '/' segments
  else path

def builtName (keys : List Text) : Text := Text.joinWith '_' (keys.map Segment.plainKey)

/-- A name still as its keys gave it loses the part that the key `index` of an index page added. -/
def indexName (origin : Origin) (name : Text) : Text :=
  if origin.isIndex && name == builtName origin.keys then
    (Text.beforeBack? ('_' :: Segment.indexKey) name).getD name
  else name

def normal (indexPrefixes : List (List Text)) (nested holdsIndex : Bool) (route : Route) : Route :=
  { route with
    path := normalPath indexPrefixes nested route
    name := if holdsIndex then none else route.name.map (indexName route.origin) }

end Route

namespace Forest

def indexPrefixes (siblings : Forest Route) : List (List Text) :=
  siblings.roots.filterMap fun r => r.origin.indexPrefix?

def holdsIndex (below : Forest Route) : Bool := below.roots.any fun r => r.path.isEmpty

def normalizeWith (prefixes : List (List Text)) (nested : Bool) : Forest Route → Forest Route
  | nil => nil
  | cons route below after =>
    cons (route.normal prefixes nested (holdsIndex below))
      (normalizeWith (indexPrefixes below) true below) (normalizeWith prefixes nested after)

/-- Nested paths are relative, a parameter is required where an index page answers without it, index pages go by the
name of their folder, and a route that holds an index page has no name. -/
def normalize (nested : Bool) (siblings : Forest Route) : Forest Route :=
  normalizeWith (indexPrefixes siblings) nested siblings

end Forest

end RouteTable
