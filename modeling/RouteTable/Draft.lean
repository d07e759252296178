import RouteTable.Page
import RouteTable.Route.Order
import RouteTable.Warning

namespace RouteTable

structure Planted where
  id : Nat
  route : Route

structure Draft where
  forest : Forest Planted
  warnings : List Warning

/-- Where a page's route goes: below the route whose name its first keys add up to, and below that again as long as
further keys name a route there. -/
structure Landing where
  address : List Text
  name : Text
  path : Text
  base : Nat
  /-- The whole name belongs to a route already, and the page goes below that route. -/
  collides : Bool
deriving DecidableEq, Repr

namespace Planted

def hasName (name : Text) (p : Planted) : Bool := p.route.hasName name

def order : Planted → Planted → Ordering := Order.on Route.order Planted.route

end Planted

namespace Landing

/-- The path grows by the key's pattern; a last key `index` adds nothing, but a slash to a first. -/
def extendPath (path key : Text) (isFirst isLast : Bool) : Text :=
  if isLast && key == Segment.indexKey then
    if isFirst then path ++ ['/'] else path
  else path ++ '/' :: Segment.pattern key

/-- Follows the keys that are left, `depth` of them being behind, down a sibling list. -/
def follow (name path : Text) (base depth : Nat) : (keys : List Text) → Forest Planted → Landing
  | [], _ => ⟨[], name, path, base, false⟩
  | key :: keys, siblings =>
    let name := Segment.extendName name key
    match siblings.below? (Planted.hasName name) with
    | some below =>
      let landing := follow name [] (depth + 1) (depth + 1) keys below
      { landing with
        address := name :: landing.address
        collides := keys.isEmpty || landing.collides }
    | none =>
      follow name (extendPath path key (depth == 0) keys.isEmpty) base (depth + 1) keys siblings

def of (keys : List Text) (forest : Forest Planted) : Landing := follow [] [] 0 0 keys forest

end Landing

namespace Draft

def empty : Draft := ⟨.nil, []⟩

def plant (leaf : Planted) : (address : List Text) → Forest Planted → Forest Planted
  | [], siblings => Forest.place Planted.order leaf .nil siblings
  | name :: address, siblings => siblings.modifyBelow (Planted.hasName name) (plant leaf address)

def routeOf (mixins : MixinSet) (page : Page) (landing : Landing) : Route :=
  let segments := page.keys.map Segment.ofText
  { name := some landing.name
    path := landing.path
    component := some page.component
    fields := Mixin.apply mixins [] (segments.flatMap Segment.mixins)
    origin := ⟨segments.map Segment.key, landing.base⟩ }

def warningsOf (mixins : MixinSet) (page : Page) (landing : Landing) : List Warning :=
  let segments := page.keys.map Segment.ofText
  (Mixin.rejected mixins (segments.flatMap Segment.mixins)).map
      (fun r => .reservedMixinField page.source r.mixin r.field) ++
    if landing.collides then [.nameCollision page.source landing.name] else []

def insert (mixins : MixinSet) (draft : Draft) (page : Page) : Draft :=
  if page.keys.isEmpty then
    { draft with warnings := draft.warnings ++ [.emptyRoute page.source] }
  else
    let landing := Landing.of (page.keys.map fun k => (Segment.ofText k).key) draft.forest
    { forest := plant ⟨draft.forest.size, routeOf mixins page landing⟩ landing.address draft.forest
      warnings := draft.warnings ++ warningsOf mixins page landing }

def nextId? (draft : Draft) (page : Page) : Option Nat :=
  if page.keys.isEmpty then none else some draft.forest.size

def insertAll (mixins : MixinSet) (draft : Draft) (pages : List Page) : Draft :=
  pages.foldl (insert mixins) draft

def routes (draft : Draft) : Forest Route := draft.forest.map Planted.route

end Draft

end RouteTable
