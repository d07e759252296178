import RouteTable.Path
import RouteTable.Route

namespace RouteTable

structure Precedence where
  hasPath : Bool
  ranks : List Nat
deriving DecidableEq, Repr

namespace Precedence

/-- Stands behind a final wildcard, so that the route comes after all that extend it. -/
def afterWildcard : Nat := 3

def of (path : Text) : Precedence :=
  let kinds := (Text.parts Path.isSlash path).map PatternKind.of
  { hasPath := !path.isEmpty
    ranks := kinds.map PatternKind.rank ++
      if kinds.getLast? = some .wildcard then [afterWildcard] else [] }

def order : Precedence → Precedence → Ordering :=
  compareLex (Order.on Order.nat fun p => p.hasPath.toNat)
    (Order.on (List.compareLex Order.nat) Precedence.ranks)

instance : Std.TransCmp order := inferInstanceAs (Std.TransCmp (compareLex _ _))

end Precedence

namespace Route

def order : Route → Route → Ordering :=
  compareLex (Order.on Precedence.order fun r => Precedence.of r.path)
    (compareLex (Order.on Order.text Route.path) (Order.on (Order.option Order.text) Route.name))

instance : Std.TransCmp order := inferInstanceAs (Std.TransCmp (compareLex _ _))

end Route

end RouteTable
