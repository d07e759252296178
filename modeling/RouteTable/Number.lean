import RouteTable.Number.Binary64

namespace RouteTable

inductive Number where
  | integer (value : Int)
  | float (value : Binary64)
deriving DecidableEq, Repr

namespace Number

/-- A float is written with the fewest digits, a tie going to the even one, and without an exponent while its
leading digit's exponent lies in `-5 .. 15`. -/
def text : Number → Text
  | .integer n => Text.ofInt n
  | .float x =>
    let d := x.shortest .toEven
    if -5 ≤ d.exponent && d.exponent ≤ 15 then d.positional else d.scientific

end Number

end RouteTable
