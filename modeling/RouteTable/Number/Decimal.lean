import RouteTable.Text

namespace RouteTable

structure Decimal where
  negative : Bool
  digits : Nat
  power : Int
deriving DecidableEq, Repr

namespace Decimal

def sign (d : Decimal) : Text := if d.negative then ['-'] else []

def zeros (n : Nat) : Text := List.replicate n '0'

def exponent (d : Decimal) : Int := (Text.ofNat d.digits).length - 1 + d.power

def positional (d : Decimal) : Text :=
  let ds := Text.ofNat d.digits
  if 0 ≤ d.power then
    d.sign ++ ds ++ zeros d.power.toNat ++ ".0".toList
  else
    let point := ds.length + d.power
    if 0 < point then
      d.sign ++ ds.take point.toNat ++ '.' :: ds.drop point.toNat
    else
      d.sign ++ "0.".toList ++ zeros (-point).toNat ++ ds

def scientific (d : Decimal) : Text :=
  let ds := Text.ofNat d.digits
  let tail := ds.drop 1
  d.sign ++ ds.take 1 ++ (if tail.isEmpty then [] else '.' :: tail) ++
    'e' :: (if 0 ≤ d.exponent then ['+'] else []) ++ Text.ofInt d.exponent

end Decimal

end RouteTable
