import RouteTable.Number.Decimal

namespace RouteTable

structure Binary64 where
  negative : Bool
  significand : Nat
  exponent : Int
deriving DecidableEq, Repr

inductive TieRule where
  | toEven
  | up
deriving DecidableEq, Repr

def TieRule.takesLower (tie : TieRule) (digits : Nat) : Bool :=
  match tie with
  | toEven => digits % 2 == 0
  | up => false

namespace Binary64

def leastExponent : Int := -1074

def greatestExponent : Int := 971

/-- Significands have 53 bits, except with the least exponent. -/
def leastSignificand : Nat := 0x10000000000000

def roundQuotient (num den : Nat) : Nat :=
  let q := num / den
  let r := num % den
  if den < 2 * r || (2 * r == den && q % 2 == 1) then q + 1 else q

def scale (base : Nat) (num den : Nat) (e : Int) : Nat × Nat :=
  if 0 ≤ e then (num * base.pow e.toNat, den) else (num, den * base.pow (-e).toNat)

def exponentOf (num den : Nat) : Int :=
  let e : Int := (Nat.log2 num : Int) - Nat.log2 den - 52
  let (n, d) := scale 2 num den (-e)
  let e := if n / d < leastSignificand then e - 1 else e
  if e < leastExponent then leastExponent else e

def ofQuotient? (negative : Bool) (num den : Nat) : Option Binary64 :=
  let e := exponentOf num den
  let (n, d) := scale 2 num den (-e)
  let m := roundQuotient n d
  let (m, e) := if m = 2 * leastSignificand then (leastSignificand, e + 1) else (m, e)
  if greatestExponent < e then none else some ⟨negative, m, if m = 0 then 0 else e⟩

/-- The nearest finite number, or `none` where the numeral is too large for one. Numerals far outside the range
are answered without computing their power of ten. -/
def nearest? (d : Decimal) : Option Binary64 :=
  if d.digits = 0 || d.exponent < -400 then some ⟨d.negative, 0, 0⟩
  else if 400 < d.exponent then none
  else
    let (n, m) := scale 10 d.digits 1 d.power
    ofQuotient? d.negative n m

def decimalExponent (num den : Nat) : Int :=
  if den ≤ num then (Text.ofNat (num / den)).length - 1
  else -((Text.ofNat ((den + num - 1) / num - 1)).length : Int)

/-- The nearer of the two numerals around `x` with `count` digits, if one of them names `x`. Where the upper one
would need a digit more it is a power of ten, which has one digit. Up is away from zero. -/
def shortestOf? (tie : TieRule) (x : Binary64) (count : Nat) : Option Decimal :=
  let (num, den) := scale 2 x.significand 1 x.exponent
  let power := decimalExponent num den - count + 1
  let (n, d) := scale 10 num den (-power)
  let low : Decimal := ⟨x.negative, n / d, power⟩
  let high : Decimal :=
    if n / d + 1 = Nat.pow 10 count then ⟨x.negative, 1, power + count⟩
    else ⟨x.negative, n / d + 1, power⟩
  let names (c : Decimal) : Bool := nearest? c == some x
  if names low && names high then
    let rest := 2 * (n % d)
    if rest < d || (rest == d && tie.takesLower (n / d)) then some low else some high
  else if names low then some low
  else if names high then some high
  else none

/-- The numeral with the fewest digits whose nearest number is `x`; seventeen are always enough. -/
def shortest (tie : TieRule) (x : Binary64) : Decimal :=
  if x.significand = 0 then ⟨x.negative, 0, 0⟩
  else ((List.range 17).findSome? fun n => x.shortestOf? tie (n + 1)).getD ⟨x.negative, 0, 0⟩

end Binary64

end RouteTable
