import Rds.Scalar

namespace Rds

/-- The positive number `digits * 10 ^ exponent`. -/
structure Decimal where
  digits : Nat
  exponent : Int
deriving DecidableEq

namespace Decimal

inductive Tie
  | toEven | up
deriving DecidableEq

/-- The positive number `significand * 2 ^ scale` with the reals that round to it. Below
a power of two the interval is half as wide. Its ends belong to it if the significand is
even. -/
structure Rounding where
  significand : Nat
  scale : Int
  narrowBelow : Bool

namespace Rounding

def ofDouble (x : Double) : Rounding :=
  ⟨x.significand, x.scale, x.fractionField == 0 && 1 < x.exponentField⟩

variable (r : Rounding)

def middle : Nat := 4 * r.significand

def high : Nat := 4 * r.significand + 2

def low : Nat := 4 * r.significand - if r.narrowBelow then 1 else 2

def quarter : Int := r.scale - 2

/-- The decimals with exponent `e` are the multiples of `step e`, on the scale on which
quarters are the multiples of `unit e`. -/
def step (e : Int) : Nat := Nat.pow 10 e.toNat * Nat.pow 2 (-r.quarter).toNat

def unit (e : Int) : Nat := Nat.pow 2 r.quarter.toNat * Nat.pow 10 (-e).toNat

def contains (k : Nat) (e : Int) : Bool :=
  let point := k * r.step e
  let low := r.low * r.unit e
  let high := r.high * r.unit e
  if r.significand % 2 = 0 then low ≤ point && point ≤ high else low < point && point < high

def nearest? (tie : Tie) (e : Int) : Option Decimal :=
  let point := r.middle * r.unit e
  let below := point / r.step e
  let excess := 2 * (point % r.step e)
  match r.contains below e, r.contains (below + 1) e with
  | true, true =>
    if excess < r.step e then some ⟨below, e⟩
    else if r.step e < excess then some ⟨below + 1, e⟩
    else if tie = .toEven ∧ below % 2 = 0 then some ⟨below, e⟩
    else some ⟨below + 1, e⟩
  | true, false => some ⟨below, e⟩
  | false, true => some ⟨below + 1, e⟩
  | false, false => none

def reaches (e : Int) : Bool := r.step e ≤ r.middle * r.unit e

/-- The exponent of the leading digit. The logarithm that it is estimated from is off by
less than one. -/
def magnitude : Int :=
  let estimate := (r.scale + r.significand.log2) * 30103 / 100000
  if r.reaches (estimate + 1) then estimate + 1
  else if r.reaches estimate then estimate
  else estimate - 1

def search (tie : Tie) (e : Int) : Nat → Decimal
  | 0 =>
    (r.nearest? tie e).getD
      ⟨r.significand * Nat.pow 5 (-r.scale).toNat * Nat.pow 2 r.scale.toNat, e⟩
  | n + 1 => (r.nearest? tie e).getD (search tie (e - 1) n)

/-- The decimal with the fewest digits that rounds to the number, and of several the one
next to it. -/
def shortest (tie : Tie) : Decimal :=
  let e := r.magnitude
  r.search tie e (e - min r.scale 0).toNat

end Rounding

end Decimal

end Rds
