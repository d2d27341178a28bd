import Rds.Decimal.Shortest

namespace Rds.Decimal

/-- How a decimal is written: the exponents of the leading digit up to which no exponent
is shown, whether a whole number ends in `.0`, and where a tie goes. -/
structure Layout where
  plain : Option (Int × Int)
  pointZero : Bool
  tie : Tie

namespace Layout

def isPlain (l : Layout) (e : Int) : Bool :=
  match l.plain with
  | some (first, last) => first ≤ e && e ≤ last
  | none => true

def dropTrailingZeros (ds : List Char) : List Char :=
  (ds.reverse.dropWhile fun c ↦ c == '0').reverse

def zeros (n : Nat) : List Char := List.replicate n '0'

variable (l : Layout)

/-- Digits with the point where it belongs, `e` being the exponent of the first digit. -/
def writePlain (ds : List Char) (e : Int) : List Char :=
  match e with
  | .negSucc n => '0' :: '.' :: (zeros n ++ ds)
  | .ofNat n =>
    if ds.length ≤ n + 1 then
      ds ++ zeros (n + 1 - ds.length) ++ if l.pointZero then ['.', '0'] else []
    else ds.take (n + 1) ++ '.' :: ds.drop (n + 1)

def writeScientific (ds : List Char) (e : Int) : List Char :=
  let fraction := if ds.length ≤ 1 then [] else '.' :: ds.drop 1
  let sign := if e < 0 then '-' else '+'
  ds.take 1 ++ fraction ++ 'e' :: sign :: Nat.toDigits 10 e.natAbs

def write (d : Decimal) : List Char :=
  let ds := Nat.toDigits 10 d.digits
  let e := d.exponent + (ds.length - 1 : Nat)
  let ds := dropTrailingZeros ds
  if l.isPlain e then l.writePlain ds e else writeScientific ds e

def magnitude (x : Double) : List Char :=
  if x.significand = 0 then l.writePlain ['0'] 0
  else l.write ((Rounding.ofDouble x).shortest l.tie)

/-- A finite double with its sign, which is shown for zero, too. -/
def text (x : Double) : String :=
  String.ofList (if x.isNegative then '-' :: l.magnitude x else l.magnitude x)

end Layout

end Rds.Decimal
