namespace Rds

/-- A double, kept as its bits so that no payload of a NaN is lost. -/
structure Double where
  bits : UInt64
deriving DecidableEq

namespace Double

def isNegative (x : Double) : Bool := x.bits >>> 63 != 0

def exponentField (x : Double) : Nat := (x.bits >>> 52 &&& 0x7ff).toNat

def fractionField (x : Double) : Nat := (x.bits &&& 0xfffffffffffff).toNat

def isFinite (x : Double) : Bool := x.exponentField != 0x7ff

def isNaN (x : Double) : Bool := x.exponentField == 0x7ff && x.fractionField != 0

def na : Double := ⟨0x7ff00000000007a2⟩

/-- A NaN is missing if its low word is 1954, whatever its other bits are. -/
def isNA (x : Double) : Bool := x.isNaN && x.bits &&& 0xffffffff == 1954

/-- A finite double is `significand * 2 ^ scale` up to its sign. -/
def significand (x : Double) : Nat :=
  if x.exponentField = 0 then x.fractionField else x.fractionField + 0x10000000000000

def scale (x : Double) : Int :=
  if x.exponentField = 0 then -1074 else x.exponentField - 1075

end Double

/-- A complex number; it is missing if either part is. -/
structure Complex where
  re : Double
  im : Double
deriving DecidableEq

namespace Complex

def isNA (z : Complex) : Bool := z.re.isNA || z.im.isNA

end Complex

inductive Logical
  | false | true | na
deriving DecidableEq

/-- The missing value of integers, which is also that of logical values. -/
def naInteger : Int32 := Int32.minValue

namespace Logical

/-- Zero is false, the missing integer is missing, and all else is true. -/
def ofInt32 (n : Int32) : Logical :=
  if n = 0 then false else if n = naInteger then na else true

def toBool? : Logical → Option Bool
  | false => some .false
  | true => some .true
  | na => none

end Logical

end Rds
