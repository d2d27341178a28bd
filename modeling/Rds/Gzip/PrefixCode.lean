import Rds.Gzip.Bits

namespace Rds.Gzip

/-- A canonical code, in which shorter words come first and words of one length follow
the order of their symbols: the number of words of each length from one on, and the
symbols in the order of their words. -/
structure PrefixCode where
  counts : List Nat
  symbols : Array Nat

namespace PrefixCode

def maxLength : Nat := 15

def ofLength (lengths : List Nat) (n : Nat) : List Nat :=
  lengths.zipIdx.filterMap fun (l, symbol) ↦ if l = n then some symbol else none

def ofLengths (lengths : List Nat) : PrefixCode :=
  let groups := (List.range' 1 maxLength).map (ofLength lengths)
  ⟨groups.map List.length, groups.flatten.toArray⟩

/-- The words of full length that extend the words of length `n` and more. -/
def covered (n : Nat) : List Nat → Nat
  | [] => 0
  | count :: counts => count <<< (maxLength - n) + covered (n + 1) counts

def isComplete (c : PrefixCode) : Bool := covered 1 c.counts == 1 <<< maxLength

def isTrivial (c : PrefixCode) : Bool :=
  c.symbols.size ≤ 1 && (c.counts.drop 1).all fun count ↦ count == 0

/-- Of the incomplete codes, only the trivial ones may be used. -/
def isUsable (c : PrefixCode) : Bool := c.isComplete || c.isTrivial

/-- Reads on behind a word of value `value / 2`. The words of this length start at
`first`, and their symbols at `index`. -/
def readFrom (symbols : Array Nat) (value first index : Nat) : List Nat → BitReader Nat
  | [] => failure
  | count :: counts => do
    let value := value + (← Bits.bit).toNat
    if value < first + count then
      match symbols[index + (value - first)]? with
      | some symbol => return symbol
      | none => failure
    else
      readFrom symbols (2 * value) (2 * (first + count)) (index + count) counts

def read (c : PrefixCode) : BitReader Nat := readFrom c.symbols 0 0 0 c.counts

theorem takes_readFrom (symbols : Array Nat) (value first index : Nat) (counts : List Nat) :
    Bits.Takes 1 (readFrom symbols value first index counts) := by
  induction counts generalizing value first index with
  | nil => exact Bits.takes_failure 1
  | cons count counts ih =>
    refine Bits.takes_bit.bind (k := 0) fun b ↦ ?_
    dsimp only
    split
    · split
      · exact Bits.takes_pure _
      · exact Bits.takes_failure 0
    · exact (ih _ _ _).mono (Nat.zero_le _)

theorem takes_read (c : PrefixCode) : Bits.Takes 1 c.read := takes_readFrom _ _ _ _ _

end PrefixCode

end Rds.Gzip
