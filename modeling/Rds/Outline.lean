import Rds.Decimal.Layout
import Rds.Log
import Rds.Value.Attributes
import Rds.Value.Descent

namespace Rds.Outline

/-- Doubles are written without an exponent, and whole ones without a point. A tie goes
up. -/
def numberLayout : Decimal.Layout := ⟨none, false, .up⟩

def presentDouble (x : Double) : String :=
  if x.isFinite then numberLayout.text x
  else if x.isNaN then "NaN"
  else if x.isNegative then "-inf"
  else "inf"

def double (x : Double) : String := if x.isNA then "NA" else presentDouble x

def signedDouble (x : Double) : String :=
  if x.isNaN || x.isNegative then presentDouble x else "+" ++ presentDouble x

def complex (z : Complex) : String :=
  if z.isNA then "NA" else double z.re ++ signedDouble z.im ++ "i"

def logical : Logical → String
  | .true => "TRUE"
  | .false => "FALSE"
  | .na => "NA"

def integer (n : Int32) : String := if n = naInteger then "NA" else toString n.toInt

def shownElements : Nat := 8

def shown : Atoms → List String
  | .logical xs => (xs.take shownElements).map logical
  | .integer xs => (xs.take shownElements).map integer
  | .double xs => (xs.take shownElements).map double
  | .complex xs => (xs.take shownElements).map complex
  | .character xs => (xs.take shownElements).map Chars.quoted
  | .raw xs => (xs.take shownElements).map Hex.lower

def summary (atoms : Atoms) : String :=
  let ellipsis := if shownElements < atoms.length then " ..." else ""
  atoms.kind.name ++ " [" ++ toString atoms.length ++ "] "
    ++ String.intercalate " " (shown atoms) ++ ellipsis

def pad (depth : Nat) : String := String.ofList (List.replicate (2 * depth) ' ')

def heading (depth : Nat) (typeName : String) (length : Nat) : String :=
  pad depth ++ typeName ++ " [" ++ toString length ++ "]"

def tagLine (depth : Nat) (tag : Option Chars) : String :=
  pad depth ++ "  $" ++ (tag.bind Chars.text?).getD ""

def tailLine (depth : Nat) : String := pad depth ++ "  . (tail)"

def attributeLine (depth : Nat) (name : String) : String := pad depth ++ "  @" ++ name

open Value Attributes in
/-- The lines that show a graph, two more spaces for each level. Of a chain, only the
attributes of its first cell are shown. -/
def lines (depth : Nat) : Value → List String
  | .null => [pad depth ++ "NULL"]
  | .symbol name => [pad depth ++ "symbol `" ++ name.plain ++ "`"]
  | .char content => [pad depth ++ "char " ++ content.quoted]
  | .vector _ atoms as _ =>
    (pad depth ++ summary atoms) :: ((listed as).attach.map fun a ↦
      attributeLine depth a.1.1 :: lines (depth + 2) a.1.2).flatten
  | .list _ elements as _ =>
    heading depth Kind.list.name elements.length ::
      (elements.attach.map fun v ↦ lines (depth + 1) v.1).flatten ++
      ((listed as).attach.map fun a ↦ attributeLine depth a.1.1 :: lines (depth + 2) a.1.2).flatten
  | .pair origin kind tag car cdr as object =>
    let chain := Value.pair origin kind tag car cdr as object
    heading depth kind.name chain.cells.length ::
      (chain.cells.attach.map fun c ↦
        tagLine depth c.1.tag :: lines (depth + 2) c.1.car).flatten ++
      (if chain.tail.isNull then [] else tailLine depth :: lines (depth + 2) chain.tail) ++
      ((listed as).attach.map fun a ↦ attributeLine depth a.1.1 :: lines (depth + 2) a.1.2).flatten
termination_by v => sizeOf v
decreasing_by
  · have := sizeOf_entry_lt (mem_of_mem_listed a.2)
    simp only [vector.sizeOf_spec]
    omega
  · have := List.sizeOf_lt_of_mem v.2
    simp only [list.sizeOf_spec]
    omega
  · have := sizeOf_entry_lt (mem_of_mem_listed a.2)
    simp only [list.sizeOf_spec]
    omega
  · exact (sizeOf_cell_lt c.2).1
  · exact sizeOf_tail_lt _ _ _ _ _ _ _
  · have := sizeOf_entry_lt (mem_of_mem_listed a.2)
    simp only [pair.sizeOf_spec]
    omega

def text (v : Value) : String := String.join ((lines 0 v).map (· ++ "\n"))

end Rds.Outline
