import Rds.Json.Tree
import Rds.Value.Attributes
import Rds.Value.Descent

namespace Rds

namespace Json

/-- How the library that writes documents writes finite numbers. -/
class Numerals where
  write : Double → String

def ofChars (c : Chars) : Json :=
  match c.text? with
  | some s => string s
  | none => null

def ofLogical (x : Logical) : Json :=
  match x.toBool? with
  | some b => bool b
  | none => null

def ofInt32 (n : Int32) : Json :=
  if n = naInteger then null else number (toString n.toInt)

def ofByte (b : UInt8) : Json := number (toString b.toNat)

def withAttributes (typeName : String) (values : Json) (attributes : List (String × Json)) :
    Json :=
  if attributes.isEmpty then values
  else
    ofFields [("type", string typeName), ("values", values), ("attributes", ofFields attributes)]

def ofCell (tag : Option Chars) (car : Json) (attributes : List (String × Json)) : Json :=
  ofFields ((tag.map fun t ↦ ("tag", ofChars t)).toList ++ ("value", car) ::
    if attributes.isEmpty then [] else [("attributes", ofFields attributes)])

variable [Numerals]

def ofPresent (x : Double) : Json :=
  if x.isFinite then number (Numerals.write x)
  else if x.isNaN then string "NaN"
  else if x.isNegative then string "-Inf"
  else string "Inf"

def ofDouble (x : Double) : Json := if x.isNA then null else ofPresent x

def ofComplex (z : Complex) : Json :=
  if z.isNA then null else ofFields [("re", ofDouble z.re), ("im", ofDouble z.im)]

def ofAtoms : Atoms → Json
  | .logical xs => array (xs.map ofLogical)
  | .integer xs => array (xs.map ofInt32)
  | .double xs => array (xs.map ofDouble)
  | .complex xs => array (xs.map ofComplex)
  | .character xs => array (xs.map ofChars)
  | .raw xs => array (xs.map ofByte)

open Value Attributes in
/-- The document that shows a graph. Origins, object flags and the kinds of all cells but
the first of a chain are not shown. -/
def ofValue : Value → Json
  | .null => null
  | .symbol name => ofFields [("symbol", ofChars name)]
  | .char content => ofChars content
  | .vector _ atoms as _ =>
    withAttributes atoms.kind.name (ofAtoms atoms)
      ((listed as).attach.map fun a ↦ (a.1.1, ofValue a.1.2))
  | .list _ elements as _ =>
    withAttributes Kind.list.name (array (elements.map ofValue))
      ((listed as).attach.map fun a ↦ (a.1.1, ofValue a.1.2))
  | .pair origin kind tag car cdr as flag =>
    let chain := Value.pair origin kind tag car cdr as flag
    let cells := chain.cells.attach.map fun c ↦
      ofCell c.1.tag (ofValue c.1.car)
        (c.1.attributes.listed.attach.map fun a ↦ (a.1.1, ofValue a.1.2))
    let tail := if chain.tail.isNull then [] else [("tail", ofValue chain.tail)]
    ofFields ([("type", string kind.name), ("cells", array cells)] ++ tail)
termination_by v => sizeOf v
decreasing_by
  · have := sizeOf_entry_lt (mem_of_mem_listed a.2)
    simp only [vector.sizeOf_spec]
    omega
  · have := List.sizeOf_lt_of_mem ‹_ ∈ elements›
    simp only [list.sizeOf_spec]
    omega
  · have := sizeOf_entry_lt (mem_of_mem_listed a.2)
    simp only [list.sizeOf_spec]
    omega
  · exact (sizeOf_cell_lt c.2).1
  · exact Nat.lt_trans (sizeOf_entry_lt (mem_of_mem_listed a.2)) (sizeOf_cell_lt c.2).2
  · exact sizeOf_tail_lt _ _ _ _ _ _ _

end Json

end Rds
