import Rds.Error
import Rds.Value.Equality

namespace Rds

namespace Attributes

/-- The attributes with a meaning of their own, in canonical order. -/
def slots : List String := ["names", "dim", "dimnames", "row.names", "class"]

/-- The place of a name in canonical order; all other names share the last one. -/
def rank (name : String) : Nat := slots.idxOf name

def isSlot (name : String) : Bool := slots.contains name

def slotShape? (name : String) : Option Shape :=
  match name with
  | "names" => some .character
  | "dim" => some .integer
  | "dimnames" => some .list
  | "row.names" => some .integerOrCharacter
  | "class" => some .character
  | _ => none

/-- Replaces the value under the name, or adds it behind its rank. -/
def put (name : String) (value : Value) : Attributes → Attributes
  | [] => [(name, value)]
  | (k, v) :: rest =>
    if k = name then (name, value) :: rest
    else if rank name < rank k then (name, value) :: (k, v) :: rest
    else (k, v) :: put name value rest

def insert (as : Attributes) (name : String) (value : Value) : Except AttributeFault Attributes :=
  match slotShape? name with
  | none => .ok (put name value as)
  | some shape =>
    if shape.admits value.kind then .ok (put name value as)
    else .error (.shape name shape value.kind)

def collect (as : Attributes) : Value → Except AttributeFault Attributes
  | .null => .ok as
  | .pair _ _ tag car cdr _ _ =>
    match tag.bind Chars.text? with
    | none => .error .untagged
    | some name =>
      match as.insert name car with
      | .ok as => collect as cdr
      | .error fault => .error fault
  | v => .error (.terminator v.kind)

/-- The attribute set that a tagged chain spells out. A name that occurs twice keeps
its first place and takes its last value. -/
def bind (v : Value) : Except AttributeFault Attributes :=
  match v with
  | .pair .. => collect [] v
  | _ => .error (.notPairlist v.kind)

variable (as : Attributes)

def get? (name : String) : Option Value := as.lookup name

def characters? (name : String) : Option (List Chars) :=
  match as.get? name with
  | some (.vector _ (.character xs) _ _) => some xs
  | _ => none

def names? : Option (List Chars) := as.characters? "names"

def class? : Option (List Chars) := as.characters? "class"

def dim? : Option (List Int32) :=
  match as.get? "dim" with
  | some (.vector _ (.integer xs) _ _) => some xs
  | _ => none

def others : Attributes := as.filter fun a ↦ !isSlot a.1

/-- The attributes with a meaning of their own in their order, then the others. -/
def listed : Attributes := slots.flatMap (fun name ↦ as.filter fun a ↦ a.1 == name) ++ as.others

theorem mem_of_mem_listed {as : Attributes} {a : String × Value} (h : a ∈ as.listed) : a ∈ as := by
  obtain h | h := List.mem_append.mp h
  · obtain ⟨_, -, h⟩ := List.mem_flatMap.mp h
    exact (List.mem_filter.mp h).1
  · exact (List.mem_filter.mp h).1

def same (bs : Attributes) : Bool := as.length == bs.length && Value.within as bs

def inherits (name : String) : Bool :=
  (as.class?.getD []).any fun c ↦ c.text? == some name

/-- The number of rows that the row names count. A pair of the missing integer and `n`
stands for `n` rows, whatever the sign of `n` is. -/
def rowCount? : Option Nat :=
  match as.get? "row.names" with
  | some (.vector _ (.integer [m, n]) _ _) => some (if m = naInteger then n.toInt.natAbs else 2)
  | some (.vector _ (.integer xs) _ _) => some xs.length
  | some (.vector _ (.character xs) _ _) => some xs.length
  | _ => none

end Attributes

namespace Value

def named? (name : String) : Value → Option Value
  | list _ elements attributes _ => do
    let names ← Attributes.names? attributes
    let i ← names.findIdx? fun n ↦ n.text? == some name
    elements[i]?
  | _ => none

end Value

end Rds
