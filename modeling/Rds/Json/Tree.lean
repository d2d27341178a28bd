import Rds.Text.Hex

namespace Rds

/-- A JSON document. A number is kept as it is written. -/
inductive Json
  | null
  | bool (b : Bool)
  | number (text : String)
  | string (s : String)
  | array (items : List Json)
  | object (fields : List (String × Json))

namespace Json

/-- An object with its keys in ascending order. -/
def ofFields (fields : List (String × Json)) : Json :=
  object (fields.mergeSort fun a b ↦ a.1 ≤ b.1)

def escape (c : Char) : List Char :=
  if c = '"' then ['\\', '"']
  else if c = '\\' then ['\\', '\\']
  else if c = '\x08' then ['\\', 'b']
  else if c = '\x0c' then ['\\', 'f']
  else if c = '\n' then ['\\', 'n']
  else if c = '\r' then ['\\', 'r']
  else if c = '\t' then ['\\', 't']
  else if c.toNat < 0x20 then
    ['\\', 'u', '0', '0'] ++ Hex.digits 'a' (UInt8.ofNat c.toNat)
  else [c]

def quote (s : String) : String :=
  String.ofList ('"' :: s.toList.flatMap escape ++ ['"'])

theorem sizeOf_field_lt {fields : List (String × Json)} {f : String × Json} (h : f ∈ fields) :
    sizeOf f.2 < sizeOf fields := by
  have := List.sizeOf_lt_of_mem h
  obtain ⟨k, v⟩ := f
  simp only [Prod.mk.sizeOf_spec] at this ⊢
  omega

def compact : Json → String
  | null => "null"
  | bool true => "true"
  | bool false => "false"
  | number text => text
  | string s => quote s
  | array items => "[" ++ String.intercalate "," (items.map compact) ++ "]"
  | object fields =>
    "\x7b" ++ String.intercalate "," (fields.map fun f ↦ quote f.1 ++ ":" ++ compact f.2) ++ "\x7d"
decreasing_by
  · have := List.sizeOf_lt_of_mem ‹_›
    simp only [array.sizeOf_spec]
    omega
  · have := sizeOf_field_lt ‹_›
    simp only [object.sizeOf_spec]
    omega

def indentation (depth : Nat) : String := String.ofList (List.replicate (2 * depth) ' ')

/-- Entries between brackets, one a line and one level deeper than the brackets. -/
def enclose (first last : String) (depth : Nat) (entries : List String) : String :=
  if entries.isEmpty then first ++ last
  else
    let separator := ",\n" ++ indentation (depth + 1)
    first ++ "\n" ++ indentation (depth + 1) ++ String.intercalate separator entries ++ "\n"
      ++ indentation depth ++ last

def prettyAt (depth : Nat) : Json → String
  | null => "null"
  | bool true => "true"
  | bool false => "false"
  | number text => text
  | string s => quote s
  | array items => enclose "[" "]" depth (items.map (prettyAt (depth + 1)))
  | object fields =>
    enclose "\x7b" "\x7d" depth
      (fields.map fun f ↦ quote f.1 ++ ": " ++ prettyAt (depth + 1) f.2)
termination_by j => sizeOf j
decreasing_by
  · have := List.sizeOf_lt_of_mem ‹_›
    simp only [array.sizeOf_spec]
    omega
  · have := sizeOf_field_lt ‹_›
    simp only [object.sizeOf_spec]
    omega

def pretty (j : Json) : String := prettyAt 0 j

end Json

end Rds
