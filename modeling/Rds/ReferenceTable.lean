import Rds.Error
import Rds.Value.Basic

namespace Rds

/-- The items that later ones may refer back to, numbered from one. -/
structure ReferenceTable where
  entries : Array Value

namespace ReferenceTable

def empty : ReferenceTable := ⟨#[]⟩

def size (t : ReferenceTable) : Nat := t.entries.size

def push (t : ReferenceTable) (v : Value) : ReferenceTable := ⟨t.entries.push v⟩

/-- The entry with a positive index, if the table reaches that far. -/
def get? (t : ReferenceTable) (index : Int32) : Option Value :=
  match index.toInt with
  | .ofNat (n + 1) => t.entries[n]?
  | _ => none

def resolve (t : ReferenceTable) (index : Int32) : Except Error Value :=
  match t.get? index with
  | some v => .ok v
  | none => .error (.corruptReference index t.size)

end ReferenceTable

end Rds
