import Rds.Item.Frame
import Rds.Log
import Rds.ReferenceTable

namespace Rds.Item

structure Progress where
  cursor : Cursor
  table : ReferenceTable
  log : Log

/-- A step of reading. Its effects up to a failure remain. -/
abbrev Reading := EStateM Error Progress

namespace Progress

def start (bytes : List UInt8) (log : Log) : Progress :=
  ⟨Cursor.ofBytes bytes, ReferenceTable.empty, log⟩

end Progress

variable {α : Type}

def onCursor (r : Cursor.Reader α) : Reading α := fun s ↦
  match r s.cursor with
  | .ok a c => .ok a { s with cursor := c }
  | .error e c => .error e { s with cursor := c }

def note (event : Event) : Reading Unit :=
  modify fun s ↦ { s with log := event :: s.log }

def require (checked : Except Error α) : Reading α :=
  match checked with
  | .ok a => pure a
  | .error e => throw e

def readLead : Reading Lead := do
  let offset := (← get).cursor.position
  return ⟨offset, ⟨← onCursor Cursor.int32⟩⟩

/-- Looks a reference up, by the packed index or else by the word that follows. -/
def readReference (flags : FlagWord) : Reading Value := do
  let index ← if flags.packedIndex = 0 then onCursor Cursor.int32 else pure flags.packedIndex
  require ((← get).table.resolve index)

def missingLength : Int32 := -1

/-- Reads the bytes of a string, which need not be valid UTF-8. -/
def readChars (origin : Origin) : Reading Chars := do
  let n ← onCursor Cursor.int32
  if n = missingLength then
    return .na
  else if n < 0 then
    throw (.negativeLength n)
  else
    let bytes ← onCursor (Cursor.bytes n.toNatClampNeg)
    match Utf8.fault? bytes with
    | some fault => note (.repaired fault)
    | none => pure ()
    return .text origin (String.ofList (Utf8.repair bytes))

def readMany (r : Cursor.Reader α) (done : List α) : Nat → Cursor.Reader (List α)
  | 0 => pure done.reverse
  | n + 1 => do
    let a ← r
    readMany r (a :: done) n

def readCounted (r : Cursor.Reader α) : Cursor.Reader (List α) := do
  readMany r [] (← Cursor.length)

def readDouble : Cursor.Reader Double := do
  return ⟨← Cursor.word64⟩

def readComplex : Cursor.Reader Complex := do
  let re ← readDouble
  let im ← readDouble
  return ⟨re, im⟩

def readLogical : Cursor.Reader Logical := do
  return Logical.ofInt32 (← Cursor.int32)

def readRaw : Cursor.Reader (List UInt8) := do
  Cursor.bytes (← Cursor.length)

def atomsReader? : TypeCode → Option (Cursor.Reader Atoms)
  | .logical => some (Atoms.logical <$> readCounted readLogical)
  | .integer => some (Atoms.integer <$> readCounted Cursor.int32)
  | .double => some (Atoms.double <$> readCounted readDouble)
  | .complex => some (Atoms.complex <$> readCounted readComplex)
  | .raw => some (Atoms.raw <$> readRaw)
  | _ => none

end Rds.Item
