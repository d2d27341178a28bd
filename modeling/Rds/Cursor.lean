import Rds.Error

namespace Rds

/-- A place in a byte sequence: how many bytes lie behind it and which lie ahead. -/
structure Cursor where
  position : Nat
  rest : List UInt8
deriving DecidableEq

def bigEndian (bytes : List UInt8) : Nat :=
  bytes.foldl (fun n b ↦ 256 * n + b.toNat) 0

namespace Cursor

/-- A reader moves the cursor forward. The cursor is kept when the reader fails. -/
abbrev Reader := EStateM Error Cursor

def ofBytes (bytes : List UInt8) : Cursor := ⟨0, bytes⟩

def remaining (c : Cursor) : Nat := c.rest.length

def isExhausted (c : Cursor) : Bool := c.rest.isEmpty

def startsWith (c : Cursor) (bytes : List UInt8) : Bool := bytes.isPrefixOf c.rest

def advance (c : Cursor) (n : Nat) : Cursor := ⟨c.position + n, c.rest.drop n⟩

def bytes (n : Nat) : Reader (List UInt8) := fun c ↦
  let front := c.rest.take n
  if front.length = n then .ok front (c.advance n) else .error (.truncated n c.remaining) c

def skip (n : Nat) : Reader Unit := do
  let _ ← bytes n

def int32 : Reader Int32 := do
  return (UInt32.ofNat (bigEndian (← bytes 4))).toInt32

def word64 : Reader UInt64 := do
  return UInt64.ofNat (bigEndian (← bytes 8))

/-- Reads a length word. A negative one is refused after it has been read. -/
def length : Reader Nat := do
  let n ← int32
  if n < 0 then throw (.negativeLength n) else return n.toNatClampNeg

theorem front_length_eq_iff {c : Cursor} {n : Nat} :
    (c.rest.take n).length = n ↔ n ≤ c.remaining := by
  rw [List.length_take, remaining]
  omega

theorem bytes_ok {c : Cursor} {n : Nat} (h : n ≤ c.remaining) :
    bytes n c = .ok (c.rest.take n) (c.advance n) :=
  if_pos (front_length_eq_iff.mpr h)

theorem bytes_error {c : Cursor} {n : Nat} (h : c.remaining < n) :
    bytes n c = .error (.truncated n c.remaining) c :=
  if_neg fun e ↦ Nat.not_le_of_lt h (front_length_eq_iff.mp e)

end Cursor

end Rds
