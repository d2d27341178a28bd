import Rds.Item.Run
import Rds.Options

namespace Rds

/-- A decoding in progress: its options, the header once it has been read, and how far
the items have been read. -/
structure Session where
  options : Options
  stream : Nat
  header? : Option Header
  progress : Item.Progress

namespace Session

variable {α : Type}

/-- Calls on a session. What a failing call has read stays read. -/
abbrev Call := EStateM Error Session

def start (options : Options) (stream : Nat) (bytes : List UInt8) (log : Log) :
    Except Error Session :=
  match options.check with
  | .ok () => .ok ⟨options, stream, none, .start bytes log⟩
  | .error e => .error e

def references (s : Session) : Nat := s.progress.table.size

def onProgress (r : Item.Reading α) : Call α := fun s ↦
  match r s.progress with
  | .ok a p => .ok a { s with progress := p }
  | .error e p => .error e { s with progress := p }

/-- Reads the header once. Later calls give the same one and read nothing. -/
def readHeader : Call Header := do
  match (← get).header? with
  | some header => return header
  | none =>
    let header ← onProgress (Item.onCursor Header.read)
    onProgress (Item.note (.header header))
    modify fun s ↦ { s with header? := some header }
    return header

def readItem : Call Value := do
  let s ← get
  onProgress (Item.read ⟨s.options.maxDepth, s.stream⟩)

def finish : Call Unit := do
  let s ← get
  let count := s.progress.cursor.remaining
  if count = 0 then
    pure ()
  else if s.options.allowTrailing then
    onProgress (Item.note (.ignoredTrailing count))
  else
    throw (.trailingBytes count)
  onProgress (Item.note (.finished s.references))

end Session

end Rds
