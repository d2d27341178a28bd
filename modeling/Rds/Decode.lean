import Rds.Envelope
import Rds.Session
import Rds.Source

namespace Rds

abbrev Logged := EStateM Error Log

namespace Logged

variable {α : Type}

def result (x : Logged α) : Except Error α :=
  match x [] with
  | .ok a _ => .ok a
  | .error e _ => .error e

def note (event : Event) : Logged Unit := modify (event :: ·)

def inSession (options : Options) (stream : Nat) (bytes : List UInt8)
    (call : Session.Call α) : Logged α := fun log ↦
  match Session.start options stream bytes log with
  | .error e => .error e log
  | .ok s =>
    match call s with
    | .ok a t => .ok a t.progress.log
    | .error e t => .error e t.progress.log

end Logged

variable [Inflater]

/-- The bytes to decode: the input, or what its envelope holds if that is to be opened. -/
def openEnvelope (options : Options) (bytes : List UInt8) : Logged (List UInt8) := do
  if options.decompress then
    match Envelope.unwrap bytes with
    | .ok .plain => return bytes
    | .ok (.inflated content) =>
      Logged.note (.inflated bytes.length content.length)
      return content
    | .error e => throw e
  else
    return bytes

/-- Runs calls on the session of an input. The options are judged before the envelope. -/
def withSession {α : Type} (options : Options) (stream : Nat) (bytes : List UInt8)
    (call : Session.Call α) : Logged α := do
  match options.check with
  | .ok () =>
    let content ← openEnvelope options bytes
    Logged.inSession options stream content call
  | .error e => throw e

def readStreamHeader (options : Options) (bytes : List UInt8) : Logged Header :=
  withSession options 0 bytes Session.readHeader

def decodeWithHeader (options : Options) (stream : Nat) (bytes : List UInt8) :
    Logged (Header × Value) :=
  withSession options stream bytes do
    let header ← Session.readHeader
    let value ← Session.readItem
    Session.finish
    return (header, value)

def decode (options : Options) (stream : Nat) (bytes : List UInt8) : Logged Value := do
  return (← decodeWithHeader options stream bytes).2

def decodeSource (options : Options) (stream : Nat) (source : List Delivery) :
    Logged Value := do
  match Delivery.readAll source with
  | .ok bytes =>
    Logged.note (.buffered bytes.length)
    decode options stream bytes
  | .error message => throw (.source message)

end Rds
