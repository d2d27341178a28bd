import Rds.Error

namespace Rds

/-- A library that inflates. Where it cannot, it has a text for that. -/
class Inflater where
  inflate : List UInt8 → Except String (List UInt8)

namespace Envelope

def gzipMagic : List UInt8 := [0x1f, 0x8b]

def foreignMagics : List (List UInt8 × ForeignEnvelope) :=
  [([0x42, 0x5a, 0x68], .bzip2), ([0xfd, 0x37, 0x7a, 0x58, 0x5a, 0x00], .xz)]

def isGzip (bytes : List UInt8) : Bool := gzipMagic.isPrefixOf bytes

inductive Content
  | plain
  | inflated (bytes : List UInt8)

/-- Opens one envelope, if there is one. What was inside is not looked at. -/
def unwrap [Inflater] (bytes : List UInt8) : Except Error Content :=
  if isGzip bytes then
    match Inflater.inflate bytes with
    | .ok content => .ok (.inflated content)
    | .error message => .error (@Error.inflation message)
  else
    match foreignMagics.find? fun m ↦ m.1.isPrefixOf bytes with
    | some m => .error (.unsupported (.envelope m.2))
    | none => .ok .plain

end Envelope

end Rds
