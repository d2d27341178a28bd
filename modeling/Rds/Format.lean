namespace Rds

inductive Format
  | xdr | ascii | binary | legacy
deriving DecidableEq

namespace Format

def ofMarker? (byte : UInt8) : Option Format :=
  if byte = 0x58 then some xdr
  else if byte = 0x41 then some ascii
  else if byte = 0x42 then some binary
  else if byte = 0x0a then some legacy
  else none

def name : Format → String
  | xdr => "Xdr"
  | ascii => "Ascii"
  | binary => "Binary"
  | legacy => "Legacy"

def description : Format → String
  | xdr => "XDR"
  | ascii => "ASCII"
  | binary => "native binary"
  | legacy => "legacy"

end Format

inductive ForeignWorkspace
  | ascii | binary | version3 | version1
deriving DecidableEq

namespace ForeignWorkspace

def description : ForeignWorkspace → String
  | ascii => "ASCII workspace format"
  | binary => "binary workspace format"
  | version3 => "workspace format version 3"
  | version1 => "workspace format version 1"

end ForeignWorkspace

inductive ForeignEnvelope
  | bzip2 | xz
deriving DecidableEq

namespace ForeignEnvelope

def description : ForeignEnvelope → String
  | bzip2 => "bzip2-compressed input"
  | xz => "xz-compressed input"

end ForeignEnvelope

def supportedVersion : Int32 := 2

end Rds
