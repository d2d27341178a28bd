import Rds.Cursor

namespace Rds

/-- A version number packed into one word. The major part keeps the sign. -/
structure Version where
  raw : Int32
deriving DecidableEq

namespace Version

def major (v : Version) : Int32 := v.raw >>> 16

def minor (v : Version) : Int32 := v.raw >>> 8 &&& 0xff

def patch (v : Version) : Int32 := v.raw &&& 0xff

def text (v : Version) : String :=
  s!"{v.major.toInt}.{v.minor.toInt}.{v.patch.toInt}"

end Version

structure Header where
  workspace : Bool
  format : Format
  version : Int32
  writer : Version
  minReader : Version
deriving DecidableEq

namespace Header

def workspaceMagic : List UInt8 := [0x52, 0x44, 0x58, 0x32, 0x0a]

def foreignMagics : List (List UInt8 × ForeignWorkspace) :=
  [([0x52, 0x44, 0x41, 0x32, 0x0a], .ascii), ([0x52, 0x44, 0x42, 0x32, 0x0a], .binary),
    ([0x52, 0x44, 0x58, 0x33, 0x0a], .version3), ([0x52, 0x44, 0x58, 0x31, 0x0a], .version1)]

def readMagic : Cursor.Reader Bool := do
  let c ← get
  if c.startsWith workspaceMagic then
    Cursor.skip workspaceMagic.length
    return true
  match foreignMagics.find? fun m ↦ c.startsWith m.1 with
  | some m => throw (.unsupported (.workspace m.2))
  | none => return false

/-- Reads the two marker bytes, of which only the first one counts. -/
def readFormat : Cursor.Reader Format := do
  let byte := (← Cursor.bytes 2).headD 0
  match Format.ofMarker? byte with
  | some .xdr => return .xdr
  | some other => throw (.unsupported (.serialization other))
  | none => throw (.unsupported (.marker byte))

/-- Reads the numbers. The version is judged after all three of them have been read. -/
def readNumbers (workspace : Bool) (format : Format) : Cursor.Reader Header := do
  let version ← Cursor.int32
  let writer ← Cursor.int32
  let minReader ← Cursor.int32
  if version = supportedVersion then
    return ⟨workspace, format, version, ⟨writer⟩, ⟨minReader⟩⟩
  else
    throw (.unsupported (.version version))

def readBehind (workspace : Bool) : Cursor.Reader Header := do
  readNumbers workspace (← readFormat)

def read : Cursor.Reader Header := do
  readBehind (← readMagic)

end Header

end Rds
