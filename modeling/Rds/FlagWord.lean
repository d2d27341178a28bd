namespace Rds

/-- The word in front of every item. Bits 0 to 7 hold the type code, bits 8 to 10
the object, attribute and tag flags, and bits from 12 up are reserved levels. -/
structure FlagWord where
  raw : Int32
deriving DecidableEq

namespace FlagWord

def typeByte (w : FlagWord) : UInt8 :=
  w.raw.toUInt32.toUInt8

def isObject (w : FlagWord) : Bool :=
  w.raw &&& 0x100 != 0

def hasAttributes (w : FlagWord) : Bool :=
  w.raw &&& 0x200 != 0

def hasTag (w : FlagWord) : Bool :=
  w.raw &&& 0x400 != 0

def levels (w : FlagWord) : Int32 :=
  w.raw >>> 12

/-- The index packed into the word of a reference. Zero means that the index
follows as a word of its own. -/
def packedIndex (w : FlagWord) : Int32 :=
  w.raw >>> 8

/-- The word of a reference with a packed index. Indices of 24 bits and more lose
their upper bits. -/
def reference (index : Int32) : FlagWord :=
  ⟨index <<< 8 ||| 0xff⟩

end FlagWord

end Rds
