namespace Rds.Gzip

/-- One bit of the division by the reflected polynomial. -/
def crcShift (c : UInt32) : UInt32 :=
  if c &&& 1 = 1 then c >>> 1 ^^^ 0xedb88320 else c >>> 1

def crcTable : Array UInt32 :=
  (Array.range 256).map fun n ↦ (List.range 8).foldl (fun c _ ↦ crcShift c) (UInt32.ofNat n)

def crcByte (c : UInt32) (byte : UInt8) : UInt32 :=
  crcTable.getD ((c ^^^ byte.toUInt32) &&& 0xff).toNat 0 ^^^ c >>> 8

def crc32 (bytes : List UInt8) : UInt32 :=
  bytes.foldl crcByte 0xffffffff ^^^ 0xffffffff

end Rds.Gzip
