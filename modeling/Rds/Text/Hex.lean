namespace Rds.Hex

def digit (ten : Char) (n : Nat) : Char :=
  if n < 10 then Char.ofNat ('0'.toNat + n) else Char.ofNat (ten.toNat + (n - 10))

def digits (ten : Char) (byte : UInt8) : List Char :=
  [digit ten (byte.toNat / 16), digit ten (byte.toNat % 16)]

def upper (byte : UInt8) : String := String.ofList (digits 'A' byte)

def lower (byte : UInt8) : String := String.ofList (digits 'a' byte)

end Rds.Hex
