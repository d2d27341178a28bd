namespace Rds

/-- What one read from a source of bytes yields. Nothing delivered means the end. -/
inductive Delivery
  | data (bytes : List UInt8)
  | interrupted
  | failed (message : String)

namespace Delivery

/-- Reads to the end. An interrupted read is repeated, any other failure is final. -/
def readAll : List Delivery → Except String (List UInt8)
  | [] => .ok []
  | .data [] :: _ => .ok []
  | .data (b :: bytes) :: rest => ((b :: bytes) ++ ·) <$> readAll rest
  | .interrupted :: rest => readAll rest
  | .failed message :: _ => .error message

end Delivery

end Rds
