import Rds.Error

namespace Rds

structure Options where
  maxDepth : Nat
  allowTrailing : Bool
  decompress : Bool
deriving DecidableEq

namespace Options

def default : Options := ⟨10000, true, true⟩

/-- No item can be read at depth zero. -/
def check (o : Options) : Except Error Unit :=
  if o.maxDepth = 0 then .error (.unsupported .zeroDepth) else .ok ()

end Options

end Rds
