import Rds.Text.Printable
import Rds.Text.Extending

namespace Rds.Quoted

def within (code : Nat) : List (Nat × Nat) → Bool
  | [] => false
  | (first, last) :: runs => first ≤ code && (code ≤ last || within code runs)

/-- Characters that are written by their code point, not as themselves. -/
def isHidden (c : Char) : Bool :=
  within c.toNat Printable.unprintable || within c.toNat Printable.extending

def escape (c : Char) : List Char :=
  if c = '\x00' then ['\\', '0']
  else if c = '\t' then ['\\', 't']
  else if c = '\n' then ['\\', 'n']
  else if c = '\r' then ['\\', 'r']
  else if c = '"' then ['\\', '"']
  else if c = '\\' then ['\\', '\\']
  else if isHidden c then ['\\', 'u', '\x7b'] ++ Nat.toDigits 16 c.toNat ++ ['\x7d']
  else [c]

def encode (cs : List Char) : List Char := '"' :: cs.flatMap escape ++ ['"']

def ofString (s : String) : String := String.ofList (encode s.toList)

end Rds.Quoted
