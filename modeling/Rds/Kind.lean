import Rds.TypeCode

namespace Rds

inductive Kind
  | null | symbol | char | logical | integer | double | complex | character | raw | list
  | pair (kind : PairKind)
deriving DecidableEq

namespace PairKind

def name : PairKind → String
  | list => "pairlist"
  | language => "language"
  | closure => "closure"
  | promise => "promise"
  | dots => "..."

end PairKind

namespace Kind

def name : Kind → String
  | null => "NULL"
  | symbol => "symbol"
  | char => "char"
  | logical => "logical"
  | integer => "integer"
  | double => "double"
  | complex => "complex"
  | character => "character"
  | raw => "raw"
  | list => "list"
  | pair k => k.name

end Kind

end Rds
