import Rds.Value.Basic

namespace Rds

namespace Value

mutual

/-- Equality of graphs. Origins do not count, nor does the order of attributes. -/
def same : Value → Value → Bool
  | null, null => true
  | symbol a, symbol b => a == b
  | char a, char b => a == b
  | vector _ a as o, vector _ b bs p =>
    o == p && a == b && as.length == bs.length && within as bs
  | list _ es as o, list _ fs bs p =>
    o == p && as.length == bs.length && within as bs && sameAll es fs
  | pair _ k t a d as o, pair _ l u b e bs p =>
    o == p && k == l && t == u && as.length == bs.length && within as bs && same a b && same d e
  | _, _ => false
termination_by structural v => v

def sameAll : List Value → List Value → Bool
  | [], [] => true
  | v :: vs, w :: ws => same v w && sameAll vs ws
  | _, _ => false
termination_by structural vs => vs

/-- Whether each attribute has an equal one of its name among the others. -/
def within : List (String × Value) → List (String × Value) → Bool
  | [], _ => true
  | (k, v) :: as, bs =>
    (match bs.lookup k with
      | some w => same v w
      | none => false) && within as bs
termination_by structural as => as

end

instance : BEq Value := ⟨same⟩

end Value

end Rds
