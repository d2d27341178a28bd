import Rds.Value.Basic

namespace Rds

namespace Value

/-- The child that leads on along the spine: the first element of a list, the car of
a cell, and otherwise the attribute `a`. -/
def spineChild? : Value → Option Value
  | list _ (e :: _) _ _ => some e
  | pair _ _ _ car _ _ _ => some car
  | v => v.attributes.lookup "a"

theorem sizeOf_lookup_lt {as : Attributes} {name : String} {v : Value}
    (h : as.lookup name = some v) : sizeOf v < sizeOf as := by
  induction as with
  | nil => simp at h
  | cons a as ih =>
    obtain ⟨k, w⟩ := a
    rw [List.lookup_cons] at h
    cases hk : name == k <;> rw [hk] at h <;> simp only at h
    · have := ih h
      simp only [List.cons.sizeOf_spec]
      omega
    · cases h
      simp only [List.cons.sizeOf_spec, Prod.mk.sizeOf_spec]
      omega

theorem sizeOf_attribute_lt {v w : Value} {name : String}
    (h : v.attributes.lookup name = some w) : sizeOf w < sizeOf v := by
  cases v with
  | null => simp [attributes, attributes?] at h
  | symbol _ => simp [attributes, attributes?] at h
  | char _ => simp [attributes, attributes?] at h
  | vector o a as b =>
    have : sizeOf w < sizeOf as := sizeOf_lookup_lt h
    simp only [vector.sizeOf_spec]
    omega
  | list o es as b =>
    have : sizeOf w < sizeOf as := sizeOf_lookup_lt h
    simp only [list.sizeOf_spec]
    omega
  | pair o k t a d as b =>
    have : sizeOf w < sizeOf as := sizeOf_lookup_lt h
    simp only [pair.sizeOf_spec]
    omega

theorem sizeOf_spineChild?_lt {v w : Value} (h : v.spineChild? = some w) :
    sizeOf w < sizeOf v := by
  unfold spineChild? at h
  split at h
  · cases h
    simp only [list.sizeOf_spec, List.cons.sizeOf_spec]
    omega
  · cases h
    simp only [pair.sizeOf_spec]
    omega
  · exact sizeOf_attribute_lt h

def spineFrom (n : Nat) (v : Value) : Nat × Value :=
  match h : v.spineChild? with
  | some w => spineFrom (n + 1) w
  | none => (n, v)
termination_by sizeOf v
decreasing_by exact sizeOf_spineChild?_lt h

def spine (v : Value) : Nat × Value := spineFrom 0 v

end Value

end Rds
