import Rds.Value.Basic

namespace Rds

namespace Value

theorem sizeOf_entry_lt {as : Attributes} {a : String × Value} (h : a ∈ as) :
    sizeOf a.2 < sizeOf as := by
  have := List.sizeOf_lt_of_mem h
  obtain ⟨k, v⟩ := a
  simp only [Prod.mk.sizeOf_spec] at this ⊢
  omega

theorem unlink_eq (cells : List Cell) (v : Value) :
    unlink cells v = ((unlink [] v).1 ++ cells, (unlink [] v).2) := by
  match v with
  | pair origin kind tag car cdr attributes object =>
    rw [unlink, unlink, unlink_eq _ cdr, unlink_eq [_] cdr]
    simp
  | null => rfl
  | symbol _ => rfl
  | char _ => rfl
  | vector .. => rfl
  | list .. => rfl
termination_by structural v

theorem cells_pair (origin : Origin) (kind : PairKind) (tag : Option Chars) (car cdr : Value)
    (attributes : Attributes) (object : Bool) :
    (pair origin kind tag car cdr attributes object).cells
      = ⟨origin, kind, tag, car, attributes, object⟩ :: cdr.cells := by
  rw [cells, unlink, unlink_eq]
  simp [cells]

theorem tail_pair (origin : Origin) (kind : PairKind) (tag : Option Chars) (car cdr : Value)
    (attributes : Attributes) (object : Bool) :
    (pair origin kind tag car cdr attributes object).tail = cdr.tail := by
  rw [tail, unlink, unlink_eq]
  rfl

theorem sizeOf_cell_lt {v : Value} {c : Cell} (h : c ∈ v.cells) :
    sizeOf c.car < sizeOf v ∧ sizeOf c.attributes < sizeOf v := by
  match v with
  | pair origin kind tag car cdr attributes object =>
    rw [cells_pair] at h
    simp only [pair.sizeOf_spec]
    rcases List.mem_cons.mp h with rfl | h
    · exact ⟨by simp only; omega, by simp only; omega⟩
    · have := sizeOf_cell_lt h
      omega
  | null => cases h
  | symbol _ => cases h
  | char _ => cases h
  | vector .. => cases h
  | list .. => cases h
termination_by structural v

theorem sizeOf_tail_le (v : Value) : sizeOf v.tail ≤ sizeOf v := by
  match v with
  | pair origin kind tag car cdr attributes object =>
    rw [tail_pair]
    have := sizeOf_tail_le cdr
    simp only [pair.sizeOf_spec]
    omega
  | null => exact Nat.le_refl _
  | symbol _ => exact Nat.le_refl _
  | char _ => exact Nat.le_refl _
  | vector .. => exact Nat.le_refl _
  | list .. => exact Nat.le_refl _
termination_by structural v

theorem sizeOf_tail_lt (origin : Origin) (kind : PairKind) (tag : Option Chars)
    (car cdr : Value) (attributes : Attributes) (object : Bool) :
    sizeOf (pair origin kind tag car cdr attributes object).tail
      < sizeOf (pair origin kind tag car cdr attributes object) := by
  rw [tail_pair]
  have := sizeOf_tail_le cdr
  simp only [pair.sizeOf_spec]
  omega

end Value

end Rds
