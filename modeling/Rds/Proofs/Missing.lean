import Rds.Proofs.Double
import Rds.Value.Basic

namespace Rds

/-- A NaN whose low word is 1954. -/
def Double.Missing (x : Double) : Prop :=
  x.bits.toNat / 2 ^ 52 % 2 ^ 11 = 2047 ∧ x.bits.toNat % 2 ^ 52 ≠ 0 ∧ x.bits.toNat % 2 ^ 32 = 1954

theorem Double.isNA_iff (x : Double) : x.isNA = true ↔ x.Missing := by
  have hlow : x.bits &&& 0xffffffff = 1954 ↔ x.bits.toNat % 2 ^ 32 = 1954 := by
    rw [← UInt64.toNat_inj, UInt64.toNat_and]
    exact Eq.congr_left (Nat.and_two_pow_sub_one_eq_mod _ 32)
  rw [isNA, isNaN, Missing, exponentField_eq, fractionField_eq, Bool.and_eq_true,
    Bool.and_eq_true, and_assoc, beq_iff_eq, bne_iff_ne, beq_iff_eq, hlow]

theorem Complex.isNA_iff (z : Complex) : z.isNA = true ↔ z.re.Missing ∨ z.im.Missing := by
  rw [isNA, Bool.or_eq_true, Double.isNA_iff, Double.isNA_iff]

theorem Chars.isNA_iff (c : Chars) : c.isNA = true ↔ c = .na := by
  cases c with
  | na => exact iff_of_true rfl rfl
  | text _ _ => exact iff_of_false Bool.false_ne_true (fun h ↦ by cases h)

namespace Atoms

/-- Whether an element is the missing value of its type. Bytes never are. -/
def HasMissing : Atoms → Prop
  | logical xs => .na ∈ xs
  | integer xs => Int32.minValue ∈ xs
  | double xs => ∃ x ∈ xs, x.Missing
  | complex xs => ∃ z ∈ xs, z.re.Missing ∨ z.im.Missing
  | character xs => .na ∈ xs
  | raw _ => False

def MissingAt : Atoms → Nat → Prop
  | logical xs, i => xs[i]? = some .na
  | integer xs, i => xs[i]? = some Int32.minValue
  | double xs, i => ∃ x, xs[i]? = some x ∧ x.Missing
  | complex xs, i => ∃ z, xs[i]? = some z ∧ (z.re.Missing ∨ z.im.Missing)
  | character xs, i => xs[i]? = some .na
  | raw _, _ => False

theorem any_missing {α : Type} (xs : List α) (f : α → Bool) :
    (xs.map f).any id = true ↔ ∃ x ∈ xs, f x = true := by
  rw [List.any_map, List.any_eq_true]
  rfl

theorem isComplete_eq_false_iff (a : Atoms) : a.isComplete = false ↔ a.HasMissing := by
  rw [isComplete, Bool.not_eq_false']
  cases a with
  | logical xs =>
    simp only [missing, any_missing, HasMissing, beq_iff_eq, exists_eq_right]
  | integer xs =>
    simp only [missing, any_missing, HasMissing, beq_iff_eq, exists_eq_right, naInteger]
  | double xs =>
    simp only [missing, any_missing, HasMissing, Double.isNA_iff]
  | complex xs =>
    simp only [missing, any_missing, HasMissing, Complex.isNA_iff]
  | character xs =>
    simp only [missing, any_missing, HasMissing, Chars.isNA_iff, exists_eq_right]
  | raw xs =>
    simp only [missing, any_missing, HasMissing, Bool.false_eq_true, and_false, exists_false]

theorem hasMissing_iff (a : Atoms) : a.HasMissing ↔ ∃ i, a.MissingAt i := by
  have hmem {α : Type} (xs : List α) (P : α → Prop) :
      (∃ x ∈ xs, P x) ↔ ∃ i : Nat, ∃ x : α, xs[i]? = some x ∧ P x := by
    simp only [List.mem_iff_getElem?]
    exact ⟨fun ⟨x, ⟨i, hi⟩, hx⟩ ↦ ⟨i, x, hi, hx⟩, fun ⟨i, x, hi, hx⟩ ↦ ⟨x, ⟨i, hi⟩, hx⟩⟩
  cases a with
  | logical xs => exact List.mem_iff_getElem?
  | integer xs => exact List.mem_iff_getElem?
  | double xs => exact hmem xs Double.Missing
  | complex xs => exact hmem xs fun z ↦ z.re.Missing ∨ z.im.Missing
  | character xs => exact List.mem_iff_getElem?
  | raw xs => exact iff_of_false id fun ⟨_, h⟩ ↦ h

end Atoms

end Rds
