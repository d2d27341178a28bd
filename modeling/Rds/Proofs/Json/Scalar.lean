import Mathlib.Data.Set.Function
import Rds.Proofs.Double
import Rds.Proofs.Erasure
import Rds.Proofs.Json

namespace Rds

def Double.nan : Double := ⟨0x7ff8000000000000⟩

def Double.shown (x : Double) : Double :=
  if x.isNA then .na else if x.isNaN then .nan else x

def Complex.shown (z : Complex) : Complex :=
  if z.isNA then ⟨.na, .na⟩ else ⟨z.re.shown, z.im.shown⟩

def Atoms.shown : Atoms → Atoms
  | double xs => double (xs.map Double.shown)
  | complex xs => complex (xs.map Complex.shown)
  | a => a

namespace Double

variable {x y : Double}

theorem eq_of_infinite (hx : x.isFinite = false) (hy : y.isFinite = false) (hxn : x.isNaN = false)
    (hyn : y.isNaN = false) (hs : x.isNegative = y.isNegative) : x = y := by
  simp [isFinite, isNaN] at hx hy hxn hyn
  exact eq_of_fields hs (hx.trans hy.symm) ((hxn hx).trans (hyn hy).symm)

end Double

namespace Json

theorem ofChars_eq_iff {c d : Chars} : ofChars c = ofChars d ↔ (c == d) = true := by
  rw [Chars.beq_iff_erase]
  cases c <;> cases d <;> simp [ofChars, Chars.text?, Chars.erase]

theorem ofLogical_injective : Function.Injective ofLogical := by
  intro x y h
  cases x <;> cases y <;> simp [ofLogical, Logical.toBool?] at h ⊢

theorem repr_nat_injective : Function.Injective Nat.repr := by
  intro m n h
  have hdigits := congrArg (fun s ↦ Nat.ofDigitChars 10 s.toList 0) h
  simpa only [Nat.toList_repr, Nat.ofDigitChars_ten_toDigits] using hdigits

theorem repr_ne_minus (m n : Nat) : m.repr ≠ "-" ++ n.repr := by
  intro h
  have hmem : '-' ∈ m.repr.toList := by simp [h]
  rw [Nat.toList_repr] at hmem
  exact absurd (Nat.isDigit_of_mem_toDigits (by decide) (by decide) hmem) (by decide)

theorem repr_int_injective : Function.Injective Int.repr := by
  intro m n h
  cases m with
  | ofNat m =>
    cases n with
    | ofNat n => exact congrArg Int.ofNat (repr_nat_injective h)
    | negSucc n => exact absurd h (repr_ne_minus m _)
  | negSucc m =>
    cases n with
    | ofNat n => exact absurd h.symm (repr_ne_minus n _)
    | negSucc n =>
      have hrepr := repr_nat_injective ((String.append_right_inj "-").mp h)
      exact congrArg Int.negSucc (Nat.succ.inj hrepr)

theorem ofInt32_injective : Function.Injective ofInt32 := by
  intro m n h
  unfold ofInt32 at h
  split_ifs at h with hm hn hn
  · rw [hm, hn]
  · exact Int32.toInt_inj.mp (repr_int_injective (number.inj h))

theorem ofByte_injective : Function.Injective ofByte := by
  intro a b h
  exact UInt8.toNat_inj.mp (repr_nat_injective (number.inj h))

section Doubles

variable [Numerals] {x y : Double}

theorem ofPresent_ne_null (x : Double) : ofPresent x ≠ null := by
  unfold ofPresent
  split_ifs <;> simp

theorem ofPresent_of_isNaN (h : x.isNaN = true) : ofPresent x = string "NaN" := by
  have hfinite : x.isFinite = false := by
    simp [Double.isNaN] at h
    simp [Double.isFinite, h]
  simp [ofPresent, hfinite, h]

theorem isNaN_of_ofPresent (h : ofPresent x = string "NaN") : x.isNaN = true := by
  unfold ofPresent at h
  split_ifs at h with hfinite hnan hneg
  · exact hnan
  · simp at h
  · simp at h

theorem ofPresent_of_isFinite (h : x.isFinite = true) :
    ofPresent x = number (Numerals.write x) := if_pos h

theorem ofPresent_of_infinite (h : x.isFinite = false) (hn : x.isNaN = false) :
    ofPresent x = string (if x.isNegative then "-Inf" else "Inf") := by
  simp only [ofPresent, h, hn, Bool.false_eq_true, if_false]
  split <;> rfl

/-- Finite doubles are written differently if they are different, zeros of different signs
included. -/
def Numerals.Distinct : Prop := Set.InjOn Numerals.write {x : Double | x.isFinite = true}

theorem eq_of_ofPresent_eq (hw : Numerals.Distinct) (hx : x.isNaN = false) (hy : y.isNaN = false)
    (h : ofPresent x = ofPresent y) : x = y := by
  cases hxf : x.isFinite with
  | true =>
    rw [ofPresent_of_isFinite hxf] at h
    cases hyf : y.isFinite with
    | true =>
      rw [ofPresent_of_isFinite hyf] at h
      exact hw hxf hyf (number.inj h)
    | false =>
      rw [ofPresent_of_infinite hyf hy] at h
      cases h
  | false =>
    rw [ofPresent_of_infinite hxf hx] at h
    cases hyf : y.isFinite with
    | true =>
      rw [ofPresent_of_isFinite hyf] at h
      cases h
    | false =>
      rw [ofPresent_of_infinite hyf hy] at h
      apply Double.eq_of_infinite hxf hyf hx hy
      cases hxs : x.isNegative <;> cases hys : y.isNegative <;> simp [hxs, hys] at h ⊢

theorem shown_of_ofDouble_eq (hw : Numerals.Distinct) (h : ofDouble x = ofDouble y) : x.shown = y.shown := by
  unfold ofDouble at h
  split_ifs at h with hx hy hy
  · simp [Double.shown, hx, hy]
  · exact absurd h.symm (ofPresent_ne_null y)
  · exact absurd h (ofPresent_ne_null x)
  · by_cases hxn : x.isNaN = true
    · have hyn := isNaN_of_ofPresent (h.symm.trans (ofPresent_of_isNaN hxn))
      simp [Double.shown, hx, hy, hxn, hyn]
    · have hyn : ¬ y.isNaN = true := fun hyn ↦
        hxn (isNaN_of_ofPresent (h.trans (ofPresent_of_isNaN hyn)))
      rw [Bool.not_eq_true] at hxn hyn
      rw [eq_of_ofPresent_eq hw hxn hyn h]

theorem shown_of_ofComplex_eq (hn : Numerals.Distinct) {z w : Complex}
    (h : ofComplex z = ofComplex w) : z.shown = w.shown := by
  unfold ofComplex at h
  split_ifs at h with hz hw hw
  · simp [Complex.shown, hz, hw]
  · cases h
  · cases h
  · have hlookup := lookup_of_ofFields_eq (by simp) h
    have hre : ofDouble z.re = ofDouble w.re := Option.some.inj (hlookup "re")
    have him : ofDouble z.im = ofDouble w.im := Option.some.inj (hlookup "im")
    simp [Complex.shown, hz, hw, shown_of_ofDouble_eq hn hre, shown_of_ofDouble_eq hn him]

end Doubles

theorem map_eq_of_map_eq {α β γ : Type} {f : α → β} {g : α → γ}
    (hfg : ∀ x y, f x = f y → g x = g y) {xs ys : List α} (h : xs.map f = ys.map f) :
    xs.map g = ys.map g := by
  induction xs generalizing ys with
  | nil =>
    rw [List.map_nil, eq_comm, List.map_eq_nil_iff] at h
    rw [h]
  | cons x xs ih =>
    cases ys with
    | nil => cases h
    | cons y ys =>
      obtain ⟨hhead, htail⟩ := List.cons.inj h
      rw [List.map_cons, List.map_cons, hfg x y hhead, ih htail]

theorem shown_of_ofAtoms_eq [Numerals] (hw : Numerals.Distinct) {a b : Atoms}
    (hkind : a.kind = b.kind) (h : ofAtoms a = ofAtoms b) : (a.shown == b.shown) = true := by
  rw [Atoms.beq_iff_erase]
  cases a with
  | logical xs =>
    cases b with
    | logical ys => exact congrArg Atoms.logical (ofLogical_injective.list_map (array.inj h))
    | _ => cases hkind
  | integer xs =>
    cases b with
    | integer ys => exact congrArg Atoms.integer (ofInt32_injective.list_map (array.inj h))
    | _ => cases hkind
  | double xs =>
    cases b with
    | double ys =>
      have hshown := map_eq_of_map_eq (fun _ _ ↦ shown_of_ofDouble_eq hw) (array.inj h)
      exact congrArg Atoms.double hshown
    | _ => cases hkind
  | complex xs =>
    cases b with
    | complex ys =>
      have hshown := map_eq_of_map_eq (fun _ _ ↦ shown_of_ofComplex_eq hw) (array.inj h)
      exact congrArg Atoms.complex hshown
    | _ => cases hkind
  | character xs =>
    cases b with
    | character ys =>
      have herase (c d : Chars) (h : ofChars c = ofChars d) : c.erase = d.erase :=
        Chars.beq_iff_erase.mp (ofChars_eq_iff.mp h)
      exact congrArg Atoms.character (map_eq_of_map_eq herase (array.inj h))
    | _ => cases hkind
  | raw xs =>
    cases b with
    | raw ys => exact congrArg Atoms.raw (ofByte_injective.list_map (array.inj h))
    | _ => cases hkind

end Json

end Rds
