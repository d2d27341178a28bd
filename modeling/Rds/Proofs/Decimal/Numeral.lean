import Mathlib.Algebra.Order.Field.Power
import Mathlib.Algebra.Order.Field.Rat
import Mathlib.Data.List.TakeWhile
import Mathlib.Tactic.Ring
import Rds.Decimal.Layout

namespace Rds.Decimal

def value (d : Decimal) : ℚ := d.digits * 10 ^ d.exponent

/-- What digits say that may have a point between them. -/
def pointed (cs : List Char) : ℚ :=
  let whole := cs.takeWhile (· != '.')
  let fraction := (cs.dropWhile (· != '.')).drop 1
  Nat.ofDigitChars 10 (whole ++ fraction) 0 * 10 ^ (-(fraction.length : ℤ))

def signed : List Char → ℤ
  | '-' :: ds => -Nat.ofDigitChars 10 ds 0
  | _ :: ds => Nat.ofDigitChars 10 ds 0
  | [] => 0

/-- The number that a text stands for. The letter `e` stands in front of the exponent. -/
def numeral (cs : List Char) : ℚ :=
  pointed (cs.takeWhile (· != 'e')) * 10 ^ signed ((cs.dropWhile (· != 'e')).drop 1)

section Text

variable {cs whole fraction front back : List Char}

theorem bne_of_notMem {c : Char} (h : c ∉ cs) : ∀ d ∈ cs, (d != c) = true := by
  intro d hd
  exact bne_iff_ne.mpr fun he ↦ h (he ▸ hd)

theorem pointed_append (h : '.' ∉ whole) :
    pointed (whole ++ '.' :: fraction) =
      Nat.ofDigitChars 10 (whole ++ fraction) 0 * 10 ^ (-(fraction.length : ℤ)) := by
  simp [pointed, List.takeWhile_append_of_pos (bne_of_notMem h),
    List.dropWhile_append_of_pos (bne_of_notMem h)]

theorem pointed_of_notMem (h : '.' ∉ cs) : pointed cs = Nat.ofDigitChars 10 cs 0 := by
  have htake := List.takeWhile_eq_self_iff.mpr (bne_of_notMem h)
  have hdrop := List.dropWhile_eq_nil_iff.mpr (bne_of_notMem h)
  simp [pointed, htake, hdrop]

theorem numeral_append (h : 'e' ∉ front) :
    numeral (front ++ 'e' :: back) = pointed front * 10 ^ signed back := by
  simp [numeral, List.takeWhile_append_of_pos (bne_of_notMem h),
    List.dropWhile_append_of_pos (bne_of_notMem h)]

theorem numeral_of_notMem (h : 'e' ∉ cs) : numeral cs = pointed cs := by
  have htake := List.takeWhile_eq_self_iff.mpr (bne_of_notMem h)
  have hdrop := List.dropWhile_eq_nil_iff.mpr (bne_of_notMem h)
  simp [numeral, htake, hdrop, signed]

end Text

section Digits

variable {ds : List Char}

def Digits (ds : List Char) : Prop := ∀ c ∈ ds, c.isDigit = true

theorem digits_toDigits (n : Nat) : Digits (Nat.toDigits 10 n) :=
  fun _ h ↦ Nat.isDigit_of_mem_toDigits (by decide) (by decide) h

theorem Digits.append {es : List Char} (h : Digits ds) (h' : Digits es) : Digits (ds ++ es) := by
  intro c hc
  rcases List.mem_append.mp hc with hc | hc
  · exact h c hc
  · exact h' c hc

theorem digits_zeros (n : Nat) : Digits (Layout.zeros n) := by
  intro c hc
  rw [List.eq_of_mem_replicate hc]
  rfl

theorem Digits.notMem (h : Digits ds) {c : Char} (hc : c.isDigit = false) : c ∉ ds := by
  intro hmem
  rw [h c hmem] at hc
  cases hc

theorem ofDigitChars_zeros (n : Nat) (init : Nat) :
    Nat.ofDigitChars 10 (Layout.zeros n) init = 10 ^ n * init := Nat.ofDigitChars_replicate_zero

theorem exists_dropTrailingZeros (ds : List Char) :
    ∃ n, ds = Layout.dropTrailingZeros ds ++ Layout.zeros n := by
  have hzero : ∀ c ∈ ds.reverse.takeWhile (fun c ↦ c == '0'), c = '0' := by
    intro c hc
    simpa using List.mem_takeWhile_imp hc
  refine ⟨(ds.reverse.takeWhile fun c ↦ c == '0').length, ?_⟩
  calc ds = (ds.reverse.takeWhile (fun c ↦ c == '0') ++
          ds.reverse.dropWhile (fun c ↦ c == '0')).reverse := by
        rw [List.takeWhile_append_dropWhile, List.reverse_reverse]
    _ = Layout.dropTrailingZeros ds ++ (ds.reverse.takeWhile (fun c ↦ c == '0')).reverse := by
        rw [List.reverse_append, Layout.dropTrailingZeros]
    _ = _ := by
        rw [List.eq_replicate_of_mem hzero, List.reverse_replicate, List.length_replicate]
        rfl

theorem digits_dropTrailingZeros (h : Digits ds) : Digits (Layout.dropTrailingZeros ds) := by
  obtain ⟨n, hn⟩ := exists_dropTrailingZeros ds
  intro c hc
  apply h
  rw [hn]
  exact List.mem_append_left _ hc

theorem ofDigitChars_toDigits (n : Nat) : Nat.ofDigitChars 10 (Nat.toDigits 10 n) 0 = n :=
  Nat.ofDigitChars_toDigits (by decide) (by decide)

theorem dropTrailingZeros_ne_nil {n : Nat} (h : n ≠ 0) :
    Layout.dropTrailingZeros (Nat.toDigits 10 n) ≠ [] := by
  intro hnil
  obtain ⟨k, hk⟩ := exists_dropTrailingZeros (Nat.toDigits 10 n)
  have hn := ofDigitChars_toDigits n
  rw [hk, hnil, List.nil_append, ofDigitChars_zeros, Nat.mul_zero] at hn
  exact h hn.symm

end Digits

namespace Layout

variable (l : Layout) {ds whole fraction : List Char} {e : Int}

/-- What digits stand for if the first one has the exponent `e`. -/
def leading (ds : List Char) (e : Int) : ℚ :=
  Nat.ofDigitChars 10 ds 0 * 10 ^ (e - (ds.length - 1 : Nat))

theorem numeral_digits (h : Digits ds) : numeral ds = Nat.ofDigitChars 10 ds 0 := by
  rw [numeral_of_notMem (h.notMem rfl), pointed_of_notMem (h.notMem rfl)]

theorem notMem_point (hw : Digits whole) (hf : Digits fraction) :
    'e' ∉ whole ++ '.' :: fraction := by
  rw [List.mem_append, List.mem_cons]
  rintro (h | h | h)
  · exact hw.notMem rfl h
  · cases h
  · exact hf.notMem rfl h

theorem numeral_point (hw : Digits whole) (hf : Digits fraction) :
    numeral (whole ++ '.' :: fraction) =
      Nat.ofDigitChars 10 (whole ++ fraction) 0 * 10 ^ (-(fraction.length : ℤ)) := by
  rw [numeral_of_notMem (notMem_point hw hf), pointed_append (hw.notMem rfl)]

theorem numeral_writePlain (hds : Digits ds) (hne : ds ≠ []) :
    numeral (l.writePlain ds e) = leading ds e := by
  have hpos : 0 < ds.length := List.length_pos_iff.mpr hne
  cases e with
  | negSucc n =>
    have hexponent : Int.negSucc n - (ds.length - 1 : Nat) = -((zeros n ++ ds).length : ℤ) := by
      rw [List.length_append, zeros, List.length_replicate]
      omega
    have hzero : Digits ['0'] := digits_zeros 1
    have h := numeral_point hzero ((digits_zeros n).append hds)
    rw [writePlain, leading, hexponent]
    refine h.trans ?_
    simp [Nat.ofDigitChars_append, ofDigitChars_zeros, Nat.ofDigitChars_cons]
  | ofNat n =>
    rw [writePlain]
    split
    · next hlen =>
      have hexponent : (Int.ofNat n) - (ds.length - 1 : Nat) = (n + 1 - ds.length : Nat) := by
        have : Int.ofNat n = n := rfl
        omega
      have hwhole := hds.append (digits_zeros (n + 1 - ds.length))
      rw [leading, hexponent, zpow_natCast]
      cases l.pointZero with
      | false =>
        simp only [Bool.false_eq_true, if_false, List.append_nil]
        rw [numeral_digits hwhole, Nat.ofDigitChars_append, ofDigitChars_zeros]
        push_cast
        ring
      | true =>
        have hzero : Digits ['0'] := digits_zeros 1
        simp only [if_true]
        rw [numeral_point hwhole hzero, Nat.ofDigitChars_append, Nat.ofDigitChars_append,
          ofDigitChars_zeros]
        simp [Nat.ofDigitChars_cons]
        ring
    · next hlen =>
      have hexponent : (Int.ofNat n) - (ds.length - 1 : Nat) = -((ds.drop (n + 1)).length : ℤ) := by
        have : Int.ofNat n = n := rfl
        rw [List.length_drop]
        omega
      have htake : Digits (ds.take (n + 1)) := fun c hc ↦ hds c (List.mem_of_mem_take hc)
      have hdrop : Digits (ds.drop (n + 1)) := fun c hc ↦ hds c (List.mem_of_mem_drop hc)
      rw [numeral_point htake hdrop, List.take_append_drop, leading, hexponent]

theorem signed_exponent (e : Int) :
    signed ((if e < 0 then '-' else '+') :: Nat.toDigits 10 e.natAbs) = e := by
  have hdigits := ofDigitChars_toDigits e.natAbs
  by_cases he : e < 0
  · rw [if_pos he, signed, hdigits]
    omega
  · rw [if_neg he]
    change (Nat.ofDigitChars 10 (Nat.toDigits 10 e.natAbs) 0 : ℤ) = e
    rw [hdigits]
    omega

theorem numeral_writeScientific (hds : Digits ds) (hne : ds ≠ []) :
    numeral (writeScientific ds e) = leading ds e := by
  have hpos : 0 < ds.length := List.length_pos_iff.mpr hne
  have htake : Digits (ds.take 1) := fun c hc ↦ hds c (List.mem_of_mem_take hc)
  have hdrop : Digits (ds.drop 1) := fun c hc ↦ hds c (List.mem_of_mem_drop hc)
  have hleading : leading ds 0 * 10 ^ e = leading ds e := by
    rw [leading, leading, mul_assoc, ← zpow_add₀ (by norm_num)]
    congr 2
    omega
  rw [writeScientific, ← hleading]
  by_cases hlen : ds.length ≤ 1
  · rw [if_pos hlen, List.append_nil, numeral_append (htake.notMem rfl), signed_exponent,
      pointed_of_notMem (htake.notMem rfl), List.take_of_length_le hlen, leading]
    have hone : ds.length - 1 = 0 := by omega
    simp [hone]
  · rw [if_neg hlen, numeral_append (notMem_point htake hdrop), signed_exponent,
      pointed_append (htake.notMem rfl), List.take_append_drop, leading, List.length_drop, zero_sub]

theorem leading_append_zeros (hne : ds ≠ []) (n : Nat) (e : Int) :
    leading (ds ++ zeros n) e = leading ds e := by
  have hpos : 0 < ds.length := List.length_pos_iff.mpr hne
  have hexponent : e - (ds.length - 1 : Nat) = n + (e - ((ds ++ zeros n).length - 1 : Nat)) := by
    rw [List.length_append, zeros, List.length_replicate]
    omega
  rw [leading, leading, hexponent, zpow_add₀ (by norm_num), zpow_natCast, Nat.ofDigitChars_append,
    ofDigitChars_zeros]
  push_cast
  ring

theorem leading_toDigits (d : Decimal) :
    leading (Nat.toDigits 10 d.digits)
      (d.exponent + ((Nat.toDigits 10 d.digits).length - 1 : Nat)) = d.value := by
  rw [leading, value, ofDigitChars_toDigits, add_sub_cancel_right]

/-- A decimal is written such that it can be read back. -/
theorem numeral_write {d : Decimal} (hd : d.digits ≠ 0) : numeral (l.write d) = d.value := by
  have hdigits := digits_dropTrailingZeros (digits_toDigits d.digits)
  have hne := dropTrailingZeros_ne_nil hd
  obtain ⟨n, hn⟩ := exists_dropTrailingZeros (Nat.toDigits 10 d.digits)
  rw [write, ← leading_toDigits]
  conv_rhs => rw [hn, leading_append_zeros hne, ← hn]
  split
  · exact numeral_writePlain l hdigits hne
  · exact numeral_writeScientific hdigits hne

end Layout

end Rds.Decimal
