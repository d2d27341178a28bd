import Rds.Proofs.Decimal.Rounding
import Rds.Proofs.Double

namespace Rds.Decimal

namespace Rounding

variable {r r' : Rounding} {v : ℚ}

theorem Covers.bounds (h : r.Covers v) :
    (r.low * 2 ^ r.quarter ≤ v ∧ v ≤ r.high * 2 ^ r.quarter) ∧
      (r.significand % 2 = 1 → r.low * 2 ^ r.quarter < v ∧ v < r.high * 2 ^ r.quarter) := by
  unfold Covers at h
  split at h
  · next heven => exact ⟨h, fun hodd ↦ by omega⟩
  · exact ⟨⟨h.1.le, h.2.le⟩, fun _ ↦ h⟩

theorem four_mul_sub_two_le_low (r : Rounding) : 4 * r.significand - 2 ≤ r.low := by
  unfold low
  split <;> omega

theorem Covers.pos (h : r.Covers v) (hr : 0 < r.significand) : 0 < v := by
  have hlow : 0 < r.low := by
    have := r.four_mul_sub_two_le_low
    omega
  have hlow' : (0 : ℚ) < r.low := Nat.cast_pos.mpr hlow
  exact lt_of_lt_of_le (by positivity) h.bounds.1.1

/-- Intervals that overlap, in quarters of the finer scale. Of the ends they share at most those
that belong to both. -/
theorem Covers.overlap {d : Nat} (hd : r'.scale = r.scale + d) (h : r.Covers v)
    (h' : r'.Covers v) :
    (r'.low * 2 ^ d ≤ r.high ∧ r.low ≤ r'.high * 2 ^ d) ∧
      (r.significand % 2 = 1 ∨ r'.significand % 2 = 1 →
        r'.low * 2 ^ d < r.high ∧ r.low < r'.high * 2 ^ d) := by
  have hpos : (0 : ℚ) < 2 ^ r.quarter := by positivity
  have hscale : (2 : ℚ) ^ r'.quarter = 2 ^ d * 2 ^ r.quarter := by
    rw [← zpow_natCast, ← zpow_add₀ (by norm_num), quarter, quarter, hd]
    congr 1
    omega
  have hcast (a : Nat) : (a : ℚ) * 2 ^ r'.quarter = (a * 2 ^ d : Nat) * 2 ^ r.quarter := by
    rw [hscale]
    push_cast
    ring
  have hle {a b : Nat} (h : (a : ℚ) * 2 ^ r.quarter ≤ b * 2 ^ r.quarter) : a ≤ b :=
    Nat.cast_le.mp (le_of_mul_le_mul_right h hpos)
  have hlt {a b : Nat} (h : (a : ℚ) * 2 ^ r.quarter < b * 2 ^ r.quarter) : a < b :=
    Nat.cast_lt.mp (lt_of_mul_lt_mul_right h hpos.le)
  obtain ⟨⟨hlow, hhigh⟩, hodd⟩ := h.bounds
  obtain ⟨⟨hlow', hhigh'⟩, hodd'⟩ := h'.bounds
  simp only [hcast] at hlow' hhigh' hodd'
  refine ⟨⟨hle (hlow'.trans hhigh), hle (hlow.trans hhigh')⟩, ?_⟩
  rintro (h | h)
  · exact ⟨hlt (hlow'.trans_lt (hodd h).2), hlt ((hodd h).1.trans_le hhigh')⟩
  · exact ⟨hlt ((hodd' h).1.trans_le hhigh), hlt (hlow.trans_lt (hodd' h).2)⟩

theorem eq_of_covers_of_le {x y : Double} (hle : x.scale ≤ y.scale) (h : (ofDouble x).Covers v)
    (h' : (ofDouble y).Covers v) : x.significand = y.significand ∧ x.scale = y.scale := by
  obtain ⟨d, hd⟩ := Int.le.dest hle
  have hscale : (ofDouble y).scale = (ofDouble x).scale + d := hd.symm
  obtain ⟨⟨hhigh, hlow⟩, hodd⟩ := h.overlap hscale h'
  change x.significand % 2 = 1 ∨ y.significand % 2 = 1 → _ at hodd
  have hlowx : 4 * x.significand - 2 ≤ (ofDouble x).low := (ofDouble x).four_mul_sub_two_le_low
  have hlowy : 4 * y.significand - 2 ≤ (ofDouble y).low := (ofDouble y).four_mul_sub_two_le_low
  have hhighx : (ofDouble x).high = 4 * x.significand + 2 := rfl
  have hhighy : (ofDouble y).high = 4 * y.significand + 2 := rfl
  cases d with
  | zero =>
    -- Neighbours have one end in common, and it belongs to neither interval: one of them is odd.
    simp only [pow_zero, mul_one] at hhigh hlow hodd
    omega
  | succ d =>
    exfalso
    have hx53 := x.significand_lt
    have hxscale := x.le_scale
    obtain ⟨hexponent, hsignificand⟩ := Double.of_lt_scale (x := y) (by omega)
    have htwo : (ofDouble y).low * 2 ≤ (ofDouble y).low * 2 ^ (d + 1) := by
      refine Nat.mul_le_mul_left _ ?_
      rw [pow_succ]
      exact Nat.le_mul_of_pos_left 2 (Nat.pow_pos (by decide))
    have hlowy : (ofDouble y).low = 4 * y.significand - if y.fractionField = 0 then 1 else 2 := by
      simp [low, ofDouble, hexponent]
    split at hlowy <;> omega

/-- Different doubles have no number in common that rounds to both of them. -/
theorem eq_of_covers {x y : Double} (h : (ofDouble x).Covers v) (h' : (ofDouble y).Covers v) :
    x.significand = y.significand ∧ x.scale = y.scale := by
  rcases Int.le_total x.scale y.scale with hle | hle
  · exact eq_of_covers_of_le hle h h'
  · exact (eq_of_covers_of_le hle h' h).imp Eq.symm Eq.symm

end Rounding

namespace Layout

variable (l : Layout) {x y : Double}

theorem numeral_magnitude_of_eq_zero (h : x.significand = 0) : numeral (l.magnitude x) = 0 := by
  have hzero : Digits ['0'] := digits_zeros 1
  rw [magnitude, if_pos h, numeral_writePlain l hzero (by decide)]
  simp [leading, Nat.ofDigitChars_cons]

theorem covers_shortest_ofDouble (tie : Tie) (h : x.significand ≠ 0) :
    (Rounding.ofDouble x).Covers ((Rounding.ofDouble x).shortest tie).value :=
  Rounding.covers_shortest (Nat.pos_of_ne_zero h) tie

theorem digits_shortest_ne_zero (tie : Tie) (h : x.significand ≠ 0) :
    ((Rounding.ofDouble x).shortest tie).digits ≠ 0 := by
  intro hzero
  have hpos := (covers_shortest_ofDouble tie h).pos (Nat.pos_of_ne_zero h)
  rw [value, hzero, Nat.cast_zero, zero_mul] at hpos
  exact hpos.false

theorem covers_numeral_magnitude (h : x.significand ≠ 0) :
    (Rounding.ofDouble x).Covers (numeral (l.magnitude x)) := by
  rw [magnitude, if_neg h, numeral_write l (digits_shortest_ne_zero l.tie h)]
  exact covers_shortest_ofDouble l.tie h

theorem eq_of_magnitude_eq (h : l.magnitude x = l.magnitude y) :
    x.significand = y.significand ∧ x.scale = y.scale := by
  by_cases hx : x.significand = 0
  · by_cases hy : y.significand = 0
    · rw [Double.scale_of_significand_eq_zero hx, Double.scale_of_significand_eq_zero hy]
      exact ⟨hx.trans hy.symm, rfl⟩
    · have hpos := (covers_numeral_magnitude l hy).pos (Nat.pos_of_ne_zero hy)
      rw [← h, numeral_magnitude_of_eq_zero l hx] at hpos
      exact absurd hpos (lt_irrefl 0)
  · have hcovers := covers_numeral_magnitude l hx
    by_cases hy : y.significand = 0
    · have hpos := hcovers.pos (Nat.pos_of_ne_zero hx)
      rw [h, numeral_magnitude_of_eq_zero l hy] at hpos
      exact absurd hpos (lt_irrefl 0)
    · rw [h] at hcovers
      exact Rounding.eq_of_covers hcovers (covers_numeral_magnitude l hy)

section Sign

variable {ds : List Char} {e : Int}

theorem exists_writePlain (hds : Digits ds) (hne : ds ≠ []) :
    ∃ c cs, l.writePlain ds e = c :: cs ∧ c.isDigit = true := by
  obtain ⟨c, cs, rfl⟩ := List.exists_cons_of_ne_nil hne
  have hc := hds c List.mem_cons_self
  cases e with
  | negSucc n => exact ⟨'0', _, rfl, rfl⟩
  | ofNat n =>
    rw [writePlain]
    split
    · exact ⟨c, _, rfl, hc⟩
    · exact ⟨c, _, rfl, hc⟩

theorem exists_writeScientific (hds : Digits ds) (hne : ds ≠ []) :
    ∃ c cs, writeScientific ds e = c :: cs ∧ c.isDigit = true := by
  obtain ⟨c, cs, rfl⟩ := List.exists_cons_of_ne_nil hne
  exact ⟨c, _, rfl, hds c List.mem_cons_self⟩

theorem exists_write {d : Decimal} (hd : d.digits ≠ 0) :
    ∃ c cs, l.write d = c :: cs ∧ c.isDigit = true := by
  have hdigits := digits_dropTrailingZeros (digits_toDigits d.digits)
  have hne := dropTrailingZeros_ne_nil hd
  rw [write]
  split
  · exact exists_writePlain l hdigits hne
  · exact exists_writeScientific hdigits hne

theorem exists_magnitude (x : Double) : ∃ c cs, l.magnitude x = c :: cs ∧ c.isDigit = true := by
  unfold magnitude
  split
  · exact exists_writePlain l (digits_zeros 1) (by decide)
  · next h => exact exists_write l (digits_shortest_ne_zero l.tie h)

end Sign

/-- No two doubles are written alike. -/
theorem text_injective : Function.Injective l.text := by
  intro x y h
  obtain ⟨c, cs, hx, hc⟩ := l.exists_magnitude x
  obtain ⟨d, ds, hy, hd⟩ := l.exists_magnitude y
  have hlist := String.ofList_injective h
  have hboth : x.isNegative = y.isNegative ∧ l.magnitude x = l.magnitude y := by
    cases hxs : x.isNegative <;> cases hys : y.isNegative <;> simp [hxs, hys] at hlist
    · exact ⟨rfl, hlist⟩
    · rw [hx] at hlist
      obtain ⟨rfl, -⟩ := List.cons.inj hlist
      cases hc
    · rw [hy] at hlist
      obtain ⟨rfl, -⟩ := List.cons.inj hlist
      cases hd
    · exact ⟨rfl, hlist⟩
  obtain ⟨hsignificand, hscale⟩ := eq_of_magnitude_eq l hboth.2
  exact Double.eq_of_significand hboth.1 hsignificand hscale

end Layout

end Rds.Decimal
