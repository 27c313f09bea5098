import Mathlib.Tactic.GCongr
import Mathlib.Tactic.NormNum
import SslAutoref.Model.Report

/-!
# Scores in floating point

The quotients of a report, rounded as the source rounds them. The conversions, the sum and the
quotient are monotone, so a precision or recall never rises with more that is wrong
(`floatQuotient_anti`); with more true positives it never falls as long as the sum is exact
(`floatQuotient_mono`). The product of the F1 score is exact, and the score stays between the two
it is made of (`floatF1_between`), is one only when both are (`floatF1_eq_one_iff`), and is off
by a few parts in `2 ^ 24` (`floatF1_close`).
-/

namespace SslAutoref

open Rounding

/-! ## Floats -/

variable {x y : ℚ}

theorem toFloat_mono (hx : 0 ≤ x) (h : x ≤ y) : toFloat x ≤ toFloat y :=
  nearest_mono (by decide) hx h

theorem toFloat_of_mem (hx : x ∈ binary ℚ 24) : toFloat x = x := nearest_of_mem (by decide) hx

theorem toFloat_mem (hx : 0 ≤ x) : toFloat x ∈ binary ℚ 24 := nearest_mem 24 hx

theorem toFloat_nonneg (hx : 0 ≤ x) : 0 ≤ toFloat x :=
  le_nearest (by decide) le_rfl (zero_mem 24) hx

/-- Whole numbers are exact up to here. -/
theorem toFloat_natCast {n : Nat} (h : n ≤ 2 ^ 24) : toFloat n = n :=
  toFloat_of_mem (natCast_mem h)

theorem one_le_toFloat {n : Nat} (h : 0 < n) : 1 ≤ toFloat n :=
  le_nearest (by decide) zero_le_one (one_mem 24) (Nat.one_le_cast.mpr h)

theorem toFloat_le_two_pow {e : Nat} (hx : 0 ≤ x) (h : x ≤ 2 ^ e) : toFloat x ≤ 2 ^ e := by
  have hmem : (2 : ℚ) ^ e ∈ binary ℚ 24 := by
    rw [← zpow_natCast]
    exact zpow_mem 24 e
  exact nearest_le (by decide) hx hmem h

/-! ## Precision and recall -/

/-- A score lies between zero and one. -/
def IsScore (q : ℚ) : Prop := 0 < q ∧ q ≤ 1

section

variable {right right' wrong wrong' : Nat}

/-- The sum of the two is no less than the first. -/
theorem toFloat_le_sum (right wrong : Nat) :
    toFloat right ≤ toFloat (toFloat right + toFloat wrong) :=
  le_nearest (by decide) (toFloat_nonneg (Nat.cast_nonneg _)) (toFloat_mem (Nat.cast_nonneg _))
    (le_add_of_nonneg_right (toFloat_nonneg (Nat.cast_nonneg _)))

theorem toFloat_sum_pos (h : 0 < right) (wrong : Nat) :
    0 < toFloat (toFloat right + toFloat wrong) :=
  zero_lt_one.trans_le ((one_le_toFloat h).trans (toFloat_le_sum right wrong))

theorem floatQuotient_isScore (h : 0 < right) (wrong : Nat) :
    IsScore (floatQuotient right wrong) := by
  have hright : 0 < toFloat right := zero_lt_one.trans_le (one_le_toFloat h)
  have hsum := toFloat_sum_pos h wrong
  refine ⟨nearest_pos (by decide) (div_pos hright hsum), ?_⟩
  refine nearest_le (by decide) (div_pos hright hsum).le (one_mem 24) ?_
  exact (div_le_one hsum).mpr (toFloat_le_sum right wrong)

theorem floatQuotient_mem (right wrong : Nat) : floatQuotient right wrong ∈ binary ℚ 24 := by
  refine toFloat_mem (div_nonneg (toFloat_nonneg (Nat.cast_nonneg _)) (toFloat_nonneg ?_))
  exact add_nonneg (toFloat_nonneg (Nat.cast_nonneg _)) (toFloat_nonneg (Nat.cast_nonneg _))

/-- Nothing wrong is counted. -/
theorem floatQuotient_zero (h : 0 < right) : floatQuotient right 0 = 1 := by
  have hzero : toFloat (0 : Nat) = 0 := by
    rw [Nat.cast_zero]
    exact toFloat_of_mem (zero_mem 24)
  have hright : 0 < toFloat right := zero_lt_one.trans_le (one_le_toFloat h)
  unfold floatQuotient
  rw [hzero, add_zero, toFloat_of_mem (toFloat_mem (Nat.cast_nonneg _)), div_self hright.ne']
  exact toFloat_of_mem (one_mem 24)

/-- With more that is wrong it does not rise. -/
theorem floatQuotient_anti (h : 0 < right) (hle : wrong' ≤ wrong) :
    floatQuotient right wrong ≤ floatQuotient right wrong' := by
  have hright : 0 < toFloat right := zero_lt_one.trans_le (one_le_toFloat h)
  have hwrong : toFloat wrong' ≤ toFloat wrong :=
    toFloat_mono (Nat.cast_nonneg _) (Nat.cast_le.mpr hle)
  have hsum : toFloat (toFloat right + toFloat wrong') ≤
      toFloat (toFloat right + toFloat wrong) :=
    toFloat_mono (add_nonneg hright.le (toFloat_nonneg (Nat.cast_nonneg _)))
      (add_le_add_right hwrong _)
  refine toFloat_mono (div_pos hright (toFloat_sum_pos h wrong)).le ?_
  exact div_le_div_of_nonneg_left hright.le (toFloat_sum_pos h wrong') hsum

/-- As long as the sum is exact one quotient is rounded, and nothing else. -/
theorem floatQuotient_eq (h : right + wrong ≤ 2 ^ 24) :
    floatQuotient right wrong = toFloat (right / (right + wrong)) := by
  have hsum : toFloat ((right : ℚ) + wrong) = right + wrong := by
    rw [← Nat.cast_add]
    exact toFloat_natCast h
  unfold floatQuotient
  rw [toFloat_natCast (by omega), toFloat_natCast (by omega), hsum]

/-- Of a number and some more the number is a part. -/
theorem part_le_part {a a' b b' : ℚ} (ha : 0 < a) (haa' : a ≤ a') (hb' : 0 ≤ b')
    (hbb' : b' ≤ b) : a / (a + b) ≤ a' / (a' + b') := by
  have hsum : 0 < a + b := by linarith
  have hsum' : 0 < a' + b' := by linarith
  have ha' : 0 < a' := lt_of_lt_of_le ha haa'
  rw [div_le_div_iff₀ hsum hsum']
  have hcross : a * b' ≤ a' * b := mul_le_mul haa' hbb' hb' ha'.le
  linarith [mul_comm a a']

/-- Then it does not fall with more that is right, -/
theorem floatQuotient_mono (h : 0 < right) (hle : right ≤ right')
    (hsmall : right' + wrong ≤ 2 ^ 24) :
    floatQuotient right wrong ≤ floatQuotient right' wrong := by
  have hright : (0 : ℚ) < right := Nat.cast_pos.mpr h
  rw [floatQuotient_eq (by omega), floatQuotient_eq hsmall]
  refine toFloat_mono (by positivity) ?_
  exact part_le_part hright (Nat.cast_le.mpr hle) (Nat.cast_nonneg _) le_rfl

/-- and it is one only when nothing is wrong. -/
theorem floatQuotient_lt_one (hwrong : 0 < wrong) (hsmall : right + wrong ≤ 2 ^ 24) :
    floatQuotient right wrong < 1 := by
  have hpred : (1 - 1 / 2 ^ 24 : ℚ) ∈ binary ℚ 24 :=
    ⟨2 ^ 24 - 1, -24, Nat.sub_le _ _, by norm_num⟩
  have hsum : (0 : ℚ) < right + wrong := by
    have hpos : (0 : ℚ) < wrong := Nat.cast_pos.mpr hwrong
    positivity
  have hle : (right : ℚ) + wrong ≤ 2 ^ 24 := by exact_mod_cast hsmall
  have hone : (1 : ℚ) ≤ wrong := Nat.one_le_cast.mpr hwrong
  have hbelow : (right : ℚ) / (right + wrong) ≤ 1 - 1 / 2 ^ 24 := by
    rw [div_le_iff₀ hsum]
    linarith
  have hrounded := nearest_le (p := 24) (by decide) (by positivity) hpred hbelow
  rw [floatQuotient_eq hsmall]
  refine lt_of_le_of_lt hrounded ?_
  norm_num

/-- No quotient of `int`s is near the least `float`. -/
theorem le_floatQuotient (h : 0 < right) (hright : right < 2 ^ 31) (hwrong : wrong < 2 ^ 31) :
    1 / 2 ^ 32 ≤ floatQuotient right wrong := by
  have hmem : (1 / 2 ^ 32 : ℚ) ∈ binary ℚ 24 := ⟨1, -32, by decide, by norm_num⟩
  have hone := one_le_toFloat h
  have hbound : ∀ {n : Nat}, n < 2 ^ 31 → toFloat n ≤ 2 ^ 31 := by
    intro n hn
    refine toFloat_le_two_pow (Nat.cast_nonneg _) ?_
    exact_mod_cast hn.le
  have hsum : toFloat (toFloat right + toFloat wrong) ≤ 2 ^ 32 := by
    refine toFloat_le_two_pow (add_nonneg (by linarith) (toFloat_nonneg (Nat.cast_nonneg _))) ?_
    linarith [hbound hright, hbound hwrong]
  refine le_nearest (by decide) (by positivity) hmem ?_
  exact div_le_div₀ (by linarith) hone (toFloat_sum_pos h wrong) hsum

end

/-! ## The F1 score -/

section

variable {p r : ℚ}

/-- The product is exact, so the sum and the quotient are rounded, the latter twice. -/
theorem floatF1_eq (hp : p ∈ binary ℚ 24) (hr : r ∈ binary ℚ 24) :
    floatF1 p r = toFloat (toDouble (2 * p * r / toFloat (p + r))) := by
  have hdouble : toDouble (2 * p) = 2 * p :=
    nearest_of_mem (by decide) (binary_mono (by decide) (two_mul_mem hp))
  have hproduct : toDouble (2 * p * r) = 2 * p * r :=
    nearest_of_mem (by decide) (binary_mono (by decide) (mul_mem (two_mul_mem hp) hr))
  unfold floatF1
  rw [hdouble, hproduct]

theorem floatF1_comm (hp : p ∈ binary ℚ 24) (hr : r ∈ binary ℚ 24) :
    floatF1 p r = floatF1 r p := by
  rw [floatF1_eq hp hr, floatF1_eq hr hp, mul_right_comm, add_comm]

/-- What two roundings make of a number between two floats. -/
theorem toFloat_toDouble_between (hp : p ∈ binary ℚ 24) (hr : r ∈ binary ℚ 24) (hpos : 0 ≤ p)
    (hpx : p ≤ x) (hxr : x ≤ r) :
    p ≤ toFloat (toDouble x) ∧ toFloat (toDouble x) ≤ r := by
  have hx : 0 ≤ x := hpos.trans hpx
  have hlow : p ≤ toDouble x :=
    le_nearest (by decide) hpos (binary_mono (by decide) hp) hpx
  have hhigh : toDouble x ≤ r :=
    nearest_le (by decide) hx (binary_mono (by decide) hr) hxr
  exact ⟨le_nearest (by decide) hpos hp hlow,
    nearest_le (by decide) (hpos.trans hlow) hr hhigh⟩

/-- **Between the two.** The rounded sum is between twice the one and twice the other. -/
theorem floatF1_between (hp : p ∈ binary ℚ 24) (hr : r ∈ binary ℚ 24) (hpos : 0 < p)
    (hle : p ≤ r) : p ≤ floatF1 p r ∧ floatF1 p r ≤ r := by
  have hrpos : 0 < r := hpos.trans_le hle
  have hlow : 2 * p ≤ toFloat (p + r) :=
    le_nearest (by decide) (by positivity) (two_mul_mem hp) (by linarith)
  have hhigh : toFloat (p + r) ≤ 2 * r :=
    nearest_le (by decide) (by positivity) (two_mul_mem hr) (by linarith)
  have hsum : 0 < toFloat (p + r) := (mul_pos two_pos hpos).trans_le hlow
  rw [floatF1_eq hp hr]
  refine toFloat_toDouble_between hp hr hpos.le ?_ ?_
  · rw [le_div_iff₀ hsum, mul_right_comm, mul_comm (2 * r)]
    exact mul_le_mul_of_nonneg_left hhigh hpos.le
  · rw [div_le_iff₀ hsum, mul_comm (2 * p)]
    exact mul_le_mul_of_nonneg_left hlow hrpos.le

/-! ## When it is one -/

/-- From one half to one the floats are whole numbers of `1 / 2 ^ 24`. -/
theorem exists_eq_of_half_le (hp : p ∈ binary ℚ 24) (hhalf : 1 / 2 ≤ p) (hlt : p < 1) :
    ∃ n : ℤ, p = n / 2 ^ 24 := by
  have hpos : 0 < p := by linarith
  have hlog : Int.log 2 p = -1 := by
    have hle := (Int.zpow_le_iff_le_log (b := 2) one_lt_two hpos).mp
      (by norm_num; linarith : ((2 : ℕ) : ℚ) ^ (-1 : ℤ) ≤ p)
    have hgt := (Int.lt_zpow_iff_log_lt (b := 2) one_lt_two hpos).mp
      (by simpa using hlt : p < ((2 : ℕ) : ℚ) ^ (0 : ℤ))
    omega
  obtain ⟨n, hn⟩ := exists_scaled_eq (by decide) hp
  have hbit : lastBit 24 p = -24 := by
    unfold lastBit
    rw [hlog]
    rfl
  rw [hbit, div_eq_iff (two_zpow_pos _).ne', zpow_neg, zpow_ofNat, ← div_eq_mul_inv] at hn
  exact ⟨n, hn⟩

/-- The sum of one and less is rounded down so little that the quotient stays below one. -/
theorem two_mul_le_sum (hp : p ∈ binary ℚ 24) (hpos : 0 < p) (hlt : p < 1) :
    2 * p ≤ (1 - 1 / 2 ^ 24) * toFloat (p + 1) := by
  rcases le_or_gt p (1 - 4 / 2 ^ 24) with hfar | hnear
  · have hsum : (1 - 1 / 2 ^ 24) * (p + 1) ≤ toFloat (p + 1) :=
      mul_le_nearest (by decide) (by linarith)
    linarith
  · -- three floats are left, and only for the one next to one does the even neighbour matter
    obtain ⟨n, rfl⟩ := exists_eq_of_half_le hp (by linarith) hlt
    have hn : n = 2 ^ 24 - 1 ∨ n = 2 ^ 24 - 2 ∨ n = 2 ^ 24 - 3 := by
      have hlow : (2 ^ 24 - 4 : ℚ) < n := by linarith
      have hhigh : (n : ℚ) < 2 ^ 24 := by linarith
      have hlow' : (2 ^ 24 - 4 : ℤ) < n := by exact_mod_cast hlow
      have hhigh' : n < (2 ^ 24 : ℤ) := by exact_mod_cast hhigh
      omega
    rcases hn with rfl | rfl | rfl
    · have hsum : toFloat (((2 ^ 24 - 1 : ℤ) : ℚ) / 2 ^ 24 + 1) = 2 := by decide +kernel
      rw [hsum]
      norm_num
    · have hsum : toFloat (((2 ^ 24 - 2 : ℤ) : ℚ) / 2 ^ 24 + 1) = 2 - 2 / 2 ^ 24 := by
        decide +kernel
      rw [hsum]
      norm_num
    · have hsum : toFloat (((2 ^ 24 - 3 : ℤ) : ℚ) / 2 ^ 24 + 1) = 2 - 4 / 2 ^ 24 := by
        decide +kernel
      rw [hsum]
      norm_num

theorem floatF1_one_lt (hp : p ∈ binary ℚ 24) (hpos : 0 < p) (hlt : p < 1) :
    floatF1 p 1 < 1 := by
  have hpred : (1 - 1 / 2 ^ 24 : ℚ) ∈ binary ℚ 24 :=
    ⟨2 ^ 24 - 1, -24, Nat.sub_le _ _, by norm_num⟩
  have hle := two_mul_le_sum hp hpos hlt
  have hsum : 0 < toFloat (p + 1) := nearest_pos (by decide) (by linarith)
  have hquotient : 2 * p * 1 / toFloat (p + 1) ≤ 1 - 1 / 2 ^ 24 := by
    rw [div_le_iff₀ hsum, mul_one]
    exact hle
  have hrounded := (toFloat_toDouble_between (zero_mem 24) hpred le_rfl
    (div_nonneg (by linarith) hsum.le) hquotient).2
  rw [floatF1_eq hp (one_mem 24)]
  refine hrounded.trans_lt ?_
  norm_num

/-- The F1 score is one only when both scores are. -/
theorem floatF1_eq_one_iff (hp : p ∈ binary ℚ 24) (hr : r ∈ binary ℚ 24) (hpscore : IsScore p)
    (hrscore : IsScore r) : floatF1 p r = 1 ↔ p = 1 ∧ r = 1 := by
  have hbelow : ∀ {p r : ℚ}, p ∈ binary ℚ 24 → r ∈ binary ℚ 24 → IsScore p → IsScore r →
      p ≤ r → floatF1 p r = 1 → p = 1 ∧ r = 1 := by
    intro p r hp hr hpscore hrscore hle hone
    have hbetween := floatF1_between hp hr hpscore.1 hle
    have hrone : r = 1 := le_antisymm hrscore.2 (hone ▸ hbetween.2)
    refine ⟨?_, hrone⟩
    by_contra hne
    have hlt := floatF1_one_lt hp hpscore.1 (lt_of_le_of_ne hpscore.2 hne)
    rw [hrone] at hone
    exact hlt.ne hone
  refine ⟨fun hone => ?_, ?_⟩
  · rcases le_total p r with hle | hle
    · exact hbelow hp hr hpscore hrscore hle hone
    · rw [floatF1_comm hp hr] at hone
      exact (hbelow hr hp hrscore hpscore hle hone).symm
  · rintro ⟨rfl, rfl⟩
    have hbetween := floatF1_between hp hr one_pos le_rfl
    exact le_antisymm hbetween.2 hbetween.1

/-! ## How far it is off -/

/-- What the F1 score is a rounding of. -/
def harmonicMean (p r : ℚ) : ℚ := 2 * p * r / (p + r)

theorem harmonicMean_mono {p' r' : ℚ} (hp : 0 < p) (hr : 0 < r) (hpp' : p ≤ p')
    (hrr' : r ≤ r') : harmonicMean p r ≤ harmonicMean p' r' := by
  have hp' : 0 < p' := hp.trans_le hpp'
  have hr' : 0 < r' := hr.trans_le hrr'
  unfold harmonicMean
  rw [div_le_div_iff₀ (by positivity) (by positivity)]
  have hfirst : p * p' * r ≤ p * p' * r' := by gcongr
  have hsecond : r * r' * p ≤ r * r' * p' := by gcongr
  linarith

theorem harmonicMean_mul {c : ℚ} (hc : c ≠ 0) (p r : ℚ) :
    harmonicMean (c * p) (c * r) = c * harmonicMean p r := by
  have hproduct : 2 * (c * p) * (c * r) = c * (c * (2 * p * r)) := by ring
  unfold harmonicMean
  rw [hproduct, ← mul_add, mul_div_mul_left _ _ hc, mul_div_assoc]

/-- Three roundings of the mean of two floats. -/
theorem floatF1_close (hp : p ∈ binary ℚ 24) (hr : r ∈ binary ℚ 24) (hppos : 0 < p)
    (hrpos : 0 < r) :
    (1 - 5 / 2 ^ 25) * harmonicMean p r ≤ floatF1 p r ∧
      floatF1 p r ≤ (1 + 5 / 2 ^ 25) * harmonicMean p r := by
  have hsum : 0 < p + r := add_pos hppos hrpos
  have hlow : (1 - 1 / 2 ^ 24) * (p + r) ≤ toFloat (p + r) :=
    mul_le_nearest (by decide) hsum.le
  have hhigh : toFloat (p + r) ≤ (1 + 1 / 2 ^ 24) * (p + r) :=
    nearest_le_mul (by decide) hsum.le
  have hpos : 0 < toFloat (p + r) := nearest_pos (by decide) hsum
  have hmean : harmonicMean p r * (p + r) = 2 * p * r := div_mul_cancel₀ _ hsum.ne'
  have hmeanpos : 0 < harmonicMean p r := div_pos (by positivity) hsum
  generalize hquotient : 2 * p * r / toFloat (p + r) = v
  have hv : v * toFloat (p + r) = 2 * p * r := by
    rw [← hquotient]
    exact div_mul_cancel₀ _ hpos.ne'
  have hvpos : 0 < v := by
    rw [← hquotient]
    positivity
  -- what the rounded sum makes of the mean
  have hvhigh : v * (1 - 1 / 2 ^ 24) ≤ harmonicMean p r := by
    refine le_of_mul_le_mul_right ?_ hsum
    rw [hmean, ← hv, mul_assoc]
    exact mul_le_mul_of_nonneg_left hlow hvpos.le
  have hvlow : harmonicMean p r ≤ v * (1 + 1 / 2 ^ 24) := by
    refine le_of_mul_le_mul_right ?_ hsum
    rw [hmean, ← hv, mul_assoc]
    exact mul_le_mul_of_nonneg_left hhigh hvpos.le
  have hdouble : 0 < toDouble v := nearest_pos (by decide) hvpos
  have hdlow : (1 - 1 / 2 ^ 53) * v ≤ toDouble v := mul_le_nearest (by decide) hvpos.le
  have hdhigh : toDouble v ≤ (1 + 1 / 2 ^ 53) * v := nearest_le_mul (by decide) hvpos.le
  have hflow : (1 - 1 / 2 ^ 24) * toDouble v ≤ toFloat (toDouble v) :=
    mul_le_nearest (by decide) hdouble.le
  have hfhigh : toFloat (toDouble v) ≤ (1 + 1 / 2 ^ 24) * toDouble v :=
    nearest_le_mul (by decide) hdouble.le
  rw [floatF1_eq hp hr, hquotient]
  exact ⟨by linarith, by linarith⟩

end

end SslAutoref
