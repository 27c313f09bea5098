import Mathlib.Algebra.Order.Round
import Mathlib.Data.Int.Log
import Mathlib.Tactic.Linarith
import Mathlib.Tactic.Positivity
import Mathlib.Tactic.Ring

/-!
# Rounding to a binary format

The numbers of a binary format with a significand of `p` bits, and rounding to the nearest of
them, to the even one of two. Only numbers from zero on are considered, and exponents have no
bound. Rounding is monotone (`nearest_mono`), leaves the numbers of the format alone
(`nearest_of_mem`), and is off by at most one part in `2 ^ p` (`abs_nearest_sub_le`).
-/

namespace Rounding

/-! ## The format -/

/-- The numbers with a significand of `p` bits. -/
def binary (K : Type*) [Field K] (p : ℕ) : Set K :=
  {x | ∃ m : ℕ, ∃ e : ℤ, m ≤ 2 ^ p ∧ x = m * 2 ^ e}

section

variable {K : Type*} [Field K] {p q : ℕ} {x y : K}

theorem binary_mono (h : p ≤ q) : binary K p ⊆ binary K q := by
  rintro x ⟨m, e, hm, rfl⟩
  exact ⟨m, e, hm.trans (Nat.pow_le_pow_right (by decide) h), rfl⟩

theorem natCast_mem {n : ℕ} (h : n ≤ 2 ^ p) : (n : K) ∈ binary K p :=
  ⟨n, 0, h, by rw [zpow_zero, mul_one]⟩

theorem zpow_mem (p : ℕ) (e : ℤ) : (2 : K) ^ e ∈ binary K p :=
  ⟨1, e, Nat.one_le_two_pow, by rw [Nat.cast_one, one_mul]⟩

theorem zero_mem (p : ℕ) : (0 : K) ∈ binary K p := ⟨0, 0, Nat.zero_le _, by simp⟩

theorem one_mem (p : ℕ) : (1 : K) ∈ binary K p := ⟨1, 0, Nat.one_le_two_pow, by simp⟩

variable [NeZero (2 : K)]

/-- Products need the bits of both. -/
theorem mul_mem (hx : x ∈ binary K p) (hy : y ∈ binary K q) : x * y ∈ binary K (p + q) := by
  obtain ⟨m, e, hm, rfl⟩ := hx
  obtain ⟨n, f, hn, rfl⟩ := hy
  refine ⟨m * n, e + f, ?_, ?_⟩
  · rw [pow_add]
    exact Nat.mul_le_mul hm hn
  · rw [zpow_add₀ two_ne_zero]
    push_cast
    ring

theorem two_mul_mem (hx : x ∈ binary K p) : 2 * x ∈ binary K p := by
  obtain ⟨m, e, hm, rfl⟩ := hx
  refine ⟨m, e + 1, hm, ?_⟩
  rw [zpow_add_one₀ two_ne_zero]
  ring

end

/-! ## Whole numbers -/

variable {K : Type*} [Field K] [LinearOrder K] [IsStrictOrderedRing K] [FloorRing K]

/-- The nearest whole number, and the even one of two. -/
def roundEven (x : K) : ℤ :=
  if Int.fract x < 1 / 2 then ⌊x⌋
  else if 1 / 2 < Int.fract x then ⌊x⌋ + 1
  else if Even ⌊x⌋ then ⌊x⌋
  else ⌊x⌋ + 1

theorem roundEven_intCast (n : ℤ) : roundEven (n : K) = n := by
  unfold roundEven
  rw [Int.fract_intCast, Int.floor_intCast, if_pos (by norm_num)]

omit [IsStrictOrderedRing K] in
theorem floor_le_roundEven (x : K) : ⌊x⌋ ≤ roundEven x := by
  unfold roundEven
  split_ifs <;> omega

omit [IsStrictOrderedRing K] in
theorem roundEven_le_floor_add_one (x : K) : roundEven x ≤ ⌊x⌋ + 1 := by
  unfold roundEven
  split_ifs <;> omega

theorem roundEven_mono {x y : K} (h : x ≤ y) : roundEven x ≤ roundEven y := by
  rcases (Int.floor_mono h).lt_or_eq with hlt | heq
  · exact (roundEven_le_floor_add_one x).trans (hlt.trans_le (floor_le_roundEven y))
  · -- the same whole part, so the fractions are in order
    have hfract : Int.fract x ≤ Int.fract y := by
      unfold Int.fract
      rw [heq]
      exact sub_le_sub_right h _
    unfold roundEven
    rw [heq]
    split_ifs <;> first | omega | linarith

theorem abs_roundEven_sub_le (x : K) : |(roundEven x : K) - x| ≤ 1 / 2 := by
  have hsplit := Int.floor_add_fract x
  have hnonneg := Int.fract_nonneg x
  have hlt := Int.fract_lt_one x
  unfold roundEven
  rw [abs_le]
  split_ifs <;> push_cast <;> constructor <;> linarith

/-! ## The nearest number -/

variable {p : ℕ} {x y : K}

/-- The exponent of the last bit of a number. -/
def lastBit (p : ℕ) (x : K) : ℤ := Int.log 2 x + 1 - p

/-- The nearest number of the format, and the even one of two. -/
def nearest (p : ℕ) (x : K) : K := roundEven (x / 2 ^ lastBit p x) * 2 ^ lastBit p x

theorem two_zpow_pos (e : ℤ) : (0 : K) < 2 ^ e := zpow_pos two_pos e

/-- In units of the last bit a number has `p` bits. -/
theorem scaled_lt (p : ℕ) (x : K) : x / 2 ^ lastBit p x < 2 ^ p := by
  have hlog := Int.lt_zpow_succ_log_self (b := 2) one_lt_two x
  rw [div_lt_iff₀ (two_zpow_pos _), ← zpow_natCast, ← zpow_add₀ two_ne_zero]
  have hexp : (p : ℤ) + lastBit p x = Int.log 2 x + 1 := by
    unfold lastBit
    omega
  rw [hexp]
  exact_mod_cast hlog

/-- And the first is set. -/
theorem le_scaled (hp : 0 < p) (hx : 0 < x) : 2 ^ (p - 1) ≤ x / 2 ^ lastBit p x := by
  have hlog := Int.zpow_log_le_self (b := 2) one_lt_two hx
  rw [le_div_iff₀ (two_zpow_pos _), ← zpow_natCast, ← zpow_add₀ two_ne_zero]
  have hexp : ((p - 1 : ℕ) : ℤ) + lastBit p x = Int.log 2 x := by
    unfold lastBit
    omega
  rw [hexp]
  exact_mod_cast hlog

/-- So rounded it has no more. -/
theorem roundEven_scaled_le (p : ℕ) (x : K) : roundEven (x / 2 ^ lastBit p x) ≤ 2 ^ p := by
  have hle := roundEven_mono (scaled_lt p x).le
  have hcast : ((2 : K) ^ p) = ((2 ^ p : ℤ) : K) := by push_cast; rfl
  rwa [hcast, roundEven_intCast] at hle

theorem roundEven_scaled_nonneg (p : ℕ) (hx : 0 ≤ x) :
    0 ≤ roundEven (x / 2 ^ lastBit p x) := by
  have hle := roundEven_mono (div_nonneg hx (two_zpow_pos (lastBit p x)).le)
  have hzero : roundEven (0 : K) = 0 := by
    have h := @roundEven_intCast K _ _ _ _ 0
    rwa [Int.cast_zero] at h
  rwa [hzero] at hle

theorem nearest_mem (p : ℕ) (hx : 0 ≤ x) : nearest p x ∈ binary K p := by
  have hnonneg := roundEven_scaled_nonneg p hx
  have hle := roundEven_scaled_le p x
  refine ⟨(roundEven (x / 2 ^ lastBit p x)).toNat, lastBit p x, ?_, ?_⟩
  · have hcast : ((2 ^ p : ℕ) : ℤ) = 2 ^ p := by push_cast; rfl
    omega
  · have hcast : (((roundEven (x / 2 ^ lastBit p x)).toNat : ℤ) : K) =
        roundEven (x / 2 ^ lastBit p x) := by rw [Int.toNat_of_nonneg hnonneg]
    rw [Int.cast_natCast] at hcast
    rw [hcast]
    rfl

/-- A number of the format is a whole number of its last bit. -/
theorem exists_scaled_eq (hp : 0 < p) (hx : x ∈ binary K p) :
    ∃ n : ℤ, x / 2 ^ lastBit p x = n := by
  obtain ⟨m, e, hm, rfl⟩ := hx
  rcases Nat.eq_zero_or_pos m with rfl | hpos
  · exact ⟨0, by simp⟩
  have hm' : (0 : K) < m := Nat.cast_pos.mpr hpos
  generalize hlast : lastBit p ((m : K) * 2 ^ e) = l
  rcases le_or_gt l e with hle | hlt
  · refine ⟨m * 2 ^ (e - l).toNat, ?_⟩
    have hexp : (2 : K) ^ e = 2 ^ (e - l).toNat * 2 ^ l := by
      rw [← zpow_natCast, ← zpow_add₀ two_ne_zero]
      congr 1
      omega
    rw [hexp, ← mul_assoc, mul_div_cancel_right₀ _ (two_zpow_pos l).ne']
    push_cast
    rfl
  · -- only a power of two has its last bit above the one it is written with
    have hscaled := le_scaled hp (mul_pos hm' (two_zpow_pos e))
    rw [hlast, le_div_iff₀ (two_zpow_pos l)] at hscaled
    have hexp : (2 : K) ^ l = 2 ^ (l - e).toNat * 2 ^ e := by
      rw [← zpow_natCast, ← zpow_add₀ two_ne_zero]
      congr 1
      omega
    rw [hexp, ← mul_assoc, mul_le_mul_iff_left₀ (two_zpow_pos e), ← pow_add] at hscaled
    have hnat : 2 ^ (p - 1 + (l - e).toNat) ≤ m := by exact_mod_cast hscaled
    have hle : p - 1 + (l - e).toNat ≤ p :=
      (Nat.pow_le_pow_iff_right one_lt_two).mp (hnat.trans hm)
    have hone : (l - e).toNat = 1 := by omega
    have hmax : m = 2 ^ p := by
      refine le_antisymm hm ?_
      rwa [hone, Nat.sub_add_cancel hp] at hnat
    refine ⟨2 ^ (p - 1), ?_⟩
    rw [hexp, hone, hmax, mul_div_mul_right _ _ (two_zpow_pos e).ne']
    push_cast
    rw [pow_one, div_eq_iff two_ne_zero, ← pow_succ, Nat.sub_add_cancel hp]

theorem nearest_of_mem (hp : 0 < p) (hx : x ∈ binary K p) : nearest p x = x := by
  obtain ⟨n, hn⟩ := exists_scaled_eq hp hx
  unfold nearest
  rw [hn, roundEven_intCast, ← hn, div_mul_cancel₀ _ (two_zpow_pos _).ne']

theorem nearest_zero (hp : 0 < p) : nearest p (0 : K) = 0 := nearest_of_mem hp (zero_mem p)

/-- Rounding does not cross a power of two. -/
theorem zpow_le_nearest (hp : 0 < p) (hx : 0 < x) : 2 ^ Int.log 2 x ≤ nearest p x := by
  have hle := roundEven_mono (le_scaled hp hx)
  have hcast : ((2 : K) ^ (p - 1)) = ((2 ^ (p - 1) : ℤ) : K) := by push_cast; rfl
  rw [hcast, roundEven_intCast] at hle
  have hexp : (2 : K) ^ Int.log 2 x = 2 ^ (p - 1) * 2 ^ lastBit p x := by
    rw [← zpow_natCast, ← zpow_add₀ two_ne_zero]
    congr 1
    unfold lastBit
    omega
  unfold nearest
  rw [hexp, hcast]
  exact mul_le_mul_of_nonneg_right (Int.cast_le.mpr hle) (two_zpow_pos _).le

theorem nearest_le_zpow (p : ℕ) (x : K) : nearest p x ≤ 2 ^ (Int.log 2 x + 1) := by
  have hexp : (2 : K) ^ (Int.log 2 x + 1) = ((2 ^ p : ℤ) : K) * 2 ^ lastBit p x := by
    push_cast
    rw [← zpow_natCast, ← zpow_add₀ two_ne_zero]
    congr 1
    unfold lastBit
    omega
  unfold nearest
  rw [hexp]
  exact mul_le_mul_of_nonneg_right (Int.cast_le.mpr (roundEven_scaled_le p x))
    (two_zpow_pos _).le

theorem nearest_pos (hp : 0 < p) (hx : 0 < x) : 0 < nearest p x :=
  (two_zpow_pos _).trans_le (zpow_le_nearest hp hx)

theorem nearest_mono (hp : 0 < p) (hx : 0 ≤ x) (h : x ≤ y) : nearest p x ≤ nearest p y := by
  rcases hx.eq_or_lt with rfl | hpos
  · rw [nearest_zero hp]
    rcases h.eq_or_lt with rfl | hlt
    · rw [nearest_zero hp]
    · exact (nearest_pos hp hlt).le
  rcases (Int.log_mono_right (b := 2) hpos h).lt_or_eq with hlt | heq
  · -- a power of two is between them
    have hexp : (2 : K) ^ (Int.log 2 x + 1) ≤ 2 ^ Int.log 2 y :=
      zpow_le_zpow_right₀ one_le_two (Int.add_one_le_iff.mpr hlt)
    exact ((nearest_le_zpow p x).trans hexp).trans (zpow_le_nearest hp (hpos.trans_le h))
  · have hlast : lastBit p x = lastBit p y := by
      unfold lastBit
      rw [heq]
    unfold nearest
    rw [hlast]
    refine mul_le_mul_of_nonneg_right (Int.cast_le.mpr (roundEven_mono ?_)) (two_zpow_pos _).le
    exact div_le_div_of_nonneg_right h (two_zpow_pos _).le

/-- What is at most a number of the format stays so. -/
theorem nearest_le (hp : 0 < p) (hx : 0 ≤ x) (hy : y ∈ binary K p) (h : x ≤ y) :
    nearest p x ≤ y := by
  have hmono := nearest_mono hp hx h
  rwa [nearest_of_mem hp hy] at hmono

theorem le_nearest (hp : 0 < p) (hy : 0 ≤ y) (hmem : y ∈ binary K p) (h : y ≤ x) :
    y ≤ nearest p x := by
  have hmono := nearest_mono hp hy h
  rwa [nearest_of_mem hp hmem] at hmono

/-- **The error** of rounding. -/
theorem abs_nearest_sub_le (hp : 0 < p) (hx : 0 ≤ x) : |nearest p x - x| ≤ x / 2 ^ p := by
  rcases hx.eq_or_lt with rfl | hpos
  · rw [nearest_zero hp]
    simp
  have hbit := two_zpow_pos (K := K) (lastBit p x)
  have hsplit : nearest p x - x =
      (roundEven (x / 2 ^ lastBit p x) - x / 2 ^ lastBit p x) * 2 ^ lastBit p x := by
    unfold nearest
    rw [sub_mul, div_mul_cancel₀ _ hbit.ne']
  have hhalf := abs_roundEven_sub_le (x / 2 ^ lastBit p x)
  have hunit : (2 : K) ^ lastBit p x * 2 ^ (p - 1) ≤ x := by
    have hscaled := le_scaled hp hpos
    rwa [le_div_iff₀ hbit, mul_comm] at hscaled
  have hpow : (2 : K) ^ p = 2 * 2 ^ (p - 1) := by
    rw [← pow_succ', Nat.sub_add_cancel hp]
  rw [hsplit, abs_mul, abs_of_pos hbit, le_div_iff₀ (by positivity), hpow]
  have hcancel : (1 / 2 : K) * 2 ^ lastBit p x * (2 * 2 ^ (p - 1)) =
      2 ^ lastBit p x * 2 ^ (p - 1) := by ring
  refine le_trans ?_ hunit
  rw [← hcancel]
  gcongr

theorem nearest_le_mul (hp : 0 < p) (hx : 0 ≤ x) : nearest p x ≤ (1 + 1 / 2 ^ p) * x := by
  have h := (abs_le.mp (abs_nearest_sub_le hp hx)).2
  rw [one_add_mul, one_div_mul_eq_div]
  linarith

theorem mul_le_nearest (hp : 0 < p) (hx : 0 ≤ x) : (1 - 1 / 2 ^ p) * x ≤ nearest p x := by
  have h := (abs_le.mp (abs_nearest_sub_le hp hx)).1
  rw [one_sub_mul, one_div_mul_eq_div]
  linarith

end Rounding
