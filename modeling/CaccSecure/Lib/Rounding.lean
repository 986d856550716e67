import Mathlib.Algebra.Order.Round
import Mathlib.Algebra.Ring.Int.Parity
import Mathlib.Data.Int.Log
import Mathlib.Tactic.Linarith
import Mathlib.Tactic.NormNum
import Mathlib.Tactic.Ring

/-!
# Rounding to binary digits

A number is rounded to `p` significant binary digits, to the even one of two
nearest, as floating-point arithmetic does where it neither overflows nor
underflows: an operation on such numbers is the exact operation followed by
`roundTo`. A number of at most `p` digits is kept, the order is kept, and the
error is at most the `2 ^ p`-th part of the number.
-/

namespace Rounding

variable {K : Type*} [Field K] [LinearOrder K] [FloorRing K]

/-! ## To the nearest integer -/

/-- The nearest integer, the even one of two. -/
def nearestEven (x : K) : ℤ :=
  if Int.fract x < 1 / 2 then ⌊x⌋
  else if 1 / 2 < Int.fract x then ⌊x⌋ + 1
  else if Even ⌊x⌋ then ⌊x⌋ else ⌊x⌋ + 1

theorem floor_le_nearestEven (x : K) : ⌊x⌋ ≤ nearestEven x := by
  unfold nearestEven
  split_ifs <;> omega

theorem nearestEven_le_floor_add_one (x : K) : nearestEven x ≤ ⌊x⌋ + 1 := by
  unfold nearestEven
  split_ifs <;> omega

variable [IsStrictOrderedRing K]

@[simp] theorem nearestEven_intCast (n : ℤ) : nearestEven (n : K) = n := by
  rw [nearestEven, Int.fract_intCast, if_pos (by norm_num), Int.floor_intCast]

theorem nearestEven_mono {x y : K} (h : x ≤ y) : nearestEven x ≤ nearestEven y := by
  rcases (Int.floor_mono h).lt_or_eq with hlt | heq
  · calc nearestEven x ≤ ⌊x⌋ + 1 := nearestEven_le_floor_add_one x
      _ ≤ ⌊y⌋ := hlt
      _ ≤ nearestEven y := floor_le_nearestEven y
  · have hfract : Int.fract x ≤ Int.fract y := by
      rw [Int.fract, Int.fract, heq]
      exact sub_le_sub_right h _
    unfold nearestEven
    rw [heq]
    split_ifs <;> first | omega | (exfalso; linarith)

theorem abs_nearestEven_sub_le (x : K) : |(nearestEven x : K) - x| ≤ 1 / 2 := by
  have hx := Int.floor_add_fract x
  have hnonneg := Int.fract_nonneg x
  have hlt := Int.fract_lt_one x
  unfold nearestEven
  split_ifs with hlow hhigh hpar
  · rw [abs_le]
    constructor <;> linarith
  · rw [abs_le]
    push_cast
    constructor <;> linarith
  · rw [abs_le]
    constructor <;> linarith
  · rw [abs_le]
    push_cast
    constructor <;> linarith

/-! ## To `p` digits -/

/-- The exponent of the last of the `p` digits. -/
def exponent (p : ℕ) (x : K) : ℤ := Int.log 2 |x| + 1 - p

/-- `x` with `p` significant binary digits. -/
def roundTo (p : ℕ) (x : K) : K :=
  nearestEven (x / 2 ^ exponent p x) * 2 ^ exponent p x

/-- The numbers of at most `p` digits. -/
def Representable (p : ℕ) (x : K) : Prop :=
  ∃ m e : ℤ, |m| < 2 ^ p ∧ x = m * 2 ^ e

variable {p : ℕ} {x y : K}

theorem two_zpow_pos (e : ℤ) : (0 : K) < 2 ^ e := zpow_pos two_pos e

theorem zpow_log_le (hx : x ≠ 0) : (2 : K) ^ Int.log 2 |x| ≤ |x| := by
  have h := Int.zpow_log_le_self (b := 2) one_lt_two (abs_pos.mpr hx)
  rwa [Nat.cast_ofNat] at h

theorem lt_zpow_succ_log (x : K) : |x| < (2 : K) ^ (Int.log 2 |x| + 1) := by
  have h := Int.lt_zpow_succ_log_self (b := 2) one_lt_two |x|
  rwa [Nat.cast_ofNat] at h

@[simp] theorem roundTo_zero (p : ℕ) : roundTo p (0 : K) = 0 := by
  have h : nearestEven (0 : K) = 0 := by
    have := nearestEven_intCast (K := K) 0
    rwa [Int.cast_zero] at this
  rw [roundTo, zero_div, h, Int.cast_zero, zero_mul]

theorem roundTo_nonneg (h : 0 ≤ x) : 0 ≤ roundTo p x := by
  have hint := nearestEven_mono (div_nonneg h (two_zpow_pos (exponent p x)).le)
  have hzero := nearestEven_intCast (K := K) 0
  rw [Int.cast_zero] at hzero
  rw [hzero] at hint
  exact mul_nonneg (Int.cast_nonneg hint) (two_zpow_pos _).le

theorem roundTo_nonpos (h : x ≤ 0) : roundTo p x ≤ 0 := by
  have hint := nearestEven_mono
    (div_nonpos_of_nonpos_of_nonneg h (two_zpow_pos (exponent p x)).le)
  have hzero := nearestEven_intCast (K := K) 0
  rw [Int.cast_zero] at hzero
  rw [hzero] at hint
  exact mul_nonpos_of_nonpos_of_nonneg (Int.cast_nonpos.mpr hint) (two_zpow_pos _).le

/-- **Exact results.** A number of at most `p` digits is kept. -/
theorem roundTo_of_representable (h : Representable p x) : roundTo p x = x := by
  obtain ⟨m, e, hm, rfl⟩ := h
  rcases eq_or_ne m 0 with rfl | hne
  · rw [Int.cast_zero, zero_mul, roundTo_zero]
  · have hpos : 0 < |(m : K) * 2 ^ e| :=
      abs_pos.mpr (mul_ne_zero (Int.cast_ne_zero.mpr hne) (two_zpow_pos e).ne')
    have hlt : |(m : K) * 2 ^ e| < ((2 : ℕ) : K) ^ (p + e : ℤ) := by
      rw [abs_mul, abs_of_pos (two_zpow_pos (K := K) e), Nat.cast_ofNat,
        zpow_add₀ two_ne_zero, zpow_natCast]
      refine mul_lt_mul_of_pos_right ?_ (two_zpow_pos e)
      exact_mod_cast hm
    have hlog := (Int.lt_zpow_iff_log_lt one_lt_two hpos).mp hlt
    obtain ⟨k, hk⟩ : ∃ k : ℕ, e = k + exponent p ((m : K) * 2 ^ e) :=
      ⟨(e - exponent p ((m : K) * 2 ^ e)).toNat, by
        have : exponent p ((m : K) * 2 ^ e) ≤ e := by
          rw [exponent]
          omega
        omega⟩
    have hdiv : (m : K) * 2 ^ e / 2 ^ exponent p ((m : K) * 2 ^ e) =
        ((m * 2 ^ k : ℤ) : K) := by
      rw [div_eq_iff (two_zpow_pos _).ne']
      push_cast
      rw [mul_assoc, ← zpow_natCast, ← zpow_add₀ two_ne_zero, ← hk]
    rw [roundTo, hdiv, nearestEven_intCast, ← hdiv, div_mul_cancel₀ _ (two_zpow_pos _).ne']

omit [LinearOrder K] [FloorRing K] [IsStrictOrderedRing K] in
theorem representable_natCast {n : ℕ} (h : n < 2 ^ p) : Representable p (n : K) := by
  refine ⟨n, 0, ?_, by simp⟩
  rw [Nat.abs_cast]
  exact_mod_cast h

/-- **Relative error.** -/
theorem abs_roundTo_sub_le (p : ℕ) (x : K) : |roundTo p x - x| ≤ |x| / 2 ^ p := by
  rcases eq_or_ne x 0 with rfl | hne
  · simp
  · have hpos := two_zpow_pos (K := K) (exponent p x)
    have hlog := zpow_log_le hne
    have hsplit : roundTo p x - x =
        (nearestEven (x / 2 ^ exponent p x) - x / 2 ^ exponent p x) *
          2 ^ exponent p x := by
      rw [sub_mul, div_mul_cancel₀ _ hpos.ne', roundTo]
    have hexp : (2 : K) ^ exponent p x = 2 * 2 ^ Int.log 2 |x| / 2 ^ p := by
      rw [exponent, zpow_sub₀ two_ne_zero, zpow_add₀ two_ne_zero, zpow_one, zpow_natCast,
        mul_comm]
    calc |roundTo p x - x|
        = |nearestEven (x / 2 ^ exponent p x) - x / 2 ^ exponent p x| *
            2 ^ exponent p x := by rw [hsplit, abs_mul, abs_of_pos hpos]
      _ ≤ 1 / 2 * 2 ^ exponent p x :=
          mul_le_mul_of_nonneg_right (abs_nearestEven_sub_le _) hpos.le
      _ = 2 ^ Int.log 2 |x| / 2 ^ p := by
          rw [hexp]
          ring
      _ ≤ |x| / 2 ^ p := div_le_div_of_nonneg_right hlog (by positivity)

/-! ## Order -/

/-- Rounding does not leave the powers of two around a number. -/
theorem roundTo_mem_Icc (hp : 0 < p) (hx : 0 < x) :
    roundTo p x ∈ Set.Icc ((2 : K) ^ Int.log 2 |x|) (2 ^ (Int.log 2 |x| + 1)) := by
  have hpos := two_zpow_pos (K := K) (exponent p x)
  have hlow : (2 : K) ^ Int.log 2 |x| = ((2 ^ (p - 1) : ℤ) : K) * 2 ^ exponent p x := by
    push_cast
    rw [← zpow_natCast, ← zpow_add₀ two_ne_zero, exponent]
    congr 1
    omega
  have hhigh : (2 : K) ^ (Int.log 2 |x| + 1) = ((2 ^ p : ℤ) : K) * 2 ^ exponent p x := by
    push_cast
    rw [← zpow_natCast, ← zpow_add₀ two_ne_zero, exponent]
    congr 1
    omega
  constructor
  · have hle := zpow_log_le hx.ne'
    rw [abs_of_pos hx] at hlow ⊢
    rw [abs_of_pos hx, hlow, ← le_div_iff₀ hpos] at hle
    have hint := nearestEven_mono hle
    rw [nearestEven_intCast] at hint
    rw [hlow]
    exact mul_le_mul_of_nonneg_right (Int.cast_le.mpr hint) hpos.le
  · have hle := (le_abs_self x).trans (lt_zpow_succ_log x).le
    rw [hhigh, ← div_le_iff₀ hpos] at hle
    have hint := nearestEven_mono hle
    rw [nearestEven_intCast] at hint
    rw [hhigh]
    exact mul_le_mul_of_nonneg_right (Int.cast_le.mpr hint) hpos.le

theorem roundTo_pos (hp : 0 < p) (hx : 0 < x) : 0 < roundTo p x :=
  (two_zpow_pos _).trans_le (roundTo_mem_Icc hp hx).1

/-- **The order is kept.** -/
theorem roundTo_le_roundTo (hp : 0 < p) (hx : 0 ≤ x) (h : x ≤ y) :
    roundTo p x ≤ roundTo p y := by
  rcases hx.eq_or_lt with rfl | hpos
  · rw [roundTo_zero]
    exact roundTo_nonneg h
  · have hlog : Int.log 2 |x| ≤ Int.log 2 |y| := by
      rw [abs_of_pos hpos, abs_of_pos (hpos.trans_le h)]
      exact Int.log_mono_right hpos h
    rcases hlog.lt_or_eq with hlt | heq
    · calc roundTo p x ≤ 2 ^ (Int.log 2 |x| + 1) := (roundTo_mem_Icc hp hpos).2
        _ ≤ 2 ^ Int.log 2 |y| := zpow_le_zpow_right₀ one_le_two hlt
        _ ≤ roundTo p y := (roundTo_mem_Icc hp (hpos.trans_le h)).1
    · have hexp : exponent p x = exponent p y := by rw [exponent, exponent, heq]
      have hint := nearestEven_mono
        (div_le_div_of_nonneg_right h (two_zpow_pos (exponent p y)).le)
      rw [roundTo, roundTo, hexp]
      exact mul_le_mul_of_nonneg_right (Int.cast_le.mpr hint) (two_zpow_pos _).le

/-- A bound of at most `p` digits is kept from below ... -/
theorem le_roundTo (hp : 0 < p) (hr : Representable p x) (hx : 0 ≤ x) (h : x ≤ y) :
    x ≤ roundTo p y := by
  rw [← roundTo_of_representable hr]
  exact roundTo_le_roundTo hp hx h

/-- ... and from above. -/
theorem roundTo_le (hp : 0 < p) (hr : Representable p y) (hx : 0 ≤ x) (h : x ≤ y) :
    roundTo p x ≤ y := by
  rw [← roundTo_of_representable hr]
  exact roundTo_le_roundTo hp hx h

theorem roundTo_pos_iff (hp : 0 < p) : 0 < roundTo p x ↔ 0 < x := by
  constructor
  · intro h
    by_contra hx
    exact absurd (roundTo_nonpos (not_lt.mp hx)) (not_le.mpr h)
  · exact roundTo_pos hp

end Rounding
