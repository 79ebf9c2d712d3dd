import Mathlib.Data.Int.Log
import Mathlib.Data.Rat.Floor
import Mathlib.Tactic.FieldSimp
import Mathlib.Tactic.Linarith

/-! Rounding to the nearest number of the format binary64, ties to an even mantissa. Values are rationals; a number
    that is too large has no nearest one. -/

namespace Float64

/-- The finite numbers of the format. -/
def IsFloat (x : ℚ) : Prop := ∃ m e : ℤ, |m| < 2 ^ 53 ∧ -1074 ≤ e ∧ e ≤ 971 ∧ x = m * 2 ^ e

def roundEven (q : ℚ) : ℤ :=
  if q - ⌊q⌋ < 1 / 2 then ⌊q⌋ else if 1 / 2 < q - ⌊q⌋ then ⌊q⌋ + 1 else if ⌊q⌋ % 2 = 0 then ⌊q⌋ else ⌊q⌋ + 1

/-- The exponent of the last place at a number. -/
def lastPlace (x : ℚ) : ℤ := max (-1074) (Int.log 2 |x| - 52)

def rounded (x : ℚ) : ℚ := roundEven (x / 2 ^ lastPlace x) * 2 ^ lastPlace x

def nearest (x : ℚ) : Option ℚ := if |rounded x| < 2 ^ 1024 then some (rounded x) else none

/-! ### Integers -/

theorem abs_sub_roundEven_le (q : ℚ) (k : ℤ) : |q - roundEven q| ≤ |q - k| := by
  have low : (⌊q⌋ : ℚ) ≤ q := Int.floor_le q
  have high : q < ⌊q⌋ + 1 := Int.lt_floor_add_one q
  have below : k ≤ ⌊q⌋ → q - ⌊q⌋ ≤ |q - k| := by
    intro le
    have : (k : ℚ) ≤ ⌊q⌋ := by exact_mod_cast le
    exact le_trans (by linarith) (le_abs_self _)
  have above : ⌊q⌋ + 1 ≤ k → ⌊q⌋ + 1 - q ≤ |q - k| := by
    intro le
    have : (⌊q⌋ : ℚ) + 1 ≤ k := by exact_mod_cast le
    rw [abs_sub_comm]
    exact le_trans (by linarith) (le_abs_self _)
  have floor : |q - ⌊q⌋| = q - ⌊q⌋ := abs_of_nonneg (by linarith)
  have ceil : |q - (⌊q⌋ + 1 : ℤ)| = ⌊q⌋ + 1 - q := by
    rw [abs_sub_comm, abs_of_nonneg]
    · push_cast
      ring
    · push_cast
      linarith
  unfold roundEven
  rcases le_or_gt k ⌊q⌋ with le | gt
  · have := below le
    split_ifs
    · rwa [floor]
    · rw [ceil]
      linarith
    · rwa [floor]
    · rw [ceil]
      linarith
  · have := above gt
    split_ifs
    · rw [floor]
      linarith
    · rwa [ceil]
    · rw [floor]
      linarith
    · rwa [ceil]

theorem abs_sub_roundEven_le_half (q : ℚ) : |q - roundEven q| ≤ 1 / 2 := by
  have low : (⌊q⌋ : ℚ) ≤ q := Int.floor_le q
  have high : q < ⌊q⌋ + 1 := Int.lt_floor_add_one q
  rcases le_or_gt (q - ⌊q⌋) (1 / 2) with le | gt
  · refine (abs_sub_roundEven_le q ⌊q⌋).trans ?_
    rw [abs_of_nonneg (by linarith)]
    exact le
  · refine (abs_sub_roundEven_le q (⌊q⌋ + 1)).trans ?_
    push_cast
    rw [abs_sub_comm, abs_of_nonneg (by linarith)]
    linarith

/-! ### Numbers -/

section
variable {x y z : ℚ}

theorem abs_sub_rounded_le_multiple (x : ℚ) (k : ℤ) : |x - rounded x| ≤ |x - k * 2 ^ lastPlace x| := by
  have pos : (0 : ℚ) < 2 ^ lastPlace x := zpow_pos two_pos _
  have scaled (k : ℤ) : |x - k * 2 ^ lastPlace x| = |x / 2 ^ lastPlace x - k| * 2 ^ lastPlace x := by
    rw [← abs_of_pos pos, ← abs_mul, abs_of_pos pos, sub_mul, div_mul_cancel₀ _ pos.ne']
  rw [rounded, scaled, scaled]
  exact mul_le_mul_of_nonneg_right (abs_sub_roundEven_le _ k) pos.le

/-- No number of the format is closer. -/
theorem abs_sub_rounded_le (x : ℚ) (float : IsFloat z) : |x - rounded x| ≤ |x - z| := by
  obtain ⟨m, e, small, low, high, rfl⟩ := float
  rcases le_or_gt (lastPlace x) e with le | lt
  · -- A number with larger places is a multiple of the last place.
    have multiple : (m : ℚ) * 2 ^ e = (m * 2 ^ (e - lastPlace x).toNat : ℤ) * 2 ^ lastPlace x := by
      push_cast
      rw [mul_assoc, ← zpow_natCast, ← zpow_add₀ two_ne_zero]
      congr 2
      omega
    rw [multiple]
    exact abs_sub_rounded_le_multiple x _
  · -- A number with smaller places is smaller than the power of two below `x`, which is a multiple.
    rcases eq_or_ne x 0 with rfl | ne
    · have := abs_sub_rounded_le_multiple 0 0
      simp only [Int.cast_zero, zero_mul, sub_zero, abs_zero] at this
      exact this.trans (abs_nonneg _)
    have place : lastPlace x = Int.log 2 |x| - 52 := by
      rw [lastPlace] at lt ⊢
      omega
    have floor : (2 : ℚ) ^ (52 : ℤ) * 2 ^ lastPlace x ≤ |x| := by
      rw [← zpow_add₀ two_ne_zero, place, add_sub_cancel]
      exact_mod_cast Int.zpow_log_le_self (by norm_num) (abs_pos.mpr ne)
    have smaller : |(m : ℚ) * 2 ^ e| ≤ 2 ^ (52 : ℤ) * 2 ^ lastPlace x := by
      have mantissa : |(m : ℚ)| ≤ 2 ^ (53 : ℤ) := by exact_mod_cast small.le
      calc |(m : ℚ) * 2 ^ e| = |(m : ℚ)| * 2 ^ e := by rw [abs_mul, abs_of_pos (zpow_pos (two_pos (α := ℚ)) e)]
        _ ≤ 2 ^ (53 : ℤ) * 2 ^ e := mul_le_mul_of_nonneg_right mantissa (zpow_pos two_pos e).le
        _ = 2 ^ (53 + e) := (zpow_add₀ two_ne_zero _ _).symm
        _ ≤ 2 ^ (52 + lastPlace x) := zpow_le_zpow_right₀ one_le_two (by omega)
        _ = 2 ^ (52 : ℤ) * 2 ^ lastPlace x := zpow_add₀ two_ne_zero _ _
    have apart : |x| - 2 ^ (52 : ℤ) * 2 ^ lastPlace x ≤ |x - m * 2 ^ e| :=
      le_trans (by linarith) (abs_sub_abs_le_abs_sub _ _)
    have power : ∃ k : ℤ, |x - k * 2 ^ lastPlace x| = |x| - 2 ^ (52 : ℤ) * 2 ^ lastPlace x := by
      rcases lt_or_gt_of_ne ne with neg | pos
      · refine ⟨-2 ^ 52, ?_⟩
        rw [abs_of_neg neg] at floor ⊢
        have written : ((-2 ^ 52 : ℤ) : ℚ) = -2 ^ (52 : ℤ) := by norm_num
        rw [written, abs_of_nonpos (by linarith)]
        ring
      · refine ⟨2 ^ 52, ?_⟩
        rw [abs_of_pos pos] at floor ⊢
        have written : ((2 ^ 52 : ℤ) : ℚ) = 2 ^ (52 : ℤ) := by norm_num
        rw [written, abs_of_nonneg (by linarith)]
    obtain ⟨k, hk⟩ := power
    exact (abs_sub_rounded_le_multiple x k).trans (hk.le.trans apart)

theorem nearest_of_isFloat (float : IsFloat x) : nearest x = some x := by
  have same : rounded x = x := by
    have close := abs_sub_rounded_le x float
    rw [sub_self, abs_zero] at close
    exact (sub_eq_zero.mp (abs_nonpos_iff.mp close)).symm
  obtain ⟨m, e, small, -, high, rfl⟩ := float
  rw [nearest, same, if_pos]
  have mantissa : |(m : ℚ)| < 2 ^ (53 : ℤ) := by exact_mod_cast small
  calc |(m : ℚ) * 2 ^ e| = |(m : ℚ)| * 2 ^ e := by rw [abs_mul, abs_of_pos (zpow_pos (two_pos (α := ℚ)) e)]
    _ < 2 ^ (53 : ℤ) * 2 ^ e := mul_lt_mul_of_pos_right mantissa (zpow_pos two_pos e)
    _ = 2 ^ (53 + e) := (zpow_add₀ two_ne_zero _ _).symm
    _ ≤ 2 ^ (1024 : ℤ) := zpow_le_zpow_right₀ one_le_two (by omega)
    _ = 2 ^ 1024 := zpow_natCast 2 1024

theorem nearest_eq_some (h : nearest x = some y) : y = rounded x ∧ |rounded x| < 2 ^ 1024 := by
  rw [nearest] at h
  split_ifs at h with small
  cases h
  exact ⟨rfl, small⟩

theorem lt_of_abs_lt {r k e : ℤ} (le : 2 ^ k ≤ |(r : ℚ)|) (small : |(r : ℚ) * 2 ^ e| < 2 ^ 1024) : k + e < 1024 := by
  have lt : (2 : ℚ) ^ (k + e) < 2 ^ (1024 : ℤ) :=
    calc (2 : ℚ) ^ (k + e) = 2 ^ k * 2 ^ e := zpow_add₀ two_ne_zero _ _
      _ ≤ |(r : ℚ)| * 2 ^ e := mul_le_mul_of_nonneg_right le (zpow_pos two_pos e).le
      _ = |(r : ℚ) * 2 ^ e| := by rw [abs_mul, abs_of_pos (zpow_pos (two_pos (α := ℚ)) e)]
      _ < 2 ^ 1024 := small
      _ = 2 ^ (1024 : ℤ) := (zpow_natCast 2 1024).symm
  exact (zpow_lt_zpow_iff_right₀ one_lt_two).mp lt

theorem mantissa_bounds (ne : x ≠ 0) : |roundEven (x / 2 ^ lastPlace x)| ≤ 2 ^ 53 ∧
    (-1074 < lastPlace x → 2 ^ 52 ≤ |roundEven (x / 2 ^ lastPlace x)|) := by
  have pos : (0 : ℚ) < 2 ^ lastPlace x := zpow_pos two_pos _
  have size : |x / 2 ^ lastPlace x| * 2 ^ lastPlace x = |x| := by
    rw [abs_div, abs_of_pos pos, div_mul_cancel₀ _ pos.ne']
  have half := abs_sub_roundEven_le_half (x / 2 ^ lastPlace x)
  have above := (abs_sub_abs_le_abs_sub _ _).trans half
  rw [abs_sub_comm] at half
  have below := (abs_sub_abs_le_abs_sub _ _).trans half
  rw [← Int.cast_abs] at above below
  constructor
  · have upper : |x / 2 ^ lastPlace x| < 2 ^ (53 : ℤ) := by
      refine lt_of_mul_lt_mul_right ?_ pos.le
      have place : Int.log 2 |x| + 1 ≤ 53 + lastPlace x := by
        rw [lastPlace]
        omega
      rw [size, ← zpow_add₀ two_ne_zero]
      exact (Int.lt_zpow_succ_log_self (by norm_num) |x|).trans_le (zpow_le_zpow_right₀ one_le_two place)
    have bound : (|roundEven (x / 2 ^ lastPlace x)| : ℚ) < 2 ^ 53 + 1 := by
      norm_num at upper below ⊢
      linarith
    exact Int.lt_add_one_iff.mp (by exact_mod_cast bound)
  · intro large
    have lower : 2 ^ (52 : ℤ) ≤ |x / 2 ^ lastPlace x| := by
      refine le_of_mul_le_mul_right ?_ pos
      have place : lastPlace x = Int.log 2 |x| - 52 := by
        rw [lastPlace] at large ⊢
        omega
      rw [size, ← zpow_add₀ two_ne_zero, place, add_sub_cancel]
      exact_mod_cast Int.zpow_log_le_self (by norm_num) (abs_pos.mpr ne)
    have bound : (2 ^ 52 : ℚ) < |roundEven (x / 2 ^ lastPlace x)| + 1 := by
      norm_num at lower above ⊢
      linarith
    exact Int.lt_add_one_iff.mp (by exact_mod_cast bound)

theorem isFloat_of_nearest (h : nearest x = some y) : IsFloat y := by
  obtain ⟨rfl, small⟩ := nearest_eq_some h
  rcases eq_or_ne x 0 with rfl | ne
  · have zero := abs_sub_rounded_le_multiple 0 0
    simp only [zero_sub, abs_neg, Int.cast_zero, zero_mul, sub_zero, abs_zero, abs_nonpos_iff] at zero
    exact ⟨0, 0, by norm_num, by norm_num, by norm_num, by rw [zero]; norm_num⟩
  obtain ⟨upper, lower⟩ := mantissa_bounds ne
  have low : -1074 ≤ lastPlace x := le_max_left _ _
  rw [rounded] at small ⊢
  generalize roundEven (x / 2 ^ lastPlace x) = r at *
  generalize lastPlace x = e at *
  rcases upper.lt_or_eq with lt | eq
  · refine ⟨r, e, lt, low, ?_, rfl⟩
    by_contra large
    have le : (2 : ℚ) ^ (52 : ℤ) ≤ |(r : ℚ)| := by exact_mod_cast lower (by omega)
    have := lt_of_abs_lt le small
    omega
  · have le : (2 : ℚ) ^ (53 : ℤ) ≤ |(r : ℚ)| := by exact_mod_cast eq.ge
    have := lt_of_abs_lt le small
    have even : r = 2 * (r / 2) := by
      rcases abs_choice r with h | h <;> omega
    refine ⟨r / 2, e + 1, by rcases abs_choice r with h | h <;> rcases abs_choice (r / 2) with
      h' | h' <;> omega, by omega, by omega, ?_⟩
    rw [zpow_add_one₀ two_ne_zero]
    nth_rewrite 1 [even]
    push_cast
    ring

end

end Float64
