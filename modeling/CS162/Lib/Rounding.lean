/-
# `Rounding` — division of machine integers that rounds

C divides towards zero.  Adding one half before the division rounds to the nearest integer
as long as the sum is not negative; below that it does so only where nothing is to be
rounded (`round_nearest_iff`).  The first section says when an operation on 32-bit integers
does not overflow, the last what is left of a quotient (`truncates_tdiv`).
-/
import Mathlib.Algebra.Group.Int.Defs
import Mathlib.Algebra.Order.Field.Basic
import Mathlib.Algebra.Order.Field.Rat
import Mathlib.Algebra.Order.Group.Abs
import Mathlib.Algebra.Order.Ring.Int
import Mathlib.Data.Int.Order.Basic
import Mathlib.Data.Rat.Cast.Order
import Mathlib.Tactic.Linarith
import Mathlib.Tactic.Ring

namespace Rounding

/-! ## 32-bit integers -/

/-- The value of an `int`. -/
def Fits (z : Int) : Prop := -2 ^ 31 ≤ z ∧ z < 2 ^ 31

variable {a b : Int32} {x z d h : Int}

theorem fits_toInt (a : Int32) : Fits a.toInt := ⟨a.le_toInt, a.toInt_lt⟩

theorem Fits.bmod (hz : Fits z) : z.bmod (2 ^ 32) = z := by
  obtain ⟨hlo, hhi⟩ := hz
  exact Int.bmod_eq_of_le (by omega) (by omega)

theorem toInt_add (hz : Fits (a.toInt + b.toInt)) : (a + b).toInt = a.toInt + b.toInt := by
  rw [Int32.toInt_add, hz.bmod]

theorem toInt_sub (hz : Fits (a.toInt - b.toInt)) : (a - b).toInt = a.toInt - b.toInt := by
  rw [Int32.toInt_sub, hz.bmod]

theorem toInt_mul (hz : Fits (a.toInt * b.toInt)) : (a * b).toInt = a.toInt * b.toInt := by
  rw [Int32.toInt_mul, hz.bmod]

/-! ## Division -/

theorem tdiv_of_neg (hx : x < 0) : x.tdiv d = -((-x) / d) := by
  have hneg : x.tdiv d = -((-x).tdiv d) := by
    rw [Int.neg_tdiv, neg_neg]
  rw [hneg, Int.tdiv_eq_ediv_of_nonneg (by omega)]

/-- A quotient is not larger than the dividend. -/
theorem Fits.tdiv (hx : Fits x) (hd : 0 < d) : Fits (x.tdiv d) := by
  obtain ⟨hlo, hhi⟩ := hx
  rcases le_or_gt 0 x with hx | hx
  · have hle := Int.ediv_le_self d hx
    have hnn := Int.ediv_nonneg hx hd.le
    rw [Int.tdiv_eq_ediv_of_nonneg hx]
    exact ⟨by omega, by omega⟩
  · have hle := Int.ediv_le_self d (a := -x) (by omega)
    have hnn := Int.ediv_nonneg (a := -x) (by omega) hd.le
    rw [tdiv_of_neg hx]
    exact ⟨by omega, by omega⟩

theorem toInt_div (hb : 0 < b.toInt) : (a / b).toInt = a.toInt.tdiv b.toInt := by
  rw [Int32.toInt_div, ((fits_toInt a).tdiv hb).bmod]

/-- One half is added and the sum divided: the quotient is nearest unless the sum is
negative and leaves a remainder. -/
theorem round_nearest_iff (hh : 0 < h) :
    |2 * h * (x + h).tdiv (2 * h) - x| ≤ h ↔ -h ≤ x ∨ 2 * h ∣ x + h := by
  have hd : 0 < 2 * h := by omega
  rcases le_or_gt 0 (x + h) with hx | hx
  · have hdiv := Int.mul_ediv_add_emod (x + h) (2 * h)
    have hlt := Int.emod_lt_of_pos (x + h) hd
    have hnn := Int.emod_nonneg (x + h) hd.ne'
    rw [Int.tdiv_eq_ediv_of_nonneg hx, abs_le]
    exact iff_of_true ⟨by omega, by omega⟩ (.inl (by omega))
  · have hdiv := Int.mul_ediv_add_emod (-(x + h)) (2 * h)
    have hnn := Int.emod_nonneg (-(x + h)) hd.ne'
    have hneg : 2 * h * -(-(x + h) / (2 * h)) = -(2 * h * (-(x + h) / (2 * h))) := by ring
    rw [tdiv_of_neg hx, hneg, abs_le, ← Int.dvd_neg, Int.dvd_iff_emod_eq_zero]
    constructor
    · rintro ⟨-, hle⟩
      exact .inr (by omega)
    · rintro (hle | hzero)
      · omega
      · exact ⟨by omega, by omega⟩

/-! ## Truncation -/

section Truncation

variable {z : Int} {q : ℚ}

/-- `z` is `q` without its fraction. -/
structure Truncates (z : Int) (q : ℚ) : Prop where
  floor : 0 ≤ q → (z : ℚ) ≤ q ∧ q < z + 1
  ceil : q ≤ 0 → q ≤ z ∧ (z : ℚ) < q + 1

theorem Truncates.neg (h : Truncates z q) : Truncates (-z) (-q) := by
  refine ⟨fun hq => ?_, fun hq => ?_⟩
  · obtain ⟨hlo, hhi⟩ := h.ceil (by linarith)
    rw [Int.cast_neg]
    exact ⟨by linarith, by linarith⟩
  · obtain ⟨hlo, hhi⟩ := h.floor (by linarith)
    rw [Int.cast_neg]
    exact ⟨by linarith, by linarith⟩

theorem truncates_intCast (z : Int) : Truncates z z :=
  ⟨fun _ => ⟨le_rfl, lt_add_one _⟩, fun _ => ⟨le_rfl, lt_add_one _⟩⟩

/-- Division in C. -/
theorem truncates_natCast {a b : Nat} (hb : 0 < b) :
    Truncates ((a : Int).tdiv b) (((a : Int) : ℚ) / ((b : Int) : ℚ)) := by
  have hdiv : (a : Int).tdiv b = ((a / b : Nat) : Int) := rfl
  rw [hdiv, Int.cast_natCast, Int.cast_natCast]
  have hpos : (0 : ℚ) < b := by exact_mod_cast hb
  have hlo : ((a / b : Nat) : ℚ) ≤ (a : ℚ) / b := by
    rw [le_div_iff₀ hpos]
    exact_mod_cast Nat.div_mul_le_self a b
  have hhi : (a : ℚ) / b < (a / b : Nat) + 1 := by
    have hlt := Nat.lt_mul_div_succ a hb
    rw [mul_comm] at hlt
    rw [div_lt_iff₀ hpos]
    exact_mod_cast hlt
  refine ⟨fun _ => ⟨hlo, hhi⟩, fun hq => ⟨?_, ?_⟩⟩
  · exact hq.trans (Nat.cast_nonneg _)
  · exact hlo.trans_lt (lt_add_one _)

theorem truncates_tdiv (x : Int) (hd : d ≠ 0) : Truncates (x.tdiv d) ((x : ℚ) / d) := by
  have hnat := truncates_natCast (a := x.natAbs) (Int.natAbs_pos.mpr hd)
  rcases Int.natAbs_eq x with hx | hx <;> rcases Int.natAbs_eq d with hy | hy <;> rw [hx, hy]
  · exact hnat
  · rw [Int.tdiv_neg, Int.cast_neg, div_neg]
    exact hnat.neg
  · rw [Int.neg_tdiv, Int.cast_neg, neg_div]
    exact hnat.neg
  · rw [Int.neg_tdiv, Int.tdiv_neg, neg_neg, Int.cast_neg, Int.cast_neg, neg_div_neg_eq]
    exact hnat

/-- What is left is an `int` if it is in range before the fraction goes. -/
theorem Truncates.fits_iff (h : Truncates z q) : Fits z ↔ -2 ^ 31 - 1 < q ∧ q < 2 ^ 31 := by
  unfold Fits
  rcases le_total 0 q with hq | hq
  · obtain ⟨hlo, hhi⟩ := h.floor hq
    have hnn : -1 < z := by
      have hlt : (-1 : ℚ) < z := by linarith
      exact_mod_cast hlt
    constructor
    · rintro ⟨-, hlt⟩
      have hle : ((z + 1 : Int) : ℚ) ≤ 2 ^ 31 := by exact_mod_cast hlt
      rw [Int.cast_add, Int.cast_one] at hle
      exact ⟨by linarith, by linarith⟩
    · rintro ⟨-, hlt⟩
      have hz : (z : ℚ) < 2 ^ 31 := hlo.trans_lt hlt
      exact ⟨by omega, by exact_mod_cast hz⟩
  · obtain ⟨hlo, hhi⟩ := h.ceil hq
    have hnp : z < 1 := by
      have hlt : (z : ℚ) < 1 := by linarith
      exact_mod_cast hlt
    constructor
    · rintro ⟨hle, -⟩
      have hz : (-2 ^ 31 : ℚ) ≤ z := by exact_mod_cast hle
      exact ⟨by linarith, by linarith⟩
    · rintro ⟨hlt, -⟩
      have hz : (-2 ^ 31 - 1 : ℚ) < z := hlt.trans_le hlo
      have hz' : -2 ^ 31 - 1 < z := by exact_mod_cast hz
      exact ⟨by omega, by omega⟩

end Truncation

end Rounding
