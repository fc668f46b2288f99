/-
# `CS162.Kernel.FixedPoint` — `threads/fixed-point.h`

Numbers with 16 integer bits and 16 fractional bits in an `int`.  Sums, differences and
multiples are computed in 32 bits and may overflow; products and quotients are computed in
64 bits, which do not, and are then cut to 32.  Division is towards zero.

`hundredfold` is what `thread_get_recent_cpu` and `thread_get_load_avg` return.
`isHundredfold_iff` says for which numbers it is the nearest integer.

One of the 16 integer bits is the sign, so that the range of the type is half of what `FIX_MAX_INT` says.
`FixOp` is a call of one of the operations; it is exact up to truncation if the exact value is in that
range (`FixOp.exact_iff`).
-/
import Mathlib.Algebra.Order.Field.Rat
import Mathlib.Tactic.FieldSimp
import Mathlib.Tactic.Linarith
import Mathlib.Tactic.NormNum
import CS162.Lib.Rounding

namespace CS162.Kernel

open Rounding

/-- `fixed_point_t`. -/
structure FixedPoint where
  f : Int32
deriving DecidableEq

/-- `FIX_F`. -/
def fixF : Int32 := 65536

/-- `FIX_MAX_INT`. -/
def fixMaxInt : Int32 := 65535

/-- The assertion of `fix_int`. -/
def fixIntAsserts (n : Int32) : Bool := -fixMaxInt ≤ n && n ≤ fixMaxInt

def fixInt (n : Int32) : FixedPoint := ⟨n * fixF⟩

def fixFrac (n d : Int32) : FixedPoint := ⟨.ofInt ((n.toInt * fixF.toInt).tdiv d.toInt)⟩

def fixRound (x : FixedPoint) : Int32 := (x.f + fixF / 2) / fixF

/-- `fix_trunc`. -/
def fixTrunc (x : FixedPoint) : Int32 := x.f / fixF

def fixAdd (x y : FixedPoint) : FixedPoint := ⟨x.f + y.f⟩

def fixSub (x y : FixedPoint) : FixedPoint := ⟨x.f - y.f⟩

def fixMul (x y : FixedPoint) : FixedPoint := ⟨.ofInt ((x.f.toInt * y.f.toInt).tdiv fixF.toInt)⟩

def fixScale (x : FixedPoint) (n : Int32) : FixedPoint := ⟨x.f * n⟩

def fixDiv (x y : FixedPoint) : FixedPoint := ⟨.ofInt ((x.f.toInt * fixF.toInt).tdiv y.f.toInt)⟩

def fixUnscale (x : FixedPoint) (n : Int32) : FixedPoint := ⟨x.f / n⟩

/-- The number that is meant. -/
def FixedPoint.value (x : FixedPoint) : ℚ := x.f.toInt / 65536

/-- 100 times the number, as an integer. -/
def hundredfold (x : FixedPoint) : Int32 := fixRound (fixScale x 100)

variable {x : FixedPoint} {n : Int32}

theorem toInt_fixF : fixF.toInt = 65536 := rfl

/-! ## Rounding -/

theorem toInt_fixRound (hsum : Fits (x.f.toInt + 32768)) :
    (fixRound x).toInt = (x.f.toInt + 32768).tdiv 65536 := by
  have hhalf : (fixF / 2).toInt = 32768 := by decide
  unfold fixRound
  rw [toInt_div (by rw [toInt_fixF]; decide), toInt_fixF, toInt_add (by rw [hhalf]; exact hsum), hhalf]

theorem toInt_fixUnscale (hn : 0 < n.toInt) : (fixUnscale x n).f.toInt = x.f.toInt.tdiv n.toInt :=
  toInt_div hn

theorem toInt_fixScale (hfits : Fits (x.f.toInt * n.toInt)) :
    (fixScale x n).f.toInt = x.f.toInt * n.toInt := toInt_mul hfits

/-- An integer nearest to 100 times the number, which is computed without overflow. -/
structure IsHundredfold (r : Int32) (x : FixedPoint) : Prop where
  scaled : Fits (x.f.toInt * 100)
  summed : Fits (x.f.toInt * 100 + 32768)
  nearest : |(r.toInt : ℚ) - 100 * x.value| ≤ 1 / 2

/-- From 0 to 327.68 less a bit, just below 0, or negative
with an odd number of eighths and no more. -/
def Reportable (x : FixedPoint) : Prop :=
  -327 ≤ x.f.toInt ∧ x.f.toInt ≤ 21474508 ∨
    -21474836 ≤ x.f.toInt ∧ x.f.toInt < 0 ∧ x.f.toInt % 16384 = 8192

instance decidableReportable (x : FixedPoint) : Decidable (Reportable x) := by
  unfold Reportable
  infer_instance

/-- An integer is nearest if it is so after scaling. -/
theorem nearest_iff {r z : Int} : |(r : ℚ) - (z : ℚ) / 65536| ≤ 1 / 2 ↔ |65536 * r - z| ≤ 32768 := by
  have hcast : ((65536 * r - z : Int) : ℚ) = 65536 * ((r : ℚ) - (z : ℚ) / 65536) := by
    push_cast
    ring
  have habs : ((|65536 * r - z| : Int) : ℚ) = 65536 * |(r : ℚ) - (z : ℚ) / 65536| := by
    rw [Int.cast_abs, hcast, abs_mul, abs_of_pos (by norm_num : (0 : ℚ) < 65536)]
  constructor
  · intro h
    have hle : ((|65536 * r - z| : Int) : ℚ) ≤ (32768 : Int) := by
      rw [habs]
      push_cast
      linarith
    exact_mod_cast hle
  · intro h
    have hle : ((|65536 * r - z| : Int) : ℚ) ≤ (32768 : Int) := by exact_mod_cast h
    rw [habs] at hle
    push_cast at hle
    linarith

/-- The report is right exactly for the values that the condition names. -/
theorem isHundredfold_iff (x : FixedPoint) : IsHundredfold (hundredfold x) x ↔ Reportable x := by
  have hrange := fits_toInt x.f
  have hround : Fits (x.f.toInt * 100) → Fits (x.f.toInt * 100 + 32768) →
      (|((hundredfold x).toInt : ℚ) - 100 * x.value| ≤ 1 / 2 ↔
        -32768 ≤ x.f.toInt * 100 ∨ (65536 : Int) ∣ x.f.toInt * 100 + 32768) := by
    intro hscaled hsummed
    have hscale : (fixScale x 100).f.toInt = x.f.toInt * 100 := toInt_fixScale hscaled
    have hres : (hundredfold x).toInt = (x.f.toInt * 100 + 32768).tdiv 65536 := by
      unfold hundredfold
      rw [toInt_fixRound (by rw [hscale]; exact hsummed), hscale]
    have hcast : 100 * x.value = ((x.f.toInt * 100 : Int) : ℚ) / 65536 := by
      unfold FixedPoint.value
      push_cast
      ring
    rw [hres, hcast, nearest_iff]
    exact round_nearest_iff (h := 32768) (by decide)
  constructor
  · rintro ⟨hscaled, hsummed, hnear⟩
    rw [hround hscaled hsummed] at hnear
    unfold Fits at hscaled hsummed
    unfold Reportable
    rcases hnear with hle | hdvd
    · exact .inl ⟨by omega, by omega⟩
    · omega
  · intro h
    have hscaled : Fits (x.f.toInt * 100) := by
      unfold Reportable at h
      unfold Fits
      omega
    have hsummed : Fits (x.f.toInt * 100 + 32768) := by
      unfold Reportable at h
      unfold Fits
      omega
    refine ⟨hscaled, hsummed, (hround hscaled hsummed).mpr ?_⟩
    unfold Reportable at h
    omega

/-! ## The operations -/

/-- A call of a function that returns a fixed-point number. -/
inductive FixOp where
  | int (n : Int32)
  | frac (n d : Int32)
  | add (x y : FixedPoint)
  | sub (x y : FixedPoint)
  | mul (x y : FixedPoint)
  | scale (x : FixedPoint) (n : Int32)
  | div (x y : FixedPoint)
  | unscale (x : FixedPoint) (n : Int32)

namespace FixOp

/-- The assertions; `fix_div` has none, but divides. -/
def asserts : FixOp → Bool
  | int n => fixIntAsserts n
  | frac n d => d ≠ 0 && fixIntAsserts (n / d)
  | scale _ n => 0 ≤ n
  | div _ y => y.f ≠ 0
  | unscale _ n => 0 < n
  | _ => true

/-- What the function returns. -/
def run : FixOp → FixedPoint
  | int n => fixInt n
  | frac n d => fixFrac n d
  | add x y => fixAdd x y
  | sub x y => fixSub x y
  | mul x y => fixMul x y
  | scale x n => fixScale x n
  | div x y => fixDiv x y
  | unscale x n => fixUnscale x n

/-- What it should return. -/
def exact : FixOp → ℚ
  | int n => n.toInt
  | frac n d => n.toInt / d.toInt
  | add x y => x.value + y.value
  | sub x y => x.value - y.value
  | mul x y => x.value * y.value
  | scale x n => x.value * n.toInt
  | div x y => x.value / y.value
  | unscale x n => x.value / n.toInt

/-- The integer that is computed, if there is no overflow. -/
def wide : FixOp → Int
  | int n => n.toInt * 65536
  | frac n d => (n.toInt * 65536).tdiv d.toInt
  | add x y => x.f.toInt + y.f.toInt
  | sub x y => x.f.toInt - y.f.toInt
  | mul x y => (x.f.toInt * y.f.toInt).tdiv 65536
  | scale x n => x.f.toInt * n.toInt
  | div x y => (x.f.toInt * 65536).tdiv y.f.toInt
  | unscale x n => x.f.toInt.tdiv n.toInt

/-- It is cut to 32 bits. -/
theorem toInt_run (op : FixOp) : op.run.f.toInt = op.wide.bmod (2 ^ 32) := by
  cases op with
  | int n => exact Int32.toInt_mul n fixF
  | frac n d => exact Int32.toInt_ofInt
  | add x y => exact Int32.toInt_add x.f y.f
  | sub x y => exact Int32.toInt_sub x.f y.f
  | mul x y => exact Int32.toInt_ofInt
  | scale x n => exact Int32.toInt_mul x.f n
  | div x y => exact Int32.toInt_ofInt
  | unscale x n => exact Int32.toInt_div x.f n

theorem toInt_ne_zero {n : Int32} (h : n ≠ 0) : n.toInt ≠ 0 := fun h0 => h (Int32.toInt_inj.mp h0)

/-- It is the exact value without what is below the last bit. -/
theorem wide_truncates {op : FixOp} (h : op.asserts = true) : Truncates op.wide (65536 * op.exact) := by
  cases op with
  | int n =>
      have hq : 65536 * (int n).exact = (((int n).wide : Int) : ℚ) := by
        simp only [exact, wide]
        push_cast
        ring
      rw [hq]
      exact truncates_intCast _
  | frac n d =>
      have hd : d.toInt ≠ 0 := toInt_ne_zero (by simpa using (Bool.and_eq_true_iff.mp h).1)
      have hq : 65536 * (frac n d).exact = ((n.toInt * 65536 : Int) : ℚ) / d.toInt := by
        simp only [exact]
        push_cast
        ring
      rw [hq]
      exact truncates_tdiv _ hd
  | add x y =>
      have hq : 65536 * (add x y).exact = (((add x y).wide : Int) : ℚ) := by
        simp only [exact, wide, FixedPoint.value]
        push_cast
        ring
      rw [hq]
      exact truncates_intCast _
  | sub x y =>
      have hq : 65536 * (sub x y).exact = (((sub x y).wide : Int) : ℚ) := by
        simp only [exact, wide, FixedPoint.value]
        push_cast
        ring
      rw [hq]
      exact truncates_intCast _
  | mul x y =>
      have hq : 65536 * (mul x y).exact = ((x.f.toInt * y.f.toInt : Int) : ℚ) / (65536 : Int) := by
        simp only [exact, FixedPoint.value]
        push_cast
        ring
      rw [hq]
      exact truncates_tdiv _ (by decide)
  | scale x n =>
      have hq : 65536 * (scale x n).exact = (((scale x n).wide : Int) : ℚ) := by
        simp only [exact, wide, FixedPoint.value]
        push_cast
        ring
      rw [hq]
      exact truncates_intCast _
  | div x y =>
      have hd : y.f.toInt ≠ 0 := toInt_ne_zero (by simpa [asserts] using h)
      have hd' : (y.f.toInt : ℚ) ≠ 0 := Int.cast_ne_zero.mpr hd
      have hq : 65536 * (div x y).exact = ((x.f.toInt * 65536 : Int) : ℚ) / y.f.toInt := by
        simp only [exact, FixedPoint.value]
        push_cast
        field_simp
      rw [hq]
      exact truncates_tdiv _ hd
  | unscale x n =>
      have hd : n.toInt ≠ 0 := by
        refine toInt_ne_zero ?_
        rintro rfl
        simp [asserts] at h
      have hq : 65536 * (unscale x n).exact = (x.f.toInt : ℚ) / n.toInt := by
        simp only [exact, FixedPoint.value]
        ring
      rw [hq]
      exact truncates_tdiv _ hd

/-- There is no overflow, and the result is the exact value, truncated to a multiple of `2 ^ -16`. -/
structure Exact (op : FixOp) : Prop where
  fits : Fits op.wide
  truncates : Truncates op.run.f.toInt (65536 * op.exact)

/-- The exact value is in the range of the type, before it is truncated. -/
def InRange (op : FixOp) : Prop := -32768 - 1 / 65536 < op.exact ∧ op.exact < 32768

/-- Each operation is exact when the true result is in range, and only then. -/
theorem exact_iff {op : FixOp} (h : op.asserts = true) : op.Exact ↔ op.InRange := by
  have htrunc := wide_truncates h
  have hscaled : op.InRange ↔ -2 ^ 31 - 1 < 65536 * op.exact ∧ 65536 * op.exact < 2 ^ 31 := by
    unfold InRange
    constructor
    · rintro ⟨hlo, hhi⟩
      exact ⟨by linarith, by linarith⟩
    · rintro ⟨hlo, hhi⟩
      exact ⟨by linarith, by linarith⟩
  rw [hscaled, ← htrunc.fits_iff]
  constructor
  · exact fun hexact => hexact.fits
  · intro hfits
    refine ⟨hfits, ?_⟩
    rw [op.toInt_run, hfits.bmod]
    exact htrunc

end FixOp

/-! ## Integers and back -/

/-- An integer comes back from the format exactly if it fits into 16 bits. -/
theorem fixTrunc_fixInt_iff (hn : fixIntAsserts n = true) :
    fixTrunc (fixInt n) = n ↔ -32768 ≤ n.toInt ∧ n.toInt ≤ 32767 := by
  obtain ⟨hlo, hhi⟩ := Bool.and_eq_true_iff.mp hn
  have hlo' : -65535 ≤ n.toInt := Int32.le_iff_toInt_le.mp (of_decide_eq_true hlo)
  have hhi' : n.toInt ≤ 65535 := Int32.le_iff_toInt_le.mp (of_decide_eq_true hhi)
  have hres : (fixTrunc (fixInt n)).toInt = (fixInt n).f.toInt.tdiv 65536 := toInt_div (by decide)
  have hint : (fixInt n).f.toInt = (n.toInt * 65536).bmod (2 ^ 32) := Int32.toInt_mul n fixF
  -- the product is off by 2 ^ 32, and the quotient by 65536, where it does not fit
  have hwrap : ∃ k, (fixInt n).f.toInt = 65536 * (n.toInt + 65536 * k) ∧
      (k = 0 ↔ -32768 ≤ n.toInt ∧ n.toInt ≤ 32767) := by
    rw [hint, Int.bmod_def]
    rcases lt_or_ge n.toInt (-32768) with h | h
    · exact ⟨1, by omega, by omega⟩
    · rcases lt_or_ge 32767 n.toInt with h' | h'
      · exact ⟨-1, by omega, by omega⟩
      · exact ⟨0, by omega, by omega⟩
  obtain ⟨k, hk, hzero⟩ := hwrap
  rw [← Int32.toInt_inj, hres, hk, Int.mul_tdiv_cancel_left _ (by decide), ← hzero]
  omega

/-! ## Rounding -/

/-- The nearest integer. -/
def IsNearest (r : Int32) (x : FixedPoint) : Prop := |(r.toInt : ℚ) - x.value| ≤ 1 / 2

/-- From -0.5 to 32767.49…, or a negative number that is half way between two integers. -/
def Roundable (x : FixedPoint) : Prop :=
  x.f.toInt < 2 ^ 31 - 32768 ∧ (-32768 ≤ x.f.toInt ∨ x.f.toInt % 65536 = 32768)

/-- `fix_round` gives the nearest integer exactly for the values that the condition names. -/
theorem isNearest_iff (x : FixedPoint) : IsNearest (fixRound x) x ↔ Roundable x := by
  obtain ⟨hlo, hhi⟩ := fits_toInt x.f
  unfold IsNearest FixedPoint.value Roundable
  rw [nearest_iff]
  rcases lt_or_ge x.f.toInt (2 ^ 31 - 32768) with hlt | hge
  · have hsum : Fits (x.f.toInt + 32768) := ⟨by omega, by omega⟩
    have hround := round_nearest_iff (h := 32768) (x := x.f.toInt) (by decide)
    rw [toInt_fixRound hsum]
    have hmul : (2 : Int) * 32768 = 65536 := rfl
    rw [hmul] at hround
    rw [hround, and_iff_right hlt]
    omega
  · -- the sum is negative, and the number is not
    have hneg : (x.f + fixF / 2).toInt < 0 := by
      have hhalf : (fixF / 2).toInt = 32768 := by decide
      rw [Int32.toInt_add, hhalf, Int.bmod_def]
      omega
    have hres : (fixRound x).toInt ≤ 0 := by
      have hdiv : (fixRound x).toInt = (x.f + fixF / 2).toInt.tdiv 65536 := toInt_div (by decide)
      rw [hdiv, tdiv_of_neg hneg]
      have hnn := Int.ediv_nonneg (a := -(x.f + fixF / 2).toInt) (b := 65536) (by omega) (by decide)
      omega
    refine iff_of_false (fun h => ?_) (fun h => absurd h.1 (by omega))
    rw [abs_le] at h
    omega

/-! ## All of them -/

/-- For the numbers that the assertions let pass: conversion there and back is the identity on the 16 bit
integers, and each operation is exact, and rounding gives a nearest integer, for the operands named. -/
theorem fixed_point_exact_iff (n : Int32) (op : FixOp) (x : FixedPoint) :
    (fixIntAsserts n = true →
      (fixTrunc (fixInt n) = n ↔ -32768 ≤ n.toInt ∧ n.toInt ≤ 32767)) ∧
    (op.asserts = true → |op.exact| ≤ fixMaxInt.toInt → (op.Exact ↔ op.InRange)) ∧
    (IsNearest (fixRound x) x ↔ Roundable x) :=
  ⟨fixTrunc_fixInt_iff, fun h _ => FixOp.exact_iff h, isNearest_iff x⟩

/-- One, and the sum of one and one. -/
theorem fixed_point_exact_one :
    fixTrunc (fixInt 1) = 1 ∧ (FixOp.add (fixInt 1) (fixInt 1)).Exact ∧
      IsNearest (fixRound (fixInt 1)) (fixInt 1) := by
  have hone : (fixInt 1).f.toInt = 65536 := by decide
  have hmax : fixMaxInt.toInt = 65535 := by decide
  have htwo : (FixOp.add (fixInt 1) (fixInt 1)).exact = 2 := by
    show ((fixInt 1).f.toInt : ℚ) / 65536 + (fixInt 1).f.toInt / 65536 = 2
    rw [hone]
    norm_num
  obtain ⟨hint, hop, hround⟩ :=
    fixed_point_exact_iff 1 (FixOp.add (fixInt 1) (fixInt 1)) (fixInt 1)
  refine ⟨(hint (by decide)).mpr (by decide), (hop rfl ?_).mpr ?_,
    hround.mpr ⟨by decide, .inl (by decide)⟩⟩
  · rw [htwo, hmax]
    norm_num
  · unfold FixOp.InRange
    rw [htwo]
    norm_num

/-- `fix_round` of -0.75 is 0. -/
theorem fixRound_misses : ¬ ((∀ n, fixIntAsserts n = true → fixTrunc (fixInt n) = n) ∧
    (∀ op : FixOp, op.asserts = true → |op.exact| ≤ fixMaxInt.toInt → op.Exact) ∧
    ∀ x, IsNearest (fixRound x) x) := by
  intro hall
  have hround : Roundable ⟨-49152⟩ := (isNearest_iff ⟨-49152⟩).mp (hall.2.2 ⟨-49152⟩)
  unfold Roundable at hround
  exact absurd hround (by decide)

end CS162.Kernel
