/-
# `CS162.Runtime.Arithmetic` — `lib/arithmetic.c`

64-bit division for a processor that divides 64 by 32 bits.  `divl` traps when the quotient does
not fit into 32 bits (`none`); signed arithmetic wraps.

The quotients are right and nothing traps.  For a divisor of more than 32 bits the first guess
is right or one too large (`estimate`).  The remainders are cut to 32 bits, because `umod64` and
`smod64` are declared to return `uint32_t` and `int32_t`, so they are right as long as they fit
(`division_right_iff`).
-/
import Mathlib.Algebra.Order.Ring.Nat
import Mathlib.Data.UInt
import Mathlib.Tactic.Ring

namespace CS162.Runtime

/-- `divl`. -/
def divl (n : UInt64) (d : UInt32) : Option UInt32 :=
  if d = 0 ∨ 2 ^ 32 ≤ n / d.toUInt64 then none else some (n / d.toUInt64).toUInt32

/-- One test of `nlz`, of the count and what is left of the number. -/
def nlzTest (most k : UInt32) (n x : UInt32) : UInt32 × UInt32 :=
  if x ≤ most then (n + k, x <<< k) else (n, x)

/-- `nlz`. -/
def nlz (x : UInt32) : UInt32 :=
  let r := nlzTest 0x0000FFFF 16 0 x
  let r := nlzTest 0x00FFFFFF 8 r.1 r.2
  let r := nlzTest 0x0FFFFFFF 4 r.1 r.2
  let r := nlzTest 0x3FFFFFFF 2 r.1 r.2
  if r.2 ≤ 0x7FFFFFFF then r.1 + 1 else r.1

/-- `udiv64`. -/
def udiv64 (n d : UInt64) : Option UInt64 :=
  if d >>> 32 = 0 then
    let b := (1 : UInt64) <<< 32
    let n1 := (n >>> 32).toUInt32
    let n0 := n.toUInt32
    let d0 := d.toUInt32
    (divl (b * (n1 % d0).toUInt64 + n0.toUInt64) d0).map fun q =>
      q.toUInt64 + b * (n1 / d0).toUInt64
  else if n < d then some 0
  else
    let d1 := (d >>> 32).toUInt32
    let s := nlz d1
    (divl (n >>> 1) ((d <<< s.toUInt64) >>> 32).toUInt32).map fun q =>
      let q := (q >>> (31 - s)).toUInt64
      if n - (q - 1) * d < d then q - 1 else q

/-- `umod64`. -/
def umod64 (n d : UInt64) : Option UInt32 := (udiv64 n d).map fun q => (n - d * q).toUInt32

/-- The absolute value, as `sdiv64` computes it. -/
def absolute (n : Int64) : UInt64 := if 0 ≤ n then n.toUInt64 else -n.toUInt64

/-- `sdiv64`. -/
def sdiv64 (n d : Int64) : Option Int64 :=
  (udiv64 (absolute n) (absolute d)).map fun q =>
    if (n < 0) = (d < 0) then q.toInt64 else -q.toInt64

/-- `smod64`. -/
def smod64 (n d : Int64) : Option Int32 := (sdiv64 n d).map fun q => (n - d * q).toInt32

/-- `__divdi3`. -/
def divdi3 (n d : Int64) : Option Int64 := sdiv64 n d

/-- `__moddi3`. -/
def moddi3 (n d : Int64) : Option Int64 := (smod64 n d).map Int32.toInt64

/-- `__udivdi3`. -/
def udivdi3 (n d : UInt64) : Option UInt64 := udiv64 n d

/-- `__umoddi3`. -/
def umoddi3 (n d : UInt64) : Option UInt64 := (umod64 n d).map UInt32.toUInt64

/-! ## The instruction -/

/-- The instruction traps only if the quotient does not fit into 32 bits. -/
theorem divl_eq {n : UInt64} {d : UInt32} (hd : 0 < d.toNat) (hfits : n.toNat / d.toNat < 2 ^ 32) :
    ∃ q, divl n d = some q ∧ q.toNat = n.toNat / d.toNat := by
  have hquot : (n / d.toUInt64).toNat = n.toNat / d.toNat := by
    rw [UInt64.toNat_div, UInt32.toNat_toUInt64]
  have hzero : d ≠ 0 := by
    rintro rfl
    exact absurd hd (Nat.lt_irrefl _)
  have hsmall : ¬ 2 ^ 32 ≤ n / d.toUInt64 := by
    rw [UInt64.le_iff_toNat_le, hquot]
    have hpow : (2 ^ 32 : UInt64).toNat = 2 ^ 32 := by decide
    omega
  refine ⟨(n / d.toUInt64).toUInt32, if_neg (not_or.mpr ⟨hzero, hsmall⟩), ?_⟩
  rw [UInt64.toNat_toUInt32, hquot]
  exact Nat.mod_eq_of_lt hfits

/-! ## Leading zeros -/

/-- The number `x` is shifted by `n`, which leaves at least `lo` and room for `room` more. -/
structure Shifted (x n x' : UInt32) (lo room : Nat) : Prop where
  value : x'.toNat = x.toNat * 2 ^ n.toNat
  least : lo ≤ x'.toNat
  most : n.toNat + room ≤ 32

/-- Each test halves the room. -/
theorem Shifted.test {x n x' m k : UInt32} {j : Nat} (h : Shifted x n x' (2 ^ (32 - 2 * j)) (2 * j))
    (hk : k.toNat = j) (hj : 0 < j) (hmost : m.toNat + 1 = 2 ^ (32 - j)) :
    Shifted x (nlzTest m k n x').1 (nlzTest m k n x').2 (2 ^ (32 - j)) j := by
  obtain ⟨hval, hlo, hroom⟩ := h
  have hpow : 2 ^ (32 - j) * 2 ^ j = 2 ^ 32 := by
    rw [← Nat.pow_add, Nat.sub_add_cancel (by omega)]
  unfold nlzTest
  by_cases hle : x' ≤ m
  · rw [if_pos hle]
    rw [UInt32.le_iff_toNat_le] at hle
    have hfits : x'.toNat * 2 ^ j < 2 ^ 32 := by
      rw [← hpow]
      exact Nat.mul_lt_mul_of_pos_right (by omega) (Nat.two_pow_pos j)
    have hmod : j % 32 = j := Nat.mod_eq_of_lt (by omega)
    have hshift : (x' <<< k).toNat = x'.toNat * 2 ^ j := by
      rw [UInt32.toNat_shiftLeft, hk, hmod, Nat.shiftLeft_eq]
      exact Nat.mod_eq_of_lt hfits
    have hsum : (n + k).toNat = n.toNat + j := by
      rw [UInt32.toNat_add, hk]
      exact Nat.mod_eq_of_lt (by omega)
    refine ⟨?_, ?_, ?_⟩
    · rw [hshift, hsum, hval, Nat.pow_add, Nat.mul_assoc]
    · rw [hshift]
      calc 2 ^ (32 - j) = 2 ^ (32 - 2 * j) * 2 ^ j := by
            rw [← Nat.pow_add]
            congr 1
            omega
        _ ≤ x'.toNat * 2 ^ j := Nat.mul_le_mul_right _ hlo
    · rw [hsum]
      omega
  · rw [if_neg hle]
    rw [UInt32.le_iff_toNat_le] at hle
    exact ⟨hval, by dsimp only; omega, by dsimp only; omega⟩

theorem nlzTest_count (most k n x : UInt32) :
    (nlzTest most k n x).1 = if x ≤ most then n + k else n := by
  unfold nlzTest
  split <;> rfl

/-- `nlz` counts the zeros in front: shifted by it, the number has its highest bit set. -/
theorem nlz_spec {x : UInt32} (hx : 0 < x.toNat) :
    (nlz x).toNat ≤ 31 ∧ 2 ^ 31 ≤ x.toNat * 2 ^ (nlz x).toNat ∧ x.toNat * 2 ^ (nlz x).toNat < 2 ^ 32 := by
  have h₀ : Shifted x 0 x (2 ^ (32 - 2 * 16)) (2 * 16) := ⟨(Nat.mul_one _).symm, hx, le_rfl⟩
  have h₁ := h₀.test (m := 0x0000FFFF) (k := 16) rfl (by decide) (by decide)
  have h₂ := Shifted.test (j := 8) h₁ (m := 0x00FFFFFF) (k := 8) rfl (by decide) (by decide)
  have h₃ := Shifted.test (j := 4) h₂ (m := 0x0FFFFFFF) (k := 4) rfl (by decide) (by decide)
  have h₄ := Shifted.test (j := 2) h₃ (m := 0x3FFFFFFF) (k := 2) rfl (by decide) (by decide)
  obtain ⟨n, x', h, hnlz⟩ : ∃ n x', Shifted x n x' (2 ^ (32 - 2 * 1)) (2 * 1) ∧
      nlz x = if x' ≤ 0x7FFFFFFF then n + 1 else n := ⟨_, _, h₄, rfl⟩
  -- the last test only counts
  obtain ⟨hval, hlo, hroom⟩ := h.test (m := 0x7FFFFFFF) (k := 1) rfl (by decide) (by decide)
  rw [nlzTest_count, ← hnlz] at hval hroom
  exact ⟨Nat.le_of_succ_le_succ hroom, hlo.trans hval.le, hval.ge.trans_lt (UInt32.toNat_lt _)⟩

/-! ## Division of unsigned numbers -/

/-- `n` is divided by the 32 highest bits of `d`, `2 ^ s * d` being below `2 ^ 64`.  The result is
the quotient by `d` or one more.  Here `p` is the weight of the lowest bit of the 32. -/
theorem estimate {n d v p s : Nat} (hn : n < 2 ^ 64) (hs : s ≤ 31) (hp : p * 2 ^ s = 2 ^ 32)
    (hlo : v * p ≤ d) (hhi : d < v * p + p) (hv : 2 ^ 31 ≤ v) :
    n / d ≤ n / (v * p) ∧ n / (v * p) ≤ n / d + 1 := by
  have hp0 : 0 < p := by
    rcases Nat.eq_zero_or_pos p with rfl | h
    · rw [Nat.zero_mul] at hp
      exact absurd hp (by decide)
    · exact h
  have hD0 : 0 < v * p := Nat.mul_pos (by omega) hp0
  refine ⟨Nat.div_le_div_left hlo hD0, ?_⟩
  by_contra hgt
  have hge : n / d + 2 ≤ n / (v * p) := by omega
  have hmul : (n / d + 2) * (v * p) ≤ n := (Nat.le_div_iff_mul_le hD0).mp hge
  have hlt : n < (n / d + 1) * d := by
    rw [Nat.mul_comm]
    exact Nat.lt_mul_div_succ n (Nat.lt_of_lt_of_le hD0 hlo)
  -- what is cut off `d` counts `n / d + 1` times, and that is not enough for another `v * p`
  have hcount : n / d + 1 ≤ 2 ^ (s + 1) := by
    refine Nat.div_lt_of_lt_mul (hn.trans_le ?_)
    calc 2 ^ 64 = 2 ^ 31 * 2 ^ 32 * 2 := by decide
      _ = 2 ^ 31 * p * 2 ^ (s + 1) := by
        rw [← hp]
        ring
      _ ≤ d * 2 ^ (s + 1) := Nat.mul_le_mul_right _ ((Nat.mul_le_mul_right p hv).trans hlo)
  obtain ⟨e, he⟩ := Nat.exists_eq_add_of_le hlo
  have hcut : v * p < (n / d + 1) * e := by
    have hexpand : (n / d + 1) * d = (n / d + 1) * (v * p) + (n / d + 1) * e := by
      rw [← Nat.mul_add, ← he]
    have hexpand' : (n / d + 2) * (v * p) = (n / d + 1) * (v * p) + v * p := by ring
    omega
  have hmost : (n / d + 1) * e ≤ 2 ^ (s + 1) * (p - 1) := Nat.mul_le_mul hcount (by omega)
  have hall : 2 ^ (s + 1) * (p - 1) + 2 ^ (s + 1) = 2 ^ 33 := by
    calc 2 ^ (s + 1) * (p - 1) + 2 ^ (s + 1) = 2 ^ (s + 1) * (p - 1 + 1) := by ring
      _ = 2 * (p * 2 ^ s) := by
        rw [Nat.sub_add_cancel hp0]
        ring
      _ = 2 ^ 33 := by
        rw [hp]
        decide
  have hD : 2 ^ 31 * p ≤ v * p := Nat.mul_le_mul_right p hv
  have hpos := Nat.two_pow_pos (s + 1)
  generalize 2 ^ (s + 1) * (p - 1) = most at hmost hall
  rcases Nat.lt_or_ge s 31 with hs' | hs'
  · have hp4 : 4 ≤ p := by
      have hpow : 2 ^ s ≤ 2 ^ 30 := Nat.pow_le_pow_right (by decide) (by omega)
      have hle : p * 2 ^ s ≤ p * 2 ^ 30 := Nat.mul_le_mul_left p hpow
      omega
    omega
  · obtain rfl : s = 31 := by omega
    omega

/-- The divisor is shifted to the left as far as it goes, and its highest 32 bits are taken. -/
theorem normalise {d s : Nat} (hs : s ≤ 31) (hlo : 2 ^ 31 ≤ d / 2 ^ 32 * 2 ^ s)
    (hhi : d / 2 ^ 32 * 2 ^ s < 2 ^ 32) :
    d * 2 ^ s < 2 ^ 64 ∧ 2 ^ 31 ≤ d * 2 ^ s / 2 ^ 32 ∧ d * 2 ^ s / 2 ^ 32 * 2 ^ (32 - s) ≤ d ∧
      d < d * 2 ^ s / 2 ^ 32 * 2 ^ (32 - s) + 2 ^ (32 - s) := by
  have hp : 2 ^ (32 - s) * 2 ^ s = 2 ^ 32 := by
    rw [← Nat.pow_add, Nat.sub_add_cancel (by omega)]
  have hs0 := Nat.two_pow_pos s
  have htop : d / 2 ^ 32 < 2 ^ (32 - s) := by
    refine Nat.lt_of_mul_lt_mul_right (a := 2 ^ s) ?_
    rw [hp]
    exact hhi
  refine ⟨?_, ?_, ?_, ?_⟩
  · have hlt : d < 2 ^ 32 * 2 ^ (32 - s) := by
      have hle := Nat.mul_le_mul_left (2 ^ 32) htop
      rw [Nat.mul_succ] at hle
      omega
    calc d * 2 ^ s < 2 ^ 32 * 2 ^ (32 - s) * 2 ^ s := Nat.mul_lt_mul_of_pos_right hlt hs0
      _ = 2 ^ 64 := by
        rw [Nat.mul_assoc, hp]
        decide
  · rw [Nat.le_div_iff_mul_le (by decide)]
    calc 2 ^ 31 * 2 ^ 32 ≤ d / 2 ^ 32 * 2 ^ s * 2 ^ 32 := Nat.mul_le_mul_right _ hlo
      _ = d / 2 ^ 32 * 2 ^ 32 * 2 ^ s := Nat.mul_right_comm ..
      _ ≤ d * 2 ^ s := Nat.mul_le_mul_right _ (Nat.div_mul_le_self ..)
  · refine Nat.le_of_mul_le_mul_right ?_ hs0
    rw [Nat.mul_assoc, hp]
    exact Nat.div_mul_le_self ..
  · refine Nat.lt_of_mul_lt_mul_right (a := 2 ^ s) ?_
    rw [Nat.add_mul, Nat.mul_assoc, hp]
    have hlt := Nat.lt_mul_div_succ (d * 2 ^ s) (b := 2 ^ 32) (by decide)
    rw [Nat.mul_succ, Nat.mul_comm (2 ^ 32)] at hlt
    exact hlt

/-- The guess is corrected. -/
theorem corrected {n d q : UInt64} (hd : 0 < d.toNat) (hle : d.toNat ≤ n.toNat)
    (hlo : n.toNat / d.toNat ≤ q.toNat) (hhi : q.toNat ≤ n.toNat / d.toNat + 1) :
    (if n - (q - 1) * d < d then q - 1 else q).toNat = n.toNat / d.toNat := by
  have hn := n.toNat_lt
  have hone : 1 ≤ n.toNat / d.toNat := Nat.div_pos hle hd
  have hpred : (q - 1).toNat = q.toNat - 1 :=
    UInt64.toNat_sub_of_le _ _ (by rw [UInt64.le_iff_toNat_le]; exact hone.trans hlo)
  have hmul := Nat.div_mul_le_self n.toNat d.toNat
  have hprod : (q.toNat - 1) * d.toNat ≤ n.toNat := (Nat.mul_le_mul_right _ (by omega)).trans hmul
  have hprod' : ((q - 1) * d).toNat = (q.toNat - 1) * d.toNat := by
    rw [UInt64.toNat_mul, hpred]
    exact Nat.mod_eq_of_lt (by omega)
  have hsub : (n - (q - 1) * d).toNat = n.toNat - (q.toNat - 1) * d.toNat := by
    rw [UInt64.toNat_sub_of_le _ _ (by rw [UInt64.le_iff_toNat_le, hprod']; exact hprod), hprod']
  have hrem : n.toNat < n.toNat / d.toNat * d.toNat + d.toNat := by
    rw [← Nat.succ_mul, Nat.mul_comm]
    exact Nat.lt_mul_div_succ _ hd
  rcases Nat.lt_or_ge (n.toNat / d.toNat) q.toNat with hgt | hge
  · have hq : q.toNat - 1 = n.toNat / d.toNat := by omega
    rw [if_pos (by rw [UInt64.lt_iff_toNat_lt, hsub, hq]; omega), hpred, hq]
  · have hq : q.toNat = n.toNat / d.toNat := by omega
    have hsucc : (q.toNat - 1) * d.toNat + d.toNat = n.toNat / d.toNat * d.toNat := by
      rw [← Nat.succ_mul, Nat.succ_eq_add_one, Nat.sub_add_cancel (hone.trans hlo), hq]
    rw [if_neg (by rw [UInt64.lt_iff_toNat_lt, hsub]; omega), hq]

/-- A divisor of 32 bits: at most two divisions, the second with the remainder of the first, so that
neither traps. -/
theorem udiv64_small {n d : UInt64} (hd : 0 < d.toNat) (hsmall : d.toNat < 2 ^ 32) :
    ∃ q, udiv64 n d = some q ∧ q.toNat = n.toNat / d.toNat := by
  have hn := n.toNat_lt
  have hhigh : d >>> 32 = 0 := by
    rw [← UInt64.toNat_inj, UInt64.toNat_shiftRight]
    show d.toNat >>> 32 = 0
    rw [Nat.shiftRight_eq_div_pow]
    exact Nat.div_eq_of_lt hsmall
  have hd0 : d.toUInt32.toNat = d.toNat := by
    rw [UInt64.toNat_toUInt32]
    exact Nat.mod_eq_of_lt hsmall
  have hn1 : (n >>> 32).toUInt32.toNat = n.toNat / 2 ^ 32 := by
    rw [UInt64.toNat_toUInt32, UInt64.toNat_shiftRight]
    show n.toNat >>> 32 % 2 ^ 32 = _
    rw [Nat.shiftRight_eq_div_pow]
    exact Nat.mod_eq_of_lt (by omega)
  have hn0 : n.toUInt32.toNat = n.toNat % 2 ^ 32 := UInt64.toNat_toUInt32 n
  have hb : ((1 : UInt64) <<< 32).toNat = 2 ^ 32 := by decide
  let n₁ := (n >>> 32).toUInt32
  let d₀ := d.toUInt32
  have hrem : (n₁ % d₀).toNat = n.toNat / 2 ^ 32 % d.toNat := by rw [UInt32.toNat_mod, hn1, hd0]
  have hquot : (n₁ / d₀).toNat = n.toNat / 2 ^ 32 / d.toNat := by rw [UInt32.toNat_div, hn1, hd0]
  have hlt := Nat.mod_lt (n.toNat / 2 ^ 32) hd
  have hin : ((1 : UInt64) <<< 32 * (n₁ % d₀).toUInt64 + n.toUInt32.toUInt64).toNat =
      2 ^ 32 * (n.toNat / 2 ^ 32 % d.toNat) + n.toNat % 2 ^ 32 := by
    rw [UInt64.toNat_add, UInt64.toNat_mul, hb, UInt32.toNat_toUInt64, UInt32.toNat_toUInt64, hrem, hn0]
    omega
  -- the quotient of what is left fits into 32 bits
  have hfits : (2 ^ 32 * (n.toNat / 2 ^ 32 % d.toNat) + n.toNat % 2 ^ 32) / d.toNat < 2 ^ 32 := by
    refine Nat.div_lt_of_lt_mul ?_
    have hle : 2 ^ 32 * (n.toNat / 2 ^ 32 % d.toNat + 1) ≤ 2 ^ 32 * d.toNat := Nat.mul_le_mul_left _ hlt
    omega
  obtain ⟨q, hq, hqval⟩ := divl_eq (n := (1 : UInt64) <<< 32 * (n₁ % d₀).toUInt64 + n.toUInt32.toUInt64)
    (d := d₀) (by rw [hd0]; exact hd) (by rw [hin, hd0]; exact hfits)
  rw [hin, hd0] at hqval
  refine ⟨q.toUInt64 + (1 : UInt64) <<< 32 * (n₁ / d₀).toUInt64, ?_, ?_⟩
  · unfold udiv64
    rw [if_pos hhigh]
    exact congrArg (Option.map fun q => q.toUInt64 + (1 : UInt64) <<< 32 * (n₁ / d₀).toUInt64) hq
  · have hdiv : n.toNat / d.toNat = (2 ^ 32 * (n.toNat / 2 ^ 32 % d.toNat) + n.toNat % 2 ^ 32) / d.toNat +
        2 ^ 32 * (n.toNat / 2 ^ 32 / d.toNat) := by
      have hsplit : n.toNat = 2 ^ 32 * (n.toNat / 2 ^ 32 % d.toNat) + n.toNat % 2 ^ 32 +
          d.toNat * (2 ^ 32 * (n.toNat / 2 ^ 32 / d.toNat)) := by
        have hfull := Nat.mod_add_div n.toNat (2 ^ 32)
        have hhigh := Nat.mod_add_div (n.toNat / 2 ^ 32) d.toNat
        calc n.toNat = n.toNat % 2 ^ 32 + 2 ^ 32 * (n.toNat / 2 ^ 32 % d.toNat +
              d.toNat * (n.toNat / 2 ^ 32 / d.toNat)) := by rw [hhigh, hfull]
          _ = _ := by ring
      conv_lhs => rw [hsplit]
      rw [Nat.add_mul_div_left _ _ hd]
    have hlast : n.toNat / d.toNat < 2 ^ 64 := (Nat.div_le_self _ _).trans_lt hn
    rw [UInt64.toNat_add, UInt64.toNat_mul, hb, UInt32.toNat_toUInt64, UInt32.toNat_toUInt64, hquot,
      hqval]
    rw [hdiv] at hlast ⊢
    omega

/-- A divisor of more than 32 bits: the quotient is estimated from the divisor's first 32 bits; the
estimate is right or one too much, and the last test finds out which. -/
theorem udiv64_large {n d : UInt64} (hlarge : 2 ^ 32 ≤ d.toNat) :
    ∃ q, udiv64 n d = some q ∧ q.toNat = n.toNat / d.toNat := by
  have hn := n.toNat_lt
  have hdlt := d.toNat_lt
  have hhigh : (d >>> 32).toNat = d.toNat / 2 ^ 32 := by
    rw [UInt64.toNat_shiftRight]
    exact Nat.shiftRight_eq_div_pow ..
  have hne : ¬ d >>> 32 = 0 := by
    rw [← UInt64.toNat_inj, hhigh]
    exact (Nat.div_pos hlarge (by decide)).ne'
  unfold udiv64
  rw [if_neg hne]
  by_cases hlt : n < d
  · rw [if_pos hlt]
    rw [UInt64.lt_iff_toNat_lt] at hlt
    exact ⟨0, rfl, (Nat.div_eq_of_lt hlt).symm⟩
  rw [if_neg hlt]
  rw [UInt64.lt_iff_toNat_lt, Nat.not_lt] at hlt
  have hd1 : (d >>> 32).toUInt32.toNat = d.toNat / 2 ^ 32 := by
    rw [UInt64.toNat_toUInt32, hhigh]
    exact Nat.mod_eq_of_lt (by omega)
  obtain ⟨hs, hlo, hhi⟩ := nlz_spec (x := (d >>> 32).toUInt32)
    (by rw [hd1]; exact Nat.div_pos hlarge (by decide))
  obtain ⟨s, hnlz⟩ : ∃ s, nlz (d >>> 32).toUInt32 = s := ⟨_, rfl⟩
  rw [hd1, hnlz] at hlo hhi
  rw [hnlz] at hs
  obtain ⟨hfits, hv, hle, hge⟩ := normalise hs hlo hhi
  have hshift : (d <<< s.toUInt64).toNat = d.toNat * 2 ^ s.toNat := by
    have hmod : s.toNat % 64 = s.toNat := Nat.mod_eq_of_lt (by omega)
    rw [UInt64.toNat_shiftLeft, UInt32.toNat_toUInt64, hmod, Nat.shiftLeft_eq]
    exact Nat.mod_eq_of_lt hfits
  have hdivisor : ((d <<< s.toUInt64) >>> 32).toUInt32.toNat = d.toNat * 2 ^ s.toNat / 2 ^ 32 := by
    rw [UInt64.toNat_toUInt32, UInt64.toNat_shiftRight, hshift]
    show (d.toNat * 2 ^ s.toNat) >>> 32 % 2 ^ 32 = _
    rw [Nat.shiftRight_eq_div_pow]
    exact Nat.mod_eq_of_lt (by omega)
  have hhalf : (n >>> 1).toNat = n.toNat / 2 := by
    rw [UInt64.toNat_shiftRight]
    exact Nat.shiftRight_eq_div_pow ..
  obtain ⟨q, hq, hqval⟩ := divl_eq (n := n >>> 1) (d := ((d <<< s.toUInt64) >>> 32).toUInt32)
    (by rw [hdivisor]; omega)
    (by rw [hhalf, hdivisor]; exact Nat.div_lt_of_lt_mul (by omega))
  rw [hhalf, hdivisor] at hqval
  have hback : (31 - s).toNat = 31 - s.toNat :=
    UInt32.toNat_sub_of_le _ _ (by rw [UInt32.le_iff_toNat_le]; exact hs)
  have hguess : (q >>> (31 - s)).toUInt64.toNat =
      n.toNat / (d.toNat * 2 ^ s.toNat / 2 ^ 32 * 2 ^ (32 - s.toNat)) := by
    have hmod : (31 - s.toNat) % 32 = 31 - s.toNat := Nat.mod_eq_of_lt (by omega)
    have hpow : 2 ^ (32 - s.toNat) = 2 * 2 ^ (31 - s.toNat) := by
      rw [← Nat.pow_succ', Nat.succ_eq_add_one, show 31 - s.toNat + 1 = 32 - s.toNat by omega]
    rw [UInt32.toNat_toUInt64, UInt32.toNat_shiftRight, hback, hmod, Nat.shiftRight_eq_div_pow, hqval,
      Nat.div_div_eq_div_mul, Nat.div_div_eq_div_mul, hpow, Nat.mul_left_comm]
  have hest := estimate hn hs (p := 2 ^ (32 - s.toNat))
    (by rw [← Nat.pow_add, Nat.sub_add_cancel (by omega)]) hle hge hv
  rw [← hguess] at hest
  dsimp only
  rw [hnlz, hq]
  refine ⟨_, rfl, ?_⟩
  exact corrected (by omega) hlt hest.1 hest.2

theorem udiv64_eq {n d : UInt64} (hd : d ≠ 0) :
    ∃ q, udiv64 n d = some q ∧ q.toNat = n.toNat / d.toNat := by
  have hpos : 0 < d.toNat := by
    rw [Nat.pos_iff_ne_zero]
    exact fun h => hd (UInt64.toNat_inj.mp h)
  rcases Nat.lt_or_ge d.toNat (2 ^ 32) with hlt | hge
  · exact udiv64_small hpos hlt
  · exact udiv64_large hge

/-! ## Signed numbers -/

/-- The bits of a signed number. -/
theorem toInt_eq (n : Int64) : n.toInt =
    if n.toUInt64.toNat < 2 ^ 63 then (n.toUInt64.toNat : Int) else n.toUInt64.toNat - 2 ^ 64 := by
  have h := BitVec.toInt_eq_toNat_cond n.toBitVec
  have hbits : n.toBitVec.toNat = n.toUInt64.toNat := rfl
  have hint : n.toBitVec.toInt = n.toInt := rfl
  rw [hbits, hint] at h
  rw [h]
  split <;> split <;> omega

theorem toNat_absolute (n : Int64) : (absolute n).toNat = n.toInt.natAbs := by
  have hlt := n.toUInt64.toNat_lt
  have hint := toInt_eq n
  have hzero : (0 : Int64).toInt = 0 := rfl
  unfold absolute
  by_cases hn : 0 ≤ n
  · rw [if_pos hn]
    rw [Int64.le_iff_toInt_le] at hn
    split at hint <;> omega
  · rw [if_neg hn, UInt64.toNat_neg]
    rw [Int64.le_iff_toInt_le] at hn
    have hsize : UInt64.size = 2 ^ 64 := rfl
    rw [hsize]
    split at hint <;> omega

/-- Truncation toward zero, by the absolute values. -/
theorem tdiv_eq (n d : Int) : n.tdiv d =
    if (n < 0) = (d < 0) then ((n.natAbs / d.natAbs : Nat) : Int)
    else -((n.natAbs / d.natAbs : Nat) : Int) := by
  have hcast : ((n.natAbs / d.natAbs : Nat) : Int) = (n.natAbs : Int).tdiv d.natAbs := Int.ofNat_tdiv ..
  rw [hcast]
  rcases lt_or_ge n 0 with hn | hn <;> rcases lt_or_ge d 0 with hd | hd
  · have hn' : (n.natAbs : Int) = -n := by omega
    have hd' : (d.natAbs : Int) = -d := by omega
    rw [if_pos (by simp only [hn, hd]), hn', hd', Int.neg_tdiv_neg]
  · have hn' : (n.natAbs : Int) = -n := by omega
    have hd' : (d.natAbs : Int) = d := by omega
    rw [if_neg (by simp [hn, Int.not_lt.mpr hd]), hn', hd', Int.neg_tdiv,
      Int.neg_neg]
  · have hn' : (n.natAbs : Int) = n := by omega
    have hd' : (d.natAbs : Int) = -d := by omega
    rw [if_neg (by simp [hd, Int.not_lt.mpr hn]), hn', hd', Int.tdiv_neg,
      Int.neg_neg]
  · have hn' : (n.natAbs : Int) = n := by omega
    have hd' : (d.natAbs : Int) = d := by omega
    rw [if_pos (by simp only [Int.not_lt.mpr hn, Int.not_lt.mpr hd]), hn', hd']

theorem toInt_toInt64 {q : UInt64} (hq : q.toNat < 2 ^ 63) : q.toInt64.toInt = q.toNat := by
  rw [toInt_eq, UInt64.toUInt64_toInt64, if_pos hq]

theorem toInt_neg_toInt64 {q : UInt64} (hq : q.toNat ≤ 2 ^ 63) :
    (-q.toInt64).toInt = -(q.toNat : Int) := by
  have hbits : (-q.toInt64).toUInt64 = -q := rfl
  have hlt := q.toNat_lt
  have hsize : UInt64.size = 2 ^ 64 := rfl
  rw [toInt_eq, hbits, UInt64.toNat_neg, hsize]
  split <;> omega

/-- The signed quotient, by way of the absolute values.  The least number divided by -1 is left out,
where the quotient does not fit. -/
theorem sdiv64_eq {n d : Int64} (hd : d ≠ 0) (hfits : ¬ (n = Int64.minValue ∧ d = -1)) :
    ∃ q, sdiv64 n d = some q ∧ q.toInt = n.toInt.tdiv d.toInt := by
  have hzero : (0 : Int64).toInt = 0 := rfl
  have hd' : d.toInt ≠ 0 := fun h => hd (Int64.toInt_inj.mp h)
  have habs : absolute d ≠ 0 := by
    intro h
    have habs := toNat_absolute d
    rw [h] at habs
    exact hd' (Int.natAbs_eq_zero.mp habs.symm)
  obtain ⟨q, hq, hqval⟩ := udiv64_eq (n := absolute n) habs
  rw [toNat_absolute, toNat_absolute] at hqval
  have hn63 : n.toInt.natAbs ≤ 2 ^ 63 := by
    have hlo := n.le_toInt
    have hhi := n.toInt_lt
    omega
  have hle : q.toNat ≤ n.toInt.natAbs := by
    rw [hqval]
    exact Nat.div_le_self ..
  refine ⟨_, congrArg (Option.map _) hq, ?_⟩
  rw [tdiv_eq, ← hqval]
  simp only [Int64.lt_iff_toInt_lt, hzero]
  by_cases hsign : (n.toInt < 0) = (d.toInt < 0)
  · rw [if_pos hsign, if_pos hsign]
    refine toInt_toInt64 (Nat.lt_of_le_of_ne (hle.trans hn63) fun hmax => hfits ?_)
    -- the quotient is `2 ^ 63` for the excluded pair only
    have hn : n.toInt.natAbs = 2 ^ 63 := Nat.le_antisymm hn63 (hmax ▸ hle)
    have hd1 : d.toInt.natAbs = 1 := by
      have hpos : 0 < d.toInt.natAbs := Int.natAbs_pos.mpr hd'
      have hmul : 2 ^ 63 * d.toInt.natAbs ≤ 2 ^ 63 := by
        calc 2 ^ 63 * d.toInt.natAbs = n.toInt.natAbs / d.toInt.natAbs * d.toInt.natAbs := by
              rw [← hmax, hqval]
          _ ≤ n.toInt.natAbs := Nat.div_mul_le_self ..
          _ = 2 ^ 63 := hn
      omega
    have hhi := n.toInt_lt
    have hneg : n.toInt = -2 ^ 63 := by omega
    have hdneg : d.toInt < 0 := hsign ▸ (by omega)
    have hone : d.toInt = (-1 : Int64).toInt := by
      rw [show (-1 : Int64).toInt = -1 by decide]
      omega
    exact ⟨Int64.toInt_inj.mp (hneg.trans (by decide)), Int64.toInt_inj.mp hone⟩
  · rw [if_neg hsign, if_neg hsign]
    exact toInt_neg_toInt64 (hle.trans hn63)

/-! ## Remainders -/

/-- `__udivdi3` returns the quotient. -/
def QuotientRight (n d : UInt64) : Prop := ∃ q, udivdi3 n d = some q ∧ q.toNat = n.toNat / d.toNat

/-- `__umoddi3` returns the remainder. -/
def RemainderRight (n d : UInt64) : Prop := ∃ r, umoddi3 n d = some r ∧ r.toNat = n.toNat % d.toNat

/-- `__divdi3` returns the quotient, truncated toward zero. -/
def SignedQuotientRight (n d : Int64) : Prop :=
  ∃ q, divdi3 n d = some q ∧ q.toInt = n.toInt.tdiv d.toInt

/-- `__moddi3` returns the remainder, which has the sign of `n`. -/
def SignedRemainderRight (n d : Int64) : Prop :=
  ∃ r, moddi3 n d = some r ∧ r.toInt = n.toInt.tmod d.toInt

/-- `umod64` returns 32 bits of the remainder. -/
theorem umod64_eq {n d : UInt64} (hd : d ≠ 0) :
    ∃ r, umoddi3 n d = some r ∧ r.toNat = n.toNat % d.toNat % 2 ^ 32 := by
  obtain ⟨q, hq, hqval⟩ := udiv64_eq (n := n) hd
  refine ⟨(n - d * q).toUInt32.toUInt64, ?_, ?_⟩
  · unfold umoddi3 umod64
    rw [hq]
    rfl
  · have hle := Nat.mul_div_le n.toNat d.toNat
    have hprod : (d * q).toNat = d.toNat * (n.toNat / d.toNat) := by
      rw [UInt64.toNat_mul, hqval]
      exact Nat.mod_eq_of_lt (hle.trans_lt n.toNat_lt)
    have hsub : (n - d * q).toNat = n.toNat % d.toNat := by
      rw [UInt64.toNat_sub_of_le _ _ (by rw [UInt64.le_iff_toNat_le, hprod]; exact hle), hprod]
      exact (Nat.mod_def ..).symm
    rw [UInt32.toNat_toUInt64, UInt64.toNat_toUInt32, hsub]

theorem smod64_eq {n d : Int64} (hd : d ≠ 0) (hfits : ¬ (n = Int64.minValue ∧ d = -1)) :
    ∃ r, moddi3 n d = some r ∧ r.toInt = (n.toInt.tmod d.toInt).bmod (2 ^ 32) := by
  obtain ⟨q, hq, hqval⟩ := sdiv64_eq hd hfits
  refine ⟨(n - d * q).toInt32.toInt64, ?_, ?_⟩
  · unfold moddi3 smod64
    rw [hq]
    rfl
  · rw [Int32.toInt_toInt64, Int64.toInt_toInt32, Int64.toInt_sub, Int64.toInt_mul, hqval,
      Int.sub_bmod_bmod, Int.bmod_bmod_of_dvd (by decide), Int.tmod_def]

/-- Nothing traps and the quotients are right, and a
remainder is right if and only if it fits into 32 bits. -/
theorem division_right_iff (u v : UInt64) (n d : Int64) (hv : v ≠ 0) (hd : d ≠ 0)
    (hfits : ¬ (n = Int64.minValue ∧ d = -1)) :
    (QuotientRight u v ∧ (umoddi3 u v).isSome ∧ (RemainderRight u v ↔ u.toNat % v.toNat < 2 ^ 32)) ∧
      SignedQuotientRight n d ∧ (moddi3 n d).isSome ∧
        (SignedRemainderRight n d ↔ -2 ^ 31 ≤ n.toInt.tmod d.toInt ∧ n.toInt.tmod d.toInt < 2 ^ 31) := by
  refine ⟨?_, ?_⟩
  · obtain ⟨r, hr, hrval⟩ := umod64_eq (n := u) hv
    refine ⟨udiv64_eq hv, by rw [hr]; rfl, ?_, fun hlt => ⟨r, hr, hrval.trans (Nat.mod_eq_of_lt hlt)⟩⟩
    rintro ⟨r', hr', hright⟩
    obtain rfl := Option.some.inj (hr.symm.trans hr')
    rw [← hright, hrval]
    exact Nat.mod_lt _ (by decide)
  · obtain ⟨r, hr, hrval⟩ := smod64_eq hd hfits
    refine ⟨sdiv64_eq hd hfits, by rw [hr]; rfl, ?_, fun hrange => ⟨r, hr, hrval.trans ?_⟩⟩
    · rintro ⟨r', hr', hright⟩
      obtain rfl := Option.some.inj (hr.symm.trans hr')
      have hbmod := hrval.symm.trans hright
      rw [Int.bmod_eq_iff (by decide)] at hbmod
      omega
    · exact Int.bmod_eq_of_le (by omega) (by omega)

/-- The remainder of 7 by 2. -/
theorem division_right_iff_seven : RemainderRight 7 2 :=
  (division_right_iff 7 2 7 2 (by decide) (by decide) (by decide)).1.2.2.mpr (by decide)

/-- `__umoddi3` loses the remainder of `2 ^ 32` by `2 ^ 33`. -/
theorem remainder_four_gib : ¬ ∀ n d : UInt64, d ≠ 0 → RemainderRight n d := by
  intro h
  obtain ⟨r, hr, hright⟩ := h 0x100000000 0x200000000 (by decide)
  have hzero : umoddi3 0x100000000 0x200000000 = some 0 := by decide
  obtain rfl := Option.some.inj (hzero.symm.trans hr)
  exact absurd hright (by decide)

end CS162.Runtime
