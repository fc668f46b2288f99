/-
# `CS162.Kernel.LoadAvg` — how far `load_avg` goes

`update_load_avg` adds 59/60 of the old value and 1/60 of the number of threads.  Both weights
are cut off to 16 fractional bits, and so are both products.  With at most `N` threads the value
stays between 0 and `N` (`Run.bounded`), and for `N` up to 16383 nothing that is computed with it
overflows.  The factor by which `recent_cpu` decays is then below 1 (`Bounded.decay`).
-/
import Mathlib.Algebra.Order.Field.Basic
import CS162.Kernel.Mlfqs

namespace CS162.Kernel

namespace Mlfqs

open Rounding
open Sched (mainThread idleThread)

variable {s s' : St} {a : Act} {tr : List Entry} {loadAvg : FixedPoint} {n : Int32} {N : Nat}

/-! ## Updates -/

/-- The number of threads that run or are ready to. -/
def St.readyCount (s : St) : Nat := s.readyList.length + if s.current = idleThread then 0 else 1

/-- No more than `N` at the end of a second. -/
def AtMost (N : Nat) (tr : List Entry) : Prop :=
  ∀ y ∈ tr, y.act = .tick → SecondTick y.before → y.before.readyCount ≤ N

theorem AtMost.init {y : Entry} (h : AtMost N (tr ++ [y])) : AtMost N tr :=
  fun x hx => h x (List.mem_append_left _ hx)

theorem AtMost.last {y : Entry} (h : AtMost N (tr ++ [y])) :
    y.act = .tick → SecondTick y.before → y.before.readyCount ≤ N :=
  h y List.mem_concat_self

theorem toInt_readyThreads (hN : N ≤ 16383) (hcnt : s.readyCount ≤ N) :
    s.readyThreads.toInt = s.readyCount := by
  unfold St.readyCount at hcnt
  unfold St.readyThreads St.readyCount
  have hlen : (Int32.ofNat s.readyList.length).toInt = s.readyList.length :=
    Int32.toInt_ofNat_of_lt (by omega)
  by_cases hidle : s.current = idleThread
  · rw [if_pos hidle, if_pos hidle, Int32.add_zero, hlen]
    rfl
  · rw [if_neg hidle] at hcnt
    rw [if_neg hidle, if_neg hidle]
    have hone : (1 : Int32).toInt = 1 := rfl
    rw [toInt_add (by rw [hlen, hone]; exact ⟨by omega, by omega⟩), hlen, hone]
    rfl

theorem threadForeach_loadAvg {f : Thread → Option Thread} (h : s.threadForeach f = some s') :
    s'.loadAvg = s.loadAvg := by
  obtain ⟨thread, -, rfl⟩ := Option.map_eq_some_iff.mp h
  rfl

/-- `load_avg` changes at the end of a second only. -/
theorem tick_loadAvg (h : s.timerInterrupt = some s') :
    s'.loadAvg = if SecondTick s then s.nextLoadAvg else s.loadAvg := by
  obtain ⟨s₁, h₁, h₂⟩ := Option.bind_eq_some_iff.mp h
  have hsame : s₁.loadAvg = s.loadAvg ∧ s₁.readyList = s.readyList ∧ s₁.current = s.current := by
    unfold St.updatePriorities at h₁
    split at h₁
    · obtain ⟨thread, -, rfl⟩ := Option.map_eq_some_iff.mp h₁
      exact ⟨rfl, rfl, rfl⟩
    · cases h₁
      exact ⟨rfl, rfl, rfl⟩
  obtain ⟨hload, hready, hcur⟩ := hsame
  have hnext : s₁.nextLoadAvg = s.nextLoadAvg := by
    unfold St.nextLoadAvg St.readyThreads
    rw [hload, hready, hcur]
  unfold St.updateStatistics at h₂
  by_cases hc : SecondTick s
  · have hc' : Int32.ofInt (s.ticks + 1) % timerFreq = 0 := hc
    rw [if_pos hc]
    rw [if_pos hc'] at h₂
    obtain ⟨s₂, h₃, h₄⟩ := Option.bind_eq_some_iff.mp h₂
    unfold St.updateLoadAvg at h₃
    split at h₃
    · cases h₃
      exact (threadForeach_loadAvg h₄).trans hnext
    · cases h₃
  · have hc' : ¬ Int32.ofInt (s.ticks + 1) % timerFreq = 0 := hc
    rw [if_neg hc]
    rw [if_neg hc'] at h₂
    cases h₂
    exact hload

/-- The load average changes at the tick of a second, and then as the recurrence says. -/
theorem step_loadAvg (h : step s a = some s') :
    s'.loadAvg = s.loadAvg ∨ a = .tick ∧ SecondTick s ∧ s'.loadAvg = s.nextLoadAvg := by
  cases a with
  | tick =>
      have htick := tick_loadAvg h
      split at htick
      · next hsecond => exact .inr ⟨rfl, hsecond, htick⟩
      · exact .inl htick
  | setNice n =>
      rw [threadSetNice_spec h]
      exact .inl rfl
  | switch next ready =>
      obtain ⟨-, rfl⟩ := switch_spec h
      exact .inl rfl
  | create t =>
      obtain ⟨-, rfl⟩ := create_spec h
      exact .inl rfl
  | exit next ready =>
      obtain ⟨-, rfl⟩ := exit_spec h
      exact .inl rfl

/-! ## Bounds -/

/-- The value is between 0 and `N`. -/
structure Bounded (N : Nat) (loadAvg : FixedPoint) : Prop where
  lo : 0 ≤ loadAvg.f.toInt
  hi : loadAvg.f.toInt ≤ 65536 * N

theorem Bounded.value (h : Bounded N loadAvg) : 0 ≤ loadAvg.value ∧ loadAvg.value ≤ N := by
  have hlo : (0 : ℚ) ≤ loadAvg.f.toInt := by exact_mod_cast h.lo
  have hhi : (loadAvg.f.toInt : ℚ) ≤ 65536 * N := by exact_mod_cast h.hi
  unfold FixedPoint.value
  exact ⟨by linarith, by linarith⟩

/-- The weights. -/
theorem toInt_weights : (fixFrac 59 60).f.toInt = 64443 ∧ (fixFrac 1 60).f.toInt = 1092 := by decide

/-- What `update_load_avg` computes for `n` threads fits into 32 bits. -/
structure UpdateSafe (loadAvg : FixedPoint) (n : Int32) : Prop where
  asserts : fixIntAsserts n = true
  threads : Fits (n.toInt * fixF.toInt)
  old : Fits (((fixFrac 59 60).f.toInt * loadAvg.f.toInt).tdiv fixF.toInt)
  new : Fits (((fixFrac 1 60).f.toInt * (fixInt n).f.toInt).tdiv fixF.toInt)
  sum : Fits ((fixMul (fixFrac 59 60) loadAvg).f.toInt + (fixMul (fixFrac 1 60) (fixInt n)).f.toInt)

theorem toInt_fixMul {x y : FixedPoint} (h : Fits ((x.f.toInt * y.f.toInt).tdiv fixF.toInt)) :
    (fixMul x y).f.toInt = (x.f.toInt * y.f.toInt).tdiv fixF.toInt := by
  unfold fixMul
  rw [Int32.toInt_ofInt]
  exact h.bmod

theorem toInt_fixAdd {x y : FixedPoint} (h : Fits (x.f.toInt + y.f.toInt)) :
    (fixAdd x y).f.toInt = x.f.toInt + y.f.toInt := toInt_add h

theorem toInt_fixInt (h : Fits (n.toInt * fixF.toInt)) : (fixInt n).f.toInt = n.toInt * 65536 :=
  toInt_mul h

/-- The products of an update. -/
theorem Bounded.products (h : Bounded N loadAvg) (hN : N ≤ 16383) (hlo : 0 ≤ n.toInt)
    (hhi : n.toInt ≤ N) :
    UpdateSafe loadAvg n ∧ (fixMul (fixFrac 59 60) loadAvg).f.toInt = 64443 * loadAvg.f.toInt / 65536 ∧
      (fixMul (fixFrac 1 60) (fixInt n)).f.toInt = 1092 * n.toInt := by
  obtain ⟨hold, hnew⟩ := toInt_weights
  obtain ⟨hload, hloadN⟩ := h
  have hthreads : Fits (n.toInt * fixF.toInt) := by
    rw [toInt_fixF]
    exact ⟨by omega, by omega⟩
  have hint := toInt_fixInt hthreads
  have hdiv : ((fixFrac 59 60).f.toInt * loadAvg.f.toInt).tdiv fixF.toInt =
      64443 * loadAvg.f.toInt / 65536 := by
    rw [hold, toInt_fixF, Int.tdiv_eq_ediv_of_nonneg (by omega)]
  have hdiv' : ((fixFrac 1 60).f.toInt * (fixInt n).f.toInt).tdiv fixF.toInt = 1092 * n.toInt := by
    rw [hnew, hint, toInt_fixF, Int.tdiv_eq_ediv_of_nonneg (by omega)]
    omega
  have hfit : Fits (64443 * loadAvg.f.toInt / 65536) := ⟨by omega, by omega⟩
  have hfit' : Fits (1092 * n.toInt) := ⟨by omega, by omega⟩
  have hmul := (toInt_fixMul (x := fixFrac 59 60) (by rw [hdiv]; exact hfit)).trans hdiv
  have hmul' := (toInt_fixMul (x := fixFrac 1 60) (by rw [hdiv']; exact hfit')).trans hdiv'
  refine ⟨⟨?_, hthreads, by rw [hdiv]; exact hfit, by rw [hdiv']; exact hfit', ?_⟩, hmul, hmul'⟩
  · have hmax : fixMaxInt.toInt = 65535 := rfl
    have hmin : (-fixMaxInt).toInt = -65535 := rfl
    unfold fixIntAsserts
    rw [Bool.and_eq_true, decide_eq_true_iff, decide_eq_true_iff, Int32.le_iff_toInt_le,
      Int32.le_iff_toInt_le, hmax, hmin]
    omega
  · rw [hmul, hmul']
    exact ⟨by omega, by omega⟩

/-- The weights add up to less than 1. -/
theorem Bounded.update (h : Bounded N s.loadAvg) (hN : N ≤ 16383) (hcnt : s.readyCount ≤ N) :
    Bounded N s.nextLoadAvg := by
  have hn := toInt_readyThreads hN hcnt
  obtain ⟨hsafe, hold, hnew⟩ := h.products (n := s.readyThreads) hN (by omega) (by omega)
  have hsum : s.nextLoadAvg.f.toInt =
      64443 * s.loadAvg.f.toInt / 65536 + 1092 * s.readyThreads.toInt := by
    unfold St.nextLoadAvg
    rw [toInt_fixAdd hsafe.sum, hold, hnew]
  obtain ⟨hlo, hhi⟩ := h
  exact ⟨by omega, by omega⟩

/-- It stays between 0 and any bound on the number of ready threads. -/
theorem Run.bounded (h : Run tr s) (hN : N ≤ 16383) (hcnt : AtMost N tr) : Bounded N s.loadAvg := by
  induction h with
  | nil =>
      refine ⟨by decide, ?_⟩
      have hzero : St.init.loadAvg.f.toInt = 0 := by decide
      omega
  | @snoc s s' a tr hrun hstep ih =>
      have hold := ih hcnt.init
      rcases step_loadAvg hstep with heq | ⟨rfl, hsecond, heq⟩
      · rw [heq]
        exact hold
      · rw [heq]
        exact hold.update hN (hcnt.last rfl hsecond)

/-! ## Decay -/

/-- What `thread_update_recent_cpu` computes with `load_avg`: nothing overflows, the divisor is
at least 1, the quotient is below 1, and a product with it is not larger than the other factor. -/
structure DecaySafe (loadAvg : FixedPoint) : Prop where
  scaled : Fits (loadAvg.f.toInt * (2 : Int32).toInt)
  summed : Fits ((fixScale loadAvg 2).f.toInt + (fixInt 1).f.toInt)
  divisor : 1 ≤ (fixAdd (fixScale loadAvg 2) (fixInt 1)).value
  quotient : Fits (((fixScale loadAvg 2).f.toInt * fixF.toInt).tdiv
    (fixAdd (fixScale loadAvg 2) (fixInt 1)).f.toInt)
  coeff : 0 ≤ (coeff loadAvg).value ∧ (coeff loadAvg).value < 1
  product : ∀ r : FixedPoint, Fits (((Mlfqs.coeff loadAvg).f.toInt * r.f.toInt).tdiv fixF.toInt)
  decays : ∀ r : FixedPoint, |(fixMul (Mlfqs.coeff loadAvg) r).value| ≤ |r.value|

/-- A factor below 1. -/
theorem tdiv_decays {c r : Int} (hlo : 0 ≤ c) (hhi : c < 65536) :
    (0 ≤ r → 0 ≤ (c * r).tdiv 65536 ∧ (c * r).tdiv 65536 ≤ r) ∧
      (r < 0 → r ≤ (c * r).tdiv 65536 ∧ (c * r).tdiv 65536 ≤ 0) := by
  have hnn : ∀ {x : Int}, 0 ≤ x → 0 ≤ c * x / 65536 ∧ c * x / 65536 ≤ x := by
    intro x hx
    have hle : c * x ≤ 65536 * x := Int.mul_le_mul_of_nonneg_right hhi.le hx
    have hge : 0 ≤ c * x := Int.mul_nonneg hlo hx
    omega
  constructor
  · intro hr
    rw [Int.tdiv_eq_ediv_of_nonneg (Int.mul_nonneg hlo hr)]
    exact hnn hr
  · intro hr
    obtain ⟨hge, hle⟩ := hnn (x := -r) (by omega)
    have hneg : (c * r).tdiv 65536 = -(c * -r / 65536) := by
      rw [← Int.tdiv_eq_ediv_of_nonneg (Int.mul_nonneg hlo (by omega)), ← Int.neg_tdiv, Int.mul_neg,
        neg_neg]
    rw [hneg]
    exact ⟨by omega, by omega⟩

/-- In these bounds nothing overflows when the decay is computed. -/
theorem Bounded.decay (h : Bounded N loadAvg) (hN : N ≤ 16383) : DecaySafe loadAvg := by
  obtain ⟨hlo, hhi⟩ := h
  have htwo : (2 : Int32).toInt = 2 := rfl
  have hone : (fixInt 1).f.toInt = 65536 := by decide
  have hscaled : Fits (loadAvg.f.toInt * (2 : Int32).toInt) := by
    rw [htwo]
    exact ⟨by omega, by omega⟩
  have htop : (fixScale loadAvg 2).f.toInt = loadAvg.f.toInt * 2 := toInt_fixScale hscaled
  have hsummed : Fits ((fixScale loadAvg 2).f.toInt + (fixInt 1).f.toInt) := by
    rw [htop, hone]
    exact ⟨by omega, by omega⟩
  have hdiv := (toInt_fixAdd hsummed).trans (by rw [htop, hone])
  have hpos : 0 < loadAvg.f.toInt * 2 + 65536 := by omega
  have hquot : ((fixScale loadAvg 2).f.toInt * fixF.toInt).tdiv
      (fixAdd (fixScale loadAvg 2) (fixInt 1)).f.toInt =
      loadAvg.f.toInt * 2 * 65536 / (loadAvg.f.toInt * 2 + 65536) := by
    rw [hdiv, htop, toInt_fixF, Int.tdiv_eq_ediv_of_nonneg (by omega)]
  have hq0 : 0 ≤ loadAvg.f.toInt * 2 * 65536 / (loadAvg.f.toInt * 2 + 65536) :=
    Int.ediv_nonneg (by omega) hpos.le
  have hq1 : loadAvg.f.toInt * 2 * 65536 / (loadAvg.f.toInt * 2 + 65536) < 65536 := by
    refine Int.ediv_lt_of_lt_mul hpos ?_
    rw [Int.mul_add]
    omega
  have hfits : Fits (loadAvg.f.toInt * 2 * 65536 / (loadAvg.f.toInt * 2 + 65536)) := ⟨by omega, by omega⟩
  have hcoeff : (Mlfqs.coeff loadAvg).f.toInt =
      loadAvg.f.toInt * 2 * 65536 / (loadAvg.f.toInt * 2 + 65536) := by
    unfold Mlfqs.coeff fixDiv
    rw [Int32.toInt_ofInt, hquot]
    exact hfits.bmod
  rw [← hcoeff] at hq0 hq1
  have hproduct : ∀ r : FixedPoint,
      Fits (((Mlfqs.coeff loadAvg).f.toInt * r.f.toInt).tdiv fixF.toInt) ∧
        |((Mlfqs.coeff loadAvg).f.toInt * r.f.toInt).tdiv fixF.toInt| ≤ |r.f.toInt| := by
    intro r
    obtain ⟨hr0, hr1⟩ := fits_toInt r.f
    obtain ⟨hnn, hneg⟩ := tdiv_decays (r := r.f.toInt) hq0 hq1
    rw [toInt_fixF]
    rcases le_or_gt 0 r.f.toInt with hr | hr
    · obtain ⟨hlo, hhi⟩ := hnn hr
      exact ⟨⟨by omega, by omega⟩, by rwa [abs_of_nonneg hlo, abs_of_nonneg hr]⟩
    · obtain ⟨hlo, hhi⟩ := hneg hr
      exact ⟨⟨by omega, by omega⟩, by rw [abs_of_nonpos hhi, abs_of_neg hr]; omega⟩
  refine ⟨hscaled, hsummed, ?_, by rw [hquot]; exact hfits, ⟨?_, ?_⟩, fun r => (hproduct r).1,
    fun r => ?_⟩
  · have hge : (65536 : ℚ) ≤ (fixAdd (fixScale loadAvg 2) (fixInt 1)).f.toInt := by
      rw [hdiv]
      exact_mod_cast (by omega : (65536 : Int) ≤ loadAvg.f.toInt * 2 + 65536)
    unfold FixedPoint.value
    linarith
  · have hge : (0 : ℚ) ≤ (Mlfqs.coeff loadAvg).f.toInt := by exact_mod_cast hq0
    unfold FixedPoint.value
    linarith
  · have hlt : ((Mlfqs.coeff loadAvg).f.toInt : ℚ) < 65536 := by exact_mod_cast hq1
    unfold FixedPoint.value
    linarith
  · have hle : (|((Mlfqs.coeff loadAvg).f.toInt * r.f.toInt).tdiv fixF.toInt| : ℚ) ≤
        |(r.f.toInt : ℚ)| := by
      exact_mod_cast (hproduct r).2
    unfold FixedPoint.value
    rw [toInt_fixMul (hproduct r).1, abs_div, abs_div]
    exact div_le_div_of_nonneg_right hle (abs_nonneg _)

/-- In every run with at most `N` threads: `load_avg` is between 0 and `N`, the next update does
not overflow, and neither does the decay of `recent_cpu`, which makes nothing larger. -/
theorem load_avg_bounded (hN : N ≤ 16383) (h : Run tr s) (hcnt : AtMost N tr) :
    (0 ≤ s.loadAvg.value ∧ s.loadAvg.value ≤ N) ∧ DecaySafe s.loadAvg ∧
      (s.readyCount ≤ N → UpdateSafe s.loadAvg s.readyThreads) := by
  have hbound := h.bounded hN hcnt
  refine ⟨hbound.value, hbound.decay hN, fun hnow => ?_⟩
  have hn := toInt_readyThreads hN hnow
  exact (hbound.products hN (by omega) (by omega)).1

/-- Three threads are ready while a fourth one runs, for two seconds. -/
theorem load_avg_bounded_four : ∃ tr s, Run tr s ∧ AtMost 4 tr ∧ s.readyCount = 4 ∧ s.ticks = 200 ∧
    s.loadAvg = ⟨8663⟩ ∧ (0 ≤ s.loadAvg.value ∧ s.loadAvg.value ≤ 4) ∧ DecaySafe s.loadAvg ∧
      UpdateSafe s.loadAvg s.readyThreads := by
  let s₁ : St := { St.init with readyList := [4, 5, 6] }
  have hticked :
      (s₁.ticked 200).map (fun s => decide (s.loadAvg = ⟨8663⟩)) = some true := by decide +kernel
  obtain ⟨s, h, hload⟩ := Option.map_eq_some_iff.mp hticked
  have hstep : step St.init (.switch mainThread [4, 5, 6]) = some s₁ := rfl
  obtain ⟨tr, -, hrun, htick, hticks, hcur, hready⟩ := (Run.nil.snoc hstep).ticked h
  have hcnt : AtMost 4 (([] ++ [⟨St.init, .switch mainThread [4, 5, 6], s₁⟩]) ++ tr) := by
    intro y hy hact _
    rcases List.mem_append.mp hy with hy | hy
    · rw [List.mem_singleton.mp hy] at hact
      cases hact
    · unfold St.readyCount
      rw [(htick y hy).current, (htick y hy).readyList]
      decide
  have hnow : s.readyCount = 4 := by
    unfold St.readyCount
    rw [hcur, hready]
    decide
  obtain ⟨hvalue, hdecay, hupdate⟩ := load_avg_bounded (N := 4) (by decide) hrun hcnt
  exact ⟨_, s, hrun, hcnt, hnow, hticks, of_decide_eq_true hload, hvalue, hdecay, hupdate hnow.le⟩

end Mlfqs

end CS162.Kernel
