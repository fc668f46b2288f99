/-
# `CS162.Fs.CacheClock` — which entry the clock takes

`handDist` counts how often the hand moves before it takes an entry that is not pinned: up to once
round to it, and once round more if its `use` bit is set.  All these distances get smaller by one when
the hand passes over an entry, so the entry that is taken is the nearest in this sense
(`cacheEvictLoop_nearest`).  `IsVictim` says the same without counting.
-/
import Mathlib.Data.Finset.Max
import Mathlib.Data.Fintype.Basic
import CS162.Fs.CacheRefine

namespace CS162.Fs

open Bytes Wp

variable {c : Cache} {i j v : Fin 64} {fuel : Nat}

/-! ## The nearest entry -/

theorem handDist_one (h : handDist c i = 1) : i = c.clkHand + 1 := by
  have hval : (i - c.clkHand).val = 1 := by
    unfold handDist at h
    split at h <;> split at h <;> omega
  apply Fin.ext
  simp only [Fin.sub_def, Fin.add_def, Fin.val_one] at hval ⊢
  omega

theorem handDist_hand (h : (c.buffCache (c.clkHand + 1)).use = false) :
    handDist c (c.clkHand + 1) = 1 := by
  have hval : (c.clkHand + 1 - c.clkHand).val = 1 := by
    simp only [Fin.sub_def, Fin.add_def, Fin.val_one]
    omega
  unfold handDist
  rw [hval, h]
  rfl

/-- No other entry that is not pinned is nearer. -/
structure Nearest (c : Cache) (v : Fin 64) : Prop where
  free : (c.buffCache v).refCnt = 0
  least : ∀ j, (c.buffCache j).refCnt = 0 → handDist c v ≤ handDist c j

/-- One step: the entry under the hand is not taken, and everything gets nearer. -/
theorem Nearest.passOver (h : Nearest c v)
    (hpass : ¬ ((c.buffCache (c.clkHand + 1)).refCnt = 0 ∧ (c.buffCache (c.clkHand + 1)).use = false)) :
    Nearest (passOver c) v ∧ handDist (Fs.passOver c) v + 1 = handDist c v := by
  have hstep : ∀ j, (c.buffCache j).refCnt = 0 → handDist (Fs.passOver c) j + 1 = handDist c j := by
    intro j hj
    refine handDist_passOver fun hhand => ?_
    by_contra huse
    exact hpass (hhand ▸ ⟨hj, by simpa using huse⟩)
  refine ⟨⟨?_, fun j hj => ?_⟩, hstep v h.free⟩
  · rw [passOver_refCnt]
    exact h.free
  · rw [passOver_refCnt] at hj
    have hle := h.least j hj
    have hv := hstep v h.free
    have hj' := hstep j hj
    omega

/-- The nearest entry is taken when the hand comes to it. -/
theorem cacheEvictLoop_nearest (h : Nearest c v) (hfuel : handDist c v ≤ fuel) :
    wp (cacheEvictLoop fuel) (fun i c' => i = v ∧ c'.clkHand = v ∧ Evicted c v c')
      (fun e _ => e = .pastEnd ∧ (c.buffCache v).dirty = true ∧
        ¬ (c.buffCache v).block < c.fsDevice.size) c := by
  induction fuel generalizing c with
  | zero => exact absurd (handDist_pos c v) (by omega)
  | succ fuel ih =>
      by_cases htake : (c.buffCache (c.clkHand + 1)).refCnt = 0 ∧
          (c.buffCache (c.clkHand + 1)).use = false
      · have hone := h.least _ htake.1
        rw [handDist_hand htake.2] at hone
        have hpos := handDist_pos c v
        obtain rfl := handDist_one (c := c) (i := v) (by omega)
        exact cacheEvictLoop_takes htake
      · obtain ⟨hnext, hdist⟩ := h.passOver htake
        have hsame := passOver_sameData c
        rw [cacheEvictLoop_pass htake]
        refine wp_mono (ih hnext (by omega)) ?_ ?_
        · rintro i c' ⟨hi, hhand, hev⟩
          exact ⟨hi, hhand, hev.of_passOver⟩
        · rintro e c' ⟨he, hd, hr⟩
          rw [hsame.dirty] at hd
          rw [hsame.block, hsame.dev] at hr
          exact ⟨he, hd, hr⟩

/-- And not before. -/
theorem cacheEvictLoop_before (h : Nearest c v) (hfuel : fuel < handDist c v) :
    wp (cacheEvictLoop fuel) (fun _ _ => False) (fun e _ => e = .spin) c := by
  induction fuel generalizing c with
  | zero => exact rfl
  | succ fuel ih =>
      have hpass : ¬ ((c.buffCache (c.clkHand + 1)).refCnt = 0 ∧
          (c.buffCache (c.clkHand + 1)).use = false) := by
        intro htake
        have hone := h.least _ htake.1
        rw [handDist_hand htake.2] at hone
        omega
      obtain ⟨hnext, hdist⟩ := h.passOver hpass
      rw [cacheEvictLoop_pass hpass]
      exact ih hnext (by omega)

theorem exists_nearest (h : ∃ i, (c.buffCache i).refCnt = 0) : ∃ v, Nearest c v := by
  obtain ⟨i, hi⟩ := h
  obtain ⟨v, hv, hleast⟩ := Finset.exists_min_image
    (Finset.univ.filter fun i => (c.buffCache i).refCnt = 0)
    (handDist c) ⟨i, Finset.mem_filter.mpr ⟨Finset.mem_univ i, hi⟩⟩
  exact ⟨v, (Finset.mem_filter.mp hv).2,
    fun j hj => hleast j (Finset.mem_filter.mpr ⟨Finset.mem_univ j, hj⟩)⟩

/-! ## The victim -/

/-- The place of an entry in the order in which the hand comes by: 1 for the next one, 64 for the
one that the hand is at. -/
def handPlace (c : Cache) (i : Fin 64) : Nat :=
  if (i - c.clkHand).val = 0 then 64 else (i - c.clkHand).val

/-- The first entry behind the hand that is not pinned and
not used, or the first that is not pinned. -/
def IsVictim (c : Cache) (v : Fin 64) : Prop :=
  (c.buffCache v).refCnt = 0 ∧
    ((c.buffCache v).use = false ∧
        (∀ j, handPlace c j < handPlace c v →
          ¬ ((c.buffCache j).refCnt = 0 ∧ (c.buffCache j).use = false)) ∨
      (∀ j, (c.buffCache j).refCnt = 0 → (c.buffCache j).use = true) ∧
        ∀ j, handPlace c j < handPlace c v → (c.buffCache j).refCnt ≠ 0)

theorem handPlace_le (c : Cache) (i : Fin 64) : 1 ≤ handPlace c i ∧ handPlace c i ≤ 64 := by
  have hlt := (i - c.clkHand).isLt
  unfold handPlace
  split <;> omega

theorem handDist_eq (c : Cache) (i : Fin 64) :
    handDist c i = handPlace c i + if (c.buffCache i).use = true then 64 else 0 := rfl

/-- The nearest entry that is not pinned is the victim. -/
theorem Nearest.isVictim (h : Nearest c v) : IsVictim c v := by
  have hv := handPlace_le c v
  have hdist := handDist_eq c v
  refine ⟨h.free, ?_⟩
  cases huse : (c.buffCache v).use with
  | false =>
      refine .inl ⟨rfl, fun j hj ⟨hfree, hunused⟩ => ?_⟩
      have hle := h.least j hfree
      rw [hdist, handDist_eq c j, huse, hunused] at hle
      exact absurd hle (by simpa using hj)
  | true =>
      rw [huse, if_pos rfl] at hdist
      refine .inr ⟨fun j hfree => ?_, fun j hj hfree => ?_⟩
      · by_contra hunused
        have hle := h.least j hfree
        have hj := handPlace_le c j
        rw [hdist, handDist_eq c j, if_neg hunused] at hle
        omega
      · have hle := h.least j hfree
        rw [hdist, handDist_eq c j] at hle
        split at hle <;> omega

/-- `cache_evict` with an entry that is not pinned: the number of times that the hand moves, and
what has changed when it stops. -/
theorem clock_replacement (hfree : ∃ i, (c.buffCache i).refCnt = 0) :
    ∃ v n, IsVictim c v ∧ 0 < n ∧ n ≤ 2 * cacheSize ∧
      (∀ fuel, fuel < n → wp (cacheEvictLoop fuel) (fun _ _ => False) (fun e _ => e = .spin) c) ∧
      ∀ fuel, n ≤ fuel →
        wp (cacheEvictLoop fuel) (fun i c' => i = v ∧ c'.clkHand = v ∧ Evicted c v c')
          (fun e _ => e = .pastEnd ∧ (c.buffCache v).dirty = true ∧
            ¬ (c.buffCache v).block < c.fsDevice.size) c := by
  obtain ⟨v, hv⟩ := exists_nearest hfree
  exact ⟨v, handDist c v, hv.isVictim, handDist_pos c v, handDist_le c v,
    fun _ => cacheEvictLoop_before hv, fun _ => cacheEvictLoop_nearest hv⟩

/-- A cache in use: the hand is at 5 and every entry has been used, the next one is pinned, and the
one after it is dirty. -/
def busyCache : Cache where
  clkHand := ⟨5, by decide⟩
  buffCache := fun i =>
    ⟨UInt32.ofNat i.val, true, i.val = 7, true, if i.val = 6 then 1 else 0,
      Block.fill (if i.val = 7 then 9 else 0)⟩
  hitCnt := 0
  missCnt := 64
  fsDevice := ⟨128, fun _ => Block.fill 0⟩

theorem busyCache_victim : IsVictim busyCache v → v = 7 := by
  unfold IsVictim
  revert v
  decide +kernel

/-- The hand goes round once, takes the `use` bits, and
comes back to entry 7, which is written to its sector. -/
theorem clock_replacement_busy : ∃ n ≤ 2 * cacheSize, ∀ fuel, n ≤ fuel →
    wp (cacheEvictLoop fuel) (fun i c' => i = 7 ∧ c'.clkHand = 7 ∧
      c'.fsDevice = busyCache.fsDevice.write 7 (Block.fill 9) ∧ (c'.buffCache 7).valid = false ∧
        (c'.buffCache 6).refCnt = 1) never busyCache := by
  obtain ⟨v, n, hv, -, hle, -, hrun⟩ := clock_replacement (c := busyCache) ⟨0, rfl⟩
  obtain rfl := busyCache_victim hv
  refine ⟨n, hle, fun fuel hfuel => wp_mono (hrun fuel hfuel) ?_ ?_⟩
  · rintro i c' ⟨hi, hhand, hev⟩
    exact ⟨hi, hhand, hev.dev, hev.valid 7, hev.refCnt 6⟩
  · rintro e c' ⟨-, -, hpast⟩
    exact hpast (by decide)

end CS162.Fs
