/-
# `CS162.Fs.CacheRefine` — the buffer cache is transparent

The abstract machine is a disk with no cache: a map from sector numbers to
sector contents, read by `slice` and written by `splice`.  `Shows c d` says that
the cache `c` and its device together show the disk `d`: a valid entry holds the
contents of its sector, and a sector no valid entry holds is up to date on the
device.

`Coherent` is the invariant that carries the simulation: valid entries are
labelled with different sectors of the device, and one that is not marked dirty
agrees with the device.  `Quiet` says no entry is pinned, which is what holds
between calls when calls run one after another; it is what makes `cache_evict`
find a victim.

Each function of `fs_cache.c` gets one specification lemma against `Shows`;
`cacheRun_refines` is the induction over a run, and `cacheFlush_spec` says that
a flush brings the device itself up to date.
-/
import CS162.Fs.Cache
import Mathlib.Tactic.Ring

namespace CS162.Fs

open Bytes Wp

namespace Cache

/-! ## The invariant and the disk a cache shows -/

/-- Labels are distinct sectors of the device; clean entries agree with it. -/
structure Coherent (c : Cache) : Prop where
  uniq : ∀ i j, (c.buffCache i).valid = true → (c.buffCache j).valid = true →
    (c.buffCache i).block = (c.buffCache j).block → i = j
  clean : ∀ i, (c.buffCache i).valid = true → (c.buffCache i).dirty = false →
    (c.buffCache i).data = c.fsDevice.data (c.buffCache i).block
  inRange : ∀ i, (c.buffCache i).valid = true → (c.buffCache i).block < c.fsDevice.size

/-- No entry is pinned. -/
def Quiet (c : Cache) : Prop := ∀ i, (c.buffCache i).refCnt = 0

/-- Cache and device together show the disk `d`. -/
structure Shows (c : Cache) (d : UInt32 → Sector) : Prop where
  cached : ∀ i, (c.buffCache i).valid = true → (c.buffCache i).data = d (c.buffCache i).block
  stored : ∀ b, (∀ i, (c.buffCache i).valid = true → (c.buffCache i).block ≠ b) →
    c.fsDevice.data b = d b

/-- The two caches differ at most in `use`, `ref_cnt`, the clock hand and the counters. -/
structure SameData (c c' : Cache) : Prop where
  dev : c'.fsDevice = c.fsDevice
  valid : ∀ i, (c'.buffCache i).valid = (c.buffCache i).valid
  dirty : ∀ i, (c'.buffCache i).dirty = (c.buffCache i).dirty
  block : ∀ i, (c'.buffCache i).block = (c.buffCache i).block
  data : ∀ i, (c'.buffCache i).data = (c.buffCache i).data

variable {c c' : Cache} {d : UInt32 → Sector}

theorem SameData.refl (c : Cache) : SameData c c :=
  ⟨rfl, fun _ => rfl, fun _ => rfl, fun _ => rfl, fun _ => rfl⟩

theorem SameData.trans {c'' : Cache} (h : SameData c c') (h' : SameData c' c'') :
    SameData c c'' :=
  ⟨h'.dev.trans h.dev, fun i => (h'.valid i).trans (h.valid i),
    fun i => (h'.dirty i).trans (h.dirty i), fun i => (h'.block i).trans (h.block i),
    fun i => (h'.data i).trans (h.data i)⟩

theorem Coherent.congr (h : Coherent c) (e : SameData c c') : Coherent c' where
  uniq i j hi hj hb := by
    rw [e.valid] at hi hj
    rw [e.block, e.block] at hb
    exact h.uniq i j hi hj hb
  clean i hv hd := by
    rw [e.valid] at hv
    rw [e.dirty] at hd
    rw [e.data, e.block, e.dev]
    exact h.clean i hv hd
  inRange i hv := by
    rw [e.valid] at hv
    rw [e.block, e.dev]
    exact h.inRange i hv

theorem Shows.congr (h : Shows c d) (e : SameData c c') : Shows c' d where
  cached i hv := by
    rw [e.valid] at hv
    rw [e.data, e.block]
    exact h.cached i hv
  stored b hb := by
    rw [e.dev]
    refine h.stored b fun i hv => ?_
    rw [← e.block i]
    exact hb i (by rw [e.valid]; exact hv)

/-- An entry update that leaves the four data fields alone. -/
theorem sameData_setEnt {i : Fin 64} {e : CacheEnt} (hv : e.valid = (c.buffCache i).valid)
    (hd : e.dirty = (c.buffCache i).dirty) (hb : e.block = (c.buffCache i).block)
    (hx : e.data = (c.buffCache i).data) : SameData c (c.setEnt i e) := by
  refine ⟨rfl, fun j => ?_, fun j => ?_, fun j => ?_, fun j => ?_⟩ <;>
    rw [setEnt_ent] <;> by_cases h : j = i
  all_goals simp [h, hv, hd, hb, hx]

theorem sameData_copyOut (c : Cache) (i : Fin 64) : SameData c (cacheCopyOut c i) :=
  sameData_setEnt rfl rfl rfl rfl

theorem sameData_unpin (c : Cache) (i : Fin 64) : SameData c (cacheUnpin c i) :=
  sameData_setEnt rfl rfl rfl rfl

theorem sameData_pin (c : Cache) (i : Fin 64) : SameData c (cachePin c i) :=
  (sameData_setEnt (i := i) (e := { c.buffCache i with
    refCnt := (c.buffCache i).refCnt + 1 }) rfl rfl rfl rfl).trans
      ⟨rfl, fun _ => rfl, fun _ => rfl, fun _ => rfl, fun _ => rfl⟩

/-- What a cache shows is determined by it. -/
def view (c : Cache) (b : UInt32) : Sector :=
  match (List.finRange 64).find? fun i => (c.buffCache i).valid && (c.buffCache i).block == b with
  | some i => (c.buffCache i).data
  | none => c.fsDevice.data b

theorem view_eq_of_valid (h : Coherent c) {i : Fin 64} (hv : (c.buffCache i).valid = true) :
    c.view (c.buffCache i).block = (c.buffCache i).data := by
  unfold view
  cases hf : (List.finRange 64).find? fun j =>
      (c.buffCache j).valid && (c.buffCache j).block == (c.buffCache i).block with
  | none =>
      have := List.find?_eq_none.mp hf i (List.mem_finRange i)
      simp [hv] at this
  | some j =>
      have hj := List.find?_some hf
      simp only [Bool.and_eq_true, beq_iff_eq] at hj
      rw [h.uniq j i hj.1 hv hj.2]

theorem view_eq_of_absent {b : UInt32}
    (hb : ∀ i, (c.buffCache i).valid = true → (c.buffCache i).block ≠ b) :
    c.view b = c.fsDevice.data b := by
  unfold view
  cases hf : (List.finRange 64).find? fun j =>
      (c.buffCache j).valid && (c.buffCache j).block == b with
  | none => rfl
  | some j =>
      have hj := List.find?_some hf
      simp only [Bool.and_eq_true, beq_iff_eq] at hj
      exact absurd hj.2 (hb j hj.1)

theorem shows_view (h : Coherent c) : Shows c c.view :=
  ⟨fun _ hv => (view_eq_of_valid h hv).symm, fun _ hb => (view_eq_of_absent hb).symm⟩

/-- What a cache shows is determined: the entry of a block
if there is one, and else the sector on the device. -/
theorem Shows.eq_view (h : Shows c d) : d = c.view := by
  funext b
  by_cases hb : ∃ i, (c.buffCache i).valid = true ∧ (c.buffCache i).block = b
  · unfold view
    cases hf : (List.finRange 64).find? fun j =>
        (c.buffCache j).valid && (c.buffCache j).block == b with
    | none =>
        obtain ⟨i, hv, hb⟩ := hb
        have := List.find?_eq_none.mp hf i (List.mem_finRange i)
        simp [hv, hb] at this
    | some j =>
        have hj := List.find?_some hf
        simp only [Bool.and_eq_true, beq_iff_eq] at hj
        show d b = (c.buffCache j).data
        rw [h.cached j hj.1, hj.2]
  · have hb' : ∀ i, (c.buffCache i).valid = true → (c.buffCache i).block ≠ b :=
      fun i hv he => hb ⟨i, hv, he⟩
    rw [view_eq_of_absent hb', h.stored b hb']

end Cache

open Cache

/-! ## Initialisation -/

theorem buffCacheInit_coherent (c : Cache) : Coherent (buffCacheInit c) where
  uniq i j hi := by simp [buffCacheInit] at hi
  clean i hi := by simp [buffCacheInit] at hi
  inRange i hi := by simp [buffCacheInit] at hi

theorem buffCacheInit_quiet (c : Cache) : Quiet (buffCacheInit c) := fun _ => rfl

theorem buffCacheInit_shows (c : Cache) : Shows (buffCacheInit c) c.fsDevice.data where
  cached i hi := by simp [buffCacheInit] at hi
  stored _ _ := rfl

/-! ## The scan of `cache_find_ent` -/

section Scan

variable {ents : Fin 64 → CacheEnt} {b : UInt32}

theorem cacheScanFrom_hit {i : Fin 64} : ∀ (is : List (Fin 64)) (free : Option (Fin 64)),
    cacheScanFrom ents b is free = .hit i → (ents i).valid = true ∧ (ents i).block = b
  | [], _, h => by simp [cacheScanFrom] at h
  | j :: is, free, h => by
      unfold cacheScanFrom at h
      split at h
      · exact cacheScanFrom_hit is _ h
      · rename_i hv
        split at h
        · rename_i hb
          cases h
          exact ⟨by simpa using hv, hb⟩
        · exact cacheScanFrom_hit is _ h

/-- A miss has looked at every entry; the recorded entry is an invalid one. -/
theorem cacheScanFrom_miss {r : Option (Fin 64)} :
    ∀ (is : List (Fin 64)) (free : Option (Fin 64)),
      cacheScanFrom ents b is free = .miss r →
      (∀ i ∈ is, (ents i).valid = true → (ents i).block ≠ b) ∧
      (∀ i, r = some i → (ents i).valid = false ∨ free = some i) ∧
      (r = none → free = none ∧ ∀ i ∈ is, (ents i).valid = true)
  | [], free, h => by
      simp only [cacheScanFrom, Scan.miss.injEq] at h
      subst h
      simpa using fun i hi => Or.inr hi
  | j :: is, free, h => by
      unfold cacheScanFrom at h
      split at h
      · rename_i hv
        obtain ⟨h1, h2, h3⟩ := cacheScanFrom_miss is _ h
        refine ⟨?_, ?_, fun hr => absurd (h3 hr).1 (by simp)⟩
        · intro i hi hvi
          rcases List.mem_cons.mp hi with rfl | hi
          · rw [hv] at hvi; cases hvi
          · exact h1 i hi hvi
        · intro i hi
          rcases h2 i hi with h | h
          · exact Or.inl h
          · cases h; exact Or.inl hv
      · rename_i hv
        split at h
        · cases h
        · rename_i hb
          obtain ⟨h1, h2, h3⟩ := cacheScanFrom_miss is _ h
          refine ⟨?_, h2, fun hr => ⟨(h3 hr).1, ?_⟩⟩
          · intro i hi hvi
            rcases List.mem_cons.mp hi with rfl | hi
            · exact hb
            · exact h1 i hi hvi
          · intro i hi
            rcases List.mem_cons.mp hi with rfl | hi
            · simpa using hv
            · exact (h3 hr).2 i hi

theorem cacheScan_hit {i : Fin 64} (h : cacheScan ents b = .hit i) :
    (ents i).valid = true ∧ (ents i).block = b :=
  cacheScanFrom_hit _ _ h

/-- A scan that finds no entry for the block has seen all of
them, and the free entry that it gives is not valid. -/
theorem cacheScan_miss {r : Option (Fin 64)} (h : cacheScan ents b = .miss r) :
    (∀ i, (ents i).valid = true → (ents i).block ≠ b) ∧
    (∀ i, r = some i → (ents i).valid = false) ∧
    (r = none → ∀ i, (ents i).valid = true) := by
  obtain ⟨h1, h2, h3⟩ := cacheScanFrom_miss _ _ h
  refine ⟨fun i => h1 i (List.mem_finRange i), fun i hi => ?_,
    fun hr i => (h3 hr).2 i (List.mem_finRange i)⟩
  rcases h2 i hi with h | h
  · exact h
  · cases h

end Scan

/-! ## Eviction -/

/-- What a finished eviction did: the victim is unpinned, written back if it was
dirty, and now invalid and clean; nothing else but `use` bits changed. -/
structure Evicted (c : Cache) (i : Fin 64) (c' : Cache) : Prop where
  free : (c.buffCache i).refCnt = 0
  dev : c'.fsDevice = if (c.buffCache i).dirty = true then
      c.fsDevice.write (c.buffCache i).block (c.buffCache i).data else c.fsDevice
  refCnt : ∀ j, (c'.buffCache j).refCnt = (c.buffCache j).refCnt
  block : ∀ j, (c'.buffCache j).block = (c.buffCache j).block
  data : ∀ j, (c'.buffCache j).data = (c.buffCache j).data
  valid : ∀ j, (c'.buffCache j).valid = if j = i then false else (c.buffCache j).valid
  dirty : ∀ j, (c'.buffCache j).dirty = if j = i then false else (c.buffCache j).dirty

theorem passOver_ent (c : Cache) (j : Fin 64) :
    (passOver c).buffCache j = if j = c.clkHand + 1 then
      { c.buffCache (c.clkHand + 1) with use := false } else c.buffCache j :=
  setEnt_ent _ _ _ _

theorem passOver_sameData (c : Cache) : SameData c (passOver c) := by
  refine ⟨rfl, fun j => ?_, fun j => ?_, fun j => ?_, fun j => ?_⟩ <;>
    rw [passOver_ent] <;> split
  all_goals simp_all

theorem passOver_refCnt (c : Cache) (j : Fin 64) :
    ((passOver c).buffCache j).refCnt = (c.buffCache j).refCnt := by
  rw [passOver_ent]
  split
  · next h => subst h; rfl
  · rfl

theorem Evicted.of_passOver {c c' : Cache} {i : Fin 64} (h : Evicted (passOver c) i c') :
    Evicted c i c' := by
  have e := passOver_sameData c
  refine ⟨?_, ?_, fun j => ?_, fun j => ?_, fun j => ?_, fun j => ?_, fun j => ?_⟩
  · rw [← passOver_refCnt]; exact h.free
  · rw [h.dev, e.dirty, e.block, e.data, e.dev]
  · rw [h.refCnt, passOver_refCnt]
  · rw [h.block, e.block]
  · rw [h.data, e.data]
  · rw [h.valid, e.valid]
  · rw [h.dirty, e.dirty]

/-- How far the hand still has to travel before it takes entry `i`: once round
to it, and once more if its `use` bit is set. -/
def handDist (c : Cache) (i : Fin 64) : Nat :=
  (if (i - c.clkHand).val = 0 then 64 else (i - c.clkHand).val) +
    (if (c.buffCache i).use = true then 64 else 0)

theorem handDist_le (c : Cache) (i : Fin 64) : handDist c i ≤ 2 * cacheSize := by
  have := (i - c.clkHand).isLt
  simp only [handDist, cacheSize]
  split <;> split <;> omega

theorem handDist_pos (c : Cache) (i : Fin 64) : 0 < handDist c i := by
  unfold handDist
  split <;> omega

/-- Passing over an entry that is no victim brings the hand one step closer. -/
theorem handDist_passOver {c : Cache} {i : Fin 64}
    (h : i = c.clkHand + 1 → (c.buffCache i).use = true) :
    handDist (passOver c) i + 1 = handDist c i := by
  by_cases hi : i = c.clkHand + 1
  · have hu := h hi
    have h1 : (i - c.clkHand).val = 1 := by
      rw [hi]
      simp only [Fin.sub_def, Fin.add_def, Fin.val_one]
      omega
    have h2 : (i - (passOver c).clkHand).val = 0 := by
      simp [passOver, hi]
    have h3 : ((passOver c).buffCache i).use = false := by
      simp [passOver_ent, hi]
    simp [handDist, h1, h2, h3, hu]
  · have h3 : ((passOver c).buffCache i).use = (c.buffCache i).use := by
      simp [passOver_ent, hi]
    have h4 : (passOver c).clkHand = c.clkHand + 1 := rfl
    have h5 : (i - c.clkHand).val ≠ 1 := by
      intro h1
      apply hi
      apply Fin.ext
      simp only [Fin.sub_def, Fin.add_def, Fin.val_one] at h1 ⊢
      omega
    simp only [handDist, h3, h4]
    have h6 : (i - (c.clkHand + 1)).val =
        if (i - c.clkHand).val = 0 then 63 else (i - c.clkHand).val - 1 := by
      simp only [Fin.sub_def, Fin.add_def]
      have := i.isLt
      have := c.clkHand.isLt
      simp only [Fin.val_one]
      split <;> omega
    have h7 := (i - c.clkHand).isLt
    rw [h6]
    split <;> split <;> omega

theorem wp_blockRead {b : UInt32} {c : Cache} {Q : Sector → Cache → Prop}
    {E : Panic → Cache → Prop} :
    wp (blockRead b) Q E c ↔
      if b < c.fsDevice.size then Q (c.fsDevice.data b) c else E .pastEnd c := by
  simp only [blockRead, wp_bind, wp_get]
  split <;> rfl

theorem wp_blockWrite {b : UInt32} {x : Sector} {c : Cache} {Q : Unit → Cache → Prop}
    {E : Panic → Cache → Prop} :
    wp (blockWrite b x) Q E c ↔
      if b < c.fsDevice.size then Q ⟨⟩ { c with fsDevice := c.fsDevice.write b x }
      else E .pastEnd c := by
  simp only [blockWrite, wp_bind, wp_get]
  split <;> rfl

theorem takeEnt_ent (c : Cache) (dev : BlockDev) (j : Fin 64) :
    (takeEnt c dev).buffCache j = if j = c.clkHand + 1 then
      { c.buffCache (c.clkHand + 1) with dirty := false, valid := false } else c.buffCache j :=
  setEnt_ent _ _ _ _

theorem evicted_takeEnt {c : Cache} {dev : BlockDev}
    (h : (c.buffCache (c.clkHand + 1)).refCnt = 0)
    (hd : dev = if (c.buffCache (c.clkHand + 1)).dirty = true then
      c.fsDevice.write (c.buffCache (c.clkHand + 1)).block (c.buffCache (c.clkHand + 1)).data
      else c.fsDevice) : Evicted c (c.clkHand + 1) (takeEnt c dev) := by
  refine ⟨h, hd, fun j => ?_, fun j => ?_, fun j => ?_, fun j => ?_, fun j => ?_⟩ <;>
    rw [takeEnt_ent] <;> split
  all_goals simp_all

/-- The turn of the loop that takes its entry. -/
theorem cacheEvictLoop_takes {fuel : Nat} {c : Cache}
    (h : (c.buffCache (c.clkHand + 1)).refCnt = 0 ∧ (c.buffCache (c.clkHand + 1)).use = false) :
    wp (cacheEvictLoop (fuel + 1))
      (fun i c' => i = c.clkHand + 1 ∧ c'.clkHand = c.clkHand + 1 ∧ Evicted c (c.clkHand + 1) c')
      (fun e _ => e = .pastEnd ∧ (c.buffCache (c.clkHand + 1)).dirty = true ∧
        ¬ (c.buffCache (c.clkHand + 1)).block < c.fsDevice.size) c := by
  simp only [cacheEvictLoop, wp_bind, wp_modify, wp_get]
  rw [if_pos h]
  by_cases hd : (c.buffCache (c.clkHand + 1)).dirty = true
  · rw [if_pos hd, wp_bind, wp_blockWrite]
    split
    · exact ⟨rfl, rfl, evicted_takeEnt h.1 (by rw [if_pos hd])⟩
    · next hr => exact ⟨rfl, hd, hr⟩
  · rw [if_neg hd]
    exact ⟨rfl, rfl, evicted_takeEnt h.1 (by rw [if_neg hd])⟩

theorem cacheEvictLoop_take {fuel : Nat} {c : Cache} {E : Panic → Cache → Prop}
    (h : (c.buffCache (c.clkHand + 1)).refCnt = 0 ∧ (c.buffCache (c.clkHand + 1)).use = false)
    (hE : (c.buffCache (c.clkHand + 1)).dirty = true →
      ¬ (c.buffCache (c.clkHand + 1)).block < c.fsDevice.size → ∀ c', E .pastEnd c') :
    wp (cacheEvictLoop (fuel + 1)) (Evicted c) E c := by
  refine wp_mono (cacheEvictLoop_takes h) ?_ ?_
  · rintro i c' ⟨rfl, -, hev⟩
    exact hev
  · rintro e c' ⟨rfl, hd, hr⟩
    exact hE hd hr c'

/-- The turn of the loop that passes over its entry. -/
theorem cacheEvictLoop_pass {fuel : Nat} {c : Cache} {Q : Fin 64 → Cache → Prop}
    {E : Panic → Cache → Prop}
    (h : ¬ ((c.buffCache (c.clkHand + 1)).refCnt = 0 ∧ (c.buffCache (c.clkHand + 1)).use = false)) :
    wp (cacheEvictLoop (fuel + 1)) Q E c ↔ wp (cacheEvictLoop fuel) Q E (passOver c) := by
  simp only [cacheEvictLoop, wp_bind, wp_modify, wp_get]
  rw [if_neg h]
  rfl

/-- The clock finds a victim once the hand has had time to come round to an
unpinned entry. -/
theorem cacheEvictLoop_spec : ∀ (fuel : Nat) {c : Cache} {i : Fin 64},
    (∀ j, (c.buffCache j).dirty = true → (c.buffCache j).block < c.fsDevice.size) →
    (c.buffCache i).refCnt = 0 → handDist c i ≤ fuel →
    wp (cacheEvictLoop fuel) (Evicted c) never c
  | 0, c, i, _, _, hf => absurd (handDist_pos c i) (by omega)
  | fuel + 1, c, i, hr, hi, hf => by
      by_cases h : (c.buffCache (c.clkHand + 1)).refCnt = 0 ∧
          (c.buffCache (c.clkHand + 1)).use = false
      · exact cacheEvictLoop_take h (fun hd hn => absurd (hr _ hd) hn)
      · have hp : i = c.clkHand + 1 → (c.buffCache i).use = true := by
          intro he
          by_contra hu
          exact h (he ▸ ⟨hi, by simpa using hu⟩)
        have hdist := handDist_passOver hp
        have e := passOver_sameData c
        rw [cacheEvictLoop_pass h]
        refine wp_mono (cacheEvictLoop_spec fuel (i := i) ?_ ?_ (by omega))
          (fun _ _ hev => hev.of_passOver) (fun _ _ he => he)
        · intro j hj
          rw [e.dirty] at hj
          rw [e.block, e.dev]
          exact hr j hj
        · rw [passOver_refCnt]
          exact hi

/-- `cache_evict` returns as soon as some entry is unpinned. -/
theorem cacheEvict_spec {c : Cache} {i : Fin 64}
    (hr : ∀ j, (c.buffCache j).dirty = true → (c.buffCache j).block < c.fsDevice.size)
    (hi : (c.buffCache i).refCnt = 0) : wp cacheEvict (Evicted c) never c :=
  cacheEvictLoop_spec _ hr hi (handDist_le c i)

/-- If every entry is pinned the clock never finds a victim. -/
theorem cacheEvictLoop_pinned : ∀ (fuel : Nat) {c : Cache},
    (∀ j, (c.buffCache j).refCnt ≠ 0) →
    wp (cacheEvictLoop fuel) (fun _ _ => False) (fun e _ => e = .spin) c
  | 0, _, _ => rfl
  | fuel + 1, c, h => by
      rw [cacheEvictLoop_pass (fun hc => h _ hc.1)]
      exact cacheEvictLoop_pinned fuel (fun j => by rw [passOver_refCnt]; exact h j)

/-- Whatever the loop returns, it returns a proper eviction. -/
theorem cacheEvictLoop_evicted : ∀ (fuel : Nat) {c : Cache},
    wp (cacheEvictLoop fuel) (Evicted c) (fun _ _ => True) c
  | 0, _ => trivial
  | fuel + 1, c => by
      by_cases h : (c.buffCache (c.clkHand + 1)).refCnt = 0 ∧
          (c.buffCache (c.clkHand + 1)).use = false
      · exact cacheEvictLoop_take h (fun _ _ _ => trivial)
      · rw [cacheEvictLoop_pass h]
        exact wp_mono (cacheEvictLoop_evicted fuel) (fun _ _ hev => hev.of_passOver)
          (fun _ _ he => he)

namespace Evicted

variable {c c' : Cache} {i : Fin 64} {d : UInt32 → Sector}

theorem dev_size (h : Evicted c i c') : c'.fsDevice.size = c.fsDevice.size := by
  rw [h.dev]
  split <;> rfl

/-- The device changes at most in the victim's sector. -/
theorem dev_other (h : Evicted c i c') {b : UInt32} (hb : b ≠ (c.buffCache i).block) :
    c'.fsDevice.data b = c.fsDevice.data b := by
  rw [h.dev]
  split
  · rw [BlockDev.write_data, if_neg hb]
  · rfl

/-- After the eviction the victim's sector is up to date on the device. -/
theorem dev_victim (h : Evicted c i c') (hc : Coherent c) (hv : (c.buffCache i).valid = true) :
    c'.fsDevice.data (c.buffCache i).block = (c.buffCache i).data := by
  rw [h.dev]
  split
  · rw [BlockDev.write_data, if_pos rfl]
  · next hd => exact (hc.clean i hv (by simpa using hd)).symm

/-- The entries that an eviction leaves are coherent. -/
theorem coherent (h : Evicted c i c') (hc : Coherent c) (hv : (c.buffCache i).valid = true) :
    Coherent c' where
  uniq j k hj hk hb := by
    rw [h.valid] at hj hk
    rw [h.block, h.block] at hb
    split at hj
    · cases hj
    · split at hk
      · cases hk
      · exact hc.uniq j k hj hk hb
  clean j hj hd := by
    rw [h.valid] at hj
    rw [h.dirty] at hd
    split at hj
    · cases hj
    · next hji =>
        rw [if_neg hji] at hd
        rw [h.data, h.block, h.dev_other, hc.clean j hj hd]
        intro he
        exact hji (hc.uniq j i hj hv he)
  inRange j hj := by
    rw [h.valid] at hj
    rw [h.block, h.dev_size]
    split at hj
    · cases hj
    · exact hc.inRange j hj

/-- A victim that is dirty has been written to its sector, so that the cache shows what it has shown. -/
theorem shows (h : Evicted c i c') (hc : Coherent c) (hv : (c.buffCache i).valid = true)
    (hs : Shows c d) : Shows c' d where
  cached j hj := by
    rw [h.valid] at hj
    rw [h.data, h.block]
    split at hj
    · cases hj
    · exact hs.cached j hj
  stored b hb := by
    by_cases he : b = (c.buffCache i).block
    · rw [he, h.dev_victim hc hv, hs.cached i hv]
    · rw [h.dev_other he]
      refine hs.stored b fun j hj hjb => ?_
      have hji : j ≠ i := fun hji => he (by rw [← hjb, hji])
      exact hb j (by rw [h.valid, if_neg hji]; exact hj) (by rw [h.block]; exact hjb)

end Evicted

/-! ## `cache_find_ent` -/

/-- What `cache_find_ent` leaves behind: the entry is valid, labelled with the
block, pinned once, and everything else is as before. -/
structure Found (d : UInt32 → Sector) (size : UInt32) (b : UInt32) (i : Fin 64) (c' : Cache) :
    Prop where
  coherent : Coherent c'
  shows : Shows c' d
  valid : (c'.buffCache i).valid = true
  block : (c'.buffCache i).block = b
  refCnt : ∀ j, (c'.buffCache j).refCnt = if j = i then 1 else 0
  size : c'.fsDevice.size = size

/-- Labelling an entry and loading it. -/
def loadEnt (c : Cache) (i : Fin 64) (b : UInt32) : Cache :=
  c.setEnt i { c.buffCache i with
    refCnt := (c.buffCache i).refCnt + 1, block := b, valid := true, data := c.fsDevice.data b }

/-- An entry that is not valid is labelled and filled from the device: the cache shows what it has
shown, and has the block. -/
theorem loadEnt_found {c : Cache} {i : Fin 64} {b : UInt32} {d : UInt32 → Sector}
    (hc : Coherent c) (hs : Shows c d) (hq : Quiet c) (hi : (c.buffCache i).valid = false)
    (hb : ∀ j, (c.buffCache j).valid = true → (c.buffCache j).block ≠ b)
    (hr : b < c.fsDevice.size) : Found d c.fsDevice.size b i (loadEnt c i b) where
  coherent :=
    { uniq := by
        intro j k hj hk hjk
        simp only [loadEnt, setEnt_ent] at hj hk hjk
        by_cases h1 : j = i <;> by_cases h2 : k = i <;> simp_all
        · exact absurd rfl (hb k hk)
        · exact hc.uniq j k hj hk hjk
      clean := by
        intro j hj hd
        simp only [loadEnt, setEnt_ent, setEnt_fsDevice] at hj hd ⊢
        by_cases h1 : j = i <;> simp_all
        exact hc.clean j hj hd
      inRange := by
        intro j hj
        simp only [loadEnt, setEnt_ent, setEnt_fsDevice] at hj ⊢
        by_cases h1 : j = i <;> simp_all
        exact hc.inRange j hj }
  shows :=
    { cached := by
        intro j hj
        simp only [loadEnt, setEnt_ent] at hj ⊢
        by_cases h1 : j = i <;> simp_all
        · exact hs.stored b hb
        · exact hs.cached j hj
      stored := by
        intro b' hb'
        refine hs.stored b' fun j hj => ?_
        have := hb' j
        simp only [loadEnt, setEnt_ent] at this
        by_cases h1 : j = i <;> simp_all }
  valid := by simp [loadEnt]
  block := by simp [loadEnt]
  refCnt j := by
    simp only [loadEnt, setEnt_ent]
    by_cases h1 : j = i <;> simp [h1, hq j, hq i]
  size := rfl

/-- The entry picked on a miss is invalid, and picking it changes nothing that shows. -/
structure Picked (d : UInt32 → Sector) (size : UInt32) (b : UInt32) (i : Fin 64) (c' : Cache) :
    Prop where
  coherent : Coherent c'
  shows : Shows c' d
  quiet : Quiet c'
  invalid : (c'.buffCache i).valid = false
  absent : ∀ j, (c'.buffCache j).valid = true → (c'.buffCache j).block ≠ b
  size : c'.fsDevice.size = size

/-- On a miss the entry to use is the free one that the scan has found, or else a victim. -/
theorem cachePick_spec {c : Cache} {b : UInt32} {d : UInt32 → Sector} {free : Option (Fin 64)}
    (hc : Coherent c) (hs : Shows c d) (hq : Quiet c)
    (hscan : cacheScan c.buffCache b = .miss free) :
    wp (cachePick free) (Picked d c.fsDevice.size b) never c := by
  obtain ⟨hno, hfree, hall⟩ := cacheScan_miss hscan
  cases free with
  | some i => exact ⟨hc, hs, hq, hfree i rfl, hno, rfl⟩
  | none =>
      have hv := hall rfl
      refine wp_mono (cacheEvict_spec (i := 0) (fun j _ => hc.inRange j (hv j)) (hq 0)) ?_
        (fun _ _ he => he)
      intro i c' hev
      refine ⟨hev.coherent hc (hv i), hev.shows hc (hv i) hs, fun j => ?_, ?_, fun j hj => ?_,
        hev.dev_size⟩
      · rw [hev.refCnt]
        exact hq j
      · rw [hev.valid, if_pos rfl]
      · rw [hev.block]
        exact hno j (hv j)

/-- `cache_find_ent` returns an entry that holds the block, whether it was there or not. -/
theorem cacheFindEnt_spec {c : Cache} {b : UInt32} {d : UInt32 → Sector}
    (hc : Coherent c) (hs : Shows c d) (hq : Quiet c) (hb : b < c.fsDevice.size) :
    wp (cacheFindEnt b) (Found d c.fsDevice.size b) never c := by
  simp only [cacheFindEnt, wp_bind, wp_get]
  cases hscan : cacheScan c.buffCache b with
  | hit i =>
      obtain ⟨hv, hbi⟩ := cacheScan_hit hscan
      have e := sameData_pin c i
      show Found d c.fsDevice.size b i (cachePin c i)
      refine ⟨hc.congr e, hs.congr e, (e.valid i).trans hv, (e.block i).trans hbi, fun j => ?_,
        rfl⟩
      simp only [cachePin, setEnt_ent]
      by_cases h1 : j = i <;> simp [h1, hq j, hq i]
  | miss free =>
      have e : SameData c { c with missCnt := c.missCnt + 1 } :=
        ⟨rfl, fun _ => rfl, fun _ => rfl, fun _ => rfl, fun _ => rfl⟩
      simp only [cacheClaim, wp_bind, wp_modify, wp_pure]
      refine wp_mono (cachePick_spec (c := { c with missCnt := c.missCnt + 1 }) (hc.congr e)
        (hs.congr e) hq hscan) ?_ (fun _ _ he => he)
      intro i c' hp
      have hb' : b < c'.fsDevice.size := by rw [hp.size]; exact hb
      have hf := loadEnt_found hp.coherent hp.shows hp.quiet hp.invalid hp.absent hb'
      simp only [cacheLoad, wp_bind, wp_blockRead, cacheLabel, setEnt_fsDevice, wp_modify,
        setEnt_self, setEnt_setEnt]
      rw [if_pos hb', ← hp.size]
      exact hf

/-! ## Reads, writes and flushes -/

/-- The state between calls. -/
structure Steady (d : UInt32 → Sector) (size : UInt32) (c : Cache) : Prop where
  coherent : Coherent c
  shows : Shows c d
  quiet : Quiet c
  size : c.fsDevice.size = size

/-- No sector of a device has the number `UNALLOCATED`. -/
theorem ne_unallocated {b size : UInt32} (h : b < size) : b ≠ unallocated := by
  rintro rfl
  have h1 : (4294967295 : UInt32).toNat < size.toNat := h
  have h2 := size.toNat_lt
  simp at h1
  omega

/-- A read gives the bytes that the cache shows, and shows the same afterwards. -/
theorem cacheReadLen_spec {c : Cache} {b size : UInt32} {off len : Nat} {d : UInt32 → Sector}
    (h : Steady d size c) (hb : b < size) :
    wp (cacheReadLen b off len)
      (fun buf c' => buf = (d b).slice off len ∧ Steady d size c') never c := by
  unfold cacheReadLen
  rw [if_neg (ne_unallocated hb)]
  have hb' : b < c.fsDevice.size := by rw [h.size]; exact hb
  refine wp_seq (cacheFindEnt_spec h.coherent h.shows h.quiet hb') ?_
  intro i c' hf
  simp only [wp_bind, wp_get, wp_modify, wp_pure]
  have e : SameData c' (cacheUnpin (cacheCopyOut c' i) i) :=
    (sameData_copyOut c' i).trans (sameData_unpin _ i)
  refine ⟨by rw [hf.shows.cached i hf.valid, hf.block], hf.coherent.congr e, hf.shows.congr e, ?_,
    hf.size.trans h.size⟩
  intro j
  have hj := hf.refCnt j
  have hi := hf.refCnt i
  simp only [cacheUnpin, cacheCopyOut, setEnt_ent]
  by_cases h1 : j = i <;> simp_all

/-- A write changes these bytes of this block in what the cache shows, and nothing else. -/
theorem cacheWriteLen_spec {c : Cache} {b size : UInt32} {off : Nat} {buf : List UInt8}
    {d : UInt32 → Sector} (h : Steady d size c) (hb : b < size) :
    wp (cacheWriteLen b off buf)
      (fun _ c' => Steady (Function.update d b ((d b).splice off buf)) size c') never c := by
  unfold cacheWriteLen
  have hb' : b < c.fsDevice.size := by rw [h.size]; exact hb
  refine wp_seq (cacheFindEnt_spec h.coherent h.shows h.quiet hb') ?_
  intro i c' hf
  have hent : ∀ j, (cacheUnpin (cacheCopyIn c' i off buf) i).buffCache j =
      if j = i then { c'.buffCache i with data := (d b).splice off buf, dirty := true, use := true,
                                          refCnt := 0 } else c'.buffCache j := by
    intro j
    have hi := hf.refCnt i
    simp only [cacheUnpin, cacheCopyIn, setEnt_ent]
    by_cases h1 : j = i <;> simp_all [hf.shows.cached i hf.valid, hf.block]
  simp only [wp_modify]
  refine ⟨⟨?_, ?_, ?_⟩, ⟨?_, ?_⟩, ?_, hf.size.trans h.size⟩
  · intro j k hj hk hjk
    refine hf.coherent.uniq j k ?_ ?_ ?_
    all_goals
      rw [hent] at hj hk
      rw [hent, hent] at hjk
      by_cases h1 : j = i <;> by_cases h2 : k = i <;> simp_all
  · intro j hj hd
    rw [hent] at hj hd
    by_cases h1 : j = i
    · simp_all
    · rw [hent, if_neg h1]
      exact hf.coherent.clean j (by simp_all) (by simp_all)
  · intro j hj
    rw [hent] at hj
    show ((cacheUnpin (cacheCopyIn c' i off buf) i).buffCache j).block < c'.fsDevice.size
    have : ((cacheUnpin (cacheCopyIn c' i off buf) i).buffCache j).block
        = (c'.buffCache j).block := by
      rw [hent]
      by_cases h1 : j = i <;> simp_all
    rw [this]
    exact hf.coherent.inRange j (by by_cases h1 : j = i <;> simp_all [hf.valid])
  · intro j hj
    rw [hent] at hj ⊢
    by_cases h1 : j = i
    · simp [h1, hf.block]
    · rw [if_neg h1] at hj ⊢
      rw [hf.shows.cached j hj, Function.update_of_ne]
      intro he
      exact h1 (hf.coherent.uniq j i hj hf.valid (by rw [he, hf.block]))
  · intro b' hno
    have hne : b' ≠ b := by
      rintro rfl
      refine hno i ?_ ?_
      · rw [hent, if_pos rfl]; exact hf.valid
      · rw [hent, if_pos rfl]; exact hf.block
    rw [Function.update_of_ne hne]
    refine hf.shows.stored b' fun j hj => ?_
    have := hno j
    rw [hent] at this
    by_cases h1 : j = i
    · subst h1; rw [hf.block]; exact hne.symm
    · rw [if_neg h1] at this; exact this hj
  · intro j
    rw [hent]
    by_cases h1 : j = i
    · simp [h1]
    · rw [if_neg h1, hf.refCnt, if_neg h1]

/-- Past the end of the device the miss is found, the load stops the machine. -/
theorem cacheFindEnt_pastEnd {c : Cache} {b : UInt32} (hc : Coherent c) (hq : Quiet c)
    (hb : ¬ b < c.fsDevice.size) :
    wp (cacheFindEnt b) (fun _ _ => False) (fun e _ => e = .pastEnd) c := by
  simp only [cacheFindEnt, wp_bind, wp_get]
  cases hscan : cacheScan c.buffCache b with
  | hit i =>
      obtain ⟨hv, hbi⟩ := cacheScan_hit hscan
      exact absurd (hbi ▸ hc.inRange i hv) hb
  | miss free =>
      have e : SameData c { c with missCnt := c.missCnt + 1 } :=
        ⟨rfl, fun _ => rfl, fun _ => rfl, fun _ => rfl, fun _ => rfl⟩
      simp only [cacheClaim, wp_bind, wp_modify, wp_pure]
      refine wp_mono (cachePick_spec (c := { c with missCnt := c.missCnt + 1 }) (hc.congr e)
        ((shows_view hc).congr e) hq hscan) ?_ (fun _ _ he => he.elim)
      intro i c' hp
      have hb' : ¬ b < c'.fsDevice.size := by rw [hp.size]; exact hb
      simp only [cacheLoad, wp_bind, wp_blockRead, cacheLabel, setEnt_fsDevice]
      rw [if_neg hb']
      trivial

/-- Halfway through a flush: the sectors whose entries are not among those still to
be flushed are up to date on the device. -/
structure Flushing (c : Cache) (d : UInt32 → Sector) (l : List (Fin 64)) (c' : Cache) : Prop where
  ents : c'.buffCache = c.buffCache
  size : c'.fsDevice.size = c.fsDevice.size
  dev : ∀ b, c'.fsDevice.data b = c.fsDevice.data b ∨ c'.fsDevice.data b = d b
  flushed : ∀ b, (∀ i ∈ l, (c.buffCache i).valid = true → (c.buffCache i).block ≠ b) →
    c'.fsDevice.data b = d b

/-- A step of `cache_flush`: the entry's sector is on the device as the cache shows it, and so are those
of the entries before. -/
theorem cacheFlushEnt_spec {c c' : Cache} {d : UInt32 → Sector} {size : UInt32}
    (h : Steady d size c) {i : Fin 64} {l : List (Fin 64)} (hf : Flushing c d (i :: l) c') :
    wp (cacheFlushEnt i) (fun _ c'' => Flushing c d l c'') never c' := by
  simp only [cacheFlushEnt, wp_bind, wp_get]
  refine wp_ite (fun hvd => ?_) (fun hvd => ?_)
  · rw [hf.ents] at hvd ⊢
    have hr : (c.buffCache i).block < c'.fsDevice.size := by
      rw [hf.size]
      exact h.coherent.inRange i hvd.1
    rw [wp_blockWrite, if_pos hr]
    have hdata := h.shows.cached i hvd.1
    refine ⟨hf.ents, hf.size, fun b => ?_, fun b hb => ?_⟩
    · rw [BlockDev.write_data]
      split
      · next hbi => right; rw [hdata, hbi]
      · exact hf.dev b
    · rw [BlockDev.write_data]
      split
      · next hbi => rw [hdata, hbi]
      · next hbi =>
          refine hf.flushed b fun j hj hv => ?_
          rcases List.mem_cons.mp hj with rfl | hj
          · exact fun he => hbi he.symm
          · exact hb j hj hv
  · refine ⟨hf.ents, hf.size, hf.dev, fun b hb => ?_⟩
    rw [hf.ents] at hvd
    by_cases hbi : (c.buffCache i).valid = true ∧ (c.buffCache i).block = b
    · -- a clean entry: the device already held its contents when the flush began
      obtain ⟨hv, rfl⟩ := hbi
      have hd : (c.buffCache i).dirty = false := by
        by_contra hd
        exact hvd ⟨hv, by simpa using hd⟩
      rcases hf.dev (c.buffCache i).block with he | he
      · rw [he, ← h.coherent.clean i hv hd, h.shows.cached i hv]
      · exact he
    · refine hf.flushed b fun j hj hv => ?_
      rcases List.mem_cons.mp hj with rfl | hj
      · exact fun he => hbi ⟨hv, he⟩
      · exact hb j hj hv

/-- After `cache_flush` the device itself holds the disk the cache showed. -/
theorem cacheFlush_spec {c : Cache} {d : UInt32 → Sector} {size : UInt32}
    (h : Steady d size c) :
    wp cacheFlush (fun _ c' => c'.fsDevice.data = d ∧ c'.fsDevice.size = size) never c := by
  have h0 : Flushing c d (List.finRange 64) c :=
    ⟨rfl, rfl, fun _ => Or.inl rfl,
      fun b hb => h.shows.stored b fun i => hb i (List.mem_finRange i)⟩
  refine wp_mono (wp_forM (I := Flushing c d) (fun i l t ht => cacheFlushEnt_spec h ht) _ h0) ?_
    (fun _ _ he => he)
  intro _ c' hf
  exact ⟨funext fun b => hf.flushed b (by simp), hf.size.trans h.size⟩

/-! ## Runs -/

/-- A call to the cache. -/
inductive CacheOp where
  | read (block : UInt32) (offset len : Nat)
  | write (block : UInt32) (offset : Nat) (buffer : List UInt8)

/-- The callers' side of the contract: a sector of the device, and a range inside it. -/
def CacheOp.InBounds (size : UInt32) : CacheOp → Prop
  | .read block offset len => block < size ∧ offset + len ≤ 512
  | .write block offset buffer => block < size ∧ offset + buffer.length ≤ 512

/-- One call; a read gives the bytes it copied out, a write gives none. -/
def CacheOp.run : CacheOp → CacheM (List UInt8)
  | .read block offset len => cacheReadLen block offset len
  | .write block offset buffer => do
      cacheWriteLen block offset buffer
      return []

/-- Calls one after another. -/
def cacheRun : List CacheOp → CacheM (List (List UInt8))
  | [] => return []
  | op :: ops => do
      let r ← op.run
      let rs ← cacheRun ops
      return r :: rs

/-- The same call on a disk without a cache. -/
def CacheOp.onDisk (d : UInt32 → Sector) : CacheOp → List UInt8 × (UInt32 → Sector)
  | .read block offset len => ((d block).slice offset len, d)
  | .write block offset buffer =>
      ([], Function.update d block ((d block).splice offset buffer))

/-- A run on a disk without a cache. -/
def diskRun : List CacheOp → (UInt32 → Sector) → List (List UInt8) × (UInt32 → Sector)
  | [], d => ([], d)
  | op :: ops, d =>
      ((op.onDisk d).1 :: (diskRun ops (op.onDisk d).2).1, (diskRun ops (op.onDisk d).2).2)

theorem CacheOp.run_spec {c : Cache} {d : UInt32 → Sector} {size : UInt32} {op : CacheOp}
    (h : Steady d size c) (hop : op.InBounds size) :
    wp op.run (fun r c' => r = (op.onDisk d).1 ∧ Steady (op.onDisk d).2 size c') never c := by
  cases op with
  | read block offset len => exact cacheReadLen_spec h hop.1
  | write block offset buffer =>
      exact wp_seq (cacheWriteLen_spec h hop.1) fun _ _ hs => ⟨rfl, hs⟩

/-- Every run of the cache is a run of the disk it shows. -/
theorem cacheRun_refines {size : UInt32} : ∀ (ops : List CacheOp) {c : Cache}
    {d : UInt32 → Sector}, Steady d size c → (∀ op ∈ ops, op.InBounds size) →
    wp (cacheRun ops)
      (fun rs c' => rs = (diskRun ops d).1 ∧ Steady (diskRun ops d).2 size c') never c
  | [], _, _, h, _ => ⟨rfl, h⟩
  | op :: ops, c, d, h, hops => by
      refine wp_seq (CacheOp.run_spec h (hops op List.mem_cons_self)) ?_
      rintro r c' ⟨rfl, h'⟩
      refine wp_seq (cacheRun_refines ops h' fun o ho => hops o (List.mem_cons_of_mem _ ho)) ?_
      rintro rs c'' ⟨rfl, h''⟩
      exact ⟨rfl, h''⟩

/-- The state `buff_cache_init` leaves, whatever the memory held before. -/
theorem buffCacheInit_steady (c : Cache) :
    Steady c.fsDevice.data c.fsDevice.size (buffCacheInit c) :=
  ⟨buffCacheInit_coherent c, buffCacheInit_shows c, buffCacheInit_quiet c, rfl⟩

/-- **The buffer cache is transparent.**  After `buff_cache_init`, any sequence of
in-bounds calls returns, reading exactly what a disk without a cache would read
after the same writes; and a `cache_flush` at its end returns with the device
equal to that disk. -/
theorem cache_transparent (c : Cache) (ops : List CacheOp)
    (hops : ∀ op ∈ ops, op.InBounds c.fsDevice.size) :
    ∃ c', cacheRun ops (buffCacheInit c) = .ok (diskRun ops c.fsDevice.data).1 c' ∧
      ∃ c'', cacheFlush c' = .ok ⟨⟩ c'' ∧ c''.fsDevice.data = (diskRun ops c.fsDevice.data).2 := by
  obtain ⟨rs, c', hrun, rfl, hs⟩ :=
    wp_never.mp (cacheRun_refines ops (buffCacheInit_steady c) hops)
  obtain ⟨u, c'', hflush, hd, -⟩ := wp_never.mp (cacheFlush_spec hs)
  exact ⟨c', hrun, c'', hflush, hd⟩

/-- Two writes to one sector of a two-sector device and a read across both. -/
theorem cache_transparent_overlap :
    let c := bootCache ⟨2, fun _ => Block.fill 0⟩
    let ops := [CacheOp.write 1 0 [1, 2, 3], .write 1 1 [9], .read 1 0 4]
    (∀ op ∈ ops, op.InBounds c.fsDevice.size) ∧
      ∃ c', cacheRun ops (buffCacheInit c) = .ok [[], [], [1, 9, 3, 0]] c' := by
  have hops : ∀ op ∈ [CacheOp.write 1 0 [1, 2, 3], .write 1 1 [9], .read 1 0 4],
      op.InBounds (bootCache ⟨2, fun _ => Block.fill 0⟩).fsDevice.size := by
    simp [CacheOp.InBounds, bootCache]
  obtain ⟨c', h, -⟩ := cache_transparent _ _ hops
  exact ⟨hops, c', h⟩

end CS162.Fs
