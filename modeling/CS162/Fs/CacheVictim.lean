/-
# `CS162.Fs.CacheVictim` — when `cache_evict` has something to evict

`cache_evict` runs with `cache_lock` held, and the decrement of a reference count needs
`cache_lock`: what is pinned when the clock starts stays pinned until it stops.  So the
clock stops if and only if some entry is unpinned when it starts.

An entry is pinned by the threads that have obtained it, all for the same sector, and
two entries are for different sectors.  So the number of pinned entries is the number of
sectors that threads are working on (`inUse`), and the condition is that these are fewer
than `CACHE_SIZE`.  Nothing in `fs_cache.c` sees to that: 64 threads that have obtained
64 sectors, and one more, are enough to stop the file system (`evict_spins`).

`InRange` says that the victim, if dirty, can be written back: no dirty entry has a
sector past the end of the device.
-/
import Mathlib.Algebra.Order.BigOperators.Group.Finset
import Mathlib.Data.Finset.Option
import CS162.Fs.CacheProto

namespace CS162.Fs

open Bytes Wp Cache Threads

variable {T : Type}

/-- The sector a thread is working on. -/
def Pc.sector (p : Pc) : Option UInt32 := p.pin.map fun q => q.1.block

/-- In a call of `cache_read_len` or `cache_write_len`. -/
def Pc.busy : Pc → Bool
  | .idle => false
  | _ => true

/-- A thread is in `cache_evict`: it holds `cache_lock`, and the scan saw neither its
sector nor a free entry. -/
def Proto.Evicting (s : Proto T) (t : T) : Prop :=
  ∃ op, s.pc t = .find op ∧ cacheScan s.cache.buffCache op.block = .miss none

/-! ## What the clock can write back -/

/-- `L` is the set of entries being loaded. -/
structure InRange (c : Cache) (L : Fin 64 → Prop) : Prop where
  inside : ∀ i, (c.buffCache i).valid = true → ¬ L i → (c.buffCache i).block < c.fsDevice.size
  settled : ∀ i, (c.buffCache i).dirty = true → (c.buffCache i).valid = true ∧ ¬ L i

namespace InRange

variable {c c' : Cache} {L L' : Fin 64 → Prop} {i : Fin 64}

theorem dirty (h : InRange c L) (hd : (c.buffCache i).dirty = true) :
    (c.buffCache i).block < c.fsDevice.size := by
  obtain ⟨hv, hl⟩ := h.settled i hd
  exact h.inside i hv hl

theorem init (dev : BlockDev) : InRange (buffCacheInit (bootCache dev)) fun _ => False where
  inside _ hv := by cases hv
  settled _ hd := by cases hd

theorem congr (h : InRange c L) (e : SameData c c') (hL : ∀ i, L' i ↔ L i) : InRange c' L' where
  inside j hv hl := by
    rw [e.valid] at hv
    rw [e.block, e.dev]
    exact h.inside j hv fun hc => hl ((hL j).mpr hc)
  settled j hd := by
    rw [e.dirty] at hd
    obtain ⟨hv, hl⟩ := h.settled j hd
    exact ⟨(e.valid j).trans hv, fun hc => hl ((hL j).mp hc)⟩

/-- An eviction makes one entry invalid, and nothing else is asked of it. -/
theorem evict (h : InRange c L) (hev : Evicted c i c') : InRange c' L where
  inside j hv hl := by
    rw [hev.valid] at hv
    split at hv
    · cases hv
    · rw [hev.block, hev.dev_size]
      exact h.inside j hv hl
  settled j hd := by
    rw [hev.dirty] at hd
    split at hd
    · cases hd
    · next hji =>
      obtain ⟨hv, hl⟩ := h.settled j hd
      rw [hev.valid, if_neg hji]
      exact ⟨hv, hl⟩

/-- An entry with a new label is still to be loaded, and until then may have any. -/
theorem label {b : UInt32} (h : InRange c L) (hi : (c.buffCache i).valid = false)
    (hL : ∀ j, L' j ↔ j = i ∨ L j) : InRange (cacheLabel c i b) L' where
  inside j hv hl := by
    have hji : j ≠ i := fun he => hl ((hL j).mpr (.inl he))
    rw [cacheLabel, setEnt_ent, if_neg hji] at hv ⊢
    exact h.inside j hv fun hc => hl ((hL j).mpr (.inr hc))
  settled j hd := by
    have hji : j ≠ i := by
      rintro rfl
      rw [cacheLabel, setEnt_self] at hd
      have hv := (h.settled j hd).1
      rw [hi] at hv
      cases hv
    rw [cacheLabel, setEnt_ent, if_neg hji] at hd ⊢
    obtain ⟨hv, hl⟩ := h.settled j hd
    exact ⟨hv, fun hc => ((hL j).mp hc).elim hji hl⟩

/-- When it has been loaded, its label has been checked against the end of the device. -/
theorem load {d : Sector} (h : InRange c L) (hi : (c.buffCache i).block < c.fsDevice.size)
    (hL : ∀ j, L' j ↔ j ≠ i ∧ L j) :
    InRange (c.setEnt i { c.buffCache i with data := d }) L' where
  inside j hv hl := by
    rw [setEnt_ent] at hv ⊢
    split at hv
    · next hji =>
      rw [if_pos hji]
      exact hi
    · next hji =>
      rw [if_neg hji]
      exact h.inside j hv fun hc => hl ((hL j).mpr ⟨hji, hc⟩)
  settled j hd := by
    rw [setEnt_ent] at hd ⊢
    split at hd
    · next hji =>
      rw [if_pos hji]
      exact ⟨(h.settled i hd).1, fun hc => ((hL j).mp hc).1 hji⟩
    · next hji =>
      rw [if_neg hji]
      exact ⟨(h.settled j hd).1, fun hc => (h.settled j hd).2 ((hL j).mp hc).2⟩

/-- A write makes an entry dirty that is valid and has been loaded. -/
theorem copyIn {off : Nat} {buf : List UInt8} (h : InRange c L)
    (hv : (c.buffCache i).valid = true) (hi : ¬ L i) (hL : ∀ j, L' j ↔ L j) :
    InRange (cacheCopyIn c i off buf) L' where
  inside j hvj hl := by
    replace hl : ¬ L j := fun hc => hl ((hL j).mpr hc)
    rw [cacheCopyIn, setEnt_ent] at hvj ⊢
    split at hvj
    · next hji =>
      rw [if_pos hji]
      exact h.inside i hv hi
    · next hji =>
      rw [if_neg hji]
      exact h.inside j hvj hl
  settled j hd := by
    rw [cacheCopyIn, setEnt_ent] at hd ⊢
    rw [hL]
    split at hd
    · next hji =>
      subst hji
      rw [if_pos rfl]
      exact ⟨hv, hi⟩
    · next hji =>
      rw [if_neg hji]
      exact h.settled j hd

end InRange

section Runs

variable [DecidableEq T] [Fintype T] {s s' : Proto T}

/-- Every step keeps this, so that no eviction fails in `block_write`. -/
theorem InRange.step (h : InRange s.cache s.Loading) (hinv : ProtoInv s) (hs : ProtoStep s s') :
    InRange s'.cache s'.Loading := by
  cases hs with
  | call op hpc => exact h.congr (SameData.refl _) (loading_same rfl fun j => by simp [hpc, Pc.Loads])
  | zero hpc => exact h.congr (SameData.refl _) (loading_same rfl fun j => by simp [hpc, Pc.Loads])
  | enter hpc => exact h.congr (SameData.refl _) (loading_same rfl fun j => by simp [hpc, Pc.Loads])
  | hit hpc =>
      exact h.congr (sameData_pin s.cache _) (loading_same rfl fun j => by simp [hpc, Pc.Loads])
  | @miss t op free i c hpc hscan hclaim =>
      obtain ⟨-, hfree, -⟩ := cacheScan_miss hscan
      obtain ⟨c₁, rfl, hpick⟩ := cacheClaim_ok hclaim
      have hpicked : InRange c₁ s.Loading ∧ (c₁.buffCache i).valid = false := by
        rcases hpick with ⟨hf, rfl⟩ | ⟨-, hev⟩
        · exact ⟨⟨h.inside, h.settled⟩, hfree i hf⟩
        · exact ⟨h.evict hev, by rw [hev.valid, if_pos rfl]⟩
      exact hpicked.1.label hpicked.2 (loading_enter (t := t) (p := .missLock op i) rfl
        (fun k => eq_comm) (by simp [hpc, Pc.Loads]))
  | lockFresh hpc =>
      exact h.congr (SameData.refl _) (loading_same rfl fun j => by simp [hpc, Pc.Loads])
  | unlockFresh hpc =>
      exact h.congr (SameData.refl _) (loading_same rfl fun j => by simp [hpc, Pc.Loads])
  | @load t op i c hpc hload =>
      have hold : (s.pc t).HoldsEnt i := by
        rw [hpc]
        rfl
      obtain ⟨-, hb⟩ := hinv.ctl.label t op i (by rw [hpc]; rfl)
      obtain ⟨hin, rfl⟩ := cacheLoad_ok hload
      exact h.load (by rwa [hb]) (loading_leave rfl (fun j hl => hl)
        (fun j => by simp [hpc, Pc.Loads, eq_comm]) fun t' hl => hinv.ctl.not_loading hold hl)
  | lockHit hpc =>
      exact h.congr (SameData.refl _) (loading_same rfl fun j => by simp [hpc, Pc.Loads])
  | copyOut hpc =>
      exact h.congr (sameData_copyOut s.cache _) (loading_same rfl fun j => by simp [hpc, Pc.Loads])
  | @copyIn t b offset buffer i hpc =>
      have hold : (s.pc t).HoldsEnt i := by
        rw [hpc]
        rfl
      obtain ⟨hv, -⟩ := hinv.ctl.label t _ i (by rw [hpc]; rfl)
      exact h.copyIn hv (hinv.not_loading hold (by simp [hpc, Pc.Loads]))
        (loading_same rfl fun j => by simp [hpc, Pc.Loads])
  | unlockEnt hpc =>
      exact h.congr (SameData.refl _) (loading_same rfl fun j => by simp [hpc, Pc.Loads])
  | lockPut hpc =>
      exact h.congr (SameData.refl _) (loading_same rfl fun j => by simp [hpc, Pc.Loads])
  | decr hpc =>
      exact h.congr (sameData_unpin s.cache _) (loading_same rfl fun j => by simp [hpc, Pc.Loads])

/-- No dirty entry has a sector past the end of the device. -/
theorem inRange_reach {dev : BlockDev} (h : ProtoReach (bootCache dev) s) :
    InRange s.cache s.Loading := by
  have hboth : ProtoInv s ∧ InRange s.cache s.Loading := by
    refine invariant_of_step (I := fun s => ProtoInv s ∧ InRange s.cache s.Loading) h
      ⟨protoInv_init _, ?_⟩ fun _ _ ha hs => ⟨protoInv_step ha.1 hs, ha.2.step ha.1 hs⟩
    exact (InRange.init dev).congr (SameData.refl _) fun i => by
      simp [Proto.Loading, Proto.init, Pc.Loads]
  exact hboth.2

/-! ## Pinned entries and sectors in use -/

/-- The sectors that threads have obtained an entry for and not yet given it back. -/
def Proto.inUse (s : Proto T) : Finset UInt32 :=
  Finset.univ.biUnion fun t => (s.pc t).sector.toFinset

/-- The entries the clock must pass over. -/
def Proto.pinned (s : Proto T) : Finset (Fin 64) :=
  Finset.univ.filter fun i => (s.cache.buffCache i).refCnt ≠ 0

section Pinned

omit [DecidableEq T]

theorem ProtoInv.mem_pinned (h : ProtoInv s) {i : Fin 64} :
    i ∈ s.pinned ↔ ∃ t op, (s.pc t).pin = some (op, i) := by
  unfold Proto.pinned
  rw [Finset.mem_filter, h.ctl.refCnt, Ne, count_eq_zero]
  simp [Pc.Pins]

/-- A sector in use is the label of one pinned entry. -/
theorem ProtoInv.card_inUse (h : ProtoInv s) : s.inUse.card = s.pinned.card := by
  have himage : s.inUse = s.pinned.image fun i => (s.cache.buffCache i).block := by
    ext b
    simp only [Proto.inUse, Finset.mem_biUnion, Finset.mem_univ, true_and, Option.mem_toFinset,
      Pc.sector, Option.mem_def, Option.map_eq_some_iff, Finset.mem_image, h.mem_pinned]
    constructor
    · rintro ⟨t, ⟨op, i⟩, hpin, rfl⟩
      exact ⟨i, ⟨t, op, hpin⟩, (h.ctl.label t op i hpin).2⟩
    · rintro ⟨i, ⟨t, op, hpin⟩, rfl⟩
      exact ⟨t, ⟨op, i⟩, hpin, (h.ctl.label t op i hpin).2.symm⟩
  rw [himage]
  refine Finset.card_image_of_injOn fun i hi j hj hb => ?_
  obtain ⟨t, op, hpin⟩ := h.mem_pinned.mp hi
  obtain ⟨t', op', hpin'⟩ := h.mem_pinned.mp hj
  exact h.data.uniq i j (h.ctl.label t op i hpin).1 (h.ctl.label t' op' j hpin').1 hb

/-- Fewer than 64 sectors in use: an unpinned entry. -/
theorem ProtoInv.unpinned_iff (h : ProtoInv s) :
    (∃ i, (s.cache.buffCache i).refCnt = 0) ↔ s.inUse.card < cacheSize := by
  have hcard : s.pinned.card < cacheSize ↔ s.pinned ≠ Finset.univ := by
    rw [← Finset.card_lt_iff_ne_univ]
    rfl
  rw [h.card_inUse, hcard, Ne, Finset.eq_univ_iff_forall]
  simp [Proto.pinned]

end Pinned

/-- A thread uses at most one sector, and one that evicts uses none: 65 threads in calls
are needed to have 64 sectors in use at an eviction. -/
theorem Proto.inUse_lt {t : T} (ht : s.Evicting t)
    (hfew : count (fun p => p.busy = true) s.pc ≤ cacheSize) : s.inUse.card < cacheSize := by
  obtain ⟨op, hpc, -⟩ := ht
  let busy : Finset T := Finset.univ.filter fun u => (s.pc u).busy
  have hsub : s.inUse ⊆ (busy.erase t).biUnion fun u => (s.pc u).sector.toFinset := by
    intro b hb
    obtain ⟨u, -, hu⟩ := Finset.mem_biUnion.mp hb
    have hpin : (s.pc u).sector = some b := Option.mem_toFinset.mp hu
    refine Finset.mem_biUnion.mpr ⟨u, Finset.mem_erase.mpr ⟨?_, ?_⟩, hu⟩
    · rintro rfl
      rw [hpc] at hpin
      cases hpin
    · refine Finset.mem_filter.mpr ⟨Finset.mem_univ u, ?_⟩
      cases hp : s.pc u with
      | idle =>
          rw [hp] at hpin
          cases hpin
      | _ => rfl
  have hmem : t ∈ busy := Finset.mem_filter.mpr ⟨Finset.mem_univ t, by rw [hpc]; rfl⟩
  calc s.inUse.card ≤ (busy.erase t).card * 1 :=
        (Finset.card_le_card hsub).trans (Finset.card_biUnion_le_card_mul _ _ 1 fun u _ => by
          cases (s.pc u).sector <;> simp)
    _ < busy.card := by
        rw [Nat.mul_one]
        exact Finset.card_erase_lt_of_mem hmem
    _ ≤ cacheSize := hfew

/-! ## The clock stops -/

/-- The clock has a victim: an entry is unpinned, and `cache_evict` returns one. -/
def Proto.HasVictim (s : Proto T) : Prop :=
  (∃ i, (s.cache.buffCache i).refCnt = 0) ∧ ∃ i c, cacheEvict s.cache = .ok i c

/-- In every state that any number of threads can reach, in any interleaving: a thread
that has entered `cache_evict` finds a victim if and only if the threads that have
obtained an entry are working on fewer than 64 sectors. -/
theorem evict_has_victim {dev : BlockDev} {s : Proto T} (h : ProtoReach (bootCache dev) s) (t : T) :
    s.Evicting t → (s.HasVictim ↔ s.inUse.card < cacheSize) := by
  intro _
  have hinv := protoInv_reach h
  rw [← hinv.unpinned_iff]
  constructor
  · exact And.left
  · rintro ⟨i, hi⟩
    refine ⟨⟨i, hi⟩, ?_⟩
    have hspec := cacheEvict_spec (fun j hd => (inRange_reach h).dirty hd) hi
    obtain ⟨j, c, hok, -⟩ := wp_never.mp hspec
    exact ⟨j, c, hok⟩

/-! ## The clock that does not stop -/

theorem cacheScanFrom_congr {ents ents' : Fin 64 → CacheEnt} {b : UInt32}
    (hv : ∀ i, (ents' i).valid = (ents i).valid) (hb : ∀ i, (ents' i).block = (ents i).block)
    (is : List (Fin 64)) (free : Option (Fin 64)) :
    cacheScanFrom ents' b is free = cacheScanFrom ents b is free := by
  induction is generalizing free with
  | nil => rfl
  | cons i is ih => simp only [cacheScanFrom, hv, hb, ih]

/-- Every entry is pinned and thread `t` is in `cache_evict`. -/
def Proto.Stuck (s : Proto T) (t : T) : Prop :=
  s.Evicting t ∧ ∀ i, (s.cache.buffCache i).refCnt ≠ 0

omit [Fintype T] in
/-- A step of another thread that does not need `cache_lock`. -/
theorem Proto.Stuck.goto {t t' : T} {p : Pc} (h : s.Stuck t) (hne : t ≠ t') (hpc : s'.pc = s.pc)
    (hv : ∀ i, (s'.cache.buffCache i).valid = (s.cache.buffCache i).valid)
    (hb : ∀ i, (s'.cache.buffCache i).block = (s.cache.buffCache i).block)
    (hr : ∀ i, (s'.cache.buffCache i).refCnt = (s.cache.buffCache i).refCnt) :
    (s'.goto t' p).Stuck t := by
  obtain ⟨⟨op, hat, hscan⟩, hall⟩ := h
  refine ⟨⟨op, ?_, (cacheScanFrom_congr hv hb _ _).trans hscan⟩, fun i => ?_⟩
  · show Function.update s'.pc t' p t = .find op
    rw [Function.update_of_ne hne, hpc]
    exact hat
  · show (s'.cache.buffCache i).refCnt ≠ 0
    rw [hr]
    exact hall i

/-- The thread stays stuck: nobody can give an entry back without the
lock of the cache, which it holds. -/
theorem Proto.Stuck.step {t : T} (h : s.Stuck t) (hinv : ProtoInv s) (hs : ProtoStep s s') :
    s'.Stuck t := by
  obtain ⟨op, hat, hscan⟩ := h.1
  have hhold : (s.pc t).HoldsCache := by
    rw [hat]
    trivial
  have hlock : s.cacheLock = some t := (hinv.ctl.cacheLock t).mpr hhold
  -- who else holds `cache_lock`
  have hself : ∀ u, (s.pc u).HoldsCache → s.pc u = .find op := by
    intro u hu
    rw [hinv.ctl.cacheLock.unique hhold hu, hat]
  have hother : ∀ u p, s.pc u = p → p ≠ .find op → t ≠ u := by
    rintro u p hu hp rfl
    exact hp (hu.symm.trans hat)
  cases hs with
  | call op' hpc =>
      exact h.goto (hother _ _ hpc (by simp)) rfl (fun _ => rfl) (fun _ => rfl) fun _ => rfl
  | zero hpc =>
      exact h.goto (hother _ _ hpc (by simp)) rfl (fun _ => rfl) (fun _ => rfl) fun _ => rfl
  | enter _ _ hfree =>
      rw [hlock] at hfree
      cases hfree
  | @hit u op' i hpc hhit =>
      have hop := hself u (by rw [hpc]; trivial)
      rw [hpc] at hop
      cases hop
      rw [hscan] at hhit
      cases hhit
  | @miss u op' free i c hpc hmiss hclaim =>
      have hop := hself u (by rw [hpc]; trivial)
      rw [hpc] at hop
      cases hop
      rw [hscan] at hmiss
      cases hmiss
      obtain ⟨c₁, -, ⟨hf, -⟩ | ⟨-, hev⟩⟩ := cacheClaim_ok hclaim
      · cases hf
      · exact absurd hev.free (h.2 i)
  | lockFresh hpc =>
      have hop := hself _ (by rw [hpc]; trivial)
      rw [hpc] at hop
      cases hop
  | unlockFresh hpc =>
      have hop := hself _ (by rw [hpc]; trivial)
      rw [hpc] at hop
      cases hop
  | load hpc hload =>
      obtain ⟨-, rfl⟩ := cacheLoad_ok hload
      refine h.goto (hother _ _ hpc (by simp)) rfl (fun j => ?_) (fun j => ?_) fun j => ?_ <;>
        simp only [setEnt_ent] <;> split <;> simp_all
  | lockHit hpc =>
      exact h.goto (hother _ _ hpc (by simp)) rfl (fun _ => rfl) (fun _ => rfl) fun _ => rfl
  | copyOut hpc =>
      refine h.goto (hother _ _ hpc (by simp)) rfl (fun j => ?_) (fun j => ?_) fun j => ?_ <;>
        simp only [cacheCopyOut, setEnt_ent] <;> split <;> simp_all
  | copyIn hpc =>
      refine h.goto (hother _ _ hpc (by simp)) rfl (fun j => ?_) (fun j => ?_) fun j => ?_ <;>
        simp only [cacheCopyIn, setEnt_ent] <;> split <;> simp_all
  | unlockEnt hpc =>
      exact h.goto (hother _ _ hpc (by simp)) rfl (fun _ => rfl) (fun _ => rfl) fun _ => rfl
  | lockPut _ hfree =>
      rw [hlock] at hfree
      cases hfree
  | decr hpc =>
      have hop := hself _ (by rw [hpc]; trivial)
      rw [hpc] at hop
      cases hop

/-- Once every entry is pinned and a thread is in `cache_evict`, it is there for good,
with `cache_lock`: the clock may turn as often as it likes. -/
theorem stuck_forever {c : Cache} {t : T} (h : ProtoReach c s) (hst : s.Stuck t)
    (hrun : Relation.ReflTransGen ProtoStep s s') :
    s'.Stuck t ∧ ∀ n, wp (cacheEvictLoop n) (fun _ _ => False) (fun e _ => e = .spin) s'.cache := by
  have hstuck : s'.Stuck t := by
    have hboth : ProtoInv s' ∧ s'.Stuck t :=
      invariant_of_step (I := fun s => ProtoInv s ∧ s.Stuck t) hrun ⟨protoInv_reach h, hst⟩
        fun _ _ ha hs => ⟨protoInv_step ha.1 hs, ha.2.step ha.1 hs⟩
    exact hboth.2
  exact ⟨hstuck, fun n => cacheEvictLoop_pinned n hstuck.2⟩

end Runs

/-- A read of sector `n`. -/
def readSector (n : Nat) : CacheOp := .read (UInt32.ofNat n) 0 512

theorem readSector_inj {m n : Nat} (hm : m < 65) (hn : n < 65)
    (h : (readSector m).block = (readSector n).block) : m = n := by
  have hval := congrArg UInt32.toNat h
  simp only [readSector, CacheOp.block, UInt32.toNat_ofNat'] at hval
  omega

theorem readSector_allocated {n : Nat} (hn : n < 65) (offset len : Nat) :
    readSector n ≠ .read unallocated offset len := by
  intro h
  have hval := congrArg UInt32.toNat (CacheOp.read.inj h).1
  rw [UInt32.toNat_ofNat'] at hval
  have hbig : unallocated.toNat = 4294967295 := by decide
  omega

/-- The first `k` of 65 threads have missed, and have not come to load their sectors. -/
structure Filled (k : Nat) (s : Proto (Fin 65)) : Prop where
  unlocked : s.cacheLock = none
  loading : ∀ t : Fin 65, t.val < k → ∃ i, s.pc t = .load (readSector t) i
  idle : ∀ t : Fin 65, k ≤ t.val → s.pc t = .idle
  labels : ∀ i, (s.cache.buffCache i).valid = true →
    ∃ n < k, (s.cache.buffCache i).block = (readSector n).block
  sized : 0 < s.cache.fsDevice.size

section Fill

variable {dev : BlockDev} {k : Nat} {s : Proto (Fin 65)}

/-- The next thread misses. -/
theorem Filled.miss (h : Filled k s) (hk : k < 65) :
    ∃ free, cacheScan s.cache.buffCache (readSector k).block = .miss free := by
  cases hscan : cacheScan s.cache.buffCache (readSector k).block with
  | miss free => exact ⟨free, rfl⟩
  | hit i =>
      obtain ⟨hv, hb⟩ := cacheScan_hit hscan
      obtain ⟨n, hn, hlabel⟩ := h.labels i hv
      have := readSector_inj hk (hn.trans hk) (hb.symm.trans hlabel)
      omega

/-- And finds a free entry while fewer than 64 threads have missed. -/
theorem Filled.free (h : Filled k s) (hinv : ProtoInv s) (hk : k < 64) :
    ∃ i, cacheScan s.cache.buffCache (readSector k).block = .miss (some i) := by
  obtain ⟨free, hscan⟩ := h.miss (hk.trans (by decide))
  cases free with
  | some i => exact ⟨i, hscan⟩
  | none =>
      -- 64 valid entries with different labels, and only `k` labels
      have hall := (cacheScan_miss hscan).2.2 rfl
      choose n hn hlabel using fun i => h.labels i (hall i)
      have hinj : Function.Injective fun i => (⟨n i, hn i⟩ : Fin k) := by
        intro i j hij
        refine hinv.data.uniq i j (hall i) (hall j) ?_
        rw [hlabel i, hlabel j, (Fin.mk.inj hij : n i = n j)]
      have hcard := Fintype.card_le_of_injective _ hinj
      simp only [Fintype.card_fin] at hcard
      omega

/-- One more thread misses. -/
theorem Filled.next (h : Filled k s) (hr : ProtoReach (bootCache dev) s) (hk : k < 64) :
    ∃ s', ProtoReach (bootCache dev) s' ∧ Filled (k + 1) s' := by
  obtain ⟨i, hscan⟩ := h.free (protoInv_reach hr) hk
  let t : Fin 65 := ⟨k, by omega⟩
  let op := readSector k
  let s₁ := s.goto t (.start op)
  let s₂ := { s₁ with cacheLock := some t }.goto t (.find op)
  let s₃ := { s₂ with
    cache := cacheLabel { s.cache with missCnt := s.cache.missCnt + 1 } i op.block }.goto t
      (.missLock op i)
  let s₄ := { s₃ with entLock := Function.update s₃.entLock i (some t) }.goto t (.missUnlock op i)
  let s₅ := { s₄ with cacheLock := none }.goto t (.load op i)
  have h₁ : ProtoStep s s₁ := .call op (h.idle t le_rfl)
  have h₂ : ProtoStep s₁ s₂ :=
    .enter (Function.update_self ..) (readSector_allocated (by omega)) h.unlocked
  have h₃ : ProtoStep s₂ s₃ := .miss (Function.update_self ..) hscan rfl
  have hr₃ : ProtoReach (bootCache dev) s₃ := ((hr.tail h₁).tail h₂).tail h₃
  have hat₃ : s₃.pc t = .missLock op i := Function.update_self ..
  have h₄ : ProtoStep s₃ s₄ := .lockFresh hat₃ ((protoInv_reach hr₃).ctl.fresh_free hat₃)
  have h₅ : ProtoStep s₄ s₅ := .unlockFresh (Function.update_self ..)
  have hself : s₅.pc t = .load op i := Function.update_self ..
  have hother : ∀ u, u ≠ t → s₅.pc u = s.pc u := by
    intro u hu
    simp [s₅, s₄, s₃, s₂, s₁, Proto.goto, Function.update_of_ne hu]
  refine ⟨s₅, (hr₃.tail h₄).tail h₅, rfl, fun u hu => ?_, fun u hu => ?_, fun j hv => ?_, h.sized⟩
  · by_cases hut : u = t
    · subst hut
      exact ⟨i, hself⟩
    · rw [hother u hut]
      refine h.loading u ?_
      have hne : u.val ≠ k := fun hc => hut (Fin.ext hc)
      omega
  · have hut : u ≠ t := by
      rintro rfl
      exact absurd hu (Nat.not_succ_le_self k)
    rw [hother u hut]
    exact h.idle u (by omega)
  · replace hv : ((cacheLabel { s.cache with missCnt := s.cache.missCnt + 1 } i
      op.block).buffCache j).valid = true := hv
    show ∃ n < k + 1, ((cacheLabel { s.cache with missCnt := s.cache.missCnt + 1 } i
      op.block).buffCache j).block = _
    rw [cacheLabel, setEnt_ent] at hv ⊢
    split at hv
    · next hji =>
      rw [if_pos hji]
      exact ⟨k, Nat.lt_succ_self k, rfl⟩
    · next hji =>
      rw [if_neg hji]
      obtain ⟨n, hn, hlabel⟩ := h.labels j hv
      exact ⟨n, hn.trans (Nat.lt_succ_self k), hlabel⟩

theorem filled_reach (dev : BlockDev) (hdev : 0 < dev.size) (hk : k ≤ 64) :
    ∃ s, ProtoReach (bootCache dev) s ∧ Filled k s := by
  induction k with
  | zero =>
      refine ⟨_, .refl, rfl, fun t ht => absurd ht (Nat.not_lt_zero _), fun _ _ => rfl,
        fun i hv => ?_, hdev⟩
      cases hv
  | succ k ih =>
      obtain ⟨s, hr, h⟩ := ih (by omega)
      exact h.next hr hk

/-- With 64 threads there, every entry is pinned. -/
theorem Filled.pinned (h : Filled 64 s) (hinv : ProtoInv s) (i : Fin 64) :
    ∃ t op, (s.pc t).pin = some (op, i) := by
  choose e he using fun t : Fin 64 => h.loading t.castSucc t.isLt
  have hpin : ∀ t : Fin 64, (s.pc t.castSucc).pin = some (readSector t, e t) := by
    intro t
    rw [he t]
    rfl
  have hinj : Function.Injective e := by
    intro t u htu
    have ht := (hinv.ctl.label _ _ _ (hpin t)).2
    have hu := (hinv.ctl.label _ _ _ (hpin u)).2
    rw [htu, hu] at ht
    exact Fin.ext (readSector_inj (by omega) (by omega) ht.symm)
  obtain ⟨t, rfl⟩ := Finite.surjective_of_injective hinj i
  exact ⟨_, _, hpin t⟩

theorem Filled.full (h : Filled 64 s) (hinv : ProtoInv s) :
    cacheScan s.cache.buffCache (readSector 64).block = .miss none := by
  obtain ⟨free, hscan⟩ := h.miss (by decide)
  cases free with
  | none => exact hscan
  | some i =>
      obtain ⟨t, op, hpin⟩ := h.pinned hinv i
      have hv := (hinv.ctl.label t op i hpin).1
      rw [(cacheScan_miss hscan).2.1 i rfl] at hv
      cases hv

/-- The thread that comes last. -/
def lastThread : Fin 65 := ⟨64, by decide⟩

/-- An idle thread comes to the scan. -/
theorem enters {n : Nat} {t : Fin 65} (hn : n < 65) (hr : ProtoReach (bootCache dev) s)
    (hidle : s.pc t = .idle) (hfree : s.cacheLock = none) :
    ∃ s', ProtoReach (bootCache dev) s' ∧ s'.cache = s.cache ∧
      s'.pc = Function.update s.pc t (.find (readSector n)) := by
  let s₁ := s.goto t (.start (readSector n))
  let s₂ := { s₁ with cacheLock := some t }.goto t (.find (readSector n))
  have h₁ : ProtoStep s s₁ := .call _ hidle
  have h₂ : ProtoStep s₁ s₂ := .enter (Function.update_self ..) (readSector_allocated hn) hfree
  exact ⟨s₂, (hr.tail h₁).tail h₂, rfl, Function.update_idem ..⟩

/-- 64 threads have missed; the 65th enters `cache_evict`. -/
theorem Filled.stuck (h : Filled 64 s) (hr : ProtoReach (bootCache dev) s) :
    ∃ s', ProtoReach (bootCache dev) s' ∧ s'.Stuck lastThread := by
  have hinv := protoInv_reach hr
  obtain ⟨s', hr', hcache, hpc⟩ :=
    enters (n := 64) (by decide) hr (h.idle lastThread le_rfl) h.unlocked
  refine ⟨s', hr', ⟨readSector 64, by rw [hpc, Function.update_self], ?_⟩, fun i => ?_⟩
  · rw [hcache]
    exact h.full hinv
  · obtain ⟨t, op, hpin⟩ := h.pinned hinv i
    rw [hcache, hinv.ctl.refCnt]
    exact (count_pos (Pc.pins_of_pin hpin)).ne'

/-- A thread goes on from its load to the end of its call. -/
theorem leaves {n : Nat} {t : Fin 65} {i : Fin 64} (hr : ProtoReach (bootCache dev) s)
    (hat : s.pc t = .load (readSector n) i) (hfree : s.cacheLock = none)
    (hin : (readSector n).block < s.cache.fsDevice.size) :
    ∃ s', ProtoReach (bootCache dev) s' ∧ s'.cacheLock = none ∧
      s'.pc = Function.update s.pc t .idle ∧
      ∀ j, (s'.cache.buffCache j).valid = (s.cache.buffCache j).valid ∧
        (s'.cache.buffCache j).block = (s.cache.buffCache j).block := by
  let c := s.cache.setEnt i { s.cache.buffCache i with
    data := s.cache.fsDevice.data (readSector n).block }
  have hload : cacheLoad (readSector n).block i s.cache = .ok ⟨⟩ c := by
    have hspec : wp (cacheLoad (readSector n).block i) (fun _ c' => c' = c) never s.cache := by
      simp only [cacheLoad, wp_bind, wp_blockRead, wp_modify, if_pos hin]
      rfl
    obtain ⟨⟨⟩, c', hok, rfl⟩ := wp_never.mp hspec
    exact hok
  let s₁ := { s with cache := c }.goto t (.ready (readSector n) i)
  let s₂ := { s₁ with cache := cacheCopyOut c i }.goto t (.unlock (readSector n) i)
  let s₃ := { s₂ with entLock := Function.update s₂.entLock i none }.goto t (.put (readSector n) i)
  let s₄ := { s₃ with cacheLock := some t }.goto t (.decr (readSector n) i)
  let s₅ := { s₄ with cache := cacheUnpin (cacheCopyOut c i) i, cacheLock := none }.goto t .idle
  have h₁ : ProtoStep s s₁ := .load hat hload
  have h₂ : ProtoStep s₁ s₂ := .copyOut (Function.update_self ..)
  have h₃ : ProtoStep s₂ s₃ := .unlockEnt (Function.update_self ..)
  have h₄ : ProtoStep s₃ s₄ := .lockPut (Function.update_self ..) hfree
  have h₅ : ProtoStep s₄ s₅ := .decr (Function.update_self ..)
  refine ⟨s₅, ((((hr.tail h₁).tail h₂).tail h₃).tail h₄).tail h₅, rfl, ?_, fun j => ?_⟩
  · simp [s₅, s₄, s₃, s₂, s₁, Proto.goto]
  · simp only [s₅, c, Proto.goto, cacheUnpin, cacheCopyOut, setEnt_ent]
    split <;> simp_all

/-- 64 threads have missed; the first is done with its sector before the 65th enters
`cache_evict`. -/
theorem Filled.done (h : Filled 64 s) (hr : ProtoReach (bootCache dev) s) :
    ∃ s', ProtoReach (bootCache dev) s' ∧ s'.Evicting lastThread ∧
      count (fun p => p.busy = true) s'.pc ≤ cacheSize := by
  obtain ⟨i, hi⟩ := h.loading 0 (by decide)
  obtain ⟨s₁, hr₁, hfree₁, hpc₁, hsame⟩ := leaves hr hi h.unlocked h.sized
  have hlast : s₁.pc lastThread = .idle := by
    rw [hpc₁, Function.update_of_ne (by decide)]
    exact h.idle lastThread le_rfl
  obtain ⟨s', hr', hcache, hpc⟩ := enters (n := 64) (by decide) hr₁ hlast hfree₁
  refine ⟨s', hr', ⟨readSector 64, by rw [hpc, Function.update_self], ?_⟩, ?_⟩
  · rw [hcache]
    exact (cacheScanFrom_congr (fun j => (hsame j).1) (fun j => (hsame j).2) _ _).trans
      (h.full (protoInv_reach hr))
  · -- all but the first thread
    have hsub : (Finset.univ.filter fun t => (s'.pc t).busy = true) ⊆ Finset.univ.erase 0 := by
      intro t ht
      refine Finset.mem_erase.mpr ⟨?_, Finset.mem_univ t⟩
      rintro rfl
      have hbusy := (Finset.mem_filter.mp ht).2
      rw [hpc, Function.update_of_ne (by decide), hpc₁, Function.update_self] at hbusy
      cases hbusy
    have hcard := Finset.card_le_card hsub
    rw [Finset.card_erase_of_mem (Finset.mem_univ 0), Finset.card_univ, Fintype.card_fin] at hcard
    exact hcard

end Fill

/-- 65 threads, of which one has come and gone. -/
theorem evict_has_victim_one_done :
    ∃ s : Proto (Fin 65), s.Evicting lastThread ∧ s.HasVictim ∧ s.inUse.card < cacheSize := by
  obtain ⟨s, hr, h⟩ := filled_reach (k := 64) ⟨128, fun _ => Block.fill 0⟩ (by decide) le_rfl
  obtain ⟨s', hr', hev, hfew⟩ := h.done hr
  have hlt := Proto.inUse_lt hev hfew
  exact ⟨s', hev, (evict_has_victim hr' lastThread hev).mpr hlt, hlt⟩

/-- 64 threads that are about to load their sectors, and a 65th that needs an entry. -/
theorem evict_spins :
    ¬ ∀ (T : Type) [DecidableEq T] [Fintype T] (dev : BlockDev) (s : Proto T) (t : T),
      ProtoReach (bootCache dev) s → s.Evicting t → ∃ i, (s.cache.buffCache i).refCnt = 0 := by
  intro hall
  obtain ⟨s, hr, h⟩ := filled_reach (k := 64) ⟨128, fun _ => Block.fill 0⟩ (by decide) le_rfl
  obtain ⟨s', hr', hev, hpinned⟩ := h.stuck hr
  obtain ⟨i, hi⟩ := hall _ _ s' lastThread hr' hev
  exact hpinned i hi

end CS162.Fs
