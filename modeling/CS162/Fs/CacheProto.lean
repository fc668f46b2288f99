/-
# `CS162.Fs.CacheProto` — the locking protocol of the buffer cache

Any number of threads run `cache_read_len` and `cache_write_len`.  A thread's
place in the code is its `Pc`; a step takes one thread from one acquire or
release of `cache_lock` or of an entry's lock to the next, and steps of
different threads come in any order.  The shared data are the `Cache` of
`CS162.Fs.Cache` with its own functions (`cacheScan`, `cacheClaim`, `cachePin`,
`cacheLoad`, `cacheCopyIn`, `cacheUnpin`), the two kinds of locks, and one
history variable, `mem`: the disk a machine without a cache would have, written
at the moment the bytes are copied into an entry.

    start        lock_acquire (&cache_lock)
    find         the scan; hit: ref_cnt++, lock_release (&cache_lock)
                           miss: pick, ref_cnt++, block, valid
    hitLock      lock_acquire (&e->lock)
    missLock     lock_acquire (&e->lock), still holding cache_lock
    missUnlock   lock_release (&cache_lock)
    load         block_read
    ready        cache_find_ent has returned; the copy
    unlock       lock_release (&e->lock)
    put          lock_acquire (&cache_lock)
    decr         ref_cnt--, lock_release (&cache_lock)

A thread that spins in `cache_evict`, or stops the machine by reading past the
end of the device, takes no further step.

The invariant has two halves.  `Ctl` ties locks and reference counts to program
counters.  `Data` ties entries, device and `mem` together, given which entries
are being loaded; each function of the cache has one lemma about it.
-/
import CS162.Fs.CacheRefine
import CS162.Lib.Threads

namespace CS162.Fs

open Bytes Wp Cache Threads

/-! ## Threads and steps -/

/-- The sector an operation works on. -/
def CacheOp.block : CacheOp → UInt32
  | .read block _ _ => block
  | .write block _ _ => block

/-- Where a thread is in `cache_read_len` or `cache_write_len`. -/
inductive Pc where
  | idle
  | start (op : CacheOp)
  | find (op : CacheOp)
  | hitLock (op : CacheOp) (i : Fin 64)
  | missLock (op : CacheOp) (i : Fin 64)
  | missUnlock (op : CacheOp) (i : Fin 64)
  | load (op : CacheOp) (i : Fin 64)
  | ready (op : CacheOp) (i : Fin 64)
  | unlock (op : CacheOp) (i : Fin 64)
  | put (op : CacheOp) (i : Fin 64)
  | decr (op : CacheOp) (i : Fin 64)

namespace Pc

/-- The entry a thread has obtained and not yet given back, with the operation it
obtained it for. -/
def pin : Pc → Option (CacheOp × Fin 64)
  | idle | start _ | find _ => none
  | hitLock op i | missLock op i | missUnlock op i | load op i | ready op i | unlock op i
  | put op i | decr op i => some (op, i)

/-- The thread has obtained entry `i` and not yet executed the decrement. -/
def Pins (i : Fin 64) (p : Pc) : Prop := p.pin.map Prod.snd = some i

instance (i : Fin 64) : DecidablePred (Pins i) := fun p =>
  inferInstanceAs (Decidable (p.pin.map Prod.snd = some i))

/-- The thread holds `cache_lock`. -/
def HoldsCache : Pc → Prop
  | find _ | missLock _ _ | missUnlock _ _ | decr _ _ => True
  | _ => False

/-- The thread holds the lock of entry `i`. -/
def HoldsEnt (i : Fin 64) : Pc → Prop
  | missUnlock _ j | load _ j | ready _ j | unlock _ j => j = i
  | _ => False

/-- The thread has labelled entry `i` and not yet loaded it. -/
def Loads (i : Fin 64) : Pc → Prop
  | missLock _ j | missUnlock _ j | load _ j => j = i
  | _ => False

/-- The thread owns entry `i` through `cache_lock`: it has just labelled it. -/
def Fresh (i : Fin 64) : Pc → Prop
  | missLock _ j | missUnlock _ j => j = i
  | _ => False

end Pc

/-- The shared state and the threads' places. -/
structure Proto (T : Type) where
  cache : Cache
  cacheLock : Option T
  entLock : Fin 64 → Option T
  pc : T → Pc
  mem : UInt32 → Sector

variable {T : Type} [DecidableEq T]

namespace Proto

/-- Thread `t` moves on to `p`. -/
def goto (s : Proto T) (t : T) (p : Pc) : Proto T := { s with pc := Function.update s.pc t p }

/-- After `buff_cache_init`, before any call. -/
def init (T : Type) (c : Cache) : Proto T where
  cache := buffCacheInit c
  cacheLock := none
  entLock := fun _ => none
  pc := fun _ => .idle
  mem := c.fsDevice.data

end Proto

/-- One step of one thread. -/
inductive ProtoStep : Proto T → Proto T → Prop where
  | call {s : Proto T} {t : T} (op : CacheOp) : s.pc t = .idle →
      ProtoStep s (s.goto t (.start op))
  -- `cache_read_len` of an unallocated block only clears the buffer
  | zero {s : Proto T} {t : T} {offset len : Nat} :
      s.pc t = .start (.read unallocated offset len) → ProtoStep s (s.goto t .idle)
  | enter {s : Proto T} {t : T} {op : CacheOp} : s.pc t = .start op →
      (∀ offset len, op ≠ .read unallocated offset len) → s.cacheLock = none →
      ProtoStep s ({ s with cacheLock := some t }.goto t (.find op))
  | hit {s : Proto T} {t : T} {op : CacheOp} {i : Fin 64} : s.pc t = .find op →
      cacheScan s.cache.buffCache op.block = .hit i →
      ProtoStep s ({ s with cache := cachePin s.cache i, cacheLock := none }.goto t (.hitLock op i))
  | miss {s : Proto T} {t : T} {op : CacheOp} {free : Option (Fin 64)} {i : Fin 64} {c : Cache} :
      s.pc t = .find op → cacheScan s.cache.buffCache op.block = .miss free →
      cacheClaim op.block free s.cache = .ok i c →
      ProtoStep s ({ s with cache := c }.goto t (.missLock op i))
  | lockFresh {s : Proto T} {t : T} {op : CacheOp} {i : Fin 64} : s.pc t = .missLock op i →
      s.entLock i = none →
      ProtoStep s ({ s with entLock := Function.update s.entLock i (some t) }.goto t
        (.missUnlock op i))
  | unlockFresh {s : Proto T} {t : T} {op : CacheOp} {i : Fin 64} : s.pc t = .missUnlock op i →
      ProtoStep s ({ s with cacheLock := none }.goto t (.load op i))
  | load {s : Proto T} {t : T} {op : CacheOp} {i : Fin 64} {c : Cache} : s.pc t = .load op i →
      cacheLoad op.block i s.cache = .ok ⟨⟩ c →
      ProtoStep s ({ s with cache := c }.goto t (.ready op i))
  | lockHit {s : Proto T} {t : T} {op : CacheOp} {i : Fin 64} : s.pc t = .hitLock op i →
      s.entLock i = none →
      ProtoStep s ({ s with entLock := Function.update s.entLock i (some t) }.goto t (.ready op i))
  | copyOut {s : Proto T} {t : T} {b : UInt32} {offset len : Nat} {i : Fin 64} :
      s.pc t = .ready (.read b offset len) i →
      ProtoStep s ({ s with cache := cacheCopyOut s.cache i }.goto t
        (.unlock (.read b offset len) i))
  | copyIn {s : Proto T} {t : T} {b : UInt32} {offset : Nat} {buffer : List UInt8} {i : Fin 64} :
      s.pc t = .ready (.write b offset buffer) i →
      ProtoStep s ({ s with
        cache := cacheCopyIn s.cache i offset buffer
        mem := Function.update s.mem b ((s.mem b).splice offset buffer) }.goto t
          (.unlock (.write b offset buffer) i))
  | unlockEnt {s : Proto T} {t : T} {op : CacheOp} {i : Fin 64} : s.pc t = .unlock op i →
      ProtoStep s ({ s with entLock := Function.update s.entLock i none }.goto t (.put op i))
  | lockPut {s : Proto T} {t : T} {op : CacheOp} {i : Fin 64} : s.pc t = .put op i →
      s.cacheLock = none → ProtoStep s ({ s with cacheLock := some t }.goto t (.decr op i))
  | decr {s : Proto T} {t : T} {op : CacheOp} {i : Fin 64} : s.pc t = .decr op i →
      ProtoStep s ({ s with cache := cacheUnpin s.cache i, cacheLock := none }.goto t .idle)

/-! ## Data

`L` is the set of entries being loaded.  An entry outside `L` holds what `mem`
holds; the sector of one inside `L` is up to date on the device, so that the load
will bring in what `mem` holds. -/

/-- What the entries hold, apart from who is working on them: `L` are the entries that a thread is
loading, which have their label already and not yet their contents. -/
structure Data (c : Cache) (mem : UInt32 → Sector) (L : Fin 64 → Prop) : Prop where
  uniq : ∀ i j, (c.buffCache i).valid = true → (c.buffCache j).valid = true →
    (c.buffCache i).block = (c.buffCache j).block → i = j
  fresh : ∀ i, (c.buffCache i).valid = true → ¬ L i →
    (c.buffCache i).data = mem (c.buffCache i).block
  clean : ∀ i, (c.buffCache i).valid = true → ¬ L i → (c.buffCache i).dirty = false →
    (c.buffCache i).data = c.fsDevice.data (c.buffCache i).block
  loading : ∀ i, L i → (c.buffCache i).valid = true ∧
    c.fsDevice.data (c.buffCache i).block = mem (c.buffCache i).block
  stored : ∀ b, (∀ i, (c.buffCache i).valid = true → (c.buffCache i).block ≠ b) →
    c.fsDevice.data b = mem b

namespace Data

variable {c c' : Cache} {mem : UInt32 → Sector} {L L' : Fin 64 → Prop}

/-- It is enough to know the entries, the device and who is loading. -/
theorem congr (h : Data c mem L) (e : SameData c c') (hL : ∀ i, L' i ↔ L i) : Data c' mem L' := by
  obtain rfl : L' = L := funext fun i => propext (hL i)
  refine ⟨fun i j => ?_, fun i => ?_, fun i => ?_, fun i hi => ?_, fun b hb => ?_⟩
  · rw [e.valid, e.valid, e.block, e.block]
    exact h.uniq i j
  · rw [e.valid, e.block, e.data]
    exact h.fresh i
  · rw [e.valid, e.block, e.data, e.dirty, e.dev]
    exact h.clean i
  · rw [e.valid, e.block, e.dev]
    exact h.loading i hi
  · rw [e.dev]
    refine h.stored b fun i hv => ?_
    rw [← e.block]
    exact hb i (by rw [e.valid]; exact hv)

theorem init (c : Cache) : Data (buffCacheInit c) c.fsDevice.data (fun _ => False) :=
  ⟨fun _ _ hi => by simp [buffCacheInit] at hi, fun _ hi => by simp [buffCacheInit] at hi,
    fun _ hi => by simp [buffCacheInit] at hi, fun _ hi => hi.elim, fun _ _ => rfl⟩

/-- Evicting an entry that nobody is loading. -/
theorem evict (h : Data c mem L) {i : Fin 64} (hev : Evicted c i c')
    (hv : (c.buffCache i).valid = true) (hi : ¬ L i) : Data c' mem L := by
  have hvict : c'.fsDevice.data (c.buffCache i).block = mem (c.buffCache i).block := by
    rw [hev.dev]
    split
    · rw [BlockDev.write_data, if_pos rfl, h.fresh i hv hi]
    · next hd => rw [← h.clean i hv hi (by simpa using hd), h.fresh i hv hi]
  have hvalid : ∀ j, (c'.buffCache j).valid = true → j ≠ i ∧ (c.buffCache j).valid = true := by
    intro j hj
    rw [hev.valid] at hj
    split at hj
    · cases hj
    · next hji => exact ⟨hji, hj⟩
  have hother : ∀ j, j ≠ i → (c.buffCache j).valid = true →
      c'.fsDevice.data (c.buffCache j).block = c.fsDevice.data (c.buffCache j).block :=
    fun j hji hj => hev.dev_other fun he => hji (h.uniq j i hj hv he)
  refine ⟨fun j k hj hk => ?_, fun j hj hL => ?_, fun j hj hL hd => ?_, fun j hL => ?_,
    fun b hb => ?_⟩
  · rw [hev.block, hev.block]
    exact h.uniq j k (hvalid j hj).2 (hvalid k hk).2
  · rw [hev.block, hev.data]
    exact h.fresh j (hvalid j hj).2 hL
  · obtain ⟨hji, hj⟩ := hvalid j hj
    rw [hev.dirty, if_neg hji] at hd
    rw [hev.block, hev.data, hother j hji hj]
    exact h.clean j hj hL hd
  · obtain ⟨hj, hd⟩ := h.loading j hL
    have hji : j ≠ i := fun he => hi (he ▸ hL)
    rw [hev.valid, if_neg hji, hev.block, hother j hji hj]
    exact ⟨hj, hd⟩
  · by_cases he : b = (c.buffCache i).block
    · rw [he, hvict]
    · rw [hev.dev_other he]
      refine h.stored b fun j hj hjb => ?_
      have hji : j ≠ i := fun hji => he (by rw [← hjb, hji])
      exact hb j (by rw [hev.valid, if_neg hji]; exact hj) (by rw [hev.block]; exact hjb)

/-- Labelling an invalid entry with an absent block puts it among those being
loaded. -/
theorem label (h : Data c mem L) {i : Fin 64} {b : UInt32} (hi : (c.buffCache i).valid = false)
    (hb : ∀ j, (c.buffCache j).valid = true → (c.buffCache j).block ≠ b)
    (hL : ∀ j, L' j ↔ j = i ∨ L j) : Data (cacheLabel c i b) mem L' := by
  have hent : ∀ j, (cacheLabel c i b).buffCache j = if j = i then
      { c.buffCache i with refCnt := (c.buffCache i).refCnt + 1, block := b, valid := true }
      else c.buffCache j := fun j => setEnt_ent _ _ _ _
  have hdev : (cacheLabel c i b).fsDevice = c.fsDevice := rfl
  refine ⟨fun j k hj hk hjk => ?_, fun j hj hl => ?_, fun j hj hl hd => ?_, fun j hl => ?_,
    fun b' hb' => ?_⟩
  · rw [hent] at hj hk
    rw [hent, hent] at hjk
    by_cases h1 : j = i <;> by_cases h2 : k = i <;> simp_all
    · exact absurd rfl (hb k hk)
    · exact h.uniq j k hj hk hjk
  · have hji : j ≠ i := fun he => hl ((hL j).mpr (Or.inl he))
    rw [hent, if_neg hji] at hj ⊢
    exact h.fresh j hj fun hc => hl ((hL j).mpr (Or.inr hc))
  · have hji : j ≠ i := fun he => hl ((hL j).mpr (Or.inl he))
    rw [hent, if_neg hji] at hj hd ⊢
    exact h.clean j hj (fun hc => hl ((hL j).mpr (Or.inr hc))) hd
  · rw [hent, hdev]
    by_cases hji : j = i
    · rw [if_pos hji]
      exact ⟨rfl, h.stored b hb⟩
    · rw [if_neg hji]
      exact h.loading j (((hL j).mp hl).resolve_left hji)
  · rw [hdev]
    refine h.stored b' fun j hj => ?_
    have := hb' j
    rw [hent] at this
    by_cases hji : j = i
    · rw [hji, hi] at hj
      cases hj
    · rw [if_neg hji] at this
      exact this hj

/-- The load takes an entry out of those being loaded. -/
theorem load (h : Data c mem L) {i : Fin 64} (hi : L i) (hL : ∀ j, L' j ↔ j ≠ i ∧ L j) :
    Data (c.setEnt i { c.buffCache i with data := c.fsDevice.data (c.buffCache i).block }) mem
      L' := by
  set c' := c.setEnt i { c.buffCache i with data := c.fsDevice.data (c.buffCache i).block } with hc'
  have hent : ∀ j, c'.buffCache j = if j = i then
      { c.buffCache i with data := c.fsDevice.data (c.buffCache i).block }
      else c.buffCache j := fun j => setEnt_ent _ _ _ _
  have hvalid : ∀ j, (c'.buffCache j).valid = (c.buffCache j).valid := by
    intro j
    rw [hent]
    split
    · next hji => rw [hji]
    · rfl
  have hblock : ∀ j, (c'.buffCache j).block = (c.buffCache j).block := by
    intro j
    rw [hent]
    split
    · next hji => rw [hji]
    · rfl
  have hdev : c'.fsDevice = c.fsDevice := rfl
  obtain ⟨hv, hd⟩ := h.loading i hi
  refine ⟨fun j k => ?_, fun j hj hl => ?_, fun j hj hl hdj => ?_, fun j hl => ?_,
    fun b hb => ?_⟩
  · rw [hvalid, hvalid, hblock, hblock]
    exact h.uniq j k
  · by_cases hji : j = i
    · rw [hji, hent, if_pos rfl]
      exact hd
    · rw [hvalid] at hj
      rw [hent, if_neg hji]
      exact h.fresh j hj fun hc => hl ((hL j).mpr ⟨hji, hc⟩)
  · by_cases hji : j = i
    · rw [hji, hent, if_pos rfl]
      rfl
    · rw [hvalid] at hj
      rw [hent, if_neg hji] at hdj ⊢
      exact h.clean j hj (fun hc => hl ((hL j).mpr ⟨hji, hc⟩)) hdj
  · rw [hvalid, hblock, hdev]
    exact h.loading j ((hL j).mp hl).2
  · rw [hdev]
    refine h.stored b fun j hj => ?_
    rw [← hblock]
    exact hb j (by rw [hvalid]; exact hj)

/-- Copying bytes into a loaded entry writes them to `mem`. -/
theorem copyIn (h : Data c mem L) {i : Fin 64} {off : Nat} {buf : List UInt8}
    (hv : (c.buffCache i).valid = true) (hi : ¬ L i) (hL : ∀ j, L' j ↔ L j) :
    Data (cacheCopyIn c i off buf)
      (Function.update mem (c.buffCache i).block ((mem (c.buffCache i).block).splice off buf))
      L' := by
  obtain rfl : L' = L := funext fun i => propext (hL i)
  have hent : ∀ j, (cacheCopyIn c i off buf).buffCache j = if j = i then
      { c.buffCache i with data := (c.buffCache i).data.splice off buf, dirty := true, use := true }
      else c.buffCache j := fun j => setEnt_ent _ _ _ _
  have hvalid : ∀ j, ((cacheCopyIn c i off buf).buffCache j).valid = (c.buffCache j).valid := by
    intro j
    rw [hent]
    split
    · next hji => rw [hji]
    · rfl
  have hblock : ∀ j, ((cacheCopyIn c i off buf).buffCache j).block = (c.buffCache j).block := by
    intro j
    rw [hent]
    split
    · next hji => rw [hji]
    · rfl
  have hdev : (cacheCopyIn c i off buf).fsDevice = c.fsDevice := rfl
  have hother : ∀ j, j ≠ i → (c.buffCache j).valid = true →
      (c.buffCache j).block ≠ (c.buffCache i).block :=
    fun j hji hj he => hji (h.uniq j i hj hv he)
  refine ⟨fun j k => ?_, fun j hj hl => ?_, fun j hj hl hd => ?_, fun j hl => ?_, fun b hb => ?_⟩
  · rw [hvalid, hvalid, hblock, hblock]
    exact h.uniq j k
  · by_cases hji : j = i
    · rw [hblock, hji, Function.update_self, hent, if_pos rfl, h.fresh i hv hi]
    · rw [hvalid] at hj
      rw [hblock, Function.update_of_ne (hother j hji hj), hent, if_neg hji]
      exact h.fresh j hj hl
  · by_cases hji : j = i
    · rw [hji, hent, if_pos rfl] at hd
      cases hd
    · rw [hvalid] at hj
      rw [hent, if_neg hji] at hd ⊢
      exact h.clean j hj hl hd
  · obtain ⟨hj, hd⟩ := h.loading j hl
    have hji : j ≠ i := fun he => hi (he ▸ hl)
    rw [hvalid, hblock, hdev, Function.update_of_ne (hother j hji hj)]
    exact ⟨hj, hd⟩
  · have hne : b ≠ (c.buffCache i).block := by
      rintro rfl
      exact hb i (by rw [hvalid]; exact hv) (hblock i)
    rw [hdev, Function.update_of_ne hne]
    refine h.stored b fun j hj => ?_
    rw [← hblock]
    exact hb j (by rw [hvalid]; exact hj)

end Data

/-- What the critical section of a miss did: an entry was picked, by eviction or
because it was free, and labelled. -/
theorem cacheClaim_ok {c c' : Cache} {b : UInt32} {free : Option (Fin 64)} {i : Fin 64}
    (h : cacheClaim b free c = .ok i c') :
    ∃ c₁, c' = cacheLabel c₁ i b ∧ ((free = some i ∧ c₁ = { c with missCnt := c.missCnt + 1 }) ∨
      (free = none ∧ Evicted c i c₁)) := by
  have key : wp (cacheClaim b free)
      (fun i c' => ∃ c₁, c' = cacheLabel c₁ i b ∧
        ((free = some i ∧ c₁ = { c with missCnt := c.missCnt + 1 }) ∨
          (free = none ∧ Evicted c i c₁))) (fun _ _ => True) c := by
    simp only [cacheClaim, wp_bind, wp_modify, wp_pure]
    cases free with
    | some i => exact ⟨_, rfl, Or.inl ⟨rfl, rfl⟩⟩
    | none =>
        refine wp_mono (cacheEvictLoop_evicted _ (c := { c with missCnt := c.missCnt + 1 }))
          (fun i c₁ hev => ?_) (fun _ _ he => he)
        exact ⟨c₁, rfl, Or.inr ⟨rfl, ⟨hev.free, hev.dev, hev.refCnt, hev.block, hev.data,
          hev.valid, hev.dirty⟩⟩⟩
  exact (wp_ok h).mp key

/-- Loading reads the sector of the entry from the device. -/
theorem cacheLoad_ok {c c' : Cache} {b : UInt32} {i : Fin 64}
    (h : cacheLoad b i c = .ok ⟨⟩ c') :
    b < c.fsDevice.size ∧ c' = c.setEnt i { c.buffCache i with data := c.fsDevice.data b } := by
  have key : wp (cacheLoad b i)
      (fun _ c' => b < c.fsDevice.size ∧
        c' = c.setEnt i { c.buffCache i with data := c.fsDevice.data b })
      (fun _ _ => True) c := by
    simp only [cacheLoad, wp_bind, wp_blockRead, wp_modify]
    split
    · next hin => exact ⟨hin, trivial⟩
    · trivial
  exact (wp_ok h).mp key

/-! ## Control -/

variable [Fintype T]

/-- Locks, reference counts and labels agree with the threads' places. -/
structure Ctl (s : Proto T) : Prop where
  cacheLock : Holds s.cacheLock Pc.HoldsCache s.pc
  entLock : ∀ i, Holds (s.entLock i) (Pc.HoldsEnt i) s.pc
  refCnt : ∀ i, (s.cache.buffCache i).refCnt = count (Pc.Pins i) s.pc
  label : ∀ t op i, (s.pc t).pin = some (op, i) →
    (s.cache.buffCache i).valid = true ∧ (s.cache.buffCache i).block = op.block
  alone : ∀ t t' i, (s.pc t).Fresh i → (s.pc t').Pins i → t' = t

/-- Some thread has labelled entry `i` and not yet loaded it. -/
def Proto.Loading (s : Proto T) (i : Fin 64) : Prop := ∃ t, (s.pc t).Loads i

/-- The invariant of the protocol. -/
structure ProtoInv (s : Proto T) : Prop where
  ctl : Ctl s
  data : Data s.cache s.mem s.Loading

theorem Pc.pins_of_pin {p : Pc} {op : CacheOp} {i : Fin 64} (h : p.pin = some (op, i)) :
    p.Pins i := by
  simp [Pc.Pins, h]

theorem Pc.pins_of_holdsEnt {p : Pc} {i : Fin 64} (h : p.HoldsEnt i) : p.Pins i := by
  cases p <;> simp_all [Pc.HoldsEnt, Pc.Pins, Pc.pin]

theorem Pc.pins_of_loads {p : Pc} {i : Fin 64} (h : p.Loads i) : p.Pins i := by
  cases p <;> simp_all [Pc.Loads, Pc.Pins, Pc.pin]

/-- A thread that is loading either owns the fresh entry or holds its lock. -/
theorem Pc.fresh_or_holdsEnt {p : Pc} {i : Fin 64} (h : p.Loads i) : p.Fresh i ∨ p.HoldsEnt i := by
  cases p <;> simp_all [Pc.Loads, Pc.Fresh, Pc.HoldsEnt]

namespace Ctl

variable {s : Proto T} {t t' : T} {i : Fin 64}

omit [DecidableEq T]

/-- An entry nobody has obtained has its lock free. -/
theorem entLock_free (h : Ctl s) (hi : (s.cache.buffCache i).refCnt = 0) : s.entLock i = none := by
  rw [h.refCnt, count_eq_zero] at hi
  cases hl : s.entLock i with
  | none => rfl
  | some t => exact absurd (Pc.pins_of_holdsEnt ((h.entLock i t).mp hl)) (hi t)

/-- The lock of a freshly labelled entry is free: `lock_acquire` does not wait. -/
theorem fresh_free (h : Ctl s) {op : CacheOp} (ht : s.pc t = .missLock op i) :
    s.entLock i = none := by
  cases hl : s.entLock i with
  | none => rfl
  | some t' =>
      have he := (h.entLock i t').mp hl
      have := h.alone t t' i (by rw [ht]; rfl) (Pc.pins_of_holdsEnt he)
      subst this
      rw [ht] at he
      exact he.elim

/-- While a thread holds the lock of an entry, nobody else is loading it. -/
theorem not_loading (h : Ctl s) (ht : (s.pc t).HoldsEnt i) (hl : (s.pc t').Loads i) : t' = t := by
  rcases Pc.fresh_or_holdsEnt hl with hf | hh
  · exact (h.alone t' t i hf (Pc.pins_of_holdsEnt ht)).symm
  · exact (h.entLock i).unique ht hh

end Ctl

omit [DecidableEq T] in
/-- After `buff_cache_init` no entry is valid, nobody holds a lock, and nobody has obtained anything. -/
theorem protoInv_init (c : Cache) : ProtoInv (Proto.init T c) where
  ctl :=
    { cacheLock := fun t => by simp [Proto.init, Pc.HoldsCache]
      entLock := fun i t => by simp [Proto.init, Pc.HoldsEnt]
      refCnt := fun i => (count_const (by simp [Pc.Pins, Pc.pin])).symm
      label := fun t op i h => by simp [Proto.init, Pc.pin] at h
      alone := fun t t' i h => by simp [Proto.init, Pc.Fresh] at h }
  data := (Data.init c).congr (SameData.refl _) fun i => by
    simp [Proto.Loading, Proto.init, Pc.Loads]

/-! ### One thread moves

The steps come in few kinds.  `Ctl.move` is the one case analysis: thread `t` goes
from its place to `p`; the lemma lists what has to be known about the new locks,
counts and labels. -/

/-- One thread goes to another place.  What it holds there has to be what the locks and counts say; all
other threads are where they were. -/
theorem Ctl.move {s s' : Proto T} {t : T} {p : Pc} (h : Ctl s)
    (hpc : s'.pc = Function.update s.pc t p)
    (hcache : Holds s'.cacheLock Pc.HoldsCache s'.pc)
    (hent : ∀ i, Holds (s'.entLock i) (Pc.HoldsEnt i) s'.pc)
    (href : ∀ i, (s'.cache.buffCache i).refCnt = count (Pc.Pins i) s'.pc)
    (hkeep : ∀ t' op i, (s.pc t').pin = some (op, i) →
      (s'.cache.buffCache i).valid = (s.cache.buffCache i).valid ∧
      (s'.cache.buffCache i).block = (s.cache.buffCache i).block)
    (hlabel : ∀ op i, p.pin = some (op, i) → (s.pc t).pin = some (op, i) ∨
      ((s'.cache.buffCache i).valid = true ∧ (s'.cache.buffCache i).block = op.block))
    (hfresh : ∀ i, p.Fresh i → (s.pc t).Fresh i ∨ ∀ t', t' ≠ t → ¬ (s.pc t').Pins i)
    (hpins : ∀ i, p.Pins i → (s.pc t).Pins i ∨ ∀ t', t' ≠ t → ¬ (s.pc t').Fresh i) : Ctl s' where
  cacheLock := hcache
  entLock := hent
  refCnt := href
  label t' op i hp := by
    rw [hpc] at hp
    by_cases ht : t' = t
    · rw [ht, Function.update_self] at hp
      rcases hlabel op i hp with hl | hl
      · obtain ⟨hv, hb⟩ := h.label t op i hl
        rw [(hkeep t op i hl).1, (hkeep t op i hl).2]
        exact ⟨hv, hb⟩
      · exact hl
    · rw [Function.update_of_ne ht] at hp
      obtain ⟨hv, hb⟩ := h.label t' op i hp
      rw [(hkeep t' op i hp).1, (hkeep t' op i hp).2]
      exact ⟨hv, hb⟩
  alone t₁ t₂ i h₁ h₂ := by
    rw [hpc] at h₁ h₂
    by_cases e₁ : t₁ = t <;> by_cases e₂ : t₂ = t
    · rw [e₁, e₂]
    · subst e₁
      rw [Function.update_self] at h₁
      rw [Function.update_of_ne e₂] at h₂
      rcases hfresh i h₁ with hf | hf
      · exact h.alone t₁ t₂ i hf h₂
      · exact absurd h₂ (hf t₂ e₂)
    · subst e₂
      rw [Function.update_self] at h₂
      rw [Function.update_of_ne e₁] at h₁
      rcases hpins i h₂ with hp | hp
      · exact h.alone t₁ t₂ i h₁ hp
      · exact absurd h₁ (hp t₁ e₁)
    · rw [Function.update_of_ne e₁] at h₁
      rw [Function.update_of_ne e₂] at h₂
      exact h.alone t₁ t₂ i h₁ h₂

/-- A step that obtains and gives back nothing. -/
theorem Ctl.walk {s s' : Proto T} {t : T} {p : Pc} (h : Ctl s)
    (hpc : s'.pc = Function.update s.pc t p)
    (hcache : Holds s'.cacheLock Pc.HoldsCache s'.pc)
    (hent : ∀ i, Holds (s'.entLock i) (Pc.HoldsEnt i) s'.pc)
    (hkeep : ∀ i, (s'.cache.buffCache i).refCnt = (s.cache.buffCache i).refCnt ∧
      (s'.cache.buffCache i).valid = (s.cache.buffCache i).valid ∧
      (s'.cache.buffCache i).block = (s.cache.buffCache i).block)
    (hpin : p.pin = (s.pc t).pin) (hfresh : ∀ i, p.Fresh i → (s.pc t).Fresh i) : Ctl s' :=
  h.move hpc hcache hent
    (fun i => by
      rw [(hkeep i).1, h.refCnt, hpc, count_update_same]
      simp [Pc.Pins, hpin])
    (fun _ _ i _ => (hkeep i).2)
    (fun op i hp => Or.inl (by rw [← hpin]; exact hp))
    (fun i hf => Or.inl (hfresh i hf))
    (fun i hp => Or.inl (by simpa [Pc.Pins, hpin] using hp))

/-- The entry locks of a step that takes or drops none. -/
theorem Ctl.entLock_same {s : Proto T} {t : T} {p : Pc} (h : Ctl s)
    (hp : ∀ i, (s.pc t).HoldsEnt i ↔ p.HoldsEnt i) (i : Fin 64) :
    Holds (s.entLock i) (Pc.HoldsEnt i) (Function.update s.pc t p) :=
  (h.entLock i).same (hp i)

/-- The entry locks after thread `t` takes the free lock of entry `i`. -/
theorem Ctl.entLock_take {s : Proto T} {t : T} {p : Pc} {i : Fin 64} (h : Ctl s)
    (hfree : s.entLock i = none) (hpi : p.HoldsEnt i)
    (hp : ∀ j, j ≠ i → ((s.pc t).HoldsEnt j ↔ p.HoldsEnt j)) (j : Fin 64) :
    Holds (Function.update s.entLock i (some t) j) (Pc.HoldsEnt j) (Function.update s.pc t p) := by
  by_cases hj : j = i
  · rw [hj, Function.update_self]
    exact Holds.acquire (hfree ▸ h.entLock i) hpi
  · rw [Function.update_of_ne hj]
    exact (h.entLock j).same (hp j hj)

/-- The entry locks after thread `t` drops the lock of entry `i`. -/
theorem Ctl.entLock_drop {s : Proto T} {t : T} {p : Pc} {i : Fin 64} (h : Ctl s)
    (hti : (s.pc t).HoldsEnt i) (hpi : ¬ p.HoldsEnt i)
    (hp : ∀ j, j ≠ i → ((s.pc t).HoldsEnt j ↔ p.HoldsEnt j)) (j : Fin 64) :
    Holds (Function.update s.entLock i none j) (Pc.HoldsEnt j) (Function.update s.pc t p) := by
  by_cases hj : j = i
  · rw [hj, Function.update_self]
    exact (h.entLock i).release hti hpi
  · rw [Function.update_of_ne hj]
    exact (h.entLock j).same (hp j hj)

section Loading

omit [Fintype T]

/-- The loading entries after a step in which thread `t` goes to `p`. -/
theorem loading_update {s s' : Proto T} {t : T} {p : Pc} (hpc : s'.pc = Function.update s.pc t p)
    (i : Fin 64) : s'.Loading i ↔ p.Loads i ∨ ∃ t', t' ≠ t ∧ (s.pc t').Loads i := by
  unfold Proto.Loading
  rw [hpc]
  constructor
  · rintro ⟨t', h⟩
    by_cases ht : t' = t
    · rw [ht, Function.update_self] at h
      exact Or.inl h
    · rw [Function.update_of_ne ht] at h
      exact Or.inr ⟨t', ht, h⟩
  · rintro (h | ⟨t', ht, h⟩)
    · exact ⟨t, by rwa [Function.update_self]⟩
    · exact ⟨t', by rwa [Function.update_of_ne ht]⟩

/-- A step that keeps a thread loading what it was loading. -/
theorem loading_same {s s' : Proto T} {t : T} {p : Pc} (hpc : s'.pc = Function.update s.pc t p)
    (hp : ∀ i, p.Loads i ↔ (s.pc t).Loads i) (i : Fin 64) : s'.Loading i ↔ s.Loading i := by
  rw [loading_update hpc, hp]
  constructor
  · rintro (h | ⟨t', -, h⟩)
    · exact ⟨t, h⟩
    · exact ⟨t', h⟩
  · rintro ⟨t', h⟩
    by_cases ht : t' = t
    · exact Or.inl (ht ▸ h)
    · exact Or.inr ⟨t', ht, h⟩

/-- A step in which a thread begins to load entry `i`. -/
theorem loading_enter {s s' : Proto T} {t : T} {p : Pc} {i : Fin 64}
    (hpc : s'.pc = Function.update s.pc t p) (hp : ∀ j, p.Loads j ↔ j = i)
    (hs : ∀ j, ¬ (s.pc t).Loads j) (j : Fin 64) : s'.Loading j ↔ j = i ∨ s.Loading j := by
  rw [loading_update hpc, hp]
  constructor
  · rintro (h | ⟨t', -, h⟩)
    · exact Or.inl h
    · exact Or.inr ⟨t', h⟩
  · rintro (h | ⟨t', h⟩)
    · exact Or.inl h
    · refine Or.inr ⟨t', ?_, h⟩
      rintro rfl
      exact hs j h

/-- A step in which the thread that loads entry `i` has loaded it. -/
theorem loading_leave {s s' : Proto T} {t : T} {p : Pc} {i : Fin 64}
    (hpc : s'.pc = Function.update s.pc t p) (hp : ∀ j, ¬ p.Loads j)
    (hs : ∀ j, (s.pc t).Loads j ↔ j = i) (halone : ∀ t', (s.pc t').Loads i → t' = t) (j : Fin 64) :
    s'.Loading j ↔ j ≠ i ∧ s.Loading j := by
  rw [loading_update hpc]
  constructor
  · rintro (h | ⟨t', ht, h⟩)
    · exact absurd h (hp j)
    · refine ⟨?_, t', h⟩
      rintro rfl
      exact ht (halone t' h)
  · rintro ⟨hji, t', h⟩
    refine Or.inr ⟨t', ?_, h⟩
    rintro rfl
    exact hji ((hs j).mp h)

end Loading

/-! ### The steps -/

section Steps

variable {s : Proto T} {t : T} {op : CacheOp} {i : Fin 64}

omit [DecidableEq T] in
/-- An entry whose lock is held by a thread that is not loading it is loaded. -/
theorem ProtoInv.not_loading (h : ProtoInv s) (hold : (s.pc t).HoldsEnt i)
    (hpc : ¬ (s.pc t).Loads i) : ¬ s.Loading i := by
  rintro ⟨t', hl⟩
  obtain rfl := h.ctl.not_loading hold hl
  exact hpc hl

/-- Closes the side conditions of `Ctl.walk` that only compare two places. -/
theorem keep_refl (c : Cache) (i : Fin 64) : (c.buffCache i).refCnt = (c.buffCache i).refCnt ∧
    (c.buffCache i).valid = (c.buffCache i).valid ∧
    (c.buffCache i).block = (c.buffCache i).block := ⟨rfl, rfl, rfl⟩

/-- A step that changes neither locks nor cache. -/
theorem ProtoInv.stroll {p : Pc} (h : ProtoInv s) (hc : (s.pc t).HoldsCache ↔ p.HoldsCache)
    (he : ∀ i, (s.pc t).HoldsEnt i ↔ p.HoldsEnt i) (hpin : p.pin = (s.pc t).pin)
    (hfresh : ∀ i, p.Fresh i → (s.pc t).Fresh i) (hl : ∀ i, p.Loads i ↔ (s.pc t).Loads i) :
    ProtoInv (s.goto t p) :=
  ⟨h.ctl.walk rfl (h.ctl.cacheLock.same hc) (h.ctl.entLock_same he) (keep_refl _) hpin hfresh,
    h.data.congr (SameData.refl _) (loading_same rfl hl)⟩

theorem ProtoInv.enter (h : ProtoInv s) (hpc : s.pc t = .start op) (hfree : s.cacheLock = none) :
    ProtoInv ({ s with cacheLock := some t }.goto t (.find op)) :=
  ⟨h.ctl.walk rfl (Holds.acquire (hfree ▸ h.ctl.cacheLock) trivial)
      (h.ctl.entLock_same fun i => by simp [hpc, Pc.HoldsEnt]) (keep_refl _)
      (by rw [hpc]; rfl) (fun i hf => hf.elim),
    h.data.congr (SameData.refl _) (loading_same rfl fun i => by simp [hpc, Pc.Loads])⟩

/-- A hit: the thread holds `cache_lock`, so no entry is fresh in another's hands. -/
theorem ProtoInv.hit (h : ProtoInv s) (hpc : s.pc t = .find op)
    (hscan : cacheScan s.cache.buffCache op.block = .hit i) :
    ProtoInv ({ s with cache := cachePin s.cache i, cacheLock := none }.goto t
      (.hitLock op i)) := by
  obtain ⟨hv, hb⟩ := cacheScan_hit hscan
  have e := sameData_pin s.cache i
  have hhold : (s.pc t).HoldsCache := by rw [hpc]; trivial
  refine ⟨h.ctl.move rfl (h.ctl.cacheLock.release hhold (fun hn => hn))
    (h.ctl.entLock_same fun j => by simp [hpc, Pc.HoldsEnt]) (fun j => ?_)
    (fun _ _ j _ => ⟨e.valid j, e.block j⟩) (fun op' j hp => Or.inr ?_)
    (fun j hf => hf.elim) (fun j hp => Or.inr fun t' ht hf => ht ?_),
    h.data.congr e (loading_same rfl fun j => by simp [hpc, Pc.Loads])⟩
  · show ((cachePin s.cache i).buffCache j).refCnt = count (Pc.Pins j) (Function.update s.pc t _)
    by_cases hji : j = i
    · rw [count_update_enter (by simp [hpc, Pc.Pins, Pc.pin]) (by simp [Pc.Pins, Pc.pin, hji]),
        ← h.ctl.refCnt, hji]
      simp [cachePin]
    · rw [count_update_same (by simp [hpc, Pc.Pins, Pc.pin, Ne.symm hji]), ← h.ctl.refCnt]
      simp [cachePin, setEnt_ent, hji]
  · obtain ⟨rfl, rfl⟩ : op = op' ∧ i = j := by simpa [Pc.pin] using hp
    exact ⟨(e.valid i).trans hv, (e.block i).trans hb⟩
  · refine h.ctl.cacheLock.unique hhold ?_
    revert hf
    cases s.pc t' <;> simp [Pc.Fresh, Pc.HoldsCache]

/-- A miss: the entry picked is unpinned, so nobody else has obtained it. -/
theorem ProtoInv.miss {free : Option (Fin 64)} {c : Cache} (h : ProtoInv s)
    (hpc : s.pc t = .find op) (hscan : cacheScan s.cache.buffCache op.block = .miss free)
    (hclaim : cacheClaim op.block free s.cache = .ok i c) :
    ProtoInv ({ s with cache := c }.goto t (.missLock op i)) ∧
      ∀ t', ¬ (s.pc t').Pins i := by
  obtain ⟨hno, hfree, hall⟩ := cacheScan_miss hscan
  obtain ⟨c₁, rfl, hpick⟩ := cacheClaim_ok hclaim
  -- nobody has obtained the picked entry: it is invalid, or its count is zero
  have hunpinned : ∀ t', ¬ (s.pc t').Pins i := by
    rcases hpick with ⟨hf, -⟩ | ⟨-, hev⟩
    · intro t' hp
      obtain ⟨⟨op', j⟩, hpin, hj⟩ : ∃ q, (s.pc t').pin = some q ∧ q.2 = i := by
        simpa [Pc.Pins, Option.map_eq_some_iff] using hp
      obtain rfl : j = i := hj
      have := (h.ctl.label t' op' j hpin).1
      rw [hfree j hf] at this
      cases this
    · have := hev.free
      rw [h.ctl.refCnt, count_eq_zero] at this
      exact this
  have hnl : ¬ s.Loading i := fun ⟨t', hl⟩ => hunpinned t' (Pc.pins_of_loads hl)
  -- the cache after the pick, before the label
  have hd₁ : Data c₁ s.mem s.Loading ∧ (c₁.buffCache i).valid = false ∧
      (∀ j, (c₁.buffCache j).valid = true → (c₁.buffCache j).block ≠ op.block) ∧
      ∀ j, j ≠ i → (c₁.buffCache j).valid = (s.cache.buffCache j).valid ∧
        (c₁.buffCache j).block = (s.cache.buffCache j).block := by
    rcases hpick with ⟨hf, rfl⟩ | ⟨hf, hev⟩
    · exact ⟨h.data.congr ⟨rfl, fun _ => rfl, fun _ => rfl, fun _ => rfl, fun _ => rfl⟩
        (fun _ => Iff.rfl), hfree i hf, hno, fun j _ => ⟨rfl, rfl⟩⟩
    · refine ⟨h.data.evict hev (hall hf i) hnl, by rw [hev.valid, if_pos rfl], fun j hj => ?_,
        fun j hji => ⟨by rw [hev.valid, if_neg hji], hev.block j⟩⟩
      rw [hev.block]
      exact hno j (hall hf j)
  have href₁ : ∀ j, (c₁.buffCache j).refCnt = (s.cache.buffCache j).refCnt := by
    rcases hpick with ⟨-, rfl⟩ | ⟨-, hev⟩
    · exact fun _ => rfl
    · exact hev.refCnt
  obtain ⟨hdata, hinv, habs, hkeep⟩ := hd₁
  refine ⟨⟨h.ctl.move rfl (h.ctl.cacheLock.same (by simp [hpc, Pc.HoldsCache]))
    (h.ctl.entLock_same fun j => by simp [hpc, Pc.HoldsEnt]) (fun j => ?_) (fun t' op' j hp => ?_)
    (fun op' j hp => Or.inr ?_) (fun j hf => Or.inr fun t' _ => ?_)
    (fun j hp => Or.inr fun t' _ hf => ?_), hdata.label hinv habs fun j => ?_⟩, hunpinned⟩
  · show ((cacheLabel c₁ i op.block).buffCache j).refCnt
      = count (Pc.Pins j) (Function.update s.pc t _)
    by_cases hji : j = i
    · rw [count_update_enter (by simp [hpc, Pc.Pins, Pc.pin]) (by simp [Pc.Pins, Pc.pin, hji]),
        ← h.ctl.refCnt, hji, ← href₁]
      simp [cacheLabel]
    · rw [count_update_same (by simp [hpc, Pc.Pins, Pc.pin, Ne.symm hji]), ← h.ctl.refCnt, ← href₁]
      simp [cacheLabel, setEnt_ent, hji]
  · have hji : j ≠ i := fun he => hunpinned t' (he ▸ Pc.pins_of_pin hp)
    show ((cacheLabel c₁ i op.block).buffCache j).valid = _ ∧
      ((cacheLabel c₁ i op.block).buffCache j).block = _
    rw [cacheLabel, setEnt_ent, if_neg hji]
    exact hkeep j hji
  · obtain ⟨rfl, rfl⟩ : op = op' ∧ i = j := by simpa [Pc.pin] using hp
    simp [Proto.goto, cacheLabel]
  · obtain rfl : i = j := hf
    exact hunpinned t'
  · have : j = i := by simpa [Pc.Pins, Pc.pin, eq_comm] using hp
    subst this
    refine hunpinned t' ?_
    revert hf
    cases s.pc t' <;> simp [Pc.Fresh, Pc.Pins, Pc.pin]
  · exact loading_enter (t := t) (p := .missLock op i) rfl (fun k => eq_comm)
      (by simp [hpc, Pc.Loads]) j

theorem ProtoInv.lockFresh (h : ProtoInv s) (hpc : s.pc t = .missLock op i)
    (hfree : s.entLock i = none) :
    ProtoInv ({ s with entLock := Function.update s.entLock i (some t) }.goto t
      (.missUnlock op i)) :=
  ⟨h.ctl.walk rfl (h.ctl.cacheLock.same (by simp [hpc, Pc.HoldsCache]))
      (h.ctl.entLock_take hfree rfl fun j hj => by simp [hpc, Pc.HoldsEnt, Ne.symm hj])
      (keep_refl _) (by rw [hpc]; rfl) (fun j hf => by simpa [hpc, Pc.Fresh] using hf),
    h.data.congr (SameData.refl _) (loading_same rfl fun j => by simp [hpc, Pc.Loads])⟩

theorem ProtoInv.unlockFresh (h : ProtoInv s) (hpc : s.pc t = .missUnlock op i) :
    ProtoInv ({ s with cacheLock := none }.goto t (.load op i)) :=
  ⟨h.ctl.walk rfl (h.ctl.cacheLock.release (by rw [hpc]; trivial) (fun hn => hn))
      (h.ctl.entLock_same fun j => by simp [hpc, Pc.HoldsEnt]) (keep_refl _)
      (by rw [hpc]; rfl) (fun j hf => hf.elim),
    h.data.congr (SameData.refl _) (loading_same rfl fun j => by simp [hpc, Pc.Loads])⟩

/-- The entry has its contents now, and the thread still holds its lock. -/
theorem ProtoInv.load {c : Cache} (h : ProtoInv s) (hpc : s.pc t = .load op i)
    (hload : cacheLoad op.block i s.cache = .ok ⟨⟩ c) :
    ProtoInv ({ s with cache := c }.goto t (.ready op i)) := by
  obtain ⟨-, rfl⟩ := cacheLoad_ok hload
  have hold : (s.pc t).HoldsEnt i := by rw [hpc]; rfl
  obtain ⟨-, hb⟩ := h.ctl.label t op i (by rw [hpc]; rfl)
  refine ⟨h.ctl.walk rfl (h.ctl.cacheLock.same (by simp [hpc, Pc.HoldsCache]))
    (h.ctl.entLock_same fun j => by simp [hpc, Pc.HoldsEnt]) (fun j => ?_)
    (by rw [hpc]; rfl) (fun j hf => hf.elim), ?_⟩
  · show _ = _ ∧ _ = _ ∧ _ = _
    simp only [Proto.goto, setEnt_ent]
    split
    · next hji => subst hji; exact ⟨rfl, rfl, rfl⟩
    · exact ⟨rfl, rfl, rfl⟩
  · rw [← hb]
    exact h.data.load ⟨t, by rw [hpc]; rfl⟩ (loading_leave rfl (fun j hl => hl)
      (fun j => by simp [hpc, Pc.Loads, eq_comm]) fun t' hl => h.ctl.not_loading hold hl)

theorem ProtoInv.lockHit (h : ProtoInv s) (hpc : s.pc t = .hitLock op i)
    (hfree : s.entLock i = none) :
    ProtoInv ({ s with entLock := Function.update s.entLock i (some t) }.goto t (.ready op i)) :=
  ⟨h.ctl.walk rfl (h.ctl.cacheLock.same (by simp [hpc, Pc.HoldsCache]))
      (h.ctl.entLock_take hfree rfl fun j hj => by simp [hpc, Pc.HoldsEnt, Ne.symm hj])
      (keep_refl _) (by rw [hpc]; rfl) (fun j hf => hf.elim),
    h.data.congr (SameData.refl _) (loading_same rfl fun j => by simp [hpc, Pc.Loads])⟩

theorem ProtoInv.copyOut (h : ProtoInv s) (hpc : s.pc t = .ready op i) :
    ProtoInv ({ s with cache := cacheCopyOut s.cache i }.goto t (.unlock op i)) := by
  have e := sameData_copyOut s.cache i
  refine ⟨h.ctl.walk rfl (h.ctl.cacheLock.same (by simp [hpc, Pc.HoldsCache]))
      (h.ctl.entLock_same fun j => by simp [hpc, Pc.HoldsEnt])
      (fun j => ⟨?_, e.valid j, e.block j⟩) (by rw [hpc]; rfl) (fun j hf => hf.elim),
    h.data.congr e (loading_same rfl fun j => by simp [hpc, Pc.Loads])⟩
  simp only [Proto.goto, cacheCopyOut, setEnt_ent]
  split
  · next hji => rw [hji]
  · rfl

/-- The bytes are in the entry, and it is dirty; nobody else is at this entry past its lock. -/
theorem ProtoInv.copyIn {b : UInt32} {offset : Nat} {buffer : List UInt8} (h : ProtoInv s)
    (hpc : s.pc t = .ready (.write b offset buffer) i) :
    ProtoInv ({ s with
      cache := cacheCopyIn s.cache i offset buffer
      mem := Function.update s.mem b ((s.mem b).splice offset buffer) }.goto t
        (.unlock (.write b offset buffer) i)) := by
  have hold : (s.pc t).HoldsEnt i := by rw [hpc]; rfl
  obtain ⟨hv, hb⟩ := h.ctl.label t _ i (by rw [hpc]; rfl)
  have hnl : ¬ s.Loading i := h.not_loading hold (by simp [hpc, Pc.Loads])
  refine ⟨h.ctl.walk rfl (h.ctl.cacheLock.same (by simp [hpc, Pc.HoldsCache]))
      (h.ctl.entLock_same fun j => by simp [hpc, Pc.HoldsEnt]) (fun j => ?_) (by rw [hpc]; rfl)
      (fun j hf => hf.elim), ?_⟩
  · simp only [Proto.goto, cacheCopyIn, setEnt_ent]
    split
    · next hji => subst hji; exact ⟨rfl, rfl, rfl⟩
    · exact ⟨rfl, rfl, rfl⟩
  · obtain rfl : (s.cache.buffCache i).block = b := hb
    exact h.data.copyIn hv hnl (loading_same rfl fun j => by simp [hpc, Pc.Loads])

theorem ProtoInv.unlockEnt (h : ProtoInv s) (hpc : s.pc t = .unlock op i) :
    ProtoInv ({ s with entLock := Function.update s.entLock i none }.goto t (.put op i)) :=
  ⟨h.ctl.walk rfl (h.ctl.cacheLock.same (by simp [hpc, Pc.HoldsCache]))
      (h.ctl.entLock_drop (by rw [hpc]; rfl) (fun hn => hn)
        fun j hj => by simp [hpc, Pc.HoldsEnt, Ne.symm hj])
      (keep_refl _) (by rw [hpc]; rfl) (fun j hf => hf.elim),
    h.data.congr (SameData.refl _) (loading_same rfl fun j => by simp [hpc, Pc.Loads])⟩

theorem ProtoInv.lockPut (h : ProtoInv s) (hpc : s.pc t = .put op i)
    (hfree : s.cacheLock = none) :
    ProtoInv ({ s with cacheLock := some t }.goto t (.decr op i)) :=
  ⟨h.ctl.walk rfl (Holds.acquire (hfree ▸ h.ctl.cacheLock) trivial)
      (h.ctl.entLock_same fun j => by simp [hpc, Pc.HoldsEnt]) (keep_refl _)
      (by rw [hpc]; rfl) (fun j hf => hf.elim),
    h.data.congr (SameData.refl _) (loading_same rfl fun j => by simp [hpc, Pc.Loads])⟩

/-- `ref_cnt` is one less, and so are the threads that have obtained the entry. -/
theorem ProtoInv.decr (h : ProtoInv s) (hpc : s.pc t = .decr op i) :
    ProtoInv ({ s with cache := cacheUnpin s.cache i, cacheLock := none }.goto t .idle) := by
  have e := sameData_unpin s.cache i
  refine ⟨h.ctl.move rfl (h.ctl.cacheLock.release (by rw [hpc]; trivial) (fun hn => hn))
    (h.ctl.entLock_same fun j => by simp [hpc, Pc.HoldsEnt]) (fun j => ?_)
    (fun _ _ j _ => ⟨e.valid j, e.block j⟩) (fun op' j hp => by simp [Pc.pin] at hp)
    (fun j hf => hf.elim) (fun j hp => by simp [Pc.Pins, Pc.pin] at hp),
    h.data.congr e (loading_same rfl fun j => by simp [hpc, Pc.Loads])⟩
  show ((cacheUnpin s.cache i).buffCache j).refCnt = count (Pc.Pins j) (Function.update s.pc t _)
  by_cases hji : j = i
  · rw [count_update_leave (by simp [hpc, Pc.Pins, Pc.pin, hji]) (by simp [Pc.Pins, Pc.pin]),
      ← h.ctl.refCnt, hji]
    simp [cacheUnpin]
  · rw [count_update_same (by simp [hpc, Pc.Pins, Pc.pin, Ne.symm hji]), ← h.ctl.refCnt]
    simp [cacheUnpin, setEnt_ent, hji]

end Steps

/-- Every step keeps the invariant. -/
theorem protoInv_step {s s' : Proto T} (h : ProtoInv s) (hs : ProtoStep s s') : ProtoInv s' := by
  cases hs with
  | call op hpc =>
      exact h.stroll (by simp [hpc, Pc.HoldsCache]) (by simp [hpc, Pc.HoldsEnt])
        (by rw [hpc]; rfl) (fun i hf => hf.elim) (by simp [hpc, Pc.Loads])
  | zero hpc =>
      exact h.stroll (by simp [hpc, Pc.HoldsCache]) (by simp [hpc, Pc.HoldsEnt])
        (by rw [hpc]; rfl) (fun i hf => hf.elim) (by simp [hpc, Pc.Loads])
  | enter hpc _ hfree => exact h.enter hpc hfree
  | hit hpc hscan => exact h.hit hpc hscan
  | miss hpc hscan hclaim => exact (h.miss hpc hscan hclaim).1
  | lockFresh hpc hfree => exact h.lockFresh hpc hfree
  | unlockFresh hpc => exact h.unlockFresh hpc
  | load hpc hload => exact h.load hpc hload
  | lockHit hpc hfree => exact h.lockHit hpc hfree
  | copyOut hpc => exact h.copyOut hpc
  | copyIn hpc => exact h.copyIn hpc
  | unlockEnt hpc => exact h.unlockEnt hpc
  | lockPut hpc hfree => exact h.lockPut hpc hfree
  | decr hpc => exact h.decr hpc

/-- The states a run of any number of threads can reach after `buff_cache_init`. -/
def ProtoReach (c : Cache) (s : Proto T) : Prop :=
  Relation.ReflTransGen ProtoStep (Proto.init T c) s

theorem protoInv_reach {c : Cache} {s : Proto T} (h : ProtoReach c s) : ProtoInv s :=
  invariant_of_step h (protoInv_init c) fun _ _ ha hs => protoInv_step ha hs

/-! ## What every reachable state satisfies -/

omit [Fintype T] in
/-- Moving one thread to a place other than `missLock` claims nothing. -/
theorem goto_missLock {s s₁ : Proto T} {t t' : T} {p : Pc} {op : CacheOp} {i : Fin 64}
    (hs : s₁.pc = s.pc) (hp : p ≠ .missLock op i) (h : (s₁.goto t p).pc t' = .missLock op i) :
    s.pc t' = .missLock op i := by
  have h' : Function.update s.pc t p t' = .missLock op i := hs ▸ h
  by_cases ht : t' = t
  · rw [ht, Function.update_self] at h'
    exact absurd h' hp
  · rwa [Function.update_of_ne ht] at h'

/-- A step that takes an entry for a new label takes one that nobody has obtained. -/
theorem claim_unpinned {s s' : Proto T} (h : ProtoInv s) (hs : ProtoStep s s') {t' : T}
    {op' : CacheOp} {i : Fin 64} (hclaim : s'.pc t' = .missLock op' i) :
    s.pc t' = .missLock op' i ∨ ∀ t, ¬ (s.pc t).Pins i := by
  cases hs with
  | miss hpc hscan hc =>
      rename_i t op free j c
      by_cases ht : t' = t
      · subst ht
        have hj : (Pc.missLock op j) = .missLock op' i := by
          simpa [Proto.goto] using hclaim
        obtain ⟨-, rfl⟩ : op = op' ∧ j = i := by simpa using hj
        exact Or.inr (h.miss hpc hscan hc).2
      · refine Or.inl ?_
        simpa [Proto.goto, Function.update_of_ne ht] using hclaim
  | _ => exact Or.inl (goto_missLock rfl (by simp) hclaim)

omit [Fintype T] in
/-- Moving a thread that gives nothing back leaves every thread what it has obtained. -/
theorem goto_pin {s s₁ : Proto T} {t t' : T} {p : Pc} {q : CacheOp × Fin 64}
    (hs : s₁.pc = s.pc) (hp : (s.pc t').pin = none ∨ p.pin = (s.pc t').pin)
    (h : (s.pc t).pin = some q) : ((s₁.goto t' p).pc t).pin = some q := by
  show (Function.update s₁.pc t' p t).pin = some q
  rw [hs]
  by_cases ht : t = t'
  · subst ht
    rw [Function.update_self]
    rcases hp with hn | hp
    · rw [hn] at h
      cases h
    · rw [hp, h]
  · rw [Function.update_of_ne ht, h]

/-- No step, not even the decrement, touches the label of an entry somebody has
obtained. -/
theorem label_step {s s' : Proto T} (h : ProtoInv s) (hs : ProtoStep s s') {t : T} {op : CacheOp}
    {i : Fin 64} (hp : (s.pc t).pin = some (op, i)) :
    (s'.cache.buffCache i).valid = true ∧ (s'.cache.buffCache i).block = op.block := by
  have hinv := protoInv_step h hs
  cases hs with
  | decr hpc =>
      rename_i t' op' j
      obtain ⟨hv, hb⟩ := h.ctl.label t op i hp
      have e := sameData_unpin s.cache j
      exact ⟨(e.valid i).trans hv, (e.block i).trans hb⟩
  | _ => exact hinv.ctl.label t op i (goto_pin rfl (by simp_all [Pc.pin]) hp)

omit [DecidableEq T] in
/-- The bytes a thread works on between its two uses of the entry's lock. -/
theorem ProtoInv.settled {s : Proto T} (h : ProtoInv s) {t : T} {op : CacheOp} {i : Fin 64}
    (hpc : s.pc t = .ready op i ∨ s.pc t = .unlock op i) :
    s.entLock i = some t ∧ (s.cache.buffCache i).valid = true ∧
      (s.cache.buffCache i).block = op.block ∧ (s.cache.buffCache i).data = s.mem op.block := by
  have hold : (s.pc t).HoldsEnt i := by rcases hpc with hpc | hpc <;> rw [hpc] <;> rfl
  obtain ⟨hv, hb⟩ := h.ctl.label t op i (by rcases hpc with hpc | hpc <;> rw [hpc] <;> rfl)
  have hnl : ¬ s.Loading i := h.not_loading hold (by
    rcases hpc with hpc | hpc <;> simp [hpc, Pc.Loads])
  refine ⟨(h.ctl.entLock i t).mpr hold, hv, hb, ?_⟩
  rw [h.data.fresh i hv hnl, hb]

/-- The protocol of the buffer cache.  In every state that any number of threads
can reach, in any interleaving: valid entries have distinct labels; an entry's
`ref_cnt` is the number of threads that have obtained it; an entry with `ref_cnt`
zero is unlocked, and so is one about to be locked for loading; a thread past
`cache_find_ent` holds the lock of an entry with its label and its sector's
contents; and an entry somebody has obtained keeps its label and is not taken by
any step. -/
theorem cache_protocol {c : Cache} {s : Proto T} (h : ProtoReach c s) :
    (∀ i j, (s.cache.buffCache i).valid = true → (s.cache.buffCache j).valid = true →
      (s.cache.buffCache i).block = (s.cache.buffCache j).block → i = j) ∧
    (∀ i, (s.cache.buffCache i).refCnt = count (Pc.Pins i) s.pc) ∧
    (∀ i, (s.cache.buffCache i).refCnt = 0 → s.entLock i = none) ∧
    (∀ t op i, s.pc t = .missLock op i → s.entLock i = none) ∧
    (∀ t op i, s.pc t = .ready op i ∨ s.pc t = .unlock op i →
      s.entLock i = some t ∧ (s.cache.buffCache i).valid = true ∧
        (s.cache.buffCache i).block = op.block ∧
        (s.cache.buffCache i).data = s.mem op.block) ∧
    (∀ t op i, (s.pc t).pin = some (op, i) →
      (s.cache.buffCache i).valid = true ∧ (s.cache.buffCache i).block = op.block ∧
        ∀ s', ProtoStep s s' →
          (s'.cache.buffCache i).valid = true ∧ (s'.cache.buffCache i).block = op.block ∧
          ∀ t' op', s'.pc t' = .missLock op' i → s.pc t' = .missLock op' i) := by
  have hinv := protoInv_reach h
  refine ⟨hinv.data.uniq, hinv.ctl.refCnt, fun i => hinv.ctl.entLock_free,
    fun t op i => hinv.ctl.fresh_free, fun t op i => hinv.settled, fun t op i hp => ?_⟩
  obtain ⟨hv, hb⟩ := hinv.ctl.label t op i hp
  refine ⟨hv, hb, fun s' hs => ?_⟩
  obtain ⟨hv', hb'⟩ := label_step hinv hs hp
  refine ⟨hv', hb', fun t' op' hc => ?_⟩
  rcases claim_unpinned hinv hs hc with hold | hno
  · exact hold
  · exact absurd (Pc.pins_of_pin hp) (hno t)

/-- A first read: thread 0 of two misses, takes the last entry, loads sector 3 and
finds there what the device held. -/
theorem cache_protocol_load :
    ∃ s : Proto (Fin 2), ProtoReach (bootCache ⟨8, fun b => Block.fill b.toUInt8⟩) s ∧
      s.pc 0 = .ready (.read 3 0 512) 63 ∧ (s.cache.buffCache 63).refCnt = count (Pc.Pins 63) s.pc ∧
      s.entLock 63 = some 0 ∧ (s.cache.buffCache 63).data = Block.fill 3 := by
  let c₀ := bootCache ⟨8, fun b => Block.fill b.toUInt8⟩
  let c₁ := cacheLabel { buffCacheInit c₀ with missCnt := 1 } 63 3
  let op : CacheOp := .read 3 0 512
  let s₀ := Proto.init (Fin 2) c₀
  let s₁ := s₀.goto 0 (.start op)
  let s₂ := { s₁ with cacheLock := some 0 }.goto 0 (.find op)
  let s₃ := { s₂ with cache := c₁ }.goto 0 (.missLock op 63)
  let s₄ := { s₃ with entLock := Function.update s₃.entLock 63 (some 0) }.goto 0
    (.missUnlock op 63)
  let s₅ := { s₄ with cacheLock := none }.goto 0 (.load op 63)
  let c₂ := c₁.setEnt 63 { c₁.buffCache 63 with data := Block.fill 3 }
  let s₆ := { s₅ with cache := c₂ }.goto 0 (.ready op 63)
  have h1 : ProtoStep s₀ s₁ := .call op rfl
  have hne : (3 : UInt32) ≠ unallocated := by decide
  have h2 : ProtoStep s₁ s₂ := .enter rfl (fun _ _ he => hne (CacheOp.read.inj he).1) rfl
  have hscan : cacheScan s₂.cache.buffCache op.block = .miss (some 63) := by decide
  have h3 : ProtoStep s₂ s₃ := .miss rfl hscan rfl
  have h4 : ProtoStep s₃ s₄ := .lockFresh rfl rfl
  have h5 : ProtoStep s₄ s₅ := .unlockFresh rfl
  have h6 : ProtoStep s₅ s₆ := .load rfl rfl
  have hr : ProtoReach c₀ s₆ :=
    (((((Relation.ReflTransGen.single h1).tail h2).tail h3).tail h4).tail h5).tail h6
  obtain ⟨-, href, -, -, hready, -⟩ := cache_protocol hr
  obtain ⟨hl, -, -, hd⟩ := hready 0 op 63 (Or.inl rfl)
  exact ⟨s₆, hr, rfl, href 63, hl, hd⟩

end CS162.Fs
