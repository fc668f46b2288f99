/-
# `CS162.Fs.Cache` — the buffer cache of `filesys/fs_cache.c`

Sixty-four entries, a clock hand, and the device below.  The functions are those
of the C file, in its order: `buffCacheInit`, `cacheEvict`, `cacheFindEnt`,
`cacheReadLen`, `cacheWriteLen` and `cacheFlush`.

This is the sequential reading: one call runs at a time, so every lock is free
when it is asked for and the locks carry no information.  The reading with
threads and locks is `CS162.Fs.CacheProto`; both use the same `cacheScan`,
`cacheEvict` and entry updates.

A routine returns or stops the machine, see `Panic`.  The `while (1)` of
`cache_evict` is cut off after the hand has gone round twice: if it has found
nothing by then it never will (`cacheEvict_spec` and `cacheEvictLoop_pinned` in
`CS162.Fs.CacheRefine`), and the machine is spinning.
-/
import CS162.Lib.Wp
import CS162.Lib.Bytes
import Mathlib.Data.Fin.Basic
import Mathlib.Logic.Function.Basic

namespace CS162.Fs

open Bytes

/-- The ways a file-system call stops the kernel instead of returning. -/
inductive Panic where
  /-- `check_sector`: access past the end of the device. -/
  | pastEnd
  /-- `ASSERT (bitmap_all (free_map, sector, cnt))` in `free_map_release`. -/
  | bitmapAll
  /-- `ASSERT (start + cnt <= b->bit_cnt)` in the functions of `bitmap.c`. -/
  | bitmapRange
  /-- `ASSERT (!lock_held_by_current_thread (lock))` in `lock_acquire`. -/
  | lockHeld
  /-- A pointer that is null, or whose object has been freed, is followed. -/
  | badPointer
  /-- A recursion deeper than the kernel stack. -/
  | stack
  /-- A loop that never ends. -/
  | spin
  /-- An explicit `PANIC`. -/
  | fatal
  deriving DecidableEq, Repr

/-! ## The device -/

/-- One sector: `BLOCK_SECTOR_SIZE` bytes. -/
abbrev Sector := Block 512

/-- `block_sector_t` with value `-1`. -/
def unallocated : UInt32 := 4294967295

/-- A block device: its size in sectors and what each holds. -/
structure BlockDev where
  size : UInt32
  data : UInt32 → Sector

/-- The device after a sector has been written. -/
def BlockDev.write (dev : BlockDev) (sector : UInt32) (buffer : Sector) : BlockDev :=
  { dev with data := Function.update dev.data sector buffer }

@[simp] theorem BlockDev.write_size (dev : BlockDev) (sector : UInt32) (buffer : Sector) :
    (dev.write sector buffer).size = dev.size := rfl

theorem BlockDev.write_data (dev : BlockDev) (sector b : UInt32) (buffer : Sector) :
    (dev.write sector buffer).data b = if b = sector then buffer else dev.data b := by
  simp [BlockDev.write, Function.update_apply]

/-! ## Data -/

/-- `struct cache_ent`, without its lock. -/
structure CacheEnt where
  block : UInt32
  valid : Bool
  dirty : Bool
  use : Bool
  refCnt : Nat
  data : Sector

/-- `CACHE_SIZE`. -/
abbrev cacheSize : Nat := 64

/-- The globals of `fs_cache.c` and the device under them. -/
structure Cache where
  clkHand : Fin 64
  buffCache : Fin 64 → CacheEnt
  hitCnt : UInt32
  missCnt : UInt32
  fsDevice : BlockDev

/-- The globals at boot: all of `buff_cache` is zero. -/
def bootCache (dev : BlockDev) : Cache where
  clkHand := 0
  buffCache := fun _ => ⟨0, false, false, false, 0, Block.fill 0⟩
  hitCnt := 0
  missCnt := 0
  fsDevice := dev

namespace Cache

/-- Overwrite one entry. -/
def setEnt (c : Cache) (i : Fin 64) (e : CacheEnt) : Cache :=
  { c with buffCache := Function.update c.buffCache i e }

variable (c : Cache) (i j : Fin 64) (e : CacheEnt)

@[simp] theorem setEnt_self : (c.setEnt i e).buffCache i = e := by simp [setEnt]

theorem setEnt_ent : (c.setEnt i e).buffCache j = if j = i then e else c.buffCache j := by
  simp [setEnt, Function.update_apply]

@[simp] theorem setEnt_setEnt (e' : CacheEnt) : (c.setEnt i e).setEnt i e' = c.setEnt i e' := by
  simp [setEnt]

@[simp] theorem setEnt_fsDevice : (c.setEnt i e).fsDevice = c.fsDevice := rfl
@[simp] theorem setEnt_clkHand : (c.setEnt i e).clkHand = c.clkHand := rfl

end Cache

abbrev CacheM := EStateM Panic Cache

/-! ## The code -/

/-- `block_read (fs_device, sector, …)`. -/
def blockRead (sector : UInt32) : CacheM Sector := do
  let c ← get
  if sector < c.fsDevice.size then return c.fsDevice.data sector else throw .pastEnd

/-- `block_write (fs_device, sector, …)`. -/
def blockWrite (sector : UInt32) (buffer : Sector) : CacheM Unit := do
  let c ← get
  if sector < c.fsDevice.size then
    set { c with fsDevice := c.fsDevice.write sector buffer }
  else throw .pastEnd

/-- `buff_cache_init`.  `block`, `dirty` and `data` keep whatever they held. -/
def buffCacheInit (c : Cache) : Cache :=
  { c with
    buffCache := fun i => { c.buffCache i with refCnt := 0, valid := false, use := false }
    hitCnt := 0
    missCnt := 0 }

/-- The body of the loop of `cache_evict` for at most `fuel` rounds. -/
def cacheEvictLoop : Nat → CacheM (Fin 64)
  | 0 => throw .spin
  | fuel + 1 => do
      -- move clock hand; addition in `Fin 64` is `% CACHE_SIZE`
      modify fun c => { c with clkHand := c.clkHand + 1 }
      let i := (← get).clkHand
      let e := (← get).buffCache i
      if e.refCnt = 0 ∧ e.use = false then
        -- write to disk if it was dirty
        if e.dirty = true then blockWrite e.block e.data
        modify fun c => c.setEnt i { e with dirty := false, valid := false }
        return i
      else
        modify fun c => c.setEnt i { e with use := false }
        cacheEvictLoop fuel

/-- A turn of the loop that passes over an entry: the hand has moved on to it and its
`use` bit is gone. -/
def passOver (c : Cache) : Cache :=
  { c with clkHand := c.clkHand + 1 }.setEnt (c.clkHand + 1)
    { c.buffCache (c.clkHand + 1) with use := false }

/-- The turn that takes the entry under the hand, with the device as `dev`. -/
def takeEnt (c : Cache) (dev : BlockDev) : Cache :=
  { c with clkHand := c.clkHand + 1, fsDevice := dev }.setEnt (c.clkHand + 1)
    { c.buffCache (c.clkHand + 1) with dirty := false, valid := false }

/-- `cache_evict`. -/
def cacheEvict : CacheM (Fin 64) := cacheEvictLoop (2 * cacheSize)

/-- What the loop of `cache_find_ent` finds. -/
inductive Scan where
  | hit (i : Fin 64)
  | miss (freeEnt : Option (Fin 64))
  deriving DecidableEq

/-- The loop of `cache_find_ent` over the entries `is`, with the free entry
recorded so far. -/
def cacheScanFrom (ents : Fin 64 → CacheEnt) (block : UInt32) :
    List (Fin 64) → Option (Fin 64) → Scan
  | [], freeEnt => .miss freeEnt
  | i :: is, freeEnt =>
      if (ents i).valid = false then cacheScanFrom ents block is (some i)
      else if (ents i).block = block then .hit i
      else cacheScanFrom ents block is freeEnt

def cacheScan (ents : Fin 64 → CacheEnt) (block : UInt32) : Scan :=
  cacheScanFrom ents block (List.finRange 64) none

/-- The entry a miss uses: a free one if the scan saw any, else a victim. -/
def cachePick : Option (Fin 64) → CacheM (Fin 64)
  | some i => pure i
  | none => cacheEvict

/-- Pin the entry and declare it loaded and valid: `e->ref_cnt++`,
`e->block = block`, `e->valid = 1`. -/
def cacheLabel (c : Cache) (i : Fin 64) (block : UInt32) : Cache :=
  c.setEnt i
    { c.buffCache i with refCnt := (c.buffCache i).refCnt + 1, block := block, valid := true }

/-- The critical section of `cache_find_ent` on a miss. -/
def cacheClaim (block : UInt32) (freeEnt : Option (Fin 64)) : CacheM (Fin 64) := do
  modify fun c => { c with missCnt := c.missCnt + 1 }
  let i ← cachePick freeEnt
  modify fun c => cacheLabel c i block
  return i

/-- The critical section of `cache_find_ent` on a hit. -/
def cachePin (c : Cache) (i : Fin 64) : Cache :=
  { c.setEnt i { c.buffCache i with refCnt := (c.buffCache i).refCnt + 1 } with
    hitCnt := c.hitCnt + 1 }

/-- Load a labelled entry: `block_read (fs_device, block, &e->data)`. -/
def cacheLoad (block : UInt32) (i : Fin 64) : CacheM Unit := do
  let d ← blockRead block
  modify fun c => c.setEnt i { c.buffCache i with data := d }

/-- `cache_find_ent`. -/
def cacheFindEnt (block : UInt32) : CacheM (Fin 64) := do
  match cacheScan (← get).buffCache block with
  | .hit i =>
      modify fun c => cachePin c i
      return i
  | .miss freeEnt =>
      let i ← cacheClaim block freeEnt
      cacheLoad block i
      return i

/-- The decrement that ends `cache_read_len` and `cache_write_len`. -/
def cacheUnpin (c : Cache) (i : Fin 64) : Cache :=
  c.setEnt i { c.buffCache i with refCnt := (c.buffCache i).refCnt - 1 }

/-- `e->use = 1` after the copy out of a read. -/
def cacheCopyOut (c : Cache) (i : Fin 64) : Cache :=
  c.setEnt i { c.buffCache i with use := true }

/-- The copy into the entry of a write, with its `dirty` and `use` marks. -/
def cacheCopyIn (c : Cache) (i : Fin 64) (offset : Nat) (buffer : List UInt8) : Cache :=
  c.setEnt i { c.buffCache i with
    data := (c.buffCache i).data.splice offset buffer, dirty := true, use := true }

/-- `cache_read_len`. -/
def cacheReadLen (block : UInt32) (offset len : Nat) : CacheM (List UInt8) := do
  if block = unallocated then return List.replicate len 0
  else
    let i ← cacheFindEnt block
    let buffer := ((← get).buffCache i).data.slice offset len
    modify fun c => cacheUnpin (cacheCopyOut c i) i
    return buffer

/-- `cache_write_len`; the buffer carries its length. -/
def cacheWriteLen (block : UInt32) (offset : Nat) (buffer : List UInt8) : CacheM Unit := do
  let i ← cacheFindEnt block
  modify fun c => cacheUnpin (cacheCopyIn c i offset buffer) i

/-- One turn of the loop of `cache_flush`. -/
def cacheFlushEnt (i : Fin 64) : CacheM Unit := do
  let e := (← get).buffCache i
  if e.valid = true ∧ e.dirty = true then blockWrite e.block e.data

/-- `cache_flush`. -/
def cacheFlush : CacheM Unit := (List.finRange 64).forM cacheFlushEnt

end CS162.Fs
