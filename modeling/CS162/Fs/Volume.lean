/-
# `CS162.Fs.Volume` — the state of the file system, and the logic over it

The state `FsState` is what the C files share: the buffer cache over its device, the
free map, the list of open inodes.  `CalmCache` is a cache as it is between two
calls, carrying the proof that it is coherent and that nothing is pinned; every
access goes through `cacheRead`, `cacheWrite` and their `Len` forms, which keep
that proof.

`Vol` is the same state with the cache replaced by the disk it shows.  `FsState.vol`
forgets the rest, and `vwp` is the logic of `CS162.Lib.Wp` through `FsState.vol`: on
its level a cache access is an access to a plain disk (`vwp_cacheRead`,
`vwp_cacheWrite`), and the cache is not seen again above this module.

`allocFailed` is a history variable: it records that some `free_map_allocate`
has returned false.
-/
import CS162.Fs.CacheRefine
import CS162.Fs.Bitmap

namespace CS162.Fs

open Bytes Wp Cache

/-! ## What sectors hold -/

/-- `block_sector_t buffer[128]`. -/
abbrev Table := Fin 128 → UInt32

namespace Table

def ofSector (b : Sector) : Table := fun i => b.word i.val

def toSector (t : Table) : Sector :=
  Block.ofWords fun k => if h : k < 128 then t ⟨k, h⟩ else 0

@[simp] theorem ofSector_toSector (t : Table) : ofSector t.toSector = t := by
  funext i
  have := i.isLt
  simp only [ofSector, toSector]
  rw [Block.word_ofWords _ (by omega), dif_pos i.isLt]

end Table

/-- `ZEROS_BLOCK`. -/
def zerosBlock : Sector := Block.fill 0

/-- `UNALLOCATED_BLOCK`. -/
def unallocatedBlock : Sector := Block.fill 255

@[simp] theorem ofSector_unallocatedBlock (i : Fin 128) :
    Table.ofSector unallocatedBlock i = unallocated := by
  have := i.isLt
  simp only [Table.ofSector, unallocatedBlock, Block.word]
  rw [Block.get_fill (by omega), Block.get_fill (by omega), Block.get_fill (by omega),
    Block.get_fill (by omega)]
  decide

/-- `struct inode_disk`. -/
structure InodeDisk where
  directPointers : Fin 123 → UInt32
  doublyIndirect : UInt32
  isDir : Int32
  length : Int32
  children : Int32
  magic : UInt32

namespace InodeDisk

/-- `length` as a number; no inode has a negative one. -/
def len (id : InodeDisk) : Nat := id.length.toNatClampNeg

/-- `id->length = size`. -/
def setLen (id : InodeDisk) (size : Nat) : InodeDisk := { id with length := Int32.ofNat size }

/-- The 128 words of the struct. -/
def words (id : InodeDisk) (k : Nat) : UInt32 :=
  if h : k < 123 then id.directPointers ⟨k, h⟩
  else if k = 123 then id.doublyIndirect
  else if k = 124 then id.isDir.toUInt32
  else if k = 125 then id.length.toUInt32
  else if k = 126 then id.children.toUInt32
  else id.magic

def toSector (id : InodeDisk) : Sector := Block.ofWords id.words

def ofSector (b : Sector) : InodeDisk where
  directPointers i := b.word i.val
  doublyIndirect := b.word 123
  isDir := (b.word 124).toInt32
  length := (b.word 125).toInt32
  children := (b.word 126).toInt32
  magic := b.word 127

@[simp] theorem ofSector_toSector (id : InodeDisk) : ofSector id.toSector = id := by
  have hw : ∀ k, k < 128 → id.toSector.word k = id.words k :=
    fun k hk => Block.word_ofWords _ (by omega)
  have hdirect : (fun i : Fin 123 => id.toSector.word i.val) = id.directPointers := by
    funext i
    have := i.isLt
    rw [hw _ (by omega), words, dif_pos i.isLt]
  simp only [ofSector, hdirect, hw 123 (by omega), hw 124 (by omega), hw 125 (by omega),
    hw 126 (by omega), hw 127 (by omega)]
  simp [words]

theorem len_setLen {id : InodeDisk} {size : Nat} (h : size < 2 ^ 31) : (id.setLen size).len = size :=
  Int32.toNatClampNeg_ofNat_of_lt h

theorem len_lt (id : InodeDisk) : id.len < 2 ^ 31 := by
  have h := id.length.toInt_lt
  unfold len Int32.toNatClampNeg
  omega

end InodeDisk

/-- `struct inode`, without its list element and its lock. -/
structure Inode where
  sector : UInt32
  openCnt : Nat
  removed : Bool
  denyWriteCnt : Nat
  data : InodeDisk

/-! ## The state -/

/-- A cache between two calls. -/
structure CalmCache where
  cache : Cache
  coherent : Coherent cache
  quiet : Quiet cache

/-- The file system's globals: `fs_cache.c`, `free-map.c` and `inode.c`.  An open
inode is pointed to by its sector. -/
structure FsState where
  buffCache : CalmCache
  freeMap : Bitmap
  freeMapFile : Bool
  openInodes : List Inode
  allocFailed : Bool

abbrev FsM := EStateM Panic FsState

namespace CalmCache

/-- Run a cache function that keeps the cache calm.  When it stops the machine,
the state is the one before the call. -/
def run {α : Type} (x : CacheM α) (cc : CalmCache)
    (hx : wp x (fun _ c => Coherent c ∧ Quiet c) (fun _ _ => True) cc.cache) :
    EStateM.Result Panic CalmCache α :=
  match h : x cc.cache with
  | .ok a c => .ok a ⟨c, ((wp_ok h).mp hx).1, ((wp_ok h).mp hx).2⟩
  | .error e _ => .error e cc

theorem steady (cc : CalmCache) : Steady cc.cache.view cc.cache.fsDevice.size cc.cache :=
  ⟨cc.coherent, shows_view cc.coherent, cc.quiet, rfl⟩

theorem readLen_calm (cc : CalmCache) (block : UInt32) (offset len : Nat) :
    wp (cacheReadLen block offset len) (fun _ c => Coherent c ∧ Quiet c) (fun _ _ => True)
      cc.cache := by
  by_cases hb : block < cc.cache.fsDevice.size
  · exact wp_mono (cacheReadLen_spec cc.steady hb) (fun _ _ h => ⟨h.2.coherent, h.2.quiet⟩)
      (fun _ _ _ => trivial)
  · unfold cacheReadLen
    refine wp_ite (fun _ => ⟨cc.coherent, cc.quiet⟩) (fun _ => ?_)
    exact wp_bind.mpr (wp_mono (cacheFindEnt_pastEnd cc.coherent cc.quiet hb)
      (fun _ _ h => h.elim) (fun _ _ _ => trivial))

theorem writeLen_calm (cc : CalmCache) (block : UInt32) (offset : Nat) (buffer : List UInt8) :
    wp (cacheWriteLen block offset buffer) (fun _ c => Coherent c ∧ Quiet c) (fun _ _ => True)
      cc.cache := by
  by_cases hb : block < cc.cache.fsDevice.size
  · exact wp_mono (cacheWriteLen_spec cc.steady hb) (fun _ _ h => ⟨h.coherent, h.quiet⟩)
      (fun _ _ _ => trivial)
  · exact wp_bind.mpr (wp_mono (cacheFindEnt_pastEnd cc.coherent cc.quiet hb)
      (fun _ _ h => h.elim) (fun _ _ _ => trivial))

/-- After `buff_cache_init`. -/
def init (dev : BlockDev) : CalmCache :=
  ⟨buffCacheInit (bootCache dev), buffCacheInit_coherent _, buffCacheInit_quiet _⟩

end CalmCache

/-- `cache_read_len`, as the layers above call it. -/
def cacheReadLenFs (block : UInt32) (offset len : Nat) : FsM (List UInt8) := fun fs =>
  match fs.buffCache.run _ (fs.buffCache.readLen_calm block offset len) with
  | .ok a cc => .ok a { fs with buffCache := cc }
  | .error e _ => .error e fs

/-- `cache_write_len`, as the layers above call it. -/
def cacheWriteLenFs (block : UInt32) (offset : Nat) (buffer : List UInt8) : FsM Unit := fun fs =>
  match fs.buffCache.run _ (fs.buffCache.writeLen_calm block offset buffer) with
  | .ok a cc => .ok a { fs with buffCache := cc }
  | .error e _ => .error e fs

/-- `cache_read`. -/
def cacheRead (block : UInt32) : FsM Sector := do
  return Block.ofList (← cacheReadLenFs block 0 512)

/-- `cache_write`. -/
def cacheWrite (block : UInt32) (buffer : Sector) : FsM Unit :=
  cacheWriteLenFs block 0 (buffer.slice 0 512)

/-! ## The volume -/

/-- The state with the cache and its device seen as one disk. -/
structure Vol where
  disk : UInt32 → Sector
  size : UInt32
  freeMap : Bitmap
  freeMapFile : Bool
  openInodes : List Inode
  allocFailed : Bool

def FsState.vol (fs : FsState) : Vol where
  disk := fs.buffCache.cache.view
  size := fs.buffCache.cache.fsDevice.size
  freeMap := fs.freeMap
  freeMapFile := fs.freeMapFile
  openInodes := fs.openInodes
  allocFailed := fs.allocFailed

/-- The disk with one sector overwritten. -/
def Vol.write (v : Vol) (x : UInt32) (b : Sector) : Vol :=
  { v with disk := Function.update v.disk x b }

@[simp] theorem Vol.write_self (v : Vol) (x : UInt32) (b : Sector) : (v.write x b).disk x = b := by
  simp [Vol.write]

theorem Vol.write_other (v : Vol) {x y : UInt32} (b : Sector) (h : y ≠ x) :
    (v.write x b).disk y = v.disk y := by
  simp [Vol.write, h]

/-- `wp` through `FsState.vol`. -/
abbrev vwp {α : Type} (x : FsM α) (Q : α → Vol → Prop) (E : Panic → Vol → Prop) (v : Vol) : Prop :=
  wpOn FsState.vol x Q E v

variable {v : Vol} {E : Panic → Vol → Prop}

theorem CalmCache.run_ok {α : Type} {x : CacheM α} {cc : CalmCache}
    {Q : α → Cache → Prop} (hx) (h : wp x Q never cc.cache) :
    ∃ a cc', cc.run x hx = .ok a cc' ∧ Q a cc'.cache := by
  obtain ⟨a, c, hr, hq⟩ := wp_never.mp h
  unfold CalmCache.run
  split
  · next a' c' hr' =>
      rw [hr] at hr'
      cases hr'
      exact ⟨a, _, rfl, hq⟩
  · next e c' hr' =>
      rw [hr] at hr'
      cases hr'

theorem CalmCache.run_error {α : Type} {x : CacheM α} {cc : CalmCache} {p : Panic} (hx)
    (h : wp x (fun _ _ => False) (fun e _ => e = p) cc.cache) : cc.run x hx = .error p cc := by
  unfold CalmCache.run
  split
  · next a' c' hr' => exact ((wp_ok hr').mp h).elim
  · next e c' hr' =>
      have : e = p := (wp_error hr').mp h
      rw [this]

theorem vwp_cacheReadLen {block : UInt32} {offset len : Nat} {Q : List UInt8 → Vol → Prop}
    (hb : block < v.size) (h : Q ((v.disk block).slice offset len) v) :
    vwp (cacheReadLenFs block offset len) Q E v := by
  rintro fs rfl
  obtain ⟨a, cc, hr, rfl, hst⟩ := CalmCache.run_ok (fs.buffCache.readLen_calm block offset len)
    (cacheReadLen_spec fs.buffCache.steady hb)
  have hvol : FsState.vol { fs with buffCache := cc } = fs.vol := by
    simp only [FsState.vol, ← hst.shows.eq_view, hst.size]
  unfold wp cacheReadLenFs
  rw [hr]
  show Q _ (FsState.vol { fs with buffCache := cc })
  rw [hvol]
  exact h

theorem vwp_cacheWriteLen {block : UInt32} {offset : Nat} {buffer : List UInt8}
    {Q : Unit → Vol → Prop} (hb : block < v.size)
    (h : Q () (v.write block ((v.disk block).splice offset buffer))) :
    vwp (cacheWriteLenFs block offset buffer) Q E v := by
  rintro fs rfl
  obtain ⟨a, cc, hr, hst⟩ := CalmCache.run_ok (fs.buffCache.writeLen_calm block offset buffer)
    (cacheWriteLen_spec fs.buffCache.steady hb)
  have hvol : FsState.vol { fs with buffCache := cc }
      = fs.vol.write block ((fs.vol.disk block).splice offset buffer) := by
    simp only [FsState.vol, Vol.write, ← hst.shows.eq_view, hst.size]
  unfold wp cacheWriteLenFs
  rw [hr]
  show Q _ (FsState.vol { fs with buffCache := cc })
  rw [hvol]
  exact h

/-- Writing past the end of the device, the sector `UNALLOCATED` included. -/
theorem vwp_cacheWriteLen_pastEnd {block : UInt32} {offset : Nat} {buffer : List UInt8}
    {Q : Unit → Vol → Prop} (hb : ¬ block < v.size) (h : E .pastEnd v) :
    vwp (cacheWriteLenFs block offset buffer) Q E v := by
  rintro fs rfl
  have hr := CalmCache.run_error (fs.buffCache.writeLen_calm block offset buffer)
    (wp_bind.mpr (wp_mono (cacheFindEnt_pastEnd fs.buffCache.coherent fs.buffCache.quiet hb)
      (fun _ _ hf => hf.elim) (fun _ _ he => he)))
  unfold wp cacheWriteLenFs
  rw [hr]
  exact h

theorem vwp_cacheRead {block : UInt32} {Q : Sector → Vol → Prop} (hb : block < v.size)
    (h : Q (v.disk block) v) : vwp (cacheRead block) Q E v := by
  refine wpOn_seq (vwp_cacheReadLen (Q := fun a v' => a = (v.disk block).slice 0 512 ∧ v' = v) hb
    ⟨rfl, rfl⟩) ?_
  intro a v' ha
  refine wpOn_pure ?_
  rw [ha.1, ha.2, Block.ofList_slice]
  exact h

theorem vwp_cacheWrite {block : UInt32} {buffer : Sector} {Q : Unit → Vol → Prop}
    (hb : block < v.size) (h : Q () (v.write block buffer)) :
    vwp (cacheWrite block buffer) Q E v := by
  refine vwp_cacheWriteLen hb ?_
  rw [Block.splice_slice_self]
  exact h

theorem vwp_cacheWrite_pastEnd {block : UInt32} {buffer : Sector} {Q : Unit → Vol → Prop}
    (hb : ¬ block < v.size) (h : E .pastEnd v) : vwp (cacheWrite block buffer) Q E v :=
  vwp_cacheWriteLen_pastEnd hb h

end CS162.Fs
