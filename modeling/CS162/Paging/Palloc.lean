/-
# `CS162.Paging.Palloc` — `threads/palloc.c`

The page allocator: two pools of pages, with a bitmap of the pages in use each.  The bitmaps are at the
bottom of the pools, below the pages that are handed out; here they are a field of their own, and
`pallocInit_ok` says where they are.

Memory is by words, since nothing that allocates pages or enters them in page tables looks at less.
`Machine` has the registers and the variables that `userprog/pagedir.c` adds to that.

The specs of the calls say what they do to the pages in use: `Got` of a run of pages that is handed out,
`Freed` of one that is given back, `Laid` of the pools that `palloc_init` lays out.
-/
import CS162.Fs.BitmapElems
import CS162.Lib.Wp
import CS162.Userprog.UserMem
import Mathlib.Order.CompletePartialOrder

namespace CS162.Paging

open Fs.Elem Userprog.UserMem Wp

/-! ## The model -/

/-- What stops the kernel: an assertion, `NOT_REACHED`, or a panic of its own. -/
inductive Panic where
  | assertion
  | notReached
  | outOfPages
  | noMemory
deriving DecidableEq

/-- `PGSIZE`. -/
def pgSize : UInt32 := 4096

/-- `struct pool`, less its lock. -/
structure Pool where
  usedMap : Map
  base : UInt32

/-- The pools, the words of the memory, `init_ram_pages`, `init_page_dir`, the register CR3, and the
translations that the processor has cached, by page number. -/
structure Machine where
  kernelPool : Pool
  userPool : Pool
  words : UInt32 → UInt32
  initRamPages : UInt32
  initPageDir : UInt32
  cr3 : UInt32
  tlb : UInt32 → Option UInt32

abbrev KernelM := EStateM Panic Machine

/-- `enum palloc_flags`. -/
structure Flags where
  assert : Bool
  zero : Bool
  user : Bool

namespace Machine

/-- `user_pool` or `kernel_pool`. -/
def pool (m : Machine) (user : Bool) : Pool := if user then m.userPool else m.kernelPool

def setPool (m : Machine) (user : Bool) (p : Pool) : Machine :=
  if user then { m with userPool := p } else { m with kernelPool := p }

/-- `memset` of whole pages, by words. -/
def fill (m : Machine) (pages size w : UInt32) : Machine :=
  { m with words := fun a => if a - pages < size then w else m.words a }

end Machine

/-- A call of `bitmap.c`. -/
def bitmapCall {α : Type} (x : Except Fs.Elem.Fault α) : KernelM α :=
  match x with
  | .ok a => pure a
  | .error _ => throw .assertion

/-- `palloc_get_multiple`; the null pointer is `none`. -/
def pallocGetMultiple (flags : Flags) (pageCnt : UInt32) : KernelM (Option UInt32) := do
  if pageCnt = 0 then return none
  else
    let m ← get
    let pool := m.pool flags.user
    let (pageIdx, usedMap) ← bitmapCall (bitmapScanAndFlip pool.usedMap 0 pageCnt false)
    set (m.setPool flags.user { pool with usedMap := usedMap })
    if pageIdx ≠ bitmapError then
      let pages := pool.base + pgSize * pageIdx
      if flags.zero then
        modify fun m => m.fill pages (pgSize * pageCnt) 0
      return some pages
    else if flags.assert then throw .outOfPages
    else return none

/-- `palloc_get_page`. -/
def pallocGetPage (flags : Flags) : KernelM (Option UInt32) := pallocGetMultiple flags 1

/-- `page_from_pool`. -/
def pageFromPool (pool : Pool) (page : UInt32) : Bool :=
  let pageNo := pgNo page
  let startPage := pgNo pool.base
  let endPage := startPage + pool.usedMap.bitCnt
  decide (startPage ≤ pageNo) && decide (pageNo < endPage)

/-- The end of `palloc_free_multiple`, for the pool of the pages. -/
def freeFrom (user : Bool) (pages pageCnt : UInt32) : KernelM Unit := do
  let m ← get
  let pool := m.pool user
  let pageIdx := pgNo pages - pgNo pool.base
  modify fun m => m.fill pages (pgSize * pageCnt) 0xcccccccc
  if ← bitmapCall (bitmapAll pool.usedMap pageIdx pageCnt) then
    let usedMap ← bitmapCall (bitmapSetMultiple pool.usedMap pageIdx pageCnt false)
    modify fun m => m.setPool user { pool with usedMap := usedMap }
  else throw .assertion

/-- `palloc_free_multiple`. -/
def pallocFreeMultiple (pages pageCnt : UInt32) : KernelM Unit := do
  if pgOfs pages ≠ 0 then throw .assertion
  else if pages = 0 ∨ pageCnt = 0 then return ()
  else
    let m ← get
    if pageFromPool m.kernelPool pages then freeFrom false pages pageCnt
    else if pageFromPool m.userPool pages then freeFrom true pages pageCnt
    else throw .notReached

/-- `palloc_free_page`. -/
def pallocFreePage (page : UInt32) : KernelM Unit := pallocFreeMultiple page 1

/-- `bitmap_buf_size`; `struct bitmap` has two words. -/
def bitmapBufSize (bitCnt : UInt32) : UInt32 := 8 + Fs.Elem.byteCnt bitCnt

/-- `bitmap_create_in_buf`.  Where the number of elements would wrap there is no array. -/
def bitmapCreateInBuf (bitCnt blockSize : UInt32) : KernelM Map :=
  if bitmapBufSize bitCnt ≤ blockSize then
    if h : bitCnt.toNat + 32 ≤ 2 ^ 32 then
      return ⟨bitCnt, List.replicate (elemCnt bitCnt).toNat 0, h, List.length_replicate⟩
    else throw .assertion
  else throw .assertion

/-- `init_pool`. -/
def initPool (base pageCnt : UInt32) : KernelM Pool := do
  let bmPages := (bitmapBufSize pageCnt + pgSize - 1) / pgSize
  if bmPages > pageCnt then throw .noMemory
  else
    let pageCnt := pageCnt - bmPages
    let usedMap ← bitmapCreateInBuf pageCnt (bmPages * pgSize)
    return ⟨usedMap, base + bmPages * pgSize⟩

/-- `ptov`, with its assertion. -/
def ptovChecked (paddr : UInt32) : KernelM UInt32 :=
  if paddr < physBase then return ptov paddr else throw .assertion

/-- `palloc_init`. -/
def pallocInit (userPageLimit : UInt32) : KernelM Unit := do
  let m ← get
  let freeStart ← ptovChecked (1024 * 1024)
  let freeEnd ← ptovChecked (m.initRamPages * pgSize)
  let freePages := (freeEnd - freeStart) / pgSize
  let userPages := if freePages / 2 > userPageLimit then userPageLimit else freePages / 2
  let kernelPages := freePages - userPages
  let kernelPool ← initPool freeStart kernelPages
  let userPool ← initPool (freeStart + kernelPages * pgSize) userPages
  modify fun m => { m with kernelPool := kernelPool, userPool := userPool }

/-! ## Pages by number -/

variable {m m' : Machine} {p p' : Pool} {b b' : Map} {pages cnt a w : UInt32} {user : Bool} {k : Nat}

/-- The numbers of `cnt` pages. -/
def block (pages cnt : UInt32) : Set Nat :=
    {k | pages.toNat / 4096 ≤ k ∧ k < pages.toNat / 4096 + cnt.toNat}

instance (pages cnt : UInt32) (k : Nat) : Decidable (k ∈ block pages cnt) := inferInstanceAs
    (Decidable (_ ∧ _))

namespace Pool

def start (p : Pool) : Nat := p.base.toNat / 4096

def Has (p : Pool) (k : Nat) : Prop := p.start ≤ k ∧ k < p.start + p.usedMap.bitCnt.toNat

instance (p : Pool) (k : Nat) : Decidable (p.Has k) := inferInstanceAs (Decidable (_ ∧ _))

/-- The numbers of the pages in use. -/
def used (p : Pool) : Set Nat := {k | p.Has k ∧ p.usedMap.toBitmap.bits (k - p.start) = true}

/-- `cnt` pages in a row that are free. -/
def FreeRun (p : Pool) (cnt k : Nat) : Prop := ∀ i < cnt, p.Has (k + i) ∧ k + i ∉ p.used

structure Ok (p : Pool) : Prop where
  aligned : p.base.toNat % 4096 = 0
  low : 0 < p.base.toNat
  fits : p.base.toNat + 4096 * p.usedMap.bitCnt.toNat ≤ 2 ^ 32

end Pool

namespace Machine

def used (m : Machine) : Set Nat := m.kernelPool.used ∪ m.userPool.used

structure Ok (m : Machine) : Prop where
  pool : ∀ user, (m.pool user).Ok
  apart : ∀ k, m.kernelPool.Has k → ¬ m.userPool.Has k

/-- The machines differ in the words and in what is in use, at most. -/
structure Alike (m m' : Machine) : Prop where
  base : ∀ user, (m'.pool user).base = (m.pool user).base
  size : ∀ user, (m'.pool user).usedMap.bitCnt = (m.pool user).usedMap.bitCnt
  ram : m'.initRamPages = m.initRamPages
  initDir : m'.initPageDir = m.initPageDir
  cr3 : m'.cr3 = m.cr3
  tlb : m'.tlb = m.tlb

namespace Alike

theorem refl (m : Machine) : m.Alike m := ⟨fun _ => rfl, fun _ => rfl, rfl, rfl, rfl, rfl⟩

theorem trans {m'' : Machine} (h : m.Alike m') (h' : m'.Alike m'') : m.Alike m'' :=
  ⟨fun u => (h'.base u).trans (h.base u), fun u => (h'.size u).trans (h.size u), h'.ram.trans h.ram,
    h'.initDir.trans h.initDir, h'.cr3.trans h.cr3, h'.tlb.trans h.tlb⟩

theorem has (h : m.Alike m') (user : Bool) (k : Nat) : (m'.pool user).Has k ↔ (m.pool user).Has k := by
  unfold Pool.Has Pool.start
  rw [h.base, h.size]

theorem ok (h : m.Alike m') (hm : m.Ok) : m'.Ok := by
  refine ⟨fun user => ?_, fun k hk hu => hm.apart k ((h.has false k).mp hk) ((h.has true k).mp hu)⟩
  obtain ⟨halign, hlow, hfits⟩ := hm.pool user
  exact ⟨by rw [h.base]; exact halign, by rw [h.base]; exact hlow, by rw [h.base, h.size]; exact hfits⟩

theorem fill (h : m.Alike m') (pages size w : UInt32) : m.Alike (m'.fill pages size w) :=
  ⟨h.base, h.size, h.ram, h.initDir, h.cr3, h.tlb⟩

end Alike

theorem pool_setPool_self (m : Machine) (user : Bool) (p : Pool) : (m.setPool user p).pool user = p := by
  cases user <;> rfl

theorem pool_setPool_other (m : Machine) (user : Bool) (p : Pool) :
    (m.setPool user p).pool (!user) = m.pool (!user) := by
  cases user <;> rfl

theorem Alike.setPool (hbase : p.base = (m.pool user).base)
    (hsize : p.usedMap.bitCnt = (m.pool user).usedMap.bitCnt) : m.Alike (m.setPool user p) := by
  cases user
  · exact ⟨fun u => by cases u; exacts [hbase, rfl], fun u => by cases u; exacts [hsize, rfl], rfl, rfl,
      rfl, rfl⟩
  · exact ⟨fun u => by cases u; exacts [rfl, hbase], fun u => by cases u; exacts [rfl, hsize], rfl, rfl,
      rfl, rfl⟩

theorem mem_used (m : Machine) (k : Nat) : k ∈ m.used ↔ ∃ user, k ∈ (m.pool user).used := by
  unfold used
  constructor
  · rintro (hk | hk)
    · exact ⟨false, hk⟩
    · exact ⟨true, hk⟩
  · rintro ⟨user, hk⟩
    cases user
    · exact .inl hk
    · exact .inr hk

/-- A page has one pool. -/
theorem Ok.pool_unique (hm : m.Ok) {u : Bool} (hk : (m.pool user).Has k) (hk' : (m.pool u).Has k) :
    u = user := by
  cases user <;> cases u
  · rfl
  · exact absurd hk' (hm.apart k hk)
  · exact absurd hk (hm.apart k hk')
  · rfl

/-- Pages of one pool are taken or given back. -/
theorem Ok.used_setPool (hm : m.Ok) (hbase : p.base = (m.pool user).base)
    (hsize : p.usedMap.bitCnt = (m.pool user).usedMap.bitCnt) (k : Nat) :
    k ∈ (m.setPool user p).used ↔ if (m.pool user).Has k then k ∈ p.used else k ∈ m.used := by
  have hhas : ∀ {k}, p.Has k ↔ (m.pool user).Has k := by
    intro k
    unfold Pool.Has Pool.start
    rw [hbase, hsize]
  rw [mem_used, mem_used]
  split
  · next hk =>
      constructor
      · rintro ⟨u, hu⟩
        by_cases hne : u = user
        · rwa [hne, pool_setPool_self] at hu
        · obtain rfl : u = !user := Bool.eq_not_of_ne hne
          rw [pool_setPool_other] at hu
          exact absurd (hm.pool_unique hk hu.1) hne
      · intro hu
        exact ⟨user, by rwa [pool_setPool_self]⟩
  · next hk =>
      refine exists_congr fun u => ?_
      by_cases hne : u = user
      · rw [hne, pool_setPool_self]
        exact iff_of_false (fun hu => hk (hhas.mp hu.1)) fun hu => hk hu.1
      · obtain rfl : u = !user := Bool.eq_not_of_ne hne
        rw [pool_setPool_other]

end Machine

/-! ## Addresses -/

/-- What is written over whole pages. -/
theorem fill_words (halign : pages.toNat % 4096 = 0) (hlow : 0 < pages.toNat)
    (hfits : pages.toNat + 4096 * cnt.toNat ≤ 2 ^ 32) (a : UInt32) :
    (m.fill pages (pgSize * cnt) w).words a =
      if pages.toNat / 4096 ≤ a.toNat / 4096 ∧ a.toNat / 4096 < pages.toNat / 4096 + cnt.toNat then w
      else m.words a := by
  have hsize : (pgSize * cnt).toNat = 4096 * cnt.toNat := by
    have hpage : pgSize.toNat = 4096 := rfl
    rw [UInt32.toNat_mul, hpage]
    omega
  have ha := a.toNat_lt
  have hlt : a - pages < pgSize * cnt ↔
      pages.toNat / 4096 ≤ a.toNat / 4096 ∧ a.toNat / 4096 < pages.toNat / 4096 + cnt.toNat := by
    rw [UInt32.lt_iff_toNat_lt, hsize, UInt32.toNat_sub]
    omega
  exact if_congr hlt rfl rfl

/-- The address of a page of a pool. -/
theorem Pool.Ok.page (hp : p.Ok) {x : Nat} (hx : x < p.usedMap.bitCnt.toNat) :
    (p.base + pgSize * UInt32.ofNat x).toNat = p.base.toNat + 4096 * x := by
  have hfits := hp.fits
  have hpage : pgSize.toNat = 4096 := rfl
  rw [UInt32.toNat_add, UInt32.toNat_mul, hpage, UInt32.toNat_ofNat']
  omega

/-! ## The calls -/

/-- `bitmap_scan_and_flip` from the start: the first run of free bits, or none. -/
theorem scanAndFlip_ok (b : Map) (cnt : UInt32) :
    (∃ idx b', bitmapScanAndFlip b 0 cnt false = .ok (idx, b') ∧ idx ≠ bitmapError ∧
        IsLeast {x | Fs.Elem.FreeRun b.toBitmap cnt.toNat x} idx.toNat ∧ b'.bitCnt = b.bitCnt ∧
        b'.toBitmap = Fs.bitmapSetMultiple b.toBitmap idx.toNat cnt.toNat true) ∨
      bitmapScanAndFlip b 0 cnt false = .ok (bitmapError, b) ∧
        ¬ ∃ x, Fs.Elem.FreeRun b.toBitmap cnt.toNat x := by
  have hscan : bitmapScan b 0 cnt false =
      .ok (found (Fs.bitmapScan b.toBitmap (0 : UInt32).toNat cnt.toNat false)) :=
    bitmapScan_ok (UInt32.le_iff_toNat_le.mpr (Nat.zero_le _)) false
  unfold bitmapScanAndFlip
  rw [hscan]
  cases hs : Fs.bitmapScan b.toBitmap (0 : UInt32).toNat cnt.toNat false with
  | none => exact .inr ⟨rfl, scan_none.mp hs⟩
  | some x =>
      have hleast := scan_some.mp hs
      have hle : x + cnt.toNat ≤ b.bitCnt.toNat := hleast.1.1
      obtain ⟨hval, hne⟩ := found_some (b := b) (x := x) (by omega)
      have hrange : InRange b (found (some x)) cnt := by
        unfold InRange
        rw [hval]
        exact hle
      obtain ⟨b', hset, hsize, hbits⟩ := bitmapSetMultiple_ok hrange true
      refine .inl ⟨found (some x), b', ?_, hne, hval.symm ▸ hleast, hsize, hbits⟩
      simp only [Bind.bind, Except.bind, Pure.pure, Except.pure, hne, ne_eq, not_false_eq_true, if_true,
        Bool.not_false, hset]

/-- `bitmap_all` of bits that are set. -/
theorem bitmapAll_ok (hrange : InRange b pages cnt)
    (hbits : ∀ i < cnt.toNat, b.toBitmap.bits (pages.toNat + i) = true) :
        bitmapAll b pages cnt = .ok true := by
  have hno : Fs.bitmapContains b.toBitmap pages.toNat cnt.toNat false = false := by
    rw [← Bool.not_eq_true, Fs.bitmapContains_iff]
    rintro ⟨i, hi, hbit⟩
    exact absurd (hbit.symm.trans (hbits i hi)) Bool.false_ne_true
  unfold bitmapAll
  rw [bitmapContains_ok hrange, hno]
  rfl

namespace Pool

theorem freeRun_iff {cnt x : Nat} (hcnt : 0 < cnt) :
    Fs.Elem.FreeRun p.usedMap.toBitmap cnt x ↔ p.FreeRun cnt (p.start + x) := by
  have hbit : ∀ i, p.start + x + i - p.start = x + i := by omega
  have hsize : p.usedMap.toBitmap.bitCnt = p.usedMap.bitCnt.toNat := rfl
  unfold Fs.Elem.FreeRun FreeRun Has used Has
  rw [hsize]
  constructor
  · rintro ⟨hle, hbits⟩ i hi
    refine ⟨by omega, ?_⟩
    rintro ⟨-, hset⟩
    rw [hbit, hbits i hi] at hset
    cases hset
  · intro h
    refine ⟨by have hlast := (h (cnt - 1) (by omega)).1; omega, fun i hi => ?_⟩
    obtain ⟨hhas, hno⟩ := h i hi
    by_contra hset
    exact hno ⟨hhas, by rw [hbit]; exact Bool.not_eq_false _ ▸ hset⟩

/-- A run of bits is set or reset. -/
theorem used_update {idx cnt : Nat} {v : Bool} (hbase : p'.base = p.base)
    (hsize : p'.usedMap.bitCnt = p.usedMap.bitCnt)
    (hbits : p'.usedMap.toBitmap = Fs.bitmapSetMultiple p.usedMap.toBitmap idx cnt v) (hk : p.Has k) :
    k ∈ p'.used ↔ if p.start + idx ≤ k ∧ k < p.start + idx + cnt then v = true else k ∈ p.used := by
  have hstart : p'.start = p.start := congrArg (fun x : UInt32 => x.toNat / 4096) hbase
  have hhas : p'.Has k := by
    unfold Has
    rw [hstart, hsize]
    exact hk
  have hle := hk.1
  unfold used
  rw [Set.mem_ofPred_eq, Set.mem_ofPred_eq, hstart, hbits, Fs.bitmapSetMultiple_bits]
  have hiff : idx ≤ k - p.start ∧ k - p.start < idx + cnt ↔ p.start + idx ≤ k ∧
      k < p.start + idx + cnt := by
    omega
  rw [if_congr hiff rfl rfl]
  split
  · exact and_iff_right hhas
  · exact and_congr_left fun _ => iff_of_true hhas hk

end Pool

/-- Pages that `palloc_get_multiple` has found. -/
structure Got (m : Machine) (flags : Flags) (cnt pages : UInt32) (m' : Machine) : Prop where
  alike : m.Alike m'
  aligned : pages.toNat % 4096 = 0
  low : 0 < pages.toNat
  least : IsLeast {k | (m.pool flags.user).FreeRun cnt.toNat k} (pages.toNat / 4096)
  used : ∀ k, k ∈ m'.used ↔ k ∈ m.used ∨ k ∈ block pages cnt
  words : m'.words = if flags.zero then (m.fill pages (pgSize * cnt) 0).words else m.words

/-- What there is to say where `palloc_get_multiple` finds none. -/
def NoRun (m : Machine) (user : Bool) (cnt : UInt32) : Prop := ¬ ∃ k, (m.pool user).FreeRun cnt.toNat k

/-- Pages that `palloc_free_multiple` has freed. -/
structure Freed (m : Machine) (pages cnt : UInt32) (m' : Machine) : Prop where
  alike : m.Alike m'
  used : ∀ k, k ∈ m'.used ↔ k ∈ m.used ∧ k ∉ block pages cnt
  words : m'.words = (m.fill pages (pgSize * cnt) 0xcccccccc).words

theorem toNat_pos {x : UInt32} (hx : x ≠ 0) : 0 < x.toNat :=
  Nat.pos_of_ne_zero fun h => hx (UInt32.toNat_inj.mp h)

/-- The run that is taken. -/
theorem Machine.Ok.took (hm : m.Ok) (flags : Flags) {cnt idx : UInt32} (hcnt : cnt ≠ 0)
    (hleast : IsLeast {x | Fs.Elem.FreeRun (m.pool flags.user).usedMap.toBitmap cnt.toNat x} idx.toNat)
    (hsize : b'.bitCnt = (m.pool flags.user).usedMap.bitCnt)
    (hbits : b'.toBitmap =
      Fs.bitmapSetMultiple (m.pool flags.user).usedMap.toBitmap idx.toNat cnt.toNat true)
    (hwords : m'.words = if flags.zero then
      (m.fill ((m.pool flags.user).base + pgSize * idx) (pgSize * cnt) 0).words else m.words)
    (hm' : m.Alike m')
    (hused : m'.used = (m.setPool flags.user { m.pool flags.user with usedMap := b' }).used) :
    Got m flags cnt ((m.pool flags.user).base + pgSize * idx) m' := by
  have hok := hm.pool flags.user
  have hpos := toNat_pos hcnt
  have hlow := hok.low
  have halign := hok.aligned
  have hle : idx.toNat + cnt.toNat ≤ (m.pool flags.user).usedMap.bitCnt.toNat := hleast.1.1
  have hpage := hok.page (x := idx.toNat) (by omega)
  rw [UInt32.ofNat_toNat] at hpage
  have hnum : ((m.pool flags.user).base + pgSize * idx).toNat / 4096 =
      (m.pool flags.user).start + idx.toNat := by
    unfold Pool.start
    omega
  refine ⟨hm', by omega, by omega, ⟨?_, fun k hk => ?_⟩, fun k => ?_, hwords⟩
  · rw [hnum]
    exact (Pool.freeRun_iff hpos).mp hleast.1
  · have hstart := (hk 0 hpos).1.1
    obtain ⟨x, rfl⟩ := Nat.exists_eq_add_of_le hstart
    rw [hnum]
    exact Nat.add_le_add_left (hleast.2 ((Pool.freeRun_iff hpos).mpr hk)) _
  · have hset := hm.used_setPool (p := { m.pool flags.user with usedMap := b' }) rfl hsize k
    have hmem : k ∈ block ((m.pool flags.user).base + pgSize * idx) cnt ↔
        (m.pool flags.user).start + idx.toNat ≤ k ∧ k <
        (m.pool flags.user).start + idx.toNat + cnt.toNat := by
      unfold block
      rw [Set.mem_ofPred_eq, hnum]
    rw [hused, hset, hmem]
    split
    · next hk =>
        have hupd : k ∈ Pool.used { m.pool flags.user with usedMap := b' } ↔ _ :=
          Pool.used_update (p := m.pool flags.user) rfl hsize hbits hk
        rw [hupd]
        have hself : k ∈ (m.pool flags.user).used ↔ k ∈ m.used := by
          rw [Machine.mem_used]
          refine ⟨fun hu => ⟨_, hu⟩, ?_⟩
          rintro ⟨u, hu⟩
          rwa [← hm.pool_unique hk hu.1]
        split
        · next hin => exact iff_of_true rfl (.inr hin)
        · next hout => rw [hself]; exact (or_iff_left hout).symm
    · next hk =>
        refine (or_iff_left ?_).symm
        rintro ⟨h1, h2⟩
        exact hk ⟨by omega, by omega⟩

theorem wp_bitmapCall {α : Type} {x : Except Fs.Elem.Fault α} {a : α} {Q : α → Machine → Prop}
    {E : Panic → Machine → Prop} (hx : x = .ok a) (h : Q a m) : wp (bitmapCall x) Q E m := by
  rw [hx]
  exact h

/-- `palloc_get_multiple`: the first run of free pages in the pool. -/
theorem pallocGetMultiple_spec (hm : m.Ok) (flags : Flags) (cnt : UInt32) :
    wp (pallocGetMultiple flags cnt)
      (fun r m' => (∃ pages, r = some pages ∧ cnt ≠ 0 ∧ Got m flags cnt pages m') ∨
        r = none ∧ m' = m ∧ (cnt = 0 ∨ NoRun m flags.user cnt ∧ flags.assert = false))
      (fun e m' => e = .outOfPages ∧ m' = m ∧ flags.assert = true ∧ NoRun m flags.user cnt) m := by
  unfold pallocGetMultiple
  refine wp_ite (fun hzero => .inr ⟨rfl, rfl, .inl hzero⟩) fun hcnt => ?_
  refine wp_bind.mpr (wp_get.mpr (wp_bind.mpr ?_))
  have hpos := toNat_pos hcnt
  rcases scanAndFlip_ok (m.pool flags.user).usedMap cnt with
    ⟨idx, b', hscan, hne, hleast, hsize, hbits⟩ | ⟨hscan, hnone⟩
  · refine wp_bitmapCall hscan ?_
    refine wp_bind.mpr (wp_set _ |>.mpr ?_)
    dsimp only
    rw [if_pos hne]
    have halike : m.Alike (m.setPool flags.user { m.pool flags.user with usedMap := b' }) :=
      Machine.Alike.setPool rfl hsize
    have hwords : (m.setPool flags.user { m.pool flags.user with usedMap := b' }).words = m.words := by
      cases flags.user <;> rfl
    cases hz : flags.zero with
    | true =>
        refine .inl ⟨_, rfl, hcnt, hm.took flags hcnt hleast hsize hbits ?_ (halike.fill _ _ _) rfl⟩
        rw [hz, if_pos rfl]
        exact congrArg (fun f a => if a - ((m.pool flags.user).base + pgSize * idx) < pgSize * cnt
          then 0 else f a)
          hwords
    | false =>
        refine .inl ⟨_, rfl, hcnt, hm.took flags hcnt hleast hsize hbits ?_ halike rfl⟩
        rw [hz, hwords]
        rfl
  · refine wp_bitmapCall hscan ?_
    refine wp_bind.mpr (wp_set _ |>.mpr ?_)
    have hsame : m.setPool flags.user { m.pool flags.user with usedMap :=
      (m.pool flags.user).usedMap } = m := by
      unfold Machine.setPool Machine.pool
      cases flags.user <;> rfl
    have hno : NoRun m flags.user cnt := by
      rintro ⟨k, hk⟩
      obtain ⟨x, rfl⟩ := Nat.exists_eq_add_of_le (hk 0 hpos).1.1
      exact hnone ⟨x, (Pool.freeRun_iff hpos).mpr hk⟩
    dsimp only
    rw [hsame, if_neg (not_not_intro rfl)]
    exact wp_ite (fun ha => ⟨rfl, rfl, ha, hno⟩) fun ha => .inr ⟨rfl, rfl, .inr ⟨hno, by simpa using ha⟩⟩

/-- `page_from_pool`. -/
theorem pageFromPool_iff (hp : p.Ok) (a : UInt32) : pageFromPool p a = true ↔ p.Has (a.toNat / 4096) := by
  have hfits := hp.fits
  have hlow := hp.low
  have hend : (pgNo p.base + p.usedMap.bitCnt).toNat = p.start + p.usedMap.bitCnt.toNat := by
    rw [UInt32.toNat_add, toNat_pgNo]
    unfold Pool.start
    omega
  unfold pageFromPool Pool.Has
  simp only [Bool.and_eq_true, decide_eq_true_eq, UInt32.le_iff_toNat_le, UInt32.lt_iff_toNat_lt, hend,
    toNat_pgNo]
  exact Iff.rfl

/-- A run of pages that are in use goes back to its pool. -/
theorem freeFrom_spec (hm : m.Ok) (hcnt : cnt ≠ 0) (hlow : 0 < pages.toNat)
    (hhas : ∀ k ∈ block pages cnt, (m.pool user).Has k) (hused : block pages cnt ⊆ m.used) :
    wp (freeFrom user pages cnt) (fun _ m' => Freed m pages cnt m') never m := by
  have hpos := toNat_pos hcnt
  have hok := hm.pool user
  have hfirst := hhas (pages.toNat / 4096) ⟨Nat.le_refl _, by omega⟩
  have hlast := hhas (pages.toNat / 4096 + cnt.toNat - 1) ⟨by omega, by omega⟩
  have hidx :
      (pgNo pages - pgNo (m.pool user).base).toNat + (m.pool user).start = pages.toNat / 4096 := by
    have h1 := hfirst.1
    unfold Pool.start at h1 ⊢
    have h2 := pages.toNat_lt
    rw [UInt32.toNat_sub, toNat_pgNo, toNat_pgNo]
    omega
  generalize hx : pgNo pages - pgNo (m.pool user).base = idx at hidx
  have hrange : InRange (m.pool user).usedMap idx cnt := by
    have h1 := hfirst.1
    have h2 := hlast.2
    unfold InRange
    omega
  have hbits : ∀ i < cnt.toNat, (m.pool user).usedMap.toBitmap.bits (idx.toNat + i) = true := by
    intro i hi
    have hmem : pages.toNat / 4096 + i ∈ block pages cnt := ⟨by omega, by omega⟩
    obtain ⟨u, hu⟩ := (m.mem_used _).mp (hused hmem)
    obtain rfl := hm.pool_unique (hhas _ hmem) hu.1
    have hbit := hu.2
    rwa [show pages.toNat / 4096 + i - (m.pool u).start = idx.toNat + i by omega] at hbit
  obtain ⟨b', hset, hsize, hbits'⟩ := bitmapSetMultiple_ok hrange false
  unfold freeFrom
  refine wp_bind.mpr (wp_get.mpr (wp_bind.mpr ((wp_modify _).mpr ?_)))
  rw [hx]
  refine wp_bind.mpr (wp_bitmapCall (bitmapAll_ok hrange hbits) ?_)
  rw [if_pos rfl]
  refine wp_bind.mpr (wp_bitmapCall hset ((wp_modify _).mpr ?_))
  have halike : (m.fill pages (pgSize * cnt) 0xcccccccc).Alike
      ((m.fill pages (pgSize * cnt) 0xcccccccc).setPool user { m.pool user with usedMap := b' }) := by
    refine Machine.Alike.setPool ?_ ?_
    · cases user <;> rfl
    · refine hsize.trans ?_
      cases user <;> rfl
  refine ⟨((Machine.Alike.refl m).fill _ _ _).trans halike, fun k => ?_, by cases user <;> rfl⟩
  have hsame : ((m.fill pages (pgSize * cnt) 0xcccccccc).setPool user
      { m.pool user with usedMap := b' }).used =
      (m.setPool user { m.pool user with usedMap := b' }).used := by
    cases user <;> rfl
  have hself : ∀ {k}, (m.pool user).Has k → (k ∈ (m.pool user).used ↔ k ∈ m.used) := by
    intro k hk
    rw [Machine.mem_used]
    refine ⟨fun hu => ⟨_, hu⟩, ?_⟩
    rintro ⟨u, hu⟩
    rwa [← hm.pool_unique hk hu.1]
  rw [hsame, hm.used_setPool (p := { m.pool user with usedMap := b' }) rfl hsize k]
  split
  · next hk =>
      have hupd : k ∈ Pool.used { m.pool user with usedMap := b' } ↔ _ :=
        Pool.used_update (p := m.pool user) rfl hsize hbits' hk
      rw [hupd, hself hk]
      have hmem : k ∈ block pages cnt ↔
          (m.pool user).start + idx.toNat ≤ k ∧ k < (m.pool user).start + idx.toNat + cnt.toNat := by
        unfold block
        rw [Set.mem_ofPred_eq]
        omega
      rw [hmem]
      split
      · next hin => exact iff_of_false Bool.false_ne_true fun h => h.2 hin
      · next hout => exact (and_iff_left hout).symm
  · next hk => exact (and_iff_left fun hb => hk (hhas k hb)).symm

theorem pgOfs_eq_zero (halign : pages.toNat % 4096 = 0) : pgOfs pages = 0 := by
  unfold pgOfs
  refine UInt32.toNat_inj.mp ?_
  rw [UInt32.toNat_and]
  exact (Nat.and_two_pow_sub_one_eq_mod _ 12).trans halign

/-- `palloc_free_multiple` of pages that are in use. -/
theorem pallocFreeMultiple_spec (hm : m.Ok) (hcnt : cnt ≠ 0) (halign : pages.toNat % 4096 = 0)
    (hlow : 0 < pages.toNat) (hhas : ∀ k ∈ block pages cnt, (m.pool user).Has k)
    (hused : block pages cnt ⊆ m.used) :
    wp (pallocFreeMultiple pages cnt) (fun _ m' => Freed m pages cnt m') never m := by
  have hfirst := hhas (pages.toNat / 4096) ⟨Nat.le_refl _, by have := toNat_pos hcnt; omega⟩
  have hnull : ¬ (pages = 0 ∨ cnt = 0) := by
    rintro (rfl | h)
    · exact absurd hlow (by decide)
    · exact hcnt h
  unfold pallocFreeMultiple
  rw [if_neg (not_not_intro (pgOfs_eq_zero halign)), if_neg hnull]
  refine wp_bind.mpr (wp_get.mpr ?_)
  cases user with
  | false =>
      exact wp_ite (fun _ => freeFrom_spec hm hcnt hlow hhas hused)
        fun hno => absurd ((pageFromPool_iff (hm.pool false) pages).mpr hfirst) hno
  | true =>
      refine wp_ite (fun hk => ?_) fun _ => wp_ite (fun _ => freeFrom_spec hm hcnt hlow hhas hused)
        fun hno => absurd ((pageFromPool_iff (hm.pool true) pages).mpr hfirst) hno
      exact absurd hfirst (hm.apart _ ((pageFromPool_iff (hm.pool false) pages).mp hk))

/-! ## The pools at the start -/

/-- The pool is made of `cnt` pages from `first` on: its bitmap is in the pages below `start`. -/
structure Pool.Fills (p : Pool) (first cnt : Nat) : Prop where
  aligned : p.base.toNat % 4096 = 0
  ends : p.start + p.usedMap.bitCnt.toNat = first + cnt
  bitmap : 8 + 4 * ((p.usedMap.bitCnt.toNat + 31) / 32) ≤ 4096 * (p.start - first)
  start_eq : p.start = first + (8 + 4 * ((cnt + 31) / 32) + 4095) / 4096
  unused : p.used = ∅

theorem toNat_byteCnt {n : UInt32} (hn : n.toNat + 32 ≤ 2 ^ 32) :
    (bitmapBufSize n).toNat = 8 + 4 * ((n.toNat + 31) / 32) := by
  have h32 : (32 : UInt32).toNat = 32 := rfl
  have h1 : (1 : UInt32).toNat = 1 := rfl
  have h4 : (4 : UInt32).toNat = 4 := rfl
  have h8 : (8 : UInt32).toNat = 8 := rfl
  unfold bitmapBufSize Fs.Elem.byteCnt elemCnt
  rw [UInt32.toNat_add, UInt32.toNat_mul, UInt32.toNat_div, UInt32.toNat_sub, UInt32.toNat_add, h32, h1,
    h4, h8]
  omega

/-- A pool of at least one page has room for its bitmap. -/
theorem initPool_spec {base n : UInt32} {first : Nat} (hbase : base.toNat = 4096 * first) (hn : n ≠ 0)
    (hfits : 4096 * (first + n.toNat) < 2 ^ 32) :
    wp (initPool base n) (fun p m' => p.Fills first n.toNat ∧ m' = m) never m := by
  have hpos := toNat_pos hn
  have hbuf := toNat_byteCnt (n := n) (by omega)
  have hpage : pgSize.toNat = 4096 := rfl
  have h1 : (1 : UInt32).toNat = 1 := rfl
  have hbm : ((bitmapBufSize n + pgSize - 1) / pgSize).toNat =
      (8 + 4 * ((n.toNat + 31) / 32) + 4095) / 4096 := by
    rw [UInt32.toNat_div, UInt32.toNat_sub, UInt32.toNat_add, hbuf, hpage, h1]
    omega
  unfold initPool
  generalize (bitmapBufSize n + pgSize - 1) / pgSize = bm at hbm
  have hle : ¬ bm > n := by
    rw [gt_iff_lt, UInt32.lt_iff_toNat_lt]
    omega
  have hsub : (n - bm).toNat = n.toNat - bm.toNat :=
    UInt32.toNat_sub_of_le _ _ (UInt32.le_iff_toNat_le.mpr (by omega))
  have hsize := toNat_byteCnt (n := n - bm) (by omega)
  have hmul : (bm * pgSize).toNat = 4096 * bm.toNat := by
    rw [UInt32.toNat_mul, hpage]
    omega
  have hroom : bitmapBufSize (n - bm) ≤ bm * pgSize := by
    rw [UInt32.le_iff_toNat_le, hsize, hmul]
    omega
  have hnew : (base + bm * pgSize).toNat = 4096 * (first + bm.toNat) := by
    rw [UInt32.toNat_add, hmul, hbase]
    omega
  refine wp_ite (fun h => absurd h hle) fun _ => ?_
  unfold bitmapCreateInBuf
  dsimp only
  rw [if_pos hroom, dif_pos (by omega)]
  refine ⟨⟨?_, ?_, ?_, ?_, ?_⟩, rfl⟩
  · show (base + bm * pgSize).toNat % 4096 = 0
    omega
  · show (base + bm * pgSize).toNat / 4096 + (n - bm).toNat = first + n.toNat
    omega
  · show 8 + 4 * (((n - bm).toNat + 31) / 32) ≤ 4096 * ((base + bm * pgSize).toNat / 4096 - first)
    omega
  · show (base + bm * pgSize).toNat / 4096 = first + _
    omega
  · refine Set.eq_empty_of_forall_notMem fun k hk => ?_
    have hzero : ∀ c j : Nat, (List.replicate c (0 : UInt32)).getD j 0 = 0 := by
      intro c j
      rw [List.getD_eq_getElem?_getD, List.getElem?_replicate]
      split <;> rfl
    have hbit := hk.2
    unfold Map.toBitmap bit at hbit
    dsimp only at hbit
    rw [hzero] at hbit
    exact absurd hbit (by simp)

/-- What `palloc_init` makes of the memory above 1 MB: the kernel pool, and the user pool after it. -/
structure Laid (m : Machine) (userPageLimit : UInt32) (m' : Machine) : Prop where
  split : ∃ kernel user : Nat, kernel + user = m.initRamPages.toNat - 256 ∧
    user = min ((m.initRamPages.toNat - 256) / 2) userPageLimit.toNat ∧
    m'.kernelPool.Fills 0xC0100 kernel ∧ m'.userPool.Fills (0xC0100 + kernel) user
  words : m'.words = m.words
  ram : m'.initRamPages = m.initRamPages
  initDir : m'.initPageDir = m.initPageDir
  cr3 : m'.cr3 = m.cr3
  tlb : m'.tlb = m.tlb

/-- `palloc_init` lays out the two pools one behind the other, each behind its own bitmap. -/
theorem pallocInit_spec {limit : UInt32} (hram : 258 ≤ m.initRamPages.toNat)
    (hmax : m.initRamPages.toNat < 2 ^ 18) (hlimit : limit ≠ 0) :
    wp (pallocInit limit) (fun _ m' => Laid m limit m') never m := by
  have hpos := toNat_pos hlimit
  have hpage : pgSize.toNat = 4096 := rfl
  have hbase : physBase.toNat = 3221225472 := rfl
  have h2 : (2 : UInt32).toNat = 2 := rfl
  have hmb : (1024 * 1024 : UInt32).toNat = 1048576 := rfl
  have hend : (m.initRamPages * pgSize).toNat = 4096 * m.initRamPages.toNat := by
    rw [UInt32.toNat_mul, hpage]
    omega
  have hstart : (ptov (1024 * 1024)).toNat = 4096 * 0xC0100 := rfl
  have hstop : (ptov (m.initRamPages * pgSize)).toNat = 3221225472 + 4096 * m.initRamPages.toNat := by
    unfold ptov
    rw [UInt32.toNat_add, hend, hbase]
    omega
  have hfree : ((ptov (m.initRamPages * pgSize) - ptov (1024 * 1024)) / pgSize).toNat =
      m.initRamPages.toNat - 256 := by
    rw [UInt32.toNat_div, UInt32.toNat_sub, hstop, hstart, hpage]
    omega
  have hlow : (1024 * 1024 : UInt32) < physBase := by decide
  have hhigh : m.initRamPages * pgSize < physBase := by
    rw [UInt32.lt_iff_toNat_lt, hend, hbase]
    omega
  unfold pallocInit ptovChecked
  rw [if_pos hlow]
  refine wp_bind.mpr (wp_get.mpr (wp_bind.mpr (wp_pure _ |>.mpr ?_)))
  rw [if_pos hhigh]
  refine wp_bind.mpr (wp_pure _ |>.mpr ?_)
  dsimp only
  generalize (ptov (m.initRamPages * pgSize) - ptov (1024 * 1024)) / pgSize = free at hfree
  have huser : (if free / 2 > limit then limit else free / 2).toNat =
      min ((m.initRamPages.toNat - 256) / 2) limit.toNat := by
    have hhalf : (free / 2).toNat = (m.initRamPages.toNat - 256) / 2 :=
      by rw [UInt32.toNat_div, hfree, h2]
    split
    · next hgt =>
        rw [gt_iff_lt, UInt32.lt_iff_toNat_lt, hhalf] at hgt
        omega
    · next hle =>
        rw [gt_iff_lt, UInt32.lt_iff_toNat_lt, hhalf] at hle
        omega
  generalize (if free / 2 > limit then limit else free / 2) = user at huser
  have hkernel : (free - user).toNat = m.initRamPages.toNat - 256 - user.toNat := by
    rw [UInt32.toNat_sub_of_le _ _ (UInt32.le_iff_toNat_le.mpr (by omega)), hfree]
  generalize free - user = kernel at hkernel
  have hmul : (kernel * pgSize).toNat = 4096 * kernel.toNat := by
    rw [UInt32.toNat_mul, hpage]
    omega
  have hnext : (ptov (1024 * 1024) + kernel * pgSize).toNat = 4096 * (0xC0100 + kernel.toNat) := by
    rw [UInt32.toNat_add, hmul, hstart]
    omega
  have hne : ∀ {x : UInt32}, 0 < x.toNat → x ≠ 0 := fun hx h0 => by
    rw [h0] at hx
    exact absurd hx (by decide)
  refine wp_seq (initPool_spec hstart (hne (by omega)) (by omega)) ?_
  rintro kp _ ⟨hkp, rfl⟩
  refine wp_seq (initPool_spec hnext (hne (by omega)) (by omega)) ?_
  rintro up _ ⟨hup, rfl⟩
  refine (wp_modify _).mpr ⟨⟨kernel.toNat, user.toNat, by omega, huser, hkp, hup⟩, rfl, rfl, rfl, rfl,
    rfl⟩

/-- The pools are apart, lie in RAM behind the first megabyte, and all of their pages are free. -/
theorem Laid.ok {limit : UInt32} (h : Laid m limit m') (hram : 258 ≤ m.initRamPages.toNat)
    (hmax : m.initRamPages.toNat < 2 ^ 18) : m'.Ok ∧ m'.used = ∅ ∧
      ∀ user k, (m'.pool user).Has k → 0xC0100 ≤ k ∧ k < 0xC0000 + m.initRamPages.toNat := by
  obtain ⟨kernel, user, hsum, -, hk, hu⟩ := h.split
  have hok :
      ∀ {p : Pool} {first cnt : Nat}, p.Fills first cnt → 4096 * (first + cnt) ≤ 2 ^ 32 → p.Ok := by
    intro p first cnt hp hle
    have h1 := hp.aligned
    have h2 := hp.ends
    have h3 := hp.start_eq
    unfold Pool.start at h2 h3
    exact ⟨h1, by omega, by omega⟩
  have hhas : ∀ {p : Pool} {first cnt k : Nat}, p.Fills first cnt → p.Has k → first ≤ k ∧
      k < first + cnt := by
    intro p first cnt k hp hk
    have h2 := hp.ends
    have h3 := hp.start_eq
    have h4 := hk.1
    have h5 := hk.2
    omega
  refine ⟨⟨fun u => ?_, fun k h1 h2 => ?_⟩, ?_, fun u k hk' => ?_⟩
  · cases u
    · exact hok hk (by omega)
    · exact hok hu (by omega)
  · have h3 := hhas hk h1
    have h4 := hhas hu h2
    omega
  · unfold Machine.used
    rw [hk.unused, hu.unused, Set.union_empty]
  · cases u
    · have h3 := hhas hk hk'
      omega
    · have h3 := hhas hu hk'
      omega

variable {flags : Flags}

namespace Got

variable (h : Got m flags cnt pages m')

include h

theorem has : ∀ k ∈ block pages cnt, (m.pool flags.user).Has k ∧ k ∉ (m.pool flags.user).used := by
  rintro k ⟨h1, h2⟩
  obtain ⟨i, rfl⟩ := Nat.exists_eq_add_of_le h1
  obtain ⟨hhas, hno⟩ := h.least.1 i (by omega)
  exact ⟨hhas, hno⟩

theorem fresh (hm : m.Ok) : Disjoint (block pages cnt) m.used := by
  refine Set.disjoint_left.mpr fun k hk hu => ?_
  obtain ⟨hhas, hno⟩ := h.has k hk
  obtain ⟨u, hu⟩ := (m.mem_used k).mp hu
  obtain rfl := hm.pool_unique hhas hu.1
  exact hno hu

/-- The words of a run that was found. -/
theorem words_eq (hm : m.Ok) (hcnt : cnt ≠ 0) (a : UInt32) : m'.words a =
    if flags.zero = true ∧ a.toNat / 4096 ∈ block pages cnt then 0 else m.words a := by
  have hpos := toNat_pos hcnt
  have hfits : pages.toNat + 4096 * cnt.toNat ≤ 2 ^ 32 := by
    have hlast := (h.has (pages.toNat / 4096 + cnt.toNat - 1) ⟨by omega, by omega⟩).1.2
    have hpool := (hm.pool flags.user).fits
    have hbase := (hm.pool flags.user).aligned
    have halign := h.aligned
    unfold Pool.start at hlast
    omega
  rw [h.words]
  cases flags.zero with
  | true =>
      rw [if_pos rfl, fill_words h.aligned h.low hfits]
      exact if_congr (and_iff_right rfl).symm rfl rfl
  | false => exact (if_neg fun hno => Bool.false_ne_true hno.1).symm

end Got

theorem wp_result {α : Type} {x : KernelM α} {Q : α → Machine → Prop} {E : Panic → Machine → Prop} {r : α}
    (h : wp x Q E m) (hx : x m = .ok r m') : Q r m' := (wp_ok hx).mp h

end CS162.Paging
