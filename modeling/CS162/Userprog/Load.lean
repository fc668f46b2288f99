/-
# `CS162.Userprog.Load` — the segments of an executable

`load` reads program headers from a file that anyone may have written.  `validate_segment` looks at
the fields of one, `load` computes from them how many bytes `load_segment` shall read and how many it
shall set to zero, and `load_segment` does so page by page.  All sums are modulo 2^32.

`Space` is what the loop works on: the free pages of the user pool, the contents of pages, the page
tables of the process, and the file.  A page that `palloc_get_page` returns is in no page table
(`Space.Sane`), so that filling it does not change what has been loaded before (`Keeps`).
-/
import CS162.Lib.Bytes
import CS162.Lib.Wp
import CS162.Userprog.UserMem

namespace CS162.Userprog

namespace Load

open Bytes Wp UserMem

/-- `PGSIZE`. -/
def pgSize : UInt32 := 4096

/-- `PGMASK`. -/
def pgMask : UInt32 := 0xFFF

def isUserVaddr (vaddr : UInt32) : Bool := vaddr < physBase

/-- `ROUND_UP`. -/
def roundUp (x step : UInt32) : UInt32 := (x + step - 1) / step * step

/-- The fields of `struct Elf32_Phdr` that are used for a segment. -/
structure Elf32Phdr where
  pOffset : UInt32
  pVaddr : UInt32
  pFilesz : UInt32
  pMemsz : UInt32
  pFlags : UInt32

/-- An open file.  Its length is an `off_t`. -/
structure File where
  bytes : List UInt8
  pos : Nat
  short : bytes.length < 2 ^ 31

def fileLength (file : File) : Int32 := .ofNat file.bytes.length

def validateSegment (phdr : Elf32Phdr) (file : File) : Bool :=
  if phdr.pOffset &&& pgMask ≠ phdr.pVaddr &&& pgMask then false
  else if phdr.pOffset > (fileLength file).toUInt32 then false
  else if phdr.pMemsz < phdr.pFilesz then false
  else if phdr.pMemsz = 0 then false
  else if isUserVaddr phdr.pVaddr = false then false
  else if isUserVaddr (phdr.pVaddr + phdr.pMemsz) = false then false
  else if phdr.pVaddr + phdr.pMemsz < phdr.pVaddr then false
  else if phdr.pVaddr < pgSize then false
  else true

/-! ## The computation in `load` -/

namespace Elf32Phdr

variable (phdr : Elf32Phdr)

/-- `(phdr.p_flags & PF_W) != 0`. -/
def writable : Bool := phdr.pFlags &&& 2 ≠ 0

def filePage : UInt32 := phdr.pOffset &&& ~~~pgMask

def memPage : UInt32 := phdr.pVaddr &&& ~~~pgMask

def pageOffset : UInt32 := phdr.pVaddr &&& pgMask

def readBytes : UInt32 := if phdr.pFilesz > 0 then phdr.pageOffset + phdr.pFilesz else 0

def zeroBytes : UInt32 :=
  if phdr.pFilesz > 0 then roundUp (phdr.pageOffset + phdr.pMemsz) pgSize - phdr.readBytes
  else roundUp (phdr.pageOffset + phdr.pMemsz) pgSize

end Elf32Phdr

/-! ## `load_segment` -/

/-- How the kernel may stop, or not: an assertion fails, or the loop has not ended yet. -/
inductive Stop where
  | assert
  | spin
deriving DecidableEq

/-- The state of the loop.  Pages of the kernel are known by their addresses, pages of the process by
their numbers, and page tables by the indices of their entries in the page directory. -/
structure Space where
  /-- The free pages of the user pool. -/
  pool : List UInt32
  ram : UInt32 → Block 4096
  /-- The entries that are present: the page, and whether it is writable. -/
  entries : UInt32 → Option (UInt32 × Bool)
  tables : UInt32 → Bool
  /-- How many page tables the kernel pool has room for. -/
  spare : Nat
  file : File
  /-- History: what has been passed to `install_page`. -/
  installs : List UInt32

abbrev LoadM := EStateM Stop Space

/-- `palloc_get_page (PAL_USER)`. -/
def pallocGetPage : LoadM (Option UInt32) := do
  match (← get).pool with
  | [] => return none
  | kpage :: pool =>
      modify fun st => { st with pool := pool }
      return some kpage

def pallocFreePage (kpage : UInt32) : LoadM Unit :=
  modify fun st => { st with
    pool := kpage :: st.pool
    ram := Function.update st.ram kpage (Block.fill 0xcc) }

/-- `file_seek`. -/
def fileSeek (newPos : Int32) : LoadM Unit :=
  if newPos < 0 then throw .assert
  else modify fun st => { st with file := { st.file with pos := newPos.toNatClampNeg } }

/-- `file_read (file, kpage, size)`. -/
def fileRead (kpage size : UInt32) : LoadM Nat := do
  let file := (← get).file
  let chunk := (file.bytes.drop file.pos).take size.toNat
  modify fun st => { st with
    ram := Function.update st.ram kpage ((st.ram kpage).splice 0 chunk)
    file := { file with pos := file.pos + chunk.length } }
  return chunk.length

/-- `memset (kpage + offset, 0, size)`. -/
def memset (kpage offset size : UInt32) : LoadM Unit :=
  modify fun st => { st with
    ram := Function.update st.ram kpage
      ((st.ram kpage).splice offset.toNat (List.replicate size.toNat 0)) }

/-- `lookup_page` with `create`: whether there is a page table then. -/
def lookupPage (vaddr : UInt32) : LoadM Bool := do
  if isUserVaddr vaddr = false then throw .assert
  else
    let st ← get
    if st.tables (pdNo vaddr) = true then return true
    else if st.spare = 0 then return false
    else
      set { st with spare := st.spare - 1, tables := Function.update st.tables (pdNo vaddr) true }
      return true

/-- `pagedir_set_page`.  Three of its assertions are left out: that `kpage` is the start of a page, that
it is in RAM, and that the directory is not `init_page_dir`.  The pages come from `palloc_get_page` here,
and the directory from `pagedir_create`. -/
def pagedirSetPage (upage kpage : UInt32) (writable : Bool) : LoadM Bool := do
  if pgOfs upage ≠ 0 then throw .assert
  else if isUserVaddr upage = false then throw .assert
  else if ← lookupPage upage then
    let st ← get
    if (st.entries (pgNo upage)).isSome then throw .assert
    else
      set { st with entries := Function.update st.entries (pgNo upage) (some (kpage, writable)) }
      return true
  else return false

/-- `install_page`, with `pagedir_get_page`. -/
def installPage (upage kpage : UInt32) (writable : Bool) : LoadM Bool := do
  modify fun st => { st with installs := st.installs ++ [upage] }
  if isUserVaddr upage = false then throw .assert
  else
    let st ← get
    if (st.entries (pgNo upage)).isSome then return false
    else pagedirSetPage upage kpage writable

/-- What the loop does before it advances; false where it returns false. -/
def loadPage (upage pageReadBytes pageZeroBytes : UInt32) (writable : Bool) : LoadM Bool := do
  match ← pallocGetPage with
  | none => return false
  | some kpage =>
      let count ← fileRead kpage pageReadBytes
      if count ≠ pageReadBytes.toNat then
        pallocFreePage kpage
        return false
      else
        memset kpage pageReadBytes pageZeroBytes
        if ← installPage upage kpage writable then return true
        else
          pallocFreePage kpage
          return false

/-- The loop of `load_segment`. -/
def loadPages (writable : Bool) : Nat → UInt32 → UInt32 → UInt32 → LoadM Bool
  | 0, _, _, _ => throw .spin
  | fuel + 1, upage, readBytes, zeroBytes => do
      if readBytes > 0 ∨ zeroBytes > 0 then
        let pageReadBytes := if readBytes < pgSize then readBytes else pgSize
        let pageZeroBytes := pgSize - pageReadBytes
        if ← loadPage upage pageReadBytes pageZeroBytes writable then
          loadPages writable fuel (upage + pgSize) (readBytes - pageReadBytes) (zeroBytes - pageZeroBytes)
        else return false
      else return true

/-- The assertions at its head. -/
def headAsserts (ofs : Int32) (upage readBytes zeroBytes : UInt32) : Bool :=
  (readBytes + zeroBytes) % pgSize = 0 && pgOfs upage = 0 && ofs % 4096 = 0

def loadSegment (fuel : Nat) (ofs : Int32) (upage readBytes zeroBytes : UInt32) (writable : Bool) :
    LoadM Bool := do
  if headAsserts ofs upage readBytes zeroBytes = false then throw .assert
  else
    fileSeek ofs
    loadPages writable fuel upage readBytes zeroBytes

/-- The case `PT_LOAD`; false where `load` goes to `done`. -/
def loadCase (fuel : Nat) (phdr : Elf32Phdr) : LoadM Bool := do
  if validateSegment phdr (← get).file = true then
    loadSegment fuel phdr.filePage.toInt32 phdr.memPage phdr.readBytes phdr.zeroBytes phdr.writable
  else return false

variable {phdr : Elf32Phdr} {file : File} {st st' st'' : Space}
  {upage v x kpage readBytes zeroBytes : UInt32} {w : Bool} {n fuel : Nat}

/-! ## Numbers -/

theorem toNat_pgSize : pgSize.toNat = 4096 := rfl

theorem toNat_physBase : physBase.toNat = 0xC0000000 := rfl

theorem toNat_and_pgMask (v : UInt32) : (v &&& pgMask).toNat = v.toNat % 4096 := by
  have hand : (v &&& pgMask).toNat = v.toNat &&& (2 ^ 12 - 1) := UInt32.toNat_and v pgMask
  rw [hand, Nat.and_two_pow_sub_one_eq_mod]

/-- Two masks that complement each other split a word. -/
theorem and_not_add_and (b m : BitVec 32) : (b &&& ~~~m) + (b &&& m) = b := by
  have hdisj : (b &&& ~~~m) &&& (b &&& m) = 0#32 := by
    ext i hi
    simp only [BitVec.getElem_and, BitVec.getElem_not, BitVec.getElem_zero]
    cases b[i] <;> cases m[i] <;> rfl
  rw [BitVec.add_eq_or_of_and_eq_zero _ _ hdisj]
  ext i hi
  simp only [BitVec.getElem_and, BitVec.getElem_not, BitVec.getElem_or]
  cases b[i] <;> cases m[i] <;> rfl

theorem toNat_and_not_pgMask (v : UInt32) : (v &&& ~~~pgMask).toNat = v.toNat / 4096 * 4096 := by
  have hsum : (v &&& ~~~pgMask) + (v &&& pgMask) = v :=
    UInt32.toBitVec_inj.mp (and_not_add_and v.toBitVec pgMask.toBitVec)
  have hnat := congrArg UInt32.toNat hsum
  have hle : (v &&& ~~~pgMask).toNat ≤ v.toNat := by
    rw [UInt32.toNat_and]
    exact Nat.and_le_left
  rw [UInt32.toNat_add, toNat_and_pgMask] at hnat
  have := v.toNat_lt
  omega

theorem pgOfs_eq_zero : pgOfs v = 0 ↔ v.toNat % 4096 = 0 := by
  rw [← UInt32.toNat_inj, ← toNat_and_pgMask]
  rfl

theorem toNat_roundUp (h : x.toNat + 4095 < 2 ^ 32) :
    (roundUp x pgSize).toNat = (x.toNat + 4095) / 4096 * 4096 := by
  have hx : (x + pgSize - 1).toNat = x.toNat + 4095 := by
    have hone : (1 : UInt32).toNat = 1 := rfl
    rw [UInt32.toNat_sub, UInt32.toNat_add, toNat_pgSize]
    omega
  unfold roundUp
  rw [UInt32.toNat_mul, UInt32.toNat_div, hx, toNat_pgSize]
  omega

theorem toInt_toInt32 (h : v.toNat < 2 ^ 31) : v.toInt32.toInt = v.toNat := by
  have hlt : 2 * v.toBitVec.toNat < 2 ^ 32 := by
    have hv : v.toBitVec.toNat = v.toNat := rfl
    omega
  exact BitVec.toInt_eq_toNat_of_lt hlt

/-! ## What is validated -/

theorem toNat_fileLength (file : File) : (fileLength file).toUInt32.toNat = file.bytes.length := by
  unfold fileLength
  rw [Int32.toUInt32_ofNat', UInt32.toNat_ofNat_of_lt' (Nat.lt_of_lt_of_le file.short (by decide))]

/-- A header that has been validated.  Its sums do not overflow. -/
structure Valid (phdr : Elf32Phdr) (bytes : List UInt8) : Prop where
  offsets : phdr.pOffset.toNat % 4096 = phdr.pVaddr.toNat % 4096
  start : phdr.pOffset.toNat ≤ bytes.length
  filesz : phdr.pFilesz.toNat ≤ phdr.pMemsz.toNat
  memsz : 0 < phdr.pMemsz.toNat
  below : phdr.pVaddr.toNat + phdr.pMemsz.toNat < physBase.toNat
  above : 4096 ≤ phdr.pVaddr.toNat

/-- What the tests of `validate_segment` come to: the segment starts in the file and lies below
`PHYS_BASE` and above page 0, its two offsets within a page agree, and it is not empty and has no more
bytes in the file than in memory. -/
theorem valid_of_validateSegment (h : validateSegment phdr file = true) : Valid phdr file.bytes := by
  unfold validateSegment at h
  split at h
  · cases h
  next hofs =>
  split at h
  · cases h
  next hstart =>
  split at h
  · cases h
  next hsz =>
  split at h
  · cases h
  next hzero =>
  split at h
  · cases h
  split at h
  · cases h
  next hend =>
  split at h
  · cases h
  next hwrap =>
  split at h
  · cases h
  next hpage =>
  rw [gt_iff_lt, UInt32.lt_iff_toNat_lt, toNat_fileLength] at hstart
  rw [UInt32.lt_iff_toNat_lt] at hsz hwrap hpage
  rw [toNat_pgSize] at hpage
  have hend' : (phdr.pVaddr + phdr.pMemsz).toNat < physBase.toNat := by
    rw [← UInt32.lt_iff_toNat_lt]
    simpa [isUserVaddr] using hend
  have hmem : phdr.pMemsz.toNat ≠ 0 := fun h0 => hzero (UInt32.toNat_inj.mp h0)
  rw [UInt32.toNat_add] at hend' hwrap
  have hv := phdr.pVaddr.toNat_lt
  have hm := phdr.pMemsz.toNat_lt
  refine ⟨?_, by omega, by omega, by omega, ?_, by omega⟩
  · rw [← toNat_and_pgMask, ← toNat_and_pgMask, not_not.mp hofs]
  · rw [toNat_physBase] at hend' ⊢
    omega

namespace Valid

variable {bytes : List UInt8} (h : Valid phdr bytes)

include h

theorem toNat_pageOffset_add (hle : x.toNat ≤ phdr.pMemsz.toNat) :
    (phdr.pageOffset + x).toNat = phdr.pVaddr.toNat % 4096 + x.toNat := by
  have hb := h.below
  have hlt := Nat.mod_le phdr.pVaddr.toNat 4096
  rw [toNat_physBase] at hb
  unfold Elf32Phdr.pageOffset
  rw [UInt32.toNat_add, toNat_and_pgMask]
  omega

theorem toNat_roundUp_memsz : (roundUp (phdr.pageOffset + phdr.pMemsz) pgSize).toNat =
    (phdr.pVaddr.toNat % 4096 + phdr.pMemsz.toNat + 4095) / 4096 * 4096 := by
  have hsum := h.toNat_pageOffset_add le_rfl
  have hb := h.below
  have hlt := Nat.mod_le phdr.pVaddr.toNat 4096
  rw [toNat_physBase] at hb
  rw [toNat_roundUp (by omega), hsum]

theorem toNat_readBytes : phdr.readBytes.toNat =
    if phdr.pFilesz.toNat = 0 then 0 else phdr.pVaddr.toNat % 4096 + phdr.pFilesz.toNat := by
  have hiff : phdr.pFilesz > 0 ↔ phdr.pFilesz.toNat ≠ 0 := by
    rw [gt_iff_lt, UInt32.lt_iff_toNat_lt]
    exact Nat.pos_iff_ne_zero
  unfold Elf32Phdr.readBytes
  by_cases h0 : phdr.pFilesz.toNat = 0
  · rw [if_pos h0, if_neg fun hp => hiff.mp hp h0]
    rfl
  · rw [if_neg h0, if_pos (hiff.mpr h0), h.toNat_pageOffset_add h.filesz]

/-- What is read and what is zeroed are together the pages that the segment touches. -/
theorem readBytes_add_zeroBytes : phdr.readBytes.toNat + phdr.zeroBytes.toNat =
    (phdr.pVaddr.toNat % 4096 + phdr.pMemsz.toNat + 4095) / 4096 * 4096 := by
  have hround := h.toNat_roundUp_memsz
  have hread := h.toNat_readBytes
  have hfs := h.filesz
  have hiff : phdr.pFilesz > 0 ↔ phdr.pFilesz.toNat ≠ 0 := by
    rw [gt_iff_lt, UInt32.lt_iff_toNat_lt]
    exact Nat.pos_iff_ne_zero
  unfold Elf32Phdr.zeroBytes
  by_cases h0 : phdr.pFilesz.toNat = 0
  · rw [if_neg fun hp => hiff.mp hp h0, hread, if_pos h0, hround]
    omega
  · rw [if_neg h0] at hread
    have hle : phdr.readBytes ≤ roundUp (phdr.pageOffset + phdr.pMemsz) pgSize := by
      rw [UInt32.le_iff_toNat_le, hround, hread]
      omega
    rw [if_pos (hiff.mpr h0), UInt32.toNat_sub_of_le _ _ hle, hround, hread]
    omega

theorem headAsserts (hshort : bytes.length < 2 ^ 31) :
    headAsserts phdr.filePage.toInt32 phdr.memPage phdr.readBytes phdr.zeroBytes = true := by
  have htotal := h.readBytes_add_zeroBytes
  have hb := h.below
  have hstart := h.start
  rw [toNat_physBase] at hb
  have hmem : phdr.memPage.toNat % 4096 = 0 := by
    rw [show phdr.memPage.toNat = _ from toNat_and_not_pgMask _]
    omega
  have hfile : phdr.filePage.toNat = phdr.pOffset.toNat / 4096 * 4096 := toNat_and_not_pgMask _
  have hsum : (phdr.readBytes + phdr.zeroBytes) % pgSize = 0 := by
    rw [← UInt32.toNat_inj, UInt32.toNat_mod, UInt32.toNat_add, htotal, toNat_pgSize]
    show _ * 4096 % 2 ^ 32 % 4096 = 0
    omega
  have hofs : phdr.filePage.toInt32 % 4096 = 0 := by
    have hsz : (4096 : Int32).toInt = 4096 := rfl
    have hzero : (0 : Int32).toInt = 0 := rfl
    rw [← Int32.toInt_inj, Int32.toInt_mod, toInt_toInt32 (by omega), hsz, hzero,
      Int.tmod_eq_emod_of_nonneg (Int.natCast_nonneg _)]
    omega
  unfold Load.headAsserts
  rw [pgOfs_eq_zero.mpr hmem, hsum, hofs]
  rfl

end Valid

/-! ## Pages -/

/-- No page in a page table is free. -/
structure Space.Sane (st : Space) : Prop where
  nodup : st.pool.Nodup
  apart : ∀ p f w, st.entries p = some (f, w) → f ∉ st.pool

/-- What has been loaded stays, and so does the file. -/
structure Keeps (st st' : Space) : Prop where
  entries : ∀ p e, st.entries p = some e → st'.entries p = some e
  ram : ∀ p f w, st.entries p = some (f, w) → st'.ram f = st.ram f
  bytes : st'.file.bytes = st.file.bytes

theorem Keeps.refl (st : Space) : Keeps st st := ⟨fun _ _ h => h, fun _ _ _ _ => rfl, rfl⟩

theorem Keeps.trans (h : Keeps st st') (h' : Keeps st' st'') : Keeps st st'' := by
  refine ⟨fun p e he => h'.entries p e (h.entries p e he), fun p f w he => ?_, h'.bytes.trans h.bytes⟩
  rw [h'.ram p f w (h.entries p _ he), h.ram p f w he]

/-- A page has been taken from the pool; nothing else has been touched. -/
structure Taken (st : Space) (kpage : UInt32) (st' : Space) : Prop where
  pool : st.pool = kpage :: st'.pool
  entries : st'.entries = st.entries
  ram : ∀ f, f ≠ kpage → st'.ram f = st.ram f
  bytes : st'.file.bytes = st.file.bytes

namespace Taken

variable (h : Taken st kpage st') (hs : st.Sane)

include h hs

theorem ne_of_entry {p f : UInt32} (he : st.entries p = some (f, w)) : f ≠ kpage := by
  rintro rfl
  refine hs.apart p f w he ?_
  rw [h.pool]
  exact List.mem_cons_self

/-- It is mapped where there was nothing. -/
theorem map {p : UInt32} (hnone : st.entries p = none) (hpool : st''.pool = st'.pool)
    (hentries : st''.entries = Function.update st'.entries p (some (kpage, w)))
    (hram : st''.ram = st'.ram) (hbytes : st''.file.bytes = st'.file.bytes) :
    st''.Sane ∧ Keeps st st'' := by
  have hnodup := hs.nodup
  rw [h.pool, List.nodup_cons] at hnodup
  rw [h.entries] at hentries
  refine ⟨⟨by rw [hpool]; exact hnodup.2, fun q f w' he => ?_⟩, fun q e he => ?_, fun q f w' he => ?_,
    hbytes.trans h.bytes⟩
  · rw [hpool]
    rw [hentries] at he
    by_cases hq : q = p
    · rw [hq, Function.update_self] at he
      cases he
      exact hnodup.1
    · rw [Function.update_of_ne hq] at he
      intro hmem
      refine hs.apart q f w' he ?_
      rw [h.pool]
      exact List.mem_cons_of_mem _ hmem
  · have hq : q ≠ p := by
      rintro rfl
      rw [hnone] at he
      cases he
    rw [hentries, Function.update_of_ne hq]
    exact he
  · rw [hram, h.ram f (h.ne_of_entry hs he)]

end Taken

/-! ## One page -/

theorem pallocGetPage_spec : wp pallocGetPage (fun r st' => (r = none → st' = st) ∧
    ∀ kpage, r = some kpage → Taken st kpage st' ∧ st'.file = st.file ∧ st'.installs = st.installs)
    never st := by
  unfold pallocGetPage
  refine wp_bind.mpr (wp_get.mpr ?_)
  cases hpool : st.pool with
  | nil => exact ⟨fun _ => rfl, fun _ hr => by cases hr⟩
  | cons kpage pool =>
      refine wp_bind.mpr (wp_modify _ |>.mpr ⟨fun hr => (by cases hr), fun k hr => ?_⟩)
      cases hr
      exact ⟨⟨hpool, rfl, fun _ _ => rfl, rfl⟩, rfl, rfl⟩

/-- A page that has just been taken is given back. -/
theorem pallocFreePage_spec (h : Taken st kpage st') (hs : st.Sane) :
    wp (pallocFreePage kpage) (fun _ st'' => st''.Sane ∧ Keeps st st'' ∧ st''.installs = st'.installs)
      never st' := by
  refine wp_modify _ |>.mpr ⟨⟨?_, fun p f w he => ?_⟩, ⟨fun p e he => ?_, fun p f w he => ?_, h.bytes⟩,
    rfl⟩
  · show (kpage :: st'.pool).Nodup
    rw [← h.pool]
    exact hs.nodup
  · show f ∉ kpage :: st'.pool
    rw [← h.pool]
    exact hs.apart p f w (h.entries ▸ he)
  · show st'.entries p = some e
    rw [h.entries]
    exact he
  · have hne := h.ne_of_entry hs he
    exact (Function.update_of_ne hne _ _).trans (h.ram f hne)

theorem fileSeek_spec (hv : v.toNat < 2 ^ 31) : wp (fileSeek v.toInt32)
    (fun _ st' => st' = { st with file := { st.file with pos := v.toNat } }) never st := by
  have hint := toInt_toInt32 hv
  have hpos : v.toInt32.toNatClampNeg = v.toNat := by
    unfold Int32.toNatClampNeg
    rw [hint, Int.toNat_natCast]
  have hnn : ¬ v.toInt32 < 0 := by
    rw [Int32.lt_iff_toInt_lt, hint]
    exact Int.not_lt.mpr (Int.natCast_nonneg _)
  unfold fileSeek
  rw [if_neg hnn, hpos]
  exact wp_modify _ |>.mpr rfl

/-- If as many bytes as asked for are read, they are those at the position. -/
theorem fileRead_spec (h : Taken st kpage st') (hfile : st'.file = st.file) {k : UInt32}
    (hk : k.toNat ≤ 4096) :
    wp (fileRead kpage k) (fun count st'' => Taken st kpage st'' ∧ st''.installs = st'.installs ∧
      (count = k.toNat → st''.file.pos = st.file.pos + k.toNat ∧
        ∀ j < k.toNat, st.file.pos + j < st.file.bytes.length ∧
          (st''.ram kpage).get j = st.file.bytes.getD (st.file.pos + j) 0)) never st' := by
  unfold fileRead
  refine wp_bind.mpr (wp_get.mpr (wp_bind.mpr (wp_modify _ |>.mpr
    ⟨⟨h.pool, h.entries, fun f hf => ?_, h.bytes⟩, rfl, fun hcount => ⟨?_, fun j hj => ?_⟩⟩)))
  · exact (Function.update_of_ne hf _ _).trans (h.ram f hf)
  · show st'.file.pos + _ = _
    rw [hcount, hfile]
  · rw [hfile] at hcount
    have hlen := hcount
    rw [List.length_take, List.length_drop] at hlen
    refine ⟨by omega, ?_⟩
    show (Function.update st'.ram kpage _ kpage).get j = _
    rw [Function.update_self, hfile, Block.get_splice _ (by omega), if_pos (by omega), Nat.sub_zero,
      List.getD_eq_getElem?_getD, List.getD_eq_getElem?_getD, List.getElem?_take_of_lt hj,
      List.getElem?_drop]

theorem memset_spec (h : Taken st kpage st') {k z : UInt32} :
    wp (memset kpage k z) (fun _ st'' => Taken st kpage st'' ∧ st''.installs = st'.installs ∧
      st''.file = st'.file ∧ ∀ j < 4096, j < k.toNat + z.toNat →
        (st''.ram kpage).get j = if j < k.toNat then (st'.ram kpage).get j else 0) never st' := by
  refine wp_modify _ |>.mpr ⟨⟨h.pool, h.entries, fun f hf => ?_, h.bytes⟩, rfl, rfl, fun j hj hjz => ?_⟩
  · exact (Function.update_of_ne hf _ _).trans (h.ram f hf)
  · show (Function.update st'.ram kpage _ kpage).get j = _
    rw [Function.update_self, Block.get_splice _ hj, List.length_replicate]
    by_cases hlt : j < k.toNat
    · rw [if_pos hlt, if_neg (by omega)]
    · rw [if_neg hlt, if_pos (by omega), List.getD_replicate _ (by omega)]

theorem lookupPage_spec (hu : isUserVaddr v = true) :
    wp (lookupPage v) (fun _ st' => ∃ tables spare, st' = { st with tables := tables, spare := spare })
      never st := by
  unfold lookupPage
  rw [if_neg (by rw [hu]; exact Bool.noConfusion)]
  refine wp_bind.mpr (wp_get.mpr ?_)
  refine wp_ite (fun _ => ⟨st.tables, st.spare, rfl⟩) fun _ =>
    wp_ite (fun _ => ⟨st.tables, st.spare, rfl⟩) fun _ => ?_
  exact wp_bind.mpr (wp_set _ |>.mpr ⟨_, _, rfl⟩)

/-- `install_page` refuses, or makes the entry. -/
theorem installPage_spec (hu : isUserVaddr upage = true) (hofs : pgOfs upage = 0) :
    wp (installPage upage kpage w) (fun ok st' => st'.installs = st.installs ++ [upage] ∧
      st'.pool = st.pool ∧ st'.ram = st.ram ∧ st'.file = st.file ∧
      (ok = false → st'.entries = st.entries) ∧
      (ok = true → st.entries (pgNo upage) = none ∧
        st'.entries = Function.update st.entries (pgNo upage) (some (kpage, w)))) never st := by
  have hnot : ¬ isUserVaddr upage = false := by rw [hu]; exact Bool.noConfusion
  unfold installPage
  refine wp_bind.mpr (wp_modify _ |>.mpr ?_)
  rw [if_neg hnot]
  refine wp_bind.mpr (wp_get.mpr (wp_ite (fun _ => ?_) fun hnone => ?_))
  · exact ⟨rfl, rfl, rfl, rfl, fun _ => rfl, fun hf => by cases hf⟩
  · unfold pagedirSetPage
    rw [if_neg (not_not.mpr hofs), if_neg hnot]
    refine wp_seq (lookupPage_spec hu) ?_
    rintro found _ ⟨tables, spare, rfl⟩
    refine wp_ite (fun _ => wp_bind.mpr (wp_get.mpr ?_)) fun _ => ?_
    · rw [if_neg hnone]
      refine wp_bind.mpr (wp_set _ |>.mpr
        ⟨rfl, rfl, rfl, rfl, fun hf => (by cases hf), fun _ => ⟨?_, rfl⟩⟩)
      simpa using hnone
    · exact ⟨rfl, rfl, rfl, rfl, fun _ => rfl, fun hf => by cases hf⟩

/-- A page has been filled: `k` bytes from the file, and zeros. -/
structure Filled (st : Space) (upage k : UInt32) (w : Bool) (st' : Space) : Prop where
  pos : st'.file.pos = st.file.pos + k.toNat
  avail : ∀ j < k.toNat, st.file.pos + j < st.file.bytes.length
  page : ∃ f, st'.entries (pgNo upage) = some (f, w) ∧ ∀ j < 4096,
    (st'.ram f).get j = if j < k.toNat then st.file.bytes.getD (st.file.pos + j) 0 else 0

/-- One round of the loop: a page of the pool is filled from the file and with zeros and installed, or
is given back and the round fails; the pages that are installed already stay as they are. -/
theorem loadPage_spec (hs : st.Sane) (hu : isUserVaddr upage = true) (hofs : pgOfs upage = 0) {k : UInt32}
    (hk : k.toNat ≤ 4096) :
    wp (loadPage upage k (pgSize - k) w) (fun ok st' => st'.Sane ∧ Keeps st st' ∧
      (st'.installs = st.installs ∨ st'.installs = st.installs ++ [upage]) ∧
      (ok = true → Filled st upage k w st')) never st := by
  have hkz : (pgSize - k).toNat = 4096 - k.toNat := by
    rw [UInt32.toNat_sub_of_le _ _ (UInt32.le_iff_toNat_le.mpr hk), toNat_pgSize]
  refine wp_seq pallocGetPage_spec ?_
  rintro (- | kpage) st₁ ⟨hnone, hsome⟩
  · rw [hnone rfl]
    exact ⟨hs, Keeps.refl st, .inl rfl, fun hf => by cases hf⟩
  obtain ⟨ht₁, hf₁, hi₁⟩ := hsome kpage rfl
  refine wp_seq (fileRead_spec ht₁ hf₁ hk) ?_
  rintro count st₂ ⟨ht₂, hi₂, hread⟩
  refine wp_ite (fun _ => ?_) fun hfull => ?_
  · -- the file ends before
    refine wp_seq (pallocFreePage_spec ht₂ hs) ?_
    rintro - st₃ ⟨hsane, hkeeps, hi₃⟩
    exact ⟨hsane, hkeeps, .inl (by rw [hi₃, hi₂, hi₁]), fun hf => by cases hf⟩
  obtain ⟨hpos, hbytes⟩ := hread (not_not.mp hfull)
  refine wp_seq (memset_spec ht₂) ?_
  rintro - st₃ ⟨ht₃, hi₃, hf₃, hget⟩
  refine wp_seq (installPage_spec hu hofs) ?_
  rintro ok st₄ ⟨hi₄, hp₄, hr₄, hf₄, hno, hyes⟩
  have hinst : st₄.installs = st.installs ++ [upage] := by rw [hi₄, hi₃, hi₂, hi₁]
  cases ok with
  | false =>
      refine wp_ite (fun hf => by cases hf) fun _ => ?_
      have ht₄ : Taken st kpage st₄ :=
        ⟨by rw [hp₄]; exact ht₃.pool, (hno rfl).trans ht₃.entries, by rw [hr₄]; exact ht₃.ram,
          by rw [hf₄]; exact ht₃.bytes⟩
      refine wp_seq (pallocFreePage_spec ht₄ hs) ?_
      rintro - st₅ ⟨hsane, hkeeps, hi₅⟩
      exact ⟨hsane, hkeeps, .inr (hi₅.trans hinst), fun hf => by cases hf⟩
  | true =>
      refine wp_ite (fun _ => ?_) fun hf => absurd rfl hf
      obtain ⟨hnone, hentries⟩ := hyes rfl
      rw [ht₃.entries] at hnone
      obtain ⟨hsane, hkeeps⟩ := ht₃.map hs hnone hp₄ hentries hr₄ (by rw [hf₄])
      refine ⟨hsane, hkeeps, .inr hinst, fun _ =>
        ⟨?_, fun j hj => (hbytes j hj).1, kpage, ?_, fun j hj => ?_⟩⟩
      · rw [hf₄, hf₃, hpos]
      · rw [hentries, Function.update_self]
      · rw [hr₄, hget j hj (by omega)]
        split
        · next hlt => rw [(hbytes j hlt).2]
        · rfl

/-! ## The loop -/

/-- `n` pages have been filled, from the file and with zeros. -/
structure Loaded (st : Space) (upage readBytes : UInt32) (n : Nat) (w : Bool) (st' : Space) : Prop where
  avail : ∀ j < readBytes.toNat, st.file.pos + j < st.file.bytes.length
  page : ∀ a : UInt32, upage.toNat ≤ a.toNat → a.toNat < upage.toNat + 4096 * n →
    ∃ f, st'.entries (pgNo a) = some (f, w) ∧ (st'.ram f).get (a.toNat % 4096) =
      if a.toNat - upage.toNat < readBytes.toNat
      then st.file.bytes.getD (st.file.pos + (a.toNat - upage.toNat)) 0 else 0

/-- One page, and then the rest. -/
theorem Loaded.cons {st₁ : Space} {k : UInt32} (hofs : upage.toNat % 4096 = 0)
    (hnext : (upage + pgSize).toNat = upage.toNat + 4096) (hk : k.toNat = min readBytes.toNat 4096)
    (hfill : Filled st upage k w st₁) (hkeeps : Keeps st st₁)
    (hrest : Loaded st₁ (upage + pgSize) (readBytes - k) n w st') (hkeeps' : Keeps st₁ st') :
    Loaded st upage readBytes (n + 1) w st' := by
  have hsub : (readBytes - k).toNat = readBytes.toNat - k.toNat :=
    UInt32.toNat_sub_of_le _ _ (UInt32.le_iff_toNat_le.mpr (by omega))
  obtain ⟨havail, hpage⟩ := hrest
  rw [hsub, hfill.pos, hkeeps.bytes] at havail hpage
  rw [hnext] at hpage
  refine ⟨fun j hj => ?_, fun a hlo hhi => ?_⟩
  · by_cases hjk : j < k.toNat
    · exact hfill.avail j hjk
    · have := havail (j - k.toNat) (by omega)
      omega
  · by_cases hfirst : a.toNat < upage.toNat + 4096
    · obtain ⟨f, hf, hget⟩ := hfill.page
      have hpg : pgNo a = pgNo upage := by
        rw [← UInt32.toNat_inj, toNat_pgNo, toNat_pgNo]
        omega
      have hmod : a.toNat % 4096 = a.toNat - upage.toNat := by omega
      refine ⟨f, hpg ▸ hkeeps'.entries _ _ hf, ?_⟩
      rw [hkeeps'.ram _ f w hf, hmod, hget _ (by omega)]
      split
      · rw [if_pos (by omega)]
      · rw [if_neg (by omega)]
    · obtain ⟨f, hf, hget⟩ := hpage a (by omega) (by omega)
      refine ⟨f, hf, ?_⟩
      rw [hget]
      by_cases hlt : a.toNat - upage.toNat < readBytes.toNat
      · have hpos : st.file.pos + k.toNat + (a.toNat - (upage.toNat + 4096)) =
            st.file.pos + (a.toNat - upage.toNat) := by omega
        rw [if_pos (by omega), if_pos hlt, hpos]
      · rw [if_neg (by omega), if_neg hlt]

/-- The loop ends after `n` pages, or before. -/
theorem loadPages_spec : ∀ (n : Nat) {fuel : Nat} {st : Space} {upage readBytes zeroBytes : UInt32},
    n < fuel → readBytes.toNat + zeroBytes.toNat = 4096 * n → upage.toNat % 4096 = 0 →
    upage.toNat + 4096 * n ≤ physBase.toNat → st.Sane →
    wp (loadPages w fuel upage readBytes zeroBytes) (fun ok st' => st'.Sane ∧ Keeps st st' ∧
      (∃ us, st'.installs = st.installs ++ us ∧ ∀ u ∈ us, upage ≤ u ∧ isUserVaddr u = true) ∧
      (ok = true → Loaded st upage readBytes n w st')) never st := by
  intro n
  induction n with
  | zero =>
      intro fuel st upage readBytes zeroBytes hfuel htotal _ _ hs
      obtain ⟨fuel, rfl⟩ : ∃ m, fuel = m + 1 := ⟨fuel - 1, by omega⟩
      have hr : readBytes = 0 := UInt32.toNat_inj.mp (show readBytes.toNat = 0 by omega)
      have hz : zeroBytes = 0 := UInt32.toNat_inj.mp (show zeroBytes.toNat = 0 by omega)
      subst hr hz
      refine wp_ite (fun hmore => absurd hmore (by decide)) fun _ => ?_
      exact ⟨hs, Keeps.refl st, ⟨[], (List.append_nil _).symm, fun _ hu => by cases hu⟩, fun _ =>
        ⟨fun j hj => absurd hj (Nat.not_lt_zero j), fun a hlo hhi => absurd hlo (by omega)⟩⟩
  | succ n ih =>
      intro fuel st upage readBytes zeroBytes hfuel htotal hofs hbelow hs
      obtain ⟨fuel, rfl⟩ : ∃ m, fuel = m + 1 := ⟨fuel - 1, by omega⟩
      rw [toNat_physBase] at hbelow
      have hmore : readBytes > 0 ∨ zeroBytes > 0 := by
        simp only [gt_iff_lt, UInt32.lt_iff_toNat_lt]
        show 0 < readBytes.toNat ∨ 0 < zeroBytes.toNat
        omega
      have hu : isUserVaddr upage = true := by
        refine decide_eq_true (UInt32.lt_iff_toNat_lt.mpr ?_)
        rw [toNat_physBase]
        omega
      obtain ⟨k, hkdef⟩ : ∃ k, k = if readBytes < pgSize then readBytes else pgSize := ⟨_, rfl⟩
      have hk : k.toNat = min readBytes.toNat 4096 := by
        have hiff : readBytes < pgSize ↔ readBytes.toNat < 4096 := by
          rw [UInt32.lt_iff_toNat_lt, toNat_pgSize]
        rw [hkdef]
        by_cases hlt : readBytes < pgSize
        · rw [if_pos hlt]
          have := hiff.mp hlt
          omega
        · rw [if_neg hlt, toNat_pgSize]
          have := mt hiff.mpr hlt
          omega
      have hkz : (pgSize - k).toNat = 4096 - k.toNat := by
        rw [UInt32.toNat_sub_of_le _ _ (UInt32.le_iff_toNat_le.mpr (by rw [toNat_pgSize]; omega)),
          toNat_pgSize]
      have hnext : (upage + pgSize).toNat = upage.toNat + 4096 := by
        rw [UInt32.toNat_add, toNat_pgSize]
        omega
      unfold loadPages
      rw [if_pos hmore]
      simp only [← hkdef]
      refine wp_seq (loadPage_spec hs hu (pgOfs_eq_zero.mpr hofs) (by omega)) ?_
      rintro ok st₁ ⟨hs₁, hkeeps, hinst, hfill⟩
      have hfirst : ∃ us, st₁.installs = st.installs ++ us ∧
          ∀ u ∈ us, upage ≤ u ∧ isUserVaddr u = true := by
        rcases hinst with he | he
        · exact ⟨[], by rw [he, List.append_nil], fun _ hu => by cases hu⟩
        · refine ⟨[upage], he, fun u hmem => ?_⟩
          rw [List.mem_singleton.mp hmem]
          exact ⟨UInt32.le_refl _, hu⟩
      cases ok with
      | false =>
          exact wp_ite (fun hf => by cases hf) fun _ => ⟨hs₁, hkeeps, hfirst, fun hf => by cases hf⟩
      | true =>
          refine wp_ite (fun _ => ?_) fun hf => absurd rfl hf
          -- what is left is a whole number of pages
          have hleft : (readBytes - k).toNat + (zeroBytes - (pgSize - k)).toNat = 4096 * n := by
            rw [UInt32.toNat_sub_of_le _ _ (UInt32.le_iff_toNat_le.mpr (by omega)),
              UInt32.toNat_sub_of_le _ _ (UInt32.le_iff_toNat_le.mpr (by omega)), hkz]
            omega
          refine wp_mono (ih (by omega) hleft (by omega) (by rw [toNat_physBase]; omega) hs₁) ?_
            fun _ _ he => he
          rintro ok st₂ ⟨hs₂, hkeeps₂, ⟨us, hus, hall⟩, hload⟩
          obtain ⟨us₁, hus₁, hall₁⟩ := hfirst
          refine ⟨hs₂, hkeeps.trans hkeeps₂, ⟨us₁ ++ us, ?_, fun u hmem => ?_⟩, fun hok => ?_⟩
          · rw [hus, hus₁, List.append_assoc]
          · rcases List.mem_append.mp hmem with hmem | hmem
            · exact hall₁ u hmem
            · obtain ⟨hle, hlt⟩ := hall u hmem
              refine ⟨?_, hlt⟩
              rw [UInt32.le_iff_toNat_le] at hle ⊢
              omega
          · exact Loaded.cons hofs hnext hk (hfill rfl) hkeeps (hload hok) hkeeps₂

/-! ## The segment -/

/-- A byte of the process. -/
def Space.byteAt (st : Space) (a : UInt32) : Option UInt8 :=
  (st.entries (pgNo a)).map fun e => (st.ram e.1).get (pgOfs a).toNat

/-- The segment that the header describes is there. -/
structure Image (phdr : Elf32Phdr) (bytes : List UInt8) (st : Space) : Prop where
  data : ∀ k < phdr.pFilesz.toNat, phdr.pOffset.toNat + k < bytes.length ∧
    st.byteAt (phdr.pVaddr + .ofNat k) = bytes[phdr.pOffset.toNat + k]?
  bss : ∀ k, phdr.pFilesz.toNat ≤ k → k < phdr.pMemsz.toNat → st.byteAt (phdr.pVaddr + .ofNat k) = some 0
  writable : ∀ k < phdr.pMemsz.toNat,
    ∃ f, st.entries (pgNo (phdr.pVaddr + .ofNat k)) = some (f, phdr.writable)

/-- The loop puts together what the segment is to look like: bytes of the file, and then zeros. -/
theorem Loaded.image (h : Loaded st phdr.memPage phdr.readBytes n phdr.writable st')
    (hv : Valid phdr st.file.bytes) (hpos : st.file.pos = phdr.filePage.toNat)
    (htotal : phdr.readBytes.toNat + phdr.zeroBytes.toNat = 4096 * n) : Image phdr st.file.bytes st' := by
  have hb := hv.below
  rw [toNat_physBase] at hb
  have hsum := hv.readBytes_add_zeroBytes
  have hread := hv.toNat_readBytes
  have hfs := hv.filesz
  have hofs := hv.offsets
  have hmem : phdr.memPage.toNat = phdr.pVaddr.toNat / 4096 * 4096 := toNat_and_not_pgMask _
  have hfile : phdr.filePage.toNat = phdr.pOffset.toNat / 4096 * 4096 := toNat_and_not_pgMask _
  rw [hfile] at hpos
  have haddr : ∀ k < phdr.pMemsz.toNat, (phdr.pVaddr + .ofNat k).toNat = phdr.pVaddr.toNat + k := by
    intro k hk
    rw [UInt32.toNat_add, UInt32.toNat_ofNat_of_lt' (show k < 2 ^ 32 by omega)]
    omega
  have hpage : ∀ k < phdr.pMemsz.toNat, ∃ f,
      st'.entries (pgNo (phdr.pVaddr + .ofNat k)) = some (f, phdr.writable) ∧
      st'.byteAt (phdr.pVaddr + .ofNat k) = some (if phdr.pVaddr.toNat % 4096 + k < phdr.readBytes.toNat
        then st.file.bytes.getD (phdr.pOffset.toNat + k) 0 else 0) := by
    intro k hk
    obtain ⟨f, hf, hget⟩ := h.page (phdr.pVaddr + .ofNat k) (by rw [haddr k hk]; omega)
      (by rw [haddr k hk]; omega)
    refine ⟨f, hf, ?_⟩
    have hpg : (pgOfs (phdr.pVaddr + .ofNat k)).toNat = (phdr.pVaddr + .ofNat k).toNat % 4096 :=
      toNat_and_pgMask _
    have hin : (phdr.pVaddr + .ofNat k).toNat - phdr.memPage.toNat = phdr.pVaddr.toNat % 4096 + k := by
      rw [haddr k hk]
      omega
    have hbyte : st.file.pos + (phdr.pVaddr.toNat % 4096 + k) = phdr.pOffset.toNat + k := by omega
    unfold Space.byteAt
    rw [hf, Option.map_some, hpg, hget, hin, hbyte]
  refine ⟨fun k hk => ?_, fun k hlo hhi => ?_, fun k hk => ?_⟩
  · rw [if_neg (by omega)] at hread
    have havail := h.avail (phdr.pVaddr.toNat % 4096 + k) (by omega)
    have hlt : phdr.pOffset.toNat + k < st.file.bytes.length := by omega
    obtain ⟨f, -, hbyte⟩ := hpage k (by omega)
    rw [if_pos (by omega)] at hbyte
    rw [hbyte, List.getD_eq_getElem _ _ hlt, List.getElem?_eq_getElem hlt]
    exact ⟨hlt, rfl⟩
  · obtain ⟨f, -, hbyte⟩ := hpage k hhi
    rw [hbyte, if_neg]
    split at hread <;> omega
  · obtain ⟨f, hf, -⟩ := hpage k hk
    exact ⟨f, hf⟩

/-- What is so in the case `PT_LOAD` of a header that has been validated.  Whatever the loop is given
for fuel, if it is as much as there are pages, it returns. -/
structure LoadsSafely (phdr : Elf32Phdr) (st : Space) : Prop where
  pages : 4096 ∣ phdr.readBytes.toNat + phdr.zeroBytes.toNat
  noWrap : phdr.readBytes.toNat + phdr.zeroBytes.toNat < 2 ^ 32
  asserts : headAsserts phdr.filePage.toInt32 phdr.memPage phdr.readBytes phdr.zeroBytes = true
  returns : ∀ fuel, 2 ^ 20 ≤ fuel → ∃ ok st', loadCase fuel phdr st = .ok ok st' ∧
    st'.Sane ∧ Keeps st st' ∧
    (∃ us, st'.installs = st.installs ++ us ∧ ∀ u ∈ us, pgSize ≤ u ∧ u < physBase) ∧
    (ok = true → Image phdr st.file.bytes st')

/-- A header that `validate_segment` accepts is loaded safely, whatever the file holds. -/
theorem segments_load_safely (hs : st.Sane) (hv : validateSegment phdr st.file = true) :
    LoadsSafely phdr st := by
  have hvalid := valid_of_validateSegment hv
  have hb := hvalid.below
  have hab := hvalid.above
  have hstart := hvalid.start
  have hshort := st.file.short
  have htotal := hvalid.readBytes_add_zeroBytes
  have hmem : phdr.memPage.toNat = phdr.pVaddr.toNat / 4096 * 4096 := toNat_and_not_pgMask _
  have hfile : phdr.filePage.toNat = phdr.pOffset.toNat / 4096 * 4096 := toNat_and_not_pgMask _
  rw [toNat_physBase] at hb
  obtain ⟨n, hn⟩ : ∃ n, n = (phdr.pVaddr.toNat % 4096 + phdr.pMemsz.toNat + 4095) / 4096 := ⟨_, rfl⟩
  rw [← hn, Nat.mul_comm] at htotal
  have hassert := hvalid.headAsserts hshort
  refine ⟨⟨n, htotal⟩, by omega, hassert, fun fuel hfuel => ?_⟩
  refine wp_never.mp ?_
  unfold loadCase
  refine wp_bind.mpr (wp_get.mpr ?_)
  rw [if_pos hv]
  unfold loadSegment
  rw [if_neg (by rw [hassert]; exact Bool.noConfusion)]
  refine wp_seq (fileSeek_spec (by omega)) ?_
  rintro - _ rfl
  refine wp_mono (loadPages_spec n (by omega) htotal (by omega) (by rw [toNat_physBase]; omega)
    ⟨hs.nodup, hs.apart⟩) ?_ fun _ _ he => he
  rintro ok st' ⟨hsane, hkeeps, ⟨us, hus, hall⟩, hload⟩
  refine ⟨hsane, ⟨hkeeps.entries, hkeeps.ram, hkeeps.bytes⟩, ⟨us, hus, fun u hu => ?_⟩, fun hok => ?_⟩
  · obtain ⟨hle, hlt⟩ := hall u hu
    refine ⟨?_, of_decide_eq_true hlt⟩
    rw [UInt32.le_iff_toNat_le] at hle ⊢
    rw [toNat_pgSize]
    omega
  · exact (hload hok).image hvalid rfl htotal

/-- A process without pages. -/
theorem sane_of_empty (hnodup : st.pool.Nodup) (hnone : ∀ p, st.entries p = none) : st.Sane := by
  refine ⟨hnodup, fun p f w he => ?_⟩
  rw [hnone p] at he
  cases he

/-- Two bytes of a file of two, and three zeros. -/
def smallPhdr : Elf32Phdr := ⟨0, 0x08048000, 2, 5, 6⟩

/-- A process that has no pages yet. -/
def smallSpace : Space where
  pool := [0xC0400000]
  ram _ := Block.fill 0xcc
  entries _ := none
  tables _ := false
  spare := 1
  file := ⟨[0x90, 0xc3], 0, by decide⟩
  installs := []

example : (match loadCase 2 smallPhdr smallSpace with
    | .ok ok _ => ok
    | .error _ _ => false) = true := by decide

theorem segments_load_safely_small : LoadsSafely smallPhdr smallSpace :=
  segments_load_safely (sane_of_empty (by decide) fun _ => rfl) (by decide)

end Load

end CS162.Userprog
