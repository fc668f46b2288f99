/-
# `CS162.Fs.FreeMap` — the three allocators

`FreeMapSpec` of `CS162.Fs.Extend` is met by `free_map_allocate` and
`free_map_release` in the three situations in which they are called.

* Normally (`freeMap_spec`): the free map's file is open and long enough, so each
  call saves the map there and cannot fail to.  `MapOk` says what that takes.
* During formatting (`formatMap_spec`): there is no file yet.
* From inside a write to the free map's own file (`heldMap_spec`): an allocation
  finds the disk full or stops at the assertion on the lock.
-/
import CS162.Fs.Files

namespace CS162.Fs

open Bytes Wp

/-! ## Open inodes -/

/-- The open inode with the given sector. -/
def inodeIn (l : List Inode) (s : UInt32) : Option Inode := l.find? fun i => i.sector == s

/-- The list after a write through the pointer to an open inode. -/
def setInode (l : List Inode) (inode : Inode) : List Inode :=
  l.map fun i => if i.sector = inode.sector then inode else i

variable {v : Vol} {E : Panic → Vol → Prop} {s t : UInt32} {i : Inode} {l : List Inode}

theorem sector_of_inodeIn (h : inodeIn l s = some i) : i.sector = s := by
  have := List.find?_some h
  simpa using this

theorem inodeIn_setInode_self (h : inodeIn l s = some i) {j : Inode} (hj : j.sector = s) :
    inodeIn (setInode l j) s = some j := by
  induction l with
  | nil => cases h
  | cons k l ih =>
      by_cases hk : k.sector = s
      · simp [inodeIn, setInode, hk, hj]
      · have h' : inodeIn l s = some i := by simpa [inodeIn, List.find?_cons, hk] using h
        have hkj : ¬ k.sector = j.sector := by rw [hj]; exact hk
        simpa [inodeIn, setInode, List.find?_cons, hk, hkj] using ih h'

theorem inodeIn_setInode_other {j : Inode} (hj : j.sector ≠ s) :
    inodeIn (setInode l j) s = inodeIn l s := by
  induction l with
  | nil => rfl
  | cons k l ih =>
      by_cases hkj : k.sector = j.sector
      · have hk : ¬ k.sector = s := by rw [hkj]; exact hj
        simpa [inodeIn, setInode, List.find?_cons, hkj, hj, hk] using ih
      · by_cases hk : k.sector = s
        · have hsj : ¬ s = j.sector := by rw [← hk]; exact hkj
          simp [inodeIn, setInode, hsj, hk]
        · simpa [inodeIn, setInode, List.find?_cons, hkj, hk] using ih

theorem vwp_findInode {Q : Inode → Vol → Prop} (hi : inodeIn v.openInodes s = some i)
    (h : Q i v) : vwp (findInode s) Q E v := by
  refine wpOn_get ?_
  rintro fs rfl
  have hi' : (fs.openInodes.find? fun i => i.sector == s) = some i := hi
  rw [hi']
  exact wpOn_pure h

theorem vwp_putInode {Q : Unit → Vol → Prop}
    (h : Q () { v with openInodes := setInode v.openInodes i }) : vwp (putInode i) Q E v := by
  refine wpOn_modify ?_
  rintro fs rfl
  exact h

/-! ## Saving the free map -/

/-- The sectors of the blocks of a map, tables left out. -/
def dataSectors (m : Slot → UInt32) (x : UInt32) : Prop :=
  ∃ a : Slot, a.IsData ∧ m a ≠ unallocated ∧ m a = x

/-- All sectors of a map. -/
def allSectors (m : Slot → UInt32) (x : UInt32) : Prop := ∃ a, m a ≠ unallocated ∧ m a = x

/-- The free map can be saved: its file is open, has header `id₀` and pointers `m₀`,
and its blocks are there. -/
structure MapOk (id₀ : InodeDisk) (m₀ : Slot → UInt32) (v : Vol) : Prop where
  bitCnt : v.freeMap.bitCnt = v.size.toNat
  file : v.freeMapFile = true
  isOpen : ∃ i, inodeIn v.openInodes freeMapSector = some i ∧ i.data = id₀ ∧ i.denyWriteCnt = 0
  view : pointerAt v.disk id₀ = m₀
  distinct : Distinct v.size m₀
  full : Full m₀ id₀.len
  len : byteCnt v.freeMap.bitCnt ≤ id₀.len
  max : byteCnt v.freeMap.bitCnt ≤ maxFileLen

variable {id₀ : InodeDisk} {m₀ : Slot → UInt32}

/-- Writing outside the file's sectors, and changing bits. -/
theorem MapOk.congr (h : MapOk id₀ m₀ v) {v' : Vol}
    (hdisk : ∀ x, allSectors m₀ x → v'.disk x = v.disk x ∨ dataSectors m₀ x)
    (hcnt : v'.freeMap.bitCnt = v.freeMap.bitCnt) (hsize : v'.size = v.size)
    (hfile : v'.freeMapFile = v.freeMapFile) (hopen : v'.openInodes = v.openInodes) :
    MapOk id₀ m₀ v' := by
  refine ⟨by rw [hcnt, hsize]; exact h.bitCnt, by rw [hfile]; exact h.file,
    by rw [hopen]; exact h.isOpen, ?_, by rw [hsize]; exact h.distinct, h.full,
    by rw [hcnt]; exact h.len, by rw [hcnt]; exact h.max⟩
  have hv := h.view
  rw [← hv]
  refine pointerAt_congr fun a ha hu => ?_
  rw [hv] at hu ⊢
  rcases hdisk (m₀ a) ⟨a, hu, rfl⟩ with he | ⟨a', hd, hu', he⟩
  · exact he
  · -- a table is not a block
    have := h.distinct.inj a' a hu' he
    exact absurd (this ▸ hd) ha

/-- A write that does not go past the end of the inode. -/
theorem inodeWriteAtWith_within {alloc : FsM (Option UInt32)} {release : UInt32 → FsM Unit}
    {buffer : List UInt8} {offset : Nat} (hi : inodeIn v.openInodes s = some i)
    (hdeny : i.denyWriteCnt = 0) (hlen : offset + buffer.length ≤ i.data.len)
    (hd : Distinct v.size (pointerAt v.disk i.data))
    (hE : (∀ p, offset ≤ p → p < offset + buffer.length → p < i.data.len →
      p < maxFileLen ∧ pointerAt v.disk i.data (.ofPos p) ≠ unallocated) ∨ ∀ v', E .pastEnd v') :
    vwp (inodeWriteAtWith alloc release s buffer offset) (fun r v' =>
      r = buffer.length ∧ Wrote v i.data buffer offset buffer.length v') E v := by
  refine wpOn_seq (vwp_findInode (Q := fun j v' => j = i ∧ v' = v) hi ⟨rfl, rfl⟩) ?_
  rintro j v' ⟨rfl, rfl⟩
  rw [if_neg (by simp [hdeny])]
  have hlt := j.data.len_lt
  have hoff : ¬ offT (offset + buffer.length) > (j.data.len : Int) := by
    rw [offT, if_pos (by omega)]
    omega
  rw [if_neg hoff]
  refine wpOn_weaken (inodeWriteLoop_spec _ le_rfl hd (hE.imp_right fun h _ => h _)) ?_
  rintro r v' ⟨hr, hw⟩
  have hmin : min buffer.length (j.data.len - offset) = buffer.length := by omega
  rw [hmin] at hr hw
  exact ⟨by omega, hw⟩

/-- `bytes` stand at the front of the free map's file, and nothing else has changed. -/
structure Saved (id₀ : InodeDisk) (m₀ : Slot → UInt32) (bytes : List UInt8) (v v' : Vol) : Prop where
  rest : ∃ d, v' = { v with disk := d }
  ok : MapOk id₀ m₀ v'
  frame : ∀ y, ¬ dataSectors m₀ y → v'.disk y = v.disk y
  bytes : ∀ p, p < bytes.length → byteAt v'.disk m₀ p = bytes.getD p 0

/-- As many bytes as the map has fit into its file. -/
theorem MapOk.write {alloc : FsM (Option UInt32)} {release : UInt32 → FsM Unit} (h : MapOk id₀ m₀ v)
    {buffer : List UInt8} (hbuf : buffer.length = byteCnt v.freeMap.bitCnt) :
    vwp (inodeWriteAtWith alloc release freeMapSector buffer 0) (fun r v' =>
      r = buffer.length ∧ Saved id₀ m₀ buffer v v') E v := by
  obtain ⟨i, hi, rfl, hdeny⟩ := h.isOpen
  have hlen := h.len
  have hmax := h.max
  have hview := h.view
  refine wpOn_weaken (inodeWriteAtWith_within hi hdeny (by omega) (hview ▸ h.distinct)
    (Or.inl fun p _ hp hpl => ?_)) ?_
  · have hpm : p < maxFileLen := by omega
    refine ⟨hpm, ?_⟩
    rw [hview]
    refine h.full _ ?_
    rw [Slot.base_ofPos hpm]
    omega
  · rintro r v' ⟨rfl, hw⟩
    obtain ⟨d, rfl⟩ := hw.rest
    have hframe : ∀ y, ¬ dataSectors m₀ y → d y = v.disk y := by
      intro y hy
      refine hw.frame y fun a ha hu he => hy ⟨a, ha, ?_, ?_⟩
      · rw [← hview]
        exact hu
      · rw [← hview]
        exact he
    refine ⟨rfl, ⟨d, rfl⟩, ?_, hframe, fun p hp => ?_⟩
    · refine h.congr (fun x _ => ?_) rfl rfl rfl rfl
      by_cases hd : dataSectors m₀ x
      · exact Or.inr hd
      · exact Or.inl (hframe x hd)
    · have hb := hw.bytes p
      rw [hview, if_pos ⟨by omega, by rw [Nat.zero_add]; exact hp⟩, Nat.sub_zero] at hb
      exact hb

theorem bitmapWrite_spec (h : MapOk id₀ m₀ v) :
    vwp bitmapWrite (fun r v' => r = true ∧ Saved id₀ m₀ (bitmapBytes v.freeMap) v v') E v := by
  refine wpOn_get ?_
  rintro fs rfl
  refine wpOn_seq (h.write length_bitmapBytes) ?_
  rintro r v' ⟨rfl, hsaved⟩
  refine wpOn_pure ⟨?_, hsaved⟩
  rw [length_bitmapBytes]
  exact decide_eq_true rfl

/-! ## Allocation and release -/

/-- What the scan finds. -/
theorem vwp_freeMapAllocateWith {write : FsM Bool} {Q : Option UInt32 → Vol → Prop}
    (hcnt : v.freeMap.bitCnt = v.size.toNat)
    (hnone : (∀ x, x < v.freeMap.bitCnt → v.freeMap.bits x = true) →
      Q none { v with allocFailed := true })
    (hsome : ∀ x : UInt32, x.toNat < v.freeMap.bitCnt → v.freeMap.bits x.toNat = false →
      if v.freeMapFile = false
      then Q (some x) { v with freeMap := bitmapSet v.freeMap x.toNat true }
      else vwp write (fun r v' => r = true ∧ Q (some x) v') E
        { v with freeMap := bitmapSet v.freeMap x.toNat true }) :
    vwp (freeMapAllocateWith write 1) Q E v := by
  refine wpOn_get ?_
  rintro fs rfl
  have hfm : fs.freeMap = fs.vol.freeMap := rfl
  rw [hfm]
  cases hscan : bitmapScanAndFlip fs.vol.freeMap 0 1 false with
  | none =>
      refine wpOn_seq (wpOn_modify (Q := fun _ v' => v' = { fs.vol with allocFailed := true }) ?_) ?_
      · intro fs' hfs'
        rw [← hfs']
        rfl
      · rintro - v' rfl
        exact wpOn_pure (hnone fun x hx => bitmapScanAndFlip_none hscan (Nat.zero_le x) hx)
  | some sb =>
      obtain ⟨sector, b⟩ := sb
      obtain ⟨-, hlt, hfree, rfl⟩ := bitmapScanAndFlip_some hscan
      have hx : (UInt32.ofNat sector).toNat = sector := by
        rw [UInt32.toNat_ofNat_of_lt']
        rw [hcnt] at hlt
        exact hlt.trans fs.vol.size.toNat_lt
      have hs := hsome (UInt32.ofNat sector) (by rw [hx]; exact hlt) (by rw [hx]; exact hfree)
      rw [hx] at hs
      refine wpOn_seq (wpOn_modify (Q := fun _ v' =>
        v' = { fs.vol with freeMap := bitmapSet fs.vol.freeMap sector true }) ?_) ?_
      · intro fs' hfs'
        rw [← hfs']
        rfl
      rintro - v' rfl
      refine wpOn_get ?_
      intro fs' hfs'
      have hfile : fs'.freeMapFile = fs.vol.freeMapFile := congrArg Vol.freeMapFile hfs'
      rw [hfile]
      refine wpOn_ite (fun hf => ?_) (fun hf => ?_)
      · rw [if_pos hf] at hs
        exact wpOn_pure hs
      · rw [if_neg hf] at hs
        refine wpOn_seq hs ?_
        rintro r v'' ⟨rfl, hq⟩
        exact wpOn_pure hq

/-- A sector that is marked used passes both assertions. -/
theorem vwp_freeMapReleaseWith {write : FsM Bool} {x : UInt32} {Q : Unit → Vol → Prop}
    (hx : v.freeMap.Used x)
    (h : if v.freeMapFile = false
      then E .badPointer { v with freeMap := bitmapSet v.freeMap x.toNat false }
      else vwp write (fun _ v' => Q () v') E
        { v with freeMap := bitmapSet v.freeMap x.toNat false }) :
    vwp (freeMapReleaseWith write x 1) Q E v := by
  refine wpOn_get ?_
  rintro fs rfl
  obtain ⟨hlt, hbit⟩ := hx
  have hlt' : ¬ fs.freeMap.bitCnt < x.toNat + 1 := by
    have : x.toNat < fs.freeMap.bitCnt := hlt
    omega
  have hbit' : fs.freeMap.bits x.toNat = true := hbit
  rw [if_neg hlt', bitmapAll_one, hbit', if_neg (by simp), bitmapSetMultiple_one]
  refine wpOn_seq (wpOn_modify (Q := fun _ v' =>
    v' = { fs.vol with freeMap := bitmapSet fs.vol.freeMap x.toNat false }) ?_) ?_
  · intro fs' hfs'
    have hmap : fs.freeMap = fs'.freeMap := (congrArg Vol.freeMap hfs').symm
    rw [← hfs', hmap]
    rfl
  rintro - v' rfl
  refine wpOn_get ?_
  intro fs' hfs'
  have hfile : fs'.freeMapFile = fs.vol.freeMapFile := congrArg Vol.freeMapFile hfs'
  rw [hfile]
  refine wpOn_ite (fun hf => ?_) (fun hf => ?_)
  · rw [if_pos hf] at h
    exact wpOn_throw h
  · rw [if_neg hf] at h
    refine wpOn_seq h ?_
    intro _ v'' hq
    exact wpOn_pure hq

/-- The free map with a file, which every allocation and release writes. -/
theorem freeMap_spec (id₀ : InodeDisk) (m₀ : Slot → UInt32) (E : Panic → Vol → Prop) :
    FreeMapSpec (freeMapAllocate 1) (freeMapRelease · 1) (MapOk id₀ m₀) (allSectors m₀)
      (dataSectors m₀) E where
  sub := by
    rintro x ⟨a, -, hu, rfl⟩
    exact ⟨a, hu, rfl⟩
  size _ h := h.bitCnt
  write v x b h hx := by
    refine h.congr (fun y hy => Or.inl (Vol.write_other _ _ ?_)) rfl rfl rfl rfl
    rintro rfl
    exact hx hy
  alloc v h := by
    have hset : ∀ x : UInt32, MapOk id₀ m₀
        { v with freeMap := bitmapSet v.freeMap x.toNat true } :=
      fun x => h.congr (fun _ _ => Or.inl rfl) rfl rfl rfl rfl
    refine vwp_freeMapAllocateWith h.bitCnt (fun hall => ?_) ?_
    · exact ⟨h.congr (fun _ _ => Or.inl rfl) rfl rfl rfl rfl, rfl, hall⟩
    · intro x hlt hfree
      rw [if_neg (by simp [h.file])]
      refine wpOn_weaken (bitmapWrite_spec (hset x)) ?_
      rintro r v' ⟨hr, hsv⟩
      obtain ⟨d, hd⟩ := hsv.rest
      subst hd
      exact ⟨hr, hsv.ok, hlt, hfree, d, rfl, hsv.frame⟩
  release v x h hx _ := by
    refine vwp_freeMapReleaseWith hx ?_
    rw [if_neg (by simp [h.file])]
    refine wpOn_weaken (bitmapWrite_spec
      (h.congr (fun _ _ => Or.inl rfl) rfl rfl rfl rfl)) ?_
    rintro r v' ⟨-, hsv⟩
    obtain ⟨d, hd⟩ := hsv.rest
    subst hd
    exact ⟨hsv.ok, d, rfl, hsv.frame⟩

/-- The free map before its file exists. -/
def NoFile (v : Vol) : Prop := v.freeMap.bitCnt = v.size.toNat ∧ v.freeMapFile = false

/-- The free map without a file, while the disk is being formatted. -/
theorem formatMap_spec (hE : ∀ v', E .badPointer v') :
    FreeMapSpec (freeMapAllocate 1) (freeMapRelease · 1) NoFile (fun _ => False) (fun _ => False)
      E where
  sub _ h := h
  size _ h := h.1
  write _ _ _ h _ := h
  alloc v h := by
    refine vwp_freeMapAllocateWith h.1 (fun hall => ⟨h, rfl, hall⟩) ?_
    intro x hlt hfree
    rw [if_pos h.2]
    exact ⟨h, hlt, hfree, v.disk, rfl, fun _ _ => rfl⟩
  release v x h hx _ := by
    refine vwp_freeMapReleaseWith hx ?_
    rw [if_pos h.2]
    exact hE _

/-- Its file is being written, with the bits `b`. -/
structure BeingSaved (b : Bitmap) (v : Vol) : Prop where
  bits : v.freeMap = b
  bitCnt : v.freeMap.bitCnt = v.size.toNat
  file : v.freeMapFile = true

/-- The free map while it is being saved: who asks for its lock again fails the assertion. -/
theorem heldMap_spec (b : Bitmap) (hE : ∀ v', E .lockHeld v') :
    FreeMapSpec allocHeld releaseHeld (BeingSaved b) (fun _ => False) (fun _ => False) E where
  sub _ h := h
  size _ h := h.bitCnt
  write _ _ _ h _ := ⟨h.bits, h.bitCnt, h.file⟩
  alloc v h := by
    refine vwp_freeMapAllocateWith h.bitCnt (fun hall => ⟨⟨h.bits, h.bitCnt, h.file⟩, rfl, hall⟩) ?_
    intro x hlt hfree
    rw [if_neg (by simp [h.file])]
    exact wpOn_throw (hE _)
  release v x h hx _ := by
    refine vwp_freeMapReleaseWith hx ?_
    rw [if_neg (by simp [h.file])]
    exact wpOn_throw (hE _)

/-! ## `inode_write_at` -/

/-- What a write to the open inode `i` leaves behind, `id'` being its header then and
`r` the number of bytes written. -/
structure WriteDone (R W : UInt32 → Prop) (s : UInt32) (v : Vol) (i : Inode)
    (buffer : List UInt8) (offset r : Nat) (v' : Vol) (id' : InodeDisk) : Prop where
  self : inodeIn v'.openInodes s = some { i with data := id' }
  others : ∀ t, t ≠ s → inodeIn v'.openInodes t = inodeIn v.openInodes t
  sound : Sound R v'.freeMap (pointerAt v'.disk id')
  held : ∀ x, R x → v'.freeMap.Used x
  frame : ∀ x, R x → ¬ W x → v'.disk x = v.disk x
  size : v'.size = v.size
  bitCnt : v'.freeMap.bitCnt = v.freeMap.bitCnt
  file : v'.freeMapFile = v.freeMapFile
  failed : v.allocFailed = true → v'.allocFailed = true
  full : Full (pointerAt v.disk i.data) i.data.len ∨ i.data.len < id'.len →
    Full (pointerAt v'.disk id') id'.len
  there : ∀ p, offset ≤ p → p < offset + r →
    p < maxFileLen ∧ pointerAt v'.disk id' (.ofPos p) ≠ unallocated
  grown : i.data.len ≤ id'.len
  fields : ∃ p q n, id' = { i.data with directPointers := p, doublyIndirect := q, length := n }
  saved : v'.disk s = id'.toSector ∨ id' = i.data ∧ v'.disk s = v.disk s
  bytes : Blank v.disk (pointerAt v.disk i.data) i.data.len →
    Blank v'.disk (pointerAt v'.disk id') id'.len ∧
    ∀ p, byteAt v'.disk (pointerAt v'.disk id') p =
      if offset ≤ p ∧ p < offset + r then buffer.getD (p - offset) 0
      else byteAt v.disk (pointerAt v.disk i.data) p

/-- How a write that is allowed and does not overflow ends: all is written, or an
allocation failed and nothing is. -/
def WriteOutcome (i : Inode) (buffer : List UInt8) (offset r : Nat) (v' : Vol)
    (id' : InodeDisk) : Prop :=
  (r = buffer.length ∧ id'.len = max i.data.len (offset + buffer.length)) ∨
  (r = 0 ∧ id'.len = i.data.len ∧ v'.allocFailed = true)

section Write

variable {alloc : FsM (Option UInt32)} {release : UInt32 → FsM Unit} {I : Vol → Prop}
  {K F R W H : UInt32 → Prop} {buffer : List UInt8} {offset : Nat}

/-- Nothing written, the inode extended at most. -/
theorem WriteDone.of_extended {v₁ : Vol} {id' : InodeDisk} {size : Nat} (hsz : size < 2 ^ 31)
    (hi : inodeIn v.openInodes s = some i) (hle : i.data.len ≤ size)
    (hcnt : v₁.freeMap.bitCnt = v.freeMap.bitCnt)
    (h : Extended I R W R s v i.data size v₁ id') :
    WriteDone R W s v i buffer offset 0
      { v₁ with openInodes := setInode v₁.openInodes { i with data := id' } } id' := by
  obtain ⟨p, q, hid⟩ := h.fields
  have hlen : id'.len = size := by rw [hid]; exact InodeDisk.len_setLen hsz
  have hsec := sector_of_inodeIn hi
  have hop := h.ext.opens
  refine ⟨?_, ?_, h.ext.sound, fun x hx => (h.ext.held x hx).2, h.ext.frame, h.ext.size, hcnt, h.ext.file,
    h.ext.failed, fun _ => by rw [hlen]; exact h.full, fun p _ _ => by omega, by omega,
    ⟨p, q, _, hid⟩, .inl h.header, fun hb => ?_⟩
  · exact inodeIn_setInode_self (by rw [hop]; exact hi) hsec
  · intro t ht
    rw [← hop]
    exact inodeIn_setInode_other (by show i.sector ≠ t; rw [hsec]; exact ht.symm)
  · have hb' : Blank v.disk (pointerAt v.disk i.data) size := fun p hp => hb p (by omega)
    have hbytes := h.bytes hb'
    refine ⟨fun p hp => ?_, fun p => ?_⟩
    · show byteAt v₁.disk (pointerAt v₁.disk id') p = 0
      rw [hbytes p]
      exact hb p (by omega)
    · rw [if_neg (by omega)]
      exact hbytes p

/-- The loop after that. -/
theorem WriteDone.wrote {v₁ v₂ : Vol} {id' : InodeDisk} {n : Nat}
    (h : WriteDone R W s v i buffer offset 0 v₁ id') (hw : Wrote v₁ id' buffer offset n v₂)
    (hRs : R s) (hn : offset + n ≤ id'.len ∨ n = 0) : WriteDone R W s v i buffer offset n v₂ id' := by
  have hself : v₂.disk s = v₁.disk s := hw.frame s fun a _ hu he => h.sound.apart a hu (he ▸ hRs)
  obtain ⟨d, rfl⟩ := hw.rest
  have hview : pointerAt d id' = pointerAt v₁.disk id' := hw.view
  refine ⟨h.self, h.others, ?_, h.held, ?_, h.size, h.bitCnt, h.file, h.failed, ?_, ?_, h.grown,
    h.fields, by rw [hself]; exact h.saved, fun hb => ?_⟩
  · show Sound R v₁.freeMap (pointerAt d id')
    rw [hview]
    exact h.sound
  · intro x hR hW
    rw [← h.frame x hR hW]
    refine hw.frame x fun a _ hu he => ?_
    exact h.sound.apart a hu (he ▸ hR)
  · show _ → Full (pointerAt d id') id'.len
    rw [hview]
    exact h.full
  · show ∀ p, _ → _ → _ ∧ pointerAt d id' _ ≠ _
    rw [hview]
    exact hw.there
  · obtain ⟨hblank, hbytes⟩ := h.bytes hb
    have hall : ∀ p, byteAt d (pointerAt d id') p =
        if offset ≤ p ∧ p < offset + n then buffer.getD (p - offset) 0
        else byteAt v₁.disk (pointerAt v₁.disk id') p := by
      intro p
      rw [hview]
      exact hw.bytes p
    refine ⟨fun p hp => ?_, fun p => ?_⟩
    · show byteAt d (pointerAt d id') p = 0
      rw [hall p, if_neg (by omega), hblank p hp]
    · have h2 := hbytes p
      rw [if_neg (by omega)] at h2
      rw [← h2]
      exact hall p

variable (spec : FreeMapSpec alloc release I K F E) (hKR : ∀ x, K x → R x) (hFW : ∀ x, F x → W x)
  (hRs : R s) (hKs : ¬ K s) (hWs : W s)

include spec hKR hFW hRs hKs hWs

/-- The specification of `inode_write_at`. -/
theorem inodeWriteAtWith_spec
    (hstack : Full (pointerAt v.disk i.data) i.data.len ∨ ∀ v', v'.allocFailed = true → E .stack v')
    (hi : inodeIn v.openInodes s = some i) (hI : I v)
    (hsound : Sound R v.freeMap (pointerAt v.disk i.data)) (hheld : ∀ x, R x → v.freeMap.Used x)
    (hbuf : buffer.length < 2 ^ 31) (hoff : offset < 2 ^ 31)
    (hE : (offset + buffer.length ≤ maxFileLen ∧ Full (pointerAt v.disk i.data) i.data.len) ∨
      ∀ v', E .pastEnd v') :
    vwp (inodeWriteAtWith alloc release s buffer offset) (fun r v' => ∃ id',
      WriteDone R W s v i buffer offset r v' id' ∧ (∃ u, I u ∧ v'.freeMap = u.freeMap) ∧
      (i.denyWriteCnt = 0 → offset + buffer.length < 2 ^ 31 →
        WriteOutcome i buffer offset r v' id')) E v := by
  have hcnt := spec.size v hI
  have hss : s < v.size := by
    have := (hheld s hRs).1
    rw [hcnt] at this
    exact this
  have hlt := i.data.len_lt
  -- the loop meets no missing block below the length
  have hthere : ∀ {v₁ : Vol} {id' : InodeDisk},
      (Full (pointerAt v.disk i.data) i.data.len → Full (pointerAt v₁.disk id') id'.len) →
      ((∀ p, offset ≤ p → p < offset + buffer.length → p < id'.len → p < maxFileLen ∧
        pointerAt v₁.disk id' (.ofPos p) ≠ unallocated) ∨ ∀ v', E .pastEnd v') := by
    intro v₁ id' hf
    refine hE.imp_left fun hmax p _ h₂ h₃ => ?_
    have hp : p < maxFileLen := by
      have := hmax.1
      omega
    refine ⟨hp, hf hmax.2 _ ?_⟩
    rw [Slot.base_ofPos hp]
    omega
  refine wpOn_seq (vwp_findInode (Q := fun j v' => j = i ∧ v' = v) hi ⟨rfl, rfl⟩) ?_
  rintro j v' ⟨rfl, rfl⟩
  -- the inode before the loop, when it was not extended
  have hsame : WriteDone R W s v' j buffer offset 0 v' j.data :=
    ⟨hi, fun _ _ => rfl, hsound, hheld, fun _ _ _ => rfl, rfl, rfl, rfl, fun hf => hf,
      fun hf => hf.resolve_right (lt_irrefl _), fun p _ _ => by omega, le_rfl, ⟨_, _, _, rfl⟩,
      .inr ⟨rfl, rfl⟩, fun hb => ⟨hb, fun p => by rw [if_neg (by omega)]⟩⟩
  refine wpOn_ite (fun hdeny => ?_) (fun hdeny => ?_)
  · exact wpOn_pure ⟨j.data, hsame, ⟨v', hI, rfl⟩, fun h0 => absurd h0 hdeny⟩
  refine wpOn_ite (fun hneed => ?_) (fun hneed => ?_)
  · -- past the end of the inode
    have hsum : offset + buffer.length < 2 ^ 31 := by
      by_contra hge
      rw [offT, if_neg hge] at hneed
      omega
    have hnat : (offT (offset + buffer.length)).toNat = offset + buffer.length := by
      rw [offT, if_pos hsum]
      omega
    rw [hnat]
    have hgt : j.data.len < offset + buffer.length := by
      rw [offT, if_pos hsum] at hneed
      omega
    refine wpOn_seq (inodeExtend_spec spec hKR hFW hRs hKs hWs 2
      (hstack.imp_left fun hf => ⟨Nat.two_pos, hf⟩) hss hI hsound (fun x hx => ⟨hx, hheld x hx⟩)
      (fun _ _ hx => hx)) ?_
    rintro ⟨ok, id'⟩ v₁ ⟨hok, hback⟩
    refine wpOn_seq (vwp_putInode (Q := fun _ v₂ => v₂ =
      { v₁ with openInodes := setInode v₁.openInodes { j with data := id' } }) rfl) ?_
    rintro - v₂ rfl
    cases ok with
    | true =>
        have hx : Extended I R W R s v' j.data (offset + buffer.length) v₁ id' := hok rfl
        have hcnt₁ : v₁.freeMap.bitCnt = v'.freeMap.bitCnt := by
          rw [spec.size _ hx.ext.inv, hx.ext.size, hcnt]
        have hdone : WriteDone R W s v' j buffer offset 0 _ id' :=
          .of_extended hsum hi (by omega) hcnt₁ hx
        have hlen : id'.len = offset + buffer.length := by
          obtain ⟨p, q, rfl⟩ := hx.fields
          exact InodeDisk.len_setLen hsum
        have hd : Distinct v₁.size _ :=
          hdone.sound.distinct (by rw [hdone.bitCnt, hcnt, ← hx.ext.size])
        refine wpOn_weaken (inodeWriteLoop_spec _ le_rfl hd
          ((hthere fun hf => hdone.full (Or.inl hf)).imp_right fun h _ => h _)) ?_
        rintro r v₃ ⟨hr, hw⟩
        have hmin : min buffer.length (id'.len - offset) = buffer.length := by omega
        rw [hmin, Nat.zero_add] at hr
        rw [hmin] at hw
        subst hr
        refine ⟨id', hdone.wrote hw hRs (Or.inl (by omega)), ⟨v₁, hx.ext.inv, ?_⟩,
          fun _ _ => Or.inl ⟨rfl, ?_⟩⟩
        · obtain ⟨d, rfl⟩ := hw.rest
          rfl
        · omega
    | false =>
        obtain ⟨hx, hf⟩ : Extended I R W R s v' j.data j.data.len v₁ id' ∧ _ := hback rfl
        have hcnt₁ : v₁.freeMap.bitCnt = v'.freeMap.bitCnt := by
          rw [spec.size _ hx.ext.inv, hx.ext.size, hcnt]
        have hlen : id'.len = j.data.len := by
          obtain ⟨p, q, rfl⟩ := hx.fields
          exact InodeDisk.len_setLen hlt
        exact wpOn_pure ⟨id', .of_extended hlt hi le_rfl hcnt₁ hx, ⟨v₁, hx.ext.inv, rfl⟩,
          fun _ _ => Or.inr ⟨rfl, hlen, hf⟩⟩
  · -- within the inode, or the sum overflows
    have hd := hsound.distinct hcnt
    refine wpOn_weaken
      (inodeWriteLoop_spec _ le_rfl hd ((hthere fun hf => hf).imp_right fun h _ => h _)) ?_
    rintro r v₃ ⟨hr, hw⟩
    rw [Nat.zero_add] at hr
    subst hr
    refine ⟨j.data, hsame.wrote hw hRs (by omega), ⟨v', hI, ?_⟩, fun _ hsum => Or.inl ?_⟩
    · obtain ⟨d, rfl⟩ := hw.rest
      rfl
    rw [offT, if_pos hsum] at hneed
    omega

/-! ## `inode_create` -/

omit spec hKR hFW hRs hKs hWs in
/-- A new inode names nothing. -/
theorem pointerAt_fresh {disk : UInt32 → Sector} {id : InodeDisk}
    (hd : ∀ k, id.directPointers k = unallocated) (hq : id.doublyIndirect = unallocated) (a : Slot) :
    pointerAt disk id a = unallocated := by
  cases a with
  | direct k => exact hd k
  | doubly => exact hq
  | indirect k => simp [pointerAt, hq]
  | data k j => simp [pointerAt, hq]

omit spec hKR hFW hRs hKs hWs in
theorem pointerAt_newInode (disk : UInt32 → Sector) (length : Nat) (a : Slot) :
    pointerAt disk (newInode length) a = unallocated :=
  pointerAt_fresh (fun _ => rfl) rfl a

omit spec hKR hFW hRs hKs hWs in
/-- Its bytes are zeros, whatever was allocated for them. -/
theorem Extended.bytes_newInode {v₁ v' : Vol} {length : Nat} {id' : InodeDisk}
    (h : Extended I R W H s v₁ (newInode length) length v' id') (p : Nat) :
    byteAt v'.disk (pointerAt v'.disk id') p = 0 := by
  have hz : ∀ p, byteAt v₁.disk (pointerAt v₁.disk (newInode length)) p = 0 := by
    intro p
    rw [byteAt, if_neg fun hc => hc.2 (pointerAt_newInode _ _ _)]
  rw [h.bytes (fun p _ => hz p), hz]

end Write

/-- The specification of `inode_create`: an inode of the given length, or the stack
overflows on a full disk. -/
theorem inodeCreate_spec {I : Vol → Prop} {K F R W : UInt32 → Prop}
    (spec : FreeMapSpec (freeMapAllocate 1) (freeMapRelease · 1) I K F E) (hKR : ∀ x, K x → R x)
    (hFW : ∀ x, F x → W x) (hRs : R s) (hKs : ¬ K s) (hWs : W s)
    (hstack : ∀ v', v'.allocFailed = true → E .stack v') {length : Nat} (hlen : length < 2 ^ 31)
    (hI : I v) (hheld : ∀ x, R x → v.freeMap.Used x) :
    vwp (inodeCreate s length) (fun r v' => r = true ∧ ∃ id',
      Extended I R W R s (v.write s (freshInode length).toSector) (newInode length) length
        v' id') E v := by
  have hss : s < v.size := by
    have := (hheld s hRs).1
    rw [spec.size v hI] at this
    exact this
  refine wpOn_seq (vwp_cacheWrite (Q := fun _ v' => v' = v.write s (freshInode length).toSector)
    hss rfl) ?_
  rintro - v₁ rfl
  have hsound : Sound R v.freeMap
      (pointerAt (v.write s (freshInode length).toSector).disk (newInode length)) :=
    ⟨fun a hu => absurd (pointerAt_newInode _ _ a) hu,
      fun a hu => absurd (pointerAt_newInode _ _ a) hu,
      fun a _ hu => absurd (pointerAt_newInode _ _ a) hu⟩
  refine wpOn_seq (inodeExtend_spec spec hKR hFW hRs hKs hWs 2 (.inr hstack) hss
    (spec.write _ _ _ hI hKs) hsound (fun x hx => ⟨hx, hheld x hx⟩) (fun _ _ hx => hx)) ?_
  rintro ⟨ok, id'⟩ v' ⟨hok, hback⟩
  refine wpOn_pure ⟨rfl, id', ?_⟩
  have hnl : (newInode length).len = length := Int32.toNatClampNeg_ofNat_of_lt hlen
  cases ok with
  | true => exact hok rfl
  | false =>
      obtain ⟨hx, -⟩ := hback rfl
      rw [hnl] at hx
      exact hx

end CS162.Fs
