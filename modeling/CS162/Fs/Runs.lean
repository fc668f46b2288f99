/-
# `CS162.Fs.Runs` — runs of calls on a formatted disk

The file system as a state machine.  A state is an `FsState` together with the set
of live inodes, those created and not yet freed; a step is one call that returns.
Opening takes a live inode; every other call goes through a pointer, so its inode is
open.  The kernel keeps the free map's inode open for itself: the calls of a run may
open and close it too, but do not close the kernel's own opening.

`FsOp.run_spec` is the step: each call keeps `FsInv` and stops at no assertion of
`free_map_release`.  `Reach.inv` is the run.
-/
import CS162.Fs.Format

namespace CS162.Fs

open Bytes Wp

/-! ## The machine -/

inductive FsOp where
  | create (length : Nat)
  | openInode (s : UInt32)
  | reopen (s : UInt32)
  | write (s : UInt32) (buffer : List UInt8) (offset : Nat)
  | remove (s : UInt32)
  | close (s : UInt32)

namespace FsOp

/-- The call; what it returns is the inode it created. -/
def run : FsOp → FsM (Option UInt32)
  | create length => createInode length
  | openInode s => do
      inodeOpen s
      return none
  | reopen s => do
      inodeReopen s
      return none
  | write s buffer offset => do
      let _ ← inodeWriteAt s buffer offset
      return none
  | remove s => do
      inodeRemove s
      return none
  | close s => do
      inodeClose s
      return none

/-- When a call may be made. -/
def Enabled (v : Vol) (live : Set UInt32) : FsOp → Prop
  | create length => length < 2 ^ 31
  | openInode s => s ∈ live
  | reopen s => ∃ i, inodeIn v.openInodes s = some i
  | write s buffer offset => (∃ i, inodeIn v.openInodes s = some i) ∧ buffer.length < 2 ^ 31 ∧
      offset < 2 ^ 31
  | remove s => ∃ i, inodeIn v.openInodes s = some i
  | close s => ∃ i, inodeIn v.openInodes s = some i ∧ (s = freeMapSector → 1 < i.openCnt)

/-- The live inodes after it. -/
def liveAfter (v : Vol) (live : Set UInt32) (r : Option UInt32) : FsOp → Set UInt32
  | create _ => match r with
      | none => live
      | some s => insert s live
  | close s => closedLive v live s
  | openInode _ | reopen _ | write _ _ _ | remove _ => live

end FsOp

/-- The states of runs that start from a freshly formatted disk.  They are runs of these calls only:
nobody denies writes in them (`HolderRun` has the runs where somebody does), nobody marks an inode as a
file or as a directory, and no disk is mounted that has been used before. -/
inductive Reach (dev : BlockDev) : FsState → Set UInt32 → Prop where
  | init {fs : FsState} : filesysInit (bootFs dev) = .ok () fs →
      Reach dev fs {rootDirSector, freeMapSector}
  | step {fs fs' : FsState} {live : Set UInt32} {op : FsOp} {r : Option UInt32} :
      Reach dev fs live → op.Enabled fs.vol live → op.run fs = .ok r fs' →
      Reach dev fs' (op.liveAfter fs.vol live r)

/-! ## The invariant along runs -/

variable {v v' : Vol} {live : Set UInt32}

section Step

variable {E : Panic → Vol → Prop} (hstack : ∀ v', v'.allocFailed = true → E .stack v')

include hstack

/-- A new inode has a sector of its own. -/
theorem createInode_spec {length : Nat} (h : FsInv v live) (hlen : length < 2 ^ 31) :
    vwp (createInode length) (fun r v' => Kept v live v' ∧ v'.openInodes = v.openInodes ∧
      (v.allocFailed = true → v'.allocFailed = true) ∧ match r with
      | none => FsInv v' live ∧ v'.allocFailed = true
      | some s => s ∉ live ∧ FsInv v' (insert s live) ∧
          (∃ p q, v'.header s = { newInode length with directPointers := p, doublyIndirect := q }) ∧
          ∀ p, byteAt v'.disk (v'.pointers s) p = 0) E v := by
  refine wpOn_seq h.allocate ?_
  intro r v₁ hr
  cases r with
  | none =>
      obtain ⟨hinv, hk, hopen, hfail, rfl, -⟩ := hr
      exact wpOn_pure ⟨hk, hopen, hfail, hinv, rfl⟩
  | some s =>
      obtain ⟨hinv, hk, hopen, hfail, hs, hused, hfor⟩ := hr
      refine wpOn_seq (hinv.create hstack hs hused hfor hlen) ?_
      rintro - v₂ ⟨-, hinv₂, hk₂, hopen₂, hfail₂, hhead, hzero⟩
      exact wpOn_pure ⟨hk.trans h.owned hk₂, hopen₂.trans hopen, fun hf => hfail₂ (hfail hf), hs,
        hinv₂, hhead, hzero⟩

/-- One call. -/
theorem FsOp.run_spec (hlock : ∀ v', E .lockHeld v') (hpast : ∀ v', E .pastEnd v') (op : FsOp)
    (h : FsInv v live) (he : op.Enabled v live) :
    vwp op.run (fun r v' => FsInv v' (op.liveAfter v live r)) E v := by
  cases op with
  | create length =>
      refine wpOn_weaken (createInode_spec hstack h he) ?_
      rintro r v' ⟨-, -, -, hr⟩
      cases r with
      | none => exact hr.1
      | some s => exact hr.2.1
  | openInode s =>
      refine wpOn_seq (vwp_inodeOpen (Q := fun _ v' => v' = v.opened s)
        ((h.owned.header s he).lt h.owned.bitCnt) rfl) ?_
      rintro - v' rfl
      exact wpOn_pure (h.opened he)
  | reopen s =>
      obtain ⟨i, hi⟩ := he
      refine wpOn_seq (vwp_inodeReopen (Q := fun _ v' => v' = v.opened s) hi rfl) ?_
      rintro - v' rfl
      exact wpOn_pure (h.opened (h.opens s i hi).1)
  | write s buffer offset =>
      obtain ⟨⟨i, hi⟩, hbuf, hoff⟩ := he
      refine wpOn_seq (h.write hi (fun _ => hlock) hbuf hoff (Or.inr hpast)) ?_
      rintro r v' ⟨hinv, -⟩
      exact wpOn_pure hinv
  | remove s =>
      obtain ⟨i, hi⟩ := he
      refine wpOn_seq (vwp_updateInode (Q := fun _ v' => v' = _) hi rfl) ?_
      rintro - v' rfl
      have hsec := sector_of_inodeIn hi
      exact wpOn_pure (h.update hi hsec (h.opens s i hi).2 rfl rfl rfl rfl)
  | close s =>
      obtain ⟨i, hi, h0⟩ := he
      refine wpOn_seq (h.close hi h0) ?_
      rintro - v' ⟨hinv, -⟩
      exact wpOn_pure hinv

end Step

/-- What a run may stop at: everything but the assertions of `free_map_release`. -/
def NotInRelease (e : Panic) (_ : Vol) : Prop := e ≠ .bitmapAll ∧ e ≠ .bitmapRange

theorem FsOp.run_inv (op : FsOp) (h : FsInv v live) (he : op.Enabled v live) :
    vwp op.run (fun r v' => FsInv v' (op.liveAfter v live r)) NotInRelease v :=
  op.run_spec (fun _ _ => ⟨by decide, by decide⟩) (fun _ => ⟨by decide, by decide⟩)
    (fun _ => ⟨by decide, by decide⟩) h he

theorem Reach.inv {dev : BlockDev} {fs : FsState} (h : Reach dev fs live) : FsInv fs.vol live := by
  induction h with
  | init hrun =>
      obtain ⟨v₁, hboot⟩ := wpOn_ok (filesysInit_spec dev) hrun
      exact hboot.inv
  | step _ he hrun ih =>
      have hinv := wpOn_ok (FsOp.run_inv _ ih he) hrun
      exact hinv

/-- A write that returns is a step. -/
theorem FsOp.run_write {s : UInt32} {buffer : List UInt8} {offset r : Nat} {fs fs' : FsState}
    (h : inodeWriteAt s buffer offset fs = .ok r fs') :
    (FsOp.write s buffer offset).run fs = .ok none fs' := by
  simp only [FsOp.run, bind, EStateM.bind, h]
  rfl

/-! ## No two owners -/

/-- The sectors an inode uses: its header (`none`), and what its pointers name. -/
def Vol.sectorOf (v : Vol) (s : UInt32) : Option Slot → UInt32
  | none => s
  | some a => v.pointers s a

/-- All sectors in use are marked, and none is in use twice. -/
structure NoSharing (v : Vol) (live : Set UInt32) : Prop where
  used : ∀ s ∈ live, ∀ a, v.sectorOf s a ≠ unallocated → v.freeMap.Used (v.sectorOf s a)
  once : ∀ s ∈ live, ∀ t ∈ live, ∀ a b, v.sectorOf s a ≠ unallocated →
    v.sectorOf s a = v.sectorOf t b → s = t ∧ a = b

/-- Sectors that are owned have one owner. -/
theorem Owned.noSharing (h : Owned v live) : NoSharing v live := by
  refine ⟨fun s hs a hu => ?_, fun s hs t ht a b hu he => ?_⟩
  · cases a with
    | none => exact h.header s hs
    | some a => exact h.used s hs a hu
  · cases a with
    | none =>
        cases b with
        | none => exact ⟨he, rfl⟩
        | some b => exact absurd he.symm (h.apart t ht s hs b)
    | some a =>
        cases b with
        | none => exact absurd he (h.apart s hs t ht a)
        | some b =>
            obtain ⟨hst, hab⟩ := h.inj s hs t ht a b hu he
            exact ⟨hst, congrArg some hab⟩

/-- The sectors and the length of an inode are the same in two states. -/
structure SameExtent (v v' : Vol) (t : UInt32) : Prop where
  sectors : v'.pointers t = v.pointers t
  len : (v'.header t).len = (v.header t).len

/-- And its bytes. -/
structure SameFile (v v' : Vol) (t : UInt32) : Prop extends SameExtent v v' t where
  bytes : ∀ p, byteAt v'.disk (v'.pointers t) p = byteAt v.disk (v.pointers t) p

section Kept

variable {L : Set UInt32} {t : UInt32}

theorem Kept.sameExtent (h : Kept v L v') (ho : Owned v L) (ht : t ∈ L) : SameExtent v v' t :=
  ⟨h.pointers ho ht, by rw [h.header ho ht]⟩

theorem Kept.sameFile (h : Kept v L v') (ho : Owned v L) (ht : t ∈ L)
    (h0 : t ≠ freeMapSector) : SameFile v v' t := by
  refine ⟨h.sameExtent ho ht, fun p => ?_⟩
  rw [h.pointers ho ht]
  exact h.bytes ho ht h0 p

end Kept

/-- In every state a run can reach all sectors in use are marked and none is in use
twice; no call stops at an assertion of `free_map_release`; and a write leaves the sectors
and the length of every other inode alone, and the bytes of all but the free map's own:
`free_map_allocate` saves the map in that file, so a write that allocates rewrites it. -/
theorem sectors_have_one_owner (dev : BlockDev) (fs : FsState) (live : Set UInt32)
    (h : Reach dev fs live) :
    NoSharing fs.vol live ∧
    (∀ op : FsOp, op.Enabled fs.vol live → ∀ e fs', op.run fs = .error e fs' →
      e ≠ .bitmapAll ∧ e ≠ .bitmapRange) ∧
    (∀ s buffer offset, (FsOp.write s buffer offset).Enabled fs.vol live →
      ∀ r fs', inodeWriteAt s buffer offset fs = .ok r fs' → ∀ t ∈ live, t ≠ s →
        SameExtent fs.vol fs'.vol t ∧ (t ≠ freeMapSector → SameFile fs.vol fs'.vol t)) := by
  have hinv := h.inv
  refine ⟨hinv.owned.noSharing, ?_, ?_⟩
  · intro op he e fs' hrun
    rcases wpOn_run (op.run_inv hinv he) with ⟨a, fs'', hr, -⟩ | ⟨e', fs'', hr, hE⟩
    · rw [hrun] at hr
      cases hr
    · rw [hrun] at hr
      cases hr
      exact hE
  · rintro s buffer offset ⟨⟨i, hi⟩, hbuf, hoff⟩ r fs' hrun t ht hts
    have hspec := hinv.write (E := fun _ _ => True) hi
      (fun _ _ => trivial) hbuf hoff (Or.inr fun _ => trivial)
    rcases wpOn_run hspec with ⟨r', fs'', hr, -, hk, -⟩ | ⟨e', fs'', hr, -⟩
    · rw [hrun] at hr
      cases hr
      have howned := hinv.owned.mono (Set.sdiff_subset (t := {s}))
      exact ⟨hk.sameExtent howned ⟨ht, hts⟩, hk.sameFile howned ⟨ht, hts⟩⟩
    · rw [hrun] at hr
      cases hr

/-! ### A disk of six sectors -/

def smallDisk : BlockDev := ⟨6, fun _ => zerosBlock⟩

def smallFs : FsState := afterCall filesysInit (bootFs smallDisk)

theorem smallFs_reach : Reach smallDisk smallFs {rootDirSector, freeMapSector} :=
  .init (run_of_returnedValue (by decide +kernel))

/-- After a file has been created, in sector 4. -/
def smallCreated : FsState := afterCall (FsOp.create 0).run smallFs

/-- And opened. -/
def smallFile : FsState := afterCall (FsOp.openInode 4).run smallCreated

theorem smallFs_create : (FsOp.create 0).run smallFs = .ok (some 4) smallCreated :=
  run_of_returnedValue (by decide +kernel)

theorem smallCreated_reach :
    Reach smallDisk smallCreated (insert 4 {rootDirSector, freeMapSector}) := by
  have henabled : (FsOp.create 0).Enabled smallFs.vol {rootDirSector, freeMapSector} :=
    Nat.two_pow_pos 31
  exact .step smallFs_reach henabled smallFs_create

theorem smallCreated_open : (FsOp.openInode 4).run smallCreated = .ok none smallFile :=
  run_of_returnedValue (by decide +kernel)

theorem smallFile_reach :
    Reach smallDisk smallFile (insert 4 {rootDirSector, freeMapSector}) := by
  have hlive : (FsOp.openInode 4).Enabled smallCreated.vol
      (insert 4 {rootDirSector, freeMapSector}) := Or.inl rfl
  exact .step smallCreated_reach hlive smallCreated_open

/-- An empty inode is on the disk as it was built. -/
theorem createInode_empty (h : FsInv v live) :
    vwp (createInode 0) (fun r v' => ∀ s, r = some s → inodeIn v'.openInodes s = none ∧
      v'.disk s = ((newInode 0).setLen 0).toSector ∧ s < v'.size) (fun _ _ => True) v := by
  refine wpOn_seq h.allocate ?_
  intro r v₁ hr
  cases r with
  | none => exact wpOn_pure fun s hs => by cases hs
  | some x =>
      obtain ⟨hinv, -, -, -, hx, hused, -⟩ := hr
      have hlt := hused.lt hinv.owned.bitCnt
      refine wpOn_seq (vwp_inodeCreate_empty (Q := fun _ v' => v' = _) hlt rfl) ?_
      rintro - v₂ rfl
      refine wpOn_pure ?_
      rintro s ⟨⟩
      refine ⟨?_, Vol.write_self _ _ _, hlt⟩
      cases hc : inodeIn v₁.openInodes x with
      | none => exact hc
      | some i => exact absurd (hinv.opens x i hc).1 hx

/-- The `struct inode` of such an inode, opened. -/
theorem openInodes_of_empty {fs fs₁ fs₂ : FsState} {s : UInt32} (h : FsInv fs.vol live)
    (hcreate : createInode 0 fs = .ok (some s) fs₁)
    (hopen : (FsOp.openInode s).run fs₁ = .ok none fs₂) :
    fs₂.openInodes = ⟨s, 1, false, 0, (newInode 0).setLen 0⟩ :: fs₁.openInodes := by
  obtain ⟨hnone, hdisk, hlt⟩ : inodeIn fs₁.vol.openInodes s = none ∧
      fs₁.vol.disk s = ((newInode 0).setLen 0).toSector ∧ s < fs₁.vol.size := by
    have hq := wpOn_ok (createInode_empty h) hcreate
    exact hq s rfl
  have hspec : vwp (FsOp.openInode s).run (fun _ v' => v' = fs₁.vol.opened s)
      (fun _ _ => True) fs₁.vol := by
    refine wpOn_seq (vwp_inodeOpen (Q := fun _ v' => v' = _) hlt rfl) ?_
    rintro - v' rfl
    exact wpOn_pure rfl
  have hq := wpOn_ok hspec hopen
  have hlist := congrArg Vol.openInodes hq
  unfold Vol.opened openedInode at hlist
  simp only [hnone, hdisk, InodeDisk.ofSector_toSector] at hlist
  exact hlist

theorem FsState.eq_with_openInodes {fs : FsState} {l : List Inode} (h : fs.openInodes = l) :
    fs = { fs with openInodes := l } := by
  subst h
  rfl

/-- What a read of one byte says about it. -/
theorem byteAt_of_read {fs : FsState} {s : UInt32} {i : Inode} {offset : Nat} {b : UInt8}
    (h : Owned fs.vol live) (hs : s ∈ live) (hi : inodeIn fs.vol.openInodes s = some i)
    (hmax : offset + 1 ≤ maxFileLen)
    (hread : returnedValue (inodeReadAt s 1 offset) fs = some [b]) :
    byteAt fs.vol.disk (fs.vol.pointers s) offset = b := by
  have hrun := run_of_returnedValue hread
  obtain ⟨-, hb⟩ := wpOn_ok (h.read (E := fun _ _ => True) hs hi (.inl hmax)) hrun
  cases hn : min 1 ((fs.vol.header s).len - offset) with
  | zero =>
      rw [hn] at hb
      cases hb
  | succ n =>
      have hn0 : n = 0 := by omega
      rw [hn, hn0] at hb
      simpa [bytesAt] using hb.symm

/-- And after one byte has been written to it: sector 5 is its own now. -/
def smallGrown : FsState := afterCall (inodeWriteAt 4 [7] 0) smallFile

theorem smallFile_grows : returnedValue (inodeWriteAt 4 [7] 0) smallFile = some 1 ∧
    smallGrown.vol.pointers 4 (.direct 0) = 5 := by
  unfold smallGrown
  rw [FsState.eq_with_openInodes
    (openInodes_of_empty smallFs_reach.inv smallFs_create smallCreated_open)]
  decide +kernel

theorem smallFile_enabled : (FsOp.write 4 [7] 0).Enabled smallFile.vol
    (insert 4 {rootDirSector, freeMapSector}) := by
  obtain ⟨i, hi⟩ : ∃ i, inodeIn smallFile.vol.openInodes 4 = some i :=
    Option.isSome_iff_exists.mp (by decide +kernel)
  exact ⟨⟨i, hi⟩, by decide, by decide⟩

theorem smallGrown_reach :
    Reach smallDisk smallGrown (insert 4 {rootDirSector, freeMapSector}) :=
  .step smallFile_reach smallFile_enabled
    (FsOp.run_write (run_of_returnedValue smallFile_grows.1))

theorem sectors_have_one_owner_small :
    inodeWriteAt 4 [7] 0 smallFile = .ok 1 smallGrown ∧
    smallGrown.vol.pointers 4 (.direct 0) = 5 ∧
    NoSharing smallGrown.vol (insert 4 {rootDirSector, freeMapSector}) ∧
    SameFile smallFile.vol smallGrown.vol rootDirSector ∧
    SameExtent smallFile.vol smallGrown.vol freeMapSector := by
  have hrun := run_of_returnedValue smallFile_grows.1
  have hother := (sectors_have_one_owner _ _ _ smallFile_reach).2.2 4 [7] 0 smallFile_enabled
    1 smallGrown hrun
  have hroot := hother rootDirSector (Or.inr (Or.inl rfl)) (by decide)
  have hmap := hother freeMapSector (Or.inr (Or.inr rfl)) (by decide)
  exact ⟨hrun, smallFile_grows.2, (sectors_have_one_owner _ _ _ smallGrown_reach).1,
    hroot.2 (by decide), hmap.1⟩

/-- One byte written to that file, and then the free map's file read. -/
theorem smallFile_write : returnedValue
    (inodeWriteAt 4 [7] 0 >>= fun _ => inodeReadAt freeMapSector 1 0) smallFile = some [63] := by
  rw [FsState.eq_with_openInodes
    (openInodes_of_empty smallFs_reach.inv smallFs_create smallCreated_open)]
  decide +kernel

/-- The free map's file is an inode too, and a write that allocates rewrites it. -/
theorem write_changes_free_map_file : ¬ ∀ (dev : BlockDev) (fs : FsState) (live : Set UInt32),
    Reach dev fs live → ∀ s buffer offset, (FsOp.write s buffer offset).Enabled fs.vol live →
      ∀ r fs', inodeWriteAt s buffer offset fs = .ok r fs' → ∀ t ∈ live, t ≠ s →
        SameFile fs.vol fs'.vol t := by
  intro hall
  obtain ⟨r, hr, hafter⟩ := returnedValue_bind smallFile_write
  have hrun := run_of_returnedValue hr
  have hmap : freeMapSector ∈ (insert 4 {rootDirSector, freeMapSector} : Set UInt32) :=
    Or.inr (Or.inr rfl)
  have hbyte := (hall _ _ _ smallFile_reach _ _ _ smallFile_enabled _ _ hrun freeMapSector hmap
    (by decide)).bytes 0
  have hwrite := FsOp.run_write hrun
  have hinv := smallFile_reach.inv
  have hinv' := (Reach.step smallFile_reach smallFile_enabled hwrite).inv
  obtain ⟨k, hk, -⟩ := hinv.map.isOpen
  obtain ⟨k', hk', -⟩ := hinv'.map.isOpen
  have hone : 0 + 1 ≤ maxFileLen := by decide
  have hbefore : returnedValue (inodeReadAt freeMapSector 1 0) smallFile = some [31] := by
    decide +kernel
  rw [byteAt_of_read hinv.owned hmap hk hone hbefore,
    byteAt_of_read hinv'.owned hmap hk' hone hafter] at hbyte
  exact absurd hbyte (by decide)

end CS162.Fs
