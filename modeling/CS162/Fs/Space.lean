/-
# `CS162.Fs.Space` — when the sectors run out

What the file system promises about a full disk, for each state a run can reach.

`inode_create` stores the new length before it extends, so that `inode_extend`, when it
fails, goes back to the very length it could not reach, and does not return.  A growing
`inode_write_at` goes back to the old length; what it had only in the copies of the table
blocks is lost, and the doubly indirect block stays (`Restorable`).
-/
import CS162.Fs.Tidy
import CS162.Fs.Boot

namespace CS162.Fs

open Bytes Wp

variable {dev : BlockDev} {fs fs₁ : FsState} {live : Set UInt32} {s : UInt32}

/-! ## `inode_create` -/

/-- All that the length needs is there, marked, and filled with zeros. -/
structure AllZeros (v : Vol) (s : UInt32) (length : Nat) : Prop where
  full : Full (v.pointers s) length
  used : ∀ a, v.pointers s a ≠ unallocated → v.freeMap.Used (v.pointers s a)
  zero : ∀ p, byteAt v.disk (v.pointers s) p = 0

/-- `inode_create` returns: true only with all that is needed, and when there are too few
sectors false, with the free map as before. -/
def CreateMeets (fs : FsState) (s : UInt32) (length : Nat) : Prop :=
  ∃ r fs', inodeCreate s length fs = .ok r fs' ∧
    (r = true → AllZeros fs'.vol s length) ∧
    (freeCnt fs.freeMap < sectors length → r = false ∧
      ∀ x, fs'.freeMap.Used x ↔ fs.freeMap.Used x)

/-- `inode_create` does what it should if and only if there are sectors for all blocks: where there are
too few, `inode_extend` calls itself for ever. -/
theorem create_meets_iff (hreach : Reach dev fs live) (halloc : freeMapAllocate 1 fs = .ok (some s) fs₁)
    {length : Nat} (hlen : length ≤ maxFileLen) :
    CreateMeets fs₁ s length ↔ sectors length ≤ freeCnt fs₁.freeMap := by
  obtain ⟨hinv, hs, hused, hfor⟩ : FsInv fs₁.vol live ∧ s ∉ live ∧ fs₁.vol.freeMap.Used s ∧
      ¬ Foreign fs₁.vol live s := by
    have hq := wpOn_ok (hreach.inv.allocate (E := fun _ _ => True)) halloc
    obtain ⟨hinv, -, -, -, hs, hused, hfor⟩ := hq
    exact ⟨hinv, hs, hused, hfor⟩
  have hlt : length < 2 ^ 31 := Nat.lt_of_le_of_lt hlen (by decide)
  rcases wpOn_run (hinv.create_exact hs hused hfor hlt) with
    ⟨r, fs', hr, rfl, hle, hc⟩ | ⟨e, fs', hr, -, hshort⟩
  · refine iff_of_true
      ⟨true, fs', hr, fun _ => ⟨hc.full, hc.account.sound.used, hc.zero⟩, fun h => ?_⟩ hle
    exact absurd h (Nat.not_lt.mpr hle)
  · refine iff_of_false ?_ (Nat.not_le.mpr hshort)
    rintro ⟨r, fs'', hr', -⟩
    rw [hr] at hr'
    cases hr'

/-- With one sector left, for a file of 512 bytes. -/
theorem create_meets_small :
    ∃ fs₁, freeMapAllocate 1 smallFs = .ok (some 4) fs₁ ∧ CreateMeets fs₁ 4 512 := by
  have halloc : freeMapAllocate 1 smallFs = .ok (some 4) (afterCall (freeMapAllocate 1) smallFs) :=
    run_of_returnedValue (by decide +kernel)
  refine ⟨_, halloc, (create_meets_iff smallFs_reach halloc (by decide)).mpr ?_⟩
  decide +kernel

/-- And for one of 1024 bytes: `inode_create` does not return. -/
theorem create_overflows_stack : ∃ fs₁, freeMapAllocate 1 smallFs = .ok (some 4) fs₁ ∧
    returnedValue (inodeCreate 4 1024) fs₁ = none ∧ ¬ CreateMeets fs₁ 4 1024 := by
  have halloc : freeMapAllocate 1 smallFs = .ok (some 4) (afterCall (freeMapAllocate 1) smallFs) :=
    run_of_returnedValue (by decide +kernel)
  have hnone : returnedValue (inodeCreate 4 1024) (afterCall (freeMapAllocate 1) smallFs) = none := by
    decide +kernel
  refine ⟨_, halloc, hnone, ?_⟩
  rintro ⟨r, fs', hr, -⟩
  rw [returnedValue, hr] at hnone
  cases hnone

/-! ## `inode_write_at` -/

/-- When an allocation fails in it, `inode_write_at` returns 0, with the free map, the length,
the pointers and the bytes as before. -/
def WriteAtomic (fs : FsState) (s : UInt32) (buffer : List UInt8) (offset : Nat) : Prop :=
  (afterCall (inodeWriteAt s buffer offset) { fs with allocFailed := false }).allocFailed = true →
    ∃ fs', inodeWriteAt s buffer offset { fs with allocFailed := false } = .ok 0 fs' ∧
      (∀ x, fs'.freeMap.Used x ↔ fs.freeMap.Used x) ∧ SameFile fs.vol fs'.vol s

/-- There are sectors enough, or the attempt to grow the inode fails while nothing is lost. -/
def Recovers (v : Vol) (i : Inode) (size offset : Nat) : Prop :=
  Grows i size offset →
    need (pointerAt v.disk i.data) i.data.len (offset + size) ≤ freeCnt v.freeMap ∨
    Restorable i.data.len (freeCnt v.freeMap)

/-- An attempt that failed has changed no byte. -/
theorem WriteDone.bytes_none {R W : UInt32 → Prop} {v v' : Vol} {L : Set UInt32} {i : Inode}
    {buffer : List UInt8} {offset : Nat} {id' : InodeDisk}
    (hd : WriteDone R W s v i buffer offset 0 v' id') (ho : Owned v L) (hs : s ∈ L)
    (h0 : s ≠ freeMapSector) (hi : inodeIn v.openInodes s = some i) (p : Nat) :
    byteAt v'.disk (v'.pointers s) p = byteAt v.disk (v.pointers s) p := by
  have hh := Vol.header_open hi
  have hblank := ho.blank s hs h0
  rw [Vol.pointers, hh] at hblank
  rw [Vol.pointers, Vol.pointers, Vol.header_open hd.self, hh, (hd.bytes hblank).2 p, if_neg (by omega)]

section Atomic

variable {i : Inode} {buffer : List UInt8} {offset : Nat}

/-- With too few sectors. -/
theorem write_short (hreach : Reach dev fs live) (hi : inodeIn fs.openInodes s = some i)
    (h0 : s ≠ freeMapSector) (hbuf : buffer.length < 2 ^ 31) (hoff : offset < 2 ^ 31)
    (hg : Grows i buffer.length offset)
    (hshort : freeCnt fs.freeMap < need (fs.vol.pointers s) i.data.len (offset + buffer.length)) :
    WriteAtomic fs s buffer offset ↔ Restorable i.data.len (freeCnt fs.freeMap) := by
  have hinv := hreach.inv.of_flag false
  have hs := (hinv.opens s i hi).1
  have hh : fs.vol.header s = i.data := Vol.header_open hi
  have hp : fs.vol.pointers s = pointerAt fs.vol.disk i.data := by rw [Vol.pointers, hh]
  have hup := hreach.tidy s hs h0
  rw [hh] at hup
  rw [hp] at hshort
  have hshort' := Nat.not_le.mpr hshort
  have hspec := wpOn_and (hinv.write_exact hi h0 hbuf hoff hup)
    (hinv.write (E := fun _ _ => True) hi (fun _ _ => trivial) hbuf hoff (.inr fun _ => trivial))
  unfold WriteAtomic afterCall
  rcases wpOn_run (s := { fs with allocFailed := false }) hspec with
    ⟨r, fs', hr, ⟨-, hgrow⟩, -, -, id', hd, hout⟩ | ⟨e, fs', hr, -, -, hpast, -⟩
  · rw [hr]
    rcases hgrow hg with ⟨-, -, hgrown⟩ | ⟨rfl, hlen, hundone⟩
    · exact absurd (hgrown.free ▸ Nat.le_add_left _ _) hshort'
    · obtain ⟨hdeny, hgt, hsum⟩ := hg
      have hfail : fs'.allocFailed = true := by
        rcases hout hdeny hsum with ⟨-, hmax⟩ | ⟨-, -, hf⟩
        · rw [Vol.header_open hd.self] at hlen
          have hlen' : id'.len = i.data.len := hlen
          omega
        · exact hf
      refine ⟨fun h => ?_, fun h _ => ?_⟩
      · obtain ⟨fs'', he, hused, hfile⟩ := h hfail
        cases he
        exact hundone.restored.mpr ⟨hused, hfile.sectors.trans hp⟩
      · obtain ⟨hused, hptr⟩ := hundone.restored.mp h
        refine ⟨fs', rfl, hused, ⟨hptr.trans hp.symm, ?_⟩, hd.bytes_none hinv.owned hs h0 hi⟩
        rw [hh]
        exact hlen
  · exact absurd (hpast hg).1 hshort'

/-- With enough of them no allocation fails. -/
theorem write_enough (hreach : Reach dev fs live) (hi : inodeIn fs.openInodes s = some i)
    (h0 : s ≠ freeMapSector) (hbuf : buffer.length < 2 ^ 31) (hoff : offset < 2 ^ 31)
    (henough : Grows i buffer.length offset →
      need (fs.vol.pointers s) i.data.len (offset + buffer.length) ≤ freeCnt fs.freeMap) :
    (afterCall (inodeWriteAt s buffer offset) { fs with allocFailed := false }).allocFailed = false := by
  have hinv := hreach.inv.of_flag false
  have hh : fs.vol.header s = i.data := Vol.header_open hi
  have hp : fs.vol.pointers s = pointerAt fs.vol.disk i.data := by rw [Vol.pointers, hh]
  have hup := hreach.tidy s (hinv.opens s i hi).1 h0
  rw [hh] at hup
  rw [hp] at henough
  unfold afterCall
  rcases wpOn_run (s := { fs with allocFailed := false }) (hinv.write_exact hi h0 hbuf hoff hup) with
    ⟨r, fs', hr, hsame, hgrow⟩ | ⟨e, fs', hr, -, hflag, -, -⟩
  · rw [hr]
    by_cases hg : Grows i buffer.length offset
    · rcases hgrow hg with ⟨-, -, hgrown⟩ | ⟨-, -, hundone⟩
      · exact hgrown.flag
      · exact absurd (henough hg) (Nat.not_le.mpr hundone.short)
    · exact (hsame hg).2.2.2.1
  · rw [hr]
    exact hflag

/-- A write that cannot get its sectors leaves everything as it was if and only if the attempt to grow
the inode loses none: what hangs from an indirect block that is not finished is not given back.  The free
map's own inode is left out, which every allocation writes. -/
theorem write_atomic_iff (hreach : Reach dev fs live) (hi : inodeIn fs.openInodes s = some i)
    (h0 : s ≠ freeMapSector) (hbuf : buffer.length < 2 ^ 31) (hoff : offset < 2 ^ 31) :
    WriteAtomic fs s buffer offset ↔ Recovers fs.vol i buffer.length offset := by
  have hh : fs.vol.header s = i.data := Vol.header_open hi
  have hp : fs.vol.pointers s = pointerAt fs.vol.disk i.data := by rw [Vol.pointers, hh]
  unfold Recovers
  rw [← hp]
  by_cases henough : Grows i buffer.length offset →
      need (fs.vol.pointers s) i.data.len (offset + buffer.length) ≤ freeCnt fs.freeMap
  · refine iff_of_true (fun hf => ?_) fun hg => .inl (henough hg)
    rw [write_enough hreach hi h0 hbuf hoff henough] at hf
    cases hf
  · obtain ⟨hg, hshort⟩ := Classical.not_imp.mp henough
    rw [write_short hreach hi h0 hbuf hoff hg (Nat.not_le.mp hshort)]
    exact ⟨fun h _ => .inr h, fun h => (h hg).resolve_left hshort⟩

end Atomic

/-- The file of the disk of six sectors, which has one sector left. -/
theorem smallFile_inode : inodeIn smallFile.openInodes 4 =
    some ⟨4, 1, false, 0, (newInode 0).setLen 0⟩ := by
  rw [openInodes_of_empty smallFs_reach.inv smallFs_create smallCreated_open]
  rfl

theorem write_atomic_small : WriteAtomic smallFile 4 [7] 600 :=
  (write_atomic_iff smallFile_reach smallFile_inode (by decide) (by decide) (by decide)).mpr
    fun _ => .inr (by decide +kernel)

/-! ### A disk of 140 sectors -/

def mediumDisk : BlockDev := ⟨140, fun _ => zerosBlock⟩

def mediumFs : FsState := afterCall filesysInit (bootFs mediumDisk)

theorem mediumFs_run : filesysInit (bootFs mediumDisk) = .ok () mediumFs :=
  run_of_returnedValue (by decide +kernel)

/-- Formatting takes four sectors at most. -/
theorem mediumFs_free : 136 ≤ freeCnt mediumFs.freeMap := by
  have hfree := free_of_boot mediumFs_run
  have hn : mediumDisk.size.toNat = 140 := rfl
  have hs : sectors (byteCnt 140) = 1 := by decide
  rw [hn, hs] at hfree
  omega

theorem mediumFs_bitCnt : mediumFs.freeMap.bitCnt = 140 := by decide +kernel

/-- An empty file, and a write to its block 143: the sectors run out below the first
indirect block, after 123 direct blocks and the doubly indirect block have been taken. -/
theorem write_leaks : ∃ s fs₁ fs₂, NewFile mediumFs {rootDirSector, freeMapSector} s fs₁ fs₂ ∧
    ¬ WriteAtomic fs₂ s [7] 73216 := by
  have hreach : Reach mediumDisk mediumFs {rootDirSector, freeMapSector} := .init mediumFs_run
  have hfree := mediumFs_free
  obtain ⟨s, fs₁, fs₂, hnew⟩ := newFile hreach.inv (Nat.lt_of_lt_of_le (by decide) hfree)
  refine ⟨s, fs₁, fs₂, hnew, ?_⟩
  have h0 : s ≠ freeMapSector := fun he => hnew.fresh (.inr he)
  have hlow : 135 ≤ freeCnt fs₂.freeMap := by
    have := hnew.free
    omega
  have hhigh : freeCnt fs₂.freeMap ≤ 140 := by
    rw [← mediumFs_bitCnt, ← hnew.bitCnt]
    exact freeCnt_le _
  have hneed : freeCnt fs₂.freeMap < need (fs₂.vol.pointers s) 0 (73216 + 1) := by
    have hsectors : sectors (73216 + 1) = 146 := by decide
    have hnone : sectors 0 = 0 := by decide
    unfold need early
    rw [hsectors, hnone]
    split <;> split <;> omega
  have hlen : ((newInode 0).setLen 0).len < 73216 + 1 := by decide
  have hg : Grows ⟨s, 1, false, 0, (newInode 0).setLen 0⟩ [(7 : UInt8)].length 73216 :=
    ⟨rfl, hlen, by decide⟩
  rw [write_short (hnew.reach hreach) hnew.inode h0 (by decide) (by decide) hg hneed]
  have hroom : ∀ k, Restorable 0 k → k ≤ 123 := fun k hk => hk
  exact fun hr => absurd (hroom _ hr) (by omega)

end CS162.Fs
