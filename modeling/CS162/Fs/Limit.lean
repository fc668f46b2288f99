/-
# `CS162.Fs.Limit` — `MAX_FILE_LEN`

`inode_fetch_block` knows no position past the limit, but `inode_extend` does not ask: it
goes over the pointers there are and records whatever length it was given.  So a write that
asks for more, on a disk with a sector for every pointer, is left with a length for which
there are no blocks, and its loop stops the machine at the first position past the limit.

An inode within the limit stays there in every other call (`write_bounded`).  `ModestRun` are
the runs in which no call asks for more; a sum of offset and size that leaves the range of
`off_t` is no danger, as `inode_write_at` takes it for a position before the end.
-/
import CS162.Fs.Space

namespace CS162.Fs

open Bytes Wp

variable {dev : BlockDev} {fs : FsState} {v : Vol} {L live : Set UInt32} {s : UInt32} {i : Inode}
  {buffer : List UInt8} {offset : Nat}

/-- The write asks for a length past the limit, and there is a sector for every pointer. -/
def Overreaches (v : Vol) (i : Inode) (size offset : Nat) : Prop :=
  Grows i size offset ∧ maxFileLen < offset + size ∧
    need (pointerAt v.disk i.data) i.data.len (offset + size) ≤ freeCnt v.freeMap

/-- `inode_write_at` returns the number of bytes it has stored; they, and the inode, end at
or before the limit. -/
def WriteBounded (fs : FsState) (s : UInt32) (buffer : List UInt8) (offset : Nat) : Prop :=
  ∃ r fs', inodeWriteAt s buffer offset fs = .ok r fs' ∧ (fs'.vol.header s).len ≤ maxFileLen ∧
    r ≤ buffer.length ∧ (0 < r → offset + r ≤ maxFileLen) ∧
    ∀ p, byteAt fs'.vol.disk (fs'.vol.pointers s) p =
      if offset ≤ p ∧ p < offset + r then buffer.getD (p - offset) 0
      else byteAt fs.vol.disk (fs.vol.pointers s) p

/-- The inodes other than that of the free map are within the limit. -/
def Bounded (v : Vol) (L : Set UInt32) : Prop := Each (fun _ len => len ≤ maxFileLen) v L

/-- The length after a write that does not overreach. -/
theorem FsInv.write_len (h : FsInv v L) (ht : Tidy v L) (hb : Bounded v L)
    (hi : inodeIn v.openInodes s = some i) (h0 : s ≠ freeMapSector) (hbuf : buffer.length < 2 ^ 31)
    (hoff : offset < 2 ^ 31) (hno : ¬ Overreaches v i buffer.length offset) :
    vwp (inodeWriteAt s buffer offset) (fun r v' => (v'.header s).len ≤ maxFileLen ∧ r ≤ buffer.length)
      (fun _ _ => False) v := by
  have hs := (h.opens s i hi).1
  have hh := Vol.header_open hi
  have hup := ht s hs h0
  have hle := hb s hs h0
  rw [hh] at hup hle
  refine wpOn_mono (h.write_exact hi h0 hbuf hoff hup) ?_ ?_
  · rintro r v' ⟨hsame, hgrow⟩
    by_cases hg : Grows i buffer.length offset
    · rcases hgrow hg with ⟨rfl, hlen, hgrown⟩ | ⟨rfl, hlen, -⟩
      · refine ⟨Nat.le_of_not_lt fun hlt => hno ⟨hg, hlen ▸ hlt, ?_⟩, le_rfl⟩
        exact hgrown.free ▸ Nat.le_add_left _ _
      · exact ⟨hlen ▸ hle, Nat.zero_le _⟩
    · obtain ⟨-, hhead, -, -, hr⟩ := hsame hg
      exact ⟨hhead ▸ hle, hr⟩
  · rintro e v' ⟨-, -, hpast, hlong⟩
    by_cases hg : Grows i buffer.length offset
    · exact hno ⟨hg, (hpast hg).2, (hpast hg).1⟩
    · exact absurd (hlong hg) (Nat.not_lt.mpr hle)

/-- An inode within the limit: a write keeps to it exactly if it does not overreach. -/
theorem write_bounded (h : FsInv fs.vol L) (ht : Tidy fs.vol L) (hb : Bounded fs.vol L)
    (hi : inodeIn fs.openInodes s = some i) (h0 : s ≠ freeMapSector) (hbuf : buffer.length < 2 ^ 31)
    (hoff : offset < 2 ^ 31) :
    WriteBounded fs s buffer offset ↔ ¬ Overreaches fs.vol i buffer.length offset := by
  have hs := (h.opens s i hi).1
  have hh : fs.vol.header s = i.data := Vol.header_open hi
  constructor
  · rintro ⟨r, fs', hr, hlen, -⟩ ⟨hg, hmax, henough⟩
    have hup := ht s hs h0
    rw [hh] at hup
    rcases wpOn_run (h.write_exact hi h0 hbuf hoff hup) with ⟨r', fs'', hr', -, hgrow⟩ | ⟨e, fs'', hr', -⟩
    · rw [hr] at hr'
      cases hr'
      rcases hgrow hg with ⟨-, hlen', -⟩ | ⟨-, -, hundone⟩
      · omega
      · exact absurd henough (Nat.not_le.mpr hundone.short)
    · rw [hr] at hr'
      cases hr'
  · intro hno
    have hspec := wpOn_and (h.write_len ht hb hi h0 hbuf hoff hno)
      (h.write (E := fun _ _ => True) hi (fun _ _ => trivial) hbuf hoff (.inr fun _ => trivial))
    rcases wpOn_run hspec with ⟨r, fs', hr, ⟨hlen, hle⟩, -, -, id', hd, -⟩ | ⟨e, fs', -, hf⟩
    · refine ⟨r, fs', hr, hlen, hle, fun hpos => ?_, fun p => ?_⟩
      · have := (hd.there (offset + r - 1) (by omega) (by omega)).1
        omega
      · have hblank := h.owned.blank s hs h0
        rw [Vol.pointers, hh] at hblank
        rw [Vol.pointers, Vol.pointers, Vol.header_open hd.self, hh, (hd.bytes hblank).2 p]
    · exact hf.elim

/-! ## Runs -/

/-- The call creates no inode, and writes none, past the limit. -/
def FsOp.Modest (v : Vol) : FsOp → Prop
  | create length => length ≤ maxFileLen
  | write s buffer offset => s ≠ freeMapSector → ∀ i, inodeIn v.openInodes s = some i →
      ¬ Overreaches v i buffer.length offset
  | openInode _ | reopen _ | remove _ | close _ => True

/-- The states of runs of such calls. -/
inductive ModestRun (dev : BlockDev) : FsState → Set UInt32 → Prop where
  | init {fs : FsState} : filesysInit (bootFs dev) = .ok () fs →
      ModestRun dev fs {rootDirSector, freeMapSector}
  | step {fs fs' : FsState} {live : Set UInt32} {op : FsOp} {r : Option UInt32} :
      ModestRun dev fs live → op.Enabled fs.vol live → op.Modest fs.vol → op.run fs = .ok r fs' →
      ModestRun dev fs' (op.liveAfter fs.vol live r)

theorem ModestRun.reach (h : ModestRun dev fs live) : Reach dev fs live := by
  induction h with
  | init hrun => exact .init hrun
  | step _ he _ hrun ih => exact .step ih he hrun

/-- A new file. -/
theorem ModestRun.newFile {fs₁ fs₂ : FsState} (hnew : NewFile fs live s fs₁ fs₂)
    (h : ModestRun dev fs live) : ModestRun dev fs₂ (insert s live) := by
  have henabled : (FsOp.create 0).Enabled fs.vol live := Nat.two_pow_pos 31
  have hmodest : (FsOp.create 0).Modest fs.vol := Nat.zero_le _
  have hlive : (FsOp.openInode s).Enabled fs₁.vol (insert s live) := Set.mem_insert s live
  exact .step (.step h henabled hmodest hnew.create) hlive trivial hnew.openIt

/-- Each modest operation keeps all lengths within the limit. -/
theorem FsOp.run_bounded (op : FsOp) (h : FsInv v L) (ht : Tidy v L) (hb : Bounded v L)
    (he : op.Enabled v L) (hm : op.Modest v) :
    vwp op.run (fun r v' => Bounded v' (op.liveAfter v L r)) (fun _ _ => True) v := by
  refine op.run_each h hb he ?_
  cases op with
  | create length => exact fun _ _ _ _ => hm
  | write s buffer offset =>
      obtain ⟨⟨i, hi⟩, hbuf, hoff⟩ := he
      intro h0
      exact wpOn_mono (h.write_len ht hb hi h0 hbuf hoff (hm h0 i hi)) (fun _ _ hq => hq.1)
        fun _ _ hf => hf.elim
  | openInode s => trivial
  | reopen s => trivial
  | remove s => trivial
  | close s => trivial

theorem Booted.bounded {v₁ : Vol} (h : Booted v₁ v) : Bounded v {rootDirSector, freeMapSector} := by
  rintro t (rfl | rfl) h0
  · rw [Vol.header_open h.root]
    decide
  · exact absurd rfl h0

theorem ModestRun.bounded (h : ModestRun dev fs live) : Bounded fs.vol live := by
  induction h with
  | init hrun =>
      obtain ⟨v₁, hboot⟩ := wpOn_ok (filesysInit_spec dev) hrun
      exact hboot.bounded
  | step hwithin he hm hrun ih =>
      have hreach := hwithin.reach
      have hb := wpOn_ok (FsOp.run_bounded _ hreach.inv hreach.tidy ih he hm) hrun
      exact hb

/-- In the runs of calls that do not ask for more than the limit, every inode is within it,
and a write keeps to it exactly if it does not overreach. -/
theorem file_size_limit (h : ModestRun dev fs live) :
    (∀ s ∈ live, s ≠ freeMapSector → (fs.vol.header s).len ≤ maxFileLen) ∧
    ∀ s i buffer offset, inodeIn fs.openInodes s = some i → s ≠ freeMapSector →
      buffer.length < 2 ^ 31 → offset < 2 ^ 31 →
      (WriteBounded fs s buffer offset ↔ ¬ Overreaches fs.vol i buffer.length offset) :=
  ⟨h.bounded, fun _ _ _ _ hi h0 hbuf hoff =>
    write_bounded h.reach.inv h.reach.tidy h.bounded hi h0 hbuf hoff⟩

/-! ### A disk of 16645 sectors

It has a sector for every pointer of one inode. -/

def largeDisk : BlockDev := ⟨16645, fun _ => zerosBlock⟩

def largeFs : FsState := afterCall filesysInit (bootFs largeDisk)

theorem largeFs_run : filesysInit (bootFs largeDisk) = .ok () largeFs :=
  run_of_returnedValue (by decide +kernel)

/-- An empty file on the large disk. -/
theorem largeFs_newFile : ∃ s fs₁ fs₂, NewFile largeFs {rootDirSector, freeMapSector} s fs₁ fs₂ ∧
    ModestRun largeDisk fs₂ (insert s {rootDirSector, freeMapSector}) ∧ s ≠ freeMapSector ∧
      16636 ≤ freeCnt fs₂.freeMap := by
  have hstart : ModestRun largeDisk largeFs {rootDirSector, freeMapSector} := .init largeFs_run
  have hfree : 16637 ≤ freeCnt largeFs.freeMap := by
    have hfree := free_of_boot largeFs_run
    have hn : largeDisk.size.toNat = 16645 := rfl
    have hs : sectors (byteCnt 16645) = 5 := by decide
    rw [hn, hs] at hfree
    omega
  obtain ⟨s, fs₁, fs₂, hnew⟩ := newFile hstart.reach.inv (Nat.lt_of_lt_of_le (by decide) hfree)
  refine ⟨s, fs₁, fs₂, hnew, hstart.newFile hnew, fun he => hnew.fresh (.inr he), ?_⟩
  have := hnew.free
  omega

/-- A write that ends one byte behind the limit overreaches. -/
theorem overreaches_new {s : UInt32} {size offset : Nat} (hfree : 16636 ≤ freeCnt v.freeMap)
    (hend : offset + size = maxFileLen + 1) :
    Overreaches v ⟨s, 1, false, 0, (newInode 0).setLen 0⟩ size offset := by
  have hlen : ((newInode 0).setLen 0).len < maxFileLen + 1 := by decide
  have hsectors : sectors (maxFileLen + 1) = 16636 := by decide
  unfold Overreaches Grows
  rw [hend]
  refine ⟨⟨rfl, hlen, by decide⟩, Nat.lt_succ_self _, Nat.le_trans ?_ hfree⟩
  unfold need early
  rw [hsectors, if_neg (fun hc => absurd hc.1 (by decide))]
  omega

/-- The last byte of the greatest file can be written, and not another one with it. -/
theorem file_size_limit_large : ∃ s fs, ModestRun largeDisk fs (insert s {rootDirSector, freeMapSector}) ∧
    WriteBounded fs s [7] (maxFileLen - 1) ∧ ¬ WriteBounded fs s [7, 7] (maxFileLen - 1) := by
  obtain ⟨s, fs₁, fs, hnew, hrun, h0, hfree⟩ := largeFs_newFile
  have hiff := fun buffer => (file_size_limit hrun).2 s _ buffer (maxFileLen - 1) hnew.inode h0
  refine ⟨s, fs, hrun, (hiff [7] (by decide) (by decide)).mpr ?_, fun hbounded => ?_⟩
  · rintro ⟨-, hmax, -⟩
    exact absurd hmax (by decide)
  · exact (hiff [7, 7] (by decide) (by decide)).mp hbounded (overreaches_new hfree (by decide))

/-- An empty file, and one byte written at `MAX_FILE_LEN`. -/
theorem write_past_limit : ∃ s fs₁ fs₂, NewFile largeFs {rootDirSector, freeMapSector} s fs₁ fs₂ ∧
    ModestRun largeDisk fs₂ (insert s {rootDirSector, freeMapSector}) ∧
    ¬ WriteBounded fs₂ s [7] maxFileLen := by
  obtain ⟨s, fs₁, fs₂, hnew, hrun, h0, hfree⟩ := largeFs_newFile
  refine ⟨s, fs₁, fs₂, hnew, hrun, fun hbounded => ?_⟩
  exact (write_bounded hrun.reach.inv hrun.reach.tidy hrun.bounded hnew.inode h0 (by decide)
    (by decide)).mp hbounded (overreaches_new hfree rfl)

end CS162.Fs
