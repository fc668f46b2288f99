/-
# `CS162.Fs.Removed` — deleted but open files

`inode_remove` sets a flag, and only the last `inode_close` reads it.  To say so, two
runs are compared: one from a state with the flag, one from the same state without it.
Every call is alike on both sides (`CS162.Lib.Rel`).

The calls see `open_inodes` through `find_inode` and `put_inode` only.  `OpenRel` is a
relation between two such lists that is kept by what the calls do to them; for every
such relation all calls are alike.  It is used twice: for equal lists without
duplicates, which shows that no call puts a second `struct inode` of a sector there, and
for lists that differ in one flag.
-/
import Mathlib.Data.List.Nodup
import CS162.Lib.Rel
import CS162.Fs.ByteArray
import CS162.Fs.Programs

namespace CS162.Fs

open Bytes Wp Rel

/-! ## Calls side by side -/

/-- A relation between two lists of open inodes that the calls keep. -/
structure OpenRel where
  lists : List Inode → List Inode → Prop
  inodes : Inode → Inode → Prop
  same : ∀ i j, inodes i j → j.sector = i.sector ∧ j.openCnt = i.openCnt ∧
    j.denyWriteCnt = i.denyWriteCnt ∧ j.data = i.data
  setData : ∀ i j, inodes i j → ∀ id, inodes { i with data := id } { j with data := id }
  setCnt : ∀ i j, inodes i j → ∀ n, inodes { i with openCnt := n } { j with openCnt := n }
  find : ∀ l m, lists l m → ∀ s, inodeIn l s = none ∧ inodeIn m s = none ∨
    ∃ i j, inodeIn l s = some i ∧ inodeIn m s = some j ∧ inodes i j
  put : ∀ l m, lists l m → ∀ i j, inodes i j → lists (setInode l i) (setInode m j)

variable {O : OpenRel} {alloc : FsM (Option UInt32)} {release : UInt32 → FsM Unit} {s : UInt32}

/-- The states that differ in their open inodes only. -/
def OpenRel.states (O : OpenRel) (fs fs' : FsState) : Prop :=
  ∃ l, fs' = { fs with openInodes := l } ∧ O.lists fs.openInodes l

/-- Run side by side, a call returns the same. -/
abbrev OpenRel.Keeps (O : OpenRel) {α : Type} (x : FsM α) : Prop := Alike O.states Eq x x

section Kept

variable {α β : Type} {x : FsM α} {f : α → FsM β}

theorem keeps_seq (hx : O.Keeps x) (hf : ∀ a, O.Keeps (f a)) : O.Keeps (x >>= f) :=
  alike_seq hx hf

theorem keeps_pure (a : α) : O.Keeps (pure a) := alike_pure rfl

theorem keeps_throw (e : Panic) : O.Keeps (throw e : FsM α) := alike_throw e

/-- A function of the rest of the state. -/
theorem keeps_modify {u : FsState → FsState}
    (hu : ∀ fs l, u { fs with openInodes := l } = { u fs with openInodes := l })
    (hl : ∀ fs, (u fs).openInodes = fs.openInodes) : O.Keeps (modify u) := by
  refine alike_modify ?_
  rintro fs - ⟨l, rfl, hO⟩
  exact ⟨l, hu fs l, by rwa [hl]⟩

/-- A program that looks only at the rest of the state. -/
theorem keeps_get {k : FsState → FsM β}
    (hsame : ∀ fs l, k { fs with openInodes := l } = k fs) (hk : ∀ fs, O.Keeps (k fs)) :
    O.Keeps (get >>= k) := by
  refine alike_bind alike_get ?_
  rintro fs - ⟨l, rfl, -⟩
  rw [hsame fs l]
  exact hk fs

theorem keeps_cacheReadLen (block : UInt32) (offset len : Nat) :
    O.Keeps (cacheReadLenFs block offset len) := by
  rintro fs - ⟨l, rfl, hO⟩
  unfold cacheReadLenFs
  cases fs.buffCache.run _ (fs.buffCache.readLen_calm block offset len) with
  | ok a cc => exact ⟨rfl, l, rfl, hO⟩
  | error e cc => exact ⟨rfl, l, rfl, hO⟩

theorem keeps_cacheWriteLen (block : UInt32) (offset : Nat) (buffer : List UInt8) :
    O.Keeps (cacheWriteLenFs block offset buffer) := by
  rintro fs - ⟨l, rfl, hO⟩
  unfold cacheWriteLenFs
  cases fs.buffCache.run _ (fs.buffCache.writeLen_calm block offset buffer) with
  | ok a cc => exact ⟨rfl, l, rfl, hO⟩
  | error e cc => exact ⟨rfl, l, rfl, hO⟩

theorem run_get {γ : Type} (f : FsState → FsM γ) (fs : FsState) : (get >>= f) fs = f fs fs := rfl

theorem findInode_some {fs : FsState} {i : Inode} (h : inodeIn fs.openInodes s = some i) :
    findInode s fs = .ok i fs := by
  unfold inodeIn at h
  unfold findInode
  rw [run_get, h]
  rfl

theorem findInode_none {fs : FsState} (h : inodeIn fs.openInodes s = none) :
    findInode s fs = .error .badPointer fs := by
  unfold inodeIn at h
  unfold findInode
  rw [run_get, h]
  rfl

/-- Through a pointer, the two inodes are related. -/
theorem keeps_findInode {k : Inode → FsM β}
    (hk : ∀ i j, O.inodes i j → Alike O.states Eq (k i) (k j)) : O.Keeps (findInode s >>= k) := by
  refine alike_bind (A := O.inodes) ?_ hk
  rintro fs - ⟨l, rfl, hO⟩
  rcases O.find _ _ hO s with ⟨h, h'⟩ | ⟨i, j, h, h', hij⟩
  · rw [findInode_none h, findInode_none h']
    exact ⟨rfl, l, rfl, hO⟩
  · rw [findInode_some h, findInode_some h']
    exact ⟨hij, l, rfl, hO⟩

theorem alike_putInode {i j : Inode} (hij : O.inodes i j) :
    Alike O.states Eq (putInode i) (putInode j) := by
  refine alike_modify ?_
  rintro fs - ⟨l, rfl, hO⟩
  exact ⟨_, rfl, O.put _ _ hO i j hij⟩

/-- Being alike, put together. -/
def OpenRel.logic₀ (O : OpenRel) : Logic where
  holds := O.Keeps
  pure := keeps_pure
  seq := keeps_seq
  readLen := keeps_cacheReadLen
  throw := keeps_throw
  writeLen := keeps_cacheWriteLen
  modify := keeps_modify
  get := keeps_get

theorem keeps_readAt (size offset : Nat) : O.Keeps (inodeReadAt s size offset) := by
  refine keeps_findInode fun i j hij => ?_
  rw [(O.same i j hij).2.2.2]
  exact O.logic₀.readLoop _ _ _ _ _

theorem keeps_writeAtWith (ha : O.Keeps alloc) (hr : ∀ x, O.Keeps (release x)) (s : UInt32)
    (buffer : List UInt8) (offset : Nat) : O.Keeps (inodeWriteAtWith alloc release s buffer offset) := by
  refine keeps_findInode fun i j hij => ?_
  obtain ⟨-, -, hdeny, hdata⟩ := O.same i j hij
  have hput := O.setData i j hij
  simp only [hdeny, hdata] at hput ⊢
  refine alike_ite (fun _ => keeps_pure _) fun _ => ?_
  refine alike_ite (fun _ => ?_) fun _ => O.logic₀.writeLoop _ _ _ _ _
  refine alike_seq (O.logic₀.extend ha hr _ _ _ _) fun r => ?_
  refine alike_seq (alike_putInode (hput _)) fun _ => ?_
  exact alike_ite (fun _ => O.logic₀.writeLoop _ _ _ _ _) fun _ => keeps_pure _

/-- Every call that writes a file is alike on both sides. -/
def OpenRel.logic (O : OpenRel) : CallLogic where
  toLogic := O.logic₀
  writeAtWith := keeps_writeAtWith

theorem keeps_reopen : O.Keeps (inodeReopen s) := by
  refine keeps_findInode fun i j hij => ?_
  rw [(O.same i j hij).2.1]
  exact alike_putInode (O.setCnt i j hij _)

theorem keeps_remove (hflag : ∀ i j, O.inodes i j →
    O.inodes { i with removed := true } { j with removed := true }) : O.Keeps (inodeRemove s) :=
  keeps_findInode fun i j hij => alike_putInode (hflag i j hij)

theorem any_eq_isSome (l : List Inode) (s : UInt32) :
    (l.any fun i => i.sector == s) = (inodeIn l s).isSome := by
  unfold inodeIn
  rw [Bool.eq_iff_iff, List.any_eq_true, List.find?_isSome]

theorem inodeIn_setInode_none {l : List Inode} (h : inodeIn l s = none) (i : Inode) :
    inodeIn (setInode l i) s = none := by
  by_cases hi : i.sector = s
  · have hnot : ∀ j ∈ l, ¬ j.sector = s := by simpa [inodeIn] using h
    have hsame : setInode l i = l := by
      unfold setInode
      refine (List.map_congr_left fun j hj => ?_).trans (List.map_id l)
      exact if_neg (by rw [hi]; exact hnot j hj)
    rw [hsame]
    exact h
  · rw [inodeIn_setInode_other hi]
    exact h

/-- While `s` is not open. -/
def OpenRel.closed (O : OpenRel) (s : UInt32) : OpenRel where
  lists l m := O.lists l m ∧ inodeIn l s = none
  inodes := O.inodes
  same := O.same
  setData := O.setData
  setCnt := O.setCnt
  find l m h := O.find l m h.1
  put l m h i j hij := ⟨O.put l m h.1 i j hij, inodeIn_setInode_none h.2 i⟩

theorem keeps_open (hadd : ∀ l m, O.lists l m → inodeIn l s = none → ∀ id,
    O.lists (⟨s, 1, false, 0, id⟩ :: l) (⟨s, 1, false, 0, id⟩ :: m)) : O.Keeps (inodeOpen s) := by
  rintro fs fs' ⟨l, rfl, hO⟩
  show Outcomes O.states Eq
    ((if fs.openInodes.any (fun i => i.sector == s) then inodeReopen s else _ : FsM Unit) fs)
    ((if l.any (fun i => i.sector == s) then inodeReopen s else _ : FsM Unit) _)
  rw [any_eq_isSome, any_eq_isSome]
  rcases O.find _ _ hO s with ⟨h, h'⟩ | ⟨i, j, h, h', hij⟩
  · rw [h, h']
    show Outcomes O.states Eq (EStateM.bind (cacheRead s) _ fs) (EStateM.bind (cacheRead s) _ _)
    have hread := (O.closed s).logic₀.cacheRead s fs _ ⟨l, rfl, hO, h⟩
    unfold EStateM.bind
    cases hs : cacheRead s fs with
    | ok b fs₁ =>
        cases ht : cacheRead s { fs with openInodes := l } with
        | ok b' fs₂ =>
            rw [hs, ht] at hread
            obtain ⟨rfl, l₁, rfl, hO₁, h₁⟩ := hread
            exact ⟨rfl, _, rfl, hadd _ _ hO₁ h₁ _⟩
        | error e fs₂ =>
            rw [hs, ht] at hread
            exact hread.elim
    | error e fs₁ =>
        cases ht : cacheRead s { fs with openInodes := l } with
        | ok b' fs₂ =>
            rw [hs, ht] at hread
            exact hread.elim
        | error e' fs₂ =>
            rw [hs, ht] at hread
            obtain ⟨rfl, l₁, rfl, hO₁, -⟩ := hread
            exact ⟨rfl, l₁, rfl, hO₁⟩
  · rw [h, h']
    exact keeps_reopen _ _ ⟨l, rfl, hO⟩

/-- `inode_close`, given the inode. -/
def closing (s : UInt32) (inode : Inode) : FsM Unit :=
  if inode.openCnt = 1 then do
    modify fun fs => { fs with openInodes := dropInode fs.openInodes s }
    let data ← releaseBlocks inode
    cacheWrite s data.toSector
  else putInode { inode with openCnt := inode.openCnt - 1 }

/-- Unless the last opener closes an inode whose flags differ. -/
theorem alike_close {fs fs' : FsState} (hR : O.states fs fs')
    (hdrop : ∀ l m, O.lists l m → O.lists (dropInode l s) (dropInode m s))
    (hflag : ∀ i j, inodeIn fs.openInodes s = some i → O.inodes i j → i.openCnt = 1 →
      j.removed = i.removed) : Outcomes O.states Eq (inodeClose s fs) (inodeClose s fs') := by
  obtain ⟨l, rfl, hO⟩ := hR
  rcases O.find _ _ hO s with ⟨h, h'⟩ | ⟨i, j, h, h', hij⟩
  · have hs : inodeClose s fs = .error .badPointer fs := by
      show EStateM.bind (findInode s) _ fs = _
      rw [EStateM.bind, findInode_none h]
    have ht : inodeClose s { fs with openInodes := l } =
        .error .badPointer { fs with openInodes := l } := by
      show EStateM.bind (findInode s) _ _ = _
      rw [EStateM.bind, findInode_none h']
    rw [hs, ht]
    exact ⟨rfl, l, rfl, hO⟩
  · obtain ⟨hsec, hcnt, -, hdata⟩ := O.same i j hij
    have hs : inodeClose s fs = closing s i fs := by
      show EStateM.bind (findInode s) _ fs = _
      rw [EStateM.bind, findInode_some h]
      rfl
    have ht : inodeClose s { fs with openInodes := l } = closing s j { fs with openInodes := l } := by
      show EStateM.bind (findInode s) _ _ = _
      rw [EStateM.bind, findInode_some h']
      rfl
    rw [hs, ht]
    refine (?_ : Alike O.states Eq (closing s i) (closing s j)) _ _ ⟨l, rfl, hO⟩
    unfold closing
    rw [hcnt]
    refine alike_ite (fun hone => ?_) fun _ => alike_putInode (O.setCnt i j hij _)
    refine alike_seq (alike_modify ?_) fun _ => ?_
    · rintro fs - ⟨l, rfl, hO⟩
      exact ⟨_, rfl, hdrop _ _ hO⟩
    refine alike_seq ?_ fun id => O.logic₀.cacheWrite _ _
    unfold releaseBlocks
    rw [hflag i j h hij hone, hsec, hdata]
    exact O.logic.releaseBlocks i

end Kept

/-! ## Runs -/

/-- The calls of a run, reads included. -/
inductive Call where
  | change (op : FsOp)
  | read (s : UInt32) (size offset : Nat)

inductive Answer where
  | made (sector : Option UInt32)
  | bytes (buffer : List UInt8)
  | count (bytesWritten : Nat)

/-- The sector of a new inode. -/
def Answer.sector : Answer → Option UInt32
  | made r => r
  | bytes _ | count _ => none

namespace Call

def run : Call → FsM Answer
  | change (.write s buffer offset) => do return .count (← inodeWriteAt s buffer offset)
  | change op => do return .made (← op.run)
  | read s size offset => do return .bytes (← inodeReadAt s size offset)

def Enabled (v : Vol) (live : Set UInt32) : Call → Prop
  | change op => op.Enabled v live
  | read s _ _ => ∃ i, inodeIn v.openInodes s = some i

def liveAfter (v : Vol) (live : Set UInt32) (a : Answer) : Call → Set UInt32
  | change op => op.liveAfter v live a.sector
  | read _ _ _ => live

/-- A call that is no read is the call of `FsOp`. -/
theorem run_change {op : FsOp} {a : Answer} {fs fs' : FsState} (h : (change op).run fs = .ok a fs') :
    ∃ r, op.run fs = .ok r fs' ∧ ∀ v live,
      (change op).liveAfter v live a = op.liveAfter v live r := by
  cases op with
  | write s buffer offset =>
      simp only [run, bind, EStateM.bind] at h
      split at h
      · next r fs₁ hw =>
        cases h
        exact ⟨none, FsOp.run_write hw, fun _ _ => rfl⟩
      · cases h
  | _ =>
      simp only [run, bind, EStateM.bind] at h
      split at h
      · next r fs₁ hw =>
        cases h
        exact ⟨r, hw, fun _ _ => rfl⟩
      · cases h

/-- And the other way round. -/
theorem of_run {op : FsOp} {r : Option UInt32} {fs fs' : FsState} (h : op.run fs = .ok r fs') :
    ∃ a, (change op).run fs = .ok a fs' ∧ ∀ v live,
      (change op).liveAfter v live a = op.liveAfter v live r := by
  cases op with
  | write s buffer offset =>
      simp only [FsOp.run, bind, EStateM.bind] at h
      split at h
      · next n fs₁ hw =>
        cases h
        refine ⟨.count n, ?_, fun _ _ => rfl⟩
        simp only [run, bind, EStateM.bind, hw]
        rfl
      · cases h
  | _ =>
      refine ⟨.made r, ?_, fun _ _ => rfl⟩
      simp only [run, bind, EStateM.bind, h]
      rfl

end Call

section Reading

variable {α β : Type} {x : FsM α} {f : α → FsM β}

/-- A call that changes nothing but what is cached. -/
def Reads (x : FsM α) : Prop := ∀ v, vwp x (fun _ v' => v' = v) (fun _ _ => True) v

theorem reads_pure (a : α) : Reads (pure a) := fun _ => wpOn_pure rfl

theorem reads_seq (hx : Reads x) (hf : ∀ a, Reads (f a)) : Reads (x >>= f) := by
  intro v
  refine wpOn_seq (hx v) ?_
  rintro a v' rfl
  exact hf a v'

theorem CalmCache.run_stops {y : CacheM α} {cc : CalmCache} {E : Panic → Cache → Prop} (hy)
    (h : wp y (fun _ _ => False) E cc.cache) : ∃ e, cc.run y hy = .error e cc := by
  unfold CalmCache.run
  split
  · next a c hr => exact ((wp_ok hr).mp h).elim
  · next e c hr => exact ⟨e, rfl⟩

theorem reads_cacheReadLen (block : UInt32) (offset len : Nat) :
    Reads (cacheReadLenFs block offset len) := by
  intro v
  by_cases hb : block < v.size
  · exact vwp_cacheReadLen hb rfl
  rintro fs rfl
  by_cases hu : block = unallocated
  · have hspec : wp (cacheReadLen block offset len) (fun _ c => c = fs.buffCache.cache) never
        fs.buffCache.cache := by
      unfold cacheReadLen
      rw [if_pos hu]
      rfl
    obtain ⟨a, cc, hr, hcc⟩ :=
      CalmCache.run_ok (fs.buffCache.readLen_calm block offset len) hspec
    unfold wp cacheReadLenFs
    rw [hr]
    show FsState.vol { fs with buffCache := cc } = fs.vol
    simp only [FsState.vol, hcc]
  · have hspec : wp (cacheReadLen block offset len) (fun _ _ => False) (fun _ _ => True)
        fs.buffCache.cache := by
      unfold cacheReadLen
      rw [if_neg hu]
      exact wp_bind.mpr (wp_mono (cacheFindEnt_pastEnd fs.buffCache.coherent fs.buffCache.quiet hb)
        (fun _ _ h => h.elim) fun _ _ _ => trivial)
    obtain ⟨e, hr⟩ := CalmCache.run_stops (fs.buffCache.readLen_calm block offset len) hspec
    unfold wp cacheReadLenFs
    rw [hr]
    trivial

/-- Reading, put together. -/
def readLogic : ReadLogic where
  holds := Reads
  pure := reads_pure
  seq := reads_seq
  readLen := reads_cacheReadLen

end Reading

/-- The states of runs from a freshly formatted disk, of the calls of `Reach` and of reads; nor does
anybody deny writes in them. -/
inductive Run (dev : BlockDev) : FsState → Set UInt32 → Prop where
  | init {fs : FsState} : filesysInit (bootFs dev) = .ok () fs →
      Run dev fs {rootDirSector, freeMapSector}
  | step {fs fs' : FsState} {live : Set UInt32} {c : Call} {a : Answer} :
      Run dev fs live → c.Enabled fs.vol live → c.run fs = .ok a fs' →
      Run dev fs' (c.liveAfter fs.vol live a)

variable {dev : BlockDev} {fs fs' : FsState} {live : Set UInt32}

/-- The runs without reads. -/
theorem Reach.run (h : Reach dev fs live) : Run dev fs live := by
  induction h with
  | init hrun => exact .init hrun
  | step _ he hrun ih =>
      obtain ⟨a, ha, hlive⟩ := Call.of_run hrun
      rw [← hlive]
      exact .step (c := .change _) ih he ha

/-- Reads change nothing. -/
theorem Call.run_read {size offset : Nat} {a : Answer} {i : Inode}
    (hi : inodeIn fs.openInodes s = some i) (h : (Call.read s size offset).run fs = .ok a fs') :
    fs'.vol = fs.vol := by
  have hread : vwp (inodeReadAt s size offset) (fun _ v' => v' = fs.vol) (fun _ _ => True) fs.vol := by
    refine wpOn_seq (vwp_findInode (v := fs.vol) (Q := fun k v' => k = i ∧ v' = fs.vol) hi
      ⟨rfl, rfl⟩) ?_
    rintro k v' ⟨rfl, rfl⟩
    exact readLogic.readLoop _ _ _ _ _ _
  have hrun : vwp (Call.read s size offset).run (fun _ v' => v' = fs.vol) (fun _ _ => True) fs.vol := by
    refine wpOn_seq hread ?_
    rintro r v' rfl
    exact wpOn_pure rfl
  rcases wpOn_run hrun with ⟨a', fs'', hr, hv⟩ | ⟨e, fs'', hr, -⟩
  · rw [h] at hr
    cases hr
    exact hv
  · rw [h] at hr
    cases hr

/-- The file system's invariant holds after every run. -/
theorem Run.inv (h : Run dev fs live) : FsInv fs.vol live := by
  induction h with
  | init hrun => exact Reach.inv (.init hrun)
  | @step fs fs' live c a _ he hrun ih =>
      cases c with
      | change op =>
          obtain ⟨r, hr, hlive⟩ := Call.run_change hrun
          rw [hlive]
          rcases wpOn_run (op.run_inv ih he) with ⟨r', fs'', hr', hinv⟩ | ⟨e, fs'', hr', -⟩
          · rw [hr] at hr'
            cases hr'
            exact hinv
          · rw [hr] at hr'
            cases hr'
      | read s size offset =>
          obtain ⟨i, hi⟩ := he
          rw [Call.run_read hi hrun]
          exact ih

/-- All calls are alike; a close if it is not the last of an inode whose flags differ. -/
theorem Call.alike (hR : O.states fs fs') (hadd : ∀ s l m, O.lists l m → inodeIn l s = none → ∀ id,
      O.lists (⟨s, 1, false, 0, id⟩ :: l) (⟨s, 1, false, 0, id⟩ :: m))
    (hmark : ∀ i j, O.inodes i j → O.inodes { i with removed := true } { j with removed := true })
    (hdrop : ∀ s l m, O.lists l m → O.lists (dropInode l s) (dropInode m s)) (c : Call)
    (hflag : ∀ s, c = .change (.close s) → ∀ i j, inodeIn fs.openInodes s = some i → O.inodes i j →
      i.openCnt = 1 → j.removed = i.removed) :
    Outcomes O.states Eq (c.run fs) (c.run fs') := by
  -- what is returned is returned on both sides
  have hret : ∀ {α β : Type} {x : FsM α} (g : α → β), O.Keeps x →
      O.Keeps (x >>= fun a => pure (g a)) := fun g hx => keeps_seq hx fun _ => keeps_pure _
  cases c with
  | read s size offset => exact hret _ (keeps_readAt size offset) _ _ hR
  | change op =>
      cases op with
      | create length => exact hret _ (O.logic.createInode length) _ _ hR
      | openInode s => exact hret _ (hret _ (keeps_open (hadd s))) _ _ hR
      | reopen s => exact hret _ (hret _ keeps_reopen) _ _ hR
      | write s buffer offset => exact hret _ (O.logic.writeAt s buffer offset) _ _ hR
      | remove s => exact hret _ (hret _ (keeps_remove hmark)) _ _ hR
      | close s =>
          refine outcomes_bind (A := Eq) (outcomes_bind (alike_close hR (hdrop s) (hflag s rfl)) ?_) ?_
          · rintro a - rfl
            exact keeps_pure _
          · rintro a - rfl
            exact keeps_pure _

/-! ## One `struct inode` for a sector -/

theorem map_setInode {α : Type} {g : Inode → α} {l : List Inode} {i : Inode} {x : α}
    (hx : ∀ j ∈ l, j.sector = i.sector → g j = x) (hi : g i = x) :
    (setInode l i).map g = l.map g := by
  unfold setInode
  rw [List.map_map]
  refine List.map_congr_left fun j hj => ?_
  by_cases h : j.sector = i.sector
  · simp [h, hi, hx j hj h]
  · simp [h]

/-- Equal lists without duplicates. -/
def Once : OpenRel where
  lists l m := l = m ∧ (l.map Inode.sector).Nodup
  inodes i j := i = j
  same := by
    rintro i - rfl
    exact ⟨rfl, rfl, rfl, rfl⟩
  setData := by
    rintro i - rfl id
    rfl
  setCnt := by
    rintro i - rfl n
    rfl
  find := by
    rintro l - ⟨rfl, -⟩ s
    cases h : inodeIn l s with
    | none => exact .inl ⟨rfl, rfl⟩
    | some i => exact .inr ⟨i, i, rfl, rfl, rfl⟩
  put := by
    rintro l m ⟨rfl, hl⟩ i j rfl
    refine ⟨rfl, ?_⟩
    rw [map_setInode (x := i.sector) (fun j _ hj => hj) rfl]
    exact hl

theorem Once.states_iff : Once.states fs fs' ↔ fs = fs' ∧ (fs.openInodes.map Inode.sector).Nodup := by
  constructor
  · rintro ⟨l, rfl, rfl, hl⟩
    exact ⟨rfl, hl⟩
  · rintro ⟨rfl, hl⟩
    exact ⟨_, rfl, rfl, hl⟩

theorem nodup_dropInode {l : List Inode} (h : (l.map Inode.sector).Nodup) :
    ((dropInode l s).map Inode.sector).Nodup :=
  h.sublist (List.filter_sublist.map _)

/-- A new inode of a sector that is not open. -/
theorem Once.add {l m : List Inode} (h : Once.lists l m) (hs : inodeIn l s = none) (id : InodeDisk) :
    Once.lists (⟨s, 1, false, 0, id⟩ :: l) (⟨s, 1, false, 0, id⟩ :: m) := by
  obtain ⟨rfl, hl⟩ := h
  refine ⟨rfl, List.nodup_cons.mpr ⟨?_, hl⟩⟩
  have hnot : ∀ j ∈ l, ¬ j.sector = s := by simpa [inodeIn] using hs
  rintro hc
  obtain ⟨j, hj, hjs⟩ := List.mem_map.mp hc
  exact hnot j hj hjs

section Format

theorem Once.open (s : UInt32) : Once.Keeps (inodeOpen s) :=
  keeps_open fun _ _ h hs id => Once.add h hs id

theorem Once.close (s : UInt32) : Once.Keeps (inodeClose s) := by
  intro fs fs' hR
  refine alike_close hR ?_ ?_
  · rintro l m ⟨rfl, hl⟩
    exact ⟨rfl, nodup_dropInode hl⟩
  · rintro i j - rfl -
    rfl

theorem Once.create (s : UInt32) (length : Nat) : Once.Keeps (inodeCreate s length) := by
  refine keeps_seq (Once.logic₀.cacheWrite _ _) fun _ => ?_
  exact keeps_seq (Once.logic.extendInode _ _ _) fun _ => keeps_pure _

theorem Once.takeMapBlock : Once.Keeps takeMapBlock := by
  refine keeps_get (fun _ _ => rfl) fun fs => ?_
  cases bitmapScanAndFlip fs.freeMap 2 1 false with
  | none => exact keeps_pure _
  | some r =>
      obtain ⟨sector, freeMap⟩ := r
      exact keeps_seq (keeps_modify (fun _ _ => rfl) fun _ => rfl) fun _ => keeps_pure _

theorem Once.freeMapCreate : Once.Keeps freeMapCreate := by
  refine keeps_get (fun _ _ => rfl) fun fs => keeps_seq (Once.create _ _) fun _ => ?_
  refine keeps_seq (Once.open _) fun _ => ?_
  refine keeps_seq (keeps_modify (fun _ _ => rfl) fun _ => rfl) fun _ => ?_
  refine keeps_seq Once.takeMapBlock fun sector => ?_
  refine keeps_findInode ?_
  rintro i - rfl
  refine keeps_seq (alike_putInode rfl) fun _ => keeps_seq (Once.logic₀.cacheWrite _ _) fun _ => ?_
  exact keeps_seq Once.logic.bitmapWrite fun _ => alike_ite (fun _ => keeps_pure _) fun _ => keeps_throw _

theorem Once.freeMapOpen : Once.Keeps freeMapOpen := by
  refine keeps_seq (Once.open _) fun _ => ?_
  refine keeps_seq (keeps_modify (fun _ _ => rfl) fun _ => rfl) fun _ => ?_
  refine keeps_get (fun _ _ => rfl) fun fs => alike_ite (fun _ => ?_) fun _ => keeps_pure _
  refine keeps_seq (keeps_readAt _ _) fun _ => alike_ite (fun _ => ?_) fun _ => keeps_throw _
  exact keeps_modify (fun _ _ => rfl) fun _ => rfl

theorem Once.filesysInit : Once.Keeps filesysInit := by
  have hroot : Once.Keeps (inodeSetDir rootDirSector true) := by
    refine keeps_findInode ?_
    rintro i - rfl
    exact alike_putInode rfl
  have hformat : Once.Keeps doFormat := by
    refine keeps_seq Once.freeMapCreate fun _ => keeps_seq (Once.create _ _) fun _ => ?_
    refine keeps_seq (Once.open _) fun _ => keeps_seq hroot fun _ => ?_
    exact keeps_seq (Once.close _) fun _ => Once.close _
  exact keeps_seq hformat fun _ => keeps_seq Once.freeMapOpen fun _ => Once.open _

/-- In every run. -/
theorem Run.once (h : Run dev fs live) : (fs.openInodes.map Inode.sector).Nodup := by
  induction h with
  | @init fs hrun =>
      obtain ⟨-, fs', -, -, hR⟩ := Outcomes.ok (Once.filesysInit (bootFs dev) (bootFs dev)
        (Once.states_iff.mpr ⟨rfl, List.nodup_nil⟩)) hrun
      exact (Once.states_iff.mp hR).2
  | @step fs fs' live c a _ _ hrun ih =>
      have hcall : Outcomes Once.states Eq (c.run fs) (c.run fs) := by
        refine Call.alike (Once.states_iff.mpr ⟨rfl, ih⟩) (fun _ _ _ h hs id => Once.add h hs id) ?_
          ?_ c ?_
        · rintro i - rfl
          rfl
        · rintro s l m ⟨rfl, hl⟩
          exact ⟨rfl, nodup_dropInode hl⟩
        · rintro s - i j - rfl -
          rfl
      obtain ⟨-, fs₁, -, -, hR⟩ := Outcomes.ok hcall hrun
      exact (Once.states_iff.mp hR).2

end Format

/-! ## The flag -/

/-- An inode with the flag of `s` taken back. -/
def unmark (s : UInt32) (i : Inode) : Inode := if i.sector = s then { i with removed := false } else i

theorem unmark_sector (i : Inode) : (unmark s i).sector = i.sector := by
  unfold unmark
  split <;> rfl

/-- Two inodes that differ in the flag only. -/
theorem unmark_eq_iff {i j : Inode} : unmark s i = unmark s j ↔
    j = { i with removed := j.removed } ∧ (i.sector ≠ s → j.removed = i.removed) := by
  constructor
  · intro h
    have hsec : j.sector = i.sector := by rw [← unmark_sector (s := s) j, ← h, unmark_sector]
    unfold unmark at h
    rw [hsec] at h
    split at h
    · next hs =>
      refine ⟨?_, fun hne => absurd hs hne⟩
      cases i
      cases j
      simp_all
    · subst h
      exact ⟨rfl, fun _ => rfl⟩
  · rintro ⟨heq, hflag⟩
    rw [heq]
    unfold unmark
    split
    · rfl
    · next hs => rw [hflag hs]

theorem inodeIn_unmark (l : List Inode) (t : UInt32) :
    inodeIn (l.map (unmark s)) t = (inodeIn l t).map (unmark s) := by
  unfold inodeIn
  rw [List.find?_map]
  congr 2
  funext i
  simp [unmark_sector]

theorem setInode_unmark (l : List Inode) (i : Inode) :
    (setInode l i).map (unmark s) = setInode (l.map (unmark s)) (unmark s i) := by
  unfold setInode
  rw [List.map_map, List.map_map]
  refine List.map_congr_left fun j _ => ?_
  simp only [Function.comp, unmark_sector]
  split <;> rfl

/-- Lists that differ at most in the flag of `s`. -/
def ButFlag (s : UInt32) : OpenRel where
  lists l m := l.map (unmark s) = m.map (unmark s)
  inodes i j := unmark s i = unmark s j
  same i j h := by
    obtain ⟨heq, -⟩ := unmark_eq_iff.mp h
    rw [heq]
    exact ⟨rfl, rfl, rfl, rfl⟩
  setData i j h id := by
    obtain ⟨heq, hflag⟩ := unmark_eq_iff.mp h
    exact unmark_eq_iff.mpr ⟨by rw [heq], hflag⟩
  setCnt i j h n := by
    obtain ⟨heq, hflag⟩ := unmark_eq_iff.mp h
    exact unmark_eq_iff.mpr ⟨by rw [heq], hflag⟩
  find l m h t := by
    have hin := inodeIn_unmark (s := s) l t
    rw [h, inodeIn_unmark] at hin
    cases hl : inodeIn l t with
    | none =>
        cases hm : inodeIn m t with
        | none => exact .inl ⟨rfl, rfl⟩
        | some j =>
            rw [hl, hm] at hin
            cases hin
    | some i =>
        cases hm : inodeIn m t with
        | none =>
            rw [hl, hm] at hin
            cases hin
        | some j =>
            rw [hl, hm] at hin
            exact .inr ⟨i, j, rfl, rfl, (Option.some.inj hin).symm⟩
  put l m h i j hij := by
    rw [setInode_unmark, setInode_unmark, h, hij]

theorem ButFlag.add {l m : List Inode} {t : UInt32} (h : (ButFlag s).lists l m) (id : InodeDisk) :
    (ButFlag s).lists (⟨t, 1, false, 0, id⟩ :: l) (⟨t, 1, false, 0, id⟩ :: m) := by
  show List.map _ _ = List.map _ _
  rw [List.map_cons, List.map_cons, show l.map (unmark s) = m.map (unmark s) from h]

theorem dropInode_unmark (l : List Inode) (t : UInt32) :
    (dropInode l t).map (unmark s) = dropInode (l.map (unmark s)) t := by
  unfold dropInode
  rw [List.filter_map]
  congr 2
  funext i
  simp [unmark_sector]

/-- The call is the last close of `s`. -/
def Call.LastClose (s : UInt32) (fs : FsState) (c : Call) : Prop :=
  c = .change (.close s) ∧ ∃ i, inodeIn fs.openInodes s = some i ∧ i.openCnt = 1

/-- A call that does not close the file for the last time does not depend on the flag. -/
theorem Call.alike_butFlag {c : Call} (hR : (ButFlag s).states fs fs') (hlast : ¬ c.LastClose s fs) :
    Outcomes (ButFlag s).states Eq (c.run fs) (c.run fs') := by
  refine Call.alike hR (fun t l m h _ id => ButFlag.add h id) ?_ ?_ c ?_
  · intro i j hij
    obtain ⟨heq, -⟩ := unmark_eq_iff.mp hij
    exact unmark_eq_iff.mpr ⟨by rw [heq], fun _ => rfl⟩
  · intro t l m h
    show List.map _ _ = List.map _ _
    rw [dropInode_unmark, dropInode_unmark, show l.map (unmark s) = m.map (unmark s) from h]
  · rintro t rfl i j hi hij hone
    refine (unmark_eq_iff.mp hij).2 ?_
    rintro rfl
    rw [sector_of_inodeIn hi] at hlast
    exact hlast ⟨rfl, i, hi, hone⟩

theorem ButFlag.symm (h : (ButFlag s).states fs fs') : (ButFlag s).states fs' fs := by
  obtain ⟨l, rfl, hl⟩ := h
  exact ⟨fs.openInodes, rfl, Eq.symm hl⟩

/-- `inode_remove` changes the flag. -/
theorem inodeRemove_butFlag (hone : (fs.openInodes.map Inode.sector).Nodup)
    (h : inodeRemove s fs = .ok () fs') : (ButFlag s).states fs fs' := by
  replace h : EStateM.bind (findInode s) _ fs = .ok () fs' := h
  cases hi : inodeIn fs.openInodes s with
  | none =>
      rw [EStateM.bind, findInode_none hi] at h
      cases h
  | some i =>
      rw [EStateM.bind, findInode_some hi] at h
      cases h
      refine ⟨_, rfl, ?_⟩
      have hmem : i ∈ fs.openInodes := List.mem_of_find?_eq_some hi
      refine (map_setInode (x := unmark s i) (fun j hj hsec => ?_) ?_).symm
      · rw [List.inj_on_of_nodup_map hone hj hmem hsec]
      · unfold unmark
        rw [if_pos (sector_of_inodeIn hi), if_pos (sector_of_inodeIn hi)]

/-- A sequence of calls with their answers, up to the last close of `s` at most. -/
inductive Calls (s : UInt32) : FsState → List (Call × Answer) → FsState → Prop where
  | nil (fs : FsState) : Calls s fs [] fs
  | cons {fs fs₁ fs' : FsState} {c : Call} {a : Answer} {rest : List (Call × Answer)} :
      ¬ c.LastClose s fs → c.run fs = .ok a fs₁ → Calls s fs₁ rest fs' →
      Calls s fs ((c, a) :: rest) fs'

/-- The flag changes no answer. -/
theorem Calls.alike {tr : List (Call × Answer)} {gs : FsState} (h : Calls s fs tr fs')
    (hR : (ButFlag s).states fs gs) : ∃ gs', Calls s gs tr gs' ∧ (ButFlag s).states fs' gs' := by
  induction h generalizing gs with
  | nil fs => exact ⟨gs, .nil gs, hR⟩
  | @cons fs fs₁ fs' c a rest hlast hrun _ ih =>
      obtain ⟨b, gs₁, hrun', rfl, hR₁⟩ := Outcomes.ok (Call.alike_butFlag hR hlast) hrun
      obtain ⟨gs', hrest, hR'⟩ := ih hR₁
      refine ⟨gs', .cons ?_ hrun' hrest, hR'⟩
      rintro ⟨hc, j, hj, hone⟩
      obtain ⟨l, rfl, hO⟩ := hR
      rcases (ButFlag s).find _ _ hO s with ⟨-, hnone⟩ | ⟨i, j', hi, hj', hij⟩
      · rw [show inodeIn l s = some j from hj] at hnone
        cases hnone
      · rw [show inodeIn l s = some j from hj] at hj'
        cases hj'
        exact hlast ⟨hc, i, hi, by rw [← ((ButFlag s).same i j hij).2.1, hone]⟩

/-! ## Its sectors -/

/-- The header of an inode and the sectors it references. -/
def Uses (v : Vol) (s x : UInt32) : Prop := x = s ∨ allSectors (v.pointers s) x

section Guard

open Classical in
/-- An allocator that stops the machine before it hands out a sector in `S`. -/
noncomputable def guarded (S : UInt32 → Prop) (alloc : FsM (Option UInt32)) : FsM (Option UInt32) := do
  match ← alloc with
  | none => return none
  | some x => if S x then throw .fatal else return some x

/-- `inode_write_at` with allocations guarded. -/
noncomputable def guardedWriteAt (S : UInt32 → Prop) (t : UInt32) (buffer : List UInt8)
    (offset : Nat) : FsM Nat :=
  if t = freeMapSector then
    inodeWriteAtWith (guarded S allocHeld) releaseHeld t buffer offset
  else inodeWriteAtWith (guarded S (freeMapAllocate 1)) (freeMapRelease · 1) t buffer offset

/-- The creation of an inode with allocations guarded. -/
noncomputable def guardedCreate (S : UInt32 → Prop) (length : Nat) : FsM (Option UInt32) := do
  match ← guarded S (freeMapAllocate 1) with
  | none => return none
  | some t =>
      cacheWrite t (freshInode length).toSector
      let _ ← inodeExtend (guarded S (freeMapAllocate 1)) (freeMapRelease · 1) extendDepth t
        (newInode length) length
      return some t

variable {I : Vol → Prop} {K F S : UInt32 → Prop} {E : Panic → Vol → Prop} {v : Vol} {t : UInt32}
  {i : Inode}

/-- The guard never acts on sectors that are marked and that nobody releases. -/
theorem FreeMapSpec.guarded (spec : FreeMapSpec alloc release I K F E) :
    FreeMapSpec (guarded S alloc) release (fun v => I v ∧ ∀ x, S x → v.freeMap.Used x)
      (fun x => K x ∨ S x) F E where
  sub x hx := .inl (spec.sub x hx)
  size v h := spec.size v h.1
  write v x b h hx := ⟨spec.write v x b h.1 fun hK => hx (.inl hK), h.2⟩
  alloc v h := by
    refine wpOn_seq (spec.alloc v h.1) ?_
    intro r v' hr
    cases r with
    | none =>
        obtain ⟨hI, rfl, hall⟩ := hr
        exact wpOn_pure ⟨⟨hI, h.2⟩, rfl, hall⟩
    | some x =>
        obtain ⟨hI, hlt, hfree, d, rfl, hd⟩ := hr
        have hx : ¬ S x := by
          intro hx
          have hused := (h.2 x hx).2
          rw [hfree] at hused
          cases hused
        dsimp only
        rw [if_neg hx]
        exact wpOn_pure ⟨⟨hI, fun y hy => Bitmap.used_set_true (h.2 y hy)⟩, hlt, hfree, d, rfl, hd⟩
  release v x h hused hx := by
    refine wpOn_weaken (spec.release v x h.1 hused fun hK => hx (.inl hK)) ?_
    rintro - v' ⟨hI, d, rfl, hd⟩
    refine ⟨⟨hI, fun y hy => Bitmap.used_set_false (h.2 y hy) ?_⟩, d, rfl, hd⟩
    rintro rfl
    exact hx (.inr hy)

/-- What a run may stop at: everything but the guard. -/
def NotGuard (e : Panic) (_ : Vol) : Prop := e ≠ .fatal

theorem notGuard {e : Panic} (he : e ≠ .fatal) (v : Vol) : NotGuard e v := he

/-- A write to another inode gets none of the sectors of `s`. -/
theorem FsInv.write_guarded {buffer : List UInt8} {offset : Nat} (h : FsInv v live) (hs : s ∈ live)
    (hi : inodeIn v.openInodes t = some i) (hst : s ≠ t) (hbuf : buffer.length < 2 ^ 31)
    (hoff : offset < 2 ^ 31) :
    vwp (guardedWriteAt (Uses v s) t buffer offset) (fun _ _ => True) NotGuard v := by
  have ht := (h.opens t i hi).1
  have hh := Vol.header_open hi
  have hp : v.pointers t = pointerAt v.disk i.data := by rw [Vol.pointers, hh]
  have ho := h.owned.mono (Set.sdiff_subset : live \ {t} ⊆ live)
  have hsound := h.owned.sound ht
  rw [hp] at hsound
  have hforeign : ∀ x, Uses v s x → Foreign v (live \ {t}) x := by
    rintro x (rfl | hx)
    · exact .inl ⟨hs, hst⟩
    · exact .inr ⟨s, ⟨hs, hst⟩, hx⟩
  have hheld : ∀ x, Taken v live t x → v.freeMap.Used x := by
    rintro x (rfl | hx)
    · exact h.owned.header x ht
    · exact ho.foreign_used hx
  have huses : ∀ x, Uses v s x → v.freeMap.Used x := fun x hx => ho.foreign_used (hforeign x hx)
  have hself : ¬ Uses v s t := fun hx => h.owned.not_foreign ht (hforeign t hx)
  unfold guardedWriteAt
  refine wpOn_ite (fun h0 => ?_) (fun h0 => ?_)
  · refine wpOn_weaken (inodeWriteAtWith_spec (E := NotGuard) (R := Taken v live t)
      (W := Writable v t) (heldMap_spec v.freeMap (notGuard (by simp))).guarded ?_
      (fun _ hx => hx.elim) (.inl rfl) (fun hx => hx.elim (fun hf => hf.elim) hself) (.inl rfl)
      (.inr fun u _ => notGuard (by simp) u) hi ⟨⟨rfl, h.owned.bitCnt, h.map.file⟩, huses⟩
      hsound hheld hbuf hoff
      (.inr (notGuard (by simp)))) fun _ _ _ => trivial
    exact fun x hx => hx.elim (fun hf => hf.elim) fun hu => .inr (hforeign x hu)
  · have hmapL : freeMapSector ∈ live \ {t} := ⟨h.mapLive, Ne.symm h0⟩
    refine wpOn_weaken (inodeWriteAtWith_spec (E := NotGuard) (R := Taken v live t)
      (W := Writable v t)
      (freeMap_spec (v.header freeMapSector) (v.pointers freeMapSector) NotGuard).guarded ?_
      (fun x hx => .inr ⟨h0, hx⟩) (.inl rfl) ?_ (.inl rfl) (.inr fun u _ => notGuard (by simp) u) hi
      ⟨h.owned.mapOk h.mapLive h.map, huses⟩ hsound hheld hbuf hoff (.inr (notGuard (by simp))))
      fun _ _ _ => trivial
    · exact fun x hx => .inr (hx.elim (fun hm => .inr ⟨_, hmapL, hm⟩) (hforeign x))
    · rintro (⟨a, -, he⟩ | hx)
      · exact h.owned.apart _ h.mapLive t ht a he
      · exact hself hx

/-- Nor does a new inode. -/
theorem FsInv.create_guarded (length : Nat) (h : FsInv v live) (hs : s ∈ live) :
    vwp (guardedCreate (Uses v s) length) (fun _ _ => True) NotGuard v := by
  have hforeign : ∀ x, Uses v s x → Foreign v live x := by
    rintro x (rfl | hx)
    · exact .inl hs
    · exact .inr ⟨s, hs, hx⟩
  have huses : ∀ x, Uses v s x → v.freeMap.Used x :=
    fun x hx => h.owned.foreign_used (hforeign x hx)
  have spec := (freeMap_spec (v.header freeMapSector) (v.pointers freeMapSector)
    NotGuard).guarded (S := Uses v s)
  refine wpOn_seq (spec.alloc v ⟨h.owned.mapOk h.mapLive h.map, huses⟩) ?_
  intro r v₁ hr
  cases r with
  | none => exact wpOn_pure trivial
  | some x =>
      obtain ⟨hI, hlt, hfree, d, rfl, -⟩ := hr
      -- `x` was free
      have hnot : ∀ y, v.freeMap.Used y → y ≠ x := by
        rintro y hy rfl
        rw [hy.2] at hfree
        cases hfree
      have hKx : ¬ (allSectors (v.pointers freeMapSector) x ∨ Uses v s x) := by
        rintro (hx | hx)
        · exact hnot x (h.owned.foreign_used (.inr ⟨_, h.mapLive, hx⟩)) rfl
        · exact hnot x (huses x hx) rfl
      have hx : x < v.size := by
        rw [h.owned.bitCnt] at hlt
        exact hlt
      refine wpOn_seq (vwp_cacheWrite hx (Q := fun _ v' => v' = _) rfl) ?_
      rintro - v₂ rfl
      refine wpOn_seq (inodeExtend_spec (R := fun y => y = x ∨ Foreign v live y)
        (W := fun y => y = x ∨ dataSectors (v.pointers freeMapSector) y)
        (H := fun y => y = x ∨ Foreign v live y) spec ?_ (fun y hy => .inr hy) (.inl rfl) hKx
        (.inl rfl) 2 (.inr fun u _ => notGuard (by simp) u) hx
        (spec.write _ _ _ hI hKx) ?_ ?_ fun _ _ hy => hy)
        fun _ _ _ => wpOn_pure trivial
      · rintro y (hy | hy)
        · exact .inr (.inr ⟨_, h.mapLive, hy⟩)
        · exact .inr (hforeign y hy)
      · exact ⟨fun a hu => absurd (pointerAt_newInode _ _ a) hu,
          fun a hu => absurd (pointerAt_newInode _ _ a) hu,
          fun a _ hu => absurd (pointerAt_newInode _ _ a) hu⟩
      · rintro y (rfl | hy)
        · exact ⟨.inl rfl, Bitmap.used_set_self hlt⟩
        · exact ⟨.inr hy, Bitmap.used_set_true (h.owned.foreign_used hy)⟩

end Guard

/-! ## Deleted but open files -/

/-- In every state of every run: no sector has two `struct inode`s; from the removal of an
inode on, and up to its last close, all calls through whatever opener answer as if it had
not been removed; and as long as an inode is open, removed or not, its header and the
sectors it references are marked, belong to no other inode, and are handed out neither by
`free_map_allocate` called now nor by the calls of it that other inodes make as they grow
or are created. -/
theorem deleted_files_survive (dev : BlockDev) (fs : FsState) (live : Set UInt32)
    (h : Run dev fs live) :
    (fs.openInodes.map Inode.sector).Nodup ∧
    (∀ s fs₁, inodeRemove s fs = .ok () fs₁ → ∀ tr,
      (∃ fs', Calls s fs₁ tr fs') ↔ ∃ fs', Calls s fs tr fs') ∧
    ∀ s i, inodeIn fs.openInodes s = some i → s ∈ live ∧ NoSharing fs.vol live ∧
      (∀ x fs', freeMapAllocate 1 fs = .ok (some x) fs' → ¬ Uses fs.vol s x) ∧
      (∀ t buffer offset, t ≠ s → (FsOp.write t buffer offset).Enabled fs.vol live →
        ∀ fs', guardedWriteAt (Uses fs.vol s) t buffer offset fs ≠ .error .fatal fs') ∧
      ∀ length fs', guardedCreate (Uses fs.vol s) length fs ≠ .error .fatal fs' := by
  have hinv := h.inv
  refine ⟨h.once, fun s fs₁ hrem tr => ?_, fun s i hi => ?_⟩
  · have hR := inodeRemove_butFlag h.once hrem
    constructor
    · rintro ⟨fs', hcalls⟩
      obtain ⟨gs', hcalls', -⟩ := hcalls.alike (ButFlag.symm hR)
      exact ⟨gs', hcalls'⟩
    · rintro ⟨fs', hcalls⟩
      obtain ⟨gs', hcalls', -⟩ := hcalls.alike hR
      exact ⟨gs', hcalls'⟩
  · have hs := (hinv.opens s i hi).1
    refine ⟨hs, hinv.owned.noSharing, fun x fs' hrun hx => ?_, ?_, fun length fs' hrun => ?_⟩
    · have hfor : Foreign fs.vol live x := by
        rcases hx with rfl | hx
        · exact .inl hs
        · exact .inr ⟨s, hs, hx⟩
      obtain ⟨-, hk, -, -, hx⟩ := wpOn_ok (hinv.allocate (E := fun _ _ => True)) hrun
      exact hx.2.2 ((hk.foreign hinv.owned x).mpr hfor)
    · rintro t buffer offset hts ⟨⟨j, hj⟩, hbuf, hoff⟩ fs' hrun
      rcases wpOn_run (hinv.write_guarded hs hj (Ne.symm hts) hbuf hoff) with
        ⟨r, fs'', hr, -⟩ | ⟨e, fs'', hr, he⟩
      · rw [hrun] at hr
        cases hr
      · rw [hrun] at hr
        cases hr
        exact he rfl
    · rcases wpOn_run (hinv.create_guarded length hs) with ⟨r, fs'', hr, -⟩ | ⟨e, fs'', hr, he⟩
      · rw [hrun] at hr
        cases hr
      · rw [hrun] at hr
        cases hr
        exact he rfl

/-- A file of a disk of six sectors, open and removed. -/
theorem deleted_files_survive_small : ∃ fs₁, inodeRemove 4 smallFile = .ok () fs₁ ∧
    ∀ tr, (∃ fs', Calls 4 fs₁ tr fs') ↔ ∃ fs', Calls 4 smallFile tr fs' := by
  have hrem : inodeRemove 4 smallFile = .ok () (afterCall (inodeRemove 4) smallFile) :=
    run_of_returnedValue (by decide +kernel)
  exact ⟨_, hrem, (deleted_files_survive _ _ _ smallFile_reach.run).2.1 4 _ hrem⟩

end CS162.Fs
