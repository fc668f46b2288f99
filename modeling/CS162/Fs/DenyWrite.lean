/-
# `CS162.Fs.DenyWrite` — `filesys/file.c` and who may write

A `struct file` has a flag `deny_write`, and its inode counts the flags.  Four layers touch the
two counters of a `struct inode`: the openers of the inode, the files, their flags, and
`process_exit`, which allows writes again on a file that it then closes.  `write_denial_counted`
says that the counters are right after any sequence of calls on any inodes: `deny_write_cnt` is
the number of open files with the flag.

Only the two counters matter to that (`counts`), and of all the calls below `inode.c` it is
enough that they leave them alone (`countLogic`).  The holders of an inode, its open files and
the references held without one, say what the counters should be (`Holders.tally`).

A holder keeps a pointer in memory, so there are fewer than 2^30 of them and `open_cnt` does
not wrap.
-/
import CS162.Fs.Programs
import CS162.Fs.Removed
import CS162.Fs.Nodes

namespace CS162.Fs

open Wp

/-! ## `file.c` -/

/-- `struct file`. -/
structure OpenFile where
  inode : UInt32
  pos : Nat
  denyWrite : Bool

/-- `inode_deny_write`. -/
def inodeDenyWrite (sector : UInt32) : FsM Unit := do
  let inode ← findInode sector
  let inode := { inode with denyWriteCnt := inode.denyWriteCnt + 1 }
  putInode inode
  if inode.denyWriteCnt ≤ inode.openCnt then return () else throw .fatal

/-- `inode_allow_write`. -/
def inodeAllowWrite (sector : UInt32) : FsM Unit := do
  let inode ← findInode sector
  if ¬ inode.denyWriteCnt > 0 then throw .fatal
  else if ¬ inode.denyWriteCnt ≤ inode.openCnt then throw .fatal
  else putInode { inode with denyWriteCnt := inode.denyWriteCnt - 1 }

/-- `file_open` on an inode that is not null.  `calloc` says whether there was memory. -/
def fileOpen (calloc : Bool) (inode : UInt32) : FsM (Option OpenFile) := do
  if calloc = true then return some { inode := inode, pos := 0, denyWrite := false }
  else
    inodeClose inode
    return none

/-- `file_reopen`. -/
def fileReopen (calloc : Bool) (file : OpenFile) : FsM (Option OpenFile) := do
  inodeReopen file.inode
  fileOpen calloc file.inode

/-- `file_deny_write`. -/
def fileDenyWrite (file : OpenFile) : FsM OpenFile := do
  if file.denyWrite = false then
    inodeDenyWrite file.inode
    return { file with denyWrite := true }
  else return file

/-- `file_allow_write`. -/
def fileAllowWrite (file : OpenFile) : FsM OpenFile := do
  if file.denyWrite = true then
    inodeAllowWrite file.inode
    return { file with denyWrite := false }
  else return file

/-- `file_close`. -/
def fileClose (file : OpenFile) : FsM Unit := do
  let file ← fileAllowWrite file
  inodeClose file.inode

/-! ## The two counters -/

/-- For each open inode `open_cnt` and `deny_write_cnt`. -/
abbrev Counters := UInt32 → Option (Nat × Nat)

/-- The counters of a state. -/
def counts (fs : FsState) : Counters := fun s =>
  (inodeIn fs.openInodes s).map fun i => (i.openCnt, i.denyWriteCnt)

namespace Counters

/-- One more reference to `s`. -/
def opened (t : Counters) (s : UInt32) : Counters :=
  Function.update t s (some (((t s).map fun c => (c.1 + 1, c.2)).getD (1, 0)))

/-- One reference less. -/
def closed (t : Counters) (s : UInt32) : Counters :=
  Function.update t s ((t s).bind fun c => if c.1 = 1 then none else some (c.1 - 1, c.2))

/-- Another number of flags. -/
def flagged (t : Counters) (s : UInt32) (f : Nat → Nat) : Counters :=
  Function.update t s ((t s).map fun c => (c.1, f c.2))

end Counters

variable {α β : Type} {s : UInt32} {t : Counters} {E : Panic → Counters → Prop} {fs : FsState}
  {i : Inode} {l : List Inode}

/-- The counters after a write to one `struct inode`. -/
theorem counts_setInode (hi : inodeIn fs.openInodes s = some i) {j : Inode} (hj : j.sector = s) :
    counts { fs with openInodes := setInode fs.openInodes j } =
      Function.update (counts fs) s (some (j.openCnt, j.denyWriteCnt)) := by
  funext u
  unfold counts
  by_cases hu : u = s
  · subst hu
    rw [Function.update_self, inodeIn_setInode_self hi hj]
    rfl
  · have hju : j.sector ≠ u := hj ▸ Ne.symm hu
    rw [Function.update_of_ne hu, inodeIn_setInode_other hju]

theorem counts_some {c : Nat × Nat} (h : counts fs s = some c) :
    ∃ i, inodeIn fs.openInodes s = some i ∧ i.openCnt = c.1 ∧ i.denyWriteCnt = c.2 := by
  obtain ⟨i, hi, rfl⟩ := Option.map_eq_some_iff.mp h
  exact ⟨i, hi, rfl, rfl⟩

/-- Reading through a pointer gives a `struct inode` with the counters of the state. -/
theorem wpOn_findInode {Q : Inode → Counters → Prop}
    (h : ∀ i, i.sector = s → t s = some (i.openCnt, i.denyWriteCnt) → Q i t)
    (hE : t s = none → E .badPointer t) : wpOn counts (findInode s) Q E t := by
  rintro fs rfl
  cases hi : inodeIn fs.openInodes s with
  | none =>
      refine (wp_error (findInode_none hi)).mpr (hE ?_)
      unfold counts
      rw [hi]
      rfl
  | some i =>
      refine (wp_ok (findInode_some hi)).mpr (h i (sector_of_inodeIn hi) ?_)
      unfold counts
      rw [hi]
      rfl

/-- Writing through it. -/
theorem wpOn_putInode {Q : Unit → Counters → Prop} (hs : i.sector = s) (ho : (t s).isSome = true)
    (h : Q () (Function.update t s (some (i.openCnt, i.denyWriteCnt)))) :
    wpOn counts (putInode i) Q E t := by
  refine wpOn_modify ?_
  rintro fs rfl
  obtain ⟨c, hc⟩ := Option.isSome_iff_exists.mp ho
  obtain ⟨j, hj, -⟩ := counts_some hc
  show Q () (counts { fs with openInodes := setInode fs.openInodes i })
  rw [counts_setInode hj hs]
  exact h

/-! ## Calls that leave them alone -/

/-- However `x` ends, the counters are as before. -/
def KeepsCounts (x : FsM α) : Prop := ∀ t, wpOn counts x (fun _ t' => t' = t) (fun _ _ => True) t

theorem keepsCounts_seq {x : FsM α} {f : α → FsM β} (hx : KeepsCounts x)
    (hf : ∀ a, KeepsCounts (f a)) : KeepsCounts (x >>= f) := by
  refine fun t => wpOn_seq (hx t) ?_
  rintro a t' rfl
  exact hf a t'

theorem keepsCounts_readLen (block : UInt32) (offset len : Nat) :
    KeepsCounts (cacheReadLenFs block offset len) := by
  rintro - fs rfl
  unfold wp cacheReadLenFs
  cases fs.buffCache.run _ (fs.buffCache.readLen_calm block offset len) with
  | ok a cc => rfl
  | error e cc => trivial

theorem keepsCounts_writeLen (block : UInt32) (offset : Nat) (buffer : List UInt8) :
    KeepsCounts (cacheWriteLenFs block offset buffer) := by
  rintro - fs rfl
  unfold wp cacheWriteLenFs
  cases fs.buffCache.run _ (fs.buffCache.writeLen_calm block offset buffer) with
  | ok a cc => rfl
  | error e cc => trivial

/-- Putting programs together. -/
def countLogic₀ : Logic where
  holds := KeepsCounts
  pure _ _ := wpOn_pure rfl
  throw _ _ := wpOn_throw trivial
  seq := keepsCounts_seq
  readLen := keepsCounts_readLen
  writeLen := keepsCounts_writeLen
  modify _ hl _ := wpOn_modify fun fs hfs => by
    rw [← hfs]
    unfold counts
    rw [hl]
  get _ hk t := wpOn_get fun fs _ => hk fs t

/-- Whatever a write allocates, it neither opens nor closes, and denies nothing. -/
theorem keepsCounts_writeAtWith {alloc : FsM (Option UInt32)} {release : UInt32 → FsM Unit}
    (ha : KeepsCounts alloc) (hr : ∀ x, KeepsCounts (release x)) (s : UInt32)
    (buffer : List UInt8) (offset : Nat) :
    KeepsCounts (inodeWriteAtWith alloc release s buffer offset) := by
  intro t
  have hloop := fun id => countLogic₀.writeLoop id buffer.length buffer offset 0
  refine wpOn_seq (Q := fun i t' => t' = t ∧ i.sector = s ∧
    t s = some (i.openCnt, i.denyWriteCnt)) (wpOn_findInode (fun i hs hc => ⟨rfl, hs, hc⟩)
    fun _ => trivial) ?_
  rintro i t' ⟨rfl, hs, hc⟩
  refine wpOn_ite (fun _ => wpOn_pure rfl) fun _ => ?_
  refine wpOn_ite (fun _ => ?_) fun _ => hloop _ t'
  refine wpOn_seq (countLogic₀.extend ha hr extendDepth s i.data _ t') ?_
  rintro ⟨success, id⟩ t' rfl
  -- the counters put back are those read before the extension
  refine wpOn_seq (Q := fun _ t'' => t'' = t') (wpOn_putInode hs (by rw [hc]; rfl) ?_) ?_
  · show Function.update t' s (some (i.openCnt, i.denyWriteCnt)) = t'
    rw [← hc, Function.update_eq_self]
  · rintro - t'' rfl
    exact wpOn_ite (fun _ => hloop _ t'') fun _ => wpOn_pure rfl

/-- No call that writes a file or the free map touches the counters. -/
def countLogic : CallLogic where
  toLogic := countLogic₀
  writeAtWith := keepsCounts_writeAtWith

/-! ## What the calls do to the counters -/

theorem spec_inodeReopen (h : (t s).isSome = true) :
    wpOn counts (inodeReopen s) (fun _ t' => t' = t.opened s) E t := by
  refine wpOn_seq (Q := fun i t' => t' = t ∧ i.sector = s ∧
    t s = some (i.openCnt, i.denyWriteCnt)) (wpOn_findInode (fun i hs hc => ⟨rfl, hs, hc⟩) ?_) ?_
  · intro hn
    rw [hn] at h
    cases h
  · rintro i t' ⟨rfl, hs, hc⟩
    refine wpOn_putInode hs h ?_
    unfold Counters.opened
    rw [hc]
    rfl

/-- `inode_open` adds a reference, to the inode that it finds in the list or to a new one. -/
theorem spec_inodeOpen :
    wpOn counts (inodeOpen s) (fun _ t' => t' = t.opened s) (fun _ _ => True) t := by
  refine wpOn_get ?_
  rintro fs rfl
  rw [any_eq_isSome]
  cases hi : inodeIn fs.openInodes s with
  | some i =>
      refine spec_inodeReopen ?_
      unfold counts
      rw [hi]
      rfl
  | none =>
      refine wpOn_seq (countLogic₀.cacheRead s _) ?_
      rintro b t' rfl
      refine wpOn_modify fun fs' hfs' => ?_
      funext u
      have hs : counts fs s = none := by
        unfold counts
        rw [hi]
        rfl
      unfold Counters.opened
      by_cases hu : u = s
      · subst hu
        rw [Function.update_self, hs]
        show Option.map _ (inodeIn (_ :: fs'.openInodes) u) = _
        rw [inodeIn_cons_self rfl]
        rfl
      · rw [Function.update_of_ne hu, ← hfs']
        show Option.map _ (inodeIn (_ :: fs'.openInodes) u) = _
        rw [inodeIn_cons_other (Ne.symm hu)]
        rfl

/-- `inode_close` takes one away, and the inode goes with the last. -/
theorem spec_inodeClose (h : (t s).isSome = true) :
    wpOn counts (inodeClose s) (fun _ t' => t' = t.closed s) (fun _ _ => True) t := by
  refine wpOn_seq (Q := fun i t' => t' = t ∧ i.sector = s ∧
    t s = some (i.openCnt, i.denyWriteCnt)) (wpOn_findInode (fun i hs hc => ⟨rfl, hs, hc⟩)
    fun _ => trivial) ?_
  rintro i t' ⟨rfl, hs, hc⟩
  refine wpOn_ite (fun hlast => ?_) fun hlast => ?_
  · -- the last close takes the inode off the list and then writes only to the disk
    have hclosed : t'.closed s = Function.update t' s none := by
      unfold Counters.closed
      rw [hc, Option.bind_some, if_pos hlast]
    rw [hclosed]
    refine wpOn_seq (Q := fun _ t'' => t'' = Function.update t' s none) (wpOn_modify ?_) ?_
    · rintro fs rfl
      funext u
      show Option.map _ (inodeIn (dropInode fs.openInodes s) u) = _
      by_cases hu : u = s
      · subst hu
        rw [Function.update_self, inodeIn_dropInode_self]
        rfl
      · rw [Function.update_of_ne hu, inodeIn_dropInode_other hu]
        rfl
    · rintro - t'' rfl
      refine wpOn_seq (countLogic.releaseBlocks i _) ?_
      rintro data t'' rfl
      exact countLogic₀.cacheWrite _ _ _
  · refine wpOn_putInode hs h ?_
    unfold Counters.closed
    rw [hc, Option.bind_some, if_neg hlast]

/-- The assertion of `inode_deny_write` holds if not every reference has its flag set. -/
theorem spec_inodeDenyWrite {c : Nat × Nat} (h : t s = some c) (hlt : c.2 < c.1) :
    wpOn counts (inodeDenyWrite s) (fun _ t' => t' = t.flagged s (· + 1)) E t := by
  refine wpOn_seq (Q := fun i t' => t' = t ∧ i.sector = s ∧
    t s = some (i.openCnt, i.denyWriteCnt)) (wpOn_findInode (fun i hs hc => ⟨rfl, hs, hc⟩) ?_) ?_
  · intro hn
    rw [hn] at h
    cases h
  · rintro i t' ⟨rfl, hs, hc⟩
    obtain rfl := Option.some.inj (h.symm.trans hc)
    refine wpOn_seq (Q := fun _ t'' => t'' = t'.flagged s (· + 1)) (wpOn_putInode hs ?_ ?_) ?_
    · rw [h]
      rfl
    · unfold Counters.flagged
      rw [h]
      rfl
    · rintro - t'' rfl
      rw [if_pos (show i.denyWriteCnt + 1 ≤ i.openCnt from hlt)]
      exact wpOn_pure rfl

/-- The assertions of `inode_allow_write`. -/
theorem spec_inodeAllowWrite {c : Nat × Nat} (h : t s = some c) (hpos : 0 < c.2)
    (hle : c.2 ≤ c.1) :
    wpOn counts (inodeAllowWrite s) (fun _ t' => t' = t.flagged s (· - 1)) E t := by
  refine wpOn_seq (Q := fun i t' => t' = t ∧ i.sector = s ∧
    t s = some (i.openCnt, i.denyWriteCnt)) (wpOn_findInode (fun i hs hc => ⟨rfl, hs, hc⟩) ?_) ?_
  · intro hn
    rw [hn] at h
    cases h
  · rintro i t' ⟨rfl, hs, hc⟩
    obtain rfl := Option.some.inj (h.symm.trans hc)
    rw [if_neg (not_not_intro hpos), if_neg (not_not_intro hle)]
    refine wpOn_putInode hs ?_ ?_
    · rw [h]
      rfl
    · unfold Counters.flagged
      rw [h]
      rfl

/-! ## The holders -/

/-- The open files, and for each inode the references that are not in a file. -/
structure Holders where
  files : List OpenFile
  loose : UInt32 → Nat

namespace Holders

variable {H H' : Holders} {file file' : OpenFile} {k : Nat} {p : OpenFile → Bool}

/-- How often `s` is held. -/
def openers (H : Holders) (s : UInt32) : Nat := H.loose s + H.files.countP fun f => f.inode == s

/-- The open files of `s` that deny writes. -/
def deniers (H : Holders) (s : UInt32) : Nat :=
  H.files.countP fun f => f.inode == s && f.denyWrite

/-- What the counters should be. -/
def tally (H : Holders) : Counters := fun s =>
  if H.openers s = 0 then none else some (H.openers s, H.deniers s)

/-- One more reference without a file. -/
def take (H : Holders) (s : UInt32) : Holders :=
  { H with loose := Function.update H.loose s (H.loose s + 1) }

/-- One less. -/
def drop (H : Holders) (s : UInt32) : Holders :=
  { H with loose := Function.update H.loose s (H.loose s - 1) }

theorem deniers_le (H : Holders) (s : UInt32) : H.deniers s ≤ H.openers s := by
  refine Nat.le_trans (List.countP_mono_left fun f _ hf => ?_) (Nat.le_add_left _ (H.loose s))
  exact (Bool.and_eq_true_iff.mp hf).1

/-- The counters of the inodes other than `s` should be as before. -/
def SameBut (s : UInt32) (H H' : Holders) : Prop :=
  ∀ u, u ≠ s → H'.openers u = H.openers u ∧ H'.deniers u = H.deniers u

theorem SameBut.tally (h : SameBut s H H') {u : UInt32} (hu : u ≠ s) : H'.tally u = H.tally u := by
  obtain ⟨ho, hd⟩ := h u hu
  unfold Holders.tally
  rw [ho, hd]

theorem tally_some (h : H.openers s ≠ 0) : H.tally s = some (H.openers s, H.deniers s) := if_neg h

/-- One more holder of `s`. -/
theorem tally_opened (ho : H'.openers s = H.openers s + 1) (hd : H'.deniers s = H.deniers s)
    (hb : SameBut s H H') : H'.tally = H.tally.opened s := by
  funext u
  unfold Counters.opened
  by_cases hu : u = s
  · subst hu
    rw [Function.update_self, tally_some (by omega), ho, hd]
    by_cases h0 : H.openers u = 0
    · have hle := H.deniers_le u
      have hz : H.deniers u = 0 := by omega
      unfold Holders.tally
      rw [if_pos h0, h0, hz]
      rfl
    · rw [tally_some h0]
      rfl
  · rw [Function.update_of_ne hu, hb.tally hu]

/-- The counts are those of the holders after a `file_close`. -/
theorem tally_closed (ho : H.openers s = H'.openers s + 1) (hd : H'.deniers s = H.deniers s)
    (hb : SameBut s H H') : H'.tally = H.tally.closed s := by
  funext u
  unfold Counters.closed
  by_cases hu : u = s
  · subst hu
    have h1 : H.openers u ≠ 0 := by omega
    rw [Function.update_self, tally_some h1, Option.bind_some, ho]
    unfold Holders.tally
    by_cases h0 : H'.openers u = 0
    · rw [if_pos h0, if_pos (by omega)]
    · rw [if_neg h0, if_neg (by omega), hd]
      rfl
  · rw [Function.update_of_ne hu, hb.tally hu]

/-- The denials of `s` have changed, and its holders have not. -/
theorem tally_flagged {f : Nat → Nat} (ho : H'.openers s = H.openers s)
    (hd : H'.deniers s = f (H.deniers s)) (hb : SameBut s H H') :
    H'.tally = H.tally.flagged s f := by
  funext u
  unfold Counters.flagged
  by_cases hu : u = s
  · subst hu
    rw [Function.update_self]
    unfold Holders.tally
    rw [ho, hd]
    by_cases h0 : H.openers u = 0
    · rw [if_pos h0, if_pos h0]
      rfl
    · rw [if_neg h0, if_neg h0]
      rfl
  · rw [Function.update_of_ne hu, hb.tally hu]

/-! ### One holder more, one less, one flag -/

theorem tally_take : (H.take s).tally = H.tally.opened s := by
  refine tally_opened ?_ rfl fun u hu => ⟨?_, rfl⟩
  · simp [openers, take]
    omega
  · simp [openers, take, hu]

theorem tally_drop (h : H.loose s ≠ 0) : (H.drop s).tally = H.tally.closed s := by
  refine tally_closed ?_ rfl fun u hu => ⟨?_, rfl⟩
  · simp [openers, drop]
    omega
  · simp [openers, drop, hu]

/-- A file of `s` that denies nothing. -/
theorem tally_cons : ({ H with files := ⟨s, 0, false⟩ :: H.files } : Holders).tally =
    H.tally.opened s := by
  refine tally_opened ?_ ?_ fun u hu => ⟨?_, ?_⟩
  · simp [openers]
    omega
  · simp [deniers]
  · simp [openers, Ne.symm hu]
  · simp [deniers]

/-- A reference moves into a new file. -/
theorem tally_own (h : H.loose s ≠ 0) :
    ({ H.drop s with files := ⟨s, 0, false⟩ :: H.files } : Holders).tally = H.tally := by
  funext u
  by_cases hu : u = s
  · subst hu
    have hsum : H.loose u - 1 + (List.countP (fun f => f.inode == u) H.files + 1) =
      H.loose u + List.countP (fun f => f.inode == u) H.files := by omega
    simp [Holders.tally, openers, deniers, drop, hsum]
  · simp [Holders.tally, openers, deniers, drop, hu, Ne.symm hu]

/-- The `k`-th of a list and the others. -/
theorem countP_at {α : Type} {l : List α} {a : α} {k : Nat} (h : l[k]? = some a) (p : α → Bool) :
    l.countP p = (l.eraseIdx k).countP p + if p a = true then 1 else 0 := by
  induction l generalizing k with
  | nil => cases h
  | cons b l ih =>
      cases k with
      | zero =>
          obtain rfl := Option.some.inj h
          exact List.countP_cons
      | succ k =>
          rw [List.eraseIdx_cons_succ, List.countP_cons, List.countP_cons, ih h]
          omega

theorem countP_set_at {α : Type} {l : List α} {a : α} {k : Nat} (h : l[k]? = some a) (b : α)
    (p : α → Bool) :
    (l.set k b).countP p = (l.eraseIdx k).countP p + if p b = true then 1 else 0 := by
  obtain ⟨hk, -⟩ := List.getElem?_eq_some_iff.mp h
  have hb : (l.set k b)[k]? = some b := List.getElem?_set_self hk
  rw [countP_at hb p, List.eraseIdx_set_eq]

section File

variable (hk : H.files[k]? = some file)

include hk

/-- Setting a flag changes the number of holders of no inode. -/
theorem openers_set (b : Bool) (u : UInt32) :
    ({ H with files := H.files.set k { file with denyWrite := b } } : Holders).openers u =
      H.openers u := by
  simp [openers, countP_set_at hk, countP_at hk]

/-- A file's flag goes on. -/
theorem tally_deny (hoff : file.denyWrite = false) :
    ({ H with files := H.files.set k { file with denyWrite := true } } : Holders).tally =
      H.tally.flagged file.inode (· + 1) := by
  refine tally_flagged (openers_set hk true _) ?_ fun u hu => ⟨openers_set hk true _, ?_⟩
  · simp [deniers, countP_set_at hk, countP_at hk, hoff]
  · simp [deniers, countP_set_at hk, countP_at hk, Ne.symm hu]

/-- A file's flag goes off. -/
theorem tally_allow (hon : file.denyWrite = true) :
    ({ H with files := H.files.set k { file with denyWrite := false } } : Holders).tally =
      H.tally.flagged file.inode (· - 1) := by
  refine tally_flagged (openers_set hk false _) ?_ fun u hu => ⟨openers_set hk false _, ?_⟩
  · simp [deniers, countP_set_at hk, countP_at hk, hon]
  · simp [deniers, countP_set_at hk, countP_at hk, Ne.symm hu]

/-- A file that denies nothing goes away. -/
theorem tally_erase (hoff : file.denyWrite = false) :
    ({ H with files := H.files.eraseIdx k } : Holders).tally = H.tally.closed file.inode := by
  refine tally_closed ?_ ?_ fun u hu => ⟨?_, ?_⟩
  · simp [openers, countP_at hk]
    omega
  · simp [deniers, countP_at hk, hoff]
  · simp [openers, countP_at hk, Ne.symm hu]
  · simp [deniers, countP_at hk, hoff]

/-- A file holds its inode. -/
theorem openers_ne_zero : H.openers file.inode ≠ 0 := by
  simp [openers, countP_at hk]

theorem deniers_pos (hon : file.denyWrite = true) : 0 < H.deniers file.inode := by
  simp [deniers, countP_at hk, hon]

/-- A file that denies nothing is a holder that does not count as a denier. -/
theorem deniers_lt (hoff : file.denyWrite = false) :
    H.deniers file.inode < H.openers file.inode := by
  have hle := deniers_le { H with files := H.files.eraseIdx k } file.inode
  simp [openers, deniers, countP_at hk, hoff] at hle ⊢
  omega

end File

end Holders

/-! ## Runs -/

/-- The calls.  An open file is named by its place among the open files. -/
inductive HolderCall where
  | inodeOpen (s : UInt32)
  | inodeClose (s : UInt32)
  | inodeRemove (s : UInt32)
  | inodeWriteAt (s : UInt32) (buffer : List UInt8) (offset : Nat)
  | fileOpen (calloc : Bool) (s : UInt32)
  | fileReopen (calloc : Bool) (k : Nat)
  | fileDenyWrite (k : Nat)
  | fileAllowWrite (k : Nat)
  | fileClose (k : Nat)

namespace Holders

/-- A pointer to an open file is followed. -/
def onFile (H : Holders) (k : Nat) (f : OpenFile → FsM Holders) : FsM Holders :=
  match H.files[k]? with
  | none => throw .badPointer
  | some file => f file

/-- What `file_open` returned, if it is not null. -/
def add (H : Holders) : Option OpenFile → Holders
  | none => H
  | some file => { H with files := file :: H.files }

/-- One call, and who holds what after it.  Closing and
`file_open` take a reference that the caller has. -/
def exec (H : Holders) : HolderCall → FsM Holders
  | .inodeOpen s => do
      inodeOpen s
      return H.take s
  | .inodeClose s => do
      if H.loose s = 0 then throw .badPointer
      else
        inodeClose s
        return H.drop s
  | .inodeRemove s => do
      inodeRemove s
      return H
  | .inodeWriteAt s buffer offset => do
      let _ ← inodeWriteAt s buffer offset
      return H
  | .fileOpen calloc s => do
      if H.loose s = 0 then throw .badPointer
      else return (H.drop s).add (← fileOpen calloc s)
  | .fileReopen calloc k => H.onFile k fun file => do
      return H.add (← fileReopen calloc file)
  | .fileDenyWrite k => H.onFile k fun file => do
      return { H with files := H.files.set k (← fileDenyWrite file) }
  | .fileAllowWrite k => H.onFile k fun file => do
      return { H with files := H.files.set k (← fileAllowWrite file) }
  | .fileClose k => H.onFile k fun file => do
      fileClose file
      return { H with files := H.files.eraseIdx k }

variable {H H' : Holders} {file : OpenFile} {k : Nat} {t' : Counters}

/-- Where there is a holder, the inode is open. -/
theorem tally_isSome (h : H.openers s ≠ 0) : (H.tally s).isSome = true := by
  rw [tally_some h]
  rfl

theorem opened_isSome (t : Counters) (s : UInt32) : (t.opened s s).isSome = true := by
  unfold Counters.opened
  rw [Function.update_self]
  rfl

theorem closed_opened : (H.tally.opened s).closed s = H.tally := by
  funext u
  unfold Counters.closed Counters.opened
  by_cases hu : u = s
  · subst hu
    rw [Function.update_self, Function.update_self, Option.bind_some]
    by_cases h0 : H.openers u = 0
    · have hn : H.tally u = none := if_pos h0
      rw [hn]
      rfl
    · rw [tally_some h0]
      show (if H.openers u + 1 = 1 then none else some (H.openers u + 1 - 1, H.deniers u)) = _
      rw [if_neg (by omega), Nat.add_sub_cancel]
  · rw [Function.update_of_ne hu, Function.update_of_ne hu]

theorem spec_fileDenyWrite (hk : H.files[k]? = some file) :
    wpOn counts (fileDenyWrite file) (fun file' t' => file' = { file with denyWrite := true } ∧
      t' = ({ H with files := H.files.set k file' } : Holders).tally) E H.tally := by
  unfold fileDenyWrite
  refine wpOn_ite (fun hoff => ?_) fun hon => ?_
  · refine wpOn_seq (spec_inodeDenyWrite (tally_some (openers_ne_zero hk)) (deniers_lt hk hoff)) ?_
    rintro - t' rfl
    exact wpOn_pure ⟨rfl, (tally_deny hk hoff).symm⟩
  · rw [Bool.not_eq_false] at hon
    obtain ⟨hlt, hget⟩ := List.getElem?_eq_some_iff.mp hk
    refine wpOn_pure ⟨by rw [← hon], ?_⟩
    rw [← hget, List.set_getElem_self]

theorem spec_fileAllowWrite (hk : H.files[k]? = some file) :
    wpOn counts (fileAllowWrite file) (fun file' t' => file' = { file with denyWrite := false } ∧
      t' = ({ H with files := H.files.set k file' } : Holders).tally) E H.tally := by
  unfold fileAllowWrite
  refine wpOn_ite (fun hon => ?_) fun hoff => ?_
  · refine wpOn_seq (spec_inodeAllowWrite (tally_some (openers_ne_zero hk)) (deniers_pos hk hon)
      (deniers_le H file.inode)) ?_
    rintro - t' rfl
    exact wpOn_pure ⟨rfl, (tally_allow hk hon).symm⟩
  · rw [Bool.not_eq_true] at hoff
    obtain ⟨hlt, hget⟩ := List.getElem?_eq_some_iff.mp hk
    refine wpOn_pure ⟨by rw [← hoff], ?_⟩
    rw [← hget, List.set_getElem_self]

/-- `file_close` allows writing first, so that the count is never above that of the openers. -/
theorem spec_fileClose (hk : H.files[k]? = some file) :
    wpOn counts (fileClose file) (fun _ t' =>
      t' = ({ H with files := H.files.eraseIdx k } : Holders).tally) (fun _ _ => True) H.tally := by
  refine wpOn_seq (spec_fileAllowWrite hk) ?_
  rintro file' t' ⟨rfl, rfl⟩
  obtain ⟨hlt, -⟩ := List.getElem?_eq_some_iff.mp hk
  obtain ⟨H', hH'⟩ : ∃ H' : Holders,
    H' = { H with files := H.files.set k { file with denyWrite := false } } := ⟨_, rfl⟩
  have hk' : H'.files[k]? = some { file with denyWrite := false } := by
    rw [hH']
    exact List.getElem?_set_self hlt
  have herase : ({ H with files := H.files.eraseIdx k } : Holders).tally =
      H'.tally.closed file.inode := by
    rw [← tally_erase hk' rfl, hH', List.eraseIdx_set_eq]
  rw [herase, ← hH']
  exact spec_inodeClose (tally_isSome (openers_ne_zero hk'))

/-- One call keeps the counters right. -/
theorem exec_spec (H : Holders) (c : HolderCall) :
    wpOn counts (H.exec c) (fun H' t' => t' = H'.tally) (fun _ _ => True) H.tally := by
  have hfile : ∀ k (f : OpenFile → FsM Holders), (∀ file, H.files[k]? = some file →
      wpOn counts (f file) (fun H' t' => t' = H'.tally) (fun _ _ => True) H.tally) →
      wpOn counts (H.onFile k f) (fun H' t' => t' = H'.tally) (fun _ _ => True) H.tally := by
    intro k f hf
    unfold onFile
    cases hk : H.files[k]? with
    | none => exact wpOn_throw trivial
    | some file => exact hf file hk
  cases c with
  | inodeOpen s =>
      refine wpOn_seq spec_inodeOpen ?_
      rintro - t' rfl
      exact wpOn_pure tally_take.symm
  | inodeClose s =>
      refine wpOn_ite (fun _ => wpOn_throw trivial) fun h => ?_
      refine wpOn_seq (spec_inodeClose (tally_isSome (by unfold openers; omega))) ?_
      rintro - t' rfl
      exact wpOn_pure (tally_drop h).symm
  | inodeRemove s =>
      refine wpOn_seq (Q := fun _ t' => t' = H.tally) ?_ fun _ t' ht => wpOn_pure ht
      refine wpOn_seq (Q := fun i t' => t' = H.tally ∧ i.sector = s ∧
        H.tally s = some (i.openCnt, i.denyWriteCnt))
        (wpOn_findInode (fun i hs hc => ⟨rfl, hs, hc⟩) fun _ => trivial) ?_
      rintro i t' ⟨rfl, hs, hc⟩
      refine wpOn_putInode hs (by rw [hc]; rfl) ?_
      show Function.update H.tally s (some (i.openCnt, i.denyWriteCnt)) = H.tally
      rw [← hc, Function.update_eq_self]
  | inodeWriteAt s buffer offset =>
      refine wpOn_seq (countLogic.writeAt s buffer offset _) ?_
      rintro - t' rfl
      exact wpOn_pure rfl
  | fileOpen calloc s =>
      refine wpOn_ite (fun _ => wpOn_throw trivial) fun h => ?_
      refine wpOn_seq (Q := fun r t' => t' = ((H.drop s).add r).tally) ?_ fun r t' ht => wpOn_pure ht
      refine wpOn_ite (fun _ => wpOn_pure (tally_own h).symm) fun _ => ?_
      refine wpOn_seq (spec_inodeClose (tally_isSome (by unfold openers; omega))) ?_
      rintro - t' rfl
      exact wpOn_pure (tally_drop h).symm
  | fileReopen calloc k =>
      refine hfile k _ fun file hk => ?_
      refine wpOn_seq (Q := fun r t' => t' = (H.add r).tally) ?_ fun r t' ht => wpOn_pure ht
      refine wpOn_seq (spec_inodeReopen (tally_isSome (openers_ne_zero hk))) ?_
      rintro - t' rfl
      refine wpOn_ite (fun _ => wpOn_pure tally_cons.symm) fun _ => ?_
      refine wpOn_seq (spec_inodeClose (opened_isSome _ _)) ?_
      rintro - t' rfl
      exact wpOn_pure closed_opened
  | fileDenyWrite k =>
      refine hfile k _ fun file hk => ?_
      exact wpOn_seq (spec_fileDenyWrite hk) fun file' t' ht => wpOn_pure ht.2
  | fileAllowWrite k =>
      refine hfile k _ fun file hk => ?_
      exact wpOn_seq (spec_fileAllowWrite hk) fun file' t' ht => wpOn_pure ht.2
  | fileClose k =>
      refine hfile k _ fun file hk => ?_
      exact wpOn_seq (spec_fileClose hk) fun _ t' ht => wpOn_pure ht

/-- The references of a state, before any is in a file. -/
def ofState (fs : FsState) : Holders where
  files := []
  loose s := ((inodeIn fs.openInodes s).map Inode.openCnt).getD 0

end Holders

/-- Nobody denies writes. -/
def Undenied (fs : FsState) : Prop :=
  ∀ i ∈ fs.openInodes, 0 < i.openCnt ∧ i.denyWriteCnt = 0

theorem Undenied.counts (h : Undenied fs) : counts fs = (Holders.ofState fs).tally := by
  funext s
  have ho : (Holders.ofState fs).openers s =
      ((inodeIn fs.openInodes s).map Inode.openCnt).getD 0 := rfl
  have hd : (Holders.ofState fs).deniers s = 0 := rfl
  unfold Fs.counts Holders.tally
  rw [ho, hd]
  cases hi : inodeIn fs.openInodes s with
  | none => rfl
  | some i =>
      obtain ⟨hpos, hdeny⟩ := h i (List.mem_of_find?_eq_some hi)
      rw [Option.map_some, Option.map_some, Option.getD_some, if_neg (Nat.ne_of_gt hpos), hdeny]

/-- What a sequence of calls can lead to. -/
inductive HolderRun : Holders → FsState → Prop
  | start {fs : FsState} : Undenied fs → HolderRun (.ofState fs) fs
  | call {H H' : Holders} {fs fs' : FsState} {c : HolderCall} : HolderRun H fs →
      H.exec c fs = .ok H' fs' → HolderRun H' fs'

variable {H : Holders}

/-- The invariant: the counters are those of the holders. -/
theorem HolderRun.counts (h : HolderRun H fs) : counts fs = H.tally := by
  induction h with
  | start h => exact h.counts
  | @call H H' fs fs' c _ hc ih =>
      have hspec := H.exec_spec c
      rw [← ih] at hspec
      have hok := wpOn_ok hspec hc
      exact hok

/-! ## Writing -/

/-- `inode_write_at` without its look at `deny_write_cnt`. -/
def undeniedWriteAtWith (alloc : FsM (Option UInt32)) (release : UInt32 → FsM Unit)
    (sector : UInt32) (buffer : List UInt8) (offset : Nat) : FsM Nat := do
  let inode ← findInode sector
  let neededAtLeast := offT (offset + buffer.length)
  if neededAtLeast > inode.data.len then
    let (success, id) ← inodeExtend alloc release extendDepth sector inode.data
      neededAtLeast.toNat
    putInode { inode with data := id }
    if success = true then inodeWriteLoop id buffer.length buffer offset 0
    else return 0
  else inodeWriteLoop inode.data buffer.length buffer offset 0

/-- The same for any inode. -/
def undeniedWriteAt (sector : UInt32) (buffer : List UInt8) (offset : Nat) : FsM Nat :=
  if sector = freeMapSector then undeniedWriteAtWith allocHeld releaseHeld sector buffer offset
  else undeniedWriteAtWith (freeMapAllocate 1) (freeMapRelease · 1) sector buffer offset

section Write

variable {alloc : FsM (Option UInt32)} {release : UInt32 → FsM Unit} {buffer : List UInt8}
  {offset : Nat}

theorem writeAtWith_denied (hi : inodeIn fs.openInodes s = some i) (hdeny : i.denyWriteCnt ≠ 0) :
    inodeWriteAtWith alloc release s buffer offset fs = .ok 0 fs := by
  show EStateM.bind (findInode s) _ fs = _
  rw [EStateM.bind, findInode_some hi]
  show (if i.denyWriteCnt ≠ 0 then (pure 0 : FsM Nat) else _) fs = _
  rw [if_pos hdeny]
  rfl

theorem writeAtWith_undenied
    (hdeny : ∀ i, inodeIn fs.openInodes s = some i → i.denyWriteCnt = 0) :
    inodeWriteAtWith alloc release s buffer offset fs =
      undeniedWriteAtWith alloc release s buffer offset fs := by
  show EStateM.bind (findInode s) _ fs = EStateM.bind (findInode s) _ fs
  unfold EStateM.bind
  cases hi : inodeIn fs.openInodes s with
  | none => rw [findInode_none hi]
  | some i =>
      rw [findInode_some hi]
      show (if i.denyWriteCnt ≠ 0 then (pure 0 : FsM Nat) else _) fs = _
      rw [if_neg (not_not_intro (hdeny i hi))]

theorem writeAt_denied (hi : inodeIn fs.openInodes s = some i) (hdeny : i.denyWriteCnt ≠ 0) :
    inodeWriteAt s buffer offset fs = .ok 0 fs := by
  unfold inodeWriteAt
  by_cases h0 : s = freeMapSector
  · rw [if_pos h0]
    exact writeAtWith_denied hi hdeny
  · rw [if_neg h0]
    exact writeAtWith_denied hi hdeny

theorem writeAt_undenied (hdeny : ∀ i, inodeIn fs.openInodes s = some i → i.denyWriteCnt = 0) :
    inodeWriteAt s buffer offset fs = undeniedWriteAt s buffer offset fs := by
  unfold inodeWriteAt undeniedWriteAt
  by_cases h0 : s = freeMapSector
  · rw [if_pos h0, if_pos h0]
    exact writeAtWith_undenied hdeny
  · rw [if_neg h0, if_neg h0]
    exact writeAtWith_undenied hdeny

end Write

/-- After a write of `buffer` at `offset`: all of it is there, or there were too few sectors. -/
structure WriteResult (F : Files) (s : UInt32) (n : Node) (buffer : List UInt8) (offset r : Nat)
    (F' : Files) (n' : Node) : Prop where
  node : F'.node s = some n'
  done : r = buffer.length ∧ n'.len = (n.wrote buffer offset).len ∧
      n'.byte = (n.wrote buffer offset).byte ∨
    r = 0 ∧ freeCnt F.freeMap < n.need (offset + buffer.length)

/-- A write that nobody denies has the result that the files say. -/
theorem writeAt_result {F : Files} {n : Node} {buffer : List UInt8} {offset : Nat}
    (hshows : Shows fs.vol F) (hn : F.node s = some n) (href : s ∈ F.refs)
    (hdeny : ∀ i, inodeIn fs.openInodes s = some i → i.denyWriteCnt = 0)
    (hmax : offset + buffer.length ≤ maxFileLen) :
    ∃ r fs' F' n', inodeWriteAt s buffer offset fs = .ok r fs' ∧ Shows fs'.vol F' ∧
      WriteResult F s n buffer offset r F' n' := by
  obtain ⟨i, hi⟩ := hshows.isOpen href
  have hdeny' : n.denyWriteCnt = 0 := by
    rw [(hshows.fields hn hi).1]
    exact hdeny i hi
  have hsum : offset + buffer.length < 2 ^ 31 := by
    simp only [maxFileLen] at hmax
    omega
  have hwrite : fwp (inodeWriteAt s buffer offset)
      (fun r F' => ∃ n', WriteResult F s n buffer offset r F' n') (fun _ _ => False) F := by
    refine fwp_inodeWriteAt hn href hdeny' hsum (.inl hmax) (fun sv p m _ _ _ => ?_)
      fun sv p m _ hshort => ?_
    · exact ⟨_, Files.set_node_self, .inl ⟨rfl, rfl, rfl⟩⟩
    · exact ⟨_, Files.set_node_self, .inr ⟨rfl, hshort.short⟩⟩
  rcases wpBy_run hwrite hshows with ⟨r, fs', F', hrun, hF', n', hres⟩ | ⟨e, fs', -, he⟩
  · exact ⟨r, fs', F', n', hrun, hF', hres⟩
  · exact he.elim

/-- Write denial is counted exactly. -/
structure DenialCounted (H : Holders) (fs : FsState) : Prop where
  counted : ∀ s i, inodeIn fs.openInodes s = some i →
    i.denyWriteCnt = H.deniers s ∧ i.denyWriteCnt ≤ i.openCnt
  asserts : ∀ (k : Nat) file, H.files[k]? = some file →
    (∃ fs', fileDenyWrite file fs = .ok { file with denyWrite := true } fs') ∧
      ∃ fs', fileAllowWrite file fs = .ok { file with denyWrite := false } fs'
  denied : ∀ s, 0 < H.deniers s → ∀ buffer offset, inodeWriteAt s buffer offset fs = .ok 0 fs
  undenied : ∀ s, H.deniers s = 0 → ∀ buffer offset,
    inodeWriteAt s buffer offset fs = undeniedWriteAt s buffer offset fs
  written : ∀ s, H.deniers s = 0 → ∀ buffer offset F n, Shows fs.vol F → F.node s = some n →
    s ∈ F.refs → offset + buffer.length ≤ maxFileLen →
      ∃ r fs' F' n', inodeWriteAt s buffer offset fs = .ok r fs' ∧ Shows fs'.vol F' ∧
        WriteResult F s n buffer offset r F' n'

/-- All that is claimed follows from the counters: they are those of the holders. -/
theorem DenialCounted.of_counts (h : counts fs = H.tally) : DenialCounted H fs := by
  have hcnt : ∀ s i, inodeIn fs.openInodes s = some i →
      i.openCnt = H.openers s ∧ i.denyWriteCnt = H.deniers s := by
    intro s i hi
    have hs : some (i.openCnt, i.denyWriteCnt) = H.tally s := by
      rw [← h]
      unfold counts
      rw [hi]
      rfl
    unfold Holders.tally at hs
    by_cases h0 : H.openers s = 0
    · rw [if_pos h0] at hs
      cases hs
    · rw [if_neg h0] at hs
      exact Prod.mk.inj (Option.some.inj hs)
  have hzero : ∀ s, H.deniers s = 0 → ∀ i, inodeIn fs.openInodes s = some i →
      i.denyWriteCnt = 0 := fun s hs i hi => (hcnt s i hi).2.trans hs
  refine ⟨fun s i hi => ?_, fun k file hk => ⟨?_, ?_⟩, fun s hs buffer offset => ?_,
    fun s hs buffer offset => writeAt_undenied (hzero s hs),
    fun s hs buffer offset F n hF hn href hmax => writeAt_result hF hn href (hzero s hs) hmax⟩
  · obtain ⟨ho, hd⟩ := hcnt s i hi
    refine ⟨hd, ?_⟩
    rw [ho, hd]
    exact H.deniers_le s
  · have hspec := Holders.spec_fileDenyWrite (E := fun _ _ => False) hk
    rw [← h] at hspec
    rcases wpOn_run hspec with ⟨file', fs', hrun, rfl, -⟩ | ⟨e, fs', -, he⟩
    · exact ⟨fs', hrun⟩
    · exact he.elim
  · have hspec := Holders.spec_fileAllowWrite (E := fun _ _ => False) hk
    rw [← h] at hspec
    rcases wpOn_run hspec with ⟨file', fs', hrun, rfl, -⟩ | ⟨e, fs', -, he⟩
    · exact ⟨fs', hrun⟩
    · exact he.elim
  · have ho : H.openers s ≠ 0 := by
      have hle := H.deniers_le s
      omega
    have hopen : counts fs s = some (H.openers s, H.deniers s) := by
      rw [h]
      exact Holders.tally_some ho
    obtain ⟨i, hi, -, hd⟩ := counts_some hopen
    exact writeAt_denied hi (by rw [hd]; exact Nat.ne_of_gt hs)

/-- An open inode gets a file that denies writes. -/
theorem Undenied.deny (h : Undenied fs) (hi : (inodeIn fs.openInodes s).isSome = true) :
    ∃ H fs', HolderRun H fs' ∧ H.deniers s = 1 := by
  obtain ⟨i, hi⟩ := Option.isSome_iff_exists.mp hi
  obtain ⟨H, hH⟩ : ∃ H, H = Holders.ofState fs := ⟨_, rfl⟩
  have hstart : HolderRun H fs := hH ▸ .start h
  have hloose : H.loose s ≠ 0 := by
    rw [hH]
    show ((inodeIn fs.openInodes s).map Inode.openCnt).getD 0 ≠ 0
    rw [hi]
    exact Nat.ne_of_gt (h i (List.mem_of_find?_eq_some hi)).1
  have hnone : H.files = [] := by rw [hH]; rfl
  obtain ⟨H₁, hH₁⟩ : ∃ H₁, H₁ = (H.drop s).add (some ⟨s, 0, false⟩) := ⟨_, rfl⟩
  have hopen : H.exec (.fileOpen true s) fs = .ok H₁ fs := by
    show (if H.loose s = 0 then (throw .badPointer : FsM Holders) else _) fs = _
    rw [if_neg hloose, hH₁]
    rfl
  have hfile := hstart.call hopen
  have hk : H₁.files[0]? = some ⟨s, 0, false⟩ := by
    rw [hH₁]
    rfl
  obtain ⟨⟨fs', hrun⟩, -⟩ := (DenialCounted.of_counts hfile.counts).asserts 0 _ hk
  have hdeny : H₁.exec (.fileDenyWrite 0) fs =
      .ok { H₁ with files := H₁.files.set 0 ⟨s, 0, true⟩ } fs' := by
    show H₁.onFile 0 _ fs = _
    unfold Holders.onFile
    rw [hk]
    show EStateM.bind (fileDenyWrite _) _ fs = _
    rw [EStateM.bind, hrun]
    rfl
  refine ⟨_, fs', hfile.call hdeny, ?_⟩
  rw [hH₁]
  simp [Holders.deniers, Holders.add, Holders.drop, hnone]

/-- In every run of holders that open, deny, allow and close, the count of an inode is that of the
holders that deny writes to it, no assertion fails, and a write gets through exactly if there are none. -/
theorem write_denial_counted (h : HolderRun H fs) : DenialCounted H fs := .of_counts h.counts

/-- A file opened in sector 4, and no more writes. -/
theorem write_denial_counted_small : ∃ H fs, HolderRun H fs ∧ H.deniers 4 = 1 ∧
    ∀ buffer offset, inodeWriteAt 4 buffer offset fs = .ok 0 fs := by
  have hstart : ∀ i ∈ smallFile.openInodes, 0 < i.openCnt ∧ i.denyWriteCnt = 0 := by
    decide +kernel
  have hopen : (inodeIn smallFile.openInodes 4).isSome = true := by decide +kernel
  obtain ⟨H, fs, hrun, hone⟩ := Undenied.deny hstart hopen
  have hpos : 0 < H.deniers 4 := by omega
  exact ⟨H, fs, hrun, hone, (write_denial_counted hrun).denied 4 hpos⟩

end CS162.Fs
