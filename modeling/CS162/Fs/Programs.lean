/-
# `CS162.Fs.Programs` — what every call keeps

Some facts about a call need nothing of it but that it is put together from accesses to
the cache and to the free map: that it is alike on two states, that it leaves the
counters of an inode alone.  A `Logic` is such a fact, closed under the ways of putting
programs together; it is then true of `inode_extend`.  A `ReadLogic` is one about programs
that only read.  A `CallLogic` also says what happens at the one place where
`inode_write_at` looks at a `struct inode`; it is then true of every call that writes a file.
-/
import CS162.Fs.Inode

namespace CS162.Fs

open Bytes

/-- A property of programs that reading and putting together keep. -/
structure ReadLogic where
  holds : ∀ {α : Type}, FsM α → Prop
  pure : ∀ {α : Type} (a : α), holds (pure a : FsM α)
  seq : ∀ {α β : Type} {x : FsM α} {f : α → FsM β}, holds x → (∀ a, holds (f a)) → holds (x >>= f)
  readLen : ∀ block offset len, holds (cacheReadLenFs block offset len)

namespace ReadLogic

variable (P : ReadLogic) {α : Type}

theorem ite {c : Prop} [Decidable c] {x y : FsM α} (hx : c → P.holds x) (hy : ¬ c → P.holds y) :
    P.holds (if c then x else y) := by
  by_cases hc : c
  · rw [if_pos hc]
    exact hx hc
  · rw [if_neg hc]
    exact hy hc

theorem cacheRead (block : UInt32) : P.holds (cacheRead block) :=
  P.seq (P.readLen block 0 512) fun _ => P.pure _

theorem fetchBlock (id : InodeDisk) (pos : Nat) : P.holds (inodeFetchBlock id pos) := by
  unfold inodeFetchBlock
  split
  · exact P.pure _
  · split
    · refine P.ite (fun _ => P.pure _) fun _ => ?_
      refine P.seq (P.cacheRead _) fun b => P.ite (fun _ => P.pure _) fun _ => ?_
      exact P.seq (P.cacheRead _) fun _ => P.pure _
    · exact P.pure _

theorem readLoop (id : InodeDisk) (fuel size offset : Nat) (buffer : List UInt8) :
    P.holds (inodeReadLoop id fuel size offset buffer) := by
  induction fuel generalizing size offset buffer with
  | zero => exact P.pure _
  | succ fuel ih =>
      refine P.ite (fun _ => P.pure _) fun _ => ?_
      refine P.seq (P.fetchBlock _ _) fun x => P.ite (fun _ => P.pure _) fun _ => ?_
      refine P.ite (fun _ => P.pure _) fun _ => ?_
      refine P.seq ?_ fun _ => ih _ _ _
      refine P.ite (fun _ => ?_) fun _ => P.readLen _ _ _
      exact P.seq (P.cacheRead _) fun _ => P.pure _

end ReadLogic

/-- One that writing to the disk and to the free map keeps too. -/
structure Logic extends ReadLogic where
  throw : ∀ {α : Type} (e : Panic), holds (throw e : FsM α)
  writeLen : ∀ block offset buffer, holds (cacheWriteLenFs block offset buffer)
  /-- A function of the rest of the state. -/
  modify : ∀ {u : FsState → FsState},
    (∀ fs l, u { fs with openInodes := l } = { u fs with openInodes := l }) →
    (∀ fs, (u fs).openInodes = fs.openInodes) → holds (modify u : FsM PUnit)
  /-- A program that looks only at the rest of the state. -/
  get : ∀ {β : Type} {k : FsState → FsM β}, (∀ fs l, k { fs with openInodes := l } = k fs) →
    (∀ fs, holds (k fs)) → holds (get >>= k)

namespace Logic

variable (P : Logic)

theorem cacheWrite (block : UInt32) (buffer : Sector) : P.holds (cacheWrite block buffer) :=
  P.writeLen block 0 _

/-! ## Growing -/

section Extend

variable {alloc : FsM (Option UInt32)} {release : UInt32 → FsM Unit} (ha : P.holds alloc)
  (hr : ∀ x, P.holds (release x))

include ha hr

theorem fitPointer (past : Bool) (fresh : Sector) (pointer : UInt32) :
    P.holds (fitPointer alloc release past fresh pointer) := by
  refine P.ite (fun _ => P.seq (hr _) fun _ => P.pure _) fun _ => ?_
  refine P.ite (fun _ => P.seq ha fun r => ?_) fun _ => P.pure _
  cases r with
  | none => exact P.pure _
  | some sector => exact P.seq (P.cacheWrite _ _) fun _ => P.pure _

theorem fitPointers {n : Nat} (past : Fin n → Bool) (is : List (Fin n))
    (pointers : Fin n → UInt32) : P.holds (fitPointers alloc release past is pointers) := by
  induction is generalizing pointers with
  | nil => exact P.pure _
  | cons i is ih =>
      refine P.seq (P.fitPointer ha hr _ _ _) fun r => ?_
      cases r with
      | none => exact P.pure _
      | some pointer => exact ih _

theorem fitIndirect (size : Nat) (is : List (Fin 128)) (buffer : Table) :
    P.holds (fitIndirect alloc release size is buffer) := by
  induction is generalizing buffer with
  | nil => exact P.pure _
  | cons i is ih =>
      refine P.seq (P.fitPointer ha hr _ _ _) fun r => ?_
      cases r with
      | none => exact P.pure _
      | some pointer =>
          refine P.ite (fun _ => P.pure _) fun _ => ?_
          refine P.seq (P.cacheRead _) fun b => ?_
          refine P.seq (P.fitPointers ha hr _ _ _) fun r => ?_
          obtain ⟨done, indirectBuffer⟩ := r
          cases done with
          | false => exact P.pure _
          | true => exact P.seq (P.cacheWrite _ _) fun _ => ih _

theorem extendOnce (sector : UInt32) (id : InodeDisk) (size : Nat) :
    P.holds (inodeExtendOnce alloc release sector id size) := by
  have hfinish : ∀ id, P.holds (finishExtend sector id size) :=
    fun id => P.seq (P.cacheWrite _ _) fun _ => P.pure _
  refine P.seq (P.fitPointers ha hr _ _ _) fun r => ?_
  obtain ⟨done, pointers⟩ := r
  cases done with
  | false => exact P.pure _
  | true =>
      refine P.ite (fun _ => hfinish _) fun _ => ?_
      refine P.seq ?_ fun r => ?_
      · refine P.ite (fun _ => P.seq ha fun r => ?_) fun _ => ?_
        · cases r with
          | none => exact P.pure _
          | some x => exact P.seq (P.cacheWrite _ _) fun _ => P.pure _
        · exact P.seq (P.cacheRead _) fun _ => P.pure _
      · cases r with
        | none => exact P.pure _
        | some r =>
            obtain ⟨doubly, buffer⟩ := r
            -- a literal this large stops the unifier
            generalize size - directPointerSize = rest
            refine P.seq (P.fitIndirect ha hr _ _ _) fun r => ?_
            obtain ⟨done, buffer⟩ := r
            cases done with
            | false => exact P.pure _
            | true => exact P.seq (P.cacheWrite _ _) fun _ => hfinish _

theorem extend (depth : Nat) (sector : UInt32) (id : InodeDisk) (size : Nat) :
    P.holds (inodeExtend alloc release depth sector id size) := by
  induction depth generalizing id size with
  | zero => exact P.throw _
  | succ depth ih =>
      refine P.seq (P.extendOnce ha hr _ _ _) fun r => ?_
      obtain ⟨done, id⟩ := r
      cases done with
      | true => exact P.pure _
      | false => exact P.seq (ih _ _) fun _ => P.pure _

end Extend

/-! ## Writing -/

theorem writeLoop (id : InodeDisk) (fuel : Nat) (buffer : List UInt8) (offset n : Nat) :
    P.holds (inodeWriteLoop id fuel buffer offset n) := by
  induction fuel generalizing buffer offset n with
  | zero => exact P.pure _
  | succ fuel ih =>
      refine P.ite (fun _ => P.pure _) fun _ => ?_
      refine P.seq (P.fetchBlock _ _) fun x => P.ite (fun _ => P.pure _) fun _ => ?_
      refine P.seq ?_ fun _ => ih _ _ _
      exact P.ite (fun _ => P.cacheWrite _ _) fun _ => P.writeLen _ _ _

/-! ## The free map -/

theorem allocateWith {write : FsM Bool} (hw : P.holds write) (cnt : Nat) :
    P.holds (freeMapAllocateWith write cnt) := by
  refine P.get (fun _ _ => rfl) fun fs => ?_
  cases bitmapScanAndFlip fs.freeMap 0 cnt false with
  | none => exact P.seq (P.modify (fun _ _ => rfl) fun _ => rfl) fun _ => P.pure _
  | some r =>
      obtain ⟨sector, freeMap⟩ := r
      refine P.seq (P.modify (fun _ _ => rfl) fun _ => rfl) fun _ => ?_
      refine P.get (fun _ _ => rfl) fun fs => P.ite (fun _ => P.pure _) fun _ => ?_
      refine P.seq hw fun r => P.ite (fun _ => P.pure _) fun _ => ?_
      exact P.seq (P.modify (fun _ _ => rfl) fun _ => rfl) fun _ => P.pure _

theorem releaseWith {write : FsM Bool} (hw : P.holds write) (x : UInt32) (cnt : Nat) :
    P.holds (freeMapReleaseWith write x cnt) := by
  refine P.get (fun _ _ => rfl) fun fs => P.ite (fun _ => P.throw _) fun _ => ?_
  refine P.ite (fun _ => P.throw _) fun _ => ?_
  refine P.seq (P.modify (fun _ _ => rfl) fun _ => rfl) fun _ => ?_
  refine P.get (fun _ _ => rfl) fun fs => P.ite (fun _ => P.throw _) fun _ => ?_
  exact P.seq hw fun _ => P.pure _

theorem allocHeld : P.holds allocHeld := P.allocateWith (P.throw _) 1

theorem releaseHeld (x : UInt32) : P.holds (releaseHeld x) := P.releaseWith (P.throw _) x 1

end Logic

/-- A property of programs that `inode_write_at` has if what it allocates with does. -/
structure CallLogic extends Logic where
  writeAtWith : ∀ {alloc : FsM (Option UInt32)} {release : UInt32 → FsM Unit}, holds alloc →
    (∀ x, holds (release x)) → ∀ s buffer offset,
      holds (inodeWriteAtWith alloc release s buffer offset)

namespace CallLogic

variable (P : CallLogic)

theorem bitmapWrite : P.holds bitmapWrite := by
  refine P.get (fun _ _ => rfl) fun fs => ?_
  exact P.seq (P.writeAtWith P.allocHeld P.releaseHeld _ _ _) fun _ => P.pure _

theorem allocate (cnt : Nat) : P.holds (freeMapAllocate cnt) :=
  P.allocateWith P.bitmapWrite cnt

theorem release (x : UInt32) (cnt : Nat) : P.holds (freeMapRelease x cnt) :=
  P.releaseWith P.bitmapWrite x cnt

theorem writeAt (s : UInt32) (buffer : List UInt8) (offset : Nat) :
    P.holds (inodeWriteAt s buffer offset) :=
  P.ite (fun _ => P.writeAtWith P.allocHeld P.releaseHeld _ _ _)
    fun _ => P.writeAtWith (P.allocate 1) (fun x => P.release x 1) _ _ _

theorem extendInode (s : UInt32) (id : InodeDisk) (size : Nat) :
    P.holds (CS162.Fs.extend s id size) :=
  P.extend (P.allocate 1) (fun x => P.release x 1) _ _ _ _

theorem createInode (length : Nat) : P.holds (createInode length) := by
  refine P.seq (P.allocate 1) fun r => ?_
  cases r with
  | none => exact P.pure _
  | some x =>
      refine P.seq (P.seq (P.cacheWrite _ _) fun _ => ?_) fun _ => P.pure _
      exact P.seq (P.extendInode _ _ _) fun _ => P.pure _

theorem releaseBlocks (i : Inode) : P.holds (releaseBlocks i) := by
  refine P.ite (fun _ => ?_) fun _ => P.pure _
  exact P.seq (P.release _ _) fun _ => P.seq (P.extendInode _ _ _) fun _ => P.pure _

end CallLogic

end CS162.Fs
