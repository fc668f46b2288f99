/-
# `CS162.Fs.ByteArray` — a file is a byte array

The purpose of an inode, said without sectors: it has a length, and each position
below it holds the last byte written there, or 0.  `FileOp.result` says what a call
returns, given only the calls made before it.

The connection is `FileInv`: the header's length and the bytes the pointers lead to
are those the calls so far ask for.  It holds of an inode that `inode_create` has
just made (`FileInv.created`), each call keeps it and returns what it should
(`FileOp.run_spec`), hence so does every sequence of calls (`runFile_spec`).  All
this is up to a failed allocation, recorded in `allocFailed`; from there on only
the invariant of the file system is kept.
-/
import CS162.Fs.Runs

namespace CS162.Fs

open Bytes Wp

/-! ## The byte array -/

inductive FileOp where
  | read (size offset : Nat)
  | write (buffer : List UInt8) (offset : Nat)

inductive FileResult where
  | bytes (buffer : List UInt8)
  | count (bytesWritten : Nat)
  deriving DecidableEq

namespace FileOp

/-- One past the last position the call touches. -/
def stop : FileOp → Nat
  | read size offset => offset + size
  | write buffer offset => offset + buffer.length

/-- What the call writes at a position. -/
def byteWritten (p : Nat) : FileOp → Option UInt8
  | read _ _ => none
  | write buffer offset => if offset ≤ p then buffer[p - offset]? else none

end FileOp

/-- The last byte written at a position, or 0. -/
def lastByte (ops : List FileOp) (p : Nat) : UInt8 :=
  (ops.reverse.findSome? (FileOp.byteWritten p)).getD 0

/-- The greatest of the initial length and the ends of the writes. -/
def lengthAfter (length : Nat) (ops : List FileOp) : Nat :=
  ops.foldl (fun n op => match op with
    | .read _ _ => n
    | .write buffer offset => max n (offset + buffer.length)) length

/-- What a call returns after the calls `before`. -/
def FileOp.result (length : Nat) (before : List FileOp) : FileOp → FileResult
  | read size offset =>
      .bytes ((List.range (min size (lengthAfter length before - offset))).map fun k =>
        lastByte before (offset + k))
  | write buffer _ => .count buffer.length

variable {length : Nat} {before : List FileOp} {op : FileOp}

theorem lastByte_snoc (p : Nat) :
    lastByte (before ++ [op]) p = (op.byteWritten p).getD (lastByte before p) := by
  unfold lastByte
  rw [List.reverse_append, List.reverse_singleton, List.singleton_append, List.findSome?_cons]
  cases op.byteWritten p <;> rfl

theorem lengthAfter_snoc : lengthAfter length (before ++ [op]) = match op with
    | .read _ _ => lengthAfter length before
    | .write buffer offset => max (lengthAfter length before) (offset + buffer.length) := by
  unfold lengthAfter
  rw [List.foldl_append]
  rfl

/-! ## The calls -/

/-- `inode_read_at` and `inode_write_at`. -/
def FileOp.run (s : UInt32) : FileOp → FsM FileResult
  | read size offset => do return .bytes (← inodeReadAt s size offset)
  | write buffer offset => do return .count (← inodeWriteAt s buffer offset)

/-- One call after another. -/
def runFile (s : UInt32) : List FileOp → FsM (List FileResult)
  | [] => return []
  | op :: ops => do
      let r ← op.run s
      let rs ← runFile s ops
      return r :: rs

variable {v v' : Vol} {live : Set UInt32} {s : UInt32}

/-- The inode `s` after the calls `before`. -/
structure FileInv (s : UInt32) (length : Nat) (live : Set UInt32) (before : List FileOp) (v : Vol) :
    Prop where
  inv : FsInv v live
  other : s ≠ freeMapSector
  isOpen : ∃ i, inodeIn v.openInodes s = some i ∧ i.denyWriteCnt = 0
  len : v.allocFailed = true ∨ (v.header s).len = lengthAfter length before
  bytes : v.allocFailed = true ∨ ∀ p, byteAt v.disk (v.pointers s) p = lastByte before p

/-- A run stops only if an allocation has failed. -/
abbrev Failed (_ : Panic) (v : Vol) : Prop := v.allocFailed = true

/-- The bytes of a write, position by position. -/
theorem getD_byteWritten (buffer : List UInt8) (offset p : Nat) (b : UInt8) :
    ((FileOp.write buffer offset).byteWritten p).getD b
      = if offset ≤ p ∧ p < offset + buffer.length then buffer.getD (p - offset) 0 else b := by
  simp only [FileOp.byteWritten]
  by_cases h₁ : offset ≤ p
  · by_cases h₂ : p < offset + buffer.length
    · have hlt : p - offset < buffer.length := by omega
      rw [if_pos h₁, if_pos ⟨h₁, h₂⟩, List.getD_eq_getElem?_getD, List.getElem?_eq_getElem hlt]
      rfl
    · have hge : buffer.length ≤ p - offset := by omega
      rw [if_pos h₁, if_neg fun hc => h₂ hc.2, List.getElem?_eq_none hge]
      rfl
  · rw [if_neg h₁, if_neg fun hc => h₁ hc.1]
    rfl

/-- One operation on the file is the operation on the bytes. -/
theorem FileOp.run_spec (h : FileInv s length live before v) (hmax : op.stop ≤ maxFileLen) :
    vwp (op.run s) (fun r v' => FileInv s length live (before ++ [op]) v' ∧
      (v.allocFailed = true → v'.allocFailed = true) ∧
      (v'.allocFailed = true ∨ r = op.result length before)) Failed v := by
  obtain ⟨i, hi, hdeny⟩ := h.isOpen
  have hs := (h.inv.opens s i hi).1
  cases op with
  | read size offset =>
      refine wpOn_seq (h.inv.owned.read hs hi (.inl hmax)) ?_
      rintro r v' ⟨rfl, rfl⟩
      refine wpOn_pure ⟨⟨h.inv, h.other, h.isOpen, ?_, ?_⟩, fun hf => hf, ?_⟩
      · rw [lengthAfter_snoc]
        exact h.len
      · refine h.bytes.imp_right fun hb p => ?_
        rw [lastByte_snoc]
        exact hb p
      · rcases h.len with hf | hlen
        · exact Or.inl hf
        · refine h.bytes.imp_right fun hb => ?_
          unfold FileOp.result bytesAt
          rw [hlen]
          simp only [hb]
  | write buffer offset =>
      have hm : offset + buffer.length ≤ maxFileLen := hmax
      have hlt : offset + buffer.length < 2 ^ 31 := by
        simp only [maxFileLen] at hm
        omega
      refine wpOn_seq (h.inv.write hi (fun h0 => absurd h0 h.other) (by omega)
        (by omega) (Or.inl hm)) ?_
      rintro r v' ⟨hinv, -, id', hd, hout⟩
      have hh := Vol.header_open hd.self
      have hp : v'.pointers s = pointerAt v'.disk id' := by rw [Vol.pointers, hh]
      have hp₀ : v.pointers s = pointerAt v.disk i.data := by rw [Vol.pointers, Vol.header_open hi]
      have hopen : ∃ j, inodeIn v'.openInodes s = some j ∧ j.denyWriteCnt = 0 :=
        ⟨_, hd.self, hdeny⟩
      rcases hout hdeny hlt with ⟨rfl, hlen⟩ | ⟨-, -, hf⟩
      · refine wpOn_pure ⟨⟨hinv, h.other, hopen, ?_, ?_⟩, hd.failed, Or.inr rfl⟩
        · rcases h.len with hf | hl
          · exact Or.inl (hd.failed hf)
          · right
            rw [lengthAfter_snoc, hh, hlen, ← hl, Vol.header_open hi]
        · rcases h.bytes with hf | hb
          · exact Or.inl (hd.failed hf)
          · right
            intro p
            have hblank := h.inv.owned.blank s hs h.other
            rw [hp₀, Vol.header_open hi] at hblank
            rw [hp, (hd.bytes hblank).2 p, lastByte_snoc, getD_byteWritten, ← hb p, hp₀]
      · exact wpOn_pure ⟨⟨hinv, h.other, hopen, Or.inl hf, Or.inl hf⟩, fun _ => hf, Or.inl hf⟩

/-- What a sequence of calls returns. -/
def results (length : Nat) : List FileOp → List FileOp → List FileResult
  | _, [] => []
  | before, op :: ops => op.result length before :: results length (before ++ [op]) ops

/-- A list of them, one after the other.  The induction is on those still to come. -/
theorem runFile_spec : ∀ (ops : List FileOp) {before : List FileOp} {v : Vol},
    FileInv s length live before v → (∀ op ∈ ops, op.stop ≤ maxFileLen) →
    vwp (runFile s ops) (fun rs v' => FileInv s length live (before ++ ops) v' ∧
      (v.allocFailed = true → v'.allocFailed = true) ∧
      (v'.allocFailed = true ∨ rs = results length before ops)) Failed v := by
  intro ops
  induction ops with
  | nil =>
      intro before v h _
      rw [List.append_nil]
      exact wpOn_pure ⟨h, fun hf => hf, Or.inr rfl⟩
  | cons op ops ih =>
      intro before v h hmax
      refine wpOn_seq (op.run_spec h (hmax op List.mem_cons_self)) ?_
      rintro r v₁ ⟨h₁, hmono₁, hr⟩
      refine wpOn_seq (ih h₁ fun op' hop => hmax op' (List.mem_cons_of_mem _ hop)) ?_
      rintro rs v₂ ⟨h₂, hmono₂, hrs⟩
      rw [List.append_assoc, List.singleton_append] at h₂
      refine wpOn_pure ⟨h₂, fun hf => hmono₂ (hmono₁ hf), ?_⟩
      rcases hr with hf | rfl
      · exact Or.inl (hmono₂ hf)
      · exact hrs.imp_right fun he => by rw [he, results]

/-! ## From creation on -/

/-- A new inode, opened, before the first call. -/
theorem FileInv.created {p : Fin 123 → UInt32} {q : UInt32} (h : FsInv v (insert s live))
    (hs : s ∉ live) (h0 : freeMapSector ∈ live) (hlen : length < 2 ^ 31)
    (hclosed : inodeIn v.openInodes s = none)
    (hhead : v.header s = { newInode length with directPointers := p, doublyIndirect := q })
    (hzero : ∀ p, byteAt v.disk (v.pointers s) p = 0) :
    FileInv s length (insert s live) [] { v.opened s with allocFailed := false } := by
  have hinv := (h.opened (Set.mem_insert s live)).of_flag false
  refine ⟨hinv, ?_, ⟨openedInode v s, inodeIn_opened_self, ?_⟩, Or.inr ?_, Or.inr ?_⟩
  · rintro rfl
    exact hs h0
  · unfold openedInode
    rw [hclosed]
  · have hh : Vol.header { v.opened s with allocFailed := false } s = v.header s := header_opened
    rw [hh, hhead]
    exact Int32.toNatClampNeg_ofNat_of_lt hlen
  · intro p
    have hp : Vol.pointers { v.opened s with allocFailed := false } s = v.pointers s :=
      pointers_opened
    rw [hp]
    exact hzero p

/-- A file is a byte array.  From any reachable state an inode is created and opened;
then come any reads and writes that stay below `MAX_FILE_LEN`.  If none of them meets a
failed allocation, all return, with the results of the byte array, and the length is the
greatest of the initial one and the ends of the writes. -/
theorem file_is_byte_array (dev : BlockDev) (fs fs₁ fs₂ : FsState) (live : Set UInt32)
    (s : UInt32) (length : Nat) (ops : List FileOp) (hreach : Reach dev fs live)
    (hlen : length < 2 ^ 31) (hcreate : createInode length fs = .ok (some s) fs₁)
    (hopen : inodeOpen s fs₁ = .ok () fs₂) (hmax : ∀ op ∈ ops, op.stop ≤ maxFileLen)
    (hno : (afterCall (runFile s ops) { fs₂ with allocFailed := false }).allocFailed = false) :
    ∃ fs₃, runFile s ops { fs₂ with allocFailed := false } = .ok (results length [] ops) fs₃ ∧
      (fs₃.vol.header s).len = lengthAfter length ops := by
  have hinv := hreach.inv
  -- the inode as it was created
  have hspec := createInode_spec (E := fun _ _ => True) (fun _ _ => trivial) hinv hlen
  obtain ⟨hopens, hs, hinv₁, ⟨p, q, hhead⟩, hzero⟩ : fs₁.vol.openInodes = fs.vol.openInodes ∧
      s ∉ live ∧ FsInv fs₁.vol (insert s live) ∧ (∃ p q, fs₁.vol.header s
        = { newInode length with directPointers := p, doublyIndirect := q }) ∧
      ∀ p, byteAt fs₁.vol.disk (fs₁.vol.pointers s) p = 0 := by
    have hq := wpOn_ok hspec hcreate
    exact ⟨hq.2.1, hq.2.2.2⟩
  have hclosed : inodeIn fs₁.vol.openInodes s = none := by
    rw [hopens]
    cases hc : inodeIn fs.vol.openInodes s with
    | none => rfl
    | some i => exact absurd (hinv.opens s i hc).1 hs
  -- and opened
  have hvol : fs₂.vol = fs₁.vol.opened s := by
    have hlt := (hinv₁.owned.header s (Set.mem_insert s live)).lt hinv₁.owned.bitCnt
    have hq := wpOn_ok (vwp_inodeOpen (E := fun _ _ => True) (Q := fun _ v' => v' = _) hlt rfl) hopen
    exact hq
  have hfile := FileInv.created hinv₁ hs hinv.mapLive hlen hclosed hhead hzero
  rw [← hvol] at hfile
  have hstart : FsState.vol { fs₂ with allocFailed := false }
      = { fs₂.vol with allocFailed := false } := rfl
  rw [← hstart] at hfile
  unfold afterCall at hno
  rcases wpOn_run (runFile_spec ops hfile hmax) with ⟨rs, fs₃, hr, h₃, -, hrs⟩ | ⟨e, fs₃, hr, hf⟩
  · rw [hr] at hno
    have hnot : ¬ fs₃.vol.allocFailed = true := by
      intro hc
      have hno' : fs₃.vol.allocFailed = false := hno
      rw [hno'] at hc
      cases hc
    rw [hrs.resolve_left hnot] at hr
    exact ⟨fs₃, hr, h₃.len.resolve_left hnot⟩
  · rw [hr] at hno
    have hno' : fs₃.vol.allocFailed = false := hno
    have hf' : fs₃.vol.allocFailed = true := hf
    rw [hno'] at hf'
    cases hf'

/-- A file of three bytes, made and opened. -/
def smallArray : FsState := afterCall (inodeOpen 4) (afterCall (createInode 3) smallFs)

theorem file_is_byte_array_small : ∃ fs, runFile 4 [.write [7] 1, .read 10 0]
      { smallArray with allocFailed := false } = .ok [.count 1, .bytes [0, 7, 0]] fs ∧
    (fs.vol.header 4).len = 3 :=
  file_is_byte_array smallDisk smallFs _ _ _ 4 3 [.write [7] 1, .read 10 0] smallFs_reach
    (by decide) (run_of_returnedValue (by decide +kernel)) (run_of_returnedValue (by decide +kernel))
    (by decide) (by decide +kernel)

end CS162.Fs
