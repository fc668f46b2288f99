/-
# `CS162.Fs.OpenFiles` — reading and writing through `struct file`

More of `filesys/file.c`: an open file has a position, which reads and writes move on, and which
`file_seek` may set to any value.  A write to a directory is refused.

`fwp_fileRead`, `fwp_fileWrite` and `fwp_fileLength` say what the calls do with the files.
-/
import CS162.Fs.DenyWrite

namespace CS162.Fs

open Wp

/-- `inode_length`. -/
def inodeLength (sector : UInt32) : FsM Int32 := do
  let inode ← findInode sector
  return inode.data.length

/-- `file_length`. -/
def fileLength (file : OpenFile) : FsM Int32 := inodeLength file.inode

/-- `file_read`: the bytes that are read. -/
def fileRead (file : OpenFile) (size : Nat) : FsM (List UInt8 × OpenFile) := do
  let bytes ← inodeReadAt file.inode size file.pos
  return (bytes, { file with pos := file.pos + bytes.length })

/-- `file_write`. -/
def fileWrite (file : OpenFile) (buffer : List UInt8) : FsM (Int × OpenFile) := do
  if ← inodeIsDir file.inode then return (-1, file)
  else
    let bytesWritten ← inodeWriteAt file.inode buffer file.pos
    return (bytesWritten, { file with pos := file.pos + bytesWritten })

/-! ## What they do with the files -/

variable {F : Files} {s : UInt32} {n : Node} {file : OpenFile} {buffer : List UInt8} {size : Nat}
  {E : Panic → Vol → Prop}

theorem fwp_fileLength {P : Int32 → Files → Prop} (hn : F.node file.inode = some n)
    (hs : file.inode ∈ F.refs) (h : ∀ x : Int32, x.toNatClampNeg = n.len → P x F) :
    fwp (fileLength file) P E F := by
  refine fwp_of_vwp fun v hv => ?_
  obtain ⟨i, hi⟩ := hv.isOpen hs
  obtain ⟨rfl, -⟩ := hv.fields hn hi
  refine wpOn_seq (vwp_findInode (Q := fun k v' => k = i ∧ v' = v) hi ⟨rfl, rfl⟩) ?_
  rintro k v' ⟨rfl, rfl⟩
  exact wpOn_pure ⟨F, hv, h _ rfl⟩

theorem fwp_fileRead {P : List UInt8 × OpenFile → Files → Prop} (hn : F.node file.inode = some n)
    (hs : file.inode ∈ F.refs) (hmax : file.pos + size ≤ maxFileLen ∨ n.len ≤ maxFileLen)
    (h : P (n.read size file.pos, { file with pos := file.pos + (n.read size file.pos).length }) F) :
    fwp (fileRead file size) P E F := by
  refine wpBy_seq (fwp_inodeReadAt (P := fun l F' => l = n.read size file.pos ∧ F' = F) hn hs hmax
    ⟨rfl, rfl⟩) ?_
  rintro l F' ⟨rfl, rfl⟩
  exact wpBy_pure h

/-- A read leaves the files alone, however long the inode is. -/
theorem fwp_fileRead_same (hn : F.node file.inode = some n) (hs : file.inode ∈ F.refs) :
    fwp (fileRead file size) (fun _ F' => F' = F) E F := by
  refine wpBy_seq (fwp_inodeReadAt_part (P := fun _ F' => F' = F) hn hs fun _ _ => rfl) ?_
  rintro l F' rfl
  exact wpBy_pure rfl

/-- What a write of a file leaves: all of the buffer is written, or nothing is. -/
inductive FileWritten (F : Files) (file : OpenFile) (n : Node) (buffer : List UInt8) : Nat → Files →
    Prop where
  | all {sv : Int32} {p : Slot → UInt32} {m : Bitmap} : (sv = n.saved ∨ sv = n.isDir) →
      freeCnt F.freeMap = freeCnt m + n.taken (file.pos + buffer.length) →
      FileWritten F file n buffer buffer.length
        { F.set file.inode { n.wrote buffer file.pos with saved := sv, ptr := p } with freeMap := m }
  | short {sv : Int32} {p : Slot → UInt32} {m : Bitmap} : (sv = n.saved ∨ sv = n.isDir) →
      n.Short (file.pos + buffer.length) F.freeMap m →
      FileWritten F file n buffer 0 { F.set file.inode { n with saved := sv, ptr := p } with freeMap :=
      m }

/-- `file_write` writes to a file, at its position, and refuses a directory. -/
theorem fwp_fileWrite {P : Int × OpenFile → Files → Prop} (hn : F.node file.inode = some n)
    (hs : file.inode ∈ F.refs) (hdeny : n.denyWriteCnt = 0) (hsum : file.pos + buffer.length < 2 ^ 31)
    (hE : file.pos + buffer.length ≤ maxFileLen ∨ ∀ v', E .pastEnd v')
    (hdir : n.isDir ≠ 0 → P (-1, file) F)
    (hfile : n.isDir = 0 → ∀ k F', FileWritten F file n buffer k F' →
      P ((k : Int), { file with pos := file.pos + k }) F') :
    fwp (fileWrite file buffer) P E F := by
  refine wpBy_seq (fwp_inodeIsDir (P := fun b F' => b = decide (n.isDir ≠ 0) ∧ F' = F) hn hs
    ⟨rfl, rfl⟩) ?_
  rintro b F' ⟨rfl, rfl⟩
  refine wpBy_ite (fun hd => wpBy_pure (hdir (of_decide_eq_true hd))) fun hno => ?_
  have h0 : n.isDir = 0 := by simpa using hno
  refine wpBy_seq (fwp_inodeWriteAt (P := FileWritten F' file n buffer) hn hs hdeny hsum hE
    (fun sv p m hsv _ hfree => .all hsv hfree) fun sv p m hsv hshort => .short hsv hshort)
    fun k F₁ hk => wpBy_pure (hfile h0 k F₁ hk)

end CS162.Fs
