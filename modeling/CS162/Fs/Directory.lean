/-
# `CS162.Fs.Directory` — `filesys/directory.c`

A directory is an inode whose bytes are an array of `struct dir_entry`:

    0     inode_sector    4 bytes
    4     name            15 bytes
    19    in_use          1 byte

A `struct dir` is a reference to its inode: `dir_open` takes the caller's over and
`dir_close` drops it, so a directory is passed as the sector of its inode and closed by
`inodeClose`.  `calloc` is taken to succeed.

Strings are lists of bytes without the NUL that ends them.  A `struct dir_entry` on the
stack starts as zeros; what it starts as can be seen only behind the end of a name.
-/
import CS162.Fs.Inode

namespace CS162.Fs

open Bytes

/-- `NAME_MAX`. -/
abbrev nameMax : Nat := 14

/-- `char [NAME_MAX + 1]`. -/
abbrev NameBuf := Block 15

/-- The string in a buffer. -/
def cstr (b : NameBuf) : List UInt8 := (b.slice 0 15).takeWhile (· != 0)

/-- The first bytes of a buffer overwritten. -/
def overwrite (b : NameBuf) (s : List UInt8) : NameBuf := b.splice 0 s

/-- `strlcpy` into a buffer. -/
def strlcpy (b : NameBuf) (s : List UInt8) : NameBuf := overwrite b (s.take nameMax ++ [0])

/-- `struct dir_entry`. -/
structure DirEntry where
  inodeSector : UInt32
  name : NameBuf
  inUse : UInt8

namespace DirEntry

def zero : DirEntry := ⟨0, Block.fill 0, 0⟩

/-- The 20 bytes of an entry. -/
def toBytes (e : DirEntry) : List UInt8 :=
  [Block.byteOf e.inodeSector 0, Block.byteOf e.inodeSector 1, Block.byteOf e.inodeSector 2,
    Block.byteOf e.inodeSector 3] ++ e.name.slice 0 15 ++ [e.inUse]

def ofBytes (l : List UInt8) : DirEntry where
  inodeSector := Block.join (l.getD 0 0) (l.getD 1 0) (l.getD 2 0) (l.getD 3 0)
  name := Block.ofList (l.drop 4)
  inUse := l.getD 19 0

end DirEntry

/-! ## More of `inode.c` -/

/-- `inode_is_dir`. -/
def inodeIsDir (sector : UInt32) : FsM Bool := do
  let inode ← findInode sector
  return inode.data.isDir ≠ 0

/-- `inode_add_child`. -/
def inodeAddChild (sector : UInt32) : FsM Unit := do
  let inode ← findInode sector
  putInode { inode with data := { inode.data with children := inode.data.children + 1 } }

/-- `inode_remove_child`. -/
def inodeRemoveChild (sector : UInt32) : FsM Unit := do
  let inode ← findInode sector
  putInode { inode with data := { inode.data with children := inode.data.children - 1 } }

/-- `inode_get_children`. -/
def inodeGetChildren (sector : UInt32) : FsM Int32 := do
  let inode ← findInode sector
  return inode.data.children

/-! ## Lookup -/

/-- More entries than a directory can have: nothing is read at `MAX_FILE_LEN` or beyond. -/
def dirFuel : Nat := maxFileLen / 20 + 2

/-- The condition of the three loops: a whole entry is read at `ofs`. -/
def readEntry (dir : UInt32) (ofs : Nat) : FsM (Option DirEntry) := do
  let bytes ← inodeReadAt dir 20 ofs
  return if bytes.length = 20 then some (DirEntry.ofBytes bytes) else none

def lookupFrom (dir : UInt32) (name : List UInt8) : Nat → Nat → FsM (Option (DirEntry × Nat))
  | 0, _ => throw .spin
  | fuel + 1, ofs => do
      match ← readEntry dir ofs with
      | none => return none
      | some e =>
          if e.inUse ≠ 0 ∧ cstr e.name = name then return some (e, ofs)
          else lookupFrom dir name fuel (ofs + 20)

/-- `lookup`: the entry and its offset. -/
def lookup (dir : UInt32) (name : List UInt8) : FsM (Option (DirEntry × Nat)) :=
  lookupFrom dir name dirFuel 0

/-- `dir_lookup`. -/
def dirLookup (dir : UInt32) (name : List UInt8) : FsM (Option UInt32) := do
  match ← lookup dir name with
  | none => return none
  | some (e, _) =>
      inodeOpen e.inodeSector
      return some e.inodeSector

/-! ## Adding and removing -/

/-- The loop of `dir_add`: the offset of a free slot or of
the end, and the last entry read. -/
def freeSlot (dir : UInt32) : Nat → Nat → DirEntry → FsM (Nat × DirEntry)
  | 0, _, _ => throw .spin
  | fuel + 1, ofs, e => do
      match ← readEntry dir ofs with
      | none => return (ofs, e)
      | some e => if e.inUse = 0 then return (ofs, e) else freeSlot dir fuel (ofs + 20) e

/-- `dir_add`. -/
def dirAdd (dir : UInt32) (name : List UInt8) (inodeSector : UInt32) : FsM Bool := do
  if name = [] ∨ nameMax < name.length then return false
  else
    match ← lookup dir name with
    | some _ => return false
    | none =>
        let (ofs, e) ← freeSlot dir dirFuel 0 .zero
        let e : DirEntry := ⟨inodeSector, strlcpy e.name name, 1⟩
        let wr ← inodeWriteAt dir e.toBytes ofs
        if wr = 20 then
          inodeOpen inodeSector
          inodeAddChild inodeSector
          inodeClose inodeSector
          return true
        else return false

/-- `dir_remove`, when the entry is found and its inode has been opened. -/
def dirErase (dir : UInt32) (e : DirEntry) (ofs : Nat) : FsM Bool := do
  if (← inodeGetChildren e.inodeSector) > 2 then return false
  else
    let wr ← inodeWriteAt dir { e with inUse := 0 }.toBytes ofs
    if wr = 20 then
      inodeRemove e.inodeSector
      inodeRemoveChild dir
      return true
    else return false

/-- `dir_remove`. -/
def dirRemove (dir : UInt32) (name : List UInt8) : FsM Bool := do
  match ← lookup dir name with
  | none => return false
  | some (e, ofs) =>
      inodeOpen e.inodeSector
      let success ← dirErase dir e ofs
      inodeClose e.inodeSector
      return success

/-- `.` and `..`. -/
def dot : List UInt8 := [46]
def dotDot : List UInt8 := [46, 46]

/-- `dir_readdir` from position `pos`: the name, if there is one, and the new position. -/
def dirReaddir (dir : UInt32) : Nat → Nat → FsM (Option (List UInt8) × Nat)
  | 0, _ => throw .spin
  | fuel + 1, pos => do
      match ← readEntry dir pos with
      | none => return (none, pos)
      | some e =>
          if e.inUse ≠ 0 ∧ cstr e.name ≠ dotDot ∧ cstr e.name ≠ dot then
            return (some (cstr e.name), pos + 20)
          else dirReaddir dir fuel (pos + 20)

end CS162.Fs
