/-
# `CS162.Fs.Filesys` — `filesys/filesys.c`

The calls that take a path.  The thread's `cwd` is passed in, and returned by the two
calls that change it.  `part`, the buffer each caller has on its stack for the last
component, is passed in as well: a path without a component leaves it as it is.

`get_next_part` returns -1 for a component that is too long, which the `while` of
`output_follow_file_path` takes for true.  Then the string is not advanced and the
buffer holds the first 14 bytes, so the same component is looked up again in each
directory reached; a chain of directories is no longer than there are sectors.
-/
import CS162.Fs.Directory

namespace CS162.Fs

open Bytes

/-- `/`. -/
def slash : UInt8 := 47

/-- `get_next_part`: the result, the buffer and the rest of the string. -/
def getNextPart (part : NameBuf) (src : List UInt8) : Int × NameBuf × List UInt8 :=
  let rest := src.dropWhile (· == slash)
  let name := rest.takeWhile (· != slash)
  if rest = [] then (0, part, src)
  else if name.length ≤ nameMax then
    (1, overwrite part (name ++ [0]), rest.dropWhile (· != slash))
  else (-1, overwrite part (name.take nameMax), src)

/-- What the loop of `output_follow_file_path` ends with. -/
structure Walk where
  curInode : UInt32
  tempInode : Option UInt32
  part : NameBuf
  partIsDir : Bool
  src : List UInt8

/-- `temp_inode && inode_is_dir (temp_inode)`. -/
def isDirectory : Option UInt32 → FsM Bool
  | none => return false
  | some inode => inodeIsDir inode

/-- The loop. -/
def followLoop : Nat → Walk → FsM Walk
  | 0, _ => throw .spin
  | fuel + 1, w => do
      match getNextPart w.part w.src with
      | (0, _, _) => return w
      | (_, part, src) =>
          inodeReopen w.curInode
          let tempInode ← dirLookup w.curInode (cstr part)
          inodeClose w.curInode
          if ← isDirectory tempInode then
            inodeClose w.curInode
            followLoop fuel ⟨tempInode.getD w.curInode, tempInode, part, true, src⟩
          else return ⟨w.curInode, tempInode, part, false, src⟩

/-- What `output_follow_file_path` gives its caller. -/
structure Follow where
  success : Bool
  dir : Option UInt32
  part : NameBuf
  partIsDir : Bool

/-- The reference a thread has to its directory; `NULL` is followed by `inode_reopen`. -/
def reopenCwd : Option UInt32 → FsM UInt32
  | none => throw .badPointer
  | some cwd => do
      inodeReopen cwd
      return cwd

/-- Where a path starts. -/
def startInode (cwd : Option UInt32) (path : List UInt8) : FsM UInt32 := do
  if path.head? = some slash then
    inodeOpen rootDirSector
    return rootDirSector
  else reopenCwd cwd

/-- `output_follow_file_path`; `part_is_dir` is true at every call. -/
def outputFollowFilePath (cwd : Option UInt32) (path : List UInt8) (part : NameBuf) : FsM Follow := do
  if path = [] then return ⟨false, none, part, true⟩
  else
    let curInode ← startInode cwd path
    let w ← followLoop (path.length + 2 ^ 32) ⟨curInode, none, part, true, path⟩
    match getNextPart w.part w.src with
    | (0, _, _) =>
        match w.tempInode with
        | none => return ⟨true, some w.curInode, w.part, w.partIsDir⟩
        | some tempInode =>
            if w.curInode ≠ tempInode then inodeClose tempInode
            return ⟨true, some w.curInode, w.part, w.partIsDir⟩
    | (_, part, _) => return ⟨false, some w.curInode, part, w.partIsDir⟩

/-- `inode_close` and `dir_close` of a pointer that may be `NULL`. -/
def closeOpt : Option UInt32 → FsM Unit
  | none => return ()
  | some inode => inodeClose inode

/-- `chdir`: the result and the new `cwd`. -/
def chdir (cwd : Option UInt32) (path : List UInt8) (part : NameBuf) : FsM (Bool × Option UInt32) := do
  let f ← outputFollowFilePath cwd path part
  match f.success, f.partIsDir, f.dir with
  | true, true, some newDir =>
      closeOpt cwd
      inodeReopen newDir
      inodeClose newDir
      return (true, some newDir)
  | _, _, _ => return (false, cwd)

/-- The second half of `mkdir`: the new directory, in `sector`, gets its two entries. -/
def fillDir (currDir sector : UInt32) : FsM Unit := do
  inodeOpen sector
  inodeSetDir sector true
  let _ ← dirAdd sector dot sector
  let _ ← dirAdd sector dotDot currDir
  inodeClose currDir
  inodeClose sector

/-- `mkdir`. -/
def mkdir (cwd : Option UInt32) (path : List UInt8) (part : NameBuf) : FsM Bool := do
  let f ← outputFollowFilePath cwd path part
  match f.success, f.dir with
  | true, some currDir =>
      match ← createInode 0 with
      | none => return false
      | some sector =>
          if ← dirAdd currDir (cstr f.part) sector then
            fillDir currDir sector
            return true
          else
            inodeClose currDir
            return false
  | _, _ => return false

/-- `struct file`, as far as `readdir` uses it. -/
structure File where
  inode : UInt32
  pos : Nat

/-- `readdir` on an open file: the name, if there is one, and the file.  The position is
stored only with a name. -/
def readdir (file : File) : FsM (Option (List UInt8) × File) := do
  inodeReopen file.inode
  let (name, pos) ← dirReaddir file.inode dirFuel file.pos
  inodeClose file.inode
  match name with
  | some name => return (some name, ⟨file.inode, pos⟩)
  | none => return (none, file)

/-- `filesys_create` once the path has been followed. -/
def createIn (dir : UInt32) (part : NameBuf) (initialSize : Int32) : FsM Bool := do
  -- `ASSERT (length >= 0)` in `inode_create`
  if initialSize < 0 then
    match ← freeMapAllocate 1 with
    | none => return false
    | some _ => throw .fatal
  else
    match ← createInode initialSize.toNatClampNeg with
    | none => return false
    | some inodeSector =>
        if ← dirAdd dir (cstr part) inodeSector then
          match ← dirLookup dir (cstr part) with
          | none => throw .badPointer
          | some inode =>
              inodeSetDir inode false
              inodeClose inode
              return true
        else
          freeMapRelease inodeSector 1
          return false

/-- `filesys_create`. -/
def filesysCreate (cwd : Option UInt32) (name : List UInt8) (initialSize : Int32) (part : NameBuf) :
    FsM Bool := do
  if name.head? ≠ some slash ∧ cwd = none then return false
  else
    let f ← outputFollowFilePath cwd name part
    match f.success, f.partIsDir, f.dir with
    | true, false, some dir =>
        let success ← createIn dir f.part initialSize
        inodeClose dir
        return success
    | _, _, _ => return false

/-- The directory that holds `part`: for a path that led to a directory, the one above. -/
def parentOf (dir : UInt32) : FsM (Option UInt32) := do
  let parent ← dirLookup dir dotDot
  inodeClose dir
  return parent

/-- `filesys_open`: the inode of the file that is returned. -/
def filesysOpen (cwd : Option UInt32) (name : List UInt8) (part : NameBuf) : FsM (Option UInt32) := do
  if name = [slash] then
    inodeOpen rootDirSector
    return some rootDirSector
  else if name.head? ≠ some slash ∧ cwd = none then return none
  else
    let f ← outputFollowFilePath cwd name part
    match f.success, f.dir with
    | true, some dir =>
        let dir ← if f.partIsDir = true ∧ cstr f.part ≠ dot then parentOf dir else pure (some dir)
        match dir with
        | none => return none
        | some dir =>
            let inode ← dirLookup dir (cstr f.part)
            inodeClose dir
            return inode
    | _, _ => return none

/-- The end of `filesys_remove`. -/
def removeFrom (dir : Option UInt32) (part : NameBuf) : FsM Bool := do
  match dir with
  | none => return false
  | some dir =>
      let success ← dirRemove dir (cstr part)
      inodeClose dir
      return success

/-- `filesys_remove`: the result and the new `cwd`. -/
def filesysRemove (cwd : Option UInt32) (name : List UInt8) (part : NameBuf) :
    FsM (Bool × Option UInt32) := do
  let f ← outputFollowFilePath cwd name part
  match f.success, f.partIsDir, f.dir with
  | true, true, some dir =>
      if dir = rootDirSector then
        inodeClose dir
        return (false, cwd)
      else
        match cwd with
        | none => throw .badPointer
        | some inode =>
            let parent ← parentOf dir
            let success ← removeFrom parent f.part
            return (success, if dir = inode then none else cwd)
  | true, false, dir => return (← removeFrom dir f.part, cwd)
  | _, _, _ => return (false, cwd)

end CS162.Fs
