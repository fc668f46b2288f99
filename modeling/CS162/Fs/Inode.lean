/-
# `CS162.Fs.Inode` — `filesys/inode.c` and `filesys/free-map.c`

The two C files call each other: growing an inode allocates sectors, and each
allocation saves the free map through `inode_write_at` on its own inode.  The
circle is cut where the code cuts it.  The functions of `inode.c` that allocate
take `alloc` and `release` as parameters; while the free map's own inode is being
written its lock is held, and a second `bitmap_write` inside would acquire it
again, which is the assertion `lockHeld` (`allocHeld`, `releaseHeld`).

Sizes and offsets are `off_t`, never negative here, so they are natural numbers.
The differences `size - DIRECT_POINTER_SIZE` and `length - offset` may be negative
in C; they are then compared with numbers that are not, or tested for `<= 0`, and
truncated subtraction takes the same branches.  The one sum that can leave the
range of `off_t`, `offset + size` in `inode_write_at`, wraps (`offT`).

A pointer to an open inode is its sector.  `struct inode` values that are on no
list (the dummy of `inode_create`, the inode being closed) are passed as values.
`malloc` is taken to succeed.
-/
import CS162.Fs.Volume

namespace CS162.Fs

open Bytes

/-- `DIRECT_POINTER_SIZE`. -/
abbrev directPointerSize : Nat := 62976

/-- `MAX_FILE_LEN`. -/
abbrev maxFileLen : Nat := 8451584

/-- `INODE_MAGIC`. -/
def inodeMagic : UInt32 := 0x494e4f44

/-- `FREE_MAP_SECTOR`. -/
def freeMapSector : UInt32 := 0

/-- `ROOT_DIR_SECTOR`. -/
def rootDirSector : UInt32 := 1

theorem direct_lt {pos : Nat} (h : pos < directPointerSize) : pos / 512 < 123 := by
  simp only [directPointerSize] at h
  omega

theorem indirect_lt {pos : Nat} (h : pos < maxFileLen) :
    (pos - directPointerSize) / 65536 < 128 := by
  simp only [maxFileLen, directPointerSize] at h ⊢
  omega

/-- `inode_fetch_block`. -/
def inodeFetchBlock (id : InodeDisk) (pos : Nat) : FsM UInt32 := do
  if h : pos < directPointerSize then
    return id.directPointers ⟨pos / 512, direct_lt h⟩
  else if h : pos < maxFileLen then
    if id.doublyIndirect = unallocated then return unallocated
    else
      let pos' := pos - directPointerSize
      let doublyIndirectBuffer := Table.ofSector (← cacheRead id.doublyIndirect)
      let indirect := doublyIndirectBuffer ⟨pos' / 65536, indirect_lt h⟩
      if indirect = unallocated then return unallocated
      else
        let indirectBuffer := Table.ofSector (← cacheRead indirect)
        return indirectBuffer ⟨(pos' - pos' / 65536 * 65536) / 512, by omega⟩
  else return unallocated

/-! ## `inode_extend` -/

section Extend

variable (alloc : FsM (Option UInt32)) (release : UInt32 → FsM Unit)

/-- The two `if`s that `inode_extend` has for each pointer.  `past` says that the
new size does not reach the pointer's block; `fresh` is what a new block is filled
with.  `none` when allocation fails. -/
def fitPointer (past : Bool) (fresh : Sector) (pointer : UInt32) : FsM (Option UInt32) := do
  if past = true ∧ pointer ≠ unallocated then
    release pointer
    return some unallocated
  else if past = false ∧ pointer = unallocated then
    match ← alloc with
    | none => return none
    | some sector =>
        cacheWrite sector fresh
        return some sector
  else return some pointer

/-- A loop of `inode_extend` over an array of pointers to data blocks: whether it
ran to its end, and the array. -/
def fitPointers {n : Nat} (past : Fin n → Bool) :
    List (Fin n) → (Fin n → UInt32) → FsM (Bool × (Fin n → UInt32))
  | [], pointers => return (true, pointers)
  | i :: is, pointers => do
      match ← fitPointer alloc release (past i) zerosBlock (pointers i) with
      | none => return (false, pointers)
      | some pointer => fitPointers past is (Function.update pointers i pointer)

/-- The loop over the indirect blocks.  `size` is what remains after the direct
blocks; the array is the caller's copy of the doubly indirect block. -/
def fitIndirect (size : Nat) : List (Fin 128) → Table → FsM (Bool × Table)
  | [], buffer => return (true, buffer)
  | i :: is, buffer => do
      match ← fitPointer alloc release (size ≤ i * 128 * 512) unallocatedBlock (buffer i) with
      | none => return (false, buffer)
      | some pointer =>
          if pointer = unallocated then
            -- the `break`: blocks after this one are not looked at
            return (true, Function.update buffer i pointer)
          else
            let indirectBuffer := Table.ofSector (← cacheRead pointer)
            match ← fitPointers alloc release (fun j => decide (size ≤ i * 128 * 512 + j * 512))
                (List.finRange 128) indirectBuffer with
            | (false, _) => return (false, Function.update buffer i pointer)
            | (true, indirectBuffer) =>
                cacheWrite pointer (Table.toSector indirectBuffer)
                fitIndirect size is (Function.update buffer i pointer)

/-- The doubly indirect block, allocated if there is none: its sector and a copy of
it. -/
def fitDoublyIndirect (id : InodeDisk) : FsM (Option (UInt32 × Table)) := do
  if id.doublyIndirect = unallocated then
    match ← alloc with
    | none => return none
    | some sector =>
        cacheWrite sector unallocatedBlock
        return some (sector, fun _ => unallocated)
  else return some (id.doublyIndirect, Table.ofSector (← cacheRead id.doublyIndirect))

/-- The end of `inode_extend`: the new length, and the header written. -/
def finishExtend (sector : UInt32) (id : InodeDisk) (size : Nat) : FsM (Bool × InodeDisk) := do
  cacheWrite sector (id.setLen size).toSector
  return (true, id.setLen size)

/-- `inode_extend` up to the point where an allocation fails, if one does.  Returns
the inode in either case: its pointers are written as the loops go. -/
def inodeExtendOnce (sector : UInt32) (id : InodeDisk) (size : Nat) : FsM (Bool × InodeDisk) := do
  match ← fitPointers alloc release (fun i => decide (size ≤ 512 * i)) (List.finRange 123)
      id.directPointers with
  | (false, pointers) => return (false, { id with directPointers := pointers })
  | (true, pointers) =>
      let id := { id with directPointers := pointers }
      if id.doublyIndirect = unallocated ∧ size ≤ directPointerSize then
        finishExtend sector id size
      else
        match ← fitDoublyIndirect alloc id with
        | none => return (false, id)
        | some (doubly, buffer) =>
            let id := { id with doublyIndirect := doubly }
            match ← fitIndirect alloc release (size - directPointerSize) (List.finRange 128)
                buffer with
            | (false, _) => return (false, id)
            | (true, buffer) =>
                cacheWrite doubly (Table.toSector buffer)
                finishExtend sector id size

/-- `inode_extend`.  When an allocation fails it calls itself to go back to the
inode's length; `depth` is how many calls of it fit on the kernel stack. -/
def inodeExtend : Nat → UInt32 → InodeDisk → Nat → FsM (Bool × InodeDisk)
  | 0, _, _, _ => throw .stack
  | depth + 1, sector, id, size => do
      match ← inodeExtendOnce alloc release sector id size with
      | (true, id) => return (true, id)
      | (false, id) =>
          let (_, id) ← inodeExtend depth sector id id.len
          return (false, id)

end Extend

/-- A frame of `inode_extend` holds two 512-byte buffers, and a kernel stack is less
than 4 kB. -/
def extendDepth : Nat := 3

/-! ## Reading and writing -/

/-- The open inode a pointer points to. -/
def findInode (sector : UInt32) : FsM Inode := do
  match (← get).openInodes.find? fun i => i.sector == sector with
  | some inode => return inode
  | none => throw .badPointer

/-- Write through a pointer to an open inode. -/
def putInode (inode : Inode) : FsM Unit :=
  modify fun fs => { fs with
    openInodes := fs.openInodes.map fun i => if i.sector = inode.sector then inode else i }

/-- The full-sector and the partial-sector path of `inode_read_at`. -/
def readChunk (sectorIdx : UInt32) (sectorOfs chunkSize : Nat) : FsM (List UInt8) := do
  if sectorOfs = 0 ∧ chunkSize = 512 then return (← cacheRead sectorIdx).slice 0 512
  else cacheReadLenFs sectorIdx sectorOfs chunkSize

/-- The loop of `inode_read_at`; it runs at most `size` times. -/
def inodeReadLoop (id : InodeDisk) : Nat → Nat → Nat → List UInt8 → FsM (List UInt8)
  | 0, _, _, buffer => return buffer
  | fuel + 1, size, offset, buffer => do
      if size = 0 then return buffer
      else
        let sectorIdx ← inodeFetchBlock id offset
        if sectorIdx = unallocated then return buffer
        else
          let sectorOfs := offset % 512
          let minLeft := min (id.len - offset) (512 - sectorOfs)
          let chunkSize := min size minLeft
          if chunkSize = 0 then return buffer
          else
            let chunk ← readChunk sectorIdx sectorOfs chunkSize
            inodeReadLoop id fuel (size - chunkSize) (offset + chunkSize) (buffer ++ chunk)

/-- `inode_read_at`: the bytes read, as many as the C function's return value. -/
def inodeReadAt (sector : UInt32) (size offset : Nat) : FsM (List UInt8) := do
  let inode ← findInode sector
  inodeReadLoop inode.data size size offset []

/-- The full-sector and the partial-sector path of `inode_write_at`. -/
def writeChunk (sectorIdx : UInt32) (sectorOfs : Nat) (chunk : List UInt8) : FsM Unit :=
  if sectorOfs = 0 ∧ chunk.length = 512 then cacheWrite sectorIdx (Block.ofList chunk)
  else cacheWriteLenFs sectorIdx sectorOfs chunk

/-- The loop of `inode_write_at`; it runs at most `size` times. -/
def inodeWriteLoop (id : InodeDisk) : Nat → List UInt8 → Nat → Nat → FsM Nat
  | 0, _, _, bytesWritten => return bytesWritten
  | fuel + 1, buffer, offset, bytesWritten => do
      if buffer.length = 0 then return bytesWritten
      else
        let sectorIdx ← inodeFetchBlock id offset
        let sectorOfs := offset % 512
        let minLeft := min (id.len - offset) (512 - sectorOfs)
        let chunkSize := min buffer.length minLeft
        if chunkSize = 0 then return bytesWritten
        else
          writeChunk sectorIdx sectorOfs (buffer.take chunkSize)
          inodeWriteLoop id fuel (buffer.drop chunkSize) (offset + chunkSize)
            (bytesWritten + chunkSize)

/-- A sum of two numbers of type `off_t`. -/
def offT (n : Nat) : Int := if n < 2 ^ 31 then n else n - 2 ^ 32

/-- `inode_write_at`, given what `inode_extend` allocates and releases with. -/
def inodeWriteAtWith (alloc : FsM (Option UInt32)) (release : UInt32 → FsM Unit)
    (sector : UInt32) (buffer : List UInt8) (offset : Nat) : FsM Nat := do
  let inode ← findInode sector
  if inode.denyWriteCnt ≠ 0 then return 0
  else
    let neededAtLeast := offT (offset + buffer.length)
    if neededAtLeast > inode.data.len then
      let (success, id) ← inodeExtend alloc release extendDepth sector inode.data
        neededAtLeast.toNat
      putInode { inode with data := id }
      if success = true then inodeWriteLoop id buffer.length buffer offset 0
      else return 0
    else inodeWriteLoop inode.data buffer.length buffer offset 0

/-! ## The free map -/

/-- `free_map_allocate`, given `bitmap_write`. -/
def freeMapAllocateWith (bitmapWrite : FsM Bool) (cnt : Nat) : FsM (Option UInt32) := do
  match bitmapScanAndFlip (← get).freeMap 0 cnt false with
  | none =>
      modify fun fs => { fs with allocFailed := true }
      return none
  | some (sector, freeMap) =>
      modify fun fs => { fs with freeMap := freeMap }
      if (← get).freeMapFile = false then return some (UInt32.ofNat sector)
      else
        if ← bitmapWrite then return some (UInt32.ofNat sector)
        else
          modify fun fs => { fs with
            freeMap := bitmapSetMultiple fs.freeMap sector cnt false, allocFailed := true }
          return none

/-- `free_map_release`, given `bitmap_write`. -/
def freeMapReleaseWith (bitmapWrite : FsM Bool) (sector : UInt32) (cnt : Nat) : FsM Unit := do
  let freeMap := (← get).freeMap
  if freeMap.bitCnt < sector.toNat + cnt then throw .bitmapRange
  else if bitmapAll freeMap sector.toNat cnt = false then throw .bitmapAll
  else
    modify fun fs => { fs with freeMap := bitmapSetMultiple freeMap sector.toNat cnt false }
    if (← get).freeMapFile = false then throw .badPointer
    else
      let _ ← bitmapWrite
      return ()

/-- `free_map_allocate (1, …)` by a caller that holds the lock of the free map's
inode. -/
def allocHeld : FsM (Option UInt32) := freeMapAllocateWith (throw .lockHeld) 1

/-- `free_map_release (…, 1)` by such a caller. -/
def releaseHeld (sector : UInt32) : FsM Unit := freeMapReleaseWith (throw .lockHeld) sector 1

/-- `bitmap_write (free_map, free_map_file)`. -/
def bitmapWrite : FsM Bool := do
  let freeMap := (← get).freeMap
  let written ← inodeWriteAtWith allocHeld releaseHeld freeMapSector (bitmapBytes freeMap) 0
  return written = byteCnt freeMap.bitCnt

/-- `free_map_allocate`. -/
def freeMapAllocate (cnt : Nat) : FsM (Option UInt32) := freeMapAllocateWith bitmapWrite cnt

/-- `free_map_release`. -/
def freeMapRelease (sector : UInt32) (cnt : Nat) : FsM Unit :=
  freeMapReleaseWith bitmapWrite sector cnt

/-! ## `inode.c` over the free map -/

/-- `inode_write_at`: the number of bytes written. -/
def inodeWriteAt (sector : UInt32) (buffer : List UInt8) (offset : Nat) : FsM Nat :=
  if sector = freeMapSector then inodeWriteAtWith allocHeld releaseHeld sector buffer offset
  else inodeWriteAtWith (freeMapAllocate 1) (freeMapRelease · 1) sector buffer offset

/-- `inode_extend` by a caller that holds no lock. -/
def extend (sector : UInt32) (id : InodeDisk) (size : Nat) : FsM (Bool × InodeDisk) :=
  inodeExtend (freeMapAllocate 1) (freeMapRelease · 1) extendDepth sector id size

/-- The struct `inode_create` first writes: all ones, but for length and magic. -/
def freshInode (length : Nat) : InodeDisk where
  directPointers _ := unallocated
  doublyIndirect := unallocated
  isDir := -1
  length := Int32.ofNat length
  children := -1
  magic := inodeMagic

/-- The struct it then extends: `disk_inode->children = 0`. -/
def newInode (length : Nat) : InodeDisk := { freshInode length with children := 0 }

/-- `inode_create`. -/
def inodeCreate (sector : UInt32) (length : Nat) : FsM Bool := do
  cacheWrite sector (freshInode length).toSector
  let _ ← extend sector (newInode length) length
  return true

/-- `free_map_allocate (1, &s)` and, if there was a sector, `inode_create (s, length)`. -/
def createInode (length : Nat) : FsM (Option UInt32) := do
  match ← freeMapAllocate 1 with
  | none => return none
  | some s =>
      let _ ← inodeCreate s length
      return some s

/-- `inode_reopen`. -/
def inodeReopen (sector : UInt32) : FsM Unit := do
  let inode ← findInode sector
  putInode { inode with openCnt := inode.openCnt + 1 }

/-- `inode_open`; the pointer it returns is `sector`. -/
def inodeOpen (sector : UInt32) : FsM Unit := do
  if (← get).openInodes.any fun i => i.sector == sector then inodeReopen sector
  else
    let data := InodeDisk.ofSector (← cacheRead sector)
    modify fun fs => { fs with openInodes := ⟨sector, 1, false, 0, data⟩ :: fs.openInodes }

/-- `inode_remove`. -/
def inodeRemove (sector : UInt32) : FsM Unit := do
  let inode ← findInode sector
  putInode { inode with removed := true }

/-- The blocks of a removed inode, given back when its last opener closes it. -/
def releaseBlocks (inode : Inode) : FsM InodeDisk := do
  if inode.removed = true then
    freeMapRelease inode.sector 1
    let (_, id) ← extend inode.sector inode.data 0
    return id
  else return inode.data

/-- `inode_close`. -/
def inodeClose (sector : UInt32) : FsM Unit := do
  let inode ← findInode sector
  if inode.openCnt = 1 then
    modify fun fs => { fs with openInodes := fs.openInodes.filter fun i => i.sector != sector }
    let data ← releaseBlocks inode
    cacheWrite sector data.toSector
  else putInode { inode with openCnt := inode.openCnt - 1 }

/-- `inode_set_dir`. -/
def inodeSetDir (sector : UInt32) (isDir : Bool) : FsM Unit := do
  let inode ← findInode sector
  putInode { inode with data := { inode.data with isDir := if isDir then 1 else 0 } }

/-! ## Formatting -/

/-- `free_map_init`. -/
def freeMapInit (size : UInt32) : Bitmap :=
  bitmapSet (bitmapSet (bitmapCreate size.toNat) freeMapSector.toNat true) rootDirSector.toNat true

/-- The file system before `do_format` or `free_map_open`. -/
def bootFs (dev : BlockDev) : FsState where
  buffCache := CalmCache.init dev
  freeMap := freeMapInit dev.size
  freeMapFile := false
  openInodes := []
  allocFailed := false

/-- The sector `free_map_create` takes for the first block of the free map. -/
def takeMapBlock : FsM UInt32 := do
  match bitmapScanAndFlip (← get).freeMap 2 1 false with
  | none => return unallocated
  | some (sector, freeMap) =>
      modify fun fs => { fs with freeMap := freeMap }
      return UInt32.ofNat sector

/-- `free_map_create`. -/
def freeMapCreate : FsM Unit := do
  let _ ← inodeCreate freeMapSector (byteCnt (← get).freeMap.bitCnt)
  inodeOpen freeMapSector
  modify fun fs => { fs with freeMapFile := true }
  let sector ← takeMapBlock
  let inode ← findInode freeMapSector
  let id := { inode.data with
    directPointers := Function.update inode.data.directPointers 0 sector }.setLen 512
  putInode { inode with data := id }
  cacheWrite freeMapSector id.toSector
  if ← bitmapWrite then return () else throw .fatal

/-- `free_map_open`, with `bitmap_read`. -/
def freeMapOpen : FsM Unit := do
  inodeOpen freeMapSector
  modify fun fs => { fs with freeMapFile := true }
  let bitCnt := (← get).freeMap.bitCnt
  if 0 < bitCnt then
    let bytes ← inodeReadAt freeMapSector (byteCnt bitCnt) 0
    if bytes.length = byteCnt bitCnt then
      modify fun fs => { fs with freeMap := bitmapOfBytes bitCnt bytes }
    else throw .fatal

/-- `do_format`. -/
def doFormat : FsM Unit := do
  freeMapCreate
  let _ ← inodeCreate rootDirSector 0
  inodeOpen rootDirSector
  inodeSetDir rootDirSector true
  inodeClose rootDirSector
  inodeClose freeMapSector

/-- `filesys_init (true)`; the root stays open as the first thread's `cwd`. -/
def filesysInit : FsM Unit := do
  doFormat
  freeMapOpen
  inodeOpen rootDirSector

end CS162.Fs
