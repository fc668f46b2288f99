/-
# `CS162.Fs.MapDisk` — the words of the free map on the disk

`CS162.Fs.BitmapElems` leaves open what file the free map is saved to.  In the kernel it is the
inode in sector `FREE_MAP_SECTOR`, and `file_write_at` and `file_read_at` come down to
`inode_write_at` and `inode_read_at` (`mapFile`).  In every state that a run of calls reaches on a
formatted disk this file can be written (`mapFile_writable`): it is open, it is not denied, and it
has all its sectors, so that no write of the map's bytes allocates one.  The calls on the words of
the map therefore do on the disk what they do with any such file (`mapFile_accounted`).
-/
import CS162.Fs.BitmapElems
import CS162.Fs.Runs

namespace CS162.Fs

open Bytes Wp

/-- `free_map_file`, in a state of the file system; a call that stops the kernel moves no bytes. -/
def mapFile : Elem.FileOps FsState where
  readAt fs n := (returnedValue (inodeReadAt freeMapSector n 0) fs).getD []
  writeAt fs bytes := ((returnedValue (inodeWriteAt freeMapSector bytes 0) fs).getD 0,
    afterCall (inodeWriteAt freeMapSector bytes 0) fs)

variable {v : Vol} {E : Panic → Vol → Prop} {id₀ : InodeDisk} {m₀ : Slot → UInt32}

/-- The bytes of the map can be read from its file. -/
theorem MapOk.read (h : MapOk id₀ m₀ v) :
    vwp (inodeReadAt freeMapSector (byteCnt v.freeMap.bitCnt) 0) (fun r v' => v' = v ∧
      r = bytesAt v.disk m₀ 0 (byteCnt v.freeMap.bitCnt)) E v := by
  obtain ⟨i, hi, rfl, -⟩ := h.isOpen
  have hlen := h.len
  have hmax := h.max
  have hview := h.view
  refine wpOn_seq (vwp_findInode (Q := fun k v' => k = i ∧ v' = v) hi ⟨rfl, rfl⟩) ?_
  rintro k v' ⟨rfl, rfl⟩
  refine wpOn_weaken (inodeReadLoop_spec (hview ▸ h.distinct) _ le_rfl fun p _ hlt _ => ?_) ?_
  · have hpm : p < maxFileLen := by omega
    refine ⟨hpm, ?_⟩
    rw [hview]
    refine h.full _ ?_
    rw [Slot.base_ofPos hpm]
    omega
  · rintro r v' ⟨rfl, rfl⟩
    rw [hview, List.nil_append, Nat.sub_zero, Nat.min_eq_left hlen]
    exact ⟨rfl, rfl⟩

/-- A write of as many bytes as the map has, to its file. -/
theorem MapOk.writeAt {fs : FsState} (h : MapOk id₀ m₀ fs.vol) {bytes : List UInt8}
    (hlen : bytes.length = byteCnt fs.vol.freeMap.bitCnt) :
    (mapFile.writeAt fs bytes).1 = bytes.length ∧
      Saved id₀ m₀ bytes fs.vol (mapFile.writeAt fs bytes).2.vol := by
  have hspec : vwp (inodeWriteAt freeMapSector bytes 0) (fun r v' =>
      r = bytes.length ∧ Saved id₀ m₀ bytes fs.vol v') (fun _ _ => False) fs.vol := by
    unfold inodeWriteAt
    rw [if_pos rfl]
    exact h.write hlen
  rcases wpOn_run hspec with ⟨r, fs', hrun, rfl, hsaved⟩ | ⟨_, _, -, hno⟩
  · unfold mapFile returnedValue afterCall
    simp only [hrun, Option.getD_some]
    exact ⟨trivial, hsaved⟩
  · exact hno.elim

theorem MapOk.readAt {fs : FsState} (h : MapOk id₀ m₀ fs.vol) :
    mapFile.readAt fs (byteCnt fs.vol.freeMap.bitCnt) =
      bytesAt fs.vol.disk m₀ 0 (byteCnt fs.vol.freeMap.bitCnt) := by
  rcases wpOn_run (h.read (E := fun _ _ => False)) with ⟨r, fs', hrun, -, rfl⟩ | ⟨_, _, -, hno⟩
  · unfold mapFile returnedValue
    simp only [hrun, Option.getD_some]
  · exact hno.elim

/-- What has been saved is read. -/
theorem Saved.bytesAt {bytes : List UInt8} {v' : Vol} (h : Saved id₀ m₀ bytes v v') :
    bytesAt v'.disk m₀ 0 bytes.length = bytes := by
  refine List.ext_getElem (by simp [Fs.bytesAt]) fun p hp hp' => ?_
  have hbyte := h.bytes p hp'
  rw [List.getD_eq_getElem?_getD, List.getElem?_eq_getElem hp'] at hbyte
  simpa [Fs.bytesAt] using hbyte

/-- The states in which the map's file is as `id₀` and `m₀` say. -/
theorem MapOk.writable (id₀ : InodeDisk) (m₀ : Slot → UInt32) (n : Nat) :
    mapFile.Writable n fun fs => MapOk id₀ m₀ fs.vol ∧ byteCnt fs.vol.freeMap.bitCnt = n := by
  have hsame : ∀ {fs fs' : FsState} {bytes : List UInt8}, Saved id₀ m₀ bytes fs.vol fs'.vol →
      fs'.vol.freeMap = fs.vol.freeMap := by
    intro fs fs' bytes hsaved
    obtain ⟨d, hd⟩ := hsaved.rest
    rw [hd]
  refine ⟨?_, ?_, ?_⟩
  · rintro fs bytes ⟨hok, rfl⟩ hlen
    exact (hok.writeAt hlen).1.trans hlen
  · rintro fs bytes ⟨hok, rfl⟩ hlen
    have hsaved := (hok.writeAt hlen).2
    have hread := hsaved.ok.readAt
    rwa [hsame hsaved, ← hlen, hsaved.bytesAt, hlen] at hread
  · rintro fs bytes ⟨hok, rfl⟩ hlen
    have hsaved := (hok.writeAt hlen).2
    exact ⟨hsaved.ok, by rw [hsame hsaved]⟩

theorem Elem.byteCnt_eq (b : Elem.Map) :
    (Elem.byteCnt b.bitCnt).toNat = Fs.byteCnt b.bitCnt.toNat := by
  rw [b.byteCnt_toNat, b.length, b.elemCnt_toNat]
  rfl

section

variable {dev : BlockDev} {fs : FsState} {live : Set UInt32} {b : Elem.Map}

/-- In every state a run reaches, the free map's file is one that can be written. -/
theorem mapFile_writable (h : Reach dev fs live) (hb : b.bitCnt.toNat = fs.freeMap.bitCnt) :
    ∃ W, mapFile.Writable (Elem.byteCnt b.bitCnt).toNat W ∧ W fs := by
  have hinv := h.inv
  refine ⟨_, MapOk.writable _ _ _, hinv.owned.mapOk hinv.mapLive hinv.map, ?_⟩
  rw [Elem.byteCnt_eq, hb]
  rfl

/-- And so any calls on the words of the map, saved to that file, mark the sectors of the runs they
have given out and no others. -/
theorem mapFile_accounted (h : Reach dev fs live) (hb : b.bitCnt.toNat = fs.freeMap.bitCnt)
    {st : Elem.FreeMap FsState} {runs : List (UInt32 × UInt32)}
    (hruns : Elem.Runs mapFile ⟨b, some fs⟩ st runs) : Elem.Accounted ⟨b, some fs⟩ st runs := by
  obtain ⟨W, hw, hfs⟩ := mapFile_writable h hb
  generalize hst : (⟨b, some fs⟩ : Elem.FreeMap FsState) = st₀ at hruns ⊢
  have hmap : st₀.freeMap = b := by rw [← hst]
  have hfile : ∃ file ∈ st₀.freeMapFile, W file := by
    rw [← hst]
    exact ⟨fs, Option.mem_some_self fs, hfs⟩
  rw [← hmap] at hw
  exact (hruns.accounted hw hfile).1

end

end CS162.Fs
