/-
# `CS162.Fs.Format` — the state `filesys_init (true)` leaves behind

Formatting builds the free map's inode with the free map itself, before there is a
file to save it in; gives it a new first block; saves the map; makes the root
directory; closes everything and reads the map back from the disk.

The boot map has sectors 0 and 1 marked.  `free_map_create` ends with the invariant
for the free map's inode alone (`freeMapCreate_spec`).  From there on every step
keeps `Formatting`: the invariant, and that the file says what the map in memory
says.  So what is read back is the same map (`freeMapOpen_spec`), and the file
system starts in a state of the invariant, with the two inodes live
(`filesysInit_spec`).
-/
import CS162.Fs.Handles

namespace CS162.Fs

open Bytes Wp

variable {v v' : Vol} {L : Set UInt32} {s t : UInt32} {i j : Inode} {E : Panic → Vol → Prop}

/-! ## The free map's file -/

/-- The file has the bits that are in memory. -/
def MapSaved (v : Vol) : Prop := ∀ p, p < byteCnt v.freeMap.bitCnt →
  byteAt v.disk (v.pointers freeMapSector) p = (bitmapBytes v.freeMap).getD p 0

theorem MapSaved.congr (h : MapSaved v) (hmap : v'.freeMap = v.freeMap)
    (hp : v'.pointers freeMapSector = v.pointers freeMapSector)
    (hdisk : ∀ a, v.pointers freeMapSector a ≠ unallocated →
      v'.disk (v.pointers freeMapSector a) = v.disk (v.pointers freeMapSector a)) :
    MapSaved v' := by
  intro p hlt
  rw [hmap] at hlt ⊢
  rw [hp, byteAt_congr fun hu => hdisk _ hu]
  exact h p hlt

/-- Between `free_map_create` and the close of the free map's inode. -/
structure Formatting (v : Vol) (L : Set UInt32) : Prop where
  inv : FsInv v L
  saved : MapSaved v
  only : ∃ i, inodeIn v.openInodes freeMapSector = some i ∧ i.openCnt = 1 ∧ i.removed = false

namespace Formatting

theorem opened (h : Formatting v L) (hs : s ∈ L) (h0 : s ≠ freeMapSector) :
    Formatting (v.opened s) L := by
  refine ⟨h.inv.opened hs, h.saved.congr rfl pointers_opened fun _ _ => rfl, ?_⟩
  rw [inodeIn_opened_other (Ne.symm h0)]
  exact h.only

theorem update (h : Formatting v L) (h0 : s ≠ freeMapSector)
    (hinv : FsInv { v with openInodes := setInode v.openInodes j } L) (hj : j.sector = s) :
    Formatting { v with openInodes := setInode v.openInodes j } L := by
  have hother : inodeIn (setInode v.openInodes j) freeMapSector
      = inodeIn v.openInodes freeMapSector := inodeIn_setInode_other (by rw [hj]; exact h0)
  refine ⟨hinv, h.saved.congr rfl ?_ fun _ _ => rfl, ?_⟩
  · unfold Vol.pointers Vol.header
    rw [hother]
  · rw [hother]
    exact h.only

/-- Closing another inode leaves a disk that is being formatted in that state. -/
theorem putBack (h : Formatting v L) (hi : inodeIn v.openInodes s = some i)
    (h0 : s ≠ freeMapSector) : Formatting (v.putBack i) L := by
  have hs := (h.inv.opens s i hi).1
  have hmapL : freeMapSector ∈ L \ {s} := ⟨h.inv.mapLive, Ne.symm h0⟩
  have hk := h.inv.owned.putBack_kept hs hi
  refine ⟨h.inv.putBack hi h0, h.saved.congr rfl ?_ ?_, ?_⟩
  · exact hk.pointers (h.inv.owned.mono Set.sdiff_subset) hmapL
  · exact fun a _ => h.inv.owned.disk_putBack hs hi h.inv.mapLive a
  · rw [hk.opens _ hmapL]
    exact h.only

end Formatting

/-! ## An empty inode

Extending an inode without blocks to size 0 does nothing but write its header. -/

/-- A loop over pointers that are all past the end does nothing. -/
theorem fitPointers_nothing {n : Nat} (alloc : FsM (Option UInt32)) (release : UInt32 → FsM Unit)
    {past : Fin n → Bool} (hpast : ∀ k, past k = true) :
    ∀ l : List (Fin n), fitPointers alloc release past l (fun _ => unallocated)
      = pure (true, fun _ => unallocated) := by
  intro l
  induction l with
  | nil => rfl
  | cons k l ih =>
      have hup : Function.update (fun _ : Fin n => unallocated) k unallocated
          = fun _ => unallocated := Function.update_eq_self k _
      unfold fitPointers fitPointer
      simp only [hpast k, ne_eq, not_true_eq_false, and_false, if_false, Bool.true_eq_false,
        false_and, pure_bind]
      rw [hup]
      exact ih

/-- With no blocks to begin with and none to have, `inode_extend` only writes the header. -/
theorem extend_nothing (s : UInt32) {id : InodeDisk} (hd : id.directPointers = fun _ => unallocated)
    (hq : id.doublyIndirect = unallocated) :
    extend s id 0 = do
      cacheWrite s (id.setLen 0).toSector
      return (true, id.setLen 0) := by
  obtain ⟨direct, doubly, isDir, length, children, magic⟩ := id
  subst hd
  subst hq
  have honce : inodeExtendOnce (freeMapAllocate 1) (freeMapRelease · 1) s
      ⟨fun _ => unallocated, unallocated, isDir, length, children, magic⟩ 0
      = finishExtend s ⟨fun _ => unallocated, unallocated, isDir, length, children, magic⟩ 0 := by
    unfold inodeExtendOnce
    rw [fitPointers_nothing _ _ (fun k => by simp)]
    simp only [pure_bind, true_and, Nat.zero_le, if_true]
  unfold extend extendDepth inodeExtend
  rw [honce]
  simp only [finishExtend, bind_assoc, pure_bind]

/-- `inode_create` of length 0 writes the header twice and allocates nothing; so it does not save the
map, which has no file yet. -/
theorem vwp_inodeCreate_empty {Q : Bool → Vol → Prop} (hs : s < v.size)
    (h : Q true ((v.write s (freshInode 0).toSector).write s ((newInode 0).setLen 0).toSector)) :
    vwp (inodeCreate s 0) Q E v := by
  refine wpOn_seq (vwp_cacheWrite (Q := fun _ v' => v' = v.write s (freshInode 0).toSector) hs
    rfl) ?_
  rintro - v₁ rfl
  rw [extend_nothing s rfl rfl]
  simp only [bind_assoc, pure_bind]
  refine wpOn_seq (vwp_cacheWrite (Q := fun _ v' => v' =
    (v.write s (freshInode 0).toSector).write s ((newInode 0).setLen 0).toSector) hs rfl) ?_
  rintro - v₂ rfl
  exact wpOn_pure h

/-! ## `free_map_create` -/

/-- The map before formatting. -/
theorem freeMapInit_used (size x : UInt32) :
    (freeMapInit size).Used x ↔ x < size ∧ (x = freeMapSector ∨ x = rootDirSector) := by
  have h0 : x = freeMapSector ↔ x.toNat = 0 := UInt32.toNat_inj.symm
  have h1 : x = rootDirSector ↔ x.toNat = 1 := UInt32.toNat_inj.symm
  unfold Bitmap.Used freeMapInit
  rw [bitmapSet_bits, bitmapSet_bits, h0, h1, UInt32.lt_iff_toNat_lt]
  refine and_congr Iff.rfl ?_
  have e0 : freeMapSector.toNat = 0 := rfl
  have e1 : rootDirSector.toNat = 1 := rfl
  rw [e0, e1]
  by_cases hx1 : x.toNat = 1
  · simp [hx1]
  · by_cases hx0 : x.toNat = 0
    · simp [hx0]
    · simp [hx0, hx1, bitmapCreate]

/-- The sector taken for the first block is one that was free, or there was none. -/
theorem vwp_takeMapBlock {Q : UInt32 → Vol → Prop} (hcnt : v.freeMap.bitCnt = v.size.toNat)
    (hnone : Q unallocated v)
    (hsome : ∀ x : UInt32, x.toNat < v.freeMap.bitCnt → v.freeMap.bits x.toNat = false →
      Q x { v with freeMap := bitmapSet v.freeMap x.toNat true }) : vwp takeMapBlock Q E v := by
  refine wpOn_get ?_
  rintro fs rfl
  have hfm : fs.freeMap = fs.vol.freeMap := rfl
  rw [hfm]
  cases hscan : bitmapScanAndFlip fs.vol.freeMap 2 1 false with
  | none => exact wpOn_pure hnone
  | some sb =>
      obtain ⟨sector, b⟩ := sb
      obtain ⟨-, hlt, hfree, rfl⟩ := bitmapScanAndFlip_some hscan
      have hx : (UInt32.ofNat sector).toNat = sector := by
        rw [UInt32.toNat_ofNat_of_lt']
        rw [hcnt] at hlt
        exact hlt.trans fs.vol.size.toNat_lt
      have hs := hsome (UInt32.ofNat sector) (by rw [hx]; exact hlt) (by rw [hx]; exact hfree)
      rw [hx] at hs
      refine wpOn_seq (wpOn_modify (Q := fun _ v' =>
        v' = { fs.vol with freeMap := bitmapSet fs.vol.freeMap sector true }) ?_) ?_
      · intro fs' hfs'
        rw [← hfs']
        rfl
      rintro - v' rfl
      exact wpOn_pure hs

/-- Another first pointer changes nothing else. -/
theorem pointerAt_first (disk : UInt32 → Sector) (id : InodeDisk) (q : UInt32) :
    pointerAt disk { id with directPointers := Function.update id.directPointers 0 q }
      = Function.update (pointerAt disk id) (.direct 0) q := by
  funext a
  cases a with
  | direct k =>
      by_cases hk : k = 0
      · subst hk
        simp [pointerAt]
      · rw [Function.update_of_ne (by simpa using hk)]
        exact Function.update_of_ne hk _ _
  | doubly => rfl
  | indirect k => rfl
  | data k l => rfl

/-- `free_map_create` just before it saves the map: one open inode, its length 512, some
blocks that are its own. -/
structure MapReady (v : Vol) (i : Inode) : Prop where
  isOpen : v.openInodes = [i]
  inode : i = ⟨freeMapSector, 1, false, 0, i.data⟩
  len : i.data.len = 512
  sound : Sound (fun x => x = freeMapSector ∨ x = rootDirSector) v.freeMap (pointerAt v.disk i.data)
  held : ∀ x, (x = freeMapSector ∨ x = rootDirSector) → v.freeMap.Used x
  blank : Blank v.disk (pointerAt v.disk i.data) 512
  bitCnt : v.freeMap.bitCnt = v.size.toNat
  file : v.freeMapFile = true

theorem byteCnt_lt (size : UInt32) : byteCnt size.toNat < 2 ^ 31 := by
  have := size.toNat_lt
  unfold byteCnt
  omega

/-- With 512 bytes only the first block matters. -/
theorem full_first {m : Slot → UInt32} (h : m (.ofPos 0) ≠ unallocated) : Full m 512 := by
  intro a ha
  cases a with
  | direct k =>
      simp only [Slot.base] at ha
      have hk : k = 0 := Fin.ext (by show k.val = 0; omega)
      rw [hk]
      exact h
  | doubly =>
      simp only [Slot.base] at ha
      omega
  | indirect k =>
      simp only [Slot.base] at ha
      omega
  | data k l =>
      simp only [Slot.base] at ha
      omega

theorem Owned.empty (h : v.freeMap.bitCnt = v.size.toNat) : Owned v ∅ where
  bitCnt := h
  header _ hs := hs.elim
  used _ hs := hs.elim
  apart _ hs := hs.elim
  inj _ hs := hs.elim
  full _ hs := hs.elim
  blank _ hs := hs.elim

/-- The map is saved for the first time.  If this write comes back with all of its bytes then it has
allocated nothing, since an allocation would ask for the lock that it holds; so the file has the bits
that are in memory. -/
theorem MapReady.save (h : MapReady v i) (hE : ∀ e v', E e v') :
    vwp bitmapWrite (fun r v' => r = true → (Formatting v' {freeMapSector} ∧
      v'.freeMap.Used rootDirSector ∧ ¬ Foreign v' {freeMapSector} rootDirSector) ∧
      v'.freeMap = v.freeMap) E v := by
  refine wpOn_get ?_
  rintro fs rfl
  have hfm : fs.freeMap = fs.vol.freeMap := rfl
  rw [hfm]
  have hsec : i.sector = freeMapSector := by rw [h.inode]
  have hi : inodeIn fs.vol.openInodes freeMapSector = some i := by
    rw [h.isOpen]
    exact inodeIn_cons_self hsec
  have hpos : 0 < fs.vol.freeMap.bitCnt := lt_of_le_of_lt (Nat.zero_le _) (h.held _ (Or.inl rfl)).1
  have hlen : (bitmapBytes fs.vol.freeMap).length = byteCnt fs.vol.freeMap.bitCnt :=
    length_bitmapBytes
  have hlt : byteCnt fs.vol.freeMap.bitCnt < 2 ^ 31 := by
    rw [h.bitCnt]
    exact byteCnt_lt _
  have hbytes : 0 < byteCnt fs.vol.freeMap.bitCnt := by
    unfold byteCnt
    omega
  refine wpOn_seq (inodeWriteAtWith_spec (heldMap_spec fs.vol.freeMap (hE _))
    (fun _ hx => hx.elim) (fun _ hx => hx.elim) (Or.inl rfl) (fun hx => hx.elim)
    (W := fun _ => True) trivial (.inr fun _ _ => hE _ _) hi ⟨rfl, h.bitCnt, h.file⟩ h.sound h.held
    (by rw [hlen]; exact hlt) (Nat.two_pow_pos 31) (Or.inr (hE _))) ?_
  rintro r v' ⟨id', hd, ⟨u, hu, hmap⟩, hout⟩
  refine wpOn_pure fun hr => ?_
  have hr' : r = byteCnt fs.vol.freeMap.bitCnt := of_decide_eq_true hr
  have hbits : v'.freeMap = fs.vol.freeMap := hmap.trans hu.bits
  have hdeny : i.denyWriteCnt = 0 := by rw [h.inode]
  have hlen' : byteCnt fs.vol.freeMap.bitCnt ≤ id'.len := by
    rcases hout hdeny (by rw [hlen, Nat.zero_add]; exact hlt) with ⟨-, hl⟩ | ⟨h0, -⟩
    · rw [hl, hlen]
      omega
    · omega
  have hh := Vol.header_open hd.self
  have hp : v'.pointers freeMapSector = pointerAt v'.disk id' := by rw [Vol.pointers, hh]
  have hfull : Full (pointerAt v'.disk id') id'.len := by
    have hgrown := hd.grown
    rw [h.len] at hgrown
    rcases hgrown.lt_or_eq with hgt | heq
    · exact hd.full (Or.inr (by rw [h.len]; exact hgt))
    · rw [← heq]
      exact full_first (hd.there 0 (by omega) (by omega)).2
  have hcnt : v'.freeMap.bitCnt = v'.size.toNat := by
    rw [hd.bitCnt, h.bitCnt, hd.size]
  have hnot : ∀ x, ¬ Foreign v' ∅ x := by
    rintro x (hx | ⟨t, ht, -⟩)
    · exact hx
    · exact ht
  have howned : Owned v' {freeMapSector} := by
    have hin := (Owned.empty hcnt).insert (s := freeMapSector) (fun hc => hc)
      (hd.held _ (Or.inl rfl)) (hnot _) ?_ ?_ (fun h0 => absurd rfl h0)
    · rwa [insert_empty_eq] at hin
    · rw [hp]
      refine ⟨hd.sound.used, fun a ha hc => ?_, hd.sound.inj⟩
      exact hd.sound.apart a ha (Or.inl (hc.resolve_right (hnot _)))
    · rw [hp, hh]
      exact hfull
  refine ⟨⟨⟨⟨howned, rfl, ⟨?_, ⟨_, hd.self, hdeny, ?_⟩, ?_⟩, ?_⟩, ?_, ⟨_, hd.self, ?_, ?_⟩⟩,
    hd.held _ (Or.inr rfl), ?_⟩, hbits⟩
  · exact hd.file.trans h.file
  · rw [hbits]
    exact hlen'
  · have hlast := (hd.there (byteCnt fs.vol.freeMap.bitCnt - 1) (by omega) (by omega)).1
    rw [hbits]
    omega
  · intro t k hk
    by_cases ht : t = freeMapSector
    · rw [ht, hd.self] at hk
      cases hk
      refine ⟨ht, ?_⟩
      rw [h.inode]
      exact Nat.one_pos
    · have hnone : inodeIn fs.vol.openInodes t = none := by
        rw [h.isOpen, inodeIn_cons_other (by rw [hsec]; exact Ne.symm ht)]
        rfl
      rw [hd.others t ht, hnone] at hk
      cases hk
  · intro p hlt'
    rw [hbits] at hlt' ⊢
    rw [hp, (hd.bytes (by rw [h.len]; exact h.blank)).2 p, if_pos ⟨by omega, by omega⟩,
      Nat.sub_zero]
  · rw [h.inode]
  · rw [h.inode]
  · rintro (hx | ⟨t, ht, a, hau, he⟩)
    · cases hx
    · rw [Set.mem_singleton_iff] at ht
      rw [ht, hp] at hau he
      exact hd.sound.apart a hau (Or.inr he)

/-- The inode `free_map_create` starts from, and its new first block. -/
theorem MapReady.of_first {id : InodeDisk} {q : UInt32} {b : Bitmap} {len : Nat}
    (hx : Extended NoFile v.freeMap.Used (· = freeMapSector) v.freeMap.Used freeMapSector
      (v.write freeMapSector (freshInode len).toSector) (newInode len) len v' id)
    (hR : ∀ x, (x = freeMapSector ∨ x = rootDirSector) → v.freeMap.Used x)
    (hq : (q = unallocated ∧ b = v'.freeMap) ∨ (q.toNat < v'.freeMap.bitCnt ∧
      v'.freeMap.bits q.toNat = false ∧ b = bitmapSet v'.freeMap q.toNat true))
    {i : Inode} (hi : i = ⟨freeMapSector, 1, false, 0, { id with
      directPointers := Function.update id.directPointers 0 q }.setLen 512⟩) :
    MapReady ({ v' with openInodes := [i], freeMapFile := true, freeMap := b }.write freeMapSector
      i.data.toSector) i := by
  have hused : ∀ x, v.freeMap.Used x → v'.freeMap.Used x := fun x h => (hx.ext.held x h).2
  have hb : ∀ x, v'.freeMap.Used x → b.Used x := by
    intro x h
    rcases hq with ⟨-, rfl⟩ | ⟨-, -, rfl⟩
    · exact h
    · exact Bitmap.used_set_true h
  have hdata : i.data = { id with
      directPointers := Function.update id.directPointers 0 q }.setLen 512 := by rw [hi]
  -- the header's sector is none of the inode's own
  have hview : pointerAt (Function.update v'.disk freeMapSector i.data.toSector) i.data
      = Function.update (pointerAt v'.disk id) (.direct 0) q := by
    rw [← pointerAt_first, hdata, pointerAt_setLen]
    refine pointerAt_congr fun a ha hu => Function.update_of_ne ?_ _ _
    intro he
    have hne : a ≠ .direct 0 := by
      rintro rfl
      exact ha trivial
    rw [pointerAt_first, Function.update_of_ne hne] at hu he
    exact hx.ext.sound.apart a hu (he ▸ hR _ (Or.inl rfl))
  have hcnt : b.bitCnt = v'.freeMap.bitCnt := by
    rcases hq with ⟨-, rfl⟩ | ⟨-, -, rfl⟩
    · rfl
    · rfl
  have hsound : Sound (fun x => x = freeMapSector ∨ x = rootDirSector) b
      (Function.update (pointerAt v'.disk id) (.direct 0) q) := by
    have hs : Sound (fun x => x = freeMapSector ∨ x = rootDirSector) v'.freeMap
        (pointerAt v'.disk id) :=
      ⟨hx.ext.sound.used, fun a hu hc => hx.ext.sound.apart a hu (hR _ hc), hx.ext.sound.inj⟩
    have hw := hs.within (Within.update _ (.direct 0))
    rcases hq with ⟨rfl, rfl⟩ | ⟨hlt, hfree, rfl⟩
    · exact hw
    · have := hw.take (a := .direct 0) hlt hfree fun hc => ?_
      · rwa [Function.update_idem] at this
      · have h1 := (hused _ (hR _ hc)).2
        rw [hfree] at h1
        cases h1
  refine ⟨rfl, ?_, ?_, ?_, fun x h => hb x (hused x (hR x h)), ?_, ?_, rfl⟩
  · rw [hi]
  · rw [hdata]
    exact InodeDisk.len_setLen (by omega)
  · show Sound _ b (pointerAt (Function.update v'.disk freeMapSector i.data.toSector) i.data)
    rw [hview]
    exact hsound
  · show Blank (Function.update v'.disk freeMapSector i.data.toSector)
      (pointerAt (Function.update v'.disk freeMapSector i.data.toSector) i.data) 512
    rw [hview]
    intro p hp
    have hne : Slot.ofPos p ≠ .direct 0 ∨ ¬ p < maxFileLen := by
      by_cases hmax : p < maxFileLen
      · left
        intro he
        have hbase := Slot.base_ofPos hmax
        rw [he] at hbase
        simp only [Slot.base, Fin.val_zero] at hbase
        omega
      · exact Or.inr hmax
    rw [← hx.bytes_newInode p]
    rcases hne with hne | hmax
    · have hb : byteAt (Function.update v'.disk freeMapSector i.data.toSector)
          (Function.update (pointerAt v'.disk id) (.direct 0) q) p
          = byteAt (Function.update v'.disk freeMapSector i.data.toSector) (pointerAt v'.disk id) p := by
        unfold byteAt
        rw [Function.update_of_ne hne]
      rw [hb]
      refine byteAt_congr fun hu => Function.update_of_ne ?_ _ _
      intro he
      exact hx.ext.sound.apart _ hu (he ▸ hR _ (Or.inl rfl))
    · rw [byteAt, byteAt, if_neg fun hc => hmax hc.1, if_neg fun hc => hmax hc.1]
  · show b.bitCnt = v'.size.toNat
    rw [hcnt]
    exact hx.ext.inv.1

/-- A disk that has room for the free map has a sector for the root. -/
theorem root_used {id : InodeDisk} {len : Nat} (hlen : 0 < len)
    (hf : v.freeMap = freeMapInit v.size)
    (hx : Extended NoFile v.freeMap.Used (· = freeMapSector) v.freeMap.Used freeMapSector
      (v.write freeMapSector (freshInode len).toSector) (newInode len) len v' id) :
    v.freeMap.Used rootDirSector := by
  have hu := hx.full (.direct 0) (by simpa [Slot.base] using hlen)
  have hlt := hx.ext.sound.lt_size hx.ext.inv.1 hu
  rw [hx.ext.size] at hlt
  have hapart := hx.ext.sound.apart _ hu
  rw [hf, freeMapInit_used] at hapart ⊢
  refine ⟨?_, Or.inr rfl⟩
  -- the first block is in neither of the two sectors, so there is a third
  obtain ⟨x, hx'⟩ : ∃ x, x = pointerAt v'.disk id (.direct 0) := ⟨_, rfl⟩
  rw [← hx'] at hlt hapart
  have h1 : ¬ (x = freeMapSector ∨ x = rootDirSector) := fun hc => hapart ⟨hlt, hc⟩
  have h0 : x.toNat ≠ 0 := fun hc => h1 (Or.inl (UInt32.toNat_inj.mp hc))
  rw [UInt32.lt_iff_toNat_lt] at hlt ⊢
  show 1 < v.size.toNat
  have : x.toNat < v.size.toNat := hlt
  omega

/-- `free_map_create` after `inode_create`: one more sector is taken, if there is one. -/
theorem freeMapFile_spec (hE : ∀ e v', E e v') {id : InodeDisk} {len : Nat} {v₁ : Vol}
    (hopen : v.openInodes = []) (hpos : freeMapSector < v.size)
    (hR : ∀ x, (x = freeMapSector ∨ x = rootDirSector) → v.freeMap.Used x)
    (hx : Extended NoFile v.freeMap.Used (· = freeMapSector) v.freeMap.Used freeMapSector
      (v.write freeMapSector (freshInode len).toSector) (newInode len) len v₁ id) :
    vwp (do
      inodeOpen freeMapSector
      modify fun fs => { fs with freeMapFile := true }
      let sector ← takeMapBlock
      let inode ← findInode freeMapSector
      let id := { inode.data with
        directPointers := Function.update inode.data.directPointers 0 sector }.setLen 512
      putInode { inode with data := id }
      cacheWrite freeMapSector id.toSector
      if ← bitmapWrite then return () else throw .fatal)
      (fun _ v' => (Formatting v' {freeMapSector} ∧ v'.freeMap.Used rootDirSector ∧
        ¬ Foreign v' {freeMapSector} rootDirSector) ∧
        ∃ q : UInt32, v'.freeMap = v₁.freeMap ∨ v'.freeMap = bitmapSet v₁.freeMap q.toNat true) E v₁ := by
  have hopen₁ : v₁.openInodes = [] := hx.ext.opens.trans hopen
  have hsize₁ : v₁.size = v.size := hx.ext.size
  have hdata : InodeDisk.ofSector (v₁.disk freeMapSector) = id := by
    rw [hx.header, InodeDisk.ofSector_toSector]
  have hopened : v₁.opened freeMapSector
      = { v₁ with openInodes := [⟨freeMapSector, 1, false, 0, id⟩] } := by
    simp [Vol.opened, openedInode, hopen₁, inodeIn, hdata]
  refine wpOn_seq (vwp_inodeOpen (Q := fun _ v' => v' = _) (by rw [hsize₁]; exact hpos)
    hopened) ?_
  rintro - v₂ rfl
  refine wpOn_seq (wpOn_modify (Q := fun _ v' => v' = { v₁ with
    openInodes := [⟨freeMapSector, 1, false, 0, id⟩], freeMapFile := true }) ?_) ?_
  · intro fs' hfs'
    have : FsState.vol { fs' with freeMapFile := true } = { fs'.vol with freeMapFile := true } := rfl
    rw [this, hfs']
  rintro - v₃ rfl
  refine wpOn_seq (vwp_takeMapBlock (Q := fun q v' => ∃ b, v' = { v₁ with
      openInodes := [⟨freeMapSector, 1, false, 0, id⟩], freeMapFile := true, freeMap := b } ∧
      ((q = unallocated ∧ b = v₁.freeMap) ∨ (q.toNat < v₁.freeMap.bitCnt ∧
        v₁.freeMap.bits q.toNat = false ∧ b = bitmapSet v₁.freeMap q.toNat true))) hx.ext.inv.1
    ⟨_, rfl, Or.inl ⟨rfl, rfl⟩⟩ fun x hlt hfree => ⟨_, rfl, Or.inr ⟨hlt, hfree, rfl⟩⟩) ?_
  rintro q v₄ ⟨b, rfl, hq⟩
  refine wpOn_seq (vwp_findInode (Q := fun k v' => k = _ ∧ v' = _) rfl ⟨rfl, rfl⟩) ?_
  rintro k v₅ ⟨rfl, rfl⟩
  refine wpOn_seq (vwp_putInode (Q := fun _ v' => v' = _) rfl) ?_
  rintro - v₆ rfl
  refine wpOn_seq (vwp_cacheWrite (Q := fun _ v' => v' = _) (by
    show freeMapSector < v₁.size
    rw [hsize₁]
    exact hpos) rfl) ?_
  rintro - v₇ rfl
  refine wpOn_seq ((MapReady.of_first hx hR hq rfl).save hE) ?_
  intro r v' hr
  cases r with
  | true =>
      obtain ⟨hform, hmap⟩ := hr rfl
      refine wpOn_pure ⟨hform, q, ?_⟩
      rw [hmap]
      exact hq.imp (fun h => h.2) fun h => h.2.2
  | false => exact wpOn_throw (hE _ _)

/-- `free_map_create`: the inode of the map is made and opened, gets a new first block, and the map is
written to it. -/
theorem freeMapCreate_spec (hE : ∀ e v', E e v') (hf : v.freeMap = freeMapInit v.size)
    (hno : v.freeMapFile = false) (hopen : v.openInodes = []) :
    vwp freeMapCreate (fun _ v' => Formatting v' {freeMapSector} ∧
      v'.freeMap.Used rootDirSector ∧ ¬ Foreign v' {freeMapSector} rootDirSector) E v := by
  refine wpOn_get ?_
  intro fs hfs
  have hfm : fs.freeMap = v.freeMap := congrArg Vol.freeMap hfs
  have hcnt : v.freeMap.bitCnt = v.size.toNat := by rw [hf]; rfl
  rw [hfm]
  by_cases hpos : freeMapSector < v.size
  swap
  · exact wpOn_seq (Q := fun _ _ => False) (wpOn_seq (Q := fun _ _ => False)
      (vwp_cacheWrite_pastEnd hpos (hE _ _)) (fun _ _ hc => hc.elim)) (fun _ _ hc => hc.elim)
  have hused : v.freeMap.Used freeMapSector := by
    rw [hf, freeMapInit_used]
    exact ⟨hpos, Or.inl rfl⟩
  have hlen : 0 < byteCnt v.freeMap.bitCnt := by
    have := hused.1
    unfold byteCnt
    omega
  refine wpOn_seq (inodeCreate_spec (R := v.freeMap.Used) (W := (· = freeMapSector))
    (formatMap_spec (hE _)) (fun _ hx => hx.elim) (fun _ hx => hx.elim) hused (fun hx => hx.elim)
    rfl (fun _ _ => hE _ _) (by rw [hcnt]; exact byteCnt_lt _) ⟨hcnt, hno⟩ (fun _ hx => hx)) ?_
  rintro - v₁ ⟨-, id, hx⟩
  have hR : ∀ x, (x = freeMapSector ∨ x = rootDirSector) → v.freeMap.Used x := by
    rintro x (rfl | rfl)
    · exact hused
    · exact root_used hlen hf hx
  exact wpOn_weaken (freeMapFile_spec hE hopen hpos hR hx) fun _ _ h => h.1

/-! ## The root directory -/

/-- The root directory's inode: no entries, and no length. -/
def rootInode : InodeDisk := { (newInode 0).setLen 0 with isDir := 1 }

/-- Making the root directory. -/
theorem Formatting.create_root (h : Formatting v {freeMapSector})
    (hused : v.freeMap.Used rootDirSector) (hfor : ¬ Foreign v {freeMapSector} rootDirSector) :
    vwp (inodeCreate rootDirSector 0)
      (fun _ v' => Formatting v' {rootDirSector, freeMapSector} ∧
        inodeIn v'.openInodes rootDirSector = none ∧
        v'.disk rootDirSector = ((newInode 0).setLen 0).toSector ∧ v'.freeMap = v.freeMap ∧
        v'.size = v.size) E v := by
  have hs : rootDirSector ∉ ({freeMapSector} : Set UInt32) := fun hc => by cases hc
  have hlt := hused.lt h.inv.owned.bitCnt
  refine wpOn_weaken (wpOn_and (vwp_inodeCreate_empty (E := E) (Q := fun _ v' => v' = _) hlt rfl)
    (h.inv.create (E := fun _ _ => True) (fun _ _ => trivial) hs hused hfor (by omega))) ?_
  rintro r v' ⟨rfl, -, hinv, hk, hopen, -⟩
  have hmap : freeMapSector ∈ ({freeMapSector} : Set UInt32) := rfl
  refine ⟨⟨hinv, h.saved.congr rfl (hk.pointers h.inv.owned hmap) fun a hu => ?_, h.only⟩, ?_,
    Vol.write_self _ _ _, rfl, rfl⟩
  · have hne : v.pointers freeMapSector a ≠ rootDirSector :=
      fun he => hfor (Or.inr ⟨_, hmap, a, hu, he⟩)
    rw [Vol.write_other _ _ hne, Vol.write_other _ _ hne]
  · rw [hopen]
    cases hc : inodeIn v.openInodes rootDirSector with
    | none => rfl
    | some j => exact absurd (h.inv.opens _ j hc).1 hs

/-- After `do_format`: nothing is open, and the map is in its file. -/
structure Formatted (v : Vol) (L : Set UInt32) : Prop where
  owned : Owned v L
  mapLive : freeMapSector ∈ L
  saved : MapSaved v
  len : byteCnt v.freeMap.bitCnt ≤ (v.header freeMapSector).len
  max : byteCnt v.freeMap.bitCnt ≤ maxFileLen
  closed : inodeIn v.openInodes freeMapSector = none
  opens : ∀ s i, inodeIn v.openInodes s = some i → s ∈ L ∧ 0 < i.openCnt

/-- What a call on the free map's inode keeps. -/
structure ButMap (v v' : Vol) : Prop where
  size : v'.size = v.size
  disk : ∀ x, x ≠ freeMapSector → v'.disk x = v.disk x
  opens : ∀ t, t ≠ freeMapSector → inodeIn v'.openInodes t = inodeIn v.openInodes t
  used : ∀ x, v'.freeMap.Used x ↔ v.freeMap.Used x

/-- `do_format` closes the map's file again. -/
theorem Formatting.close (h : Formatting v L) :
    vwp (inodeClose freeMapSector) (fun _ v' => Formatted v' L ∧ ButMap v v') E v := by
  obtain ⟨i, hi, hone, hr⟩ := h.only
  have hs := h.inv.mapLive
  have hsec := sector_of_inodeIn hi
  have ho := h.inv.owned
  refine vwp_inodeClose_last hi hone hr ((ho.header _ hs).lt ho.bitCnt) ?_
  have hself : inodeIn (v.putBack i).openInodes freeMapSector = none := by
    unfold Vol.putBack
    rw [hsec]
    exact inodeIn_dropInode_self
  have hothers : ∀ t, t ≠ freeMapSector →
      inodeIn (v.putBack i).openInodes t = inodeIn v.openInodes t :=
    fun t ht => inodeIn_dropInode_other (by rw [hsec]; exact ht)
  refine ⟨⟨ho.putBack hs hi, hs, h.saved.congr rfl (ho.pointers_putBack hs hi)
    (fun a _ => ho.disk_putBack hs hi hs a), ?_, h.inv.map.max, hself, ?_⟩, rfl,
    fun x hx => Vol.write_other _ _ (by rw [hsec]; exact hx), hothers, fun _ => Iff.rfl⟩
  · obtain ⟨k, hk, -, hlen⟩ := h.inv.map.isOpen
    rw [header_putBack hi, Vol.header_open hk]
    exact hlen
  · intro t k hk
    by_cases ht : t = freeMapSector
    · rw [ht, hself] at hk
      cases hk
    · rw [hothers t ht] at hk
      exact h.inv.opens t k hk

/-! ## `free_map_open` -/

/-- The map as it is read back. -/
theorem MapSaved.read (h : MapSaved v) {x : UInt32} :
    (bitmapOfBytes v.freeMap.bitCnt (bytesAt v.disk (v.pointers freeMapSector) 0
      (byteCnt v.freeMap.bitCnt))).Used x ↔ v.freeMap.Used x := by
  have hbytes : bytesAt v.disk (v.pointers freeMapSector) 0 (byteCnt v.freeMap.bitCnt)
      = bitmapBytes v.freeMap := by
    refine List.ext_getElem (by simp [bytesAt]) fun k h₁ h₂ => ?_
    rw [length_bitmapBytes] at h₂
    have := h k h₂
    simp only [bytesAt, List.getElem_map, List.getElem_range, Nat.zero_add]
    rw [this, List.getD_eq_getElem?_getD, List.getElem?_eq_getElem, Option.getD_some]
  rw [hbytes]
  unfold Bitmap.Used
  refine and_congr_right fun hx => ?_
  have hx' : x.toNat < v.freeMap.bitCnt := hx
  rw [bitmapOfBytes_bits hx']

/-- Ownership depends on what is marked, not on the bitmap. -/
theorem Owned.of_map (h : Owned v L) {b : Bitmap} (hcnt : b.bitCnt = v.freeMap.bitCnt)
    (hb : ∀ x, b.Used x ↔ v.freeMap.Used x) : Owned { v with freeMap := b } L :=
  ⟨hcnt.trans h.bitCnt, fun s hs => (hb _).mpr (h.header s hs),
    fun s hs a hu => (hb _).mpr (h.used s hs a hu), h.apart, h.inj, h.full, h.blank⟩

/-- `free_map_open` reads the map from its file: it is the one that was saved. -/
theorem freeMapOpen_spec (h : Formatted v L) :
    vwp freeMapOpen (fun _ v' => FsInv v' L ∧ ButMap v v') E v := by
  have hs := h.mapLive
  refine wpOn_seq (vwp_inodeOpen (Q := fun _ v' => v' = v.opened freeMapSector)
    ((h.owned.header _ hs).lt h.owned.bitCnt) rfl) ?_
  rintro - v₁ rfl
  refine wpOn_seq (wpOn_modify (Q := fun _ v' => v' =
    { v.opened freeMapSector with freeMapFile := true }) ?_) ?_
  · intro fs' hfs'
    have : FsState.vol { fs' with freeMapFile := true } = { fs'.vol with freeMapFile := true } := rfl
    rw [this, hfs']
  rintro - v₂ hv₂
  have hin : inodeIn v₂.openInodes freeMapSector = some (openedInode v freeMapSector) := by
    rw [hv₂]
    exact inodeIn_opened_self
  have hp : v₂.pointers freeMapSector = v.pointers freeMapSector := by
    rw [hv₂]
    exact pointers_opened
  have ho : Owned v₂ L := by
    have := h.owned.opened hs
    rw [hv₂]
    exact ⟨this.bitCnt, this.header, this.used, this.apart, this.inj, this.full, this.blank⟩
  have hsaved : MapSaved v₂ := h.saved.congr (by rw [hv₂]; rfl) hp fun _ _ => by rw [hv₂]; rfl
  have hcnt : v₂.freeMap.bitCnt = v.freeMap.bitCnt := by rw [hv₂]; rfl
  have hfile : v₂.freeMapFile = true := by rw [hv₂]
  have hdata : (openedInode v freeMapSector).data = v₂.header freeMapSector := by
    rw [Vol.header_open hin]
  have hlen : byteCnt v₂.freeMap.bitCnt ≤ (openedInode v freeMapSector).data.len := by
    rw [hcnt, openedInode_data]
    exact h.len
  have hmax : byteCnt v₂.freeMap.bitCnt ≤ maxFileLen := by
    rw [hcnt]
    exact h.max
  have hdeny : (openedInode v freeMapSector).denyWriteCnt = 0 := by
    unfold openedInode
    rw [h.closed]
  have hothers : ∀ t, t ≠ freeMapSector → inodeIn v₂.openInodes t = inodeIn v.openInodes t := by
    intro t ht
    rw [hv₂]
    exact inodeIn_opened_other ht
  have hdisk : v₂.disk = v.disk := by rw [hv₂]; rfl
  have hsize : v₂.size = v.size := by rw [hv₂]; rfl
  have hmap : v₂.freeMap = v.freeMap := by rw [hv₂]; rfl
  have hopens : ∀ t k, inodeIn v₂.openInodes t = some k → t ∈ L ∧ 0 < k.openCnt := by
    intro t k hk
    by_cases ht : t = freeMapSector
    · rw [ht, hin] at hk
      cases hk
      rw [ht]
      refine ⟨hs, ?_⟩
      unfold openedInode
      rw [h.closed]
      exact Nat.one_pos
    · rw [hothers t ht] at hk
      exact h.opens t k hk
  clear hv₂
  refine wpOn_get ?_
  rintro fs rfl
  have hfm : fs.freeMap = fs.vol.freeMap := rfl
  rw [hfm]
  refine wpOn_ite (fun _ => ?_) (fun _ => ?_)
  swap
  · exact wpOn_pure ⟨⟨ho, hs, ⟨hfile, ⟨_, hin, hdeny, hlen⟩, hmax⟩, hopens⟩, hsize,
      fun x _ => congrFun hdisk x, hothers, fun x => by rw [hmap]⟩
  have hread : vwp (inodeReadAt freeMapSector (byteCnt fs.vol.freeMap.bitCnt) 0) (fun r v' =>
      v' = fs.vol ∧ r = bytesAt fs.vol.disk (fs.vol.pointers freeMapSector) 0
        (byteCnt fs.vol.freeMap.bitCnt)) E fs.vol := by
    have hend : 0 + byteCnt fs.vol.freeMap.bitCnt ≤ maxFileLen := by
      rw [Nat.zero_add]
      exact hmax
    refine wpOn_weaken (ho.read hs hin (.inl hend)) ?_
    rintro r v' ⟨rfl, rfl⟩
    rw [Nat.sub_zero, ← hdata, Nat.min_eq_left hlen]
    exact ⟨rfl, rfl⟩
  refine wpOn_seq hread ?_
  rintro bytes v' ⟨rfl, rfl⟩
  rw [if_pos (by simp [bytesAt])]
  refine wpOn_modify ?_
  intro fs' hfs'
  have hvol : ∀ b, FsState.vol { fs' with freeMap := b } = { fs'.vol with freeMap := b } :=
    fun _ => rfl
  rw [hvol, hfs']
  refine ⟨⟨ho.of_map rfl fun x => hsaved.read, hs, ⟨hfile, ⟨_, hin, hdeny, hlen⟩, hmax⟩, hopens⟩, hsize,
    fun x _ => congrFun hdisk x, hothers, fun x => ?_⟩
  rw [← hmap]
  exact hsaved.read

/-! ## `filesys_init` -/

/-- After `do_format`. -/
structure FormatDone (v₁ v : Vol) : Prop where
  size : v.size = v₁.size
  formatted : Formatted v {rootDirSector, freeMapSector}
  closed : inodeIn v.openInodes rootDirSector = none
  root : v.disk rootDirSector = rootInode.toSector
  used : ∀ x, v.freeMap.Used x ↔ v₁.freeMap.Used x

/-- `do_format` after `free_map_create`. -/
theorem formatRoot_spec (h₁ : Formatting v {freeMapSector}) (hused : v.freeMap.Used rootDirSector)
    (hfor : ¬ Foreign v {freeMapSector} rootDirSector) :
    vwp (do
      let _ ← inodeCreate rootDirSector 0
      inodeOpen rootDirSector
      inodeSetDir rootDirSector true
      inodeClose rootDirSector
      inodeClose freeMapSector) (fun _ v' => FormatDone v v') E v := by
  have h01 : rootDirSector ≠ freeMapSector := by decide
  have hroot : rootDirSector ∈ ({rootDirSector, freeMapSector} : Set UInt32) := Or.inl rfl
  refine wpOn_seq (h₁.create_root hused hfor) ?_
  rintro - v₂ ⟨h₂, hnone, hdisk, hmap, hsize⟩
  have hlt : rootDirSector < v₂.size :=
    (h₂.inv.owned.header _ hroot).lt h₂.inv.owned.bitCnt
  refine wpOn_seq (vwp_inodeOpen (Q := fun _ v' => v' = v₂.opened rootDirSector) hlt rfl) ?_
  rintro - v₃ rfl
  have h₃ := h₂.opened hroot h01
  have hi₃ : inodeIn (v₂.opened rootDirSector).openInodes rootDirSector
      = some ⟨rootDirSector, 1, false, 0, (newInode 0).setLen 0⟩ := by
    rw [inodeIn_opened_self]
    unfold openedInode
    rw [hnone, hdisk, InodeDisk.ofSector_toSector]
  refine wpOn_seq (vwp_updateInode (Q := fun _ v' => v' = _) hi₃ rfl) ?_
  rintro - v₄ rfl
  have hi₄ := inodeIn_setInode_self hi₃ (j := ⟨rootDirSector, 1, false, 0, rootInode⟩) rfl
  have hinv₄ := h₃.inv.update hi₃ (j := ⟨rootDirSector, 1, false, 0, rootInode⟩) rfl Nat.one_pos rfl rfl
    rfl rfl
  have h₄ := h₃.update h01 hinv₄ rfl
  refine wpOn_seq (vwp_inodeClose_last (Q := fun _ v' => v' = _) hi₄ rfl rfl hlt rfl) ?_
  rintro - v₅ rfl
  refine wpOn_weaken (h₄.putBack hi₄ h01).close ?_
  rintro - v₆ ⟨hf, hb⟩
  refine ⟨hb.size.trans hsize, hf, ?_, ?_, fun x => (hb.used x).trans (by rw [← hmap]; rfl)⟩
  · rw [hb.opens _ h01]
    exact inodeIn_dropInode_self
  · rw [hb.disk _ h01]
    exact Vol.write_self _ _ _

theorem doFormat_spec (hE : ∀ e v', E e v') (hf : v.freeMap = freeMapInit v.size)
    (hno : v.freeMapFile = false) (hopen : v.openInodes = []) :
    vwp doFormat (fun _ v' => ∃ v₁, FormatDone v₁ v') E v := by
  refine wpOn_seq (freeMapCreate_spec hE hf hno hopen) ?_
  rintro - v₁ ⟨h₁, hused, hfor⟩
  exact wpOn_weaken (formatRoot_spec h₁ hused hfor) fun _ _ h => ⟨v₁, h⟩

/-- A freshly formatted disk: the root directory is open and empty. -/
structure Booted (v₁ v : Vol) : Prop where
  size : v.size = v₁.size
  inv : FsInv v {rootDirSector, freeMapSector}
  root : inodeIn v.openInodes rootDirSector = some ⟨rootDirSector, 1, false, 0, rootInode⟩
  disk : v.disk rootDirSector = rootInode.toSector
  used : ∀ x, v.freeMap.Used x ↔ v₁.freeMap.Used x

/-- `filesys_init` after `do_format`. -/
theorem mount_spec {v₁ : Vol} (h : FormatDone v₁ v) :
    vwp (do
      freeMapOpen
      inodeOpen rootDirSector) (fun _ v' => Booted v₁ v') E v := by
  have h01 : rootDirSector ≠ freeMapSector := by decide
  have hroot : rootDirSector ∈ ({rootDirSector, freeMapSector} : Set UInt32) := Or.inl rfl
  refine wpOn_seq (freeMapOpen_spec h.formatted) ?_
  rintro - v₂ ⟨h₂, hb⟩
  refine vwp_inodeOpen ((h₂.owned.header _ hroot).lt h₂.owned.bitCnt)
    ⟨hb.size.trans h.size, h₂.opened hroot, ?_,
    (hb.disk _ h01).trans h.root, fun x => (hb.used x).trans (h.used x)⟩
  rw [inodeIn_opened_self]
  unfold openedInode
  rw [hb.opens _ h01, h.closed, hb.disk _ h01, h.root, InodeDisk.ofSector_toSector]

/-- The file system starts in the invariant, if formatting
ends at all: the disk may be too small. -/
theorem filesysInit_spec (dev : BlockDev) :
    vwp filesysInit (fun _ v' => ∃ v₁, Booted v₁ v') (fun _ _ => True) (bootFs dev).vol := by
  refine wpOn_seq (doFormat_spec (fun _ _ => trivial) rfl rfl rfl) ?_
  rintro - v₁ ⟨v₀, h₁⟩
  exact wpOn_weaken (mount_spec h₁) fun _ _ h => ⟨v₀, h⟩

end CS162.Fs
