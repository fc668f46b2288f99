/-
# `CS162.Fs.Handles` — opening, removing and closing

The operations on inodes that do not write their bytes.  Most of them change one
`struct inode` and nothing on the disk (`FsInv.update`).  The one that matters is
the last `inode_close` of a removed inode: it gives back the header sector first,
then the blocks, by extending to size 0, and writes the header into the sector it
no longer owns.  Nothing can take that sector in between, as an extension to size 0
allocates nothing; so what the invariant says of the others still holds.
-/
import CS162.Fs.Owners

namespace CS162.Fs

open Bytes Wp

variable {v v' : Vol} {L : Set UInt32} {s t : UInt32} {i j : Inode} {l : List Inode}
  {E : Panic → Vol → Prop}

/-! ## The list of open inodes -/

theorem inodeIn_cons_self (hj : j.sector = s) : inodeIn (j :: l) s = some j := by
  simp [inodeIn, hj]

theorem inodeIn_cons_other (hj : j.sector ≠ s) : inodeIn (j :: l) s = inodeIn l s := by
  simp [inodeIn, hj]

/-- The list after the last close of `s`. -/
def dropInode (l : List Inode) (s : UInt32) : List Inode := l.filter fun i => i.sector != s

theorem inodeIn_dropInode_self : inodeIn (dropInode l s) s = none := by
  simp [inodeIn, dropInode, List.find?_eq_none]

theorem inodeIn_dropInode_other (ht : t ≠ s) : inodeIn (dropInode l s) t = inodeIn l t := by
  induction l with
  | nil => rfl
  | cons k l ih =>
      by_cases hk : k.sector = t
      · simp [inodeIn, dropInode, hk, ht]
      · by_cases hks : k.sector = s
        · simpa [inodeIn, dropInode, List.find?_cons, hk, hks, Ne.symm ht] using ih
        · simpa [inodeIn, dropInode, List.find?_cons, hk, hks] using ih

/-! ## Changing one `struct inode` -/

/-- `open_cnt++` and the like: read through the pointer, write through it. -/
theorem vwp_updateInode {f : Inode → Inode} {Q : Unit → Vol → Prop}
    (hi : inodeIn v.openInodes s = some i)
    (h : Q () { v with openInodes := setInode v.openInodes (f i) }) :
    vwp (findInode s >>= fun inode => putInode (f inode)) Q E v := by
  refine wpOn_seq (vwp_findInode (Q := fun k v' => k = i ∧ v' = v) hi ⟨rfl, rfl⟩) ?_
  rintro k v' ⟨rfl, rfl⟩
  exact vwp_putInode h

/-- The invariant does not see `open_cnt`, `removed` and the fields of the header that
are not about blocks. -/
theorem FsInv.update (h : FsInv v L) (hi : inodeIn v.openInodes s = some i) (hj : j.sector = s)
    (hcnt : 0 < j.openCnt) (hdeny : j.denyWriteCnt = i.denyWriteCnt)
    (hdirect : j.data.directPointers = i.data.directPointers)
    (hdoubly : j.data.doublyIndirect = i.data.doublyIndirect)
    (hlength : j.data.length = i.data.length) :
    FsInv { v with openInodes := setInode v.openInodes j } L := by
  have hin : inodeIn (setInode v.openInodes j) s = some j := inodeIn_setInode_self hi hj
  have hh : Vol.header { v with openInodes := setInode v.openInodes j } s = j.data :=
    Vol.header_open hin
  have hh' := Vol.header_open hi
  have hs := (h.opens s i hi).1
  have hothers : ∀ t, t ≠ s → inodeIn (setInode v.openInodes j) t = inodeIn v.openInodes t :=
    fun t ht => inodeIn_setInode_other (by rw [hj]; exact ht.symm)
  refine h.of_change hs (h.owned.of_reheader hs hothers ?_ ?_ ?_) ?_ hothers ?_
  · rw [hh, hh']
    exact hdirect
  · rw [hh, hh']
    exact hdoubly
  · rw [hh, hh']
    exact hlength
  · by_cases h0 : s = freeMapSector
    · subst h0
      obtain ⟨k, hk, hk0, hlen⟩ := h.map.isOpen
      rw [hi] at hk
      cases hk
      refine ⟨h.map.file, ⟨j, hin, by rw [hdeny]; exact hk0, ?_⟩, h.map.max⟩
      unfold InodeDisk.len at hlen ⊢
      rw [hlength]
      exact hlen
    · exact h.map.congr rfl rfl (hothers _ (Ne.symm h0))
  · intro k hk
    have hk' := hin.symm.trans hk
    cases hk'
    exact hcnt

/-! ## Opening -/

/-- The `struct inode` of `s` after one more open. -/
def openedInode (v : Vol) (s : UInt32) : Inode :=
  match inodeIn v.openInodes s with
  | some i => { i with openCnt := i.openCnt + 1 }
  | none => ⟨s, 1, false, 0, InodeDisk.ofSector (v.disk s)⟩

/-- The volume after `inode_open (s)`. -/
def Vol.opened (v : Vol) (s : UInt32) : Vol :=
  { v with openInodes :=
      match inodeIn v.openInodes s with
      | some _ => setInode v.openInodes (openedInode v s)
      | none => openedInode v s :: v.openInodes }

theorem openedInode_sector : (openedInode v s).sector = s := by
  unfold openedInode
  cases h : inodeIn v.openInodes s with
  | none => rfl
  | some i =>
      show i.sector = s
      exact sector_of_inodeIn h

theorem openedInode_data : (openedInode v s).data = v.header s := by
  unfold openedInode Vol.header
  cases inodeIn v.openInodes s <;> rfl

theorem inodeIn_opened_self : inodeIn (v.opened s).openInodes s = some (openedInode v s) := by
  unfold Vol.opened
  cases h : inodeIn v.openInodes s with
  | none => exact inodeIn_cons_self openedInode_sector
  | some i => exact inodeIn_setInode_self h openedInode_sector

theorem inodeIn_opened_other (ht : t ≠ s) :
    inodeIn (v.opened s).openInodes t = inodeIn v.openInodes t := by
  have hne : (openedInode v s).sector ≠ t := by
    rw [openedInode_sector]
    exact ht.symm
  unfold Vol.opened
  cases inodeIn v.openInodes s with
  | none => exact inodeIn_cons_other hne
  | some i => exact inodeIn_setInode_other hne

theorem vwp_inodeReopen {Q : Unit → Vol → Prop} (hi : inodeIn v.openInodes s = some i)
    (h : Q () (v.opened s)) : vwp (inodeReopen s) Q E v := by
  refine vwp_updateInode hi ?_
  unfold Vol.opened openedInode at h
  simp only [hi] at h
  exact h

theorem vwp_inodeOpen {Q : Unit → Vol → Prop} (hs : s < v.size) (h : Q () (v.opened s)) :
    vwp (inodeOpen s) Q E v := by
  refine wpOn_get ?_
  rintro fs rfl
  have hany : (fs.openInodes.any fun i => i.sector == s) = (inodeIn fs.vol.openInodes s).isSome :=
    List.isSome_find?.symm
  rw [hany]
  cases hi : inodeIn fs.vol.openInodes s with
  | some i => exact vwp_inodeReopen hi h
  | none =>
      refine wpOn_seq (vwp_cacheRead (Q := fun b v' => b = fs.vol.disk s ∧ v' = fs.vol) hs
        ⟨rfl, rfl⟩) ?_
      rintro b v' ⟨rfl, rfl⟩
      refine wpOn_modify ?_
      intro fs' hfs'
      unfold Vol.opened openedInode at h
      simp only [hi] at h
      have hopen : fs'.openInodes = fs.vol.openInodes := congrArg Vol.openInodes hfs'
      have hvol : FsState.vol { fs' with openInodes :=
          ⟨s, 1, false, 0, InodeDisk.ofSector (fs.vol.disk s)⟩ :: fs'.openInodes } =
          { fs'.vol with openInodes :=
            ⟨s, 1, false, 0, InodeDisk.ofSector (fs.vol.disk s)⟩ :: fs'.openInodes } := rfl
      rw [hvol, hfs', hopen]
      exact h

/-- Opening changes no header. -/
theorem header_opened : (v.opened s).header t = v.header t := by
  by_cases ht : t = s
  · rw [ht, Vol.header_open inodeIn_opened_self, openedInode_data]
  · unfold Vol.header
    rw [inodeIn_opened_other ht]
    rfl

theorem pointers_opened : (v.opened s).pointers t = v.pointers t := by
  unfold Vol.pointers
  rw [header_opened]
  rfl

theorem Owned.opened (h : Owned v L) (hs : s ∈ L) : Owned (v.opened s) L :=
  h.of_reheader hs (fun _ ht => inodeIn_opened_other ht)
    (congrArg InodeDisk.directPointers header_opened)
    (congrArg InodeDisk.doublyIndirect header_opened) (congrArg InodeDisk.length header_opened)

/-- `inode_open` keeps the invariant. -/
theorem FsInv.opened (h : FsInv v L) (hs : s ∈ L) : FsInv (v.opened s) L := by
  refine h.of_change hs (h.owned.opened hs) ?_ (fun t ht => inodeIn_opened_other ht) ?_
  · by_cases h0 : s = freeMapSector
    · subst h0
      obtain ⟨k, hk, hk0, hlen⟩ := h.map.isOpen
      refine ⟨h.map.file, ⟨_, inodeIn_opened_self, ?_, ?_⟩, h.map.max⟩
      · unfold openedInode
        rw [hk]
        exact hk0
      · rw [openedInode_data, Vol.header_open hk]
        exact hlen
    · exact h.map.congr rfl rfl (inodeIn_opened_other (Ne.symm h0))
  · intro k hk
    rw [inodeIn_opened_self] at hk
    cases hk
    unfold openedInode
    cases hi : inodeIn v.openInodes s with
    | none => exact Nat.one_pos
    | some i => exact Nat.succ_pos _

/-! ## Closing -/

/-- The volume after the last close of an inode that stays: its header is on the
disk. -/
def Vol.putBack (v : Vol) (i : Inode) : Vol :=
  { v with openInodes := dropInode v.openInodes i.sector }.write i.sector i.data.toSector

theorem header_putBack (hi : inodeIn v.openInodes s = some i) :
    (v.putBack i).header s = v.header s := by
  have hsec := sector_of_inodeIn hi
  subst hsec
  have hnone : inodeIn (v.putBack i).openInodes i.sector = none := inodeIn_dropInode_self
  rw [Vol.header_open hi, Vol.header_closed hnone]
  unfold Vol.putBack
  rw [Vol.write_self, InodeDisk.ofSector_toSector]

theorem Owned.putBack_kept (h : Owned v L) (hs : s ∈ L) (hi : inodeIn v.openInodes s = some i) :
    Kept v (L \ {s}) (v.putBack i) := by
  have hsec := sector_of_inodeIn hi
  subst hsec
  refine ⟨rfl, rfl, fun x hx => ?_, fun x hx _ => ?_, fun t ht => inodeIn_dropInode_other ht.2⟩
  · exact (h.mono (Set.sdiff_subset : L \ {i.sector} ⊆ L)).foreign_used hx
  · refine Vol.write_other _ _ ?_
    rintro rfl
    exact h.not_foreign hs hx

theorem Owned.disk_putBack (h : Owned v L) (hs : s ∈ L) (hi : inodeIn v.openInodes s = some i)
    (ht : t ∈ L) (a : Slot) : (v.putBack i).disk (v.pointers t a) = v.disk (v.pointers t a) := by
  have hsec := sector_of_inodeIn hi
  subst hsec
  exact Vol.write_other _ _ (h.apart t ht i.sector hs a)

theorem Owned.pointers_putBack (h : Owned v L) (hs : s ∈ L)
    (hi : inodeIn v.openInodes s = some i) : (v.putBack i).pointers s = v.pointers s := by
  unfold Vol.pointers
  rw [header_putBack hi]
  exact pointerAt_congr fun a _ _ => h.disk_putBack hs hi hs a

theorem Owned.putBack (h : Owned v L) (hs : s ∈ L) (hi : inodeIn v.openInodes s = some i) :
    Owned (v.putBack i) L := by
  have hp := h.pointers_putBack hs hi
  have hh := header_putBack hi
  refine h.of_change hs (h.putBack_kept hs hi) (h.header s hs) ?_ ?_ ?_
  · rw [hp]
    exact h.sound hs
  · rw [hp, hh]
    exact h.full s hs
  · intro h0 p hlen
    rw [hh] at hlen
    rw [hp, byteAt_congr fun _ => h.disk_putBack hs hi hs _]
    exact h.blank s hs h0 p hlen

/-- An inode that is still open elsewhere goes back to the list, with one opener less. -/
theorem FsInv.putBack (h : FsInv v L) (hi : inodeIn v.openInodes s = some i)
    (h0 : s ≠ freeMapSector) : FsInv (v.putBack i) L := by
  obtain ⟨hs, -⟩ := h.opens s i hi
  have hsec := sector_of_inodeIn hi
  have hothers : ∀ t, t ≠ s → inodeIn (v.putBack i).openInodes t = inodeIn v.openInodes t :=
    fun t ht => inodeIn_dropInode_other (by rw [hsec]; exact ht)
  refine h.of_change hs (h.owned.putBack hs hi) (h.map.congr rfl rfl (hothers _ (Ne.symm h0)))
    hothers ?_
  intro k hk
  have hnone : inodeIn (dropInode v.openInodes i.sector) s = none := by
    rw [hsec]
    exact inodeIn_dropInode_self
  have hk' := hnone.symm.trans hk
  cases hk'

/-- The rule for it. -/
theorem vwp_inodeClose_last {Q : Unit → Vol → Prop} (hi : inodeIn v.openInodes s = some i)
    (hone : i.openCnt = 1) (hr : i.removed = false) (hs : s < v.size) (h : Q () (v.putBack i)) :
    vwp (inodeClose s) Q E v := by
  have hsec := sector_of_inodeIn hi
  refine wpOn_seq (vwp_findInode (Q := fun k v' => k = i ∧ v' = v) hi ⟨rfl, rfl⟩) ?_
  rintro k v' ⟨rfl, rfl⟩
  rw [if_pos hone]
  refine wpOn_seq (wpOn_modify (Q := fun _ v₁ =>
    v₁ = { v' with openInodes := dropInode v'.openInodes s }) ?_) ?_
  · rintro fs rfl
    rfl
  rintro - v₁ rfl
  unfold releaseBlocks
  rw [if_neg (by simp [hr])]
  refine vwp_cacheWrite hs ?_
  unfold Vol.putBack at h
  rw [hsec] at h
  exact h

/-- When `s` is gone and the others have been kept, the invariant holds of the others. -/
theorem FsInv.of_freed (h : FsInv v L) (h0 : s ≠ freeMapSector) (hk : Kept v (L \ {s}) v')
    (hfile : v'.freeMapFile = v.freeMapFile) (hopen : v'.openInodes = dropInode v.openInodes s) :
    FsInv v' (L \ {s}) := by
  refine ⟨hk.owned (h.owned.mono Set.sdiff_subset), ⟨h.mapLive, Ne.symm h0⟩, ?_, ?_⟩
  · refine h.map.congr hfile hk.bitCnt ?_
    rw [hopen]
    exact inodeIn_dropInode_other (Ne.symm h0)
  · intro t k hk'
    rw [hopen] at hk'
    by_cases ht : t = s
    · rw [ht, inodeIn_dropInode_self] at hk'
      cases hk'
    · rw [inodeIn_dropInode_other ht] at hk'
      exact ⟨⟨(h.opens t k hk').1, ht⟩, (h.opens t k hk').2⟩

/-- The last close of a removed inode, when the header's sector has been released: its
pointers are as they were. -/
structure HeaderFreed (v : Vol) (s : UInt32) (i : Inode) (v₁ : Vol) : Prop where
  mapOk : MapOk (v.header freeMapSector) (v.pointers freeMapSector) v₁
  view : pointerAt v₁.disk i.data = v.pointers s
  used : ∀ x, v₁.freeMap.Used x ↔ v.freeMap.Used x ∧ x ≠ s
  size : v₁.size = v.size
  file : v₁.freeMapFile = v.freeMapFile
  opens : v₁.openInodes = dropInode v.openInodes s
  frame : ∀ x, ¬ dataSectors (v.pointers freeMapSector) x → v₁.disk x = v.disk x

/-- Of a removed file the sector of the inode is released first; its pointers are still there. -/
theorem FsInv.releaseHeader (h : FsInv v L) (hi : inodeIn v.openInodes s = some i)
    (h0 : s ≠ freeMapSector) :
    vwp (freeMapRelease i.sector 1) (fun _ v₁ => HeaderFreed v s i v₁) E
      { v with openInodes := dropInode v.openInodes s } := by
  obtain ⟨hs, -⟩ := h.opens s i hi
  have hp : v.pointers s = pointerAt v.disk i.data := by rw [Vol.pointers, Vol.header_open hi]
  have hKs : ¬ allSectors (v.pointers freeMapSector) s := by
    rintro ⟨a, -, he⟩
    exact h.owned.apart _ h.mapLive s hs a he
  have hok : MapOk (v.header freeMapSector) (v.pointers freeMapSector)
      { v with openInodes := dropInode v.openInodes s } := by
    have := h.owned.mapOk h.mapLive h.map
    refine ⟨this.bitCnt, this.file, ?_, this.view, this.distinct, this.full, this.len, this.max⟩
    obtain ⟨k, hk, hk'⟩ := this.isOpen
    exact ⟨k, (inodeIn_dropInode_other (Ne.symm h0)).trans hk, hk'⟩
  rw [sector_of_inodeIn hi]
  refine wpOn_weaken ((freeMap_spec (v.header freeMapSector) (v.pointers freeMapSector) E).release _ s
    hok (h.owned.header s hs) hKs) ?_
  rintro - v₁ ⟨hok₁, d, rfl, hd⟩
  refine ⟨hok₁, ?_, fun x => Bitmap.used_set_false_iff, rfl, rfl, rfl, hd⟩
  rw [hp]
  refine pointerAt_congr fun a _ hu => hd _ ?_
  rw [← hp] at hu ⊢
  rintro ⟨b, -, hbu, he⟩
  exact h0 (h.owned.inj freeMapSector h.mapLive s hs b a hbu he).1.symm

/-- The last close of a removed inode, up to the header.  The sector `s` is free from
the first step on, and is not handed out again. -/
theorem FsInv.release (h : FsInv v L) (hi : inodeIn v.openInodes s = some i)
    (h0 : s ≠ freeMapSector) (hr : i.removed = true) :
    vwp (releaseBlocks i) (fun _ v' => Kept v (L \ {s}) v' ∧ v'.freeMapFile = v.freeMapFile ∧
      v'.openInodes = dropInode v.openInodes s) E
      { v with openInodes := dropInode v.openInodes s } := by
  obtain ⟨hs, -⟩ := h.opens s i hi
  have hsec := sector_of_inodeIn hi
  have ho := h.owned.mono (Set.sdiff_subset : L \ {s} ⊆ L)
  have hsound := h.owned.sound hs
  have hmapL : freeMapSector ∈ L \ {s} := ⟨h.mapLive, Ne.symm h0⟩
  have hKs : ¬ allSectors (v.pointers freeMapSector) s := by
    rintro ⟨a, -, he⟩
    exact h.owned.apart _ h.mapLive s hs a he
  unfold releaseBlocks
  rw [if_pos hr]
  refine wpOn_seq (h.releaseHeader hi h0) ?_
  rintro - v₁ h₁
  rw [hsec]
  -- the sectors of the others, and those of `s`, are still marked and as they were
  have hsound₁ : Sound (Taken v L s) v₁.freeMap (pointerAt v₁.disk i.data) := by
    rw [h₁.view]
    exact ⟨fun a hu => (h₁.used _).mpr ⟨hsound.used a hu, h.owned.apart s hs s hs a⟩, hsound.apart,
      hsound.inj⟩
  have hheld₁ : ∀ x, Foreign v (L \ {s}) x → Taken v L s x ∧ v₁.freeMap.Used x := by
    intro x hx
    refine ⟨Or.inr hx, (h₁.used x).mpr ⟨ho.foreign_used hx, ?_⟩⟩
    rintro rfl
    exact h.owned.not_foreign hs hx
  have hss : s < v₁.size := by
    rw [h₁.size]
    exact (h.owned.header s hs).lt h.owned.bitCnt
  refine wpOn_seq (inodeExtend_full (R := Taken v L s) (W := Writable v s)
    (freeMap_spec (v.header freeMapSector) (v.pointers freeMapSector) E)
    (fun x hx => Or.inr (Or.inr ⟨_, hmapL, hx⟩)) (fun x hx => Or.inr ⟨h0, hx⟩) (Or.inl rfl) hKs
    (Or.inl rfl) hss 2 h₁.mapOk hsound₁ hheld₁ (fun hc => absurd hc (lt_irrefl 0))
    fun a ha => absurd ha (Nat.not_lt_zero _)) ?_
  rintro ⟨ok, id'⟩ v₂ ⟨-, hx, -⟩
  refine wpOn_pure ?_
  have hext := hx.ext
  have hsize : v₂.size = v.size := hext.size.trans h₁.size
  refine ⟨⟨hsize, ?_, fun x hx => (hext.held x hx).2, fun x hx hm => ?_, fun t ht => ?_⟩, ?_, ?_⟩
  · rw [hext.inv.bitCnt, hsize, h.owned.bitCnt]
  · have hne : x ≠ s := by
      rintro rfl
      exact h.owned.not_foreign hs hx
    have hF : ¬ dataSectors (v.pointers freeMapSector) x := fun hF => hm ⟨hmapL, hF⟩
    rw [hext.frame x (Or.inr hx) (fun hW => hW.elim hne fun hF' => hF hF'.2)]
    exact h₁.frame x hF
  · rw [hext.opens, h₁.opens]
    exact inodeIn_dropInode_other ht.2
  · exact hext.file.trans h₁.file
  · exact hext.opens.trans h₁.opens

/-- What `inode_close` leaves of the set of live inodes. -/
def closedLive (v : Vol) (L : Set UInt32) (s : UInt32) : Set UInt32 :=
  match inodeIn v.openInodes s with
  | some i => if i.openCnt = 1 ∧ i.removed = true then L \ {s} else L
  | none => L

/-- `inode_close` keeps the invariant, without the file if
this was the last to close it and it was removed. -/
theorem FsInv.close (h : FsInv v L) (hi : inodeIn v.openInodes s = some i)
    (h0 : s = freeMapSector → 1 < i.openCnt) :
    vwp (inodeClose s) (fun _ v' => FsInv v' (closedLive v L s) ∧ Kept v (L \ {s}) v') E v := by
  obtain ⟨hs, hcnt⟩ := h.opens s i hi
  have hsec := sector_of_inodeIn hi
  have hss : s < v.size := (h.owned.header s hs).lt h.owned.bitCnt
  by_cases hstay : i.openCnt = 1 ∧ i.removed = false
  · obtain ⟨hone, hr⟩ := hstay
    have hlive : closedLive v L s = L := by simp [closedLive, hi, hr]
    have hne : s ≠ freeMapSector := fun he => by
      have := h0 he
      omega
    rw [hlive]
    exact vwp_inodeClose_last hi hone hr hss ⟨h.putBack hi hne, h.owned.putBack_kept hs hi⟩
  refine wpOn_seq (vwp_findInode (Q := fun k v' => k = i ∧ v' = v) hi ⟨rfl, rfl⟩) ?_
  rintro k v' ⟨rfl, rfl⟩
  refine wpOn_ite (fun hone => ?_) (fun hone => ?_)
  · have hr : k.removed = true := by
      rw [← Bool.not_eq_false]
      exact fun hf => hstay ⟨hone, hf⟩
    have hne : s ≠ freeMapSector := fun he => by
      have := h0 he
      omega
    refine wpOn_seq (wpOn_modify (Q := fun _ v₁ =>
      v₁ = { v' with openInodes := dropInode v'.openInodes s }) ?_) ?_
    · rintro fs rfl
      rfl
    rintro - v₁ rfl
    have hlive : closedLive v' L s = L \ {s} := by simp [closedLive, hi, hr, hone]
    rw [hlive]
    refine wpOn_seq (h.release hi hne hr) ?_
    rintro id' v₂ ⟨hk, hfile, hopen⟩
    refine vwp_cacheWrite (by rw [hk.size]; exact hss) ?_
    have hk' : Kept v' (L \ {s}) (v₂.write s id'.toSector) := by
      refine ⟨hk.size, hk.bitCnt, hk.held, fun x hx hm => ?_, hk.opens⟩
      rw [← hk.frame x hx hm]
      refine Vol.write_other _ _ ?_
      rintro rfl
      exact h.owned.not_foreign hs hx
    exact ⟨h.of_freed hne hk' hfile hopen, hk'⟩
  · have hlive : closedLive v' L s = L := by simp [closedLive, hi, hone]
    rw [hlive]
    have hj : { k with openCnt := k.openCnt - 1 }.sector = s := hsec
    refine vwp_putInode ⟨h.update hi hj (by show 0 < k.openCnt - 1; omega) rfl rfl rfl rfl, ?_⟩
    refine ⟨rfl, rfl, fun x hx => ?_, fun _ _ _ => rfl, fun t ht => ?_⟩
    · exact (h.owned.mono (Set.sdiff_subset : L \ {s} ⊆ L)).foreign_used hx
    · exact inodeIn_setInode_other (by rw [hj]; exact fun he => ht.2 he.symm)

end CS162.Fs
