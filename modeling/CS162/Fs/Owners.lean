/-
# `CS162.Fs.Owners` — who owns which sector

The invariant of the file system as a whole.  `live` is the set of inodes that have
been created and not yet freed.  Each owns its header sector and the sectors its
pointers name; `Owned v live` says that all of these are marked used, that none is
owned twice, that each inode has all the blocks its length asks for, and that there
are only zeros past its length.

An operation works on one inode `s`.  `Kept` is what it has to leave of the others:
their sectors unwritten, but for the blocks of the free map's own file, and their
`struct inode`s alone.  From that follow their headers, pointers and bytes
(`Kept.header`, `Kept.pointers`, `Kept.bytes`), and the invariant for them
(`Kept.owned`); the inode `s` itself is then put back (`Owned.insert`).
-/
import CS162.Fs.FreeMap
import Mathlib.Data.Set.Basic

namespace CS162.Fs

open Bytes Wp

/-! ## Headers, pointers, ownership -/

namespace Vol

/-- The header of an inode: in memory if it is open, else on the disk. -/
def header (v : Vol) (s : UInt32) : InodeDisk :=
  match inodeIn v.openInodes s with
  | some i => i.data
  | none => InodeDisk.ofSector (v.disk s)

/-- The sectors an inode names. -/
def pointers (v : Vol) (s : UInt32) : Slot → UInt32 := pointerAt v.disk (v.header s)

theorem header_open {v : Vol} {s : UInt32} {i : Inode} (h : inodeIn v.openInodes s = some i) :
    v.header s = i.data := by
  simp [header, h]

theorem header_closed {v : Vol} {s : UInt32} (h : inodeIn v.openInodes s = none) :
    v.header s = InodeDisk.ofSector (v.disk s) := by
  simp [header, h]

end Vol

/-- A sector belongs to one of the inodes in `L`. -/
def Foreign (v : Vol) (L : Set UInt32) (x : UInt32) : Prop :=
  x ∈ L ∨ ∃ t ∈ L, allSectors (v.pointers t) x

/-- A block of the free map's file, if that is in `L`. -/
def MapBlock (v : Vol) (L : Set UInt32) (x : UInt32) : Prop :=
  freeMapSector ∈ L ∧ dataSectors (v.pointers freeMapSector) x

structure Owned (v : Vol) (L : Set UInt32) : Prop where
  bitCnt : v.freeMap.bitCnt = v.size.toNat
  header : ∀ s ∈ L, v.freeMap.Used s
  used : ∀ s ∈ L, ∀ a, v.pointers s a ≠ unallocated → v.freeMap.Used (v.pointers s a)
  apart : ∀ s ∈ L, ∀ t ∈ L, ∀ a, v.pointers s a ≠ t
  inj : ∀ s ∈ L, ∀ t ∈ L, ∀ a b, v.pointers s a ≠ unallocated →
    v.pointers s a = v.pointers t b → s = t ∧ a = b
  full : ∀ s ∈ L, Full (v.pointers s) (v.header s).len
  blank : ∀ s ∈ L, s ≠ freeMapSector → Blank v.disk (v.pointers s) (v.header s).len

variable {v v' : Vol} {L : Set UInt32} {s t : UInt32} {i : Inode}

theorem Bitmap.Used.lt {b : Bitmap} {x size : UInt32} (h : b.Used x)
    (hb : b.bitCnt = size.toNat) : x < size := by
  have := h.1
  rw [hb] at this
  exact this

namespace Owned

theorem mono (h : Owned v L) {L' : Set UInt32} (hL : L' ⊆ L) : Owned v L' :=
  ⟨h.bitCnt, fun s hs => h.header s (hL hs), fun s hs => h.used s (hL hs),
    fun s hs t ht => h.apart s (hL hs) t (hL ht), fun s hs t ht => h.inj s (hL hs) t (hL ht),
    fun s hs => h.full s (hL hs), fun s hs => h.blank s (hL hs)⟩

theorem foreign_used (h : Owned v L) {x : UInt32} (hx : Foreign v L x) : v.freeMap.Used x := by
  rcases hx with hx | ⟨t, ht, a, hu, rfl⟩
  · exact h.header x hx
  · exact h.used t ht a hu

/-- An inode of its own is no sector of the others. -/
theorem not_foreign (h : Owned v L) (hs : s ∈ L) : ¬ Foreign v (L \ {s}) s := by
  rintro (hx | ⟨t, ht, a, -, he⟩)
  · exact hx.2 rfl
  · exact h.apart t ht.1 s hs a he

/-- The map of one inode is sound with respect to everybody's headers and the sectors
of the others. -/
theorem sound (h : Owned v L) (hs : s ∈ L) :
    Sound (fun x => x = s ∨ Foreign v (L \ {s}) x) v.freeMap (v.pointers s) := by
  refine ⟨h.used s hs, ?_, fun a b hu he => (h.inj s hs s hs a b hu he).2⟩
  rintro a hu (he | hx | ⟨t, ht, b, -, he⟩)
  · exact h.apart s hs s hs a he
  · exact h.apart s hs _ hx.1 a rfl
  · exact ht.2 (h.inj s hs t ht.1 a b hu he.symm).1.symm

theorem distinct (h : Owned v L) (hs : s ∈ L) : Distinct v.size (v.pointers s) :=
  (h.sound hs).distinct h.bitCnt

/-- An inode whose map is sound with respect to all others joins them. -/
theorem insert (h : Owned v L) (hs : s ∉ L) (hused : v.freeMap.Used s) (hfor : ¬ Foreign v L s)
    (hsound : Sound (fun x => x = s ∨ Foreign v L x) v.freeMap (v.pointers s))
    (hfull : Full (v.pointers s) (v.header s).len)
    (hblank : s ≠ freeMapSector → Blank v.disk (v.pointers s) (v.header s).len) :
    Owned v (insert s L) := by
  refine ⟨h.bitCnt, ?_, ?_, ?_, ?_, ?_, ?_⟩
  · rintro t (rfl | ht)
    · exact hused
    · exact h.header t ht
  · rintro t (rfl | ht)
    · exact hsound.used
    · exact h.used t ht
  · rintro t (rfl | ht) t' (rfl | ht') a he
    · have hu : t' ≠ unallocated := ne_unallocated (hused.lt h.bitCnt)
      exact hsound.apart a (by rw [he]; exact hu) (Or.inl he)
    · have hu : t' ≠ unallocated := ne_unallocated ((h.header t' ht').lt h.bitCnt)
      exact hsound.apart a (he ▸ hu) (Or.inr (Or.inl (he ▸ ht')))
    · have hu : t' ≠ unallocated := ne_unallocated (hused.lt h.bitCnt)
      exact hfor (Or.inr ⟨t, ht, a, he ▸ hu, he⟩)
    · exact h.apart t ht t' ht' a he
  · rintro t (rfl | ht) t' (rfl | ht') a b hu he
    · exact ⟨rfl, hsound.inj a b hu he⟩
    · exact absurd (Or.inr (Or.inr ⟨t', ht', b, he ▸ hu, he.symm⟩)) (hsound.apart a hu)
    · exact absurd (Or.inr (Or.inr ⟨t, ht, a, hu, he⟩)) (hsound.apart b (he ▸ hu))
    · exact h.inj t ht t' ht' a b hu he
  · rintro t (rfl | ht)
    · exact hfull
    · exact h.full t ht
  · rintro t (rfl | ht)
    · exact hblank
    · exact h.blank t ht

end Owned

/-! ## What is left of the others -/

structure Kept (v : Vol) (L : Set UInt32) (v' : Vol) : Prop where
  size : v'.size = v.size
  bitCnt : v'.freeMap.bitCnt = v.freeMap.bitCnt
  held : ∀ x, Foreign v L x → v'.freeMap.Used x
  frame : ∀ x, Foreign v L x → ¬ MapBlock v L x → v'.disk x = v.disk x
  opens : ∀ t ∈ L, inodeIn v'.openInodes t = inodeIn v.openInodes t

namespace Kept

variable (h : Kept v L v') (ho : Owned v L)

include h ho

theorem header (ht : t ∈ L) : v'.header t = v.header t := by
  unfold Vol.header
  rw [h.opens t ht]
  have hd : v'.disk t = v.disk t := by
    refine h.frame t (Or.inl ht) ?_
    rintro ⟨h0, a, -, -, he⟩
    exact ho.apart freeMapSector h0 t ht a he
  rw [hd]

theorem pointers (ht : t ∈ L) : v'.pointers t = v.pointers t := by
  unfold Vol.pointers
  rw [h.header ho ht]
  refine pointerAt_congr fun a ha hu => h.frame _ (Or.inr ⟨t, ht, a, hu, rfl⟩) ?_
  -- a table is no block of the free map's file
  rintro ⟨h0, b, hb, hbu, he⟩
  obtain ⟨-, rfl⟩ := ho.inj freeMapSector h0 t ht b a hbu he
  exact ha hb

theorem bytes (ht : t ∈ L) (h0 : t ≠ freeMapSector) (p : Nat) :
    byteAt v'.disk (v.pointers t) p = byteAt v.disk (v.pointers t) p := by
  refine byteAt_congr fun hu => h.frame _ (Or.inr ⟨t, ht, _, hu, rfl⟩) ?_
  rintro ⟨hf, b, -, hbu, he⟩
  exact h0 (ho.inj freeMapSector hf t ht b _ hbu he).1.symm

theorem foreign (x : UInt32) : Foreign v' L x ↔ Foreign v L x := by
  have hp : ∀ t ∈ L, v'.pointers t = v.pointers t := fun t ht => h.pointers ho ht
  constructor
  · rintro (hx | ⟨t, ht, hx⟩)
    · exact Or.inl hx
    · exact Or.inr ⟨t, ht, hp t ht ▸ hx⟩
  · rintro (hx | ⟨t, ht, hx⟩)
    · exact Or.inl hx
    · exact Or.inr ⟨t, ht, (hp t ht).symm ▸ hx⟩

theorem owned : Owned v' L := by
  have hp : ∀ t ∈ L, v'.pointers t = v.pointers t := fun t ht => h.pointers ho ht
  have hh : ∀ t ∈ L, v'.header t = v.header t := fun t ht => h.header ho ht
  refine ⟨by rw [h.bitCnt, h.size]; exact ho.bitCnt, fun s hs => h.held s (Or.inl hs), ?_, ?_, ?_,
    ?_, ?_⟩
  · intro s hs a hu
    rw [hp s hs] at hu ⊢
    exact h.held _ (Or.inr ⟨s, hs, a, hu, rfl⟩)
  · intro s hs t ht a
    rw [hp s hs]
    exact ho.apart s hs t ht a
  · intro s hs t ht a b
    rw [hp s hs, hp t ht]
    exact ho.inj s hs t ht a b
  · intro s hs
    rw [hp s hs, hh s hs]
    exact ho.full s hs
  · intro s hs h0 p hlen
    rw [hp s hs, h.bytes ho hs h0]
    rw [hh s hs] at hlen
    exact ho.blank s hs h0 p hlen

/-- Two operations in a row. -/
theorem trans {v'' : Vol} (h' : Kept v' L v'') : Kept v L v'' := by
  have hfor := h.foreign ho
  refine ⟨h'.size.trans h.size, h'.bitCnt.trans h.bitCnt, fun x hx => h'.held x ((hfor x).mpr hx),
    fun x hx hm => ?_, fun t ht => (h'.opens t ht).trans (h.opens t ht)⟩
  rw [h'.frame x ((hfor x).mpr hx) ?_, h.frame x hx hm]
  rintro ⟨h0, hF⟩
  rw [h.pointers ho h0] at hF
  exact hm ⟨h0, hF⟩

end Kept

/-! ## The invariant -/

/-- The free map's file is open and large enough. -/
structure MapFile (v : Vol) : Prop where
  file : v.freeMapFile = true
  isOpen : ∃ i, inodeIn v.openInodes freeMapSector = some i ∧ i.denyWriteCnt = 0 ∧
    byteCnt v.freeMap.bitCnt ≤ i.data.len
  max : byteCnt v.freeMap.bitCnt ≤ maxFileLen

/-- The state between calls. -/
structure FsInv (v : Vol) (L : Set UInt32) : Prop where
  owned : Owned v L
  mapLive : freeMapSector ∈ L
  map : MapFile v
  opens : ∀ s i, inodeIn v.openInodes s = some i → s ∈ L ∧ 0 < i.openCnt

theorem Owned.mapOk (h : Owned v L) (h0 : freeMapSector ∈ L) (hm : MapFile v) :
    MapOk (v.header freeMapSector) (v.pointers freeMapSector) v := by
  obtain ⟨i, hi, hdeny, hlen⟩ := hm.isOpen
  have hh := Vol.header_open hi
  exact ⟨h.bitCnt, hm.file, ⟨i, hi, hh.symm, hdeny⟩, rfl, h.distinct h0, h.full _ h0,
    by rw [hh]; exact hlen, hm.max⟩

theorem MapFile.congr (h : MapFile v) (hfile : v'.freeMapFile = v.freeMapFile)
    (hcnt : v'.freeMap.bitCnt = v.freeMap.bitCnt)
    (hopen : inodeIn v'.openInodes freeMapSector = inodeIn v.openInodes freeMapSector) :
    MapFile v' :=
  ⟨by rw [hfile]; exact h.file, by rw [hopen, hcnt]; exact h.isOpen, by rw [hcnt]; exact h.max⟩

/-- The history variable does not matter. -/
theorem FsInv.of_flag (h : FsInv v L) (b : Bool) : FsInv { v with allocFailed := b } L :=
  ⟨⟨h.owned.bitCnt, h.owned.header, h.owned.used, h.owned.apart, h.owned.inj, h.owned.full,
    h.owned.blank⟩, h.mapLive, h.map.congr rfl rfl rfl, h.opens⟩

/-- An operation on one inode: what it does to the others, and what that inode is
afterwards. -/
theorem Owned.of_change (h : Owned v L) (hs : s ∈ L) (hk : Kept v (L \ {s}) v')
    (hused : v'.freeMap.Used s)
    (hsound : Sound (fun x => x = s ∨ Foreign v (L \ {s}) x) v'.freeMap (v'.pointers s))
    (hfull : Full (v'.pointers s) (v'.header s).len)
    (hblank : s ≠ freeMapSector → Blank v'.disk (v'.pointers s) (v'.header s).len) :
    Owned v' L := by
  have ho := h.mono (Set.sdiff_subset : L \ {s} ⊆ L)
  have hfor : ∀ x, Foreign v' (L \ {s}) x ↔ Foreign v (L \ {s}) x := hk.foreign ho
  have hins : Insert.insert s (L \ {s}) = L := by
    rw [Set.insert_sdiff_singleton, Set.insert_eq_of_mem hs]
  rw [← hins]
  refine (hk.owned ho).insert (fun hc => hc.2 rfl) hused ?_ ?_ hfull hblank
  · rw [hfor]
    exact h.not_foreign hs
  · exact ⟨hsound.used, fun a hu hc => hsound.apart a hu (hc.imp_right (hfor _).mp), hsound.inj⟩

theorem FsInv.of_change (h : FsInv v L) (hs : s ∈ L) (ho : Owned v' L) (hmap : MapFile v')
    (hothers : ∀ t, t ≠ s → inodeIn v'.openInodes t = inodeIn v.openInodes t)
    (hself : ∀ i, inodeIn v'.openInodes s = some i → 0 < i.openCnt) : FsInv v' L := by
  refine ⟨ho, h.mapLive, hmap, ?_⟩
  intro t i hi
  by_cases ht : t = s
  · rw [ht] at hi ⊢
    exact ⟨hs, hself i hi⟩
  · rw [hothers t ht] at hi
    exact h.opens t i hi

/-- An operation that leaves disk and free map alone and changes the `struct inode` of
one inode, not its pointers nor its length. -/
theorem Owned.of_reheader (h : Owned v L) (hs : s ∈ L) {l : List Inode}
    (hothers : ∀ t, t ≠ s → inodeIn l t = inodeIn v.openInodes t)
    (hdirect : (Vol.header { v with openInodes := l } s).directPointers
      = (v.header s).directPointers)
    (hdoubly : (Vol.header { v with openInodes := l } s).doublyIndirect
      = (v.header s).doublyIndirect)
    (hlen : (Vol.header { v with openInodes := l } s).length = (v.header s).length) :
    Owned { v with openInodes := l } L := by
  have hp : Vol.pointers { v with openInodes := l } s = v.pointers s :=
    pointerAt_fields hdirect hdoubly
  have hl : (Vol.header { v with openInodes := l } s).len = (v.header s).len := by
    unfold InodeDisk.len
    rw [hlen]
  refine h.of_change hs ⟨rfl, rfl, fun x hx => ?_, fun _ _ _ => rfl, fun t ht => ?_⟩ ?_ ?_ ?_ ?_
  · exact (h.mono (Set.sdiff_subset : L \ {s} ⊆ L)).foreign_used hx
  · exact hothers t ht.2
  · exact h.header s hs
  · rw [hp]
    exact h.sound hs
  · rw [hp, hl]
    exact h.full s hs
  · rw [hp, hl]
    exact h.blank s hs

/-! ## Reading -/

/-- A read in the limits changes nothing. -/
theorem Owned.read {E : Panic → Vol → Prop} {size offset : Nat} (h : Owned v L) (hs : s ∈ L)
    (hi : inodeIn v.openInodes s = some i)
    (hmax : offset + size ≤ maxFileLen ∨ (v.header s).len ≤ maxFileLen) :
    vwp (inodeReadAt s size offset) (fun r v' => v' = v ∧
      r = bytesAt v.disk (v.pointers s) offset (min size ((v.header s).len - offset))) E v := by
  have hh := Vol.header_open hi
  have hp : v.pointers s = pointerAt v.disk i.data := by rw [Vol.pointers, hh]
  refine wpOn_seq (vwp_findInode (Q := fun k v' => k = i ∧ v' = v) hi ⟨rfl, rfl⟩) ?_
  rintro k v' ⟨rfl, rfl⟩
  refine wpOn_weaken (inodeReadLoop_spec (by rw [← hp]; exact h.distinct hs) _ le_rfl ?_) ?_
  · intro p _ hlt hpl
    have hpm : p < maxFileLen := by
      rw [hh] at hmax
      omega
    refine ⟨hpm, ?_⟩
    rw [← hp]
    refine h.full _ hs _ ?_
    rw [Slot.base_ofPos hpm, hh]
    omega
  · rintro r v' ⟨rfl, rfl⟩
    refine ⟨rfl, ?_⟩
    rw [hp, hh, List.nil_append]

/-! ## Writing -/

section Ops

variable {E : Panic → Vol → Prop}

/-- The sectors a write to `s` must not hand out: its header and those of the
others. -/
abbrev Taken (v : Vol) (L : Set UInt32) (s x : UInt32) : Prop := x = s ∨ Foreign v (L \ {s}) x

/-- The sectors of others it may write: its header, and the free map's file unless that
is being written itself. -/
abbrev Writable (v : Vol) (s x : UInt32) : Prop :=
  x = s ∨ (s ≠ freeMapSector ∧ dataSectors (v.pointers freeMapSector) x)

/-- A write keeps the invariant, and the other files. -/
theorem FsInv.write {buffer : List UInt8} {offset : Nat} (h : FsInv v L)
    (hi : inodeIn v.openInodes s = some i)
    (hlock : s = freeMapSector → ∀ v', E .lockHeld v') (hbuf : buffer.length < 2 ^ 31)
    (hoff : offset < 2 ^ 31) (hE : offset + buffer.length ≤ maxFileLen ∨ ∀ v', E .pastEnd v') :
    vwp (inodeWriteAt s buffer offset) (fun r v' => FsInv v' L ∧ Kept v (L \ {s}) v' ∧ ∃ id',
      WriteDone (Taken v L s) (Writable v s) s v i buffer offset r v' id' ∧
      (i.denyWriteCnt = 0 → offset + buffer.length < 2 ^ 31 →
        WriteOutcome i buffer offset r v' id')) E v := by
  obtain ⟨hs, hcnt⟩ := h.opens s i hi
  have hh := Vol.header_open hi
  have hp : v.pointers s = pointerAt v.disk i.data := by rw [Vol.pointers, hh]
  have ho := h.owned.mono (Set.sdiff_subset : L \ {s} ⊆ L)
  have hsound := h.owned.sound hs
  have hheld : ∀ x, Taken v L s x → v.freeMap.Used x := by
    rintro x (rfl | hx)
    · exact h.owned.header x hs
    · exact ho.foreign_used hx
  have hfull : Full (pointerAt v.disk i.data) i.data.len := by
    have := h.owned.full s hs
    rwa [hp, hh] at this
  have hE' := hE.imp_left fun hm => And.intro hm hfull
  rw [hp] at hsound
  -- whatever the allocator, the rest follows from what the write leaves behind
  have key : ∀ r v', (∃ id', WriteDone (Taken v L s) (Writable v s) s v i buffer offset r v' id' ∧
      (i.denyWriteCnt = 0 → offset + buffer.length < 2 ^ 31 →
        WriteOutcome i buffer offset r v' id')) → FsInv v' L ∧ Kept v (L \ {s}) v' ∧ ∃ id',
      WriteDone (Taken v L s) (Writable v s) s v i buffer offset r v' id' ∧
      (i.denyWriteCnt = 0 → offset + buffer.length < 2 ^ 31 →
        WriteOutcome i buffer offset r v' id') := by
    rintro r v' ⟨id', hd, hout⟩
    have hkept : Kept v (L \ {s}) v' := by
      refine ⟨hd.size, hd.bitCnt, fun x hx => hd.held x (Or.inr hx), fun x hx hm => ?_,
        fun t ht => hd.others t ht.2⟩
      refine hd.frame x (Or.inr hx) ?_
      rintro (rfl | ⟨h0, hF⟩)
      · exact h.owned.not_foreign hs hx
      · exact hm ⟨⟨h.mapLive, Ne.symm h0⟩, hF⟩
    have hh' := Vol.header_open hd.self
    have hp' : v'.pointers s = pointerAt v'.disk id' := by rw [Vol.pointers, hh']
    refine ⟨h.of_change hs (h.owned.of_change hs hkept (hd.held s (Or.inl rfl)) ?_ ?_ ?_) ?_
      hd.others ?_, hkept, id', hd, hout⟩
    · rw [hp']
      exact hd.sound
    · rw [hp', hh']
      exact hd.full (Or.inl hfull)
    · intro h0
      have hb := h.owned.blank s hs h0
      rw [hp, hh] at hb
      rw [hp', hh']
      exact (hd.bytes hb).1
    · by_cases h0 : s = freeMapSector
      · subst h0
        obtain ⟨j, hj, hdeny, hlen⟩ := h.map.isOpen
        obtain rfl : j = i := Option.some.inj (hj.symm.trans hi)
        refine ⟨hd.file.trans h.map.file, ⟨_, hd.self, hdeny, ?_⟩, ?_⟩
        · rw [hd.bitCnt]
          exact hlen.trans hd.grown
        · rw [hd.bitCnt]
          exact h.map.max
      · exact h.map.congr hd.file hd.bitCnt (hd.others _ (Ne.symm h0))
    · intro j hj
      rw [hd.self] at hj
      cases hj
      exact hcnt
  unfold inodeWriteAt
  refine wpOn_ite (fun h0 => ?_) (fun h0 => ?_)
  · refine wpOn_weaken (inodeWriteAtWith_spec (R := Taken v L s) (W := Writable v s)
      (heldMap_spec v.freeMap (hlock h0)) (fun _ hx => hx.elim)
      (fun _ hx => hx.elim) (Or.inl rfl) (fun hx => hx.elim) (Or.inl rfl) (.inl hfull) hi
      ⟨rfl, h.owned.bitCnt, h.map.file⟩ hsound hheld hbuf hoff hE') ?_
    rintro r v' ⟨id', hd, -, hout⟩
    exact key r v' ⟨id', hd, hout⟩
  · have hmapL : freeMapSector ∈ L \ {s} := ⟨h.mapLive, Ne.symm h0⟩
    refine wpOn_weaken (inodeWriteAtWith_spec (R := Taken v L s) (W := Writable v s)
      (freeMap_spec (v.header freeMapSector) (v.pointers freeMapSector) E) ?_ ?_ (Or.inl rfl) ?_
      (Or.inl rfl) (.inl hfull) hi (h.owned.mapOk h.mapLive h.map) hsound hheld hbuf hoff hE') ?_
    · exact fun x hx => Or.inr (Or.inr ⟨_, hmapL, hx⟩)
    · exact fun x hx => Or.inr ⟨h0, hx⟩
    · rintro ⟨a, -, he⟩
      exact h.owned.apart _ h.mapLive s hs a he
    · rintro r v' ⟨id', hd, -, hout⟩
      exact key r v' ⟨id', hd, hout⟩

/-! ## Creating -/

/-- A new file keeps the invariant, and the other files. -/
theorem FsInv.create (hstack : ∀ v', v'.allocFailed = true → E .stack v') {length : Nat}
    (h : FsInv v L) (hs : s ∉ L) (hused : v.freeMap.Used s)
    (hfor : ¬ Foreign v L s) (hlen : length < 2 ^ 31) :
    vwp (inodeCreate s length) (fun r v' => r = true ∧ FsInv v' (insert s L) ∧ Kept v L v' ∧
      v'.openInodes = v.openInodes ∧ (v.allocFailed = true → v'.allocFailed = true) ∧
      (∃ p q, v'.header s = { newInode length with directPointers := p, doublyIndirect := q }) ∧
      ∀ p, byteAt v'.disk (v'.pointers s) p = 0) E v := by
  have hnone : inodeIn v.openInodes s = none := by
    cases hc : inodeIn v.openInodes s with
    | none => rfl
    | some j => exact absurd (h.opens s j hc).1 hs
  have hheld : ∀ x, (x = s ∨ Foreign v L x) → v.freeMap.Used x := by
    rintro x (rfl | hx)
    · exact hused
    · exact h.owned.foreign_used hx
  refine wpOn_weaken (inodeCreate_spec (R := fun x => x = s ∨ Foreign v L x)
    (W := fun x => x = s ∨ dataSectors (v.pointers freeMapSector) x)
    (freeMap_spec (v.header freeMapSector) (v.pointers freeMapSector) E)
    (fun x hx => Or.inr (Or.inr ⟨_, h.mapLive, hx⟩)) (fun x hx => Or.inr hx) (Or.inl rfl) ?_
    (Or.inl rfl) hstack hlen (h.owned.mapOk h.mapLive h.map) hheld) ?_
  · exact fun hx => hfor (Or.inr ⟨_, h.mapLive, hx⟩)
  rintro r v' ⟨hr, id', hx⟩
  have hopen : v'.openInodes = v.openInodes := hx.ext.opens
  have hcnt : v'.freeMap.bitCnt = v.freeMap.bitCnt := by
    have h1 := hx.ext.inv.bitCnt
    rw [hx.ext.size] at h1
    rw [h1, h.owned.bitCnt]
    rfl
  have hkept : Kept v L v' := by
    refine ⟨hx.ext.size, hcnt, fun x hx' => (hx.ext.held x (Or.inr hx')).2,
      fun x hx' hm => ?_, fun t _ => by rw [hopen]⟩
    have hne : x ≠ s := by
      rintro rfl
      exact hfor hx'
    have := hx.ext.frame x (Or.inr hx')
      (fun hc => hc.elim hne fun hF => hm ⟨h.mapLive, hF⟩)
    rw [this, Vol.write_other _ _ hne]
  obtain ⟨p, q, hid⟩ := hx.fields
  have hh : v'.header s = id' := by
    rw [Vol.header_closed (by rw [hopen]; exact hnone), hx.header, InodeDisk.ofSector_toSector]
  have hp : v'.pointers s = pointerAt v'.disk id' := by rw [Vol.pointers, hh]
  have hlen' : id'.len = length := by rw [hid]; exact InodeDisk.len_setLen hlen
  have hfor' := hkept.foreign h.owned
  have howned : Owned v' (insert s L) := by
    refine (hkept.owned h.owned).insert hs (hx.ext.held s (Or.inl rfl)).2 ?_ ?_ ?_ ?_
    · rw [hfor']
      exact hfor
    · rw [hp]
      exact ⟨hx.ext.sound.used, fun a hu hc => hx.ext.sound.apart a hu (hc.imp_right (hfor' _).mp),
        hx.ext.sound.inj⟩
    · rw [hp, hh, hlen']
      exact hx.full
    · intro _ p _
      rw [hp]
      exact hx.bytes_newInode p
  refine ⟨hr, ⟨howned, Or.inr h.mapLive, h.map.congr hx.ext.file hcnt (by rw [hopen]), ?_⟩, hkept,
    hopen, hx.ext.failed, ⟨p, q, ?_⟩, fun p => ?_⟩
  · intro t j hj
    rw [hopen] at hj
    exact ⟨Or.inr (h.opens t j hj).1, (h.opens t j hj).2⟩
  · rw [hh, hid]
    rfl
  · rw [hp]
    exact hx.bytes_newInode p

/-- An allocation takes a sector nobody owns. -/
theorem FsInv.allocate (h : FsInv v L) :
    vwp (freeMapAllocate 1) (fun r v' => FsInv v' L ∧ Kept v L v' ∧
      v'.openInodes = v.openInodes ∧ (v.allocFailed = true → v'.allocFailed = true) ∧
      match r with
      | none => v' = { v with allocFailed := true } ∧ v.freeMap.AllUsed
      | some x => x ∉ L ∧ v'.freeMap.Used x ∧ ¬ Foreign v' L x) E v := by
  have hok := h.owned.mapOk h.mapLive h.map
  refine wpOn_weaken ((freeMap_spec (v.header freeMapSector) (v.pointers freeMapSector) E).alloc v
    hok) ?_
  intro r v' hr
  cases r with
  | none =>
      obtain ⟨-, rfl, hall⟩ := hr
      refine ⟨h.of_flag true, ⟨rfl, rfl, fun x hx => ?_, fun _ _ _ => rfl, fun _ _ => rfl⟩, rfl,
        fun _ => rfl, rfl, hall⟩
      exact h.owned.foreign_used hx
  | some x =>
      obtain ⟨-, hlt, hfree, d, rfl, hd⟩ := hr
      have hnot : ¬ Foreign v L x := by
        intro hx
        have := (h.owned.foreign_used hx).2
        rw [hfree] at this
        cases this
      have hkept : Kept v L
          { v with freeMap := bitmapSet v.freeMap x.toNat true, disk := d } := by
        refine ⟨rfl, rfl, fun y hy => Bitmap.used_set_true (h.owned.foreign_used hy),
          fun y hy hm => hd y fun hF => hm ⟨h.mapLive, hF⟩, fun _ _ => rfl⟩
      refine ⟨⟨hkept.owned h.owned, h.mapLive, h.map.congr rfl rfl rfl, h.opens⟩, hkept, rfl,
        fun hf => hf, fun hx => hnot (Or.inl hx), Bitmap.used_set_self hlt, ?_⟩
      rw [hkept.foreign h.owned]
      exact hnot

end Ops

end CS162.Fs
