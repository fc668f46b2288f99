/-
# `CS162.Fs.Blocks` — which blocks an inode has

`inode_extend` goes over the pointers in order and compares sizes, `inode_fetch_block` divides a
position.  Here the two are put together, through the map of `CS162.Fs.Pointers`: `fetch` reads the
map at the slot of the position (`fetch_eq`), and the slots of data that an attempt leaves are those
that begin below the size.

The tables of the inode may be more than its blocks need; `inode_extend` leaves behind such that name
no block.  So what is assumed of the inode is said in terms of `fetch`.  A position in a file is never
negative, and is a natural number.
-/
import CS162.Fs.CreationFails

namespace CS162.Fs

open Bytes Wp

variable {fs fs' : FsState} {v v' : Vol} {s : UInt32} {id id' : InodeDisk} {len size pos p q : Nat}
  {R : UInt32 → Prop} {m₀ m n : Slot → UInt32} {a : Slot}

/-! ## Fetching -/

/-- What `inode_fetch_block` returns. -/
def fetch (fs : FsState) (id : InodeDisk) (pos : Nat) : Option UInt32 :=
  returnedValue (inodeFetchBlock id pos) fs

/-- `bytes_to_sectors`. -/
def bytesToSectors (size : Nat) : Nat := (size + 511) / 512

/-- The first `n` blocks are allocated, and no others. -/
def Allocates (fs : FsState) (id : InodeDisk) (n : Nat) : Prop :=
  ∀ pos, ∃ x, fetch fs id pos = some x ∧ (x ≠ unallocated ↔ pos < 512 * n)

/-- The sectors named are sectors of the device. -/
def OnDevice (v : Vol) (id : InodeDisk) : Prop :=
  ∀ a, pointerAt v.disk id a ≠ unallocated → pointerAt v.disk id a < v.size

theorem fetch_eq (hin : OnDevice fs.vol id) (pos : Nat) : fetch fs id pos =
    some (if pos < maxFileLen then pointerAt fs.vol.disk id (.ofPos pos) else unallocated) := by
  have hrun : vwp (inodeFetchBlock id pos) (fun x _ => x =
      if pos < maxFileLen then pointerAt fs.vol.disk id (.ofPos pos) else unallocated) never fs.vol :=
    vwp_inodeFetchBlock hin rfl
  unfold fetch returnedValue
  rcases wpOn_run hrun with ⟨x, fs', hx, rfl⟩ | ⟨e, fs', -, hf⟩
  · rw [hx]
  · exact hf.elim

/-- A block begins below the size if any byte of it is below. -/
theorem lt_bytesToSectors (pos size : Nat) :
    pos < 512 * bytesToSectors size ↔ pos / 512 * 512 < size := by
  unfold bytesToSectors
  omega

theorem bytesToSectors_le (h : size ≤ maxFileLen) : 512 * bytesToSectors size ≤ maxFileLen := by
  unfold bytesToSectors
  simp only [maxFileLen] at h ⊢
  omega

/-- In terms of the map. -/
theorem allocates_iff (hin : OnDevice fs.vol id) (hmax : size ≤ maxFileLen) :
    Allocates fs id (bytesToSectors size) ↔
      ∀ a : Slot, a.IsData → (pointerAt fs.vol.disk id a ≠ unallocated ↔ a.base < size) := by
  have hle := bytesToSectors_le hmax
  constructor
  · intro h a ha
    obtain ⟨hlt, hofPos⟩ := Slot.ofPos_base ha
    obtain ⟨x, hx, hiff⟩ := h a.base
    rw [fetch_eq hin, if_pos hlt, hofPos] at hx
    obtain rfl := Option.some.inj hx
    have hbase := Slot.base_ofPos hlt
    rw [hofPos] at hbase
    rw [hiff, lt_bytesToSectors, ← hbase]
  · intro h pos
    refine ⟨_, fetch_eq hin pos, ?_⟩
    by_cases hlt : pos < maxFileLen
    · rw [if_pos hlt, h _ (Slot.ofPos_isData pos), Slot.base_ofPos hlt, lt_bytesToSectors]
    · rw [if_neg hlt]
      exact iff_of_false (fun hne => hne rfl) (by omega)

/-! ## Enough sectors -/

/-- The sectors that are to be allocated. -/
def missing (m : Slot → UInt32) (size : Nat) : Finset Nat :=
  (Finset.range (sectors size)).filter fun p => m (.atPos p) = unallocated

/-- Where an attempt stops, fewer sectors were free than are missing. -/
theorem Halted.lack (hh : Halted R v m₀ m₀ v' n a) (hacc : Account R v.freeMap m₀) (ha : a.base < size)
    (hR' : ∀ x, R x → v'.freeMap.Used x) (hcnt : v'.freeMap.bitCnt = v.freeMap.bitCnt)
    (hb : v.freeMap.bitCnt ≤ 2 ^ 32) : freeCnt v.freeMap < (missing m₀ size).card := by
  have hlt := a.pos_lt
  have hpos := (a.base_lt size).mp ha
  -- what has been named since are the missing ones up to `a`
  have hnamed : named n =
      named m₀ ∪ (Finset.range a.pos).filter fun p => m₀ (.atPos p) = unallocated := by
    ext p
    rw [Finset.mem_union, Finset.mem_filter, Finset.mem_range, mem_named, mem_named]
    constructor
    · rintro ⟨hp, hu⟩
      by_cases h0 : m₀ (.atPos p) = unallocated
      · refine .inr ⟨Nat.lt_of_not_le fun hle => hu ?_, h0⟩
        rw [hh.behind _ (by rw [Slot.pos_atPos hp]; exact hle), h0]
      · exact .inl ⟨hp, h0⟩
    · rintro (⟨hp, hu⟩ | ⟨hp, -⟩)
      · exact ⟨hp, by rw [hh.below _ hu]; exact hu⟩
      · have hp' : p < 16636 := by omega
        exact ⟨hp', hh.before _ (by rw [Slot.pos_atPos hp']; exact hp)⟩
  have hdisj : Disjoint (named m₀)
      ((Finset.range a.pos).filter fun p => m₀ (.atPos p) = unallocated) := by
    rw [Finset.disjoint_left]
    intro p hp hp'
    exact (mem_named.mp hp).2 (Finset.mem_filter.mp hp').2
  have hcard := hacc.free ⟨hh.sound, hh.covered hacc.covered, hR'⟩ hcnt hb
  rw [hh.allUsed.freeCnt, hnamed, Finset.card_union_of_disjoint hdisj] at hcard
  have hsub : (Finset.range a.pos).filter (fun p => m₀ (.atPos p) = unallocated) ⊂ missing m₀ size := by
    refine Finset.ssubset_iff_of_subset (fun p hp => ?_) |>.mpr ⟨a.pos, ?_, ?_⟩
    · obtain ⟨hp, hu⟩ := Finset.mem_filter.mp hp
      exact Finset.mem_filter.mpr ⟨Finset.mem_range.mpr ((Finset.mem_range.mp hp).trans hpos), hu⟩
    · exact Finset.mem_filter.mpr ⟨Finset.mem_range.mpr hpos, by rw [Slot.atPos_pos]; exact hh.here⟩
    · simp
  have := Finset.card_lt_card hsub
  omega

/-! ## Extending -/

/-- The inode's sector and those it names are in use, each for one thing. -/
structure Owns (v : Vol) (s : UInt32) (id : InodeDisk) : Prop where
  self : v.freeMap.Used s
  used : ∀ a, pointerAt v.disk id a ≠ unallocated → v.freeMap.Used (pointerAt v.disk id a)
  apart : ∀ a, pointerAt v.disk id a ≠ s
  inj : ∀ a b, pointerAt v.disk id a ≠ unallocated → pointerAt v.disk id a = pointerAt v.disk id b → a = b

/-- The free map's file is open, and none of its sectors is the inode's. -/
structure MapApart (v : Vol) (s : UInt32) (id : InodeDisk) : Prop where
  map : MapOk (v.header freeMapSector) (v.pointers freeMapSector) v
  used : ∀ x, allSectors (v.pointers freeMapSector) x → v.freeMap.Used x
  apart : ∀ x, allSectors (v.pointers freeMapSector) x → x ≠ s ∧ ¬ allSectors (pointerAt v.disk id) x

/-- Sectors that nobody owns count as others'. -/
def Rest (v : Vol) (id : InodeDisk) (x : UInt32) : Prop :=
  v.freeMap.Used x ∧ ¬ allSectors (pointerAt v.disk id) x

theorem Owns.rest_self (h : Owns v s id) : Rest v id s := by
  refine ⟨h.self, ?_⟩
  rintro ⟨a, -, he⟩
  exact h.apart a he

theorem Owns.account (h : Owns v s id) : Account (Rest v id) v.freeMap (pointerAt v.disk id) := by
  refine ⟨⟨h.used, fun a hu hr => hr.2 ⟨a, hu, rfl⟩, h.inj⟩, fun x hx => ?_, fun x hx => hx.1⟩
  by_cases hn : allSectors (pointerAt v.disk id) x
  · exact .inr hn
  · exact .inl ⟨hx, hn⟩

theorem Owns.onDevice (h : Owns v s id) (hb : v.freeMap.bitCnt = v.size.toNat) : OnDevice v id :=
  fun a ha => (h.used a ha).lt hb

section Extend

variable {alloc : FsM (Option UInt32)} {release : UInt32 → FsM Unit} {I : Vol → Prop}
  {K F W : UInt32 → Prop} {E : Panic → Vol → Prop} (spec : FreeMapSpec alloc release I K F E)
  (hKR : ∀ x, K x → R x) (hFW : ∀ x, F x → W x) (hRs : R s) (hKs : ¬ K s) (hWs : W s)

include spec hKR hFW hRs hKs hWs

/-- A call that returns true is one attempt; one that does not met a disk with too few sectors. -/
theorem inodeExtend_true (depth : Nat) (hI : I v) (hacc : Account R v.freeMap (pointerAt v.disk id))
    (hE : (missing (pointerAt v.disk id) size).card ≤ freeCnt v.freeMap ∨ ∀ e v', E e v') :
    vwp (inodeExtend alloc release (depth + 1) s id size) (fun r v' =>
      (r.1 = true → Extended I R W R s v id size v' r.2 ∧
        Trimmed R v (pointerAt v.disk id) size v' (pointerAt v'.disk r.2)) ∧
      (r.1 = false → freeCnt v.freeMap < (missing (pointerAt v.disk id) size).card)) E v := by
  have hcnt := spec.size v hI
  have hss : s < v.size := (hacc.held s hRs).lt hcnt
  have hb : v.freeMap.bitCnt ≤ 2 ^ 32 := by
    rw [hcnt]
    exact Nat.le_of_lt v.size.toNat_lt
  refine wpOn_seq (inodeExtendOnce_spec (H := R) spec hKR hFW hRs hKs hWs hss hI hacc.sound
    (fun x hx => ⟨hx, hacc.held x hx⟩) fun _ _ hx => hx) ?_
  rintro ⟨ok, id₁⟩ v₁ ⟨hok, hstop⟩
  cases ok with
  | true => exact wpOn_pure ⟨fun _ => hok rfl, fun hf => by cases hf⟩
  | false =>
      have hst : Stopped I R W R v id size v₁ id₁ := hstop rfl
      obtain ⟨a, n, ha, hh, -⟩ := hst.halted
      have hlack := hh.lack hacc ha (fun x hx => (hst.ext.held x hx).2)
        (by rw [spec.size _ hst.ext.inv, hst.ext.size, hcnt]) hb
      -- what the second call does is not looked at
      refine wpOn_seq (Q := fun _ _ => True) ?_
        fun _ _ _ => wpOn_pure ⟨fun hf => (by cases hf), fun _ => hlack⟩
      intro fs _
      unfold wp
      split
      · trivial
      · exact hE.resolve_left (Nat.not_le.mpr hlack) _ _

end Extend

/-- The data blocks after a call that has returned true. -/
theorem Extended.data_iff {I : Vol → Prop} {W H : UInt32 → Prop}
    (hx : Extended I R W H s v id size v' id')
    (ht : Trimmed R v (pointerAt v.disk id) size v' (pointerAt v'.disk id'))
    (hdata : ∀ a : Slot, a.IsData → (pointerAt v.disk id a ≠ unallocated ↔ a.base < len))
    (hle : len ≤ size)
    (ha : a.IsData) : pointerAt v'.disk id' a ≠ unallocated ↔ a.base < size := by
  refine ⟨fun hu => Nat.lt_of_not_le fun hge => hu (ht.empty a ha hge ?_), hx.full a⟩
  by_contra hu₀
  have := (hdata a ha).mp hu₀
  omega

theorem Extended.data_kept {I : Vol → Prop} {W H : UInt32 → Prop}
    (hx : Extended I R W H s v id size v' id') (hu : pointerAt v.disk id a ≠ unallocated)
    (ha : a.base < size) :
    pointerAt v'.disk id' a = pointerAt v.disk id a := by
  rcases hx.ext.step a with h | h | h
  · exact absurd h (hx.full a ha)
  · exact h
  · exact absurd h hu

/-! ## The two functions agree -/

/-- The inode `id'` has the blocks that `size` asks for, and among them the `n` blocks of `id`. -/
structure Agrees (fs : FsState) (id : InodeDisk) (n : Nat) (fs' : FsState) (id' : InodeDisk)
    (size : Nat) : Prop where
  blocks : Allocates fs' id' (bytesToSectors size)
  distinct : ∀ p q, p < 512 * bytesToSectors size → q < 512 * bytesToSectors size →
    (fetch fs' id' p = fetch fs' id' q ↔ p / 512 = q / 512)
  kept : ∀ p, p < 512 * n → fetch fs' id' p = fetch fs id p

/-- The indices that `inode_fetch_block` computes are those
of the arrays; `inode_extend` counts through them. -/
structure InBounds (pos : Nat) : Prop where
  direct : pos < directPointerSize → pos / 512 < 123
  indirect : pos < maxFileLen → (pos - directPointerSize) / 65536 < 128
  data : (pos - directPointerSize - (pos - directPointerSize) / 65536 * 65536) / 512 < 128

theorem inBounds (pos : Nat) : InBounds pos := ⟨direct_lt, indirect_lt, by omega⟩

/-- What was extended is what `inode_fetch_sector` finds. -/
theorem Extended.agrees {I : Vol → Prop} {W H : UInt32 → Prop}
    (hx : Extended I R W H s fs.vol id size fs'.vol id')
    (ht : Trimmed R fs.vol (pointerAt fs.vol.disk id) size fs'.vol (pointerAt fs'.vol.disk id'))
    (hin : OnDevice fs.vol id) (hcnt : fs'.vol.freeMap.bitCnt = fs'.vol.size.toNat) (hle : len ≤ size)
    (hmax : size ≤ maxFileLen) (hblocks : Allocates fs id (bytesToSectors len)) :
    Agrees fs id (bytesToSectors len) fs' id' size := by
  have hdata := (allocates_iff hin (hle.trans hmax)).mp hblocks
  have hin' : OnDevice fs'.vol id' := fun a ha => hx.ext.sound.lt_size hcnt ha
  have hdata' : ∀ a : Slot, a.IsData → (pointerAt fs'.vol.disk id' a ≠ unallocated ↔ a.base < size) :=
    fun a ha => hx.data_iff ht hdata hle ha
  refine ⟨(allocates_iff hin' hmax).mpr hdata', fun p q hp hq => ?_, fun p hp => ?_⟩
  · have hp' : p < maxFileLen := Nat.lt_of_lt_of_le hp (bytesToSectors_le hmax)
    have hq' : q < maxFileLen := Nat.lt_of_lt_of_le hq (bytesToSectors_le hmax)
    rw [fetch_eq hin', fetch_eq hin', if_pos hp', if_pos hq', Option.some.injEq]
    constructor
    · intro he
      have hu : pointerAt fs'.vol.disk id' (.ofPos p) ≠ unallocated := by
        rw [hdata' _ (Slot.ofPos_isData p), Slot.base_ofPos hp', ← lt_bytesToSectors]
        exact hp
      exact Slot.ofPos_inj hp' hq' (hx.ext.sound.inj _ _ hu he)
    · intro he
      rw [Slot.ofPos_eq hq' he]
  · have hp' : p < maxFileLen := Nat.lt_of_lt_of_le hp (bytesToSectors_le (hle.trans hmax))
    have hlt : (Slot.ofPos p).base < len := by
      rw [Slot.base_ofPos hp', ← lt_bytesToSectors]
      exact hp
    rw [fetch_eq hin', fetch_eq hin, if_pos hp', if_pos hp', hx.data_kept
      ((hdata _ (Slot.ofPos_isData p)).mpr hlt) (Nat.lt_of_lt_of_le hlt hle)]

/-- With enough free sectors `inode_extend` returns true; and when it does, `inode_fetch_block` finds
the blocks of the size.  The second is so during formatting too, when the free map has no file. -/
theorem extend_fetch_agree (hown : Owns fs.vol s id) (hmap : MapApart fs.vol s id ∨ NoFile fs.vol)
    (hle : len ≤ size) (hmax : size ≤ maxFileLen) (hblocks : Allocates fs id (bytesToSectors len)) :
    (MapApart fs.vol s id → (missing (pointerAt fs.vol.disk id) size).card ≤ freeCnt fs.freeMap →
      ∃ id' fs', extend s id size fs = .ok (true, id') fs') ∧
    (∀ id' fs', extend s id size fs = .ok (true, id') fs' →
      Agrees fs id (bytesToSectors len) fs' id' size) ∧
    ∀ pos, InBounds pos := by
  have hacc := hown.account
  have hnormal : MapApart fs.vol s id →
      (∀ x, allSectors (fs.vol.pointers freeMapSector) x → Rest fs.vol id x) ∧
        ¬ allSectors (fs.vol.pointers freeMapSector) s :=
    fun h => ⟨fun x hx => ⟨h.used x hx, (h.apart x hx).2⟩, fun hs => (h.apart s hs).1 rfl⟩
  refine ⟨fun h henough => ?_, fun id' fs' hrun => ?_, inBounds⟩
  · obtain ⟨hKR, hKs⟩ := hnormal h
    rcases wpOn_run (s := fs) (inodeExtend_true (W := fun _ => True)
      (freeMap_spec _ _ fun _ _ => False) hKR (fun _ _ => trivial) hown.rest_self hKs trivial 2 h.map
      hacc (.inl henough)) with ⟨⟨ok, id'⟩, fs', hrun, -, hlack⟩ | ⟨e, fs', -, hf⟩
    · cases ok with
      | true => exact ⟨id', fs', hrun⟩
      | false => exact absurd henough (Nat.not_le.mpr (hlack rfl))
    · exact hf.elim
  · rcases hmap with h | h
    · obtain ⟨hKR, hKs⟩ := hnormal h
      obtain ⟨hx, ht⟩ := (wpOn_ok (inodeExtend_true (W := fun _ => True)
        (freeMap_spec _ _ fun _ _ => True) hKR (fun _ _ => trivial) hown.rest_self hKs trivial 2 h.map
        hacc (.inr fun _ _ => trivial)) hrun).1 rfl
      exact hx.agrees ht (hown.onDevice h.map.bitCnt) hx.ext.inv.bitCnt hle hmax hblocks
    · obtain ⟨hx, ht⟩ := (wpOn_ok (inodeExtend_true (W := fun _ => True)
        (formatMap_spec (E := fun _ _ => True) fun _ => trivial) (fun _ hf => hf.elim)
        (fun _ hf => hf.elim) hown.rest_self not_false trivial 2 h hacc
        (.inr fun _ _ => trivial)) hrun).1 rfl
      exact hx.agrees ht (hown.onDevice h.1) hx.ext.inv.1 hle hmax hblocks

/-! ### On a disk that has been formatted -/

theorem FsInv.owns {L : Set UInt32} (h : FsInv v L) (hs : s ∈ L) : Owns v s (v.header s) :=
  ⟨h.owned.header s hs, h.owned.used s hs, h.owned.apart s hs s hs, (h.owned.distinct hs).inj⟩

theorem FsInv.mapApart {L : Set UInt32} (h : FsInv v L) (hs : s ∈ L) (h0 : s ≠ freeMapSector) :
    MapApart v s (v.header s) := by
  refine ⟨h.owned.mapOk h.mapLive h.map, fun x hx => (h.others_map hs h0 hx).1, fun x hx => ⟨?_, ?_⟩⟩
  · obtain ⟨a, -, rfl⟩ := hx
    exact h.owned.apart _ h.mapLive s hs a
  · exact (h.others_map hs h0 hx).2

/-- Two blocks for the directory of the root, which takes the last two sectors. -/
theorem extend_fetch_agree_small : ∃ id' fs',
    extend rootDirSector rootInode 600 smallFs = .ok (true, id') fs' ∧
      Agrees smallFs rootInode 0 fs' id' 600 := by
  obtain ⟨v₁, hb⟩ := smallFs_booted
  have hroot : rootDirSector ∈ ({rootDirSector, freeMapSector} : Set UInt32) := Or.inl rfl
  have hheader : smallFs.vol.header rootDirSector = rootInode := Vol.header_open hb.root
  have hown := hb.inv.owns hroot
  have hmap := hb.inv.mapApart hroot (by decide)
  rw [hheader] at hown hmap
  have hnone : ∀ a, pointerAt smallFs.vol.disk rootInode a = unallocated := fun a => by
    have he : pointerAt smallFs.vol.disk rootInode = pointerAt smallFs.vol.disk (newInode 0) :=
      pointerAt_fields rfl rfl
    rw [he, pointerAt_newInode]
  have hblocks : Allocates smallFs rootInode (bytesToSectors 0) :=
    (allocates_iff (fun a ha => absurd (hnone a) ha) (Nat.zero_le _)).mpr fun a _ =>
      iff_of_false (not_not.mpr (hnone a)) (Nat.not_lt_zero _)
  have henough : (missing (pointerAt smallFs.vol.disk rootInode) 600).card ≤ freeCnt smallFs.freeMap := by
    have hfree : freeCnt smallFs.freeMap = 2 := by decide +kernel
    rw [hfree]
    exact (Finset.card_filter_le _ _).trans (by decide)
  obtain ⟨hret, hagree, -⟩ := extend_fetch_agree hown (.inl hmap) (Nat.zero_le 600)
    (by decide) hblocks
  obtain ⟨id', fs', hrun⟩ := hret hmap henough
  exact ⟨id', fs', hrun, hagree id' fs' hrun⟩

end CS162.Fs
