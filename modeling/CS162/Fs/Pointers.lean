/-
# `CS162.Fs.Pointers` — the pointers of an inode as one map

An inode names sectors at three levels: 123 direct pointers, the doubly indirect
block, the indirect blocks it names, and the data blocks those name.  `Slot` lists
these places, and `pointerAt disk id` is the map from places to sectors that a disk
and a header determine.  Everything `inode_extend` does to an inode is an update of
such a map at one slot; what the C code keeps in local buffers, it keeps of this
map.

`Sound R b m` is what has to hold of the map: the sectors it names are marked used
in the free map `b`, none is named twice, and none is among those that others own,
`R`.  Its three rules are taking a free sector, giving one back, and forgetting.
-/
import CS162.Fs.Inode

namespace CS162.Fs

open Bytes Wp

/-- The places in an inode where a sector number stands. -/
inductive Slot where
  | direct (i : Fin 123)
  | doubly
  | indirect (i : Fin 128)
  | data (i j : Fin 128)
  deriving DecidableEq

namespace Slot

/-- The file position from which on the slot is needed. -/
def base : Slot → Nat
  | direct i => 512 * i
  | doubly => 62976
  | indirect i => 62976 + 65536 * i
  | data i j => 62976 + 65536 * i + 512 * j

/-- The slot holds a block of the file, not a table of pointers. -/
def IsData : Slot → Prop
  | direct _ | data _ _ => True
  | doubly | indirect _ => False

/-- The number of the slot in the order in which `inode_extend` comes to it. -/
def pos : Slot → Nat
  | direct i => i
  | doubly => 123
  | indirect i => 124 + 129 * i
  | data i j => 125 + 129 * i + j

/-- What a fresh sector for the slot is filled with. -/
def fresh : Slot → Sector
  | direct _ | data _ _ => zerosBlock
  | doubly | indirect _ => unallocatedBlock

/-- The slot of the block that holds file position `pos`. -/
def ofPos (pos : Nat) : Slot :=
  if h : pos < directPointerSize then direct ⟨pos / 512, direct_lt h⟩
  else data ⟨(pos - directPointerSize) / 65536 % 128, Nat.mod_lt _ (Nat.succ_pos 127)⟩
    ⟨(pos - directPointerSize) % 65536 / 512 % 128, Nat.mod_lt _ (Nat.succ_pos 127)⟩

theorem ofPos_isData (pos : Nat) : (ofPos pos).IsData := by
  unfold ofPos
  split <;> trivial

theorem ofPos_direct {pos : Nat} (h : pos < directPointerSize) :
    ofPos pos = direct ⟨pos / 512, direct_lt h⟩ := dif_pos h

theorem ofPos_data {pos : Nat} (h : ¬ pos < directPointerSize) (hmax : pos < maxFileLen) :
    ofPos pos = data ⟨(pos - directPointerSize) / 65536, indirect_lt hmax⟩
      ⟨(pos - directPointerSize) % 65536 / 512, by omega⟩ := by
  have h1 := indirect_lt hmax
  have h2 : (pos - directPointerSize) % 65536 / 512 < 128 := by omega
  rw [ofPos, dif_neg h]
  congr 1
  · exact Fin.ext (Nat.mod_eq_of_lt h1)
  · exact Fin.ext (Nat.mod_eq_of_lt h2)

/-- The block holding `pos` begins at the last multiple of 512 up to `pos`. -/
theorem base_ofPos {pos : Nat} (hmax : pos < maxFileLen) : (ofPos pos).base = pos / 512 * 512 := by
  by_cases h : pos < directPointerSize
  · rw [ofPos_direct h]
    simp only [base]
    omega
  · rw [ofPos_data h hmax]
    simp only [base, directPointerSize] at h ⊢
    omega

/-- Two positions share a block exactly when they share a slot. -/
theorem ofPos_inj {p q : Nat} (hp : p < maxFileLen) (hq : q < maxFileLen)
    (h : ofPos p = ofPos q) : p / 512 = q / 512 := by
  have := congrArg base h
  rw [base_ofPos hp, base_ofPos hq] at this
  omega

theorem ofPos_eq {p q : Nat} (hq : q < maxFileLen) (h : p / 512 = q / 512) :
    ofPos p = ofPos q := by
  have hp : p < maxFileLen := by simp only [maxFileLen] at hq ⊢; omega
  by_cases hd : p < directPointerSize
  · have hd' : q < directPointerSize := by simp only [directPointerSize] at hd ⊢; omega
    rw [ofPos_direct hd, ofPos_direct hd']
    simp only [h]
  · have hd' : ¬ q < directPointerSize := by simp only [directPointerSize] at hd ⊢; omega
    have h1 : (p - directPointerSize) / 65536 = (q - directPointerSize) / 65536 := by
      simp only [directPointerSize] at hd hd' ⊢
      omega
    have h2 : (p - directPointerSize) % 65536 / 512 = (q - directPointerSize) % 65536 / 512 := by
      simp only [directPointerSize] at hd hd' ⊢
      omega
    rw [ofPos_data hd hp, ofPos_data hd' hq]
    simp only [h1, h2]

/-- Every data slot is the slot of its own base. -/
theorem ofPos_base {a : Slot} (ha : a.IsData) : a.base < maxFileLen ∧ ofPos a.base = a := by
  cases a with
  | direct i =>
      have hi := i.isLt
      have hd : 512 * i.val < directPointerSize := by simp only [directPointerSize]; omega
      refine ⟨by simp only [base, maxFileLen]; omega, ?_⟩
      rw [base, ofPos_direct hd]
      congr 1
      apply Fin.ext
      simp
  | data i j =>
      have hi := i.isLt
      have hj := j.isLt
      have hm : 62976 + 65536 * i.val + 512 * j.val < maxFileLen := by
        simp only [maxFileLen]; omega
      have hd : ¬ 62976 + 65536 * i.val + 512 * j.val < directPointerSize := by
        simp only [directPointerSize]; omega
      refine ⟨hm, ?_⟩
      rw [base, ofPos_data hd hm]
      simp only [directPointerSize]
      congr 1 <;> apply Fin.ext <;> simp only <;> omega
  | doubly => exact ha.elim
  | indirect i => exact ha.elim

end Slot

/-! ## The map a disk and a header determine -/

/-- The sector at each slot, `UNALLOCATED` where a table on the way is missing. -/
def pointerAt (disk : UInt32 → Sector) (id : InodeDisk) : Slot → UInt32
  | .direct i => id.directPointers i
  | .doubly => id.doublyIndirect
  | .indirect i =>
      if id.doublyIndirect = unallocated then unallocated
      else Table.ofSector (disk id.doublyIndirect) i
  | .data i j =>
      if id.doublyIndirect = unallocated then unallocated
      else
        let indirect := Table.ofSector (disk id.doublyIndirect) i
        if indirect = unallocated then unallocated else Table.ofSector (disk indirect) j

/-- The indirect block at `i` is on the disk as the map has it. -/
structure Synced (disk : UInt32 → Sector) (m : Slot → UInt32) (i : Fin 128) : Prop where
  closed : m (.indirect i) = unallocated → ∀ j, m (.data i j) = unallocated
  table : m (.indirect i) ≠ unallocated →
    ∀ j, Table.ofSector (disk (m (.indirect i))) j = m (.data i j)

variable {disk : UInt32 → Sector} {id : InodeDisk} {m m' : Slot → UInt32}

theorem pointerAt_synced (disk : UInt32 → Sector) (id : InodeDisk) (i : Fin 128) :
    Synced disk (pointerAt disk id) i := by
  by_cases hd : id.doublyIndirect = unallocated
  · exact ⟨fun _ j => by simp [pointerAt, hd], fun h => absurd (by simp [pointerAt, hd]) h⟩
  · constructor
    · intro h j
      simp only [pointerAt, if_neg hd] at h ⊢
      rw [if_pos h]
    · intro h j
      simp only [pointerAt, if_neg hd] at h ⊢
      rw [if_neg h]

/-- A map is the one of a disk and a header when it agrees with both level by level. -/
theorem pointerAt_eq (hdirect : ∀ i, id.directPointers i = m (.direct i))
    (hdoubly : id.doublyIndirect = m .doubly)
    (hclosed : m .doubly = unallocated → ∀ i, m (.indirect i) = unallocated)
    (htable : m .doubly ≠ unallocated →
      ∀ i, Table.ofSector (disk (m .doubly)) i = m (.indirect i))
    (hsync : ∀ i, Synced disk m i) : pointerAt disk id = m := by
  funext a
  by_cases hd : m .doubly = unallocated
  · cases a with
    | direct i => exact hdirect i
    | doubly => exact hdoubly
    | indirect i => rw [pointerAt, hdoubly, if_pos hd, hclosed hd i]
    | data i j => rw [pointerAt, hdoubly, if_pos hd, (hsync i).closed (hclosed hd i) j]
  · cases a with
    | direct i => exact hdirect i
    | doubly => exact hdoubly
    | indirect i => rw [pointerAt, hdoubly, if_neg hd, htable hd i]
    | data i j =>
        simp only [pointerAt, hdoubly, if_neg hd, htable hd i]
        by_cases hi : m (.indirect i) = unallocated
        · rw [if_pos hi, (hsync i).closed hi j]
        · rw [if_neg hi, (hsync i).table hi j]

/-- The map looks at no sector but those of its own tables. -/
theorem pointerAt_congr {disk' : UInt32 → Sector}
    (h : ∀ a, ¬ a.IsData → pointerAt disk id a ≠ unallocated →
      disk' (pointerAt disk id a) = disk (pointerAt disk id a)) :
    pointerAt disk' id = pointerAt disk id := by
  refine pointerAt_eq (fun _ => rfl) rfl (fun hd i => ?_) (fun hd i => ?_) (fun i => ⟨?_, ?_⟩)
  · have hd' : id.doublyIndirect = unallocated := hd
    simp [pointerAt, hd']
  · rw [h .doubly (fun hn => hn) hd]
    have hd' : id.doublyIndirect ≠ unallocated := hd
    simp [pointerAt, hd']
  · exact (pointerAt_synced disk id i).closed
  · intro hi j
    rw [h (.indirect i) (fun hn => hn) hi]
    exact (pointerAt_synced disk id i).table hi j

/-- `inode_fetch_block` reads the map at the slot of its position. -/
theorem vwp_inodeFetchBlock {v : Vol} {E : Panic → Vol → Prop} {pos : Nat}
    {Q : UInt32 → Vol → Prop}
    (hin : ∀ a, pointerAt v.disk id a ≠ unallocated → pointerAt v.disk id a < v.size)
    (h : Q (if pos < maxFileLen then pointerAt v.disk id (.ofPos pos) else unallocated) v) :
    vwp (inodeFetchBlock id pos) Q E v := by
  unfold inodeFetchBlock
  by_cases hd : pos < directPointerSize
  · have hm : pos < maxFileLen := by
      simp only [maxFileLen, directPointerSize] at hd ⊢
      omega
    rw [if_pos hm, Slot.ofPos_direct hd] at h
    rw [dif_pos hd]
    exact wpOn_pure h
  rw [dif_neg hd]
  by_cases hm : pos < maxFileLen
  · rw [if_pos hm, Slot.ofPos_data hd hm] at h
    rw [dif_pos hm]
    simp only [pointerAt] at h
    refine wpOn_ite (fun hu => ?_) (fun hu => ?_)
    · rw [if_pos hu] at h
      exact wpOn_pure h
    · rw [if_neg hu] at h
      have hdb : id.doublyIndirect < v.size := hin .doubly hu
      refine wpOn_seq (vwp_cacheRead (Q := fun b v' => b = v.disk id.doublyIndirect ∧ v' = v) hdb
        ⟨rfl, rfl⟩) ?_
      rintro b v' ⟨rfl, rfl⟩
      refine wpOn_ite (fun hi => ?_) (fun hi => ?_)
      · rw [if_pos hi] at h
        exact wpOn_pure h
      · rw [if_neg hi] at h
        have hib := hin (.indirect ⟨(pos - directPointerSize) / 65536, by
          simp only [maxFileLen, directPointerSize] at hm ⊢; omega⟩)
        simp only [pointerAt, if_neg hu] at hib
        refine wpOn_seq (vwp_cacheRead (Q := fun b v'' => b = v'.disk _ ∧ v'' = v') (hib hi)
          ⟨rfl, rfl⟩) ?_
        rintro b v'' ⟨rfl, rfl⟩
        refine wpOn_pure ?_
        have hpos : (pos - directPointerSize - (pos - directPointerSize) / 65536 * 65536)
            = (pos - directPointerSize) % 65536 := by omega
        simp only [hpos]
        exact h
  · rw [if_neg hm] at h
    rw [dif_neg hm]
    exact wpOn_pure h

/-! ## Ownership -/

/-- The free map has the sector marked used. -/
def Bitmap.Used (b : Bitmap) (x : UInt32) : Prop := x.toNat < b.bitCnt ∧ b.bits x.toNat = true

theorem Bitmap.used_set_true {b : Bitmap} {x : UInt32} {y : UInt32} (h : b.Used y) :
    (bitmapSet b x.toNat true).Used y := by
  refine ⟨h.1, ?_⟩
  rw [bitmapSet_bits]
  split
  · rfl
  · exact h.2

theorem Bitmap.used_set_self {b : Bitmap} {x : UInt32} (h : x.toNat < b.bitCnt) :
    (bitmapSet b x.toNat true).Used x :=
  ⟨h, by rw [bitmapSet_bits, if_pos rfl]⟩

theorem Bitmap.used_set_true_iff {b : Bitmap} {x y : UInt32} (hx : x.toNat < b.bitCnt) :
    (bitmapSet b x.toNat true).Used y ↔ b.Used y ∨ y = x := by
  constructor
  · rintro ⟨hlt, hbit⟩
    rw [bitmapSet_bits] at hbit
    split at hbit
    · next he => exact .inr (UInt32.toNat_inj.mp he)
    · exact .inl ⟨hlt, hbit⟩
  · rintro (h | rfl)
    · exact Bitmap.used_set_true h
    · exact Bitmap.used_set_self hx

theorem Bitmap.used_set_false {b : Bitmap} {x y : UInt32} (h : b.Used y) (hne : y ≠ x) :
    (bitmapSet b x.toNat false).Used y := by
  refine ⟨h.1, ?_⟩
  rw [bitmapSet_bits, if_neg fun he => hne (UInt32.toNat_inj.mp he)]
  exact h.2

theorem Bitmap.used_set_false_iff {b : Bitmap} {x y : UInt32} :
    (bitmapSet b x.toNat false).Used y ↔ b.Used y ∧ y ≠ x := by
  refine ⟨fun h => ?_, fun h => Bitmap.used_set_false h.1 h.2⟩
  have hbits := h.2
  rw [bitmapSet_bits] at hbits
  split at hbits
  · cases hbits
  · next hne => exact ⟨⟨h.1, hbits⟩, fun hyx => hne (by rw [hyx])⟩

/-- There is no free sector. -/
def Bitmap.AllUsed (b : Bitmap) : Prop := ∀ k, k < b.bitCnt → b.bits k = true

/-- The sectors named are used, not `R`'s, and not named twice. -/
structure Sound (R : UInt32 → Prop) (b : Bitmap) (m : Slot → UInt32) : Prop where
  used : ∀ a, m a ≠ unallocated → b.Used (m a)
  apart : ∀ a, m a ≠ unallocated → ¬ R (m a)
  inj : ∀ a a', m a ≠ unallocated → m a = m a' → a = a'

/-- `m'` names nothing that `m` does not name in the same place. -/
def Within (m' m : Slot → UInt32) : Prop := ∀ a, m' a = unallocated ∨ m' a = m a

theorem Within.update (m : Slot → UInt32) (a : Slot) :
    Within (Function.update m a unallocated) m := by
  intro a'
  by_cases h : a' = a
  · rw [h, Function.update_self]
    exact Or.inl rfl
  · rw [Function.update_of_ne h]
    exact Or.inr rfl

namespace Sound

variable {R : UInt32 → Prop} {b : Bitmap}

/-- A map that names less is sound as well. -/
theorem within (h : Sound R b m) (hw : Within m' m) : Sound R b m' := by
  have eq : ∀ a, m' a ≠ unallocated → m' a = m a := fun a ha => (hw a).resolve_left ha
  refine ⟨?_, ?_, ?_⟩
  · intro a ha
    have e := eq a ha
    rw [e] at ha ⊢
    exact h.used a ha
  · intro a ha
    have e := eq a ha
    rw [e] at ha ⊢
    exact h.apart a ha
  · intro a a' ha he
    have e := eq a ha
    have e' := eq a' (he ▸ ha)
    rw [e] at ha he
    rw [e'] at he
    exact h.inj a a' ha he

/-- A free sector nobody owns is taken for an empty slot. -/
theorem take (h : Sound R b m) {a : Slot} {x : UInt32} (hlt : x.toNat < b.bitCnt)
    (hfree : b.bits x.toNat = false) (hR : ¬ R x) :
    Sound R (bitmapSet b x.toNat true) (Function.update m a x) := by
  have hx : ∀ a', m a' ≠ unallocated → m a' ≠ x := by
    intro a' ha' he
    have := (h.used a' ha').2
    rw [he, hfree] at this
    cases this
  refine ⟨?_, ?_, ?_⟩
  · intro a' ha'
    by_cases hc : a' = a
    · rw [hc, Function.update_self]
      exact Bitmap.used_set_self hlt
    · rw [Function.update_of_ne hc] at ha' ⊢
      exact Bitmap.used_set_true (h.used a' ha')
  · intro a' ha'
    by_cases hc : a' = a
    · rw [hc, Function.update_self]
      exact hR
    · rw [Function.update_of_ne hc] at ha' ⊢
      exact h.apart a' ha'
  · intro a₁ a₂ h₁ he
    by_cases c₁ : a₁ = a <;> by_cases c₂ : a₂ = a
    · rw [c₁, c₂]
    · rw [c₁, Function.update_self] at he h₁
      rw [Function.update_of_ne c₂] at he
      exact absurd he.symm (hx a₂ (he ▸ h₁))
    · rw [Function.update_of_ne c₁] at h₁ he
      rw [c₂, Function.update_self] at he
      exact absurd he (hx a₁ h₁)
    · rw [Function.update_of_ne c₁] at h₁ he
      rw [Function.update_of_ne c₂] at he
      exact h.inj a₁ a₂ h₁ he

/-- The sector of a slot is given back. -/
theorem give (h : Sound R b m) {a : Slot} (ha : m a ≠ unallocated) :
    Sound R (bitmapSet b (m a).toNat false) (Function.update m a unallocated) := by
  have hw := Within.update m a
  have hs := h.within hw
  refine ⟨?_, hs.apart, hs.inj⟩
  intro a' ha'
  have hne : a' ≠ a := by
    rintro rfl
    rw [Function.update_self] at ha'
    exact ha' rfl
  rw [Function.update_of_ne hne] at ha' ⊢
  refine Bitmap.used_set_false (h.used a' ha') ?_
  intro he
  exact hne (h.inj a' a ha' he)

/-- Sectors in the free map lie on the device. -/
theorem lt_size (h : Sound R b m) {size : UInt32} (hb : b.bitCnt = size.toNat) {a : Slot}
    (ha : m a ≠ unallocated) : m a < size := by
  have := (h.used a ha).1
  rw [hb] at this
  exact this

end Sound

/-- No sector is lost: those in use are `R`'s, or named. -/
def Covered (R : UInt32 → Prop) (b : Bitmap) (m : Slot → UInt32) : Prop :=
  ∀ x, b.Used x → R x ∨ ∃ a, m a ≠ unallocated ∧ m a = x

namespace Covered

variable {R : UInt32 → Prop} {b : Bitmap}

theorem take (h : Covered R b m) {a : Slot} {x : UInt32} (ha : m a = unallocated)
    (hx : x ≠ unallocated) : Covered R (bitmapSet b x.toNat true) (Function.update m a x) := by
  intro y hy
  by_cases hyx : y = x
  · rw [hyx]
    exact .inr ⟨a, by rwa [Function.update_self], Function.update_self ..⟩
  · have hy' : b.Used y := by
      refine ⟨hy.1, ?_⟩
      have hbit := hy.2
      rwa [bitmapSet_bits, if_neg fun he => hyx (UInt32.toNat_inj.mp he)] at hbit
    refine (h y hy').imp_right fun ⟨a', hu, he⟩ => ?_
    have hne : a' ≠ a := by
      rintro rfl
      exact hu ha
    exact ⟨a', by rwa [Function.update_of_ne hne], by rwa [Function.update_of_ne hne]⟩

theorem give (h : Covered R b m) {a : Slot} :
    Covered R (bitmapSet b (m a).toNat false) (Function.update m a unallocated) := by
  intro y hy
  have hbit := hy.2
  rw [bitmapSet_bits] at hbit
  split at hbit
  · cases hbit
  · next hne =>
    refine (h y ⟨hy.1, hbit⟩).imp_right fun ⟨a', hu, he⟩ => ?_
    have hne' : a' ≠ a := by
      rintro rfl
      exact hne (congrArg UInt32.toNat he.symm)
    exact ⟨a', by rwa [Function.update_of_ne hne'], by rwa [Function.update_of_ne hne']⟩

end Covered

end CS162.Fs
