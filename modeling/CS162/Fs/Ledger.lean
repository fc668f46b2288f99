/-
# `CS162.Fs.Ledger` — how many sectors a file takes

`inode_extend` comes to the places of an inode in one fixed order, `Slot.pos`; a file of
`size` bytes needs the first `sectors size` of them.  Between calls the places that are
taken are these and no others (`Upto`), but for the doubly indirect block, which is never
given back.

The free sectors are counted against the places taken (`Account.free`).  From that follows
exactly when an extension succeeds, and at which place it fails when it does not; and what
the call that brings the inode back to its length can restore (`Stopped.back_exact`).
-/
import Mathlib.Data.Finset.Card
import Mathlib.Data.Finset.Image
import Mathlib.Order.Interval.Finset.Nat
import CS162.Fs.Handles

namespace CS162.Fs

open Bytes Wp

/-! ## Places in order -/

namespace Slot

/-- The place with the given number. -/
def atPos (p : Nat) : Slot :=
  if h : p < 123 then direct ⟨p, h⟩
  else if p = 123 then doubly
  else if (p - 124) % 129 = 0 then indirect ⟨(p - 124) / 129 % 128, Nat.mod_lt _ (Nat.succ_pos 127)⟩
  else data ⟨(p - 124) / 129 % 128, Nat.mod_lt _ (Nat.succ_pos 127)⟩
    ⟨((p - 124) % 129 - 1) % 128, Nat.mod_lt _ (Nat.succ_pos 127)⟩

theorem atPos_pos (a : Slot) : atPos a.pos = a := by
  cases a with
  | direct i => exact dif_pos i.isLt
  | doubly => rfl
  | indirect i =>
      have hi := i.isLt
      have hp : (indirect i).pos = 124 + 129 * i.val := rfl
      rw [atPos, dif_neg (by omega), if_neg (by omega), if_pos (by omega)]
      refine congrArg indirect (Fin.ext ?_)
      show ((indirect i).pos - 124) / 129 % 128 = i.val
      omega
  | data i j =>
      have hi := i.isLt
      have hj := j.isLt
      have hp : (data i j).pos = 125 + 129 * i.val + j.val := rfl
      rw [atPos, dif_neg (by omega), if_neg (by omega), if_neg (by omega)]
      refine congrArg₂ data (Fin.ext ?_) (Fin.ext ?_)
      · show ((data i j).pos - 124) / 129 % 128 = i.val
        omega
      · show (((data i j).pos - 124) % 129 - 1) % 128 = j.val
        omega

theorem pos_lt (a : Slot) : a.pos < 16636 := by
  cases a with
  | direct i => have := i.isLt; simp only [pos]; omega
  | doubly => simp [pos]
  | indirect i => have := i.isLt; simp only [pos]; omega
  | data i j => have := i.isLt; have := j.isLt; simp only [pos]; omega

theorem pos_atPos {p : Nat} (hp : p < 16636) : (atPos p).pos = p := by
  unfold atPos
  split
  · rfl
  · split
    · next h => exact h.symm
    · split
      · simp only [pos]
        omega
      · simp only [pos]
        omega

theorem pos_doubly : doubly.pos = 123 := rfl

theorem pos_indirect (i : Fin 128) : (indirect i).pos = 124 + 129 * i.val := rfl

theorem pos_data (i j : Fin 128) : (data i j).pos = 125 + 129 * i.val + j.val := rfl

theorem pos_inj {a b : Slot} (h : a.pos = b.pos) : a = b := by
  rw [← atPos_pos a, h, atPos_pos]

theorem pos_eq_doubly {a : Slot} (h : a.pos = 123) : a = doubly := pos_inj h

end Slot

/-- The sectors that `size` bytes need, tables included. -/
def sectors (size : Nat) : Nat :=
  (min size maxFileLen + 511) / 512 +
    if directPointerSize < size then 1 + (min size maxFileLen - directPointerSize + 65535) / 65536 else 0

theorem Slot.base_lt (a : Slot) (size : Nat) : a.base < size ↔ a.pos < sectors size := by
  unfold sectors
  simp only [directPointerSize, maxFileLen]
  cases a with
  | direct i =>
      have hi := i.isLt
      simp only [Slot.base, Slot.pos]
      split <;> omega
  | doubly =>
      simp only [Slot.base, Slot.pos]
      split <;> omega
  | indirect i =>
      have hi := i.isLt
      simp only [Slot.base, Slot.pos]
      split <;> omega
  | data i j =>
      have hi := i.isLt
      have hj := j.isLt
      simp only [Slot.base, Slot.pos]
      split <;> omega

theorem sectors_le (size : Nat) : sectors size ≤ 16636 := by
  unfold sectors
  simp only [directPointerSize, maxFileLen]
  split <;> omega

theorem sectors_mono {n m : Nat} (h : n ≤ m) : sectors n ≤ sectors m := by
  unfold sectors
  simp only [directPointerSize, maxFileLen]
  split <;> split <;> omega

/-- The direct blocks are the first 123. -/
theorem sectors_direct {size : Nat} : sectors size ≤ 123 ↔ size ≤ directPointerSize := by
  unfold sectors
  simp only [directPointerSize, maxFileLen]
  split <;> omega

/-! ## Counting -/

/-- The free sectors. -/
def freeSectors (b : Bitmap) : Finset Nat := (Finset.range b.bitCnt).filter fun k => b.bits k = false

/-- The number of free sectors. -/
def freeCnt (b : Bitmap) : Nat := (freeSectors b).card

/-- The places that are taken. -/
def named (m : Slot → UInt32) : Finset Nat :=
  (Finset.range 16636).filter fun p => m (.atPos p) ≠ unallocated

variable {R : UInt32 → Prop} {b b' : Bitmap} {m m' n m₀ : Slot → UInt32}

theorem mem_named {p : Nat} : p ∈ named m ↔ p < 16636 ∧ m (.atPos p) ≠ unallocated := by
  simp [named]

theorem pos_mem_named {a : Slot} : a.pos ∈ named m ↔ m a ≠ unallocated := by
  rw [mem_named, Slot.atPos_pos]
  exact and_iff_right a.pos_lt

theorem mem_freeSectors {k : Nat} : k ∈ freeSectors b ↔ k < b.bitCnt ∧ b.bits k = false := by
  simp [freeSectors]

/-- A sector that is not used is free. -/
theorem freeCnt_pos {x : UInt32} (hlt : x.toNat < b.bitCnt) (hx : ¬ b.Used x) : 0 < freeCnt b :=
  Finset.card_pos.mpr ⟨x.toNat, mem_freeSectors.mpr
    ⟨hlt, Bool.eq_false_of_not_eq_true fun hbit => hx ⟨hlt, hbit⟩⟩⟩

theorem Bitmap.AllUsed.freeCnt (h : b.AllUsed) : freeCnt b = 0 := by
  refine Finset.card_eq_zero.mpr (Finset.eq_empty_of_forall_notMem fun k hk => ?_)
  obtain ⟨hlt, hbit⟩ := mem_freeSectors.mp hk
  rw [h k hlt] at hbit
  cases hbit

/-- A sector is a number below the size of the device. -/
theorem toNat_ofNat {k : Nat} (hb : b.bitCnt ≤ 2 ^ 32) (hk : k < b.bitCnt) : (UInt32.ofNat k).toNat = k :=
  UInt32.toNat_ofNat_of_lt' (Nat.lt_of_lt_of_le hk hb)

/-- The sectors in use are those of `R` and those that `m` names. -/
structure Account (R : UInt32 → Prop) (b : Bitmap) (m : Slot → UInt32) : Prop where
  sound : Sound R b m
  covered : Covered R b m
  held : ∀ x, R x → b.Used x

theorem Account.used (h : Account R b m) {x : UInt32} :
    b.Used x ↔ R x ∨ ∃ a, m a ≠ unallocated ∧ m a = x := by
  refine ⟨h.covered x, ?_⟩
  rintro (hr | ⟨a, hu, rfl⟩)
  · exact h.held x hr
  · exact h.sound.used a hu

open Classical in
/-- A sector is free, or one of `R`'s, or named, and only one of these. -/
theorem Account.card (h : Account R b m) (hb : b.bitCnt ≤ 2 ^ 32) : freeCnt b + (named m).card +
      ((Finset.range b.bitCnt).filter fun k => R (UInt32.ofNat k)).card = b.bitCnt := by
  obtain ⟨hs, hc, hR⟩ := h
  have hinj : Set.InjOn (fun p => (m (.atPos p)).toNat) (named m) := by
    intro p hp q hq he
    obtain ⟨hp₁, hp₂⟩ := mem_named.mp hp
    obtain ⟨hq₁, -⟩ := mem_named.mp hq
    have heq := hs.inj _ _ hp₂ (UInt32.toNat_inj.mp he)
    rw [← Slot.pos_atPos hp₁, heq, Slot.pos_atPos hq₁]
  have hnf : Disjoint (freeSectors b) ((named m).image fun p => (m (.atPos p)).toNat) := by
    rw [Finset.disjoint_left]
    intro k hk hmem
    obtain ⟨p, hp, rfl⟩ := Finset.mem_image.mp hmem
    have hused := (hs.used _ (mem_named.mp hp).2).2
    rw [(mem_freeSectors.mp hk).2] at hused
    cases hused
  have hall : Disjoint (freeSectors b ∪ (named m).image fun p => (m (.atPos p)).toNat)
      ((Finset.range b.bitCnt).filter fun k => R (UInt32.ofNat k)) := by
    rw [Finset.disjoint_left]
    intro k hk hmem
    obtain ⟨hlt, hr⟩ := Finset.mem_filter.mp hmem
    rw [Finset.mem_range] at hlt
    rcases Finset.mem_union.mp hk with hfree | himg
    · have hused := (hR _ hr).2
      rw [toNat_ofNat hb hlt, (mem_freeSectors.mp hfree).2] at hused
      cases hused
    · obtain ⟨p, hp, rfl⟩ := Finset.mem_image.mp himg
      rw [UInt32.ofNat_toNat] at hr
      exact hs.apart _ (mem_named.mp hp).2 hr
  have hunion : (freeSectors b ∪ (named m).image fun p => (m (.atPos p)).toNat) ∪
      ((Finset.range b.bitCnt).filter fun k => R (UInt32.ofNat k)) = Finset.range b.bitCnt := by
    ext k
    simp only [Finset.mem_union, Finset.mem_image, Finset.mem_filter, Finset.mem_range, mem_freeSectors]
    constructor
    · rintro ((⟨hlt, -⟩ | ⟨p, hp, rfl⟩) | ⟨hlt, -⟩)
      · exact hlt
      · exact (hs.used _ (mem_named.mp hp).2).1
      · exact hlt
    · intro hlt
      cases hbit : b.bits k with
      | false => exact .inl (.inl ⟨hlt, rfl⟩)
      | true =>
          have hk := toNat_ofNat hb hlt
          rcases hc (UInt32.ofNat k) ⟨by rw [hk]; exact hlt, by rw [hk]; exact hbit⟩ with hr | ⟨a, hu, he⟩
          · exact .inr ⟨hlt, hr⟩
          · refine .inl (.inr ⟨a.pos, pos_mem_named.mpr hu, ?_⟩)
            rw [Slot.atPos_pos, he, hk]
  rw [← Finset.card_range b.bitCnt]
  conv_rhs => rw [← hunion]
  rw [Finset.card_union_of_disjoint hall, Finset.card_union_of_disjoint hnf,
    Finset.card_image_of_injOn hinj, Finset.card_range]
  rfl

/-- What is named more is free less. -/
theorem Account.free (h : Account R b m) (h' : Account R b' m') (hcnt : b'.bitCnt = b.bitCnt)
    (hb : b.bitCnt ≤ 2 ^ 32) : freeCnt b + (named m).card = freeCnt b' + (named m').card := by
  have h₁ := h.card hb
  have h₂ := h'.card (by rw [hcnt]; exact hb)
  rw [hcnt] at h₂
  omega

/-! ## The shape of an inode -/

/-- The first `N` places are taken, and no others but that of the doubly indirect block. -/
structure Upto (m : Slot → UInt32) (N : Nat) : Prop where
  full : ∀ a : Slot, a.pos < N → m a ≠ unallocated
  none : ∀ a : Slot, a ≠ .doubly → N ≤ a.pos → m a = unallocated

/-- The doubly indirect block is there before it is needed. -/
def early (m : Slot → UInt32) (N : Nat) : Nat := if N ≤ 123 ∧ m .doubly ≠ unallocated then 1 else 0

/-- How many sectors a file has: its blocks, and the doubly indirect block if that is there early. -/
theorem Upto.card {N : Nat} (h : Upto m N) (hN : N ≤ 16636) : (named m).card = N + early m N := by
  have hmem : ∀ p, p ∈ named m ↔ p < N ∨ p = 123 ∧ m .doubly ≠ unallocated := by
    intro p
    rw [mem_named]
    constructor
    · rintro ⟨hp, hu⟩
      by_cases hd : Slot.atPos p = .doubly
      · rw [hd] at hu
        exact .inr ⟨by rw [← Slot.pos_atPos hp, hd]; rfl, hu⟩
      · refine .inl (Nat.lt_of_not_le fun hle => hu (h.none _ hd ?_))
        rw [Slot.pos_atPos hp]
        exact hle
    · rintro (hp | ⟨rfl, hu⟩)
      · have hp' : p < 16636 := by omega
        exact ⟨hp', h.full _ (by rw [Slot.pos_atPos hp']; exact hp)⟩
      · exact ⟨by omega, hu⟩
  unfold early
  split
  · next hc =>
    have heq : named m = insert 123 (Finset.range N) := by
      ext p
      rw [hmem, Finset.mem_insert, Finset.mem_range]
      simp [hc.2, or_comm]
    rw [heq, Finset.card_insert_of_notMem (by simp [hc.1]), Finset.card_range]
  · next hc =>
    have heq : named m = Finset.range N := by
      ext p
      rw [hmem, Finset.mem_range]
      constructor
      · rintro (hp | ⟨rfl, hu⟩)
        · exact hp
        · exact Nat.lt_of_not_le fun hle => hc ⟨hle, hu⟩
      · exact .inl
    rw [heq, Finset.card_range]
    rfl

theorem Upto.empty (h : ∀ a, m a = unallocated) : Upto m 0 :=
  ⟨fun _ ha => absurd ha (Nat.not_lt_zero _), fun a _ _ => h a⟩

/-- In terms of bytes. -/
theorem Upto.full_bytes {size : Nat} (h : Upto m (sectors size)) : Full m size :=
  fun a ha => h.full a ((a.base_lt size).mp ha)

theorem Upto.ends {len size : Nat} (h : Upto m (sectors len)) (hle : len ≤ size) : Ends m size := by
  intro i hi
  refine h.none _ (by simp) ((sectors_mono hle).trans (Nat.le_of_not_lt fun hlt => ?_))
  have := ((Slot.indirect i).base_lt size).mpr hlt
  simp only [Slot.base, directPointerSize] at hi this
  omega

theorem Trimmed.upto {v v' : Vol} {size : Nat} (h : Trimmed R v m₀ size v' m) (he : Ends m₀ size)
    (hf : Full m size) :
    Upto m (sectors size) := by
  refine ⟨fun a ha => hf a ((a.base_lt size).mpr ha), fun a hd ha => h.tail he a hd ?_⟩
  exact Nat.le_of_not_lt fun hlt => absurd ((a.base_lt size).mp hlt) (Nat.not_lt.mpr ha)

/-! ## Where an extension fails -/

/-- The sectors that growing from `len` to `size` bytes takes. -/
def need (m : Slot → UInt32) (len size : Nat) : Nat :=
  sectors size + early m (sectors size) - (sectors len + early m (sectors len))

theorem early_congr {N : Nat} (h : N ≤ 123 → n .doubly = m .doubly) : early n N = early m N := by
  unfold early
  by_cases hN : N ≤ 123
  · rw [h hN]
  · simp [hN]

theorem add_early_lt {N N' : Nat} (h : N < N') (hd : N = 123 → m .doubly = unallocated) :
    N + early m N < N' + early m N' := by
  unfold early
  by_cases hu : m .doubly = unallocated
  · simp only [hu, ne_eq, not_true_eq_false, and_false, if_false]
    omega
  · have hne : N ≠ 123 := fun he => hu (hd he)
    simp only [hu, ne_eq, not_false_eq_true, and_true]
    split <;> split <;> omega

theorem add_early_le {N N' : Nat} (h : N ≤ N') : N + early m N ≤ N' + early m N' := by
  unfold early
  by_cases hu : m .doubly = unallocated
  · simp only [hu, ne_eq, not_true_eq_false, and_false, if_false]
    omega
  · simp only [hu, ne_eq, not_false_eq_true, and_true]
    split <;> split <;> omega

section Fail

variable {v v' : Vol} {a : Slot} {N : Nat} (hh : Halted R v m₀ m₀ v' n a) (hup : Upto m₀ N)

include hh hup

theorem Halted.le : N ≤ a.pos := Nat.le_of_not_lt fun hlt => hup.full a hlt hh.here

theorem Halted.upto : Upto n a.pos := by
  refine ⟨hh.before, fun b hb hle => ?_⟩
  rw [hh.behind b hle]
  exact hup.none b hb ((hh.le hup).trans hle)

omit hup in
theorem Halted.early_pos : early n a.pos = early m₀ a.pos := early_congr fun hle => hh.behind .doubly hle

/-- The place where the sectors run out. -/
theorem Halted.free (hacc : Account R v.freeMap m₀) (hR' : ∀ x, R x → v'.freeMap.Used x)
    (hcnt : v'.freeMap.bitCnt = v.freeMap.bitCnt) (hb : v.freeMap.bitCnt ≤ 2 ^ 32) :
    freeCnt v.freeMap + (N + early m₀ N) = a.pos + early m₀ a.pos := by
  have hlt := a.pos_lt
  have hle := hh.le hup
  have hcard := hacc.free ⟨hh.sound, hh.covered hacc.covered, hR'⟩ hcnt hb
  rw [hup.card (by omega), (hh.upto hup).card (by omega), hh.allUsed.freeCnt, hh.early_pos] at hcard
  omega

omit hup in
/-- It is before the end. -/
theorem Halted.short {len size : Nat} (hN : N = sectors len) (ha : a.base < size)
    (hfree : freeCnt v.freeMap + (N + early m₀ N) = a.pos + early m₀ a.pos) :
    freeCnt v.freeMap < need m₀ len size := by
  have hpos := (a.base_lt size).mp ha
  have hearly := add_early_lt (m := m₀) hpos fun h123 => Slot.pos_eq_doubly h123 ▸ hh.here
  unfold need
  rw [← hN]
  omega

end Fail

/-- An extension that succeeds has taken what it needed. -/
theorem Upto.taken {len size : Nat} (hup : Upto m₀ (sectors len)) (hup' : Upto m (sectors size))
    (hle : len ≤ size) (hd : size ≤ directPointerSize → m .doubly = m₀ .doubly)
    (hacc : Account R b m₀) (hacc' : Account R b' m) (hcnt : b'.bitCnt = b.bitCnt)
    (hb : b.bitCnt ≤ 2 ^ 32) :
    freeCnt b = freeCnt b' + need m₀ len size := by
  have hcard := hacc.free hacc' hcnt hb
  rw [hup.card (sectors_le len), hup'.card (sectors_le size),
    early_congr fun hN => hd (sectors_direct.mp hN)] at hcard
  have hearly := add_early_le (m := m₀) (sectors_mono hle)
  unfold need
  omega

/-! ## The way back -/

/-- The sectors that are lost when an attempt stops at `a`. -/
def Lost (m₀ n : Slot → UInt32) (a : Slot) (x : UInt32) : Prop :=
  ∃ b, n b ≠ unallocated ∧ salvaged m₀ n a b = unallocated ∧ n b = x

theorem salvaged_within (hb : Below m₀ n) (a : Slot) : Within (salvaged m₀ n a) n := by
  intro b
  cases b with
  | direct i => exact .inr rfl
  | doubly => exact .inr rfl
  | indirect i =>
      by_cases hu : m₀ (.indirect i) = unallocated
      · exact .inl hu
      · exact .inr (hb _ hu).symm
  | data i j =>
      simp only [salvaged]
      split
      · by_cases hu : m₀ (.data i j) = unallocated
        · exact .inl hu
        · exact .inr (hb _ hu).symm
      · exact .inr rfl

theorem salvaged_below (hb : Below m₀ n) (a : Slot) : Below m₀ (salvaged m₀ n a) := by
  intro b hu
  cases b with
  | direct i => exact hb _ hu
  | doubly => exact hb _ hu
  | indirect i => rfl
  | data i j =>
      simp only [salvaged]
      split
      · rfl
      · exact hb _ hu

section Back

variable {alloc : FsM (Option UInt32)} {release : UInt32 → FsM Unit} {I : Vol → Prop}
  {K F W : UInt32 → Prop} {E : Panic → Vol → Prop} {v v₁ : Vol} {s : UInt32} {id id₁ : InodeDisk}
  {size : Nat}

variable (spec : FreeMapSpec alloc release I K F E) (hKR : ∀ x, K x → R x) (hFW : ∀ x, F x → W x)
  (hRs : R s) (hKs : ¬ K s) (hWs : W s)

include spec hKR hFW hRs hKs hWs

/-- The inode gets all its pointers back, but for a new doubly indirect block; of the sectors,
those that were lost stay in use. -/
theorem Stopped.back_exact (depth : Nat) (hst : Stopped I R W R v id size v₁ id₁) (hss : s < v.size)
    (hup : Upto (pointerAt v.disk id) (sectors id.len))
    (hc : Covered R v.freeMap (pointerAt v.disk id)) :
    vwp (inodeExtend alloc release (depth + 1) s id₁ id₁.len) (fun r v₂ => ∃ a n, a.base < size ∧
      Halted R v (pointerAt v.disk id) (pointerAt v.disk id) v₁ n a ∧
      (∀ b, b ≠ .doubly → pointerAt v₂.disk r.2 b = pointerAt v.disk id b) ∧
      pointerAt v₂.disk r.2 .doubly = n .doubly ∧
      (∀ x, R x → ¬ allSectors (pointerAt v₂.disk r.2) x) ∧
      (∀ x, v₂.freeMap.Used x ↔ R x ∨ Lost (pointerAt v.disk id) n a x ∨
        ∃ b, pointerAt v₂.disk r.2 b ≠ unallocated ∧ pointerAt v₂.disk r.2 b = x)) E v₁ := by
  obtain ⟨a, n, ha, hh, hsal⟩ := hst.halted
  obtain ⟨p, q, hid⟩ := hst.fields
  have hlen : id₁.len = id.len := by rw [hid]; rfl
  have hwithin : Within (pointerAt v₁.disk id₁) n := by
    rw [hsal]
    exact salvaged_within hh.below a
  have hdoub : pointerAt v₁.disk id₁ .doubly = n .doubly := by rw [hsal]; rfl
  have hind : ∀ i, pointerAt v₁.disk id₁ (.indirect i) = pointerAt v.disk id (.indirect i) := fun i => by
    rw [hsal]
    rfl
  -- the lost sectors count as those of others from now on
  obtain ⟨R₁, hR₁⟩ : ∃ R₁ : UInt32 → Prop, ∀ x, R₁ x ↔ R x ∨ Lost (pointerAt v.disk id) n a x :=
    ⟨_, fun _ => Iff.rfl⟩
  have hsound₁ : Sound R₁ v₁.freeMap (pointerAt v₁.disk id₁) := by
    refine ⟨hst.ext.sound.used, fun b hu hr => ?_, hst.ext.sound.inj⟩
    rcases (hR₁ _).mp hr with hr | ⟨c, hcu, hcs, he⟩
    · exact hst.ext.sound.apart b hu hr
    · have hbn := (hwithin b).resolve_left hu
      rw [hbn] at he
      obtain rfl := hh.sound.inj c b hcu he
      rw [hsal] at hu
      exact hu hcs
  have hheld₁ : ∀ x, R₁ x → R₁ x ∧ v₁.freeMap.Used x := by
    intro x hr
    refine ⟨hr, ?_⟩
    rcases (hR₁ x).mp hr with hr | ⟨c, hcu, -, rfl⟩
    · exact (hst.ext.held x hr).2
    · exact hh.sound.used c hcu
  have hcov₁ : Covered R₁ v₁.freeMap (pointerAt v₁.disk id₁) := by
    intro x hx
    rcases hh.covered hc x hx with hr | ⟨b, hu, rfl⟩
    · exact .inl ((hR₁ x).mpr (.inl hr))
    · rcases hwithin b with hb | hb
      · rw [hsal] at hb
        exact .inl ((hR₁ _).mpr (.inr ⟨b, hu, hb, rfl⟩))
      · exact .inr ⟨b, by rw [hb]; exact hu, hb⟩
  have hfull : Full (pointerAt v.disk id) id.len := hup.full_bytes
  have hfull₁ : Full (pointerAt v₁.disk id₁) id₁.len := by
    intro b hb
    rw [hlen] at hb
    rw [hst.below b (hfull b hb)]
    exact hfull b hb
  have hends : Ends (pointerAt v₁.disk id₁) id₁.len := by
    intro i hi
    rw [hlen] at hi
    rw [hind]
    exact hup.ends le_rfl i hi
  refine wpOn_weaken (inodeExtend_full (R := R₁) (H := R₁) spec
    (fun x hx => (hR₁ x).mpr (.inl (hKR x hx))) hFW ((hR₁ s).mpr (.inl hRs)) hKs hWs
    (by rw [hst.ext.size]; exact hss) depth hst.ext.inv hsound₁ hheld₁ (fun _ _ hx => hx) hfull₁) ?_
  rintro r v₂ ⟨-, hx, ht⟩
  have hup₂ := ht.upto hends hx.full
  rw [hlen] at hup₂
  refine ⟨a, n, ha, hh, fun b hb => ?_, ?_, fun x hr => ?_, fun x => ⟨fun hu => ?_, ?_⟩⟩
  · by_cases hpos : b.pos < sectors id.len
    · have h0 := hup.full b hpos
      have h1 := hst.below b h0
      rcases hx.ext.step b with hu | he | hu
      · exact absurd hu (hup₂.full b hpos)
      · rw [he, h1]
      · rw [h1] at hu
        exact absurd hu h0
    · rw [hup₂.none b hb (Nat.le_of_not_lt hpos), hup.none b hb (Nat.le_of_not_lt hpos)]
  · by_cases hu : pointerAt v₁.disk id₁ .doubly = unallocated
    · rw [← hdoub, hu]
      refine ht.none hu (Nat.le_of_not_lt fun hlt => ?_)
      exact hfull₁ .doubly hlt hu
    · rw [ht.kept hu, hdoub]
  · rintro ⟨b, hu, rfl⟩
    exact hx.ext.sound.apart b hu ((hR₁ _).mpr (.inl hr))
  · rcases ht.covered hends hcov₁ x hu with hr | hb
    · exact ((hR₁ x).mp hr).elim .inl fun hl => .inr (.inl hl)
    · exact .inr (.inr hb)
  · rintro (hr | hl | ⟨b, hu, rfl⟩)
    · exact (hx.ext.held x ((hR₁ x).mpr (.inl hr))).2
    · exact (hx.ext.held x ((hR₁ x).mpr (.inr hl))).2
    · exact hx.ext.sound.used b hu

end Back

/-! ## What can be restored -/

/-- The places left in the direct pointers, or in the last
indirect block, of a file of `len` bytes. -/
def room (len : Nat) : Nat :=
  if len ≤ directPointerSize then 123 - (len + 511) / 512
  else (128 - (len - directPointerSize + 511) / 512 % 128) % 128

/-- With `free` sectors too few, an extension of a file of `len` bytes fails while it has
nothing in a copy that it drops. -/
def Restorable (len free : Nat) : Prop :=
  if len ≤ directPointerSize then free ≤ room len else free = 0 ∨ free = room len

instance (len free : Nat) : Decidable (Restorable len free) :=
  inferInstanceAs (Decidable (if len ≤ directPointerSize then free ≤ room len else free = 0 ∨
  free = room len))

/-- Nothing is lost when an attempt stops at `a`. -/
def Lossless (m₀ n : Slot → UInt32) (a : Slot) : Prop :=
  (∀ b, n b ≠ unallocated → salvaged m₀ n a b ≠ unallocated) ∧ n .doubly = m₀ .doubly

section Lossless

variable {v v' : Vol} {a : Slot} {N : Nat} (hh : Halted R v m₀ m₀ v' n a) (hup : Upto m₀ N)

include hh

/-- At a direct pointer, or at the doubly indirect block. -/
theorem Halted.lossless_direct (ha : a.pos ≤ 123) : Lossless m₀ n a := by
  refine ⟨fun b hu => ?_, hh.behind .doubly ha⟩
  cases b with
  | direct k => exact hu
  | doubly => exact hu
  | indirect k =>
      rw [hh.behind _ (by rw [Slot.pos_indirect]; omega)] at hu
      exact hu
  | data k j =>
      have he := hh.behind (.data k j) (by rw [Slot.pos_data]; omega)
      simp only [salvaged]
      split
      · rw [← he]
        exact hu
      · exact hu

/-- At the first indirect block that is missing. -/
theorem Halted.lossless_indirect {i : Fin 128} (ha : a = .indirect i) (hd : m₀ .doubly ≠ unallocated)
    (hi : ∀ k < i, m₀ (.indirect k) ≠ unallocated) : Lossless m₀ n a := by
  subst ha
  refine ⟨fun b hu => ?_, hh.below _ hd⟩
  cases b with
  | direct k => exact hu
  | doubly => exact hu
  | indirect k =>
      by_cases hk : k < i
      · exact hi k hk
      · rw [hh.behind _ (by simp only [Slot.pos]; omega)] at hu
        exact hu
  | data k j =>
      simp only [salvaged]
      split
      · next hc =>
        have hu₀ : m₀ (.indirect k) = unallocated := hc.resolve_right (by simp)
        have hk : ¬ k < i := fun hlt => hi k hlt hu₀
        rw [hh.behind _ (by simp only [Slot.pos]; omega)] at hu
        exact hu
      · exact hu

/-- At the first place that is missing. -/
theorem Halted.lossless_first (hup : Upto m₀ a.pos) : Lossless m₀ n a := by
  have hn : n = m₀ := by
    funext b
    by_cases hb : b.pos < a.pos
    · exact hh.below b (hup.full b hb)
    · exact hh.behind b (Nat.le_of_not_lt hb)
  rw [hn]
  refine ⟨fun b hu => ?_, rfl⟩
  cases b with
  | direct k => exact hu
  | doubly => exact hu
  | indirect k => exact hu
  | data k j =>
      simp only [salvaged]
      split <;> exact hu

/-- A new indirect block is lost. -/
theorem Halted.loses_indirect {k : Fin 128} (hu : m₀ (.indirect k) = unallocated)
    (hk : 124 + 129 * k.val < a.pos) : ¬ Lossless m₀ n a := fun h => h.1 _ (hh.before (.indirect k) hk) hu

/-- New data of the block at hand are lost. -/
theorem Halted.loses_data {i j k : Fin 128} (ha : a = .data i j) (hu : m₀ (.data i k) = unallocated)
    (hk : k < j) : ¬ Lossless m₀ n a := by
  subst ha
  intro h
  have hpos : (Slot.data i k).pos < (Slot.data i j).pos := by
    simp only [Slot.pos]
    omega
  refine h.1 _ (hh.before _ hpos) ?_
  simp only [salvaged]
  rw [if_pos (.inr ⟨j, rfl⟩), hu]

include hup

/-- The file ends in the direct blocks. -/
theorem Halted.lossless_small {free : Nat} (hN : N ≤ 123)
    (hfree : free + (N + early m₀ N) = a.pos + early m₀ a.pos) : Lossless m₀ n a ↔ free ≤ 123 - N := by
  by_cases ha : a.pos ≤ 123
  · have he : early m₀ N = early m₀ a.pos := by simp [early, hN, ha]
    exact iff_of_true (hh.lossless_direct ha) (by omega)
  · have he : early m₀ a.pos = 0 := by simp [early, ha]
    by_cases hd : m₀ .doubly = unallocated
    · have he' : early m₀ N = 0 := by simp [early, hd]
      refine iff_of_false (fun h => ?_) (by omega)
      have hnd := hh.before .doubly (by rw [Slot.pos_doubly]; omega)
      rw [h.2] at hnd
      exact hnd hd
    · have he' : early m₀ N = 1 := by simp [early, hd, hN]
      have hu : m₀ (.indirect 0) = unallocated := hup.none _ (by simp) (by rw [Slot.pos_indirect]; omega)
      by_cases h124 : a.pos = 124
      · have ha' : a = .indirect 0 := Slot.pos_inj h124
        refine iff_of_true (hh.lossless_indirect ha' hd fun k hk => absurd hk (Fin.not_lt_zero k))
          (by omega)
      · refine iff_of_false (hh.loses_indirect hu ?_) (by omega)
        show 124 + 129 * 0 < a.pos
        omega

/-- The file ends in the indirect block before block `k`. -/
theorem Halted.lossless_large {free : Nat} {k : Nat} (hN : 124 + 129 * k < N + 129)
    (hN' : N ≤ 124 + 129 * k)
    (h123 : 123 < N) (hfree : free + (N + early m₀ N) = a.pos + early m₀ a.pos) :
    Lossless m₀ n a ↔ free = 0 ∨ free = 124 + 129 * k - N := by
  have hle := hh.le hup
  have he : early m₀ N = 0 := by simp [early, Nat.not_le.mpr h123]
  have he' : early m₀ a.pos = 0 := by simp [early, show ¬ a.pos ≤ 123 by omega]
  have hd : m₀ .doubly ≠ unallocated := hup.full .doubly h123
  by_cases hzero : a.pos = N
  · exact iff_of_true (hh.lossless_first (hzero ▸ hup)) (.inl (by omega))
  cases a with
  | direct i =>
      have hi := i.isLt
      simp only [Slot.pos] at hle
      omega
  | doubly => simp only [Slot.pos] at hle; omega
  | indirect i =>
      simp only [Slot.pos] at hle hfree hzero he'
      by_cases hik : i.val = k
      · refine iff_of_true (hh.lossless_indirect rfl hd fun l hl => hup.full _ ?_) (.inr (by omega))
        have hl' : l.val < i.val := hl
        simp only [Slot.pos]
        omega
      · have hk : k < 128 := by omega
        refine iff_of_false (hh.loses_indirect (k := ⟨k, hk⟩) (hup.none _ (by simp) hN') ?_) (by omega)
        simp only [Slot.pos]
        omega
  | data i j =>
      have hj := j.isLt
      simp only [Slot.pos] at hle hfree hzero he'
      by_cases hik : i.val < k
      · -- the places of this block from `N` on are lost
        have hlt : N - (125 + 129 * i.val) < 128 := by omega
        refine iff_of_false (hh.loses_data (k := ⟨N - (125 + 129 * i.val), hlt⟩) rfl
          (hup.none _ (by simp) ?_) ?_) (by omega)
        · simp only [Slot.pos]
          omega
        · show N - (125 + 129 * i.val) < j.val
          omega
      · have hk : k < 128 := by omega
        refine iff_of_false (hh.loses_indirect (k := ⟨k, hk⟩) (hup.none _ (by simp) hN') ?_) (by omega)
        simp only [Slot.pos]
        omega

omit hup in
/-- When nothing is lost. -/
theorem Halted.lossless_iff {len free : Nat} (hup : Upto m₀ (sectors len))
    (hfree : free + (sectors len + early m₀ (sectors len)) = a.pos + early m₀ a.pos) :
    Lossless m₀ n a ↔ Restorable len free := by
  have hpos := a.pos_lt
  have hle := hh.le hup
  unfold Restorable room
  by_cases hlen : len ≤ directPointerSize
  · rw [if_pos hlen, if_pos hlen, hh.lossless_small hup (sectors_direct.mpr hlen) hfree]
    have hs : sectors len = (len + 511) / 512 := by
      simp only [sectors, directPointerSize, maxFileLen] at hlen ⊢
      rw [if_neg (by omega)]
      omega
    rw [hs]
  · rw [if_neg hlen, if_neg hlen]
    have h123 : 123 < sectors len := Nat.lt_of_not_le fun hc => hlen (sectors_direct.mp hc)
    -- a file that can grow is shorter than the limit
    have hmax : len < maxFileLen := by
      by_contra hge
      simp only [sectors, directPointerSize, maxFileLen] at hge hle
      rw [if_pos (by omega)] at hle
      omega
    have hs : sectors len = 124 + (len - 62976 + 511) / 512 + (len - 62976 + 65535) / 65536 := by
      simp only [sectors, directPointerSize, maxFileLen] at hlen hmax ⊢
      rw [if_pos (by omega)]
      omega
    simp only [directPointerSize] at hlen ⊢
    obtain ⟨k, hk⟩ : ∃ k, k = (len - 62976 + 65535) / 65536 := ⟨_, rfl⟩
    rw [hh.lossless_large hup (k := k) (by omega) (by omega) h123 hfree]
    have hroom : 124 + 129 * k - sectors len = (128 - (len - 62976 + 511) / 512 % 128) % 128 := by omega
    rw [hroom]

end Lossless

end CS162.Fs
