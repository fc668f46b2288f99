/-
# `CS162.Fs.Indirect` — the loop of `inode_extend` over the indirect blocks

Two tables are in local copies here: the doubly indirect block for the whole loop, the
indirect block while its data pointers are gone through.  A copy of an indirect block is
written back when it is done with; the copy of the doubly indirect block only behind the
loop.  So when an allocation fails, the indirect blocks allocated in this call are lost, and
with them the data below, and so are the data allocated in the block at hand: `salvaged` is
the map that the disk still has.
-/
import CS162.Fs.Extend

namespace CS162.Fs

open Bytes Wp

variable {alloc : FsM (Option UInt32)} {release : UInt32 → FsM Unit} {I : Vol → Prop}
  {K F R W H : UInt32 → Prop} {E : Panic → Vol → Prop} {v₀ v v' : Vol}
  {m₀ m m' : Slot → UInt32}

section Loops

variable (spec : FreeMapSpec alloc release I K F E) (hKR : ∀ x, K x → R x) (hFW : ∀ x, F x → W x)

/-! ## What is lost -/

/-- The map when the copy of the doubly indirect block is dropped: the indirect
blocks are those of `m₀` again, with what has been written to them. -/
def dropped (m₀ m : Slot → UInt32) : Slot → UInt32
  | .direct i => m (.direct i)
  | .doubly => m .doubly
  | .indirect i => m₀ (.indirect i)
  | .data i j => if m₀ (.indirect i) = unallocated then unallocated else m (.data i j)

theorem dropped_within (hb : Below m₀ m) : Within (dropped m₀ m) m := by
  intro a
  cases a with
  | direct i => exact Or.inr rfl
  | doubly => exact Or.inr rfl
  | indirect i =>
      by_cases h : m₀ (.indirect i) = unallocated
      · exact Or.inl h
      · exact Or.inr (hb _ h).symm
  | data i j =>
      simp only [dropped]
      split
      · exact Or.inl rfl
      · exact Or.inr rfl

/-- What is kept names nothing that was not named before. -/
theorem dropped_below (hb : Below m₀ m) (hc : ∀ i, m₀ (.indirect i) = unallocated →
    ∀ j, m₀ (.data i j) = unallocated) : Below m₀ (dropped m₀ m) := by
  intro a ha
  cases a with
  | direct i => exact hb _ ha
  | doubly => exact hb _ ha
  | indirect i => rfl
  | data i j =>
      simp only [dropped]
      rw [if_neg fun hi => ha (hc i hi j)]
      exact hb _ ha

/-- An indirect block that was there before still agrees with its table on the disk. -/
theorem dropped_synced {disk : UInt32 → Sector} (hb : Below m₀ m) {i : Fin 128}
    (h : Synced disk m i) : Synced disk (dropped m₀ m) i := by
  constructor
  · intro hi j
    simp only [dropped] at hi ⊢
    rw [if_pos hi]
  · intro hi j
    simp only [dropped] at hi ⊢
    have e := hb _ hi
    rw [if_neg hi, ← h.table (by rw [e]; exact hi) j, e]

/-- What is left of the map `n` when an allocation for `a` fails: all of it but the new
indirect blocks, and what was allocated below the block whose data slot `a` is. -/
def salvaged (m₀ n : Slot → UInt32) (a : Slot) : Slot → UInt32
  | .direct i => n (.direct i)
  | .doubly => n .doubly
  | .indirect i => m₀ (.indirect i)
  | .data i j => if m₀ (.indirect i) = unallocated ∨ ∃ k, a = .data i k then m₀ (.data i j)
      else n (.data i j)

/-- When the indirect block itself cannot be allocated, nothing below it was. -/
theorem salvaged_indirect {n : Slot → UInt32} (hc : ∀ i, m₀ (.indirect i) = unallocated →
    ∀ j, m₀ (.data i j) = unallocated) (i : Fin 128) : dropped m₀ n = salvaged m₀ n (.indirect i) := by
  funext b
  cases b with
  | direct k => rfl
  | doubly => rfl
  | indirect k => rfl
  | data k j =>
      simp only [dropped, salvaged, reduceCtorEq, exists_false, or_false]
      split
      · next hk => exact (hc k hk j).symm
      · rfl

/-- Outside the block nothing has happened to the data since `m`. -/
theorem salvaged_data {n : Slot → UInt32} (hc : ∀ i, m₀ (.indirect i) = unallocated →
    ∀ j, m₀ (.data i j) = unallocated) {i j : Fin 128} {p : UInt32}
    (hself : ∀ k, m (.data i k) = m₀ (.data i k))
    (hother : ∀ b, (∀ k, b ≠ .data i k) → n b = Function.update m (.indirect i) p b) :
    dropped m₀ (Function.update m (.indirect i) p) = salvaged m₀ n (.data i j) := by
  funext b
  cases b with
  | direct k => exact (hother _ (by simp)).symm
  | doubly => exact (hother _ (by simp)).symm
  | indirect k => rfl
  | data k l =>
      simp only [dropped, salvaged, Slot.data.injEq, exists_eq_right']
      rw [Function.update_of_ne (by simp)]
      by_cases hk : m₀ (.indirect k) = unallocated
      · rw [if_pos hk, if_pos (.inl hk), hc k hk l]
      · by_cases hki : i = k
        · subst hki
          rw [if_neg hk, if_pos (.inr rfl), hself l]
        · rw [if_neg hk, if_neg (by simp [hk, hki]), hother _ (by simp [Ne.symm hki]),
            Function.update_of_ne (by simp)]

/-- When no indirect block has been touched, all that was allocated is kept. -/
theorem salvaged_self {n : Slot → UInt32} {a : Slot} (hi : ∀ i, n (.indirect i) = m₀ (.indirect i))
    (hd : ∀ i j, n (.data i j) = m₀ (.data i j)) : salvaged m₀ n a = n := by
  funext b
  cases b with
  | direct k => rfl
  | doubly => rfl
  | indirect k => exact (hi k).symm
  | data k l =>
      simp only [salvaged]
      split
      · exact (hd k l).symm
      · rfl

/-- An allocation for the slot `a` has failed.  `n` is the map of the copies then, `m` was
the map when the sectors `v` has in use were last counted. -/
structure Halted (R : UInt32 → Prop) (v : Vol) (m m₀ : Slot → UInt32) (v' : Vol)
    (n : Slot → UInt32) (a : Slot) : Prop where
  here : m₀ a = unallocated
  before : ∀ b : Slot, b.pos < a.pos → n b ≠ unallocated
  behind : ∀ b : Slot, a.pos ≤ b.pos → n b = m₀ b
  below : Below m₀ n
  sound : Sound R v'.freeMap n
  allUsed : v'.freeMap.AllUsed
  covered : Covered R v.freeMap m → Covered R v'.freeMap n

/-- The map without the indirect block `i` and what it names. -/
def cut (m : Slot → UInt32) (i : Fin 128) : Slot → UInt32
  | .indirect k => if k = i then unallocated else m (.indirect k)
  | .data k j => if k = i then unallocated else m (.data k j)
  | .direct k => m (.direct k)
  | .doubly => m .doubly

theorem cut_within (m : Slot → UInt32) (i : Fin 128) :
    Within (cut m i) (Function.update m (.indirect i) unallocated) := by
  intro a
  cases a with
  | direct k => exact Or.inr (by simp [cut])
  | doubly => exact Or.inr (by simp [cut])
  | indirect k =>
      by_cases h : k = i
      · exact Or.inl (by simp [cut, h])
      · exact Or.inr (by simp [cut, h])
  | data k j =>
      by_cases h : k = i
      · exact Or.inl (by simp [cut, h])
      · exact Or.inr (by simp [cut, h])

/-! ## One block -/

/-- How the loop over the indirect blocks in `l` ends. -/
structure IndirectDone (I : Vol → Prop) (R W H : UInt32 → Prop) (v₀ : Vol)
    (m₀ : Slot → UInt32) (v : Vol) (m : Slot → UInt32) (size : Nat) (l : List (Fin 128))
    (r : Bool × Table) (v' : Vol) (m' : Slot → UInt32) : Prop where
  ext : Ext I R W H v₀ m₀ v' m'
  sync : ∀ i, Synced v'.disk m' i
  direct : ∀ i, m' (.direct i) = m (.direct i)
  doubly : m' .doubly = m .doubly
  disk : m .doubly ≠ unallocated → v'.disk (m .doubly) = v.disk (m .doubly)
  result : r.1 = true → ∀ i, r.2 i = m' (.indirect i)
  others : r.1 = true → ∀ i, i ∉ l →
    m' (.indirect i) = m (.indirect i) ∧ ∀ j, m' (.data i j) = m (.data i j)
  done : r.1 = true → ∀ i ∈ l, i.val * 128 * 512 < size → m' (.indirect i) ≠ unallocated ∧
    ∀ j : Fin 128, m' (.data i j) = unallocated ↔ size ≤ i.val * 128 * 512 + j.val * 512
  rest : r.1 = true → ∀ i ∈ l, size ≤ i.val * 128 * 512 → m (.indirect i) = unallocated →
    m' (.indirect i) = unallocated
  empty : r.1 = true → ∀ i ∈ l, size ≤ i.val * 128 * 512 → ∀ j, m (.data i j) = unallocated →
    m' (.data i j) = unallocated
  covered : r.1 = true → (∀ i ∈ l, size ≤ i.val * 128 * 512 → m (.indirect i) = unallocated) →
    Covered R v.freeMap m → Covered R v'.freeMap m'
  flag : r.1 = true → v'.allocFailed = v.allocFailed
  fail : r.1 = false → Below m₀ m' ∧ v'.allocFailed = true ∧
    (∀ i, m' (.indirect i) = m₀ (.indirect i)) ∧ 0 < size ∧
    ∃ a n, a.base < directPointerSize + size ∧ Halted R v m m₀ v' n a ∧ m' = salvaged m₀ n a

/-- The loop stops at an allocation that fails, with the map `n` at the last moment
the tables on the disk agreed with the copies. -/
theorem IndirectDone.of_fail {size : Nat} {l : List (Fin 128)} {buffer : Table}
    {n : Slot → UInt32} (h : Ext I R W H v₀ m₀ v' m') (hm' : Within (dropped m₀ n) m')
    (hb : Below m₀ n)
    (hc : ∀ i, m₀ (.indirect i) = unallocated → ∀ j, m₀ (.data i j) = unallocated)
    (hsync : ∀ i, Synced v'.disk n i) (hdirect : ∀ i, n (.direct i) = m (.direct i))
    (hdoubly : n .doubly = m .doubly)
    (hdisk : m .doubly ≠ unallocated → v'.disk (m .doubly) = v.disk (m .doubly))
    (hf : v'.allocFailed = true) (hpos : 0 < size)
    (hhalt : ∃ a n', a.base < directPointerSize + size ∧ Halted R v m m₀ v' n' a ∧
      dropped m₀ n = salvaged m₀ n' a) :
    IndirectDone I R W H v₀ m₀ v m size l (false, buffer) v' (dropped m₀ n) where
  ext := h.within hm'
  sync i := dropped_synced hb (hsync i)
  direct := hdirect
  doubly := hdoubly
  disk := hdisk
  result hr := by cases hr
  others hr := by cases hr
  done hr := by cases hr
  rest hr := by cases hr
  empty hr := by cases hr
  covered hr := by cases hr
  flag hr := by cases hr
  fail _ := ⟨dropped_below hb hc, hf, fun _ => rfl, hpos, hhalt⟩

/-- The loop stops at a block that is not needed: it and the data below it are out of
the map, the rest is not looked at. -/
theorem IndirectDone.of_break {size : Nat} {l : List (Fin 128)} {i : Fin 128} {buffer : Table}
    (hf : Fitted I R W H v₀ m₀ v m (.indirect i) true unallocated v')
    (hbuf : ∀ k, buffer k = m (.indirect k)) (hsync : ∀ k, Synced v.disk m k)
    (hpast : ∀ k ∈ i :: l, size ≤ k.val * 128 * 512) :
    IndirectDone I R W H v₀ m₀ v m size (i :: l)
      (true, Function.update buffer i unallocated) v' (cut m i) where
  ext := hf.ext.within (cut_within m i)
  sync k := by
    by_cases hk : k = i
    · exact ⟨fun _ j => by simp [cut, hk], fun hu => absurd (by simp [cut, hk]) hu⟩
    · constructor
      · intro hu j
        simp only [cut, if_neg hk] at hu ⊢
        exact (hsync k).closed hu j
      · intro hu j
        simp only [cut, if_neg hk] at hu ⊢
        rw [hf.others (.indirect k) (by simp [hk]) hu]
        exact (hsync k).table hu j
  direct _ := rfl
  doubly := rfl
  disk hu := hf.others .doubly (by simp) hu
  result _ k := by
    by_cases hk : k = i
    · simp [cut, hk]
    · simp [cut, hk, hbuf]
  others _ k hk := by
    have hne : k ≠ i := fun he => hk (he ▸ List.mem_cons_self)
    exact ⟨by simp [cut, hne], fun j => by simp [cut, hne]⟩
  done _ k hk hlt := by
    have := hpast k hk
    omega
  rest _ k _ _ hu := by
    simp only [cut]
    split
    · rfl
    · exact hu
  empty _ k _ _ j hu := by
    simp only [cut]
    split
    · rfl
    · exact hu
  covered _ hrest hc := by
    -- the block was not there, so nothing below it is out of the map
    have hu : m (.indirect i) = unallocated :=
      hrest i List.mem_cons_self (hpast i List.mem_cons_self)
    have hcut : cut m i = m := by
      funext a
      cases a with
      | direct k => rfl
      | doubly => rfl
      | indirect k =>
          simp only [cut]
          split
          · next hk => rw [hk, hu]
          · rfl
      | data k j =>
          simp only [cut]
          split
          · next hk => rw [hk, (hsync i).closed hu j]
          · rfl
    have hself := hf.covered hc
    rw [← hu, Function.update_eq_self] at hself
    rw [hcut]
    exact hself
  flag _ := hf.flag
  fail hr := by cases hr

/-- The tables on the disk agree with the map again once an indirect block has been
brought in. -/
theorem synced_of_fitted {i : Fin 128} {p : UInt32} {past : Bool}
    (hf : Fitted I R W H v₀ m₀ v m (.indirect i) past p v') (hp : p ≠ unallocated)
    (hsync : ∀ k, Synced v.disk m k) (hk : past = false) (k : Fin 128) :
    Synced v'.disk (Function.update m (.indirect i) p) k := by
  by_cases hki : k = i
  · subst hki
    constructor
    · intro hu
      rw [Function.update_self] at hu
      exact absurd hu hp
    · intro _ j
      rw [Function.update_self, Function.update_of_ne (by simp)]
      by_cases hu : m (.indirect k) = unallocated
      · rw [hf.fresh hu hp, (hsync k).closed hu j]
        exact ofSector_unallocatedBlock j
      · have e := hf.kept hk hu
        rw [hf.same e hu, e]
        exact (hsync k).table hu j
  · constructor
    · intro hu j
      rw [Function.update_of_ne (by simp [hki])] at hu
      rw [Function.update_of_ne (by simp)]
      exact (hsync k).closed hu j
    · intro hu j
      rw [Function.update_of_ne (by simp [hki])] at hu ⊢
      rw [Function.update_of_ne (by simp), hf.others (.indirect k) (by simp [hki]) hu]
      exact (hsync k).table hu j

/-- Keeping a pointer that is needed loses nothing. -/
theorem below_of_fitted {a : Slot} {p : UInt32}
    (hf : Fitted I R W H v₀ m₀ v m a false p v') (hma : m a = m₀ a) (hb : Below m₀ m) :
    Below m₀ (Function.update m a p) := by
  intro a' ha'
  by_cases hc : a' = a
  · rw [hc] at ha' ⊢
    rw [Function.update_self, hf.kept rfl (hma ▸ ha'), hma]
  · rw [Function.update_of_ne hc]
    exact hb a' ha'

section Block

variable {i : Fin 128} {past : Fin 128 → Bool} {t : Table} {l : List (Fin 128)} {ok : Bool}

/-- Slots outside the block are not slots of its data. -/
theorem LoopDone.indirect
    (h : LoopDone I R W H v₀ m₀ v m (Slot.data i) past l (ok, t) v' m') (k : Fin 128) :
    m' (.indirect k) = m (.indirect k) :=
  h.others _ fun _ _ => by simp

theorem LoopDone.data_other
    (h : LoopDone I R W H v₀ m₀ v m (Slot.data i) past l (ok, t) v' m') {k : Fin 128}
    (hk : k ≠ i) (j : Fin 128) : m' (.data k j) = m (.data k j) :=
  h.others _ fun _ _ => by simp [hk]

/-- The block's table is written back. -/
theorem LoopDone.synced_write
    (h : LoopDone I R W H v₀ m₀ v m (Slot.data i) past l (true, t) v' m')
    (hp : m (.indirect i) ≠ unallocated) (hsync : ∀ k, Synced v.disk m k) (k : Fin 128) :
    Synced (v'.write (m (.indirect i)) t.toSector).disk m' k := by
  by_cases hk : k = i
  · subst hk
    refine ⟨fun hu => absurd (h.indirect k ▸ hu) hp, fun _ j => ?_⟩
    rw [h.indirect, Vol.write_self, Table.ofSector_toSector]
    exact h.result j
  · constructor
    · intro hu j
      rw [h.indirect] at hu
      rw [h.data_other hk]
      exact (hsync k).closed hu j
    · intro hu j
      have hu' := hu
      rw [h.indirect] at hu ⊢
      have hne : m (.indirect k) ≠ m (.indirect i) := by
        intro he
        rw [← h.indirect, ← h.indirect i] at he
        have := h.ext.sound.inj _ _ hu' he
        exact hk (by simpa using this)
      rw [h.data_other hk, Vol.write_other _ _ hne, h.disk _ (fun _ _ => by simp) hu]
      exact (hsync k).table hu j

end Block

/-- The loop over the indirect blocks before it goes on with those in `l`: what is to come
is as at the start, and if any of it is needed, what was before is there. -/
structure Ahead (m₀ m : Slot → UInt32) (size : Nat) (l : List (Fin 128)) : Prop where
  sorted : l.Pairwise (· < ·)
  up : ∀ i ∈ l, ∀ k, i ≤ k → k ∈ l
  same : ∀ i ∈ l, m (.indirect i) = m₀ (.indirect i) ∧ ∀ j, m (.data i j) = m₀ (.data i j)
  low : (∀ i ∈ l, size ≤ i.val * 128 * 512) ∨ Below m₀ m
  prev : (∃ i ∈ l, i.val * 128 * 512 < size) → (∀ i, m (.direct i) ≠ unallocated) ∧
    m .doubly ≠ unallocated ∧ ∀ k ∉ l, m (.indirect k) ≠ unallocated ∧ ∀ j, m (.data k j) ≠ unallocated

namespace Ahead

variable {size : Nat} {i : Fin 128} {is : List (Fin 128)} (h : Ahead m₀ m size (i :: is))

include h

theorem notMem {k : Fin 128} (hk : k < i) : k ∉ i :: is := by
  intro hmem
  rcases List.mem_cons.mp hmem with rfl | hmem
  · exact Fin.lt_irrefl k hk
  · exact Fin.lt_asymm hk ((List.pairwise_cons.mp h.sorted).1 k hmem)

/-- Below the size nothing has been released so far. -/
theorem below (hlt : i.val * 128 * 512 < size) : Below m₀ m := by
  rcases h.low with hall | hb
  · have := hall i List.mem_cons_self
    omega
  · exact hb

theorem past (hle : size ≤ i.val * 128 * 512) : ∀ k ∈ i :: is, size ≤ k.val * 128 * 512 := by
  intro k hk
  rcases List.mem_cons.mp hk with rfl | hk
  · exact hle
  · have hik : i.val ≤ k.val := Nat.le_of_lt ((List.pairwise_cons.mp h.sorted).1 k hk)
    exact hle.trans (Nat.mul_le_mul_right 512 (Nat.mul_le_mul_right 128 hik))

/-- The allocation of the block itself fails. -/
theorem haltedIndirect (hlt : i.val * 128 * 512 < size) (hu : m (.indirect i) = unallocated)
    (hs : Sound R v'.freeMap m) (hall : v'.freeMap.AllUsed) (hmap : v'.freeMap = v.freeMap) :
    Halted R v m m₀ v' m (.indirect i) where
  here := (h.same i List.mem_cons_self).1 ▸ hu
  before b hb := by
    obtain ⟨hdir, hdoub, hprev⟩ := h.prev ⟨i, List.mem_cons_self, hlt⟩
    cases b with
    | direct k => exact hdir k
    | doubly => exact hdoub
    | indirect k =>
        simp only [Slot.pos] at hb
        exact (hprev k (h.notMem (Fin.lt_def.mpr (by omega)))).1
    | data k j =>
        simp only [Slot.pos] at hb
        exact (hprev k (h.notMem (Fin.lt_def.mpr (by omega)))).2 j
  behind b hb := by
    cases b with
    | direct k => simp only [Slot.pos] at hb; omega
    | doubly => simp only [Slot.pos] at hb; omega
    | indirect k =>
        simp only [Slot.pos] at hb
        exact (h.same k (h.up i List.mem_cons_self k (Fin.le_def.mpr (by omega)))).1
    | data k j =>
        simp only [Slot.pos] at hb
        exact (h.same k (h.up i List.mem_cons_self k (Fin.le_def.mpr (by omega)))).2 j
  below := h.below hlt
  sound := hs
  allUsed := hall
  covered hc := by
    rw [hmap]
    exact hc

/-- An allocation of its data fails. -/
theorem haltedData {v₁ : Vol} {p : UInt32} {past : Fin 128 → Bool} {t : Table} {j : Fin 128}
    (hlt : i.val * 128 * 512 < size)
    (hcov : Covered R v.freeMap m → Covered R v₁.freeMap (Function.update m (.indirect i) p))
    (hd : LoopDone I R W H v₀ m₀ v₁ (Function.update m (.indirect i) p) (Slot.data i) past
      (List.finRange 128) (false, t) v' m') (hp : p ≠ unallocated) (hb : Below m₀ m')
    (hall : v'.freeMap.AllUsed) (hu : m₀ (.data i j) = unallocated)
    (hbefore : ∀ k ∈ List.finRange 128, k < j → m' (.data i k) ≠ unallocated)
    (hbehind : ∀ k ∈ List.finRange 128, j ≤ k →
      m' (.data i k) = Function.update m (.indirect i) p (.data i k)) :
    Halted R v m m₀ v' m' (.data i j) := by
  have hother : ∀ b, b ≠ .indirect i → (∀ k, b ≠ .data i k) → m' b = m b := by
    intro b hbi hbd
    rw [hd.others b fun k _ => hbd k, Function.update_of_ne hbi]
  have hself : m' (.indirect i) = p := by
    rw [hd.indirect, Function.update_self]
  obtain ⟨hdir, hdoub, hprev⟩ := h.prev ⟨i, List.mem_cons_self, hlt⟩
  refine ⟨hu, fun b hpos => ?_, fun b hpos => ?_, hb, hd.ext.sound, hall, fun hc => hd.covered (hcov hc)⟩
  · cases b with
    | direct k =>
        rw [hother _ (by simp) (by simp)]
        exact hdir k
    | doubly =>
        rw [hother _ (by simp) (by simp)]
        exact hdoub
    | indirect k =>
        simp only [Slot.pos] at hpos
        by_cases hki : k = i
        · rw [hki, hself]
          exact hp
        · rw [hother _ (by simp [hki]) (by simp)]
          have hne : k.val ≠ i.val := fun he => hki (Fin.ext he)
          exact (hprev k (h.notMem (Fin.lt_def.mpr (by omega)))).1
    | data k l =>
        simp only [Slot.pos] at hpos
        by_cases hki : k = i
        · subst hki
          exact hbefore l (List.mem_finRange l) (Fin.lt_def.mpr (by omega))
        · rw [hother _ (by simp) (by simp [hki])]
          have hne : k.val ≠ i.val := fun he => hki (Fin.ext he)
          exact (hprev k (h.notMem (Fin.lt_def.mpr (by omega)))).2 l
  · cases b with
    | direct k => simp only [Slot.pos] at hpos; omega
    | doubly => simp only [Slot.pos] at hpos; omega
    | indirect k =>
        simp only [Slot.pos] at hpos
        have hik : i < k := Fin.lt_def.mpr (by omega)
        rw [hother _ (by simp [(Fin.ne_of_lt hik).symm]) (by simp)]
        exact (h.same k (h.up i List.mem_cons_self k (Fin.le_of_lt hik))).1
    | data k l =>
        simp only [Slot.pos] at hpos
        by_cases hki : k = i
        · subst hki
          rw [hbehind l (List.mem_finRange l) (Fin.le_def.mpr (by omega)),
            Function.update_of_ne (by simp)]
          exact (h.same k List.mem_cons_self).2 l
        · rw [hother _ (by simp) (by simp [hki])]
          exact (h.same k (h.up i List.mem_cons_self k (Fin.le_def.mpr (by omega)))).2 l

/-- The block is done, `n` being the map then. -/
theorem next {n : Slot → UInt32} (hlt : i.val * 128 * 512 < size)
    (hdir : ∀ k, n (.direct k) = m (.direct k)) (hdoub : n .doubly = m .doubly)
    (hkeep : ∀ k, k ≠ i → n (.indirect k) = m (.indirect k) ∧ ∀ j, n (.data k j) = m (.data k j))
    (hself : n (.indirect i) ≠ unallocated)
    (hdata : (i.val + 1) * 128 * 512 ≤ size → (∀ j, n (.data i j) ≠ unallocated) ∧ Below m₀ n) :
    Ahead m₀ n size is := by
  obtain ⟨hi, his⟩ := List.pairwise_cons.mp h.sorted
  have hne : ∀ k ∈ is, k ≠ i := fun k hk => (Fin.ne_of_lt (hi k hk)).symm
  -- if a later block is needed, this one is needed whole
  have hwhole : (∃ k ∈ is, k.val * 128 * 512 < size) → (i.val + 1) * 128 * 512 ≤ size := by
    rintro ⟨k, hk, hks⟩
    have hik : i.val < k.val := hi k hk
    omega
  refine ⟨his, fun k hk k' hkk' => ?_, fun k hk => ?_, ?_, fun hneed => ?_⟩
  · rcases List.mem_cons.mp (h.up k (List.mem_cons_of_mem _ hk) k' hkk') with rfl | hmem
    · exact absurd (hi k hk) (Fin.not_lt.mpr hkk')
    · exact hmem
  · obtain ⟨h1, h2⟩ := hkeep k (hne k hk)
    obtain ⟨h3, h4⟩ := h.same k (List.mem_cons_of_mem _ hk)
    exact ⟨h1.trans h3, fun j => (h2 j).trans (h4 j)⟩
  · by_cases hall : ∀ k ∈ is, size ≤ k.val * 128 * 512
    · exact .inl hall
    · push Not at hall
      exact .inr (hdata (hwhole hall)).2
  · obtain ⟨hd, hq, hprev⟩ := h.prev ⟨i, List.mem_cons_self, hlt⟩
    refine ⟨fun k => by rw [hdir]; exact hd k, by rw [hdoub]; exact hq, fun k hk => ?_⟩
    by_cases hki : k = i
    · subst hki
      exact ⟨hself, (hdata (hwhole hneed)).1⟩
    · obtain ⟨h1, h2⟩ := hkeep k hki
      obtain ⟨h3, h4⟩ := hprev k fun hmem => (List.mem_cons.mp hmem).elim hki hk
      exact ⟨by rw [h1]; exact h3, fun j => by rw [h2]; exact h4 j⟩

end Ahead

include spec hKR hFW

omit spec hKR hFW in
/-- The inner loop fails: what it added is dropped with the rest. -/
theorem IndirectDone.of_block_fail {size : Nat} {i : Fin 128} {is : List (Fin 128)} {buffer t : Table}
    {v₁ : Vol} {p : UInt32} {past : Fin 128 → Bool} (hah : Ahead m₀ m size (i :: is))
    (hlt : i.val * 128 * 512 < size) (hsync : ∀ k, Synced v.disk m k)
    (hc : ∀ i, m₀ (.indirect i) = unallocated → ∀ j, m₀ (.data i j) = unallocated)
    (hr : Fitted I R W H v₀ m₀ v m (.indirect i) false p v₁) (hp : p ≠ unallocated)
    (hpast : ∀ j, past j = false → i.val * 128 * 512 + j.val * 512 < size)
    (hd : LoopDone I R W H v₀ m₀ v₁ (Function.update m (.indirect i) p) (Slot.data i) past
      (List.finRange 128) (false, t) v' m') :
    ∃ m'', IndirectDone I R W H v₀ m₀ v m size (i :: is) (false, buffer) v' m'' := by
  obtain ⟨hmi, hmd⟩ := hah.same i List.mem_cons_self
  have hb₁ := below_of_fitted hr hmi (hah.below hlt)
  have hsync₁ := synced_of_fitted hr hp hsync rfl
  have hother : ∀ a, a ≠ .indirect i → Function.update m (.indirect i) p a = m a :=
    fun a ha => Function.update_of_ne ha _ _
  obtain ⟨hb₂, hf₂, hall, j, -, hpj, hmj, hbefore, hbehind⟩ := hd.fail rfl
  refine ⟨_, IndirectDone.of_fail (n := Function.update m (.indirect i) p)
    hd.ext ?_ hb₁ hc (fun k => ?_) (fun k => hother _ (by simp)) (hother _ (by simp))
    (fun hu => ?_) hf₂ (by omega) ⟨.data i j, m', ?_,
      hah.haltedData hlt hr.covered hd hp hb₂ hall hmj hbefore hbehind,
      salvaged_data hc hmd fun b hb => hd.others b fun k _ => hb k⟩⟩
  · intro a
    by_cases hdat : ∃ j, a = .data i j
    · obtain ⟨j, rfl⟩ := hdat
      rcases dropped_within hb₁ (.data i j) with hu | he
      · exact Or.inl hu
      · by_cases hu : m₀ (.data i j) = unallocated
        · left
          rw [he, hother _ (by simp), hmd j, hu]
        · right
          rw [he, hb₁ _ hu, hb₂ _ hu]
    · have : m' a = Function.update m (.indirect i) p a :=
        hd.others a fun j _ he => hdat ⟨j, he⟩
      rw [this]
      exact dropped_within hb₁ a
  · refine ⟨(hsync₁ k).closed, fun hu j => ?_⟩
    rw [hd.disk _ (fun _ _ => by simp) hu]
    exact (hsync₁ k).table hu j
  · have hu' := hu
    rw [← hother .doubly (by simp)] at hu'
    have := hd.disk .doubly (fun _ _ => by simp) hu'
    rw [hother .doubly (by simp)] at this
    rw [this]
    exact hr.others .doubly (by simp) hu
  · have := hpast j hpj
    simp only [Slot.base, directPointerSize]
    omega

omit spec hKR hFW in
/-- A block is done and its table written, and then the rest. -/
theorem IndirectDone.cons {size : Nat} {i : Fin 128} {is : List (Fin 128)} {t : Table}
    {r : Bool × Table} {v₁ v₂ : Vol} {m₂ : Slot → UInt32} {p : UInt32} {past : Fin 128 → Bool}
    (his : ∀ k ∈ is, i < k) (hlt : i.val * 128 * 512 < size)
    (hr : Fitted I R W H v₀ m₀ v m (.indirect i) false p v₁) (hp : p ≠ unallocated)
    (hpast : ∀ j, past j = true ↔ size ≤ i.val * 128 * 512 + j.val * 512)
    (hd : LoopDone I R W H v₀ m₀ v₁ (Function.update m (.indirect i) p) (Slot.data i) past
      (List.finRange 128) (true, t) v₂ m₂)
    (hfin : IndirectDone I R W H v₀ m₀ (v₂.write p (Table.toSector t)) m₂ size is r v' m') :
    IndirectDone I R W H v₀ m₀ v m size (i :: is) r v' m' := by
  have hother : ∀ a, a ≠ .indirect i → Function.update m (.indirect i) p a = m a :=
    fun a ha => Function.update_of_ne ha _ _
  have hp₂ : m₂ (.indirect i) = p := (hd.indirect i).trans (Function.update_self _ _ _)
  have hdoub : m₂ .doubly = m .doubly := by
    rw [hd.others .doubly (fun _ _ => by simp), hother _ (by simp)]
  have hkeep : ∀ k, k ≠ i → m₂ (.indirect k) = m (.indirect k) ∧
      ∀ j, m₂ (.data k j) = m (.data k j) := by
    intro k hk
    refine ⟨by rw [hd.indirect, hother _ (by simp [hk])], fun j => ?_⟩
    rw [hd.data_other hk, hother _ (by simp)]
  have hne : ∀ k ∈ is, k ≠ i := fun k hk => (Fin.ne_of_lt (his k hk)).symm
  have hcov : Covered R v.freeMap m → Covered R (v₂.write p (Table.toSector t)).freeMap m₂ :=
    fun hc => hd.covered (hr.covered hc)
  refine ⟨hfin.ext, hfin.sync, fun k => ?_, hfin.doubly.trans hdoub, fun hu => ?_, hfin.result,
    fun hok k hk => ?_, fun hok k hk hks => ?_, fun hok k hk hks hu => ?_,
    fun hok k hk hks j hu => ?_, fun hok hrest hc => ?_,
    fun hok => ((hfin.flag hok).trans (hd.flag rfl)).trans hr.flag, fun hf => ?_⟩
  · rw [hfin.direct, hd.others _ (fun _ _ => by simp), hother _ (by simp)]
  · have hu' : m₂ .doubly ≠ unallocated := by rw [hdoub]; exact hu
    have hnp : m₂ .doubly ≠ p := by
      intro he
      have := hd.ext.sound.inj .doubly (.indirect i) hu' (he.trans hp₂.symm)
      cases this
    have e1 := hfin.disk hu'
    rw [Vol.write_other _ _ hnp] at e1
    rw [hdoub] at e1
    have e2 := hd.disk .doubly (fun _ _ => by simp) (by rw [hother _ (by simp)]; exact hu)
    rw [hother .doubly (by simp)] at e2
    rw [e1, e2]
    exact hr.others .doubly (by simp) hu
  · have hk' : k ∉ is := fun hc => hk (List.mem_cons_of_mem _ hc)
    have hki : k ≠ i := fun hc => hk (hc ▸ List.mem_cons_self)
    obtain ⟨h1, h2⟩ := hfin.others hok k hk'
    obtain ⟨h3, h4⟩ := hkeep k hki
    exact ⟨h1.trans h3, fun j => (h2 j).trans (h4 j)⟩
  · rcases List.mem_cons.mp hk with rfl | hk
    · have hk' : k ∉ is := fun hc => hne k hc rfl
      obtain ⟨h1, h2⟩ := hfin.others hok k hk'
      refine ⟨by rw [h1, hp₂]; exact hp, fun j => ?_⟩
      rw [h2 j, hd.done rfl j (List.mem_finRange j), hpast j]
    · exact hfin.done hok k hk hks
  · rcases List.mem_cons.mp hk with rfl | hk
    · omega
    · exact hfin.rest hok k hk hks (by rw [(hkeep k (hne k hk)).1]; exact hu)
  · rcases List.mem_cons.mp hk with rfl | hk
    · omega
    · exact hfin.empty hok k hk hks j (by rw [(hkeep k (hne k hk)).2 j]; exact hu)
  · refine hfin.covered hok (fun k hk hks => ?_) (hcov hc)
    rw [(hkeep k (hne k hk)).1]
    exact hrest k (List.mem_cons_of_mem _ hk) hks
  · obtain ⟨hb, hfl, hind, hpos, a, n, ha, hh, hm'⟩ := hfin.fail hf
    exact ⟨hb, hfl, hind, hpos, a, n, ha, ⟨hh.here, hh.before, hh.behind, hh.below, hh.sound,
      hh.allUsed, fun hc => hh.covered (hcov hc)⟩, hm'⟩

/-! ## The loop -/

/-- The loop over the indirect blocks.  The induction is on the blocks that are left; each is fitted
before the next one is looked at, and the first failure ends the loop. -/
theorem fitIndirect_spec {size : Nat} (hg : 0 < size → ∀ x, R x → H x)
    (hc : ∀ i, m₀ (.indirect i) = unallocated → ∀ j, m₀ (.data i j) = unallocated) :
    ∀ (l : List (Fin 128)) {v : Vol} {m : Slot → UInt32} {buffer : Table}, Ahead m₀ m size l →
      Ext I R W H v₀ m₀ v m → (∀ i, buffer i = m (.indirect i)) → (∀ i, Synced v.disk m i) →
      vwp (fitIndirect alloc release size l buffer)
        (fun r v' => ∃ m', IndirectDone I R W H v₀ m₀ v m size l r v' m') E v := by
  intro l
  induction l with
  | nil =>
      intro v m buffer _ h hbuf hsync
      exact wpOn_pure ⟨m, h, hsync, fun _ => rfl, rfl, fun _ => rfl, fun _ => hbuf,
        fun _ _ _ => ⟨rfl, fun _ => rfl⟩, fun _ _ hi => (by cases hi), fun _ _ _ _ hu => hu,
        fun _ _ _ _ _ hu => hu, fun _ _ hc => hc, fun _ => rfl, fun hf => (by cases hf)⟩
  | cons i is ih =>
      intro v m buffer hah h hbuf hsync
      have hi := (List.pairwise_cons.mp hah.sorted).1
      obtain ⟨hmi, hmd⟩ := hah.same i List.mem_cons_self
      unfold fitIndirect
      rw [hbuf i]
      refine wpOn_seq (fitPointer_spec spec hKR hFW (a := .indirect i) h hmi fun hpast => ?_) ?_
      · simp only [decide_eq_false_iff_not] at hpast
        exact hg (by omega)
      intro r v₁ hr
      cases r with
      | none =>
          obtain ⟨hpast, hu, hI, rfl, hall⟩ := hr
          have hlt : i.val * 128 * 512 < size := by
            simp only [decide_eq_false_iff_not] at hpast
            omega
          have hb := hah.below hlt
          refine wpOn_pure ⟨_, IndirectDone.of_fail (h.fail hI) (dropped_within hb) hb hc hsync
            (fun _ => rfl) rfl (fun _ => rfl) rfl (by omega) ⟨.indirect i, m, ?_,
              hah.haltedIndirect hlt hu h.sound hall rfl, salvaged_indirect hc i⟩⟩
          simp only [Slot.base, directPointerSize]
          omega
      | some p =>
          refine wpOn_ite (fun hp => ?_) (fun hp => ?_)
          · -- the `break`
            subst hp
            have hpast := hr.empty.mp rfl
            rw [hpast] at hr
            exact wpOn_pure ⟨_, IndirectDone.of_break hr hbuf hsync (hah.past (by simpa using hpast))⟩
          have hpast : decide (size ≤ i.val * 128 * 512) = false := by
            rw [← Bool.not_eq_true]
            exact fun ht => hp (hr.empty.mpr ht)
          have hlt : i.val * 128 * 512 < size := by
            simp only [decide_eq_false_iff_not] at hpast
            omega
          rw [hpast] at hr
          have hb₁ := below_of_fitted hr hmi (hah.below hlt)
          have hsync₁ := synced_of_fitted hr hp hsync rfl
          have hself : Function.update m (.indirect i) p (.indirect i) = p :=
            Function.update_self _ _ _
          have hother : ∀ a, a ≠ .indirect i → Function.update m (.indirect i) p a = m a :=
            fun a ha => Function.update_of_ne ha _ _
          have hpsz : p < v₁.size := by
            have := hr.ext.sound.lt_size (spec.size _ hr.ext.inv) (a := .indirect i)
            rw [hself] at this
            exact this hp
          refine wpOn_seq (vwp_cacheRead (Q := fun b v' => b = v₁.disk p ∧ v' = v₁) hpsz
            ⟨rfl, rfl⟩) ?_
          rintro b v' ⟨rfl, rfl⟩
          refine wpOn_seq (fitPointers_spec spec hKR hFW (e := Slot.data i)
            (fun j j' hjj => by simpa using hjj) (fun _ => trivial) (fun j hj => ?_)
            (List.finRange 128) ?_ hr.ext (fun j => ?_) (fun j _ => ?_) (Or.inr hb₁)) ?_
          · exact hg (by omega)
          · refine (List.pairwise_lt_finRange 128).imp ?_
            intro j j' hjj
            refine ⟨hjj, ?_⟩
            have hle : j.val ≤ j'.val := Nat.le_of_lt hjj
            simp only [decide_eq_true_eq]
            exact fun h => h.trans (Nat.add_le_add_left (Nat.mul_le_mul_right 512 hle) _)
          · have := (hsync₁ i).table (by rw [hself]; exact hp) j
            rw [hself] at this
            exact this
          · rw [hother _ (by simp)]
            exact hmd j
          rintro ⟨ok, t⟩ v₂ ⟨m₂, hd⟩
          cases ok with
          | false =>
              refine wpOn_pure (IndirectDone.of_block_fail hah hlt hsync hc hr hp (fun j hj => ?_) hd)
              simpa using hj
          | true =>
              have hp₂ : m₂ (.indirect i) = p := (hd.indirect i).trans hself
              have hu₂ : m₂ (.indirect i) ≠ unallocated := by rw [hp₂]; exact hp
              have hpsz₂ : p < v₂.size := by
                rw [← hp₂]
                exact hd.ext.sound.lt_size (spec.size _ hd.ext.inv) hu₂
              refine wpOn_seq (vwp_cacheWrite (Q := fun _ v' => v' = v₂.write p (Table.toSector t)) hpsz₂
                rfl) ?_
              rintro - v₃ rfl
              have hnK : ¬ K p := by
                intro hK
                have := hd.ext.sound.apart _ hu₂
                rw [hp₂] at this
                exact this (hKR p hK)
              have hext₃ := hd.ext.writeTable (a := .indirect i) (b := Table.toSector t)
                (by rw [hp₂]; exact spec.write _ _ _ hd.ext.inv hnK) (fun hn => hn) hu₂
              rw [hp₂] at hext₃
              have hsync₃ := fun k => hd.synced_write (by rw [hself]; exact hp) hsync₁ k
              rw [hself] at hsync₃
              have hkeep : ∀ k, k ≠ i → m₂ (.indirect k) = m (.indirect k) ∧
                  ∀ j, m₂ (.data k j) = m (.data k j) := by
                intro k hk
                refine ⟨by rw [hd.indirect, hother _ (by simp [hk])], fun j => ?_⟩
                rw [hd.data_other hk, hother _ (by simp)]
              have hnext : Ahead m₀ m₂ size is := by
                refine hah.next hlt (fun k => ?_) ?_ hkeep hu₂ fun hwhole => ?_
                · rw [hd.others _ (fun _ _ => by simp), hother _ (by simp)]
                · rw [hd.others _ (fun _ _ => by simp), hother _ (by simp)]
                · have hno : ∀ j : Fin 128,
                      decide (size ≤ i.val * 128 * 512 + j.val * 512) = false := by
                    intro j
                    have h2 := j.isLt
                    simp only [decide_eq_false_iff_not]
                    omega
                  refine ⟨fun j => ?_, hd.below hb₁ hno⟩
                  rw [ne_eq, hd.done rfl j (List.mem_finRange j), hno j]
                  exact Bool.false_ne_true
              refine wpOn_weaken (ih hnext hext₃ (fun k => ?_) hsync₃) ?_
              · by_cases hk : k = i
                · rw [hk, Function.update_self, hp₂]
                · rw [Function.update_of_ne hk, hbuf, (hkeep k hk).1]
              · rintro r v₄ ⟨m₄, hfin⟩
                exact ⟨m₄, IndirectDone.cons hi hlt hr hp (fun j => by simp) hd hfin⟩

end Loops

end CS162.Fs
