/-
# `CS162.Fs.Extend` — what `inode_extend` does to an inode's pointers

`inode_extend` runs over all the pointers of an inode, in file order: those below
the new size are allocated, those past it are released.  It works on local copies
of the tables and writes a table back when it is done with it; when an allocation
fails it drops the copies and starts over with the old length.

`Ext … v₀ m₀ v m` relates the volume and the pointer map at the start to those at
any later moment.  The map `m` is the one of the local copies.  It is sound
throughout, everybody else's sectors are as they were, and each pointer is what it
was, or gone, or a fresh block.  What the disk says in the meantime lies between
`m₀` and `m` as long as nothing has been released (`Below`), and in file order all
allocations come before all releases; so when an allocation fails the map on the
disk is sound as well.

The free map enters only through `FreeMapSpec`, since three different allocators
are in use: the normal one, the one of formatting, and the one inside the free
map's own file.  This module has the relation and the loops over pointers to data;
`CS162.Fs.Indirect` has the loop over the indirect blocks, and `CS162.Fs.Attempt`
the whole function.
-/
import CS162.Fs.Pointers

namespace CS162.Fs

open Bytes Wp

/-! ## Allocators -/

/-- What an allocation does: it fails, there being no free sector, or marks one and saves
the free map in the sectors `F`. -/
def Allocated (I : Vol → Prop) (F : UInt32 → Prop) (v : Vol) : Option UInt32 → Vol → Prop
  | none, v' => I v' ∧ v' = { v with allocFailed := true } ∧ v.freeMap.AllUsed
  | some x, v' => I v' ∧ x.toNat < v.freeMap.bitCnt ∧ v.freeMap.bits x.toNat = false ∧
      ∃ d, v' = { v with freeMap := bitmapSet v.freeMap x.toNat true, disk := d } ∧
        ∀ y, ¬ F y → d y = v.disk y

/-- What a release does. -/
def Released (I : Vol → Prop) (F : UInt32 → Prop) (v : Vol) (x : UInt32) (v' : Vol) : Prop :=
  I v' ∧ ∃ d, v' = { v with freeMap := bitmapSet v.freeMap x.toNat false, disk := d } ∧
    ∀ y, ¬ F y → d y = v.disk y

/-- An allocator and its invariant.  `K` are the sectors the free map itself rests
on. -/
structure FreeMapSpec (alloc : FsM (Option UInt32)) (release : UInt32 → FsM Unit)
    (I : Vol → Prop) (K F : UInt32 → Prop) (E : Panic → Vol → Prop) : Prop where
  sub : ∀ x, F x → K x
  size : ∀ v, I v → v.freeMap.bitCnt = v.size.toNat
  write : ∀ v x b, I v → ¬ K x → I (v.write x b)
  alloc : ∀ v, I v → vwp alloc (Allocated I F v) E v
  release : ∀ v x, I v → v.freeMap.Used x → ¬ K x →
    vwp (release x) (fun _ v' => Released I F v x v') E v

/-! ## The relation -/

/-- Nothing that `m₀` names is missing from `m`. -/
def Below (m₀ m : Slot → UInt32) : Prop := ∀ a, m₀ a ≠ unallocated → m a = m₀ a

/-- From `v₀` with pointers `m₀` to `v` with pointers `m`.  `R` are the sectors of
others, `W` those of them that may be written, `H` those that the free map has as used.  An
allocation needs all of `R` there; a release does not. -/
structure Ext (I : Vol → Prop) (R W H : UInt32 → Prop) (v₀ : Vol)
    (m₀ : Slot → UInt32) (v : Vol) (m : Slot → UInt32) : Prop where
  inv : I v
  sound : Sound R v.freeMap m
  held : ∀ x, H x → R x ∧ v.freeMap.Used x
  frame : ∀ x, R x → ¬ W x → v.disk x = v₀.disk x
  step : ∀ a, m a = unallocated ∨ m a = m₀ a ∨ m₀ a = unallocated
  keep : ∀ a, a.IsData → m a ≠ unallocated → m a = m₀ a → v.disk (m a) = v₀.disk (m a)
  zero : ∀ a, a.IsData → m a ≠ unallocated → m₀ a = unallocated → v.disk (m a) = zerosBlock
  size : v.size = v₀.size
  file : v.freeMapFile = v₀.freeMapFile
  opens : v.openInodes = v₀.openInodes
  failed : v₀.allocFailed = true → v.allocFailed = true

variable {alloc : FsM (Option UInt32)} {release : UInt32 → FsM Unit} {I : Vol → Prop}
  {K F R W H : UInt32 → Prop} {E : Panic → Vol → Prop} {v₀ v v' : Vol}
  {m₀ m m' : Slot → UInt32}

namespace Ext

theorem refl (hI : I v) (hs : Sound R v.freeMap m) (hR : ∀ x, H x → R x ∧ v.freeMap.Used x) :
    Ext I R W H v m v m where
  inv := hI
  sound := hs
  held := hR
  frame _ _ _ := rfl
  step _ := Or.inr (Or.inl rfl)
  keep _ _ _ _ := rfl
  zero _ _ h h' := absurd h' h
  size := rfl
  file := rfl
  opens := rfl
  failed h := h

/-- Forgetting pointers. -/
theorem within (h : Ext I R W H v₀ m₀ v m) (hw : Within m' m) : Ext I R W H v₀ m₀ v m' := by
  have eq : ∀ a, m' a ≠ unallocated → m' a = m a := fun a ha => (hw a).resolve_left ha
  refine ⟨h.inv, h.sound.within hw, h.held, h.frame, ?_, ?_, ?_, h.size, h.file, h.opens, h.failed⟩
  · intro a
    rcases hw a with hu | he
    · exact Or.inl hu
    · rw [he]
      exact h.step a
  · intro a hd hu hk
    have e := eq a hu
    rw [e] at hu hk ⊢
    exact h.keep a hd hu hk
  · intro a hd hu hz
    have e := eq a hu
    rw [e] at hu ⊢
    exact h.zero a hd hu hz

/-- A failed allocation. -/
theorem fail (h : Ext I R W H v₀ m₀ v m) (hI : I { v with allocFailed := true }) :
    Ext I R W H v₀ m₀ { v with allocFailed := true } m :=
  ⟨hI, h.sound, h.held, h.frame, h.step, h.keep, h.zero, h.size, h.file, h.opens, fun _ => rfl⟩

/-- A write to one of the inode's own tables. -/
theorem writeTable (h : Ext I R W H v₀ m₀ v m) {a : Slot} {b : Sector}
    (hI : I (v.write (m a) b)) (ha : ¬ a.IsData) (hu : m a ≠ unallocated) :
    Ext I R W H v₀ m₀ (v.write (m a) b) m := by
  have hdata : ∀ a', a'.IsData → m a' ≠ unallocated → m a' ≠ m a := by
    intro a' hd hu' he
    have := h.sound.inj a' a hu' he
    rw [this] at hd
    exact ha hd
  refine ⟨hI, h.sound, h.held, ?_, h.step, ?_, ?_, h.size, h.file, h.opens, h.failed⟩
  · intro x hR hW
    have hne : x ≠ m a := by
      rintro rfl
      exact h.sound.apart a hu hR
    rw [Vol.write_other _ _ hne]
    exact h.frame x hR hW
  · intro a' hd hu' hk
    rw [Vol.write_other _ _ (hdata a' hd hu')]
    exact h.keep a' hd hu' hk
  · intro a' hd hu' hz
    rw [Vol.write_other _ _ (hdata a' hd hu')]
    exact h.zero a' hd hu' hz

/-- A write to a sector of others that may be written: the inode's header. -/
theorem writeHeader (h : Ext I R W H v₀ m₀ v m) {s : UInt32} {b : Sector}
    (hI : I (v.write s b)) (hR : R s) (hW : W s) : Ext I R W H v₀ m₀ (v.write s b) m := by
  have hne : ∀ a, m a ≠ unallocated → m a ≠ s := by
    intro a hu he
    have := h.sound.apart a hu
    rw [he] at this
    exact this hR
  refine ⟨hI, h.sound, h.held, ?_, h.step, ?_, ?_, h.size, h.file, h.opens, h.failed⟩
  · intro x hRx hWx
    have hx : x ≠ s := by
      rintro rfl
      exact hWx hW
    rw [Vol.write_other _ _ hx]
    exact h.frame x hRx hWx
  · intro a hd hu hk
    rw [Vol.write_other _ _ (hne a hu)]
    exact h.keep a hd hu hk
  · intro a hd hu hz
    rw [Vol.write_other _ _ (hne a hu)]
    exact h.zero a hd hu hz

/-- Two stretches, the first of which released nothing. -/
theorem trans {v₁ v₂ : Vol} {m₁ m₂ : Slot → UInt32} (h : Ext I R W H v₀ m₀ v₁ m₁)
    (hb : Below m₀ m₁) (h' : Ext I R W H v₁ m₁ v₂ m₂) : Ext I R W H v₀ m₀ v₂ m₂ := by
  refine ⟨h'.inv, h'.sound, h'.held, ?_, ?_, ?_, ?_, h'.size.trans h.size, h'.file.trans h.file,
    h'.opens.trans h.opens, fun hf => h'.failed (h.failed hf)⟩
  · intro x hR hW
    rw [h'.frame x hR hW, h.frame x hR hW]
  · intro a
    by_cases h0 : m₀ a = unallocated
    · exact Or.inr (Or.inr h0)
    · rcases h'.step a with hu | he | hu
      · exact Or.inl hu
      · exact Or.inr (Or.inl (he.trans (hb a h0)))
      · rw [hb a h0] at hu
        exact absurd hu h0
  · intro a hd hu hk
    have h1 : m₁ a = m₀ a := hb a (hk ▸ hu)
    have h21 : m₂ a = m₁ a := hk.trans h1.symm
    rw [h'.keep a hd hu h21]
    rw [h21] at hu ⊢
    exact h.keep a hd hu h1
  · intro a hd hu hz
    rcases h'.step a with h2 | h2 | h2
    · exact absurd h2 hu
    · rw [h'.keep a hd hu h2]
      rw [h2] at hu ⊢
      exact h.zero a hd hu hz
    · exact h'.zero a hd hu h2

end Ext

/-! ## One pointer -/

section Loops

variable (spec : FreeMapSpec alloc release I K F E) (hKR : ∀ x, K x → R x) (hFW : ∀ x, F x → W x)

include spec hKR hFW

/-- A used sector outside the free map's file survives the saving of the free map. -/
theorem Ext.take {a : Slot} {x : UInt32} {d : UInt32 → Sector} (h : Ext I R W H v₀ m₀ v m)
    (hg : ∀ x, R x → H x) (ha : m a = unallocated) (hma : m a = m₀ a) (hlt : x.toNat < v.freeMap.bitCnt)
    (hfree : v.freeMap.bits x.toNat = false) (hd : ∀ y, ¬ F y → d y = v.disk y)
    (hI : I { v with freeMap := bitmapSet v.freeMap x.toNat true, disk := d }) :
    Ext I R W H v₀ m₀
      ({ v with freeMap := bitmapSet v.freeMap x.toNat true, disk := d }.write x a.fresh)
      (Function.update m a x) := by
  have hRx : ¬ R x := by
    intro hR
    have := (h.held x (hg x hR)).2.2
    rw [hfree] at this
    cases this
  have hFx : ∀ y, F y → R y := fun y hy => hKR y (spec.sub y hy)
  have hold : ∀ a', a' ≠ a → m a' ≠ unallocated →
      ({ v with freeMap := bitmapSet v.freeMap x.toNat true, disk := d }.write x a.fresh).disk
        (m a') = v.disk (m a') := by
    intro a' hne hu
    have hx : m a' ≠ x := by
      intro he
      have := (h.sound.used a' hu).2
      rw [he, hfree] at this
      cases this
    rw [Vol.write_other _ _ hx]
    exact hd _ fun hF => h.sound.apart a' hu (hFx _ hF)
  have h0 : m₀ a = unallocated := hma ▸ ha
  refine ⟨spec.write _ _ _ hI fun hK => hRx (hKR x hK), h.sound.take hlt hfree hRx, ?_, ?_, ?_, ?_,
    ?_, h.size, h.file, h.opens, h.failed⟩
  · intro y hy
    exact ⟨(h.held y hy).1, Bitmap.used_set_true (h.held y hy).2⟩
  · intro y hR hW
    have hy : y ≠ x := by
      rintro rfl
      exact hRx hR
    rw [Vol.write_other _ _ hy, ← h.frame y hR hW]
    exact hd y fun hF => hW (hFW y hF)
  · intro a'
    by_cases hc : a' = a
    · rw [hc]
      exact Or.inr (Or.inr h0)
    · rw [Function.update_of_ne hc]
      exact h.step a'
  · intro a' hdata hu hk
    by_cases hc : a' = a
    · rw [hc] at hu hk
      exact absurd (hk.trans h0) hu
    · rw [Function.update_of_ne hc] at hu hk ⊢
      rw [hold a' hc hu]
      exact h.keep a' hdata hu hk
  · intro a' hdata hu hz
    by_cases hc : a' = a
    · rw [hc] at hdata ⊢
      rw [Function.update_self, Vol.write_self]
      cases a with
      | direct i => rfl
      | data i j => rfl
      | doubly => exact hdata.elim
      | indirect i => exact hdata.elim
    · rw [Function.update_of_ne hc] at hu ⊢
      rw [hold a' hc hu]
      exact h.zero a' hdata hu hz

/-- A slot is given back. -/
theorem Ext.give {a : Slot} {d : UInt32 → Sector} (h : Ext I R W H v₀ m₀ v m)
    (ha : m a ≠ unallocated) (hd : ∀ y, ¬ F y → d y = v.disk y)
    (hI : I { v with freeMap := bitmapSet v.freeMap (m a).toNat false, disk := d }) :
    Ext I R W H v₀ m₀ { v with freeMap := bitmapSet v.freeMap (m a).toNat false, disk := d }
      (Function.update m a unallocated) := by
  have hFx : ∀ y, F y → R y := fun y hy => hKR y (spec.sub y hy)
  have hw := h.within (Within.update m a)
  have hold : ∀ a', m a' ≠ unallocated → d (m a') = v.disk (m a') :=
    fun a' hu => hd _ fun hF => h.sound.apart a' hu (hFx _ hF)
  have hval : ∀ a', Function.update m a unallocated a' ≠ unallocated →
      Function.update m a unallocated a' = m a' :=
    fun a' hu => (Within.update m a a').resolve_left hu
  refine ⟨hI, h.sound.give ha, ?_, ?_, hw.step, ?_, ?_, h.size, h.file, h.opens, h.failed⟩
  · intro y hy
    obtain ⟨hR, hy⟩ := h.held y hy
    refine ⟨hR, Bitmap.used_set_false hy ?_⟩
    rintro rfl
    exact h.sound.apart a ha hR
  · intro y hR hW
    rw [← h.frame y hR hW]
    exact hd y fun hF => hW (hFW y hF)
  · intro a' hdata hu hk
    have hk' := hw.keep a' hdata hu hk
    have e := hval a' hu
    rw [e] at hu hk' ⊢
    exact (hold a' hu).trans hk'
  · intro a' hdata hu hz
    have hz' := hw.zero a' hdata hu hz
    have e := hval a' hu
    rw [e] at hu hz' ⊢
    exact (hold a' hu).trans hz'

/-- What handling one pointer leaves behind. -/
structure Fitted (I : Vol → Prop) (R W H : UInt32 → Prop) (v₀ : Vol)
    (m₀ : Slot → UInt32) (v : Vol) (m : Slot → UInt32) (a : Slot) (past : Bool) (p : UInt32)
    (v' : Vol) : Prop where
  ext : Ext I R W H v₀ m₀ v' (Function.update m a p)
  empty : p = unallocated ↔ past = true
  kept : past = false → m a ≠ unallocated → p = m a
  others : ∀ a', a' ≠ a → m a' ≠ unallocated → v'.disk (m a') = v.disk (m a')
  same : p = m a → m a ≠ unallocated → v'.disk p = v.disk p
  covered : Covered R v.freeMap m → Covered R v'.freeMap (Function.update m a p)
  flag : v'.allocFailed = v.allocFailed
  fresh : m a = unallocated → p ≠ unallocated → v'.disk p = a.fresh

omit spec hKR hFW in
theorem Fitted.unchanged {a : Slot} {past : Bool} (h : Ext I R W H v₀ m₀ v m)
    (hp : m a = unallocated ↔ past = true) : Fitted I R W H v₀ m₀ v m a past (m a) v where
  ext := by
    rw [Function.update_eq_self]
    exact h
  empty := hp
  kept _ _ := rfl
  others _ _ _ := rfl
  same _ _ := rfl
  covered hc := by
    rw [Function.update_eq_self]
    exact hc
  flag := rfl
  fresh hu hn := absurd hu hn

/-- The specification of `fitPointer`. -/
theorem fitPointer_spec {a : Slot} {past : Bool} (h : Ext I R W H v₀ m₀ v m)
    (hma : m a = m₀ a) (hg : past = false → ∀ x, R x → H x) :
    vwp (fitPointer alloc release past a.fresh (m a)) (fun r v' => match r with
      | none => past = false ∧ m a = unallocated ∧ I v' ∧ v' = { v with allocFailed := true } ∧
          v.freeMap.AllUsed
      | some p => Fitted I R W H v₀ m₀ v m a past p v') E v := by
  have hFx : ∀ y, F y → R y := fun y hy => hKR y (spec.sub y hy)
  unfold fitPointer
  refine wpOn_ite (fun hc => ?_) (fun hc => wpOn_ite (fun hc' => ?_) (fun hc' => ?_))
  · -- past the size: the block is released
    obtain ⟨hpast, hu⟩ := hc
    refine wpOn_seq (spec.release v (m a) h.inv (h.sound.used a hu)
      fun hK => h.sound.apart a hu (hKR _ hK)) ?_
    rintro - v' ⟨hI, d, rfl, hd⟩
    refine wpOn_pure ?_
    have hext := h.give spec hKR hFW hu hd hI
    refine ⟨hext, by simp [hpast], fun hp => ?_, fun a' _ hu' => ?_, fun he hu' => ?_,
      fun hc => hc.give, rfl, fun hm => absurd hm hu⟩
    · rw [hpast] at hp
      cases hp
    · exact hd _ fun hF => h.sound.apart a' hu' (hFx _ hF)
    · exact absurd he.symm hu'
  · -- below the size and missing: a block is allocated
    obtain ⟨hpast, hu⟩ := hc'
    refine wpOn_seq (spec.alloc v h.inv) ?_
    intro r v' hr
    cases r with
    | none => exact wpOn_pure ⟨hpast, hu, hr⟩
    | some x =>
        obtain ⟨hI, hlt, hfree, d, rfl, hd⟩ := hr
        have hsz := spec.size v h.inv
        have hx : x < v.size := by
          rw [hsz] at hlt
          exact hlt
        refine wpOn_seq (vwp_cacheWrite (Q := fun _ v' => v' = _) hx rfl) ?_
        rintro - v' rfl
        refine wpOn_pure ?_
        have hext := h.take spec hKR hFW (hg hpast) hu hma hlt hfree hd hI
        have hxu := ne_unallocated hx
        refine ⟨hext, ⟨fun he => absurd he hxu, fun hp => ?_⟩, fun _ hm => absurd hu hm,
          fun a' _ hu' => ?_, fun _ hm => absurd hu hm, fun hc => hc.take hu hxu,
          rfl, fun _ _ => Vol.write_self _ _ _⟩
        · rw [hpast] at hp
          cases hp
        · have hne : m a' ≠ x := by
            intro he
            have := (h.sound.used a' hu').2
            rw [he, hfree] at this
            cases this
          rw [Vol.write_other _ _ hne]
          exact hd _ fun hF => h.sound.apart a' hu' (hFx _ hF)
  · -- nothing to do
    refine wpOn_pure (Fitted.unchanged h ?_)
    cases past with
    | true => simpa using hc
    | false => simpa using hc'

/-! ## The loops over data pointers -/

/-- How a loop over the slots `e i`, `i ∈ l`, ends. -/
structure LoopDone {n : Nat} (I : Vol → Prop) (R W H : UInt32 → Prop) (v₀ : Vol)
    (m₀ : Slot → UInt32) (v : Vol) (m : Slot → UInt32) (e : Fin n → Slot) (past : Fin n → Bool)
    (l : List (Fin n)) (r : Bool × (Fin n → UInt32)) (v' : Vol) (m' : Slot → UInt32) : Prop where
  ext : Ext I R W H v₀ m₀ v' m'
  result : ∀ i, r.2 i = m' (e i)
  others : ∀ a, (∀ i ∈ l, a ≠ e i) → m' a = m a
  disk : ∀ a, (∀ i ∈ l, a ≠ e i) → m a ≠ unallocated → v'.disk (m a) = v.disk (m a)
  done : r.1 = true → ∀ i ∈ l, (m' (e i) = unallocated ↔ past i = true)
  covered : Covered R v.freeMap m → Covered R v'.freeMap m'
  flag : r.1 = true → v'.allocFailed = v.allocFailed
  fail : r.1 = false → Below m₀ m' ∧ v'.allocFailed = true ∧ v'.freeMap.AllUsed ∧
    ∃ i ∈ l, past i = false ∧ m₀ (e i) = unallocated ∧
      (∀ j ∈ l, j < i → m' (e j) ≠ unallocated) ∧ ∀ j ∈ l, i ≤ j → m' (e j) = m (e j)

omit spec hKR hFW in
/-- A loop none of whose blocks is past the size releases nothing. -/
theorem LoopDone.below {n : Nat} {e : Fin n → Slot} {past : Fin n → Bool} {l : List (Fin n)}
    {t : Fin n → UInt32} (h : LoopDone I R W H v₀ m₀ v m e past l (true, t) v' m')
    (hb : Below m₀ m) (hno : ∀ i, past i = false) : Below m₀ m' := by
  intro a ha
  by_cases hc : ∃ i ∈ l, a = e i
  · obtain ⟨i, hi, rfl⟩ := hc
    rcases h.ext.step (e i) with hu | he | hu
    · rw [h.done rfl i hi, hno i] at hu
      cases hu
    · exact he
    · exact absurd hu ha
  · rw [h.others a fun i hi he => hc ⟨i, hi, he⟩]
    exact hb a ha

/-- The loop over the pointers of one table.  Those past the new length are released and the others
allocated; the first failure ends it. -/
theorem fitPointers_spec {n : Nat} {e : Fin n → Slot} {past : Fin n → Bool}
    (he : Function.Injective e) (hdata : ∀ i, (e i).IsData)
    (hg : ∀ i, past i = false → ∀ x, R x → H x) :
    ∀ (l : List (Fin n)) {v : Vol} {m : Slot → UInt32} {pointers : Fin n → UInt32},
      l.Pairwise (fun i j => i < j ∧ (past i = true → past j = true)) →
      Ext I R W H v₀ m₀ v m → (∀ i, pointers i = m (e i)) →
      (∀ i ∈ l, m (e i) = m₀ (e i)) → ((∀ i ∈ l, past i = true) ∨ Below m₀ m) →
      vwp (fitPointers alloc release past l pointers)
        (fun r v' => ∃ m', LoopDone I R W H v₀ m₀ v m e past l r v' m') E v := by
  intro l
  induction l with
  | nil =>
      intro v m pointers _ h hp _ _
      refine wpOn_pure ⟨m, h, hp, fun _ _ => rfl, fun _ _ _ => rfl, ?_, fun hc => hc,
        fun _ => rfl, ?_⟩
      · intro _ i hi
        cases hi
      · intro hf
        cases hf
  | cons i is ih =>
      intro v m pointers hl h hp hm hlow
      obtain ⟨hi, his⟩ := List.pairwise_cons.mp hl
      have hmi := hm i List.mem_cons_self
      have hfill : zerosBlock = (e i).fresh := by
        have := hdata i
        revert this
        cases e i <;> intro hd
        · rfl
        · exact hd.elim
        · exact hd.elim
        · rfl
      unfold fitPointers
      rw [hp i, hfill]
      refine wpOn_seq (fitPointer_spec spec hKR hFW h hmi (hg i)) ?_
      intro r v₁ hr
      cases r with
      | none =>
          obtain ⟨hpast, hu, hI, rfl, hall⟩ := hr
          refine wpOn_pure ⟨m, h.fail hI, hp, fun _ _ => rfl, fun _ _ _ => rfl, ?_, fun hc => hc,
            fun hf => (by cases hf), ?_⟩
          · intro hf
            cases hf
          · intro _
            refine ⟨?_, rfl, hall, i, List.mem_cons_self, hpast, hmi ▸ hu, fun j hj hlt => ?_,
              fun _ _ _ => rfl⟩
            · rcases hlow with hall | hb
              · have := hall i List.mem_cons_self
                rw [hpast] at this
                cases this
              · exact hb
            · rcases List.mem_cons.mp hj with rfl | hj
              · exact absurd hlt (Fin.lt_irrefl j)
              · exact absurd hlt (Fin.lt_asymm (hi j hj).1)
      | some p =>
          have hne : ∀ j ∈ is, e j ≠ e i := by
            intro j hj hc
            exact Fin.ne_of_lt (hi j hj).1 (he hc).symm
          have hlow₁ : (∀ j ∈ is, past j = true) ∨ Below m₀ (Function.update m (e i) p) := by
            cases hpast : past i with
            | true => exact Or.inl fun j hj => (hi j hj).2 hpast
            | false =>
                right
                rcases hlow with hall | hb
                · have := hall i List.mem_cons_self
                  rw [hpast] at this
                  cases this
                · intro a ha
                  by_cases hc : a = e i
                  · rw [hc] at ha ⊢
                    rw [Function.update_self, hr.kept hpast (hmi ▸ ha), hmi]
                  · rw [Function.update_of_ne hc]
                    exact hb a ha
          refine wpOn_mono (ih his hr.ext ?_ ?_ hlow₁) ?_ (fun _ _ he => he)
          · intro j
            by_cases hj : j = i
            · rw [hj, Function.update_self, Function.update_self]
            · rw [Function.update_of_ne hj, Function.update_of_ne (fun hc => hj (he hc)), hp j]
          · intro j hj
            rw [Function.update_of_ne (hne j hj)]
            exact hm j (List.mem_cons_of_mem _ hj)
          · rintro r v₂ ⟨m₂, hd⟩
            have hm₂ : ∀ a, (∀ j ∈ i :: is, a ≠ e j) → Function.update m (e i) p a = m a :=
              fun a ha => Function.update_of_ne (ha i List.mem_cons_self) _ _
            have hrest : ∀ a, (∀ j ∈ i :: is, a ≠ e j) → ∀ j ∈ is, a ≠ e j :=
              fun a ha j hj => ha j (List.mem_cons_of_mem _ hj)
            have hself : m₂ (e i) = p := by
              rw [hd.others (e i) fun k hk => (hne k hk).symm, Function.update_self]
            refine ⟨m₂, hd.ext, hd.result, fun a ha => ?_, fun a ha hu => ?_, fun hok j hj => ?_,
              fun hc => hd.covered (hr.covered hc), fun hok => (hd.flag hok).trans hr.flag, fun hf => ?_⟩
            · rw [hd.others a (hrest a ha), hm₂ a ha]
            · have := hd.disk a (hrest a ha) (by rw [hm₂ a ha]; exact hu)
              rw [hm₂ a ha] at this
              rw [this, hr.others a (ha i List.mem_cons_self) hu]
            · rcases List.mem_cons.mp hj with rfl | hj
              · -- the slot just handled is not touched again
                rw [hself]
                exact hr.empty
              · exact hd.done hok j hj
            · obtain ⟨hb, hfl, hall, j, hj, hpj, hmj, hbefore, hbehind⟩ := hd.fail hf
              have hpast : past i = false := by
                rw [← Bool.not_eq_true]
                intro ht
                rw [(hi j hj).2 ht] at hpj
                cases hpj
              refine ⟨hb, hfl, hall, j, List.mem_cons_of_mem _ hj, hpj, hmj, fun k hk hkj => ?_,
                fun k hk hjk => ?_⟩
              · rcases List.mem_cons.mp hk with rfl | hk
                · rw [hself, ne_eq, hr.empty, hpast]
                  exact Bool.false_ne_true
                · exact hbefore k hk hkj
              · rcases List.mem_cons.mp hk with rfl | hk
                · exact absurd (hi j hj).1 (Fin.not_lt.mpr hjk)
                · rw [hbehind k hk hjk, Function.update_of_ne (hne k hk)]

end Loops

end CS162.Fs
