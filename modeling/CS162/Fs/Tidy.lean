/-
# `CS162.Fs.Tidy` — closing, to the sector, and runs

`inode_close` leaves an inode that stays as it was.  When it frees one, `inode_extend` is
asked for the size 0: it takes nothing, so that the header's sector, which is free from the
first step on, stays free.  It goes over the direct pointers and the first indirect block,
and never drops the doubly indirect block.  So all sectors of the inode are free afterwards
if it had no doubly indirect block, and that block is not.

`Reach.tidy` is the result for runs: every inode but that of the free map is in shape.
-/
import CS162.Fs.Growth

namespace CS162.Fs

open Bytes Wp

/-! ## Shrinking to nothing -/

section Empty

variable {alloc : FsM (Option UInt32)} {release : UInt32 → FsM Unit}

theorem fitPointer_past (alloc' : FsM (Option UInt32)) (fresh : Sector) (p : UInt32) :
    fitPointer alloc release true fresh p = fitPointer alloc' release true fresh p := by
  unfold fitPointer
  simp

theorem fitPointers_past (alloc' : FsM (Option UInt32)) {n : Nat} {past : Fin n → Bool}
    (hpast : ∀ k, past k = true) (l : List (Fin n)) (p : Fin n → UInt32) :
    fitPointers alloc release past l p = fitPointers alloc' release past l p := by
  induction l generalizing p with
  | nil => rfl
  | cons k l ih =>
      unfold fitPointers
      rw [hpast k, fitPointer_past alloc']
      congr 1
      funext r
      cases r with
      | none => rfl
      | some x => exact ih _

theorem fitIndirect_past (alloc' : FsM (Option UInt32)) (l : List (Fin 128)) (buffer : Table) :
    fitIndirect alloc release 0 l buffer = fitIndirect alloc' release 0 l buffer := by
  induction l generalizing buffer with
  | nil => rfl
  | cons k l ih =>
      have hinner : ∀ p, fitPointers alloc release
          (fun j : Fin 128 => decide (0 ≤ k.val * 128 * 512 + j.val * 512)) (List.finRange 128) p =
            fitPointers alloc' release _ (List.finRange 128) p :=
        fitPointers_past alloc' (fun j => by simp) (List.finRange 128)
      have hpast : (decide (0 ≤ k.val * 128 * 512)) = true := by simp
      unfold fitIndirect
      rw [hpast, fitPointer_past alloc']
      simp only [hinner, ih]

/-- An attempt at size 0 allocates nothing. -/
theorem inodeExtendOnce_past (alloc' : FsM (Option UInt32)) (s : UInt32) (id : InodeDisk) :
    inodeExtendOnce alloc release s id 0 = inodeExtendOnce alloc' release s id 0 := by
  unfold inodeExtendOnce
  rw [fitPointers_past alloc' (fun k => by simp)]
  congr 1
  funext r
  obtain ⟨ok, pointers⟩ := r
  cases ok with
  | false => rfl
  | true =>
      by_cases hu : id.doublyIndirect = unallocated
      · simp [hu]
      · simp only [hu, false_and, if_false, fitDoublyIndirect, Nat.zero_sub, fitIndirect_past alloc']

end Empty

variable {v v' : Vol} {L : Set UInt32} {s t : UInt32} {i : Inode}

/-- A spec for an allocator that is not called: nothing that is free becomes used. -/
theorem releases_only {I : Vol → Prop} {K F : UInt32 → Prop}
    (spec : FreeMapSpec (freeMapAllocate 1) (freeMapRelease · 1) I K F fun _ _ => True) (s : UInt32) :
    FreeMapSpec (throw .fatal) (freeMapRelease · 1) (fun v => I v ∧ ¬ v.freeMap.Used s) K F
      (fun _ _ => True) where
  sub := spec.sub
  size v h := spec.size v h.1
  write v x b h hx := ⟨spec.write v x b h.1 hx, h.2⟩
  alloc v h := wpOn_throw trivial
  release v x h hu hx := by
    refine wpOn_weaken (spec.release v x h.1 hu hx) ?_
    rintro - v' ⟨hI, d, rfl, hd⟩
    exact ⟨⟨hI, fun hs => h.2 (Bitmap.used_set_false_iff.mp hs).1⟩, d, rfl, hd⟩

/-- What the last close of a removed inode leaves in the free map. -/
structure Freed (v : Vol) (s : UInt32) (v' : Vol) : Prop where
  all : v.pointers s .doubly = unallocated → ∀ x, v'.freeMap.Used x ↔ Others v s x ∧ x ≠ s
  doubly : v.pointers s .doubly ≠ unallocated → v'.freeMap.Used (v.pointers s .doubly)

/-- The blocks of a removed file that is closed are released, all of them and no others. -/
theorem FsInv.release_exact (h : FsInv v L) (hi : inodeIn v.openInodes s = some i)
    (h0 : s ≠ freeMapSector) (hr : i.removed = true) :
    vwp (releaseBlocks i) (fun _ v' => Freed v s v') (fun _ _ => True)
      { v with openInodes := dropInode v.openInodes s } := by
  obtain ⟨hs, -⟩ := h.opens s i hi
  have hsec := sector_of_inodeIn hi
  have hp : v.pointers s = pointerAt v.disk i.data := by rw [Vol.pointers, Vol.header_open hi]
  have hacc := h.owned.account hs
  have hKs : ¬ allSectors (v.pointers freeMapSector) s := by
    rintro ⟨a, -, he⟩
    exact h.owned.apart _ h.mapLive s hs a he
  unfold releaseBlocks
  rw [if_pos hr]
  refine wpOn_seq (h.releaseHeader hi h0) ?_
  rintro - v₁ h₁
  rw [hsec]
  have hss : s < v₁.size := by
    rw [h₁.size]
    exact (h.owned.header s hs).lt h.owned.bitCnt
  have hsound₁ : Sound (Others v s) v₁.freeMap (pointerAt v₁.disk i.data) := by
    rw [h₁.view]
    exact ⟨fun a hu => (h₁.used _).mpr ⟨hacc.sound.used a hu, h.owned.apart s hs s hs a⟩,
      hacc.sound.apart, hacc.sound.inj⟩
  have hcov₁ : Covered (Others v s) v₁.freeMap (pointerAt v₁.disk i.data) := by
    intro x hx
    rw [h₁.view]
    exact hacc.covered x ((h₁.used x).mp hx).1
  have honce : vwp (inodeExtendOnce (throw .fatal) (freeMapRelease · 1) s i.data 0) _ _ v₁ :=
    inodeExtendOnce_spec (R := Others v s) (W := fun _ => True) (H := fun x => Others v s x ∧ x ≠ s)
      (releases_only
        (freeMap_spec (v.header freeMapSector) (v.pointers freeMapSector) fun _ _ => True) s)
      (fun x hx => h.others_map hs h0 hx) (fun _ _ => trivial) (h.owned.others_self hs) hKs trivial hss
      ⟨h₁.mapOk, fun hu => ((h₁.used s).mp hu).2 rfl⟩ hsound₁
      (fun x hx => ⟨hx.1, (h₁.used x).mpr ⟨hx.1.1, hx.2⟩⟩) fun hc => absurd hc (lt_irrefl 0)
  have hsame : inodeExtendOnce (freeMapAllocate 1) (freeMapRelease · 1) s i.data 0 =
      inodeExtendOnce (throw .fatal) (freeMapRelease · 1) s i.data 0 := inodeExtendOnce_past _ s i.data
  rw [← hsame] at honce
  refine wpOn_seq (Q := fun r v₂ => Freed v s v₂) (wpOn_seq honce ?_) fun _ _ hq => wpOn_pure hq
  rintro ⟨ok, id'⟩ v₂ ⟨hok, hstop⟩
  cases ok with
  | false =>
      obtain ⟨a, ha, -⟩ := (hstop rfl).missing
      exact absurd ha (Nat.not_lt_zero _)
  | true =>
      obtain ⟨hx, ht⟩ : Extended _ _ _ _ s v₁ i.data 0 v₂ id' ∧ Trimmed _ _ _ _ _ _ := hok rfl
      rw [h₁.view] at ht hcov₁
      refine wpOn_pure ⟨fun hd x => ⟨fun hu => ?_, fun hr => (hx.ext.held x hr).2⟩, fun hd => ?_⟩
      · -- no pointer is left, so what is used belongs to others
        have hends : Ends (v.pointers s) 0 := by
          intro k _
          rw [hp] at hd ⊢
          exact if_pos hd
        refine ⟨(ht.covered hends hcov₁ x hu).resolve_right ?_, ?_⟩
        · rintro ⟨a, ha, -⟩
          by_cases hdoub : a = .doubly
          · subst hdoub
            exact ha (ht.none hd (Nat.zero_le _))
          · exact ha (ht.tail hends a hdoub (Nat.zero_le _))
        · rintro rfl
          exact hx.ext.inv.2 hu
      · have hk := ht.kept hd
        have := hx.ext.sound.used .doubly (by rw [hk]; exact hd)
        rwa [hk] at this

/-- `inode_close`: an inode that stays is as it was; one
that is freed leaves what `Freed` says. -/
theorem FsInv.close_exact (h : FsInv v L) (hi : inodeIn v.openInodes s = some i)
    (h0 : s = freeMapSector → 1 < i.openCnt) :
    vwp (inodeClose s) (fun _ v' =>
      (s ∈ closedLive v L s → v'.header s = v.header s ∧ v'.pointers s = v.pointers s ∧
        v'.freeMap = v.freeMap) ∧
      (s ∉ closedLive v L s → Freed v s v')) (fun _ _ => True) v := by
  obtain ⟨hs, hcnt⟩ := h.opens s i hi
  have hsec := sector_of_inodeIn hi
  have hss : s < v.size := (h.owned.header s hs).lt h.owned.bitCnt
  by_cases hstay : i.openCnt = 1 ∧ i.removed = false
  · obtain ⟨hone, hr⟩ := hstay
    have hlive : closedLive v L s = L := by simp [closedLive, hi, hr]
    rw [hlive]
    exact vwp_inodeClose_last hi hone hr hss
      ⟨fun _ => ⟨header_putBack hi, h.owned.pointers_putBack hs hi, rfl⟩, fun hn => absurd hs hn⟩
  refine wpOn_seq (vwp_findInode (Q := fun k v' => k = i ∧ v' = v) hi ⟨rfl, rfl⟩) ?_
  rintro k v' ⟨rfl, rfl⟩
  refine wpOn_ite (fun hone => ?_) (fun hone => ?_)
  · have hr : k.removed = true := by
      rw [← Bool.not_eq_false]
      exact fun hf => hstay ⟨hone, hf⟩
    have hne : s ≠ freeMapSector := fun he => by
      have := h0 he
      omega
    have hlive : closedLive v' L s = L \ {s} := by simp [closedLive, hi, hr, hone]
    rw [hlive]
    refine wpOn_seq (wpOn_modify (Q := fun _ v₁ =>
      v₁ = { v' with openInodes := dropInode v'.openInodes s }) ?_) ?_
    · rintro fs rfl
      rfl
    rintro - v₁ rfl
    refine wpOn_seq (wpOn_and (h.release_exact hi hne hr)
      (h.release (E := fun _ _ => True) hi hne hr)) ?_
    rintro id' v₂ ⟨hf, hk, -⟩
    exact vwp_cacheWrite (by rw [hk.size]; exact hss)
      ⟨fun hm => absurd rfl hm.2, fun _ => ⟨hf.all, hf.doubly⟩⟩
  · have hlive : closedLive v' L s = L := by simp [closedLive, hi, hone]
    rw [hlive]
    have hself := inodeIn_setInode_self hi (j := { k with openCnt := k.openCnt - 1 }) hsec
    have hh : Vol.header
        { v' with openInodes := setInode v'.openInodes { k with openCnt := k.openCnt - 1 } } s
          = v'.header s := by
      rw [Vol.header_open hself, Vol.header_open hi]
    refine vwp_putInode ⟨fun _ => ⟨hh, ?_, rfl⟩, fun hn => absurd hs hn⟩
    rw [Vol.pointers, hh]
    rfl

/-! ## Along runs -/

/-- A property of the pointers and the length of each inode but that of the free map. -/
def Each (P : (Slot → UInt32) → Nat → Prop) (v : Vol) (L : Set UInt32) : Prop :=
  ∀ s ∈ L, s ≠ freeMapSector → P (v.pointers s) (v.header s).len

/-- What the calls that change an inode have to give for it. -/
def FsOp.Gives (P : (Slot → UInt32) → Nat → Prop) (v : Vol) : FsOp → Prop
  | create length => ∀ v₁ s v', Created v₁ s length v' → P (v'.pointers s) length
  | write s buffer offset => s ≠ freeMapSector →
      vwp (inodeWriteAt s buffer offset) (fun _ v' => P (v'.pointers s) (v'.header s).len)
        (fun _ _ => True) v
  | openInode _ | reopen _ | remove _ | close _ => True

namespace Each

variable {P : (Slot → UInt32) → Nat → Prop}

theorem congr (h : Each P v L) (hp : ∀ t ∈ L, v'.pointers t = v.pointers t)
    (hl : ∀ t ∈ L, (v'.header t).len = (v.header t).len) : Each P v' L := by
  intro t ht h0
  rw [hp t ht, hl t ht]
  exact h t ht h0

theorem kept (h : Each P v L) (ho : Owned v L) (hk : Kept v L v') : Each P v' L :=
  h.congr (fun _ ht => hk.pointers ho ht) fun _ ht => by rw [hk.header ho ht]

theorem mono {L' : Set UInt32} (h : Each P v L) (hsub : L' ⊆ L) : Each P v L' :=
  fun t ht h0 => h t (hsub ht) h0

/-- An operation on one inode. -/
theorem insert (h : Each P v (L \ {s})) (hs : s ≠ freeMapSector →
    P (v.pointers s) (v.header s).len) : Each P v (insert s L) := by
  intro t ht h0
  by_cases hts : t = s
  · subst hts
    exact hs h0
  · exact h t ⟨ht.resolve_left hts, hts⟩ h0

/-- The other inodes after such an operation. -/
theorem others (h : Each P v L) (ho : Owned v L) (hk : Kept v (L \ {s}) v') : Each P v' (L \ {s}) :=
  (h.mono Set.sdiff_subset).kept (ho.mono Set.sdiff_subset) hk

theorem create {length : Nat} (h : FsInv v L) (ht : Each P v L) (hlen : length < 2 ^ 31)
    (hP : (FsOp.create length).Gives P v) :
    vwp (createInode length) (fun r v' => Each P v' ((FsOp.create length).liveAfter v L r))
      (fun _ _ => True) v := by
  refine wpOn_seq h.allocate ?_
  intro r v₁ hr
  cases r with
  | none =>
      obtain ⟨-, hk, -⟩ := hr
      exact wpOn_pure (ht.kept h.owned hk)
  | some s =>
      obtain ⟨hinv, hk, -, -, hs, hused, hfor⟩ := hr
      have ht₁ := ht.kept h.owned hk
      refine wpOn_seq (wpOn_and (hinv.create (fun _ _ => trivial) hs hused hfor hlen)
        (hinv.create_exact hs hused hfor hlen)) ?_
      rintro r v₂ ⟨⟨-, -, hk₂, -⟩, -, -, hc⟩
      have ht₂ := (ht₁.kept hinv.owned hk₂).mono (Set.sdiff_subset : L \ {s} ⊆ L)
      exact wpOn_pure (ht₂.insert fun _ => by rw [hc.len]; exact hP _ _ _ hc)

theorem write {buffer : List UInt8} {offset : Nat} (h : FsInv v L) (ht : Each P v L)
    (hi : inodeIn v.openInodes s = some i) (hbuf : buffer.length < 2 ^ 31) (hoff : offset < 2 ^ 31)
    (hP : (FsOp.write s buffer offset).Gives P v) :
    vwp (inodeWriteAt s buffer offset) (fun _ v' => Each P v' L) (fun _ _ => True) v := by
  obtain ⟨hs, -⟩ := h.opens s i hi
  have hspec := h.write (E := fun _ _ => True) hi (fun _ _ => trivial) hbuf hoff (.inr fun _ => trivial)
  have hins : Insert.insert s L = L := Set.insert_eq_of_mem hs
  by_cases h0 : s = freeMapSector
  · refine wpOn_weaken hspec ?_
    rintro r v' ⟨-, hk, -⟩
    rw [← hins]
    exact (ht.others h.owned hk).insert fun hne => absurd h0 hne
  · refine wpOn_weaken (wpOn_and hspec (hP h0)) ?_
    rintro r v' ⟨⟨-, hk, -⟩, hnew⟩
    rw [← hins]
    exact (ht.others h.owned hk).insert fun _ => hnew

theorem opened (ht : Each P v L) : Each P (v.opened s) L :=
  ht.congr (fun _ _ => pointers_opened) fun _ _ => by rw [header_opened]

theorem close (h : FsInv v L) (ht : Each P v L) (hi : inodeIn v.openInodes s = some i)
    (h0 : s = freeMapSector → 1 < i.openCnt) :
    vwp (inodeClose s) (fun _ v' => Each P v' (closedLive v L s)) (fun _ _ => True) v := by
  refine wpOn_weaken (wpOn_and (h.close (E := fun _ _ => True) hi h0) (h.close_exact hi h0)) ?_
  rintro - v' ⟨⟨hinv, hk⟩, hstay, -⟩
  intro t hlive hne
  have hmem : ∀ {x}, x ∈ closedLive v L s → x ∈ L := by
    intro x hx
    simp only [closedLive, hi] at hx
    split at hx
    · exact hx.1
    · exact hx
  by_cases hts : t = s
  · subst hts
    obtain ⟨hhead, hptr, -⟩ := hstay hlive
    rw [hhead, hptr]
    exact ht t (hmem hlive) hne
  · exact ht.others h.owned hk t ⟨hmem hlive, hts⟩ hne

end Each

/-- One call. -/
theorem FsOp.run_each {P : (Slot → UInt32) → Nat → Prop} (op : FsOp) (h : FsInv v L) (ht : Each P v L)
    (he : op.Enabled v L) (hP : op.Gives P v) :
    vwp op.run (fun r v' => Each P v' (op.liveAfter v L r)) (fun _ _ => True) v := by
  cases op with
  | create length => exact Each.create h ht he hP
  | openInode s =>
      refine wpOn_seq (vwp_inodeOpen (Q := fun _ v' => v' = v.opened s)
        ((h.owned.header s he).lt h.owned.bitCnt) rfl) ?_
      rintro - v' rfl
      exact wpOn_pure ht.opened
  | reopen s =>
      obtain ⟨i, hi⟩ := he
      refine wpOn_seq (vwp_inodeReopen (Q := fun _ v' => v' = v.opened s) hi rfl) ?_
      rintro - v' rfl
      exact wpOn_pure ht.opened
  | write s buffer offset =>
      obtain ⟨⟨i, hi⟩, hbuf, hoff⟩ := he
      exact wpOn_seq (Each.write h ht hi hbuf hoff hP) fun _ _ hq => wpOn_pure hq
  | remove s =>
      obtain ⟨i, hi⟩ := he
      have hsec := sector_of_inodeIn hi
      refine wpOn_seq (vwp_updateInode (Q := fun _ v' => v' =
        { v with openInodes := setInode v.openInodes { i with removed := true } }) hi rfl) ?_
      rintro - v' rfl
      have hhead : ∀ t, Vol.header
          { v with openInodes := setInode v.openInodes { i with removed := true } } t = v.header t := by
        intro t
        by_cases hts : t = s
        · rw [hts, Vol.header_open (inodeIn_setInode_self hi (j := { i with removed := true }) hsec),
            Vol.header_open hi]
        · unfold Vol.header
          rw [inodeIn_setInode_other (by rw [hsec]; exact Ne.symm hts)]
      refine wpOn_pure (ht.congr (fun t _ => ?_) fun t _ => by rw [hhead])
      rw [Vol.pointers, hhead]
      rfl
  | close s =>
      obtain ⟨i, hi, h0⟩ := he
      exact wpOn_seq (Each.close h ht hi h0) fun _ _ hq => wpOn_pure hq

/-! ## In shape along runs -/

/-- A write allocates no sector past the new length that it does not need. -/
theorem Tidy.write {buffer : List UInt8} {offset : Nat} (h : FsInv v L) (ht : Tidy v L)
    (hi : inodeIn v.openInodes s = some i) (hbuf : buffer.length < 2 ^ 31) (hoff : offset < 2 ^ 31)
    (h0 : s ≠ freeMapSector) :
    vwp (inodeWriteAt s buffer offset) (fun _ v' => Upto (v'.pointers s) (sectors (v'.header s).len))
      (fun _ _ => True) v := by
  obtain ⟨hs, -⟩ := h.opens s i hi
  have hh := Vol.header_open hi
  have hup := ht s hs h0
  rw [hh] at hup
  refine wpOn_weaken (wpOn_and (h.write (E := fun _ _ => True) hi (fun _ _ => trivial) hbuf hoff
    (.inr fun _ => trivial)) (h.write_exact hi h0 hbuf hoff hup)) ?_
  rintro r v' ⟨⟨hinv, -, -⟩, hsame, hgrow⟩
  by_cases hg : Grows i buffer.length offset
  · rcases hgrow hg with ⟨-, hlen, hgrown⟩ | ⟨-, hlen, hundone⟩
    · rw [hlen]
      exact hgrown.upto
    · have hp : v.pointers s = pointerAt v.disk i.data := by rw [Vol.pointers, hh]
      have hfull := hinv.owned.full s hs
      rw [hp] at hup
      rw [hlen] at hfull ⊢
      exact hundone.upto hup hfull
  · obtain ⟨-, hhead, hptr, -⟩ := hsame hg
    rw [hhead, hptr]
    exact hup

theorem FsOp.run_tidy (op : FsOp) (h : FsInv v L) (ht : Tidy v L) (he : op.Enabled v L) :
    vwp op.run (fun r v' => Tidy v' (op.liveAfter v L r)) (fun _ _ => True) v := by
  refine op.run_each (P := fun m len => Upto m (sectors len)) h ht he ?_
  cases op with
  | create length => exact fun _ _ _ hc => hc.upto
  | write s buffer offset =>
      obtain ⟨⟨i, hi⟩, hbuf, hoff⟩ := he
      exact fun h0 => Tidy.write h ht hi hbuf hoff h0
  | openInode s => trivial
  | reopen s => trivial
  | remove s => trivial
  | close s => trivial

/-- The root directory starts without blocks. -/
theorem Booted.tidy {v₁ : Vol} (h : Booted v₁ v) : Tidy v {rootDirSector, freeMapSector} := by
  rintro t (rfl | rfl) h0
  · have hh := Vol.header_open h.root
    have hlen : rootInode.len = 0 := by decide
    rw [hh, Vol.pointers, hh, hlen]
    refine .empty fun a => ?_
    cases a <;> rfl
  · exact absurd rfl h0

/-- Every inode but that of the free map is in shape, in every state a run can reach. -/
theorem Reach.tidy {dev : BlockDev} {fs : FsState} {live : Set UInt32} (h : Reach dev fs live) :
    Tidy fs.vol live := by
  induction h with
  | init hrun =>
      obtain ⟨v₁, hboot⟩ := wpOn_ok (filesysInit_spec dev) hrun
      exact hboot.tidy
  | step hreach he hrun ih =>
      have ht := wpOn_ok (FsOp.run_tidy _ hreach.inv ih he) hrun
      exact ht

end CS162.Fs
