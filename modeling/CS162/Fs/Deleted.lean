/-
# `CS162.Fs.Deleted` — what a deleted file gives back

A file is created, grows, and is removed and closed by its last opener.  Against the
sectors that were in use before it was created, it gives everything back if it never had a
doubly indirect block and no failed write lost a sector (`Clean`); otherwise it does not.

`inode_extend` does not drop the doubly indirect block when the new size is 0, so it is
left behind by every file longer than the direct blocks (`Clean.write_iff`, `Life.clean`).
-/
import CS162.Fs.Space

namespace CS162.Fs

open Bytes Wp

variable {dev : BlockDev} {fs fs₁ fs₂ : FsState} {v v' : Vol} {L live : Set UInt32} {s : UInt32}
  {i : Inode}
  {buffer : List UInt8} {offset : Nat} {R : UInt32 → Prop}

/-- All sectors of `R` are in use, and the inode names none of them. -/
def Apart (R : UInt32 → Prop) (v : Vol) (s : UInt32) : Prop := ∀ x, R x → Others v s x

/-- The inode has no doubly indirect block, and besides `R` only what it names is in use. -/
def Clean (R : UInt32 → Prop) (v : Vol) (s : UInt32) : Prop :=
  v.pointers s .doubly = unallocated ∧ ∀ x, Others v s x → R x

/-- The free map, the pointers and the length are as they were. -/
structure Still (v : Vol) (s : UInt32) (v' : Vol) : Prop where
  freeMap : v'.freeMap = v.freeMap
  pointers : v'.pointers s = v.pointers s
  len : (v'.header s).len = (v.header s).len

theorem Still.others (h : Still v s v') : Others v' s = Others v s := by
  unfold Others
  rw [h.freeMap, h.pointers]

theorem Still.apart (h : Still v s v') (ha : Apart R v s) : Apart R v' s := by
  unfold Apart
  rw [h.others]
  exact ha

theorem Still.clean_iff (h : Still v s v') : Clean R v' s ↔ Clean R v s := by
  unfold Clean
  rw [h.others, h.pointers]

/-- A clean inode is not longer than the direct blocks. -/
theorem Clean.small (hc : Clean R v s) (h : FsInv v L) (hs : s ∈ L) :
    (v.header s).len ≤ directPointerSize :=
  Nat.le_of_not_lt fun hlt => h.owned.full s hs .doubly hlt hc.1

/-! ## A write -/

/-- A write that grows the inode. -/
theorem Grown.others {id' : InodeDisk} {size : Nat} (hg : Grown (Others v s) v i.data size v' id')
    (hp' : v'.pointers s = pointerAt v'.disk id') : Others v' s = Others v s := by
  funext x
  refine propext ⟨?_, fun hx => ⟨hg.account.held x hx, ?_⟩⟩
  · rintro ⟨hu, hn⟩
    rw [hp'] at hn
    exact (hg.account.covered x hu).resolve_right hn
  · rw [hp']
    rintro ⟨a, ha, rfl⟩
    exact hg.account.sound.apart a ha hx

/-- What a write does to the sectors that others have, and when it leaves nothing behind. -/
theorem FsInv.write_clean (h : FsInv v L) (ht : Tidy v L) (hi : inodeIn v.openInodes s = some i)
    (h0 : s ≠ freeMapSector) (hbuf : buffer.length < 2 ^ 31) (hoff : offset < 2 ^ 31)
    (ha : Apart R v s) :
    vwp (inodeWriteAt s buffer offset) (fun _ v' => Apart R v' s ∧ (v.header s).len ≤ (v'.header s).len ∧
      (Clean R v' s ↔ Clean R v s ∧ (v'.header s).len ≤ directPointerSize ∧
        Recovers v i buffer.length offset)) (fun _ _ => True) v := by
  have hs := (h.opens s i hi).1
  have hh := Vol.header_open hi
  have hp : v.pointers s = pointerAt v.disk i.data := by rw [Vol.pointers, hh]
  have hup := ht s hs h0
  have hsmall : Clean R v s → i.data.len ≤ directPointerSize := fun hc => hh ▸ hc.small h hs
  rw [hh] at hup
  refine wpOn_weaken (wpOn_and (h.write (E := fun _ _ => True) hi (fun _ _ => trivial) hbuf hoff
    (.inr fun _ => trivial)) (h.write_exact hi h0 hbuf hoff hup)) ?_
  rintro r v' ⟨⟨hinv, -, -⟩, hsame, hgrow⟩
  have hfull' := hinv.owned.full s hs
  rw [hh]
  by_cases hg : Grows i buffer.length offset
  · rcases hgrow hg with ⟨-, hlen, hgrown⟩ | ⟨-, hlen, hundone⟩
    · -- all that it needs
      have hothers : Others v' s = Others v s := hgrown.others rfl
      refine ⟨fun x hx => by rw [hothers]; exact ha x hx, by rw [hlen]; exact Nat.le_of_lt hg.2.1, ?_⟩
      have hrec : Recovers v i buffer.length offset :=
        fun _ => .inl (hgrown.free ▸ Nat.le_add_left _ _)
      by_cases hle : (v'.header s).len ≤ directPointerSize
      · have hdoub : v'.pointers s .doubly = unallocated ↔ v.pointers s .doubly = unallocated := by
          rw [hp]
          refine ⟨fun hu => ?_, fun hu => hgrown.none hu (hlen ▸ hle)⟩
          by_contra hne
          exact hne ((hgrown.kept hne).symm.trans hu)
        unfold Clean
        rw [hothers, hdoub]
        exact ⟨fun hc => ⟨hc, hle, hrec⟩, fun hc => hc.1⟩
      · exact iff_of_false (fun hc => hfull' .doubly (Nat.lt_of_not_le hle) hc.1) fun hc => hle hc.2.1
    · -- back at its length
      have hheld : ∀ x, Others v s x → Others v' s x := hundone.held
      refine ⟨fun x hx => hheld x (ha x hx), by rw [hlen], ?_⟩
      have hrec : Recovers v i buffer.length offset ↔ Restorable i.data.len (freeCnt v.freeMap) :=
        ⟨fun hr => (hr hg).resolve_left (Nat.not_le.mpr hundone.short), fun hr _ => .inr hr⟩
      rw [hrec, hundone.restored, ← hp, hlen]
      constructor
      · intro hc
        -- nothing is left behind, so all is as it was
        have hdoub : v.pointers s .doubly = unallocated := by
          rw [hp]
          by_contra hne
          exact hne ((hundone.kept hne).symm.trans hc.1)
        have hptr : v'.pointers s = v.pointers s := by
          funext a
          by_cases had : a = .doubly
          · rw [had, hc.1, hdoub]
          · rw [hp]
            exact hundone.others a had
        have hclean : Clean R v s := ⟨hdoub, fun x hx => hc.2 x (hheld x hx)⟩
        refine ⟨hclean, hsmall hclean, fun x => ⟨fun hu => ?_, fun hu => ?_⟩, hptr⟩
        · by_cases hn : allSectors (v'.pointers s) x
          · rw [hptr] at hn
            obtain ⟨a, hau, rfl⟩ := hn
            exact h.owned.used s hs a hau
          · exact (ha x (hc.2 x ⟨hu, hn⟩)).1
        · by_cases hn : allSectors (v.pointers s) x
          · rw [← hptr] at hn
            obtain ⟨a, hau, rfl⟩ := hn
            exact hinv.owned.used s hs a hau
          · exact (hheld x ⟨hu, hn⟩).1
      · rintro ⟨hc, -, hused, hptr⟩
        have hptr' : v'.pointers s = v.pointers s := hptr
        refine ⟨by rw [hptr']; exact hc.1, fun x hx => hc.2 x ⟨(hused x).mp hx.1, ?_⟩⟩
        rw [← hptr']
        exact hx.2
  · obtain ⟨hmap, hhead, hptr, -⟩ := hsame hg
    have hstill : Still v s v' := ⟨hmap, hptr, by rw [hhead, hh]⟩
    have hrec : Recovers v i buffer.length offset := fun hg' => absurd hg' hg
    refine ⟨hstill.apart ha, by rw [hhead], ?_⟩
    rw [hstill.clean_iff, hhead]
    exact ⟨fun hc => ⟨hc, hsmall hc, hrec⟩, fun hc => hc.1⟩

/-! ## The life of a file -/

/-- The call is about the inode `s`. -/
def FsOp.On (s : UInt32) : FsOp → Prop
  | create _ => False
  | openInode t | reopen t | remove t | write t _ _ | close t => t = s

/-- If it is a write that fails, then nothing is lost. -/
def FsOp.LosesNothing (v : Vol) : FsOp → Prop
  | write s buffer offset => ∀ i, inodeIn v.openInodes s = some i → Recovers v i buffer.length offset
  | create _ | openInode _ | reopen _ | remove _ | close _ => True

/-- Calls on the inode `s` after which it is still there, with the states they were made in. -/
inductive Life (s : UInt32) (live : Set UInt32) (fs₁ : FsState) : List (FsState × FsOp) → FsState →
    Prop where
  | nil : Life s live fs₁ [] fs₁
  | snoc {tr : List (FsState × FsOp)} {fs fs' : FsState} {op : FsOp} {r : Option UInt32} :
      Life s live fs₁ tr fs → op.On s → op.Enabled fs.vol live → op.run fs = .ok r fs' →
      s ∈ op.liveAfter fs.vol live r → Life s live fs₁ (tr ++ [(fs, op)]) fs'

/-- What such a call does. -/
structure Lived (R : UInt32 → Prop) (s : UInt32) (v : Vol) (op : FsOp) (v' : Vol) : Prop where
  apart : Apart R v' s
  len : (v.header s).len ≤ (v'.header s).len
  clean : Clean R v' s ↔ Clean R v s ∧ (v'.header s).len ≤ directPointerSize ∧ op.LosesNothing v

theorem Still.lived {op : FsOp} (h : Still v s v') (ha : Apart R v s) (hinv : FsInv v L) (hs : s ∈ L)
    (hop : op.LosesNothing v) : Lived R s v op v' := by
  refine ⟨h.apart ha, Nat.le_of_eq h.len.symm, ?_⟩
  rw [h.clean_iff, h.len]
  exact ⟨fun hc => ⟨hc, hc.small hinv hs, hop⟩, fun hc => hc.1⟩

theorem Still.opened : Still v s (v.opened s) :=
  ⟨rfl, pointers_opened, by rw [header_opened]⟩

/-- One operation of a file's life. -/
theorem FsOp.run_lived (op : FsOp) (h : FsInv v L) (ht : Tidy v L) (hs : s ∈ L) (h0 : s ≠ freeMapSector)
    (hon : op.On s) (he : op.Enabled v L) (ha : Apart R v s) :
    vwp op.run (fun r v' => s ∈ op.liveAfter v L r → op.liveAfter v L r = L ∧ Lived R s v op v')
      (fun _ _ => True) v := by
  cases op with
  | create length => exact hon.elim
  | openInode t =>
      obtain rfl : t = s := hon
      refine wpOn_seq (vwp_inodeOpen (Q := fun _ v' => v' = v.opened t)
        ((h.owned.header t hs).lt h.owned.bitCnt) rfl) ?_
      rintro - v' rfl
      exact wpOn_pure fun _ => ⟨rfl, Still.opened.lived ha h hs trivial⟩
  | reopen t =>
      obtain rfl : t = s := hon
      obtain ⟨i, hi⟩ := he
      refine wpOn_seq (vwp_inodeReopen (Q := fun _ v' => v' = v.opened t) hi rfl) ?_
      rintro - v' rfl
      exact wpOn_pure fun _ => ⟨rfl, Still.opened.lived ha h hs trivial⟩
  | write t buffer offset =>
      obtain rfl : t = s := hon
      obtain ⟨⟨i, hi⟩, hbuf, hoff⟩ := he
      refine wpOn_seq (h.write_clean ht hi h0 hbuf hoff ha) ?_
      rintro r v' ⟨hapart, hlen, hclean⟩
      refine wpOn_pure fun _ => ⟨rfl, hapart, hlen, ?_⟩
      have hop : (FsOp.write t buffer offset).LosesNothing v ↔ Recovers v i buffer.length offset := by
        refine ⟨fun hr => hr i hi, fun hr j hj => ?_⟩
        cases hi.symm.trans hj
        exact hr
      rw [hop]
      exact hclean
  | remove t =>
      obtain rfl : t = s := hon
      obtain ⟨i, hi⟩ := he
      have hsec := sector_of_inodeIn hi
      refine wpOn_seq (vwp_updateInode (Q := fun _ v' => v' =
        { v with openInodes := setInode v.openInodes { i with removed := true } }) hi rfl) ?_
      rintro - v' rfl
      have hhead : Vol.header
          { v with openInodes := setInode v.openInodes { i with removed := true } } t = v.header t := by
        rw [Vol.header_open (inodeIn_setInode_self hi (j := { i with removed := true }) hsec),
          Vol.header_open hi]
      have hstill :
          Still v t { v with openInodes := setInode v.openInodes { i with removed := true } } := by
        refine ⟨rfl, ?_, by rw [hhead]⟩
        rw [Vol.pointers, hhead]
        rfl
      exact wpOn_pure fun _ => ⟨rfl, hstill.lived ha h hs trivial⟩
  | close t =>
      obtain rfl : t = s := hon
      obtain ⟨i, hi, h1⟩ := he
      refine wpOn_seq (h.close_exact hi h1) ?_
      rintro - v' ⟨hstay, -⟩
      refine wpOn_pure fun hlive => ?_
      obtain ⟨hhead, hptr, hmap⟩ := hstay hlive
      refine ⟨?_, Still.lived ⟨hmap, hptr, by rw [hhead]⟩ ha h hs trivial⟩
      have hlive' : t ∈ closedLive v L t := hlive
      show closedLive v L t = L
      simp only [closedLive, hi] at hlive' ⊢
      split
      · next hc =>
        rw [if_pos hc] at hlive'
        exact absurd rfl hlive'.2
      · rfl

/-- The state after a life, against what was in use at first. -/
structure Grew (dev : BlockDev) (R : UInt32 → Prop) (s : UInt32) (live : Set UInt32)
    (tr : List (FsState × FsOp)) (fs : FsState) : Prop where
  reach : Reach dev fs live
  apart : Apart R fs.vol s
  clean : Clean R fs.vol s ↔
    (fs.vol.header s).len ≤ directPointerSize ∧ ∀ p ∈ tr, p.2.LosesNothing p.1.vol

/-- A whole life, until the last `inode_close`. -/
theorem Life.grew {tr : List (FsState × FsOp)} (hs : s ∈ live) (h0 : s ≠ freeMapSector)
    (h : Life s live fs₁ tr fs) (hstart : Grew dev R s live [] fs₁) : Grew dev R s live tr fs := by
  induction h with
  | nil => exact hstart
  | @snoc tr fs fs' op r _ hon he hrun hlive ih =>
      have hinv := ih.reach.inv
      rcases wpOn_run (op.run_lived hinv ih.reach.tidy hs h0 hon he ih.apart) with
        ⟨r', fs'', hr, hq⟩ | ⟨e, fs'', hr, -⟩
      · rw [hrun] at hr
        cases hr
        obtain ⟨hsame, hl⟩ := hq hlive
        have hreach := ih.reach.step he hrun
        rw [hsame] at hreach
        refine ⟨hreach, hl.apart, ?_⟩
        rw [hl.clean, ih.clean]
        constructor
        · rintro ⟨⟨-, hall⟩, hle, hop⟩
          refine ⟨hle, fun p hp => ?_⟩
          rcases List.mem_append.mp hp with hp | hp
          · exact hall p hp
          · rw [List.mem_singleton.mp hp]
            exact hop
        · rintro ⟨hle, hall⟩
          exact ⟨⟨hl.len.trans hle, fun p hp => hall p (List.mem_append_left _ hp)⟩, hle,
            hall (fs, op) (List.mem_append_right _ (List.mem_singleton_self _))⟩
      · rw [hrun] at hr
        cases hr

/-! ## Creation, and the last close -/

/-- A new inode names only new sectors. -/
theorem FsInv.createInode_others {length : Nat} (h : FsInv v L) (hlen : length < 2 ^ 31) :
    vwp (createInode length) (fun r v' => ∀ s, r = some s → s ∉ L ∧ ¬ v.freeMap.Used s ∧
      (∀ x, Others v' s x ↔ v.freeMap.Used x ∨ x = s) ∧ (v'.header s).len = length ∧
      (v'.pointers s .doubly = unallocated ↔ length ≤ directPointerSize)) (fun _ _ => True) v := by
  have hok := h.owned.mapOk h.mapLive h.map
  refine wpOn_seq (wpOn_and h.allocate
    ((freeMap_spec (v.header freeMapSector) (v.pointers freeMapSector) fun _ _ => True).alloc v hok)) ?_
  rintro r v₁ ⟨⟨hinv, -, -, -, hr⟩, halloc⟩
  cases r with
  | none => exact wpOn_pure fun s hs => by cases hs
  | some s =>
      obtain ⟨hs, hused, hfor⟩ := hr
      obtain ⟨-, hlt, hfree, d, rfl, -⟩ := halloc
      refine wpOn_seq (wpOn_mono (hinv.create_exact hs hused hfor hlen) (fun _ _ hq => hq)
        fun _ _ _ => trivial) ?_
      rintro - v₂ ⟨-, -, hc⟩
      refine wpOn_pure ?_
      rintro s ⟨⟩
      refine ⟨hs, fun hu => ?_, fun x => ?_, hc.len, fun hd => ?_, hc.doubly⟩
      · rw [hu.2] at hfree
        cases hfree
      · rw [← Bitmap.used_set_true_iff hlt]
        refine ⟨fun hx => (hc.account.covered x hx.1).resolve_right hx.2, fun hx => ?_⟩
        refine ⟨hc.account.held x hx, ?_⟩
        rintro ⟨a, ha, rfl⟩
        exact hc.account.sound.apart a ha hx
      · exact Nat.le_of_not_lt fun hgt => hc.full .doubly hgt hd

/-- What the last close gives back. -/
theorem Freed.restored_iff {used : UInt32 → Prop} (hf : Freed v s v') (hnew : ¬ used s)
    (ha : Apart (fun x => used x ∨ x = s) v s) :
    (∀ x, v'.freeMap.Used x ↔ used x) ↔ Clean (fun x => used x ∨ x = s) v s := by
  constructor
  · intro hsame
    have hd : v.pointers s .doubly = unallocated := by
      by_contra hd
      have hu := (hsame _).mp (hf.doubly hd)
      exact (ha _ (.inl hu)).2 ⟨.doubly, hd, rfl⟩
    refine ⟨hd, fun x hx => ?_⟩
    by_cases hxs : x = s
    · exact .inr hxs
    · exact .inl ((hsame x).mp ((hf.all hd x).mpr ⟨hx, hxs⟩))
  · rintro ⟨hd, hothers⟩ x
    rw [hf.all hd x]
    constructor
    · rintro ⟨hx, hxs⟩
      exact (hothers x hx).resolve_right hxs
    · intro hu
      refine ⟨ha x (.inl hu), ?_⟩
      rintro rfl
      exact hnew hu

/-- The life of a file begins with its creation, and nothing of it was in use before. -/
theorem Grew.created {length : Nat} (hreach : Reach dev fs live) (hlen : length < 2 ^ 31)
    (hcreate : createInode length fs = .ok (some s) fs₁) :
    s ≠ freeMapSector ∧ ¬ fs.vol.freeMap.Used s ∧
      Grew dev (fun x => fs.vol.freeMap.Used x ∨ x = s) s (insert s live) [] fs₁ := by
  have hinv := hreach.inv
  obtain ⟨hs, hnew, hothers, hlen₁, hdoub⟩ : s ∉ live ∧ ¬ fs.vol.freeMap.Used s ∧
      (∀ x, Others fs₁.vol s x ↔ fs.vol.freeMap.Used x ∨ x = s) ∧ (fs₁.vol.header s).len = length ∧
      (fs₁.vol.pointers s .doubly = unallocated ↔ length ≤ directPointerSize) := by
    have hq := wpOn_ok (hinv.createInode_others hlen) hcreate
    exact hq s rfl
  have henabled : (FsOp.create length).Enabled fs.vol live := hlen
  refine ⟨fun he => hs (he ▸ hinv.mapLive), hnew, .step hreach henabled hcreate,
    fun x hx => (hothers x).mpr hx, ?_⟩
  rw [hlen₁, ← hdoub]
  exact ⟨fun hc => ⟨hc.1, fun p hp => absurd hp List.not_mem_nil⟩,
    fun hc => ⟨hc.1, fun x hx => (hothers x).mp hx⟩⟩

/-- The last `inode_close` of a removed file gives back what it has taken. -/
theorem Grew.close {used : UInt32 → Prop} {tr : List (FsState × FsOp)} (h0 : s ≠ freeMapSector)
    (hnew : ¬ used s) (h : Grew dev (fun x => used x ∨ x = s) s live tr fs)
    (hi : inodeIn fs.openInodes s = some i) (hlast : i.openCnt = 1) (hremoved : i.removed = true) :
    ∃ fs', inodeClose s fs = .ok () fs' ∧ ((∀ x, fs'.freeMap.Used x ↔ used x) ↔
      i.data.len ≤ directPointerSize ∧ ∀ p ∈ tr, p.2.LosesNothing p.1.vol) := by
  have hinv := h.reach.inv
  have hh : fs.vol.header s = i.data := Vol.header_open hi
  have hfreed : s ∉ closedLive fs.vol live s := by
    have hi' : inodeIn fs.vol.openInodes s = some i := hi
    simp [closedLive, hi', hlast, hremoved]
  have hclose := wpOn_and (hinv.close (E := fun _ _ => False) hi fun he => absurd he h0)
    (hinv.close_exact hi fun he => absurd he h0)
  rcases wpOn_run hclose with ⟨r, fs', hr, -, -, hfree⟩ | ⟨e, fs', -, hf⟩
  · refine ⟨fs', hr, ?_⟩
    rw [← hh, ← h.clean]
    exact (hfree hfreed).restored_iff hnew h.apart
  · exact hf.elim

/-- A file is created, opened, written and removed, in any order and as often as one likes;
then its last opener closes it.  The free sectors are those from before it was created
exactly if it was never longer than the direct blocks and no failed write lost a sector. -/
theorem delete_returns_sectors {length : Nat} {tr : List (FsState × FsOp)} (hreach : Reach dev fs live)
    (hlen : length < 2 ^ 31) (hcreate : createInode length fs = .ok (some s) fs₁)
    (hlife : Life s (insert s live) fs₁ tr fs₂) (hi : inodeIn fs₂.openInodes s = some i)
    (hlast : i.openCnt = 1) (hremoved : i.removed = true) :
    (∃ fs₃, inodeClose s fs₂ = .ok () fs₃ ∧ ∀ x, fs₃.freeMap.Used x ↔ fs.freeMap.Used x) ↔
      i.data.len ≤ directPointerSize ∧ ∀ p ∈ tr, p.2.LosesNothing p.1.vol := by
  obtain ⟨h0, hnew, hstart⟩ := Grew.created hreach hlen hcreate
  obtain ⟨fs₃, hr, hiff⟩ := (hlife.grew (Set.mem_insert s live) h0 hstart).close h0 hnew hi hlast hremoved
  rw [← hiff]
  constructor
  · rintro ⟨fs', hr', hsame⟩
    rw [hr] at hr'
    cases hr'
    exact hsame
  · exact fun hsame => ⟨fs₃, hr, hsame⟩

/-! ### One byte -/

/-- An empty file is opened, gets one byte, and is removed. -/
structure OneByte (live : Set UInt32) (s : UInt32) (offset : Nat)
    (fs₁ fs₂ fs₃ fs₄ : FsState) (i : Inode) :
    Prop where
  life : Life s (insert s live) fs₁
    [(fs₁, .openInode s), (fs₂, .write s [7] offset), (fs₃, .remove s)] fs₄
  inode : inodeIn fs₄.openInodes s = some i
  last : i.openCnt = 1
  removed : i.removed = true
  len : i.data.len = offset + 1
  loses : (FsOp.write s [7] offset).LosesNothing fs₂.vol

theorem NewFile.oneByte (hnew : NewFile fs live s fs₁ fs₂) (offset : Nat) (hreach : Reach dev fs live)
    (hmax : offset + 1 ≤ maxFileLen) (hfree : sectors (offset + 1) + 2 ≤ freeCnt fs.freeMap) :
    ∃ fs₃ fs₄ i, OneByte live s offset fs₁ fs₂ fs₃ fs₄ i := by
  have hreach₂ := hnew.reach hreach
  have hinv := hreach₂.inv
  have h0 : s ≠ freeMapSector := fun he => hnew.fresh (he ▸ hreach.inv.mapLive)
  have hs := Set.mem_insert s live
  have hlen : ((newInode 0).setLen 0).len = 0 := by decide
  have hup := hreach₂.tidy s hs h0
  rw [Vol.header_open (i := ⟨s, 1, false, 0, (newInode 0).setLen 0⟩) hnew.inode] at hup
  have hoff : offset + 1 < 2 ^ 31 := Nat.lt_of_le_of_lt hmax (by decide)
  have hg : Grows ⟨s, 1, false, 0, (newInode 0).setLen 0⟩ [(7 : UInt8)].length offset :=
    ⟨rfl, hlen ▸ Nat.succ_pos offset, hoff⟩
  have henough : need (pointerAt fs₂.vol.disk ((newInode 0).setLen 0)) ((newInode 0).setLen 0).len
      (offset + 1) ≤ freeCnt fs₂.freeMap := by
    have hnone : sectors 0 = 0 := by decide
    have hnew' := hnew.free
    unfold need early
    rw [hlen, hnone]
    split <;> split <;> omega
  have hbuf : [(7 : UInt8)].length < 2 ^ 31 := by decide
  have hwrite : vwp (inodeWriteAt s [7] offset) _ _ fs₂.vol :=
    wpOn_and (hinv.write_exact hnew.inode h0 hbuf (by omega) hup)
      (hinv.write (E := fun _ _ => True) hnew.inode (fun _ _ => trivial) hbuf (by omega)
        (.inr fun _ => trivial))
  rcases wpOn_run hwrite with ⟨r, fs₃, hr, ⟨-, hgrow⟩, -, -, id', hd, -⟩ | ⟨e, fs₃, hr, -, -, hpast, -⟩
  · have hlen₃ : id'.len = offset + 1 := by
      rcases hgrow hg with ⟨-, hlen₃, -⟩ | ⟨-, -, hundone⟩
      · rw [Vol.header_open hd.self] at hlen₃
        exact hlen₃
      · exact absurd henough (Nat.not_le.mpr hundone.short)
    have hself : inodeIn fs₃.vol.openInodes s = some ⟨s, 1, false, 0, id'⟩ := hd.self
    have hremove : vwp (FsOp.remove s).run (fun r v' => r = none ∧
        inodeIn v'.openInodes s = some ⟨s, 1, true, 0, id'⟩) (fun _ _ => False) fs₃.vol := by
      refine wpOn_seq (vwp_updateInode (Q := fun _ v' =>
        inodeIn v'.openInodes s = some ⟨s, 1, true, 0, id'⟩) hself ?_) fun _ _ hq => wpOn_pure ⟨rfl, hq⟩
      exact inodeIn_setInode_self hself rfl
    rcases wpOn_run hremove with ⟨r', fs₄, hr', rfl, hi₄⟩ | ⟨e, fs₄, -, hf⟩
    · refine ⟨fs₃, fs₄, _, ?_, hi₄, rfl, rfl, hlen₃, fun i hi => ?_⟩
      · have h₁ : Life s (insert s live) fs₁ [] fs₁ := .nil
        have h₂ : Life s (insert s live) fs₁ [(fs₁, .openInode s)] fs₂ :=
          h₁.snoc rfl hs hnew.openIt hs
        have h₃ : Life s (insert s live) fs₁ [(fs₁, .openInode s), (fs₂, .write s [7] offset)] fs₃ :=
          h₂.snoc rfl ⟨⟨_, hnew.inode⟩, by decide, by omega⟩ (FsOp.run_write hr) hs
        exact h₃.snoc rfl ⟨_, hself⟩ hr' hs
      · cases hnew.inode.symm.trans hi
        exact fun _ => .inl henough
    · exact hf.elim
  · exact absurd (hpast hg).2 (Nat.not_lt.mpr hmax)

/-- Past the direct blocks. -/
theorem OneByte.keeps {fs₃ fs₄ : FsState} (hone : OneByte live s offset fs₁ fs₂ fs₃ fs₄ i)
    (hreach : Reach dev fs live) (hnew : NewFile fs live s fs₁ fs₂)
    (hbig : directPointerSize < offset + 1) :
    ∃ fs₅, inodeClose s fs₄ = .ok () fs₅ ∧ ¬ ∀ x, fs₅.freeMap.Used x ↔ fs.freeMap.Used x := by
  obtain ⟨h0, hfresh, hstart⟩ := Grew.created hreach (Nat.two_pow_pos 31) hnew.create
  obtain ⟨fs₅, hr, hiff⟩ := (hone.life.grew (Set.mem_insert s _) h0 hstart).close h0 hfresh hone.inode
    hone.last hone.removed
  refine ⟨fs₅, hr, fun hsame => ?_⟩
  have hle := (hiff.mp hsame).1
  rw [hone.len] at hle
  exact Nat.not_lt.mpr hle hbig

/-- In the first block nothing is left behind. -/
theorem delete_returns_sectors_small : ∃ s fs₁ fs₂ fs₃ fs₄ i,
    NewFile mediumFs {rootDirSector, freeMapSector} s fs₁ fs₂ ∧
    OneByte {rootDirSector, freeMapSector} s 0 fs₁ fs₂ fs₃ fs₄ i ∧
    ∃ fs₅, inodeClose s fs₄ = .ok () fs₅ ∧ ∀ x, fs₅.freeMap.Used x ↔ mediumFs.freeMap.Used x := by
  have hreach : Reach mediumDisk mediumFs {rootDirSector, freeMapSector} := .init mediumFs_run
  have hfree := mediumFs_free
  obtain ⟨s, fs₁, fs₂, hnew⟩ := newFile hreach.inv (Nat.lt_of_lt_of_le (by decide) hfree)
  obtain ⟨fs₃, fs₄, i, hone⟩ := hnew.oneByte 0 hreach (by decide)
    (Nat.le_trans (by decide) hfree)
  refine ⟨s, fs₁, fs₂, fs₃, fs₄, i, hnew, hone, (delete_returns_sectors hreach (Nat.two_pow_pos 31)
    hnew.create hone.life hone.inode hone.last hone.removed).mpr ⟨by rw [hone.len]; decide, ?_⟩⟩
  intro p hp
  simp only [List.mem_cons, List.not_mem_nil, or_false] at hp
  rcases hp with rfl | rfl | rfl
  · trivial
  · exact hone.loses
  · trivial

/-- In the first block past the direct ones, the doubly indirect block is. -/
theorem delete_keeps_sector : ∃ s fs₁ fs₂ fs₃ fs₄ i,
    NewFile mediumFs {rootDirSector, freeMapSector} s fs₁ fs₂ ∧
    OneByte {rootDirSector, freeMapSector} s directPointerSize fs₁ fs₂ fs₃ fs₄ i ∧
    ∃ fs₅, inodeClose s fs₄ = .ok () fs₅ ∧ ¬ ∀ x, fs₅.freeMap.Used x ↔ mediumFs.freeMap.Used x := by
  have hreach : Reach mediumDisk mediumFs {rootDirSector, freeMapSector} := .init mediumFs_run
  have hfree := mediumFs_free
  obtain ⟨s, fs₁, fs₂, hnew⟩ := newFile hreach.inv (Nat.lt_of_lt_of_le (by decide) hfree)
  have hsectors : sectors (directPointerSize + 1) = 126 := by decide
  obtain ⟨fs₃, fs₄, i, hone⟩ := hnew.oneByte directPointerSize hreach (by decide)
    (by rw [hsectors]; omega)
  obtain ⟨fs₅, hr, hne⟩ := hone.keeps hreach hnew (Nat.lt_succ_self directPointerSize)
  exact ⟨s, fs₁, fs₂, fs₃, fs₄, i, hnew, hone, fs₅, hr, hne⟩

end CS162.Fs
