/-
# `CS162.Fs.Growth` — growing files, to the sector

The specifications of `CS162.Fs.Owners` say that an operation keeps what it must keep.
Here it is said exactly what it takes.  `Others v s` are the sectors in use that are not
the inode's, lost ones among them; against these the inode's own are counted.

`Grown` and `Undone` are the two ways `inode_extend` ends when it is asked to grow an inode
in shape: it takes `need` sectors, or there are fewer, and then it goes back to the length
it had.  `Tidy` says that all inodes but that of the free map are in shape, in every state
that a run can reach.
-/
import CS162.Fs.Ledger
import CS162.Fs.Runs

namespace CS162.Fs

open Bytes Wp

/-- The sectors in use that are not those of the inode. -/
def Others (v : Vol) (s x : UInt32) : Prop := v.freeMap.Used x ∧ ¬ allSectors (v.pointers s) x

/-- The inode was extended. -/
structure Grown (R : UInt32 → Prop) (v : Vol) (id : InodeDisk) (size : Nat) (v' : Vol)
    (id' : InodeDisk) : Prop where
  account : Account R v'.freeMap (pointerAt v'.disk id')
  upto : Upto (pointerAt v'.disk id') (sectors size)
  kept : pointerAt v.disk id .doubly ≠ unallocated →
    pointerAt v'.disk id' .doubly = pointerAt v.disk id .doubly
  none : pointerAt v.disk id .doubly = unallocated → size ≤ directPointerSize →
    pointerAt v'.disk id' .doubly = unallocated
  free : freeCnt v.freeMap = freeCnt v'.freeMap + need (pointerAt v.disk id) id.len size
  flag : v'.allocFailed = v.allocFailed

/-- There were too few sectors, and it is back at its length. -/
structure Undone (R : UInt32 → Prop) (v : Vol) (id : InodeDisk) (size : Nat) (v' : Vol)
    (id' : InodeDisk) : Prop where
  short : freeCnt v.freeMap < need (pointerAt v.disk id) id.len size
  held : ∀ x, R x → v'.freeMap.Used x ∧ ¬ allSectors (pointerAt v'.disk id') x
  others : ∀ a, a ≠ .doubly → pointerAt v'.disk id' a = pointerAt v.disk id a
  kept : pointerAt v.disk id .doubly ≠ unallocated →
    pointerAt v'.disk id' .doubly = pointerAt v.disk id .doubly
  restored : Restorable id.len (freeCnt v.freeMap) ↔
    (∀ x, v'.freeMap.Used x ↔ v.freeMap.Used x) ∧ pointerAt v'.disk id' = pointerAt v.disk id

theorem Undone.upto {R : UInt32 → Prop} {v v' : Vol} {id id' : InodeDisk} {size : Nat}
    (h : Undone R v id size v' id')
    (hup : Upto (pointerAt v.disk id) (sectors id.len))
    (hfull : Full (pointerAt v'.disk id') id.len) : Upto (pointerAt v'.disk id') (sectors id.len) := by
  refine ⟨fun a ha => hfull a ((a.base_lt _).mpr ha), fun a hd ha => ?_⟩
  rw [h.others a hd]
  exact hup.none a hd ha

/-- What is used stays so. -/
theorem Undone.held_used {R : UInt32 → Prop} {v v' : Vol} {id id' : InodeDisk} {size : Nat}
    (h : Undone R v id size v' id')
    (hcov : ∀ x, v.freeMap.Used x → R x ∨ ∃ a, pointerAt v.disk id a ≠ unallocated ∧
    pointerAt v.disk id a = x)
    (hused : ∀ a, pointerAt v'.disk id' a ≠ unallocated → v'.freeMap.Used (pointerAt v'.disk id' a))
    {x : UInt32} (hx : v.freeMap.Used x) : v'.freeMap.Used x := by
  rcases hcov x hx with hR | ⟨a, hu, rfl⟩
  · exact (h.held x hR).1
  · have he : pointerAt v'.disk id' a = pointerAt v.disk id a := by
      by_cases ha : a = .doubly
      · rw [ha] at hu ⊢
        exact h.kept hu
      · exact h.others a ha
    rw [← he]
    exact hused a (he ▸ hu)

/-- The free map tells whether all is restored. -/
theorem Undone.restored_used {R : UInt32 → Prop} {v v' : Vol} {id id' : InodeDisk} {size : Nat}
    (h : Undone R v id size v' id')
    (hcov : ∀ x, v.freeMap.Used x → R x ∨ ∃ a, pointerAt v.disk id a ≠ unallocated ∧
    pointerAt v.disk id a = x)
    (hsound : Sound R v'.freeMap (pointerAt v'.disk id')) :
    Restorable id.len (freeCnt v.freeMap) ↔ ∀ x, v'.freeMap.Used x ↔ v.freeMap.Used x := by
  refine h.restored.trans ⟨And.left, fun hsame => ⟨hsame, funext fun a => ?_⟩⟩
  by_cases ha : a = .doubly
  · rw [ha]
    by_cases hd : pointerAt v.disk id .doubly = unallocated
    · -- a new table block was free before, and not one of the inode's
      rw [hd]
      by_contra hu
      rcases hcov _ ((hsame _).mp (hsound.used _ hu)) with hR | ⟨b, hbu, hb⟩
      · exact (h.held _ hR).2 ⟨.doubly, hu, rfl⟩
      · have hbd : b ≠ .doubly := fun he => hbu (he ▸ hd)
        rw [← h.others b hbd] at hb hbu
        exact hbd (hsound.inj _ _ hbu hb)
    · exact h.kept hd
  · exact h.others a ha

section Extend

variable {alloc : FsM (Option UInt32)} {release : UInt32 → FsM Unit} {I : Vol → Prop}
  {K F R W : UInt32 → Prop} {E : Panic → Vol → Prop} {v : Vol} {s : UInt32} {id : InodeDisk} {size : Nat}

/-- What is restored, from what is lost. -/
theorem Halted.restored_iff {v₁ v₂ : Vol} {m₀ m₂ n : Slot → UInt32} {a : Slot}
    (hh : Halted R v m₀ m₀ v₁ n a) (hacc : Account R v.freeMap m₀)
    (hothers : ∀ b, b ≠ .doubly → m₂ b = m₀ b)
    (hdoub : m₂ .doubly = n .doubly)
    (hused : ∀ x, v₂.freeMap.Used x ↔ R x ∨ Lost m₀ n a x ∨ ∃ b, m₂ b ≠ unallocated ∧ m₂ b = x) :
    Lossless m₀ n a ↔ (∀ x, v₂.freeMap.Used x ↔ v.freeMap.Used x) ∧ m₂ = m₀ := by
  constructor
  · rintro ⟨hnone, hd⟩
    have hm : m₂ = m₀ := by
      funext b
      by_cases hb : b = .doubly
      · rw [hb, hdoub, hd]
      · exact hothers b hb
    refine ⟨fun x => ?_, hm⟩
    rw [hused, hacc.used, hm]
    refine or_congr_right (or_iff_right ?_)
    rintro ⟨b, hu, hs, -⟩
    exact hnone b hu hs
  · rintro ⟨hsame, hm⟩
    refine ⟨fun b hu hs => ?_, by rw [← hdoub, hm]⟩
    -- a lost sector was free before
    have hv : v.freeMap.Used (n b) := (hsame _).mp ((hused _).mpr (.inr (.inl ⟨b, hu, hs, rfl⟩)))
    rcases hacc.covered _ hv with hr | ⟨c, hcu, hce⟩
    · exact hh.sound.apart b hu hr
    · have hnc := hh.below c hcu
      obtain rfl := hh.sound.inj c b (by rw [hnc]; exact hcu) (hnc.trans hce)
      rw [salvaged_below hh.below a c hcu] at hs
      exact hcu hs

variable (spec : FreeMapSpec alloc release I K F E) (hKR : ∀ x, K x → R x) (hFW : ∀ x, F x → W x)
  (hRs : R s) (hKs : ¬ K s) (hWs : W s)

include spec hKR hFW hRs hKs hWs

/-- `inode_extend` to a greater size. -/
theorem inodeExtend_exact (depth : Nat) (hI : I v) (hacc : Account R v.freeMap (pointerAt v.disk id))
    (hup : Upto (pointerAt v.disk id) (sectors id.len)) (hle : id.len ≤ size) :
    vwp (inodeExtend alloc release (depth + 2) s id size) (fun r v' =>
      (r.1 = true → Grown R v id size v' r.2) ∧ (r.1 = false → Undone R v id size v' r.2)) E v := by
  have hcnt := spec.size v hI
  have hss : s < v.size := by
    have := (hacc.held s hRs).1
    rw [hcnt] at this
    exact this
  have hb : v.freeMap.bitCnt ≤ 2 ^ 32 := by
    rw [hcnt]
    exact Nat.le_of_lt v.size.toNat_lt
  refine wpOn_seq (inodeExtendOnce_spec (H := R) spec hKR hFW hRs hKs hWs hss hI hacc.sound
    (fun x hx => ⟨hx, hacc.held x hx⟩) fun _ _ hx => hx) ?_
  rintro ⟨ok, id₁⟩ v₁ ⟨hok, hstop⟩
  cases ok with
  | true =>
      obtain ⟨hx, ht⟩ : Extended I R W R s v id size v₁ id₁ ∧ _ := hok rfl
      refine wpOn_pure ⟨fun _ => ?_, fun hf => by cases hf⟩
      have hends := hup.ends hle
      have hup₁ := ht.upto hends hx.full
      have hacc₁ : Account R v₁.freeMap (pointerAt v₁.disk id₁) :=
        ⟨hx.ext.sound, ht.covered hends hacc.covered, fun x hx' => (hx.ext.held x hx').2⟩
      have hcnt₁ : v₁.freeMap.bitCnt = v.freeMap.bitCnt := by
        rw [spec.size _ hx.ext.inv, hx.ext.size, hcnt]
      refine ⟨hacc₁, hup₁, ht.kept, ht.none, hup.taken hup₁ hle (fun hsmall => ?_) hacc hacc₁ hcnt₁ hb,
        ht.flag⟩
      by_cases hu : pointerAt v.disk id .doubly = unallocated
      · rw [ht.none hu hsmall, hu]
      · exact ht.kept hu
  | false =>
      have hst : Stopped I R W R v id size v₁ id₁ := hstop rfl
      have hcnt₁ : v₁.freeMap.bitCnt = v.freeMap.bitCnt := by
        rw [spec.size _ hst.ext.inv, hst.ext.size, hcnt]
      refine wpOn_seq (hst.back_exact spec hKR hFW hRs hKs hWs depth hss hup hacc.covered) ?_
      rintro ⟨ok, id₂⟩ v₂ ⟨a, n, ha, hh, hothers, hdoub, hapart, hused⟩
      refine wpOn_pure ⟨fun hf => (by cases hf), fun _ => ?_⟩
      have hfree := hh.free hup hacc (fun x hx => (hst.ext.held x hx).2) hcnt₁ hb
      refine ⟨hh.short rfl ha hfree, fun x hx => ⟨(hused x).mpr (.inl hx), hapart x hx⟩, hothers,
        fun hu => hdoub.trans (hh.below _ hu), ?_⟩
      rw [← hh.lossless_iff hup hfree]
      exact hh.restored_iff hacc hothers hdoub hused

end Extend

/-! ## Writing -/

variable {v v' : Vol} {L : Set UInt32} {s t : UInt32} {i : Inode} {buffer : List UInt8} {offset : Nat}

/-- The inodes other than that of the free map are in shape. -/
def Tidy (v : Vol) (L : Set UInt32) : Prop :=
  ∀ s ∈ L, s ≠ freeMapSector → Upto (v.pointers s) (sectors (v.header s).len)

theorem Owned.account (h : Owned v L) (hs : s ∈ L) : Account (Others v s) v.freeMap (v.pointers s) := by
  refine ⟨⟨h.used s hs, fun a hu hr => hr.2 ⟨a, hu, rfl⟩, (h.distinct hs).inj⟩, fun x hx => ?_,
    fun x hx => hx.1⟩
  by_cases hn : allSectors (v.pointers s) x
  · exact .inr hn
  · exact .inl ⟨hx, hn⟩

theorem Owned.others_self (h : Owned v L) (hs : s ∈ L) : Others v s s := by
  refine ⟨h.header s hs, ?_⟩
  rintro ⟨a, -, he⟩
  exact h.apart s hs s hs a he

/-- The sectors of the free map's file are others'. -/
theorem FsInv.others_map (h : FsInv v L) (hs : s ∈ L) (h0 : s ≠ freeMapSector) {x : UInt32}
    (hx : allSectors (v.pointers freeMapSector) x) : Others v s x := by
  obtain ⟨a, hu, rfl⟩ := hx
  refine ⟨h.owned.used _ h.mapLive a hu, ?_⟩
  rintro ⟨b, hbu, he⟩
  exact h0 (h.owned.inj s hs freeMapSector h.mapLive b a hbu he).1

/-- The write asks for more bytes than the inode has. -/
def Grows (i : Inode) (size offset : Nat) : Prop :=
  i.denyWriteCnt = 0 ∧ i.data.len < offset + size ∧ offset + size < 2 ^ 31

/-- How a write may stop: past the limit, after all sectors that it asks for have been found, if
the inode was within the limit before. -/
def PastLimit (v : Vol) (i : Inode) (size offset : Nat) (e : Panic) (v' : Vol) : Prop :=
  e = .pastEnd ∧ v'.allocFailed = v.allocFailed ∧ (Grows i size offset →
    need (pointerAt v.disk i.data) i.data.len (offset + size) ≤ freeCnt v.freeMap ∧
    maxFileLen < offset + size) ∧ (¬ Grows i size offset → maxFileLen < i.data.len)

/-- `inode_write_at` takes no sector, or those it needs, or fails. -/
theorem FsInv.write_exact (h : FsInv v L) (hi : inodeIn v.openInodes s = some i)
    (h0 : s ≠ freeMapSector) (hbuf : buffer.length < 2 ^ 31) (hoff : offset < 2 ^ 31)
    (hup : Upto (v.pointers s) (sectors i.data.len)) :
    vwp (inodeWriteAt s buffer offset) (fun r v' =>
      (¬ Grows i buffer.length offset →
        v'.freeMap = v.freeMap ∧ v'.header s = i.data ∧ v'.pointers s = v.pointers s ∧
          v'.allocFailed = v.allocFailed ∧ r ≤ buffer.length) ∧
      (Grows i buffer.length offset →
        r = buffer.length ∧ (v'.header s).len = offset + buffer.length ∧
          Grown (Others v s) v i.data (offset + buffer.length) v' (v'.header s) ∨
        r = 0 ∧ (v'.header s).len = i.data.len ∧
          Undone (Others v s) v i.data (offset + buffer.length) v' (v'.header s)))
      (PastLimit v i buffer.length offset) v := by
  obtain ⟨hs, -⟩ := h.opens s i hi
  have hsec := sector_of_inodeIn hi
  have hh := Vol.header_open hi
  have hp : v.pointers s = pointerAt v.disk i.data := by rw [Vol.pointers, hh]
  have hacc := h.owned.account hs
  have hKs : ¬ allSectors (v.pointers freeMapSector) s := by
    rintro ⟨a, -, he⟩
    exact h.owned.apart _ h.mapLive s hs a he
  have hlt := i.data.len_lt
  have hd := h.owned.distinct hs
  have hfull := h.owned.full s hs
  rw [hh] at hfull
  rw [hp] at hacc hup hd hfull
  -- the loop meets no missing block below the length
  have hthere : ∀ {u : Vol} {id' : InodeDisk}, Full (pointerAt u.disk id') id'.len →
      min (offset + buffer.length) id'.len ≤ maxFileLen → ∀ p, offset ≤ p →
        p < offset + buffer.length → p < id'.len → p < maxFileLen ∧
        pointerAt u.disk id' (.ofPos p) ≠ unallocated := by
    intro u id' hf hmax p _ h₂ h₃
    have hpm : p < maxFileLen := by omega
    refine ⟨hpm, hf _ ?_⟩
    rw [Slot.base_ofPos hpm]
    omega
  have hput : ∀ {u : Vol} (id' : InodeDisk), u.openInodes = v.openInodes →
      inodeIn (setInode u.openInodes { i with data := id' }) s = some { i with data := id' } :=
    fun id' hu => inodeIn_setInode_self (by rw [hu]; exact hi) hsec
  unfold inodeWriteAt
  rw [if_neg h0]
  refine wpOn_seq (vwp_findInode (Q := fun j v' => j = i ∧ v' = v) hi ⟨rfl, rfl⟩) ?_
  rintro j v' ⟨rfl, rfl⟩
  refine wpOn_ite (fun hdeny => ?_) (fun hdeny => ?_)
  · exact wpOn_pure ⟨fun _ => ⟨rfl, hh, rfl, rfl, Nat.zero_le _⟩, fun hg => absurd hg.1 hdeny⟩
  refine wpOn_ite (fun hneed => ?_) (fun hneed => ?_)
  · have hsum : offset + buffer.length < 2 ^ 31 := by
      by_contra hge
      rw [offT, if_neg hge] at hneed
      omega
    have hnat : (offT (offset + buffer.length)).toNat = offset + buffer.length := by
      rw [offT, if_pos hsum]
      omega
    have hgt : j.data.len < offset + buffer.length := by
      rw [offT, if_pos hsum] at hneed
      omega
    have hgrows : Grows j buffer.length offset := ⟨not_not.mp hdeny, hgt, hsum⟩
    rw [hnat]
    -- the list of open inodes and the length are known from the other specification
    refine wpOn_seq (wpOn_and (inodeExtend_spec (R := Others v' s) (W := fun _ => True) (H := Others v' s)
      (freeMap_spec (v'.header freeMapSector) (v'.pointers freeMapSector)
        (PastLimit v' j buffer.length offset))
      (fun x hx => h.others_map hs h0 hx) (fun _ _ => trivial) (h.owned.others_self hs) hKs trivial 2
      (.inl ⟨Nat.two_pos, hfull⟩)
      ((h.owned.header s hs).lt h.owned.bitCnt) (h.owned.mapOk h.mapLive h.map) hacc.sound
      (fun x hx => ⟨hx, hacc.held x hx⟩) fun _ _ hx => hx)
      (inodeExtend_exact (R := Others v' s) (W := fun _ => True)
      (freeMap_spec (v'.header freeMapSector) (v'.pointers freeMapSector) fun _ _ => True)
      (fun x hx => h.others_map hs h0 hx) (fun _ _ => trivial) (h.owned.others_self hs) hKs trivial 1
      (h.owned.mapOk h.mapLive h.map) hacc hup (Nat.le_of_lt hgt))) ?_
    rintro ⟨ok, id'⟩ v₁ ⟨⟨hok, hback⟩, hgrown, hundone⟩
    refine wpOn_seq (vwp_putInode (Q := fun _ v₂ => v₂ =
      { v₁ with openInodes := setInode v₁.openInodes { j with data := id' } }) rfl) ?_
    rintro - v₂ rfl
    cases ok with
    | true =>
        have hx := hok rfl
        have hg : Grown (Others v' s) v' j.data (offset + buffer.length) v₁ id' := hgrown rfl
        have hlen : id'.len = offset + buffer.length := by
          obtain ⟨p, q, hid⟩ := hx.fields
          have hid' : id' = _ := hid
          rw [hid']
          exact InodeDisk.len_setLen hsum
        have hd₁ : Distinct v₁.size (pointerAt v₁.disk id') :=
          hg.account.sound.distinct hx.ext.inv.bitCnt
        have hfound := Nat.le_add_left
          (need (pointerAt v'.disk j.data) j.data.len (offset + buffer.length))
          (freeCnt v₁.freeMap)
        rw [← hg.free] at hfound
        refine wpOn_weaken (inodeWriteLoop_spec _ le_rfl hd₁
          ((Nat.lt_or_ge maxFileLen (min (offset + buffer.length) id'.len)).symm.imp
            (hthere (hlen ▸ hx.full)) fun hmax _ => ⟨rfl, hg.flag, fun _ => ⟨hfound, by omega⟩,
              fun hno => absurd hgrows hno⟩)) ?_
        rintro r v₃ ⟨hr, hw⟩
        have hmin : min buffer.length (id'.len - offset) = buffer.length := by omega
        rw [hmin, Nat.zero_add] at hr
        obtain ⟨d, rfl⟩ := hw.rest
        have hview : pointerAt d id' = pointerAt v₁.disk id' := hw.view
        have hh' : Vol.header
            { v₁ with disk := d, openInodes := setInode v₁.openInodes { j with data := id' } } s = id' :=
          Vol.header_open (i := { j with data := id' }) (hput id' hx.ext.opens)
        refine ⟨fun hn => absurd hgrows hn, fun _ => .inl ⟨hr, ?_, ?_⟩⟩
        · rw [hh']
          exact hlen
        · rw [hh']
          refine ⟨?_, ?_, ?_, ?_, hg.free, hg.flag⟩
          · show Account _ v₁.freeMap (pointerAt d id')
            rw [hview]
            exact hg.account
          · show Upto (pointerAt d id') _
            rw [hview]
            exact hg.upto
          · show _ → pointerAt d id' _ = _
            rw [hview]
            exact hg.kept
          · show _ → _ → pointerAt d id' _ = _
            rw [hview]
            exact hg.none
    | false =>
        obtain ⟨hx, -⟩ := hback rfl
        have hu : Undone (Others v' s) v' j.data (offset + buffer.length) v₁ id' := hundone rfl
        have hlen : id'.len = j.data.len := by
          obtain ⟨p, q, hid⟩ := hx.fields
          have hid' : id' = _ := hid
          rw [hid']
          exact InodeDisk.len_setLen hlt
        have hh' : Vol.header
            { v₁ with openInodes := setInode v₁.openInodes { j with data := id' } } s = id' :=
          Vol.header_open (i := { j with data := id' }) (hput id' hx.ext.opens)
        refine wpOn_pure ⟨fun hn => absurd hgrows hn, fun _ => .inr ⟨rfl, ?_, ?_⟩⟩
        · rw [hh']
          exact hlen
        · rw [hh']
          exact ⟨hu.short, hu.held, hu.others, hu.kept, hu.restored⟩
  · -- within the inode, or the sum overflows
    have hnot : ¬ Grows j buffer.length offset := by
      rintro ⟨-, hgt, hsum⟩
      rw [offT, if_pos hsum] at hneed
      omega
    refine wpOn_weaken (inodeWriteLoop_spec _ le_rfl hd
      ((Nat.lt_or_ge maxFileLen (min (offset + buffer.length) j.data.len)).symm.imp (hthere hfull)
        fun hmax _ => ⟨rfl, rfl, fun hg => absurd hg hnot, fun _ => by omega⟩)) ?_
    rintro r v₃ ⟨hr, hw⟩
    obtain ⟨d, rfl⟩ := hw.rest
    have hh' : Vol.header { v' with disk := d } s = j.data := Vol.header_open hi
    refine ⟨fun _ => ⟨rfl, hh', ?_, rfl, by omega⟩, fun hg => absurd hg hnot⟩
    rw [Vol.pointers, hh', hp]
    exact hw.view

/-! ## Creating -/

/-- A slot at which an attempt stopped is still missing. -/
theorem Halted.salvaged_here {R : UInt32 → Prop} {m m₀ n : Slot → UInt32} {a : Slot}
    (hh : Halted R v m m₀ v' n a) : salvaged m₀ n a a = unallocated := by
  have hn : n a = unallocated := (hh.behind a le_rfl).trans hh.here
  cases a with
  | direct k => exact hn
  | doubly => exact hn
  | indirect k => exact hh.here
  | data k j =>
      simp only [salvaged]
      split
      · exact hh.here
      · exact hn

/-- There is no free sector, the inode lacks one, and it has none past its size. -/
structure Starved (v : Vol) (id : InodeDisk) (size : Nat) : Prop where
  allUsed : v.freeMap.AllUsed
  missing : ∃ a : Slot, a.base < size ∧ pointerAt v.disk id a = unallocated
  past : ∀ a : Slot, size ≤ a.base → pointerAt v.disk id a = unallocated

theorem Starved.ends {id : InodeDisk} {size : Nat} (h : Starved v id size) :
    Ends (pointerAt v.disk id) size :=
  fun k hk => h.past (.indirect k) hk

section Create

variable {alloc : FsM (Option UInt32)} {release : UInt32 → FsM Unit} {I : Vol → Prop}
  {K F R W : UInt32 → Prop} {E : Panic → Vol → Prop} {id : InodeDisk} {size : Nat}

/-- An attempt that has stopped leaves no sector free, and so every later one stops as well. -/
theorem Stopped.starved {id₁ : InodeDisk} {v₁ : Vol} (hst : Stopped I R W R v id size v₁ id₁)
    (hpast : ∀ a : Slot, size ≤ a.base → pointerAt v.disk id a = unallocated) : Starved v₁ id₁ size := by
  obtain ⟨a, n, ha, hh, hsal⟩ := hst.halted
  refine ⟨hh.allUsed, ⟨a, ha, by rw [hsal]; exact hh.salvaged_here⟩, fun b hb => ?_⟩
  rw [hsal]
  rcases salvaged_within hh.below a b with hu | he
  · exact hu
  · have hpos : a.pos ≤ b.pos := by
      have h1 := (a.base_lt size).mp ha
      have h2 : ¬ b.pos < sectors size := fun hlt => absurd ((b.base_lt size).mpr hlt) (Nat.not_lt.mpr hb)
      omega
    rw [he, hh.behind b hpos]
    exact hpast b hb

variable (spec : FreeMapSpec alloc release I K F E)

include spec

/-- Without a free sector an attempt stops. -/
theorem Starved.stops (hst : Starved v id size) (hKR : ∀ x, K x → R x) (hFW : ∀ x, F x → W x) (hRs : R s)
    (hKs : ¬ K s) (hWs : W s) (hI : I v) (hacc : Account R v.freeMap (pointerAt v.disk id)) :
    vwp (inodeExtendOnce alloc release s id size) (fun r v' => r.1 = false ∧
      Stopped I R W R v id size v' r.2) E v := by
  have hcnt := spec.size v hI
  have hss : s < v.size := by
    have := (hacc.held s hRs).1
    rw [hcnt] at this
    exact this
  refine wpOn_weaken (inodeExtendOnce_spec (H := R) spec hKR hFW hRs hKs hWs hss hI hacc.sound
    (fun x hx => ⟨hx, hacc.held x hx⟩) fun _ _ hx => hx) ?_
  rintro ⟨ok, id₁⟩ v₁ ⟨hok, hstop⟩
  cases ok with
  | false => exact ⟨rfl, hstop rfl⟩
  | true =>
      -- all that is needed would be named, with no free sector to name
      obtain ⟨hx, ht⟩ : Extended I R W R s v id size v₁ id₁ ∧ _ := hok rfl
      have hacc₁ : Account R v₁.freeMap (pointerAt v₁.disk id₁) :=
        ⟨hx.ext.sound, ht.covered hst.ends hacc.covered, fun x hx' => (hx.ext.held x hx').2⟩
      have hcnt₁ : v₁.freeMap.bitCnt = v.freeMap.bitCnt := by
        rw [spec.size _ hx.ext.inv, hx.ext.size, hcnt]
      have hcard := hacc.free hacc₁ hcnt₁ (by rw [hcnt]; exact Nat.le_of_lt v.size.toNat_lt)
      rw [hst.allUsed.freeCnt] at hcard
      obtain ⟨a, ha, hu⟩ := hst.missing
      have hlt : named (pointerAt v.disk id) ⊂ named (pointerAt v₁.disk id₁) := by
        refine Finset.ssubset_iff_of_subset (fun p hp => ?_) |>.mpr ⟨a.pos, ?_, ?_⟩
        · obtain ⟨hp, hnu⟩ := mem_named.mp hp
          refine mem_named.mpr ⟨hp, hx.full _ (Nat.lt_of_not_le fun hle => hnu (hst.past _ hle))⟩
        · exact pos_mem_named.mpr (hx.full a ha)
        · rw [pos_mem_named]
          exact not_not.mpr hu
      have := Finset.card_lt_card hlt
      omega

/-- And `inode_extend` calls itself until the stack is full, if the length it is to go back to
is the one it could not reach. -/
theorem inodeExtend_starved (hKs : ¬ K s) (hFK : ∀ x, F x → W x) (hWs : W s) :
    ∀ (depth : Nat) {R : UInt32 → Prop} {v : Vol} {id : InodeDisk}, (∀ x, K x → R x) → R s → I v →
      Sound R v.freeMap (pointerAt v.disk id) → (∀ x, R x → v.freeMap.Used x) → Starved v id id.len →
      vwp (inodeExtend alloc release depth s id id.len) (fun _ _ => False)
        (fun e v' => e = .stack ∨ E e v') v := by
  intro depth
  induction depth with
  | zero =>
      intro R v id _ _ _ _ _ _
      exact wpOn_throw (.inl rfl)
  | succ depth ih =>
      intro R v id hKR hRs hI hsound hR hst
      -- sectors that nobody owns count as others'
      have hsub : ∀ x, R x → v.freeMap.Used x ∧ ¬ allSectors (pointerAt v.disk id) x := by
        intro x hx
        refine ⟨hR x hx, ?_⟩
        rintro ⟨a, hu, rfl⟩
        exact hsound.apart a hu hx
      have hacc : Account (fun x => v.freeMap.Used x ∧ ¬ allSectors (pointerAt v.disk id) x) v.freeMap
          (pointerAt v.disk id) := by
        refine ⟨⟨hsound.used, fun a hu hr => hr.2 ⟨a, hu, rfl⟩, hsound.inj⟩, fun x hx => ?_,
          fun x hx => hx.1⟩
        by_cases hn : allSectors (pointerAt v.disk id) x
        · exact .inr hn
        · exact .inl ⟨hx, hn⟩
      refine wpOn_seq (wpOn_mono (hst.stops spec (fun x hx => hsub x (hKR x hx)) hFK
        (hsub s hRs) hKs hWs hI
        hacc) (fun _ _ hq => hq) fun _ _ he => .inr he) ?_
      rintro ⟨ok, id₁⟩ v₁ ⟨hok, hstop⟩
      obtain rfl : ok = false := hok
      obtain ⟨p, q, hid⟩ := hstop.fields
      have hlen : id₁.len = id.len := by
        have hid' : id₁ = _ := hid
        rw [hid']
        rfl
      refine wpOn_seq (ih (fun x hx => hsub x (hKR x hx)) (hsub s hRs) hstop.ext.inv hstop.ext.sound
        (fun x hx => (hstop.ext.held x hx).2) ?_) fun _ _ hf => hf.elim
      have hst₁ : Starved v₁ id₁ id.len := hstop.starved hst.past
      rw [hlen]
      exact hst₁

/-- An inode without blocks gets what the size needs, or there are too few sectors. -/
theorem inodeExtendOnce_new (hK : ∀ x, K x → v.freeMap.Used x) (hKs : ¬ K s) (hused : v.freeMap.Used s)
    (hI : I v) (hnew : ∀ a, pointerAt v.disk id a = unallocated) :
    vwp (inodeExtendOnce alloc release s id size) (fun r v' =>
      (r.1 = true → sectors size ≤ freeCnt v.freeMap ∧
        Extended I v.freeMap.Used (fun _ => True) v.freeMap.Used s v id size v' r.2 ∧
        Account v.freeMap.Used v'.freeMap (pointerAt v'.disk r.2) ∧
        Upto (pointerAt v'.disk r.2) (sectors size) ∧
        (size ≤ directPointerSize → pointerAt v'.disk r.2 .doubly = unallocated) ∧
        freeCnt v.freeMap = freeCnt v'.freeMap + sectors size) ∧
      (r.1 = false → freeCnt v.freeMap < sectors size ∧
        Stopped I v.freeMap.Used (fun _ => True) v.freeMap.Used v id size v' r.2)) E v := by
  have hcnt := spec.size v hI
  have hss : s < v.size := by
    have := hused.1
    rw [hcnt] at this
    exact this
  have hb : v.freeMap.bitCnt ≤ 2 ^ 32 := by
    rw [hcnt]
    exact Nat.le_of_lt v.size.toNat_lt
  have hacc : Account v.freeMap.Used v.freeMap (pointerAt v.disk id) :=
    ⟨⟨fun a hu => absurd (hnew a) hu, fun a hu => absurd (hnew a) hu, fun a _ hu => absurd (hnew a) hu⟩,
      fun x hx => .inl hx, fun x hx => hx⟩
  have hup : Upto (pointerAt v.disk id) 0 := .empty hnew
  have hearly : ∀ N, early (pointerAt v.disk id) N = 0 := fun N => by simp [early, hnew]
  refine wpOn_weaken (inodeExtendOnce_spec (R := v.freeMap.Used) (W := fun _ => True)
    (H := v.freeMap.Used) spec hK (fun _ _ => trivial) hused hKs trivial hss hI
    hacc.sound (fun x hx => ⟨hx, hacc.held x hx⟩) fun _ _ hx => hx) ?_
  rintro ⟨ok, id₁⟩ v₁ ⟨hok, hstop⟩
  refine ⟨fun htrue => ?_, fun hfalse => ?_⟩
  · obtain ⟨hx, ht⟩ : Extended I _ _ _ s v id size v₁ id₁ ∧ _ := hok htrue
    have hends : Ends (pointerAt v.disk id) size := fun k _ => hnew _
    have hup₁ := ht.upto hends hx.full
    have hacc₁ : Account v.freeMap.Used v₁.freeMap (pointerAt v₁.disk id₁) :=
      ⟨hx.ext.sound, ht.covered hends hacc.covered, fun x hx' => (hx.ext.held x hx').2⟩
    have hcnt₁ : v₁.freeMap.bitCnt = v.freeMap.bitCnt := by
      rw [spec.size _ hx.ext.inv, hx.ext.size, hcnt]
    have hearly₁ : early (pointerAt v₁.disk id₁) (sectors size) = 0 := by
      unfold early
      rw [if_neg]
      rintro ⟨hN, hu⟩
      exact hu (ht.none (hnew _) (sectors_direct.mp hN))
    have hcard := hacc.free hacc₁ hcnt₁ hb
    rw [hup.card (Nat.zero_le _), hup₁.card (sectors_le size), hearly, hearly₁] at hcard
    exact ⟨by omega, hx, hacc₁, hup₁, fun hsmall => ht.none (hnew _) hsmall, by omega⟩
  · have hst : Stopped I _ _ _ v id size v₁ id₁ := hstop hfalse
    obtain ⟨a, n, ha, hh, -⟩ := hst.halted
    have hcnt₁ : v₁.freeMap.bitCnt = v.freeMap.bitCnt := by
      rw [spec.size _ hst.ext.inv, hst.ext.size, hcnt]
    have hfree := hh.free hup hacc (fun x hx => (hst.ext.held x hx).2) hcnt₁ hb
    rw [hearly, hearly] at hfree
    have hpos := (a.base_lt size).mp ha
    exact ⟨by omega, hst⟩

end Create

/-- `inode_create` takes what the length needs, or fills the stack. -/
theorem inodeCreate_exact {I : Vol → Prop} {K F : UInt32 → Prop} {E : Panic → Vol → Prop}
    (spec : FreeMapSpec (freeMapAllocate 1) (freeMapRelease · 1) I K F E)
    (hK : ∀ x, K x → v.freeMap.Used x) (hKs : ¬ K s) (hused : v.freeMap.Used s) {length : Nat}
    (hlen : length < 2 ^ 31) (hI : I v) :
    vwp (inodeCreate s length) (fun r v' => r = true ∧ sectors length ≤ freeCnt v.freeMap ∧
        ∃ id', Extended I v.freeMap.Used (fun _ => True) v.freeMap.Used s
          (v.write s (freshInode length).toSector) (newInode length) length v' id' ∧
          Account v.freeMap.Used v'.freeMap (pointerAt v'.disk id') ∧
          Upto (pointerAt v'.disk id') (sectors length) ∧
          (length ≤ directPointerSize → pointerAt v'.disk id' .doubly = unallocated) ∧
          freeCnt v.freeMap = freeCnt v'.freeMap + sectors length)
      (fun e v' => E e v' ∨ e = .stack ∧ freeCnt v.freeMap < sectors length) v := by
  have hss : s < v.size := by
    have := hused.1
    rw [spec.size v hI] at this
    exact this
  have hnl : (newInode length).len = length := Int32.toNatClampNeg_ofNat_of_lt hlen
  refine wpOn_seq (vwp_cacheWrite (Q := fun _ v' => v' = v.write s (freshInode length).toSector) hss
    rfl) ?_
  rintro - v₀ rfl
  refine wpOn_seq (Q := fun r v₂ => sectors length ≤ freeCnt v.freeMap ∧
    Extended I v.freeMap.Used (fun _ => True) v.freeMap.Used s (v.write s (freshInode length).toSector)
      (newInode length) length v₂ r.2 ∧
    Account v.freeMap.Used v₂.freeMap (pointerAt v₂.disk r.2) ∧
    Upto (pointerAt v₂.disk r.2) (sectors length) ∧
    (length ≤ directPointerSize → pointerAt v₂.disk r.2 .doubly = unallocated) ∧
    freeCnt v.freeMap = freeCnt v₂.freeMap + sectors length) ?_
    fun r v₂ hq => wpOn_pure ⟨rfl, hq.1, r.2, hq.2⟩
  have hnone : ∀ a, pointerAt (v.write s (freshInode length).toSector).disk (newInode length) a =
      unallocated :=
    pointerAt_newInode _ _
  unfold extend extendDepth
  refine wpOn_seq (wpOn_mono (inodeExtendOnce_new spec hK hKs hused (spec.write _ _ _ hI hKs) hnone)
    (fun _ _ hq => hq) fun _ _ he => .inl he) ?_
  rintro ⟨ok, id₁⟩ v₁ ⟨hok, hstop⟩
  cases ok with
  | true => exact wpOn_pure (hok rfl)
  | false =>
      obtain ⟨hshort, hst⟩ := hstop rfl
      obtain ⟨p, q, hid⟩ := hst.fields
      have hlen₁ : id₁.len = length := by
        rw [show id₁ = _ from hid]
        exact hnl
      have hstarved : Starved v₁ id₁ id₁.len := by
        rw [hlen₁]
        exact hst.starved fun b _ => pointerAt_newInode _ _ b
      refine wpOn_seq (Q := fun _ _ => False)
        (wpOn_mono (inodeExtend_starved (W := fun _ => True) spec hKs
        (fun _ _ => trivial) trivial 2 hK hused hst.ext.inv hst.ext.sound
        (fun x hx => (hst.ext.held x hx).2) hstarved) (fun _ _ hq => hq) ?_) fun _ _ hf => hf.elim
      rintro e u (rfl | he)
      · exact .inr ⟨rfl, hshort⟩
      · exact .inl he

/-- What a new inode has. -/
structure Created (v : Vol) (s : UInt32) (length : Nat) (v' : Vol) : Prop where
  account : Account v.freeMap.Used v'.freeMap (v'.pointers s)
  full : Full (v'.pointers s) length
  upto : Upto (v'.pointers s) (sectors length)
  doubly : length ≤ directPointerSize → v'.pointers s .doubly = unallocated
  free : freeCnt v.freeMap = freeCnt v'.freeMap + sectors length
  len : (v'.header s).len = length
  zero : ∀ p, byteAt v'.disk (v'.pointers s) p = 0

/-- `inode_create` returns exactly when there are sectors for all blocks of the new file. -/
theorem FsInv.create_exact {length : Nat} (h : FsInv v L) (hs : s ∉ L) (hused : v.freeMap.Used s)
    (hfor : ¬ Foreign v L s) (hlen : length < 2 ^ 31) :
    vwp (inodeCreate s length) (fun r v' => r = true ∧ sectors length ≤ freeCnt v.freeMap ∧
      Created v s length v') (fun e _ => e = .stack ∧ freeCnt v.freeMap < sectors length) v := by
  have hnone : inodeIn v.openInodes s = none := by
    cases hc : inodeIn v.openInodes s with
    | none => rfl
    | some j => exact absurd (h.opens s j hc).1 hs
  refine wpOn_mono (inodeCreate_exact
    (freeMap_spec (v.header freeMapSector) (v.pointers freeMapSector) fun _ _ => False)
    (fun x hx => h.owned.foreign_used (.inr ⟨_, h.mapLive, hx⟩))
    (fun hx => hfor (.inr ⟨_, h.mapLive, hx⟩)) hused hlen (h.owned.mapOk h.mapLive h.map))
    ?_ fun e _ he => he.resolve_left id
  rintro r v' ⟨rfl, hle, id', hx, hacc, hup, hdoub, hfree⟩
  have hopen : v'.openInodes = v.openInodes := hx.ext.opens
  obtain ⟨p, q, hid⟩ := hx.fields
  have hh : v'.header s = id' := by
    rw [Vol.header_closed (by rw [hopen]; exact hnone), hx.header, InodeDisk.ofSector_toSector]
  have hp : v'.pointers s = pointerAt v'.disk id' := by rw [Vol.pointers, hh]
  have hl : id'.len = length := by
    rw [hid]
    exact InodeDisk.len_setLen hlen
  refine ⟨rfl, hle, ?_, ?_, ?_, ?_, hfree, hh ▸ hl, fun n => ?_⟩
  · rw [hp]
    exact hacc
  · rw [hp]
    exact hx.full
  · rw [hp]
    exact hup
  · rw [hp]
    exact hdoub
  · rw [hp]
    exact hx.bytes_newInode n

end CS162.Fs
