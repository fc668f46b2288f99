/-
# `CS162.Fs.Boot` — the sectors of a new disk

Formatting takes two headers, the sectors of the free map's file, and one more:
`free_map_create` puts a new block in the place of the first one of that file, and that
block stays marked.  What is left is free (`filesysInit_free`), and a new file takes one
sector of it (`newFile`).
-/
import CS162.Fs.Growth

namespace CS162.Fs

open Bytes Wp

variable {v : Vol} {b b' : Bitmap} {E : Panic → Vol → Prop}

/-! ## Counting -/

/-- A bitmap that marks more sectors has fewer free ones. -/
theorem freeCnt_mono (hcnt : b'.bitCnt = b.bitCnt) (hb : b.bitCnt ≤ 2 ^ 32)
    (hused : ∀ x, b.Used x → b'.Used x) : freeCnt b' ≤ freeCnt b := by
  refine Finset.card_le_card fun k hk => ?_
  rw [mem_freeSectors, hcnt] at hk
  refine mem_freeSectors.mpr ⟨hk.1, ?_⟩
  have hx := hused (UInt32.ofNat k)
  rw [Bitmap.Used, Bitmap.Used, toNat_ofNat hb hk.1, hcnt] at hx
  have hbits : b.bits k = true → b'.bits k = true := by simpa [hk.1] using hx
  by_contra hno
  exact absurd (hbits (Bool.of_not_eq_false hno)) (by rw [hk.2]; decide)

/-- Bitmaps that mark the same sectors have as many free ones. -/
theorem freeCnt_congr (hcnt : b'.bitCnt = b.bitCnt) (hb : b.bitCnt ≤ 2 ^ 32)
    (hused : ∀ x, b'.Used x ↔ b.Used x) : freeCnt b' = freeCnt b :=
  Nat.le_antisymm (freeCnt_mono hcnt hb fun x => (hused x).mpr)
    (freeCnt_mono hcnt.symm (hcnt ▸ hb) fun x => (hused x).mp)

theorem freeCnt_set (x : Nat) : freeCnt b ≤ freeCnt (bitmapSet b x true) + 1 := by
  refine (Finset.card_le_card (t := insert x (freeSectors (bitmapSet b x true))) fun k hk => ?_).trans
    (Finset.card_insert_le _ _)
  obtain ⟨hlt, hbit⟩ := mem_freeSectors.mp hk
  rw [Finset.mem_insert]
  by_cases hkx : k = x
  · exact .inl hkx
  · refine .inr (mem_freeSectors.mpr ⟨hlt, ?_⟩)
    rw [bitmapSet_bits, if_neg hkx]
    exact hbit

theorem freeCnt_init (size : UInt32) : size.toNat ≤ freeCnt (freeMapInit size) + 2 := by
  have hnew : freeCnt (bitmapCreate size.toNat) = size.toNat := by
    simp [freeCnt, freeSectors, bitmapCreate]
  have h₁ := freeCnt_set (b := bitmapCreate size.toNat) freeMapSector.toNat
  have h₂ := freeCnt_set (b := bitmapSet (bitmapCreate size.toNat) freeMapSector.toNat true)
    rootDirSector.toNat
  unfold freeMapInit
  omega

theorem freeCnt_le (b : Bitmap) : freeCnt b ≤ b.bitCnt := by
  have h : freeCnt b ≤ (Finset.range b.bitCnt).card := Finset.card_filter_le _ _
  rwa [Finset.card_range] at h

/-! ## `filesys_init` -/

/-- What `free_map_create` takes. -/
theorem freeMapCreate_free (hf : v.freeMap = freeMapInit v.size) (hno : v.freeMapFile = false)
    (hopen : v.openInodes = []) :
    vwp freeMapCreate (fun _ v' =>
      freeCnt v.freeMap ≤ freeCnt v'.freeMap + sectors (byteCnt v.freeMap.bitCnt) + 1)
      (fun _ _ => True) v := by
  refine wpOn_get ?_
  intro fs hfs
  have hfm : fs.freeMap = v.freeMap := congrArg Vol.freeMap hfs
  have hcnt : v.freeMap.bitCnt = v.size.toNat := by rw [hf]; rfl
  rw [hfm]
  by_cases hpos : freeMapSector < v.size
  swap
  · exact wpOn_seq (Q := fun _ _ => False) (wpOn_seq (Q := fun _ _ => False)
      (vwp_cacheWrite_pastEnd hpos trivial) (fun _ _ hc => hc.elim)) (fun _ _ hc => hc.elim)
  have hused : v.freeMap.Used freeMapSector := by
    rw [hf, freeMapInit_used]
    exact ⟨hpos, Or.inl rfl⟩
  have hlen : 0 < byteCnt v.freeMap.bitCnt := by
    have := hused.1
    unfold byteCnt
    omega
  have hlt : byteCnt v.freeMap.bitCnt < 2 ^ 31 := by
    rw [hcnt]
    exact byteCnt_lt _
  have spec := formatMap_spec (E := fun _ _ => True) fun _ => trivial
  refine wpOn_seq (wpOn_and (inodeCreate_spec (E := fun _ _ => True) (R := v.freeMap.Used)
    (W := (· = freeMapSector)) spec (fun _ hx => hx.elim) (fun _ hx => hx.elim) hused
    (fun hx => hx.elim) rfl (fun _ _ => trivial) hlt ⟨hcnt, hno⟩ (fun _ hx => hx))
    (inodeCreate_exact spec (fun _ hx => hx.elim) (fun hx => hx.elim) hused hlt ⟨hcnt, hno⟩)) ?_
  rintro - v₁ ⟨⟨-, id, hx⟩, -, -, -, -, -, -, -, hfree⟩
  have hR : ∀ x, (x = freeMapSector ∨ x = rootDirSector) → v.freeMap.Used x := by
    rintro x (rfl | rfl)
    · exact hused
    · exact root_used hlen hf hx
  refine wpOn_weaken (freeMapFile_spec (fun _ _ => trivial) hopen hpos hR hx) ?_
  rintro - v₂ ⟨-, q, hq⟩
  rcases hq with hq | hq
  · rw [hq]
    omega
  · rw [hq]
    have := freeCnt_set (b := v₁.freeMap) q.toNat
    omega

/-- How many sectors are left after `filesys_init`. -/
theorem filesysInit_free (dev : BlockDev) :
    vwp filesysInit (fun _ v' => dev.size.toNat ≤
      freeCnt v'.freeMap + sectors (byteCnt dev.size.toNat) + 3) (fun _ _ => True) (bootFs dev).vol := by
  have hinit := freeCnt_init dev.size
  refine wpOn_seq (Q := fun _ v' => ∃ v₁, FormatDone v₁ v' ∧ v₁.freeMap.bitCnt = v₁.size.toNat ∧
    dev.size.toNat ≤ freeCnt v₁.freeMap + sectors (byteCnt dev.size.toNat) + 3) ?_ ?_
  · refine wpOn_seq (wpOn_and (freeMapCreate_spec (E := fun _ _ => True) (v := (bootFs dev).vol)
      (fun _ _ => trivial) rfl rfl rfl) (freeMapCreate_free rfl rfl rfl)) ?_
    rintro - v₁ ⟨⟨h₁, hused, hfor⟩, hfree⟩
    refine wpOn_weaken (formatRoot_spec h₁ hused hfor) fun _ v₂ h₂ =>
      ⟨v₁, h₂, h₁.inv.owned.bitCnt, ?_⟩
    have hfree' : freeCnt (freeMapInit dev.size) ≤
        freeCnt v₁.freeMap + sectors (byteCnt dev.size.toNat) + 1 := hfree
    omega
  · rintro - v₂ ⟨v₁, h₂, hcnt, hfree⟩
    refine wpOn_weaken (mount_spec h₂) fun _ v₃ h₃ => ?_
    have hcnt₃ : v₃.freeMap.bitCnt = v₁.freeMap.bitCnt := by
      rw [h₃.inv.owned.bitCnt, h₃.size, hcnt]
    rw [freeCnt_congr hcnt₃ (by rw [hcnt]; exact Nat.le_of_lt v₁.size.toNat_lt) h₃.used]
    exact hfree

theorem free_of_boot {dev : BlockDev} {fs : FsState} (h : filesysInit (bootFs dev) = .ok () fs) :
    dev.size.toNat ≤ freeCnt fs.freeMap + sectors (byteCnt dev.size.toNat) + 3 := by
  have hq := wpOn_ok (filesysInit_free dev) h
  exact hq

/-! ## A new inode -/

/-- One more sector is marked. -/
theorem freeCnt_take {x : Nat} (hlt : x < b.bitCnt) (hbit : b.bits x = false) :
    freeCnt b = freeCnt (bitmapSet b x true) + 1 := by
  have hmem : x ∈ freeSectors b := mem_freeSectors.mpr ⟨hlt, hbit⟩
  have heq : freeSectors (bitmapSet b x true) = (freeSectors b).erase x := by
    refine Finset.ext fun k => ?_
    rw [Finset.mem_erase, mem_freeSectors, mem_freeSectors, bitmapSet_bits, bitmapSet_bitCnt]
    by_cases hk : k = x
    · simp [hk]
    · simp [hk]
  unfold freeCnt
  rw [heq, Finset.card_erase_add_one hmem]

/-- What a new inode takes: its header and the sectors of its length. -/
structure NewInode (v : Vol) (length : Nat) (s : UInt32) (v' : Vol) : Prop where
  fresh : ¬ v.freeMap.Used s
  used : ∀ x, v'.freeMap.Used x ↔ v.freeMap.Used x ∨ x = s ∨
    ∃ a, v'.pointers s a ≠ unallocated ∧ v'.pointers s a = x
  apart : ∀ a, v'.pointers s a ≠ unallocated → ¬ v.freeMap.Used (v'.pointers s a) ∧ v'.pointers s a ≠ s
  upto : Upto (v'.pointers s) (sectors length)
  doubly : length ≤ directPointerSize → v'.pointers s .doubly = unallocated
  free : freeCnt v.freeMap = freeCnt v'.freeMap + sectors length + 1

/-- A new inode takes one sector for itself, and those of its blocks. -/
theorem FsInv.createInode_exact {L : Set UInt32} (h : FsInv v L) {length : Nat} (hlen : length < 2 ^ 31) :
    vwp (createInode length) (fun r v' =>
      (r = none → freeCnt v.freeMap = 0 ∧ v' = { v with allocFailed := true }) ∧
      ∀ s, r = some s → NewInode v length s v')
      (fun e _ => e = .stack ∧ 0 < freeCnt v.freeMap ∧ freeCnt v.freeMap < sectors length + 1) v := by
  have hok := h.owned.mapOk h.mapLive h.map
  refine wpOn_seq (wpOn_mono (wpOn_and (h.allocate (E := fun _ _ => False))
    ((freeMap_spec (v.header freeMapSector) (v.pointers freeMapSector) fun _ _ => False).alloc v hok))
    (fun _ _ hq => hq) fun _ _ he => he.elim) ?_
  rintro r v₁ ⟨⟨hinv, hk, -, -, hr⟩, halloc⟩
  cases r with
  | none => exact wpOn_pure ⟨fun _ => ⟨hr.2.freeCnt, hr.1⟩, fun _ hs => by cases hs⟩
  | some s =>
      obtain ⟨hs, hused, hfor⟩ := hr
      obtain ⟨-, hlt, hbit, d, rfl, -⟩ := halloc
      have htake : freeCnt v.freeMap = freeCnt (bitmapSet v.freeMap s.toNat true) + 1 :=
        freeCnt_take hlt hbit
      refine wpOn_seq (wpOn_mono (hinv.create_exact hs hused hfor hlen) (fun _ _ hq => hq)
        fun _ _ he => ⟨he.1, by omega, ?_⟩) ?_
      · have hshort : freeCnt (bitmapSet v.freeMap s.toNat true) < sectors length := he.2
        omega
      rintro - v₂ ⟨-, -, hc⟩
      have hfree : freeCnt (bitmapSet v.freeMap s.toNat true) = freeCnt v₂.freeMap + sectors length :=
        hc.free
      refine wpOn_pure ⟨fun hn => (by cases hn), fun t ht => ?_⟩
      cases ht
      refine ⟨fun hu => ?_, fun x => ?_, fun a ha => ?_, hc.upto, hc.doubly, by omega⟩
      · rw [Bitmap.Used, hbit] at hu
        cases hu.2
      · refine hc.account.used.trans ?_
        rw [← or_assoc]
        exact or_congr_left (Bitmap.used_set_true_iff hlt)
      · refine not_or.mp fun hold => hc.account.sound.apart a ha ?_
        exact (Bitmap.used_set_true_iff hlt).mpr hold

/-! ## A new file -/

/-- An empty file is created and opened, if there is a free sector. -/
structure NewFile (fs : FsState) (live : Set UInt32) (s : UInt32) (fs₁ fs₂ : FsState) : Prop where
  create : (FsOp.create 0).run fs = .ok (some s) fs₁
  openIt : (FsOp.openInode s).run fs₁ = .ok none fs₂
  fresh : s ∉ live
  inode : inodeIn fs₂.openInodes s = some ⟨s, 1, false, 0, (newInode 0).setLen 0⟩
  free : freeCnt fs.freeMap ≤ freeCnt fs₂.freeMap + 1
  bitCnt : fs₂.freeMap.bitCnt = fs.freeMap.bitCnt

theorem FsInv.createInode_free {live : Set UInt32} (h : FsInv v live) (hfree : 0 < freeCnt v.freeMap) :
    vwp (createInode 0) (fun r v' => ∃ s, r = some s ∧ s ∉ live ∧ FsInv v' (insert s live) ∧
      freeCnt v.freeMap ≤ freeCnt v'.freeMap + 1 ∧ v'.freeMap.bitCnt = v.freeMap.bitCnt) E v := by
  have hok := h.owned.mapOk h.mapLive h.map
  refine wpOn_seq (wpOn_and h.allocate
    ((freeMap_spec (v.header freeMapSector) (v.pointers freeMapSector) E).alloc v hok)) ?_
  rintro r v₁ ⟨⟨hinv, hk, -, -, hr⟩, halloc⟩
  cases r with
  | none => exact absurd hr.2.freeCnt (Nat.ne_of_gt hfree)
  | some s =>
      obtain ⟨hs, hused, hfor⟩ := hr
      obtain ⟨-, -, -, d, rfl, -⟩ := halloc
      have hnone : ¬ freeCnt (bitmapSet v.freeMap s.toNat true) < sectors 0 := Nat.not_lt_zero _
      refine wpOn_seq (wpOn_and (wpOn_mono (hinv.create_exact hs hused hfor (by omega))
        (fun _ _ hq => hq) fun _ _ he => absurd he.2 hnone)
        (hinv.create (E := fun _ _ => True) (fun _ _ => trivial) hs hused hfor (by omega))) ?_
      rintro - v₂ ⟨⟨-, -, hc⟩, -, hinv₂, hk₂, -⟩
      refine wpOn_pure ⟨s, rfl, hs, hinv₂, ?_, hk₂.bitCnt⟩
      have hcnt : freeCnt (bitmapSet v.freeMap s.toNat true) = freeCnt v₂.freeMap + sectors 0 := hc.free
      have hset := freeCnt_set (b := v.freeMap) s.toNat
      have h0 : sectors 0 = 0 := rfl
      omega

/-- With a free sector there is a new file. -/
theorem newFile {fs : FsState} {live : Set UInt32} (h : FsInv fs.vol live)
    (hfree : 0 < freeCnt fs.freeMap) : ∃ s fs₁ fs₂, NewFile fs live s fs₁ fs₂ := by
  rcases wpOn_run (h.createInode_free (E := fun _ _ => False) hfree) with
    ⟨r, fs₁, hr, s, rfl, hs, hinv₁, hle, hcnt⟩ | ⟨e, fs₁, -, hf⟩
  · have hopen : vwp (FsOp.openInode s).run (fun r v' => r = none ∧ v' = fs₁.vol.opened s)
        (fun _ _ => False) fs₁.vol := by
      refine wpOn_seq (vwp_inodeOpen (Q := fun _ v' => v' = fs₁.vol.opened s)
        ((hinv₁.owned.header s (Set.mem_insert s live)).lt hinv₁.owned.bitCnt) rfl) ?_
      rintro - v' rfl
      exact wpOn_pure ⟨rfl, rfl⟩
    rcases wpOn_run hopen with ⟨r, fs₂, hr₂, rfl, hvol⟩ | ⟨e, fs₂, -, hf⟩
    · have hmap : fs₂.freeMap = fs₁.freeMap := congrArg Vol.freeMap hvol
      refine ⟨s, fs₁, fs₂, hr, hr₂, hs, ?_, by rw [hmap]; exact hle, by rw [hmap]; exact hcnt⟩
      rw [openInodes_of_empty h hr hr₂]
      exact inodeIn_cons_self rfl
    · exact hf.elim
  · exact hf.elim

/-- Both calls are steps of a run. -/
theorem NewFile.reach {dev : BlockDev} {fs fs₁ fs₂ : FsState} {live : Set UInt32} {s : UInt32}
    (h : NewFile fs live s fs₁ fs₂) (hreach : Reach dev fs live) : Reach dev fs₂ (insert s live) := by
  have henabled : (FsOp.create 0).Enabled fs.vol live := Nat.two_pow_pos 31
  have hlive : (FsOp.openInode s).Enabled fs₁.vol (insert s live) := Set.mem_insert s live
  exact .step (.step hreach henabled h.create) hlive h.openIt

end CS162.Fs
