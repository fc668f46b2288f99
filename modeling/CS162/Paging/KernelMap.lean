/-
# `CS162.Paging.KernelMap` — what `paging_init` makes

`KernelMap` is the invariant of the loop of `paging_init`: so many tables have been made, so many pages
are mapped where they are, and the rest is blank.  At the end the machine shows address spaces without
a directory of a user's, and `init_page_dir` is active.
-/
import CS162.Paging.Processor

namespace CS162.Paging

open Userprog.UserMem Wp

/-- The entry for a page of the kernel, when `cnt` pages are mapped. -/
def kernelPte (inKernelText : UInt32 → Bool) (cnt n : Nat) : UInt32 :=
  if 0xC0000 ≤ n ∧ n < 0xC0000 + cnt then
    UInt32.ofNat (4096 * n) - physBase ||| pteP ||| if !inKernelText (UInt32.ofNat (4096 * n)) then pteW
    else 0
  else 0

variable {text : UInt32 → Bool} {pd pt a e ram size : UInt32} {t t' : Nat → UInt32} {l : List UInt32}
  {R k n : Nat}
  {m m' : Machine}

/-! ## Entries -/

theorem toNat_page (hn : n < 0x100000) : (UInt32.ofNat (4096 * n)).toNat = 4096 * n := by
  rw [UInt32.toNat_ofNat']
  omega

/-- A kernel entry is never for the user, and where it is present it names the frame of its own page. -/
theorem kernelPte_flags (text : UInt32 → Bool) {cnt : Nat} (hcnt : cnt ≤ 2 ^ 18) (n : Nat) :
    kernelPte text cnt n &&& pteU = 0 ∧
      (kernelPte text cnt n &&& pteP ≠ 0 →
      ptov (kernelPte text cnt n &&& pteAddr) = UInt32.ofNat (4096 * n)) := by
  unfold kernelPte
  split
  · next hn =>
      have hval := toNat_page (n := n) (by omega)
      have hsub : (UInt32.ofNat (4096 * n) - physBase).toNat % 4096 = 0 := by
        rw [toNat_vtop (by unfold pageOf; omega)]
        omega
      rw [UInt32.or_assoc]
      generalize hf : (pteP ||| if (!text (UInt32.ofNat (4096 * n))) = true then pteW else 0) = f
      have hbits : f &&& pteU = 0 ∧ f.toNat < 4096 := by
        rw [← hf]
        split <;> decide
      refine ⟨?_, fun _ => by rw [and_addr hsub hbits.2, ptov_vtop]⟩
      rw [or_and_other hbits.1]
      refine UInt32.eq_of_bits fun k _ => ?_
      have hU : ∀ k < 32, pteU.toNat.testBit k = decide (k = 2) := by decide
      have hzero : (0 : UInt32).toNat.testBit k = false := Nat.zero_testBit k
      rw [and_bit, hU k ‹_›, hzero]
      by_cases hk : k = 2
      · rw [hk, aligned_bit hsub (by decide), Bool.false_and]
      · rw [decide_eq_false hk, Bool.and_false]
  · exact ⟨rfl, fun hno => absurd rfl hno⟩

/-- One page more is mapped. -/
theorem kernelPte_succ (hk : k < 2 ^ 18) (n : Nat) :
    kernelPte text (k + 1) n = if n = 0xC0000 + k then
      UInt32.ofNat (4096 * n) - physBase ||| pteP ||| if !text (UInt32.ofNat (4096 * n)) then pteW else 0
    else kernelPte text k n := by
  unfold kernelPte
  by_cases hn : n = 0xC0000 + k
  · rw [if_pos hn, if_pos ⟨by omega, by omega⟩]
  · rw [if_neg hn]
    exact if_congr ⟨fun h => ⟨h.1, by omega⟩, fun h => ⟨h.1, by omega⟩⟩ rfl rfl

/-! ## The loop -/

structure KernelMap (text : UInt32 → Bool) (pd ram : UInt32) (t : Nat → UInt32) (l : List UInt32)
    (R k : Nat)
    (m : Machine) : Prop where
  counted : Counted m l
  ram : m.initRamPages = ram
  initDir : m.initPageDir = pd
  dir : pd ∈ l
  size : l.length = R + 1
  blank : ∀ i < 1024, i < 768 ∨ 768 + R ≤ i → m.words (word pd i) = 0
  table : ∀ i, 768 ≤ i → i < 768 + R → m.words (word pd i) &&& pteP ≠ 0 ∧
    ptov (m.words (word pd i) &&& pteAddr) = t i ∧ t i ∈ l ∧ t i ≠ pd
  apart : ∀ i j, 768 ≤ i → i < 768 + R → 768 ≤ j → j < 768 + R → t i = t j → i = j
  row : ∀ i, 768 ≤ i → i < 768 + R → ∀ j < 1024, m.words (word (t i) j) = kernelPte text k (1024 * i + j)

namespace KernelMap

variable (h : KernelMap text pd ram t l R k m)

include h

theorem high (ha : a ∈ l) : 0xC0000 ≤ pageOf a := le_trans (by decide) (h.counted.bounds ha).1

/-- A table more, with nothing in it, when those before it are full. -/
theorem newTable (hR : R < 256) (hk : k = 1024 * R) (hg : Got m ⟨true, true, false⟩ 1 a m')
    (hp : e &&& pteP ≠ 0) (hto : ptov (e &&& pteAddr) = a) :
    KernelMap text pd ram (Function.update t (768 + R) a) (a :: l) (R + 1) k
    (m'.put (word pd (768 + R)) e) := by
  obtain ⟨hcount, hfresh⟩ := h.counted.got hg
  have hpdal := h.counted.aligned pd h.dir
  have hne : ∀ b ∈ l, b ≠ a := fun b hb hba => hfresh b hb (congrArg pageOf hba)
  have hother : ∀ b ∈ l, ∀ j < 1024, ¬ (b = pd ∧ j = 768 + R) →
      (m'.put (word pd (768 + R)) e).words (word b j) = m.words (word b j) := by
    intro b hb j hj hno
    have hbal := h.counted.aligned b hb
    rw [put_word hpdal hbal (by omega) hj hno]
    exact hg.others h.counted.ok hbal (hfresh b hb) hj
  have hzero : ∀ j < 1024, (m'.put (word pd (768 + R)) e).words (word a j) = 0 := by
    intro j hj
    rw [put_word hpdal hg.aligned (by omega) hj fun hno => hne pd h.dir hno.1.symm,
      hg.words_eq h.counted.ok (by decide)]
    exact if_pos ⟨rfl, mem_block_one.mpr (word_page hg.aligned hj)⟩
  have hold : ∀ i, i < 768 + R → Function.update t (768 + R) a i = t i := fun i hi =>
    Function.update_of_ne (by omega) ..
  have hlast : Function.update t (768 + R) a (768 + R) = a := Function.update_self ..
  have hcases : ∀ i, i < 768 + (R + 1) → i < 768 + R ∨ i = 768 + R := fun i hi => by omega
  refine ⟨hcount.put _ _, (hg.alike.ram).trans h.ram, (hg.alike.initDir).trans h.initDir,
    List.mem_cons_of_mem a h.dir,
    congrArg (· + 1) h.size, fun i hi hor => ?_, fun i hle hlt => ?_, fun i j hi hi' hj hj' heq => ?_,
    fun i hle hlt j hj => ?_⟩
  · rw [hother pd h.dir i hi fun hno => by omega]
    exact h.blank i hi (by omega)
  · rcases hcases i hlt with hi | rfl
    · obtain ⟨h1, h2, h3, h4⟩ := h.table i hle hi
      rw [hother pd h.dir i (by omega) fun hno => by omega, hold i hi]
      exact ⟨h1, h2, List.mem_cons_of_mem a h3, h4⟩
    · rw [put_self, hlast]
      exact ⟨hp, hto, List.mem_cons_self .., (hne pd h.dir).symm⟩
  · rcases hcases i hi' with hi' | rfl <;> rcases hcases j hj' with hj' | rfl
    · rw [hold i hi', hold j hj'] at heq
      exact h.apart i j hi hi' hj hj' heq
    · rw [hold i hi', hlast] at heq
      exact absurd heq (hne _ (h.table i hi hi').2.2.1)
    · rw [hold j hj', hlast] at heq
      exact absurd heq.symm (hne _ (h.table j hj hj').2.2.1)
    · rfl
  · rcases hcases i hlt with hi | rfl
    · obtain ⟨-, -, h3, h4⟩ := h.table i hle hi
      rw [hold i hi, hother _ h3 j hj fun hno => h4 hno.1]
      exact h.row i hle hi j hj
    · rw [hlast, hzero j hj]
      exact (if_neg fun hno => by omega).symm

/-- A page more is mapped. -/
theorem mapPage (hk : k < 1024 * R) (hR : R ≤ 256) {w : UInt32}
    (hw : w = kernelPte text (k + 1) (0xC0000 + k)) :
    KernelMap text pd ram t l R (k + 1) (m.put (word (t (768 + k / 1024)) (k % 1024)) w) := by
  have hlt : 768 + k / 1024 < 768 + R := by omega
  have hj : k % 1024 < 1024 := by omega
  obtain ⟨-, -, hin, hne⟩ := h.table _ (by omega) hlt
  have hal := h.counted.aligned _ hin
  have hdir : ∀ i < 1024, (m.put (word (t (768 + k / 1024)) (k % 1024)) w).words (word pd i) =
      m.words (word pd i) :=
    fun i hi => put_word hal (h.counted.aligned pd h.dir) hj hi fun hno => hne hno.1.symm
  refine ⟨h.counted.put _ _, h.ram, h.initDir, h.dir, h.size, fun i hi hor =>
    (hdir i hi).trans (h.blank i hi hor),
    fun i hle hi => ?_, h.apart, fun i hle hi j hj' => ?_⟩
  · rw [hdir i (by omega)]
    exact h.table i hle hi
  · by_cases heq : i = 768 + k / 1024 ∧ j = k % 1024
    · have hpage : 1024 * i + j = 0xC0000 + k := by omega
      rw [hpage, heq.1, heq.2, put_self, hw]
    · have hpage : ¬ 1024 * i + j = 0xC0000 + k := by omega
      rw [put_word hal (h.counted.aligned _ (h.table i hle hi).2.2.1) hj hj' fun hno =>
        heq ⟨h.apart i _ hle hi (by omega) hlt hno.1, hno.2⟩, h.row i hle hi j hj',
        kernelPte_succ (by omega),
        if_neg hpage]

end KernelMap

/-- The invariant of the loop; `pt` is the table of the last
page, and the kernel pool has `size` pages. -/
def Mapping (text : UInt32 → Bool) (pd ram size : UInt32) (k : Nat) (pt : UInt32) (m : Machine) : Prop :=
  m.kernelPool.usedMap.bitCnt = size ∧
    ∃ t l, KernelMap text pd ram t l ((k + 1023) / 1024) k m ∧ (0 < k → pt = t (768 + (k - 1) / 1024))

/-- The kernel's pages stand behind `PHYS_BASE` in the order of their frames. -/
theorem kernel_address (hk : k < 2 ^ 18) : ptov (UInt32.ofNat k * pgSize) = UInt32.ofNat
    (4096 * (0xC0000 + k)) ∧
    pageOf (ptov (UInt32.ofNat k * pgSize)) = 0xC0000 + k := by
  have hpage : pgSize.toNat = 4096 := rfl
  have hval : (ptov (UInt32.ofNat k * pgSize)).toNat = 4096 * (0xC0000 + k) := by
    unfold ptov
    rw [UInt32.toNat_add, UInt32.toNat_mul, UInt32.toNat_ofNat', hpage, toNat_physBase]
    omega
  refine ⟨UInt32.toNat_inj.mp (hval.trans (toNat_page (by omega)).symm), ?_⟩
  unfold pageOf
  rw [hval]
  omega

/-- Where there is no free page all of the pool is in use. -/
theorem NoRun.full {user : Bool} (hno : NoRun m user 1) (h : ∀ k ∈ m.used, ∃ a ∈ l, pageOf a = k) :
    (m.pool user).usedMap.bitCnt.toNat ≤ l.length := by
  have hsub : List.range' (m.pool user).start (m.pool user).usedMap.bitCnt.toNat ⊆ l.map pageOf := by
    intro k hk
    have hhas : (m.pool user).Has k := by
      rw [List.mem_range'_1] at hk
      exact hk
    have hused : k ∈ (m.pool user).used := by
      by_contra hfree
      refine hno ⟨k, fun i hi => ?_⟩
      obtain rfl : i = 0 := Nat.lt_one_iff.mp hi
      exact ⟨hhas, hfree⟩
    obtain ⟨a, ha, hak⟩ := h k ((m.mem_used k).mpr ⟨user, hused⟩)
    exact List.mem_map.mpr ⟨a, ha, hak⟩
  have hle := (List.subperm_of_subset List.nodup_range' hsub).length_le
  rwa [List.length_range', List.length_map] at hle

/-- The table for a page, made if there is none. -/
theorem Mapping.table_spec (h : Mapping text pd ram size k pt m) (hk : k < 2 ^ 18) :
    wp (kernelTable (word pd (768 + k / 1024)) pt)
      (fun pt' m' => m'.kernelPool.usedMap.bitCnt = size ∧
        ∃ t l, KernelMap text pd ram t l (k / 1024 + 1) k m' ∧ pt' = t (768 + k / 1024))
      (fun e _ => e = .outOfPages ∧ size.toNat ≤ 1 + k / 1024) m := by
  obtain ⟨hpool, t, l, hmap, hpt⟩ := h
  unfold kernelTable
  refine wp_bind.mpr (wp_load ?_)
  by_cases hfull : k % 1024 = 0
  · have hR : (k + 1023) / 1024 = k / 1024 := by omega
    rw [hR] at hmap
    rw [if_pos (hmap.blank _ (by omega) (.inr (by omega)))]
    have hsize := hmap.size
    refine wp_seq (wp_mono (pallocGetMultiple_spec hmap.counted.ok _ 1) (fun _ _ hr =>
      hr) fun e m' he => ?_)
      fun r m' hr => ?_
    · obtain ⟨rfl, -, -, hno⟩ := he
      have hfull : m.kernelPool.usedMap.bitCnt.toNat ≤ l.length := hno.full fun k =>
        (hmap.counted.used k).mp
      exact ⟨rfl, by rw [← hpool]; omega⟩
    rcases hr with ⟨a, rfl, -, hg⟩ | ⟨rfl, -, hno⟩
    · obtain ⟨hcount, -⟩ := hmap.counted.got hg
      have hmem : a ∈ a :: l := List.mem_cons_self ..
      have hhigh : 0xC0000 ≤ pageOf a := le_trans (by decide) (hcount.bounds hmem).1
      refine wp_bind.mpr (wp_pdeCreate hg.aligned hhigh fun e hp hto => wp_bind.mpr (wp_store ?_))
      exact ⟨(hg.alike.size false).trans hpool, _, _, hmap.newTable (by omega) (by omega) hg hp hto,
        by rw [Function.update_self]⟩
    · exact absurd (hno.resolve_left (by decide)).2 (by decide)
  · have hR : (k + 1023) / 1024 = k / 1024 + 1 := by omega
    rw [hR] at hmap
    have hp := (hmap.table (768 + k / 1024) (by omega) (by omega)).1
    rw [if_neg fun hzero => by rw [hzero] at hp; exact hp rfl]
    refine ⟨hpool, t, l, hmap, (hpt (by omega)).trans ?_⟩
    rw [show (k - 1) / 1024 = k / 1024 by omega]

/-- One turn of the loop of `paging_init`: a new page table
at every 1024th page, for which a page may be missing. -/
theorem Mapping.page_spec (h : Mapping text pd ram size k pt m) (hk : k < 2 ^ 18) :
    wp (mapKernelPage text pd pt k) (fun pt' m' => Mapping text pd ram size (k + 1) pt' m')
      (fun e _ => e = .outOfPages ∧ size.toNat ≤ 1 + k / 1024) m := by
  obtain ⟨haddr, hpage⟩ := kernel_address hk
  unfold mapKernelPage
  generalize UInt32.ofNat k * pgSize = paddr at haddr hpage ⊢
  have hhigh : 0xC0000 ≤ pageOf (ptov paddr) := by omega
  have hi : pageOf (ptov paddr) / 1024 = 768 + k / 1024 := by omega
  have hj : pageOf (ptov paddr) % 1024 = k % 1024 := by omega
  refine wp_bind.mpr (wp_ptov hhigh ?_)
  generalize ptov paddr = vaddr at haddr hhigh hi hj ⊢
  rw [dir_word, hi]
  refine wp_seq (h.table_spec hk) ?_
  rintro pt' m' ⟨hpool, t, l, hmap, rfl⟩
  unfold pteCreateKernel
  have hal : vaddr.toNat % 4096 = 0 := by
    rw [haddr, toNat_page (by omega)]
    omega
  rw [if_neg (not_not_intro (pgOfs_eq_zero hal)), table_word, hj]
  refine wp_bind.mpr (wp_bind.mpr (wp_vtop hhigh ((wp_pure _).mpr (wp_bind.mpr (wp_store ?_)))))
  refine ⟨hpool, t, l, ?_, fun _ => by rw [Nat.add_sub_cancel]⟩
  rw [show (k + 1 + 1023) / 1024 = k / 1024 + 1 by omega]
  refine hmap.mapPage (by omega) (by omega) ?_
  rw [kernelPte_succ hk, if_pos rfl, haddr]

/-- The address spaces of the kernel alone. -/
def kernelSpaces (text : UInt32 → Bool) (reserved : List UInt32) (pd ram : UInt32) : Spaces where
  reserved := reserved
  held := []
  dirs := []
  entry _ _ := 0
  content _ _ := 0
  active := pd
  kernel := kernelPte text ram.toNat

/-- Every page of RAM is mapped. -/
theorem KernelMap.maps {R : Nat} (h : KernelMap text pd ram t l R ram.toNat m) (hmax : ram.toNat < 2 ^ 18)
    (hR : ram.toNat ≤ 1024 * R) (hcr3 : ptov m.cr3 = pd) : Maps (fun _ _ => 0) m
    (kernelSpaces text l pd ram) := by
  have hpages : (kernelSpaces text l pd ram).pages (fun _ _ => 0) = l := by
    show l ++ [] ++ [] = l
    rw [List.append_nil, List.append_nil]
  have hinit := h.initDir
  refine ⟨by rw [hpages]; exact h.counted, ?_, fun i hi => ?_, fun _ => rfl, nofun, nofun, nofun, nofun,
    fun i hle hlt => ?_, fun n => (kernelPte_flags text (by omega) n).1, fun n =>
      (kernelPte_flags text (by omega) n).2,
    ⟨hcr3, .inl hinit.symm⟩, ?_⟩
  · rw [hinit]
    exact h.dir
  · rw [hinit]
    exact h.blank i (by omega) (.inl hi)
  · unfold KernelRow
    rw [hinit]
    by_cases hi : i < 768 + R
    · obtain ⟨h1, h2, h3, h4⟩ := h.table i hle hi
      refine .inr ⟨h1, t i, h3, h4, h2, fun j hj => ?_⟩
      rw [h.row i hle hi j hj]
      rfl
    · exact .inl ⟨h.blank i hlt (.inr (by omega)), fun j _ => if_neg fun hno => by omega⟩
  · rintro a (hno | ⟨_, hno, -⟩) <;> exact absurd hno List.not_mem_nil

/-- `paging_init`, when no page is in use: it panics only if
the kernel pool has no page for each table. -/
theorem pagingInit_spec (hcount : Counted m []) (hmax : m.initRamPages.toNat < 2 ^ 18)
    (text : UInt32 → Bool) :
    wp (pagingInit text) (fun _ m' => ∃ reserved,
    m'.kernelPool.usedMap.bitCnt = m.kernelPool.usedMap.bitCnt ∧
        reserved.length = (m.initRamPages.toNat + 1023) / 1024 + 1 ∧
        Shows (fun _ _ => 0) m' (kernelSpaces text reserved m'.initPageDir m.initRamPages))
      (fun e _ => e = .outOfPages ∧ m.kernelPool.usedMap.bitCnt.toNat ≤
      (m.initRamPages.toNat + 1023) / 1024) m := by
  unfold pagingInit
  refine wp_seq (wp_mono (pallocGetMultiple_spec hcount.ok _ 1) (fun _ _ hr => hr) fun e m' he =>
    ?_) fun r m₁ hr => ?_
  · obtain ⟨rfl, -, -, hno⟩ := he
    have hfull : m.kernelPool.usedMap.bitCnt.toNat ≤ 0 := hno.full fun k => (hcount.used k).mp
    exact ⟨rfl, le_trans hfull (Nat.zero_le _)⟩
  rcases hr with ⟨pd, rfl, -, hg⟩ | ⟨rfl, -, hno⟩
  swap
  · exact absurd (hno.resolve_left (by decide)).2 (by decide)
  obtain ⟨hpd, -⟩ := hcount.got hg
  have hram : m₁.initRamPages = m.initRamPages := hg.alike.ram
  refine wp_bind.mpr ((wp_modify _).mpr (wp_bind.mpr (wp_get.mpr ?_)))
  dsimp only
  have hstart : Mapping text pd m.initRamPages m.kernelPool.usedMap.bitCnt 0 0 { m₁ with initPageDir :=
    pd } := by
    refine ⟨hg.alike.size false, fun _ => 0, [pd],
      ⟨⟨⟨hpd.ok.pool, hpd.ok.apart⟩, hpd.ram, hpd.nodup, hpd.used,
      hpd.aligned⟩, hram, rfl, List.mem_cons_self .., rfl, fun i hi _ => ?_, fun i hle hlt => by omega,
      fun i j hle hlt => by omega, fun i hle hlt => by omega⟩, fun hno => absurd hno (Nat.lt_irrefl 0)⟩
    show m₁.words (word pd i) = 0
    rw [hg.words_eq hcount.ok (by decide)]
    exact if_pos ⟨rfl, mem_block_one.mpr (word_page hg.aligned hi)⟩
  rw [show m₁.initRamPages.toNat = m.initRamPages.toNat from congrArg _ hram]
  refine wp_seq (wp_foldlM_range (I := Mapping text pd m.initRamPages m.kernelPool.usedMap.bitCnt)
    (fun k hk d t ht => wp_mono (ht.page_spec (by omega)) (fun _ _ hq => hq) fun e t' he =>
    ⟨he.1, by omega⟩)
    hstart) fun pt m₂ ⟨hpool, t, l, hmap, _⟩ => ?_
  refine wp_bind.mpr (wp_vtop (hmap.high hmap.dir) ((wp_modify _).mpr ?_))
  have hfinal : KernelMap text pd m.initRamPages t l ((m.initRamPages.toNat + 1023) / 1024)
    m.initRamPages.toNat
      { m₂ with cr3 := pd - physBase, tlb := fun _ => none } :=
    ⟨⟨⟨hmap.counted.ok.pool, hmap.counted.ok.apart⟩, hmap.counted.ram, hmap.counted.nodup,
      hmap.counted.used,
      hmap.counted.aligned⟩, hmap.ram, hmap.initDir, hmap.dir, hmap.size, hmap.blank, hmap.table,
      hmap.apart, hmap.row⟩
  refine ⟨l, hpool, hmap.size, ?_⟩
  show Shows _ _ (kernelSpaces text l m₂.initPageDir m.initRamPages)
  have hS :
      kernelSpaces text l m₂.initPageDir m.initRamPages = kernelSpaces text l pd m.initRamPages := by
    rw [show m₂.initPageDir = pd from hmap.initDir]
  rw [hS]
  exact ⟨hfinal.maps hmax (by omega) (ptov_vtop pd), fun _ _ _ hno => (by cases hno),
    fun _ _ _ _ hno => (by cases hno)⟩

end CS162.Paging
