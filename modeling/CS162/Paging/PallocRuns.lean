/-
# `CS162.Paging.PallocRuns` — the page allocator in every run

`PallocRun` is about all runs of the calls of `threads/palloc.c` after `palloc_init`, with the blocks of
pages that are handed out and not given back.

In every run those are apart, and together they are what the bitmaps say is in use: no page is handed out
twice, and none is lost (`palloc_keeps_account`).
-/
import CS162.Lib.Holdings
import CS162.Paging.Palloc

namespace CS162.Paging

open Userprog.UserMem Wp

/-! ## Runs -/

/-- Calls of the allocator after `palloc_init`, with what is handed out; only that is given back, and
its owners write in it. -/
inductive PallocRun (m₀ : Machine) (limit : UInt32) : Machine → List (UInt32 × UInt32) → Prop where
  | init {m : Machine} : pallocInit limit m₀ = .ok () m → PallocRun m₀ limit m []
  | get {m m' : Machine} {live : List (UInt32 × UInt32)} {flags : Flags} {cnt pages : UInt32} :
      PallocRun m₀ limit m live → pallocGetMultiple flags cnt m = .ok (some pages) m' →
      PallocRun m₀ limit m' ((pages, cnt) :: live)
  | refuse {m m' : Machine} {live : List (UInt32 × UInt32)} {flags : Flags} {cnt : UInt32} :
      PallocRun m₀ limit m live → pallocGetMultiple flags cnt m = .ok none m' → PallocRun m₀ limit m' live
  | free {m m' : Machine} {live : List (UInt32 × UInt32)} {run : UInt32 × UInt32} :
      PallocRun m₀ limit m live → run ∈ live → pallocFreeMultiple run.1 run.2 m = .ok () m' →
      PallocRun m₀ limit m' (live.erase run)
  | write {m : Machine} {live : List (UInt32 × UInt32)} {run : UInt32 × UInt32} {words : UInt32 →
      UInt32} :
      PallocRun m₀ limit m live → run ∈ live →
      (∀ a, a.toNat / 4096 ∉ block run.1 run.2 → words a = m.words a) →
      PallocRun m₀ limit { m with words := words } live

/-- The sets of pages that are handed out. -/
def blocks (live : List (UInt32 × UInt32)) : List (Set Nat) := live.map fun run => block run.1 run.2

/-- The invariant of the runs. -/
structure Accounts (m₀ m : Machine) (live : List (UInt32 × UInt32)) : Prop where
  ok : m.Ok
  ram : ∀ user k, (m.pool user).Has k → 0xC0100 ≤ k ∧ k < 0xC0000 + m₀.initRamPages.toNat
  holds : Holdings m.used (blocks live)
  run : ∀ run ∈ live, run.2 ≠ 0 ∧ run.1.toNat % 4096 = 0 ∧ 0 < run.1.toNat ∧
    ∃ user, ∀ k ∈ block run.1 run.2, (m.pool user).Has k

variable {m₀ : Machine} {limit : UInt32} {live : List (UInt32 × UInt32)} {flags : Flags}

theorem blocks_erase {run : UInt32 × UInt32} (hrun : run ∈ live) :
    (blocks live).Perm (block run.1 run.2 :: blocks (live.erase run)) :=
  (List.perm_cons_erase hrun).map _

theorem Accounts.got (h : Accounts m₀ m live) (hcnt : cnt ≠ 0) (hg : Got m flags cnt pages m') :
    Accounts m₀ m' ((pages, cnt) :: live) := by
  have hhas := hg.alike.has
  refine ⟨hg.alike.ok h.ok, fun u k hk => h.ram u k ((hhas u k).mp hk),
    h.holds.take (hg.fresh h.ok) hg.used,
    List.forall_mem_cons.mpr ⟨⟨hcnt, hg.aligned, hg.low, flags.user, fun k hk => ?_⟩, fun run hrun => ?_⟩⟩
  · exact (hhas _ k).mpr (hg.has k hk).1
  · obtain ⟨h1, h2, h3, user, h4⟩ := h.run run hrun
    exact ⟨h1, h2, h3, user, fun k hk => (hhas user k).mpr (h4 k hk)⟩

theorem Accounts.freed (h : Accounts m₀ m live) {run : UInt32 × UInt32} (hrun : run ∈ live)
    (hf : Freed m run.1 run.2 m') : Accounts m₀ m' (live.erase run) := by
  have hhas := hf.alike.has
  refine ⟨hf.alike.ok h.ok, fun u k hk => h.ram u k ((hhas u k).mp hk),
    (h.holds.perm (blocks_erase hrun)).give hf.used, fun r hr => ?_⟩
  obtain ⟨h1, h2, h3, user, h4⟩ := h.run r (List.mem_of_mem_erase hr)
  exact ⟨h1, h2, h3, user, fun k hk => (hhas user k).mpr (h4 k hk)⟩

/-- Any block that is out can be given back. -/
theorem Accounts.free_spec (h : Accounts m₀ m live) {run : UInt32 × UInt32} (hrun : run ∈ live) :
    wp (pallocFreeMultiple run.1 run.2) (fun _ m' => Freed m run.1 run.2 m') never m := by
  obtain ⟨hcnt, halign, hlow, user, hhas⟩ := h.run run hrun
  exact pallocFreeMultiple_spec h.ok hcnt halign hlow hhas
    (h.holds.sub (List.mem_map_of_mem (f := fun run => block run.1 run.2) hrun))

/-- After every run the pages in use are those that were given out and not freed. -/
theorem PallocRun.accounts (hram : 258 ≤ m₀.initRamPages.toNat) (hmax : m₀.initRamPages.toNat < 2 ^ 18)
    (hlimit : limit ≠ 0) (h : PallocRun m₀ limit m live) : Accounts m₀ m live := by
  induction h with
  | init hrun =>
      obtain ⟨hok, hused, hhas⟩ := (wp_result (pallocInit_spec hram hmax hlimit) hrun).ok hram hmax
      refine ⟨hok, hhas, ?_, fun _ hno => absurd hno List.not_mem_nil⟩
      rw [hused]
      exact Holdings.nil
  | get _ hrun ih =>
      rcases wp_result (pallocGetMultiple_spec ih.ok _ _) hrun with ⟨pages, hp, hcnt, hg⟩ | ⟨hno, -⟩
      · obtain rfl := Option.some.inj hp
        exact ih.got hcnt hg
      · cases hno
  | refuse _ hrun ih =>
      rcases wp_result (pallocGetMultiple_spec ih.ok _ _) hrun with ⟨pages, hp, -⟩ | ⟨-, rfl, -⟩
      · cases hp
      · exact ih
  | free _ hmem hrun ih =>
      have hf := wp_result (ih.free_spec hmem) hrun
      exact ih.freed hmem hf
  | write _ _ _ ih => exact ⟨⟨ih.ok.pool, ih.ok.apart⟩, ih.ram, ih.holds, ih.run⟩

/-- What the page allocator is to do: the pages that it hands out are free pages of the right pool and of
RAM, and the others keep what is in them; pages that are given back are free again. -/
structure PageAllocator (m₀ m : Machine) (live : List (UInt32 × UInt32)) : Prop where
  holds : Holdings m.used (blocks live)
  ram : ∀ run ∈ live, ∀ k ∈ block run.1 run.2, 0xC0100 ≤ k ∧ k < 0xC0000 + m₀.initRamPages.toNat
  gets : ∀ flags cnt, cnt ≠ 0 → (∃ k, (m.pool flags.user).FreeRun cnt.toNat k) →
    ∃ pages m', pallocGetMultiple flags cnt m = .ok (some pages) m' ∧ pages.toNat % 4096 = 0 ∧
      IsLeast {k | (m.pool flags.user).FreeRun cnt.toNat k} (pages.toNat / 4096) ∧
      Disjoint (block pages cnt) m.used ∧
      ∀ a, m'.words a = if flags.zero = true ∧ a.toNat / 4096 ∈ block pages cnt then 0 else m.words a
  refuses : ∀ flags cnt, cnt = 0 ∨ NoRun m flags.user cnt →
    pallocGetMultiple flags cnt m =
      if cnt ≠ 0 ∧ flags.assert = true then .error .outOfPages m else .ok none m
  frees : ∀ run ∈ live, ∃ m', pallocFreeMultiple run.1 run.2 m = .ok () m' ∧
    (∀ k, k ∈ m'.used ↔ k ∈ m.used ∧ k ∉ block run.1 run.2) ∧
    ∀ a, a.toNat / 4096 ∉ block run.1 run.2 → m'.words a = m.words a

/-- The page allocator does that in every run, from `palloc_init` on, whatever runs of pages are asked
for, written to and given back. -/
theorem palloc_keeps_account (hram : 258 ≤ m₀.initRamPages.toNat) (hmax : m₀.initRamPages.toNat < 2 ^ 18)
    (hlimit : limit ≠ 0) (h : PallocRun m₀ limit m live) : PageAllocator m₀ m live := by
  have ha := h.accounts hram hmax hlimit
  refine ⟨ha.holds, fun run hrun k hk => ?_, fun flags cnt hcnt hrun => ?_, fun flags cnt hno => ?_,
    fun run hrun => ?_⟩
  · obtain ⟨-, -, -, user, hhas⟩ := ha.run run hrun
    exact ha.ram user k (hhas k hk)
  · have hspec := pallocGetMultiple_spec ha.ok flags cnt
    unfold wp at hspec
    cases hx : pallocGetMultiple flags cnt m with
    | error e m' =>
        rw [hx] at hspec
        exact absurd hrun hspec.2.2.2
    | ok r m' =>
        rw [hx] at hspec
        rcases hspec with ⟨pages, rfl, -, hg⟩ | ⟨-, -, hzero | ⟨hno, -⟩⟩
        · exact ⟨pages, m', rfl, hg.aligned, hg.least, hg.fresh ha.ok, hg.words_eq ha.ok hcnt⟩
        · exact absurd hzero hcnt
        · exact absurd hrun hno
  · have hspec := pallocGetMultiple_spec ha.ok flags cnt
    unfold wp at hspec
    cases hx : pallocGetMultiple flags cnt m with
    | error e m' =>
        rw [hx] at hspec
        obtain ⟨rfl, rfl, hassert, -⟩ := hspec
        have hcnt : cnt ≠ 0 := by
          intro hzero
          rw [hzero] at hx
          cases hx
        rw [if_pos ⟨hcnt, hassert⟩]
    | ok r m' =>
        rw [hx] at hspec
        rcases hspec with ⟨pages, rfl, hcnt, hg⟩ | ⟨rfl, rfl, hor⟩
        · exact absurd ⟨_, hg.least.1⟩ (hno.resolve_left hcnt)
        · rw [if_neg]
          rintro ⟨hcnt, hassert⟩
          exact absurd (hassert.symm.trans (hor.resolve_left hcnt).2) (by decide)
  · obtain ⟨_, m', hx, hf⟩ := wp_never.mp (ha.free_spec hrun)
    obtain ⟨hcnt, halign, hlow, user, hhas⟩ := ha.run run hrun
    refine ⟨m', hx, hf.used, fun a hout => ?_⟩
    have hpos := toNat_pos hcnt
    have hfits : run.1.toNat + 4096 * run.2.toNat ≤ 2 ^ 32 := by
      have hlast := (hhas (run.1.toNat / 4096 + run.2.toNat - 1) ⟨by omega, by omega⟩).2
      have hpool := (ha.ok.pool user).fits
      have hbase := (ha.ok.pool user).aligned
      unfold Pool.start at hlast
      omega
    rw [hf.words, fill_words halign hlow hfits]
    exact if_neg hout

/-- A machine with 4 MB of RAM, at the start. -/
def fourMegabytes : Machine where
  kernelPool := ⟨⟨0, [], by decide, rfl⟩, 0⟩
  userPool := ⟨⟨0, [], by decide, rfl⟩, 0⟩
  words _ := 0
  initRamPages := 1024
  initPageDir := 0
  cr3 := 0
  tlb _ := none

/-- 100 pages may be the user's. -/
def smallPools : Machine := afterCall (pallocInit 100) fourMegabytes

/-- Three pages of the kernel's have been handed out, and two of the user's. -/
def threePages : Machine := afterCall (pallocGetMultiple ⟨false, true, false⟩ 3) smallPools

def fivePages : Machine := afterCall (pallocGetMultiple ⟨false, false, true⟩ 2) threePages

/-- A word of the three has been written. -/
def writtenPages : Machine :=
  { fivePages with words := fun a => if a = 0xC0101000 then 7 else fivePages.words a }

/-- The three have been given back. -/
def twoPages : Machine := afterCall (pallocFreeMultiple 0xC0101000 3) writtenPages

/-- A hundred pages for the user are refused, and the first of the three is handed out again, empty. -/
theorem palloc_keeps_account_small : ∃ m,
    pallocGetMultiple ⟨false, false, true⟩ 100 writtenPages = .ok none writtenPages ∧
    pallocGetMultiple ⟨false, true, false⟩ 1 twoPages = .ok (some 0xC0101000) m ∧
    writtenPages.words 0xC0101000 = 7 ∧ m.words 0xC0101000 = 0 ∧
    PageAllocator fourMegabytes m [(0xC0101000, 1), (0xC039D000, 2)] := by
  have hram : 258 ≤ fourMegabytes.initRamPages.toNat := by decide
  have hmax : fourMegabytes.initRamPages.toNat < 2 ^ 18 := by decide
  have hinit : PallocRun fourMegabytes 100 smallPools [] :=
    .init (run_of_returnedValue (by decide +kernel))
  have hthree : PallocRun fourMegabytes 100 threePages [(0xC0101000, 3)] :=
    .get hinit (run_of_returnedValue (by decide +kernel))
  have hfive : PallocRun fourMegabytes 100 fivePages [(0xC039D000, 2), (0xC0101000, 3)] :=
    .get hthree (run_of_returnedValue (by decide +kernel))
  have hwritten : PallocRun fourMegabytes 100 writtenPages [(0xC039D000, 2), (0xC0101000, 3)] := by
    refine .write hfive (.tail _ (.head _)) fun a ha => if_neg ?_
    rintro rfl
    exact ha (by decide)
  have hrefuse : pallocGetMultiple ⟨false, false, true⟩ 100 writtenPages = .ok none writtenPages := by
    have hrun : pallocGetMultiple ⟨false, false, true⟩ 100 writtenPages = .ok none _ :=
      run_of_returnedValue (by decide +kernel)
    have hok := (hwritten.accounts hram hmax (by decide)).ok
    rcases wp_result (pallocGetMultiple_spec hok _ _) hrun with ⟨pages, hno, -⟩ | ⟨-, hsame, -⟩
    · cases hno
    · rw [hrun, hsame]
  have htwo : PallocRun fourMegabytes 100 twoPages [(0xC039D000, 2)] :=
    .free (.refuse hwritten hrefuse) (.tail _ (.head _)) (run_of_returnedValue (by decide +kernel))
  have hget : pallocGetMultiple ⟨false, true, false⟩ 1 twoPages = .ok (some 0xC0101000) _ :=
    run_of_returnedValue (by decide +kernel)
  exact ⟨_, hrefuse, hget, rfl, by decide +kernel,
    palloc_keeps_account hram hmax (by decide) (.get htwo hget)⟩

end CS162.Paging
