/-
# `CS162.Paging.Isolation` — address spaces in every run

`PagingRun` is about all runs after `paging_init`: calls of the allocator and of `userprog/pagedir.c` as
their callers make them, user programs and the kernel that access memory between them, and translations
that the processor drops.  With the machine goes what has become of the address spaces.

In every run the machine shows them.  So address spaces are apart and all pages are accounted for
(`paging_isolates`), the processor goes by what they say, whatever it has cached
(`paging_translates`), and no assertion fails (`paging_returns`).
-/
import CS162.Paging.KernelMap
import CS162.Paging.PallocRuns

namespace CS162.Paging

open Userprog.UserMem Wp

/-- The page tables of the machine. -/
def Machine.tables (m : Machine) : PageTables := fun pd i =>
  let pde := m.words (word pd i)
  if pde &&& pteP = 0 then 0 else ptov (pde &&& pteAddr)

/-- A directory more, with no user's page in it. -/
def Spaces.create (S : Spaces) (pd : UInt32) : Spaces :=
  { S with dirs := pd :: S.dirs, entry := Function.update S.entry pd fun _ => 0 }

inductive PagingRun (inKernelText : UInt32 → Bool) (limit : UInt32) (m₀ : Machine) : Machine → Spaces →
    Prop where
  /-- What is in use after `paging_init` is reserved. -/
  | init {m₁ m : Machine} {reserved : List UInt32} :
      pallocInit limit m₀ = .ok () m₁ → pagingInit inKernelText m₁ = .ok () m →
      reserved.Nodup → (∀ a ∈ reserved, a.toNat % 4096 = 0) →
      (∀ k, k ∈ m.used ↔ ∃ a ∈ reserved, pageOf a = k) →
      PagingRun inKernelText limit m₀ m (kernelSpaces inKernelText reserved m.initPageDir m₀.initRamPages)
  | alloc {m m' : Machine} {S : Spaces} {flags : Flags} {a : UInt32} :
      PagingRun inKernelText limit m₀ m S → pallocGetPage flags m = .ok (some a) m' →
      PagingRun inKernelText limit m₀ m' (S.hold a fun j => m'.words (word a j))
  | refuse {m m' : Machine} {S : Spaces} {flags : Flags} :
      PagingRun inKernelText limit m₀ m S → pallocGetPage flags m = .ok none m' →
      PagingRun inKernelText limit m₀ m' S
  | free {m m' : Machine} {S : Spaces} {a : UInt32} :
      PagingRun inKernelText limit m₀ m S → a ∈ S.held → pallocFreePage a m = .ok () m' →
      PagingRun inKernelText limit m₀ m' { S with held := S.held.erase a }
  | create {m m' : Machine} {S : Spaces} {r : Option UInt32} :
      PagingRun inKernelText limit m₀ m S → pagedirCreate m = .ok r m' →
      PagingRun inKernelText limit m₀ m' (r.elim S S.create)
  | destroy {m m' : Machine} {S : Spaces} {pd : UInt32} :
      PagingRun inKernelText limit m₀ m S → pd ∈ S.dirs → pd ≠ S.active →
      pagedirDestroy pd m = .ok () m' →
      PagingRun inKernelText limit m₀ m' { S with dirs := S.dirs.erase pd }
  | setPage {m m' : Machine} {S : Spaces} {pd upage kpage : UInt32} {writable r : Bool} :
      PagingRun inKernelText limit m₀ m S → pd ∈ S.dirs → upage.toNat % 4096 = 0 → upage < physBase →
      kpage ∈ S.held → S.entry pd (pageOf upage) &&& pteP = 0 →
      pagedirSetPage pd upage kpage writable m = .ok r m' →
      PagingRun inKernelText limit m₀ m' (if r then S.map pd (pageOf upage) kpage writable else S)
  | clearPage {m m' : Machine} {S : Spaces} {pd upage : UInt32} :
      PagingRun inKernelText limit m₀ m S → pd ∈ S.dirs → upage.toNat % 4096 = 0 → upage < physBase →
      pagedirClearPage pd upage m = .ok () m' →
      PagingRun inKernelText limit m₀ m'
        (if S.entry pd (pageOf upage) &&& pteP ≠ 0 then S.unmap pd (pageOf upage) else S)
  /-- `pagedir_set_dirty` and `pagedir_set_accessed`. -/
  | setFlag {m m' : Machine} {S : Spaces} {f pd v : UInt32} {value : Bool} :
      PagingRun inKernelText limit m₀ m S → f = pteD ∨ f = pteA → pd ∈ S.dirs → v < physBase →
      setFlag f pd v value m = .ok () m' →
      PagingRun inKernelText limit m₀ m' (if m.tables pd (pageOf v / 1024) = 0 then S else
        S.setEntry pd (pageOf v) (if value then S.entry pd (pageOf v) ||| f
        else S.entry pd (pageOf v) &&& ~~~ f))
  | activate {m m' : Machine} {S : Spaces} {pd : UInt32} :
      PagingRun inKernelText limit m₀ m S → pd = 0 ∨ pd ∈ S.dirs → pagedirActivate pd m = .ok () m' →
      PagingRun inKernelText limit m₀ m' { S with active := if pd = 0 then m.initPageDir else pd }
  /-- A program, or the kernel on its behalf. -/
  | access {m m' : Machine} {S : Spaces} {user : Bool} {v : UInt32} {value : Option UInt32} :
      PagingRun inKernelText limit m₀ m S → v < physBase → m.access user v value = some m' →
      PagingRun inKernelText limit m₀ m' (S.accessed v value)
  | read {m m' : Machine} {S : Spaces} {user : Bool} {v : UInt32} :
      PagingRun inKernelText limit m₀ m S → physBase ≤ v → m.access user v none = some m' →
      PagingRun inKernelText limit m₀ m' S
  | write {m m' : Machine} {S : Spaces} {user : Bool} {v w : UInt32} :
      PagingRun inKernelText limit m₀ m S → physBase ≤ v → S.Loaded (UInt32.ofNat (4096 * pageOf v)) →
      m.access user v (some w) = some m' →
      PagingRun inKernelText limit m₀ m'
      (S.setWord (UInt32.ofNat (4096 * pageOf v)) (v.toNat % 4096 / 4) w)
  | forget {m : Machine} {S : Spaces} (n : UInt32) :
      PagingRun inKernelText limit m₀ m S → PagingRun inKernelText limit m₀ (m.forget n) S

variable {text : UInt32 → Bool} {limit a b f pd v w upage kpage : UInt32} {m₀ m m' : Machine}
  {S S' : Spaces}
  {T : PageTables} {i j n : Nat} {l : List UInt32}

/-! ## The invariant -/

theorem Maps.tables_eq (h : Maps T m S) (hpd : pd ∈ S.dirs) (hi : i < 768) : m.tables pd i = T pd i := by
  unfold Machine.tables
  dsimp only
  by_cases ht : T pd i = 0
  · rw [(h.noTable pd hpd i hi ht).1, ht]
    rfl
  · obtain ⟨hp, hto⟩ := h.table pd hpd i hi ht
    rw [if_neg hp, hto]

theorem Maps.dirPages_tables (h : Maps T m S) (hpd : pd ∈ S.dirs) :
    S.dirPages m.tables pd = S.dirPages T pd := by
  unfold Spaces.dirPages
  have hslots : (List.range 768).flatMap (S.slot m.tables pd) =
      (List.range 768).flatMap (S.slot T pd) := by
    refine List.flatMap_congr fun i hi => ?_
    unfold Spaces.slot
    rw [h.tables_eq hpd (List.mem_range.mp hi)]
  rw [hslots]

theorem Maps.pages_tables (h : Maps T m S) : S.pages m.tables = S.pages T := by
  unfold Spaces.pages
  rw [List.flatMap_congr fun pd hpd => h.dirPages_tables hpd]

/-- The pages that were in use after `paging_init`. -/
theorem Shows.reserve {reserved r : List UInt32} {ram : UInt32}
    (h : Shows (fun _ _ => 0) m (kernelSpaces text r m.initPageDir ram)) (hnodup : reserved.Nodup)
    (halign : ∀ a ∈ reserved, a.toNat % 4096 = 0)
    (hused : ∀ k, k ∈ m.used ↔ ∃ a ∈ reserved, pageOf a = k) :
    Shows (fun _ _ => 0) m (kernelSpaces text reserved m.initPageDir ram) := by
  have hpages : ∀ r, (kernelSpaces text r m.initPageDir ram).pages (fun _ _ => 0) = r := fun r => by
    show r ++ [] ++ [] = r
    rw [List.append_nil, List.append_nil]
  have hcount : Counted m r := hpages r ▸ h.counted
  have hsub : r ⊆ reserved := by
    intro a ha
    obtain ⟨b, hb, hab⟩ := (hused _).mp ((hcount.used _).mpr ⟨a, ha, rfl⟩)
    obtain rfl := pageOf_inj (halign b hb) (hcount.aligned a ha) hab
    exact hb
  refine ⟨⟨by rw [hpages]; exact ⟨hcount.ok, hcount.ram, hnodup, hused, halign⟩, hsub h.initDir,
    h.initBlank,
    h.initEntry, nofun, nofun, nofun, nofun, fun i hle hlt => ?_, h.supervisor, h.direct, h.active,
    h.content⟩, h.tlb,
    h.kernelTlb⟩
  exact (h.row i hle hlt).imp id fun ⟨hp, pt, hpt, hne, hto, hrow⟩ => ⟨hp, pt, hsub hpt, hne, hto, hrow⟩

/-- After every run the machine shows the spaces.  By induction on the run, one call at a time. -/
theorem PagingRun.shows (hram : 258 ≤ m₀.initRamPages.toNat) (hmax : m₀.initRamPages.toNat < 2 ^ 18)
    (hlimit : limit ≠ 0) (h : PagingRun text limit m₀ m S) : ∃ T, Shows T m S := by
  induction h with
  | @init m₁ m reserved hpalloc hpaging hnodup halign hused =>
      have hlaid := wp_result (pallocInit_spec hram hmax hlimit) hpalloc
      obtain ⟨hok, hnone, hhas⟩ := hlaid.ok hram hmax
      have hcount : Counted m₁ [] := ⟨hok, fun u k hk => by
        rw [hlaid.ram]
        exact hhas u k hk, List.nodup_nil, fun k => by simp [hnone], nofun⟩
      obtain ⟨r, -, -, hshows⟩ := wp_result
        (pagingInit_spec hcount (by rw [hlaid.ram]; exact hmax) text) hpaging
      rw [hlaid.ram] at hshows
      exact ⟨_, hshows.reserve hnodup halign hused⟩
  | alloc _ hrun ih =>
      obtain ⟨T, hs⟩ := ih
      rcases wp_result (hs.alloc_spec _) hrun with ⟨a, ha, -, hs', -⟩ | ⟨hno, -⟩
      · obtain rfl := Option.some.inj ha
        exact ⟨T, hs'⟩
      · cases hno
  | refuse _ hrun ih =>
      obtain ⟨T, hs⟩ := ih
      rcases wp_result (hs.alloc_spec _) hrun with ⟨a, ha, -⟩ | ⟨-, rfl, -⟩
      · cases ha
      · exact ⟨T, hs⟩
  | free _ ha hrun ih =>
      obtain ⟨T, hs⟩ := ih
      exact ⟨T, wp_result (hs.free_spec ha) hrun⟩
  | create _ hrun ih =>
      obtain ⟨T, hs⟩ := ih
      rcases wp_result hs.create_spec hrun with ⟨rfl, rfl, -⟩ | ⟨pd, T', rfl, -, -, hs'⟩
      · exact ⟨T, hs⟩
      · exact ⟨T', hs'⟩
  | destroy _ hpd hactive hrun ih =>
      obtain ⟨T, hs⟩ := ih
      exact ⟨T, wp_result (hs.destroy_spec hpd hactive) hrun⟩
  | setPage _ hpd hu hv hk hfree hrun ih =>
      obtain ⟨T, hs⟩ := ih
      exact (wp_result (hs.set_spec hpd hu hv hk hfree _) hrun).2.2
  | clearPage _ hpd hu hv hrun ih =>
      obtain ⟨T, hs⟩ := ih
      exact ⟨T, wp_result (hs.clear_spec hpd hu hv) hrun⟩
  | setFlag _ hf hpd hv hrun ih =>
      obtain ⟨T, hs⟩ := ih
      rw [hs.tables_eq hpd (pageOf_user hv).2.1]
      refine ⟨T, wp_result (hs.setFlag_spec hpd hv ?_ _) hrun⟩
      rcases hf with rfl | rfl <;> decide
  | activate _ hpd hrun ih =>
      obtain ⟨T, hs⟩ := ih
      rcases hpd with rfl | hpd
      · exact ⟨T, wp_result hs.activate_init hrun⟩
      · rw [if_neg (hs.dir_ne_zero hpd)]
        exact ⟨T, wp_result (hs.activate_spec hpd) hrun⟩
  | access _ hv hm ih =>
      obtain ⟨T, hs⟩ := ih
      exact ⟨T, hs.access_user hv hm⟩
  | read _ hv hm ih =>
      obtain ⟨T, hs⟩ := ih
      exact ⟨T, hs.access_kernel_read hv hm⟩
  | write _ hv hload hm ih =>
      obtain ⟨T, hs⟩ := ih
      exact ⟨T, hs.access_kernel_write hv hload hm⟩
  | forget n _ ih =>
      obtain ⟨T, hs⟩ := ih
      exact ⟨T, hs.forget_spec n⟩

/-! ## With 4 MB of RAM -/

/-- Pages that the kernel pool has then. -/
theorem Laid.kernel_size (h : Laid fourMegabytes 0xffffffff m) :
    m.kernelPool.usedMap.bitCnt.toNat = 383 := by
  obtain ⟨kernel, user, hsum, huser, hk, -⟩ := h.split
  have hram : fourMegabytes.initRamPages.toNat = 1024 := rfl
  have hmax : (0xffffffff : UInt32).toNat = 4294967295 := rfl
  have hstart := hk.start_eq
  have hends := hk.ends
  rw [hram] at hsum huser
  rw [hmax] at huser
  omega

/-- The kernel starts, gets a page, makes a directory, and maps the page at 0x8048000. -/
theorem fourMegabytes_run : ∃ m S, PagingRun (fun _ => false) 0xffffffff fourMegabytes m S ∧
    ∃ pd ∈ S.dirs, S.entry pd 0x8048 &&& pteP ≠ 0 := by
  obtain ⟨_, m₁, hpalloc, hlaid⟩ := wp_never.mp
    (show wp (pallocInit 0xffffffff) (fun _ m => Laid fourMegabytes 0xffffffff m) never fourMegabytes from
    pallocInit_spec (by decide) (by decide) (by decide))
  obtain ⟨hok, hnone, hhas⟩ := hlaid.ok (by decide) (by decide)
  have hcount : Counted m₁ [] := ⟨hok, fun u k hk => by
    rw [hlaid.ram]
    exact hhas u k hk, List.nodup_nil, fun k => by simp [hnone], nofun⟩
  have hram : m₁.initRamPages.toNat = 1024 := congrArg UInt32.toNat hlaid.ram
  have hsize := hlaid.kernel_size
  obtain ⟨_, m₂, hpaging, r, hpool, hlen, hs⟩ := wp_never.mp
    (wp_mono (pagingInit_spec hcount (by omega) fun _ => false) (fun _ _ hr => hr) fun _ _ he => by omega)
  have hpages : (kernelSpaces (fun _ => false) r m₂.initPageDir m₁.initRamPages).pages (fun _ _ => 0) =
      r := by
    show r ++ [] ++ [] = r
    rw [List.append_nil, List.append_nil]
  have hreserved : Counted m₂ r := hpages ▸ hs.counted
  have hsmall : r.length = 2 := by omega
  have hstart := PagingRun.init hpalloc hpaging hreserved.nodup hreserved.aligned hreserved.used
  -- a page
  obtain ⟨x, m₃, halloc, hx⟩ := wp_never.mp
    (wp_mono (hs.alloc_spec ⟨false, true, false⟩) (fun _ _ hr => hr) fun _ _ he =>
    Bool.false_ne_true he.2.2)
  rcases hx with ⟨a, rfl, halike, hs₃, -⟩ | ⟨-, -, -, hno⟩
  swap
  · have hfull : m₂.kernelPool.usedMap.bitCnt.toNat ≤ r.length := hno.full fun k => (hreserved.used k).mp
    rw [hpool] at hfull
    omega
  have hcount₃ := hs₃.counted.perm (Spaces.pages_hold _ _ a _)
  rw [hpages] at hcount₃
  have hpool₃ : m₃.kernelPool.usedMap.bitCnt = m₁.kernelPool.usedMap.bitCnt :=
    (halike.size false).trans hpool
  -- a directory
  obtain ⟨x, m₄, hcreate, hx⟩ := wp_never.mp hs₃.create_spec
  rcases hx with ⟨-, -, hno⟩ | ⟨pd, T, rfl, halike₄, hused, hs₄⟩
  · have hfull : m₃.kernelPool.usedMap.bitCnt.toNat ≤ (a :: r).length := hno.full fun k =>
      (hcount₃.used k).mp
    rw [hpool₃, List.length_cons] at hfull
    omega
  -- the page in the directory
  have hpd : pd ∈ pd :: ([] : List UInt32) := List.mem_cons_self ..
  have hblank : ∀ n, Function.update (fun (_ : UInt32) (_ : Nat) => (0 : UInt32)) pd (fun _ => 0) pd n =
      0 := fun n => by
    rw [Function.update_self]
  have hzero : Function.update (fun (_ : UInt32) (_ : Nat) => (0 : UInt32)) pd (fun _ => 0) pd
      (pageOf 0x8048000) &&& pteP = 0 := by
    rw [hblank]
    rfl
  obtain ⟨ok, m₅, hset, -, hwhy, T', hs₅⟩ := wp_never.mp
    (hs₄.set_spec hpd (by decide) (by decide : (0x8048000 : UInt32) < physBase) (List.mem_cons_self ..)
    hzero true)
  have hrun := ((hstart.alloc halloc).create hcreate).setPage hpd (by decide) (by decide)
    (List.mem_cons_self ..) hzero hset
  cases ok with
  | false =>
      have hfull : m₄.kernelPool.usedMap.bitCnt.toNat ≤ (pd :: a :: r).length :=
        (hwhy rfl).full fun k hk => by
        rcases (hused k).mp hk with rfl | hk
        · exact ⟨pd, List.mem_cons_self .., rfl⟩
        · obtain ⟨b, hb, hbk⟩ := (hcount₃.used k).mp hk
          exact ⟨b, List.mem_cons_of_mem pd hb, hbk⟩
      have hpool₄ : m₄.kernelPool.usedMap.bitCnt = m₁.kernelPool.usedMap.bitCnt :=
        (halike₄.size false).trans hpool₃
      rw [hpool₄, List.length_cons, List.length_cons] at hfull
      omega
  | true =>
      refine ⟨_, _, hrun, pd, hpd, ?_⟩
      have hmem := hs₃.loaded_mem (.inl (List.mem_cons_self ..))
      have hentry := (userPte_flags (hs₃.counted.aligned a hmem) (hs₃.high hmem) true).1
      rwa [← Spaces.entry_self (n := 0x8048) (e := userPte a true)] at hentry

/-! ## Apart -/

/-- All pages in use have one owner, no frame is mapped twice, and what is in the pages that are held or
mapped is what was last written there. -/
structure Isolated (m : Machine) (S : Spaces) : Prop where
  account : ∀ k, k ∈ m.used ↔ ∃ a ∈ S.pages m.tables, pageOf a = k
  once : (S.pages m.tables).Nodup
  frames : ∀ pd ∈ S.dirs, ∀ pd' ∈ S.dirs, ∀ n < 0xC0000, ∀ n' < 0xC0000, ∀ a ∈ frameOf (S.entry pd n),
    a ∈ frameOf (S.entry pd' n') → pd = pd' ∧ n = n'
  private_ : ∀ pd ∈ S.dirs, ∀ n < 0xC0000, ∀ a ∈ frameOf (S.entry pd n),
    a ∉ S.held ∧ ¬ S.Structural m.tables a
  content : ∀ a, S.Loaded a → ∀ j < 1024, m.words (word a j) = S.content a j

theorem Maps.structural_tables (h : Maps T m S) (hb : S.Structural m.tables b) : S.Structural T b := by
  refine hb.imp_right (Or.imp_right ?_)
  rintro ⟨pd, hpd, i, hi, ht, rfl⟩
  rw [h.tables_eq hpd hi] at ht ⊢
  exact ⟨pd, hpd, i, hi, ht, rfl⟩

/-- Address spaces are apart in every run of the kernel and of its programs, which write where the
processor lets them. -/
theorem paging_isolates (hram : 258 ≤ m₀.initRamPages.toNat) (hmax : m₀.initRamPages.toNat < 2 ^ 18)
    (hlimit : limit ≠ 0) (h : PagingRun text limit m₀ m S) : Isolated m S := by
  obtain ⟨T, hs⟩ := h.shows hram hmax hlimit
  have hpages := hs.pages_tables
  refine ⟨fun k => ?_, ?_, fun pd hpd pd' hpd' n hn n' hn' a ha ha' =>
    hs.frame_unique hpd hpd' hn hn' ha ha',
    fun pd hpd n hn a ha => ⟨fun hheld => ?_, fun hb => ?_⟩, hs.content⟩
  · rw [hpages]
    exact hs.counted.used k
  · rw [hpages]
    exact hs.counted.nodup
  · obtain ⟨ht, hf⟩ := hs.frame_slot hpd hn ha
    exact (hs.held_apart hheld).2 pd hpd (Spaces.mem_dirPages.mpr (.inl ⟨n / 1024, by omega,
      Spaces.mem_slot.mpr ⟨ht, .inl hf⟩⟩))
  · exact hs.loaded_free (.inr ⟨pd, hpd, n, hn, ha⟩) (hs.structural_tables hb)

theorem paging_isolates_small : ∃ m S, PagingRun (fun _ => false) 0xffffffff fourMegabytes m S ∧
    (∃ pd ∈ S.dirs, S.entry pd 0x8048 &&& pteP ≠ 0) ∧ Isolated m S := by
  obtain ⟨m, S, hrun, hpd⟩ := fourMegabytes_run
  exact ⟨m, S, hrun, hpd, paging_isolates (by decide) (by decide) (by decide) hrun⟩

/-! ## Translations -/

/-- The tables say what the address spaces say, to the kernel and to the processor, whatever that has
cached; the kernel is in every directory, and out of reach of a program. -/
structure Translates (m : Machine) (S : Spaces) : Prop where
  gets : ∀ pd ∈ S.dirs, ∀ v < physBase, pagedirGetPage pd v m = .ok (S.page pd v) m
  flags : ∀ f, ∀ pd ∈ S.dirs, ∀ v < physBase, hasFlag f pd v m =
    .ok (decide (S.entry pd (pageOf v) &&& f ≠ 0)) m
  faults : ∀ user v value, m.access user v value = none ↔ ¬ S.Allows user v value
  goes : ∀ v, m.translate v &&& pteAddr = S.entryAt v &&& pteAddr
  reads : ∀ v < physBase, S.entry S.active (pageOf v) &&& pteP ≠ 0 →
    m.words (ptov (m.translate v &&& pteAddr) + (pgOfs v &&& ~~~ 3)) =
      S.content (ptov (S.entry S.active (pageOf v) &&& pteAddr)) (v.toNat % 4096 / 4)
  supervisor : ∀ v value, physBase ≤ v → m.access true v value = none
  kernel : ∀ pd, pd = m.initPageDir ∨ pd ∈ S.dirs → ∀ v, physBase ≤ v →
    SameMarked (m.walk pd v) (S.kernel (pageOf v))

/-- The processor and the kernel go by the address spaces in
every run: no translation that is cached is out of date. -/
theorem paging_translates (hram : 258 ≤ m₀.initRamPages.toNat) (hmax : m₀.initRamPages.toNat < 2 ^ 18)
    (hlimit : limit ≠ 0) (h : PagingRun text limit m₀ m S) : Translates m S := by
  obtain ⟨T, hs⟩ := h.shows hram hmax hlimit
  refine ⟨fun pd hpd v hv => hs.get_eq hpd hv, fun f pd hpd v hv => hs.flag_eq hpd hv, hs.access_none,
    hs.translate_flag (by decide), fun v hv hp => ?_, fun v value hv => hs.access_supervisor hv,
    fun pd hpd v hv => (hs.kernel_walk hpd hv).1⟩
  have haddr : m.translate v &&& pteAddr = S.entry S.active (pageOf v) &&& pteAddr :=
    (hs.translate_user hv).flag (by decide)
  obtain ⟨hdir, -⟩ := hs.user_places hv hp
  rw [haddr, pgOfs_word]
  refine hs.content _ (.inr ⟨S.active, hdir, pageOf v, (pageOf_user hv).1, ?_⟩) _ (by omega)
  unfold frameOf
  rw [if_neg hp]
  exact List.mem_singleton.mpr rfl

theorem paging_translates_small : ∃ m S, PagingRun (fun _ => false) 0xffffffff fourMegabytes m S ∧
    (∃ pd ∈ S.dirs, S.entry pd 0x8048 &&& pteP ≠ 0) ∧ Translates m S := by
  obtain ⟨m, S, hrun, hpd⟩ := fourMegabytes_run
  exact ⟨m, S, hrun, hpd, paging_translates (by decide) (by decide) (by decide) hrun⟩

/-! ## Calls -/

/-- Calls as the callers make them return: no assertion fails, and a function that reports that there
is no page is right.  `pagedir_destroy` gives back the pages of its directory. -/
structure Returns (m : Machine) (S : Spaces) : Prop where
  allocs : ∀ flags : Flags, flags.assert = false → ∃ r m', pallocGetPage flags m = .ok r m' ∧
    (r = none → NoRun m flags.user 1)
  frees : ∀ a ∈ S.held, ∃ m', pallocFreePage a m = .ok () m'
  creates : ∃ r m', pagedirCreate m = .ok r m' ∧ (r = none → NoRun m false 1)
  destroys : ∀ pd ∈ S.dirs, pd ≠ S.active → ∃ m', pagedirDestroy pd m = .ok () m' ∧
    ∀ k, k ∈ m'.used ↔ k ∈ m.used ∧ ∀ a ∈ S.dirPages m.tables pd, pageOf a ≠ k
  sets : ∀ pd ∈ S.dirs, ∀ upage < physBase, upage.toNat % 4096 = 0 → ∀ kpage ∈ S.held,
    S.entry pd (pageOf upage) &&& pteP = 0 → ∀ writable,
    ∃ r m', pagedirSetPage pd upage kpage writable m = .ok r m' ∧ (r = false → NoRun m false 1)
  clears : ∀ pd ∈ S.dirs, ∀ upage < physBase, upage.toNat % 4096 = 0 → ∃ m',
    pagedirClearPage pd upage m = .ok () m'
  setsFlag : ∀ pd ∈ S.dirs, ∀ v < physBase, ∀ value, (∃ m', pagedirSetDirty pd v value m = .ok () m') ∧
    ∃ m', pagedirSetAccessed pd v value m = .ok () m'
  activates : ∀ pd, pd = 0 ∨ pd ∈ S.dirs → ∃ m', pagedirActivate pd m = .ok () m'

theorem wp_returns {x : KernelM Unit} {Q : Unit → Machine → Prop} (h : wp x Q never m) : ∃ m', x m = .ok
    () m' := by
  obtain ⟨_, m', hx, -⟩ := wp_never.mp h
  exact ⟨m', hx⟩

/-- The pages of a directory are given back. -/
theorem Shows.destroy_used (h : Shows T m S) (hpd : pd ∈ S.dirs)
    (h' : Shows T m' { S with dirs := S.dirs.erase pd }) (k : Nat) :
    k ∈ m'.used ↔ k ∈ m.used ∧ ∀ a ∈ S.dirPages m.tables pd, pageOf a ≠ k := by
  have hperm := Spaces.pages_drop (T := T) hpd
  have hcount := h.counted.perm hperm
  obtain ⟨-, -, hdisj⟩ := List.nodup_append.mp hcount.nodup
  rw [h.dirPages_tables hpd, h'.counted.used, hcount.used]
  constructor
  · rintro ⟨a, ha, rfl⟩
    refine ⟨⟨a, List.mem_append_right _ ha, rfl⟩, fun b hb => ?_⟩
    exact hcount.apart (List.mem_append_left _ hb) (List.mem_append_right _ ha) (hdisj b hb a ha)
  · rintro ⟨⟨a, ha, rfl⟩, hno⟩
    rcases List.mem_append.mp ha with ha | ha
    · exact absurd rfl (hno a ha)
    · exact ⟨a, ha, rfl⟩

/-- In every run each call that is allowed returns, and
reports that there is no page only when there is none. -/
theorem paging_returns (hram : 258 ≤ m₀.initRamPages.toNat) (hmax : m₀.initRamPages.toNat < 2 ^ 18)
    (hlimit : limit ≠ 0) (h : PagingRun text limit m₀ m S) : Returns m S := by
  obtain ⟨T, hs⟩ := h.shows hram hmax hlimit
  refine ⟨fun flags hf => ?_, fun a ha => wp_returns (hs.free_spec ha), ?_, fun pd hpd hactive => ?_,
    fun pd hpd u hv hu kpage hk hfree w => ?_, fun pd hpd u hv hu => wp_returns (hs.clear_spec hpd hu hv),
    fun pd hpd v hv value => ?_, fun pd hpd => ?_⟩
  · refine wp_never.mp (wp_mono (hs.alloc_spec flags) (fun r m' hr hnone => ?_) fun _ _ he => ?_)
    · rcases hr with ⟨a, rfl, -⟩ | ⟨-, -, -, hno⟩
      · cases hnone
      · exact hno
    · exact Bool.false_ne_true (hf.symm.trans he.2.2)
  · refine wp_never.mp (wp_mono hs.create_spec (fun r m' hr hnone => ?_) fun _ _ he => he)
    rcases hr with ⟨-, -, hno⟩ | ⟨pd, T', rfl, -⟩
    · exact hno
    · cases hnone
  · obtain ⟨_, m', hrun, hs'⟩ := wp_never.mp (hs.destroy_spec hpd hactive)
    exact ⟨m', hrun, hs.destroy_used hpd hs'⟩
  · exact wp_never.mp (wp_mono (hs.set_spec hpd hu hv hk hfree w) (fun _ _ hr => hr.2.1) fun _ _ he => he)
  · exact ⟨wp_returns (hs.setFlag_spec hpd hv (by decide) value),
      wp_returns (hs.setFlag_spec hpd hv (by decide) value)⟩
  · rcases hpd with rfl | hpd
    · exact wp_returns hs.activate_init
    · exact wp_returns (hs.activate_spec hpd)

theorem paging_returns_small : ∃ m S, PagingRun (fun _ => false) 0xffffffff fourMegabytes m S ∧
    (∃ pd ∈ S.dirs, S.entry pd 0x8048 &&& pteP ≠ 0) ∧ Returns m S := by
  obtain ⟨m, S, hrun, hpd⟩ := fourMegabytes_run
  exact ⟨m, S, hrun, hpd, paging_returns (by decide) (by decide) (by decide) hrun⟩

end CS162.Paging
