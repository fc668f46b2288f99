/-
# `CS162.Paging.Calls` — the functions of `userprog/pagedir.c` on address spaces

One specification for each function, as its callers see it: what it does to the address spaces that the
machine shows, and what it returns.
-/
import CS162.Paging.Changes

namespace CS162.Paging

open Userprog.UserMem Wp

variable {T T' : PageTables} {m m' : Machine} {S S' : Spaces} {a b e f pd v w upage kpage : UInt32}
  {flags : Flags} {i j n : Nat} {create writable : Bool}

namespace Spaces

variable (S : Spaces)

/-- `pagedir_get_page`, of address spaces. -/
def page (pd v : UInt32) : Option UInt32 :=
  let e := S.entry pd (pageOf v)
  if e &&& pteP = 0 then none else some (ptov (e &&& pteAddr) + pgOfs v)

/-- A frame is entered for a page. -/
def map (pd : UInt32) (n : Nat) (kpage : UInt32) (writable : Bool) : Spaces :=
  { S.setEntry pd n (userPte kpage writable) with held := S.held.erase kpage }

/-- The frame of a page is no longer mapped; it is held now. -/
def unmap (pd : UInt32) (n : Nat) : Spaces :=
  { S.setEntry pd n (S.entry pd n &&& ~~~ pteP) with held := frameOf (S.entry pd n) ++ S.held }

end Spaces

/-! ## The allocator -/

/-- Pages are got and given back with the address spaces as they are. -/
theorem Shows.of_maps (h : Shows T m S) (hm : Maps T' m' S') (htlb : m'.tlb = m.tlb)
    (he : S'.active = S.active)
    (hentry : S'.entry S.active = S.entry S.active) (hk : S'.kernel = S.kernel) : Shows T' m' S' :=
  ⟨hm, fun n hn e hn' => by
    rw [he, hentry]
    exact h.tlb n hn e (htlb ▸ hn'), fun n hle hlt e hn' => hk ▸ h.kernelTlb n hle hlt e (htlb ▸ hn')⟩

/-- `palloc_get_page`. -/
theorem Shows.alloc_spec (h : Shows T m S) (flags : Flags) :
    wp (pallocGetPage flags)
      (fun r m' => (∃ a, r = some a ∧ m.Alike m' ∧ Shows T m' (S.hold a fun j => m'.words (word a j)) ∧
          (flags.zero = true → ∀ j < 1024, m'.words (word a j) = 0)) ∨
        r = none ∧ m' = m ∧ flags.assert = false ∧ NoRun m flags.user 1)
      (fun e m' => e = .outOfPages ∧ m' = m ∧ flags.assert = true) m := by
  refine wp_mono (pallocGetMultiple_spec h.counted.ok flags 1) (fun r m' hr => ?_) fun e m' he =>
    ⟨he.1, he.2.1, he.2.2.1⟩
  rcases hr with ⟨a, hra, -, hg⟩ | ⟨hnone, hm, hor⟩
  · refine .inl ⟨a, hra, hg.alike, ?_, fun hz j hj => ?_⟩
    · obtain ⟨hcount, hfresh⟩ := h.counted.got hg
      refine h.of_maps (h.toMaps.kept hg.alike rfl (fun _ hpd => hpd) rfl rfl rfl h.active.2
        (hcount.perm (Spaces.pages_hold S T a _).symm) (fun b hb i hi => ?_) fun b hb j hj => ?_)
        hg.alike.tlb rfl rfl rfl
      · have hmem : b ∈ S.pages T := Spaces.structural_mem hb
        exact hg.others h.counted.ok (h.counted.aligned b hmem) (hfresh b hmem) hi
      · show _ = Function.update S.content a _ b j
        by_cases hba : b = a
        · rw [hba, Function.update_self]
        · have hold : S.Loaded b := hb.imp_left fun hb => (List.mem_cons.mp hb).resolve_left hba
          have hmem := h.loaded_mem hold
          rw [Function.update_of_ne hba,
            hg.others h.counted.ok (h.counted.aligned b hmem) (hfresh b hmem) hj]
          exact h.content b hold j hj
    · rw [hg.words_eq h.counted.ok (by decide)]
      exact if_pos ⟨hz, mem_block_one.mpr (word_page hg.aligned hj)⟩
  · obtain ⟨hno, hassert⟩ := hor.resolve_left (by decide)
    exact .inr ⟨hnone, hm, hassert, hno⟩

/-- `palloc_free_page`, by who holds the page. -/
theorem Shows.free_spec (h : Shows T m S) (ha : a ∈ S.held) :
    wp (pallocFreePage a) (fun _ m' => Shows T m' { S with held := S.held.erase a }) never m := by
  have hleft : Left m (a :: { S with held := S.held.erase a }.pages T) m :=
    (Left.refl h.counted).perm (Spaces.pages_erase ha)
  refine wp_mono hleft.free_spec (fun _ m' hl => ?_) fun _ _ he => he
  exact h.of_maps (h.toMaps.left hl rfl (fun b hb => List.mem_of_mem_erase hb) (fun _ hpd =>
    hpd) rfl rfl rfl
    rfl h.active.2) hl.alike.tlb rfl rfl rfl

/-! ## Looking up -/

namespace Maps

variable (h : Maps T m S)

include h

theorem pte_word (hpd : pd ∈ S.dirs) (hv : v < physBase) (ht : T pd (pageOf v / 1024) ≠ 0) :
    m.words (word (T pd (pageOf v / 1024)) (pageOf v % 1024)) = S.entry pd (pageOf v) := by
  obtain ⟨-, hi, hsplit⟩ := pageOf_user hv
  rw [h.pte pd hpd _ hi ht _ (Nat.mod_lt _ (by decide)), hsplit]

theorem no_entry (hpd : pd ∈ S.dirs) (hv : v < physBase) (ht : T pd (pageOf v / 1024) = 0) :
    S.entry pd (pageOf v) = 0 := by
  obtain ⟨-, hi, hsplit⟩ := pageOf_user hv
  have hblank := (h.noTable pd hpd _ hi ht).2 (pageOf v % 1024) (Nat.mod_lt _ (by decide))
  rwa [hsplit] at hblank

/-- The frame of an entry that is present. -/
theorem frame_high (hpd : pd ∈ S.dirs) (hn : n < 0xC0000) (hp : S.entry pd n &&& pteP ≠ 0) :
    ptov (S.entry pd n &&& pteAddr) ∈ S.pages T ∧ 0xC0000 ≤ pageOf (ptov (S.entry pd n &&& pteAddr)) := by
  have hmem : ptov (S.entry pd n &&& pteAddr) ∈ frameOf (S.entry pd n) := by
    unfold frameOf
    rw [if_neg hp]
    exact List.mem_singleton.mpr rfl
  have hpage := h.loaded_mem (.inr ⟨pd, hpd, n, hn, hmem⟩)
  exact ⟨hpage, h.high hpage⟩

/-- The end of `lookup_page`. -/
theorem wp_entryOf {Q : Option UInt32 → Machine → Prop} {E : Panic → Machine → Prop} (hpd : pd ∈ S.dirs)
    (hv : v < physBase) (ht : T pd (pageOf v / 1024) ≠ 0)
    (hQ : Q (some (word (T pd (pageOf v / 1024)) (pageOf v % 1024))) m) :
    wp (entryOf (word pd (pageOf v / 1024)) v) Q E m := by
  obtain ⟨-, hi, -⟩ := pageOf_user hv
  obtain ⟨hp, hpt⟩ := h.table pd hpd _ hi ht
  refine wp_bind.mpr (wp_load (wp_bind.mpr (wp_pdeGetPt hp ?_ ?_)))
  · rw [hpt]
    exact h.high (Spaces.structural_mem (Spaces.structural_table hpd hi ht))
  · rw [hpt, table_word]
    exact hQ

/-- `lookup_page`, where there is a table. -/
theorem wp_lookup {Q : Option UInt32 → Machine → Prop} {E : Panic → Machine → Prop} (hpd : pd ∈ S.dirs)
    (hv : v < physBase) (ht : T pd (pageOf v / 1024) ≠ 0)
    (hQ : Q (some (word (T pd (pageOf v / 1024)) (pageOf v % 1024))) m) :
    wp (lookupPage pd v create) Q E m := by
  obtain ⟨-, hi, -⟩ := pageOf_user hv
  have hne : m.words (word pd (pageOf v / 1024)) ≠ 0 := fun hzero => by
    have hp := (h.table pd hpd _ hi ht).1
    rw [hzero] at hp
    exact hp rfl
  unfold lookupPage
  rw [if_neg fun hno => hno.elim (h.dir_ne_zero hpd) fun hno => hno.2 hv, dir_word]
  refine wp_bind.mpr (wp_load ?_)
  rw [if_neg hne]
  exact h.wp_entryOf hpd hv ht hQ

/-- `lookup_page`, where there is none and none is to be made. -/
theorem wp_lookup_none {Q : Option UInt32 → Machine → Prop} {E : Panic → Machine → Prop}
    (hpd : pd ∈ S.dirs)
    (hv : v < physBase) (ht : T pd (pageOf v / 1024) = 0) (hQ : Q none m) :
    wp (lookupPage pd v false) Q E m := by
  obtain ⟨-, hi, -⟩ := pageOf_user hv
  unfold lookupPage
  rw [if_neg fun hno => hno.elim (h.dir_ne_zero hpd) fun hno => Bool.false_ne_true hno.1, dir_word]
  refine wp_bind.mpr (wp_load ?_)
  rw [if_pos (h.noTable pd hpd _ hi ht).1]
  exact hQ

/-- A function that looks at the entry of a page, if there is one. -/
theorem wp_look {α : Type} {Q : α → Machine → Prop} {E : Panic → Machine → Prop}
    {k : Option UInt32 → KernelM α}
    (hpd : pd ∈ S.dirs) (hv : v < physBase)
    (hnone : T pd (pageOf v / 1024) = 0 → S.entry pd (pageOf v) = 0 → wp (k none) Q E m)
    (hsome : ∀ pte, T pd (pageOf v / 1024) ≠ 0 → pte = word (T pd (pageOf v / 1024)) (pageOf v % 1024) →
      m.words pte = S.entry pd (pageOf v) → wp (k (some pte)) Q E m) :
    wp (lookupPage pd v false >>= k) Q E m := by
  refine wp_bind.mpr ?_
  by_cases ht : T pd (pageOf v / 1024) = 0
  · exact h.wp_lookup_none hpd hv ht (hnone ht (h.no_entry hpd hv ht))
  · exact h.wp_lookup hpd hv ht (hsome _ ht rfl (h.pte_word hpd hv ht))

end Maps

theorem wp_eq {α : Type} {x : KernelM α} {r : α} (h : wp x (fun r' m' => r' = r ∧ m' = m) never m) :
    x m = .ok r m := by
  obtain ⟨r', m', hx, rfl, rfl⟩ := wp_never.mp h
  exact hx

/-- `pagedir_get_page`. -/
theorem Maps.get_eq (h : Maps T m S) (hpd : pd ∈ S.dirs) (hv : v < physBase) :
    pagedirGetPage pd v m = .ok (S.page pd v) m := by
  refine wp_eq ?_
  unfold pagedirGetPage Spaces.page
  rw [if_neg (not_not_intro hv)]
  refine h.wp_look hpd hv (fun _ hzero => ?_) fun pte ht _ he => ?_
  · rw [hzero]
    exact ⟨rfl, rfl⟩
  · refine wp_bind.mpr (wp_load ?_)
    rw [he]
    refine wp_ite (fun hp => ?_) fun hno => ?_
    · refine wp_bind.mpr (wp_ptov (h.frame_high hpd (pageOf_user hv).1 hp).2 ⟨?_, rfl⟩)
      rw [if_neg hp]
    · exact ⟨(if_pos (not_not.mp hno)).symm, rfl⟩

/-- `pagedir_is_dirty` and `pagedir_is_accessed`. -/
theorem Maps.flag_eq (h : Maps T m S) (hpd : pd ∈ S.dirs) (hv : v < physBase) :
    hasFlag f pd v m = .ok (decide (S.entry pd (pageOf v) &&& f ≠ 0)) m := by
  refine wp_eq ?_
  unfold hasFlag
  refine h.wp_look hpd hv (fun _ hzero => ?_) fun pte ht _ he => ?_
  · rw [hzero, UInt32.zero_and]
    exact ⟨rfl, rfl⟩
  · refine wp_bind.mpr (wp_load ?_)
    rw [he]
    exact ⟨rfl, rfl⟩

/-! ## Mapping -/

/-- `pde_create`. -/
theorem wp_pdeCreate {Q : UInt32 → Machine → Prop} {E : Panic → Machine → Prop} (ha : a.toNat % 4096 = 0)
    (hhigh : 0xC0000 ≤ pageOf a) (hQ : ∀ e, e &&& pteP ≠ 0 → ptov (e &&& pteAddr) = a → Q e m) :
    wp (pdeCreate a) Q E m := by
  have hval := toNat_vtop hhigh
  have hfold : a - physBase ||| pteU ||| pteP ||| pteW = a - physBase ||| (pteU ||| pteP ||| pteW) := by
    rw [UInt32.or_assoc, UInt32.or_assoc, UInt32.or_assoc]
  have haddr : (a - physBase).toNat % 4096 = 0 := by omega
  unfold pdeCreate
  rw [if_neg (not_not_intro (pgOfs_eq_zero ha))]
  refine wp_bind.mpr (wp_vtop hhigh (hQ _ ?_ ?_))
  · rw [hfold, or_and, show (pteU ||| pteP ||| pteW) &&& pteP = pteP by decide]
    exact or_ne_zero (by decide)
  · rw [hfold, and_addr haddr (by decide), ptov_vtop]

/-- `lookup_page`, where a table is made if there is none. -/
theorem Shows.lookup_create (h : Shows T m S) (hpd : pd ∈ S.dirs) (hv : v < physBase) :
    wp (lookupPage pd v true)
      (fun r m' => m.Alike m' ∧ (r = none ∧ m' = m ∧ NoRun m false 1 ∨ ∃ T', Shows T' m' S ∧
      T' pd (pageOf v / 1024) ≠ 0 ∧
        r = some (word (T' pd (pageOf v / 1024)) (pageOf v % 1024)))) never m := by
  obtain ⟨-, hi, -⟩ := pageOf_user hv
  by_cases ht : T pd (pageOf v / 1024) = 0
  · unfold lookupPage
    rw [if_neg fun hno => hno.elim (h.dir_ne_zero hpd) fun hno => hno.2 hv, dir_word]
    refine wp_bind.mpr (wp_load ?_)
    rw [if_pos (h.noTable pd hpd _ hi ht).1, if_pos rfl]
    refine wp_seq (wp_mono (h.alloc_spec _) (fun _ _ hr => hr) fun _ _ he =>
      Bool.false_ne_true he.2.2) fun r m' hr => ?_
    rcases hr with ⟨a, rfl, halike, hs, hzero⟩ | ⟨rfl, rfl, -, hno⟩
    · have hmem := hs.loaded_mem (.inl (List.mem_cons_self ..))
      have hane : a ≠ 0 := by
        rintro rfl
        exact absurd (hs.high hmem) (by decide)
      refine wp_bind.mpr (wp_pdeCreate (hs.counted.aligned a hmem) (hs.high hmem) fun e hp hpt => ?_)
      refine wp_bind.mpr (wp_store ?_)
      have hinst := hs.toMaps.installed hpd hi ht (hzero rfl) hp hpt
      have hnew : Function.update T pd (Function.update (T pd) (pageOf v / 1024) a) pd
        (pageOf v / 1024) = a := by
        rw [Function.update_self, Function.update_self]
      refine hinst.wp_entryOf hpd hv (by rwa [hnew]) ⟨halike.trans (alike_put ..),
        .inr ⟨_, ?_, by rwa [hnew], rfl⟩⟩
      exact hs.of_maps hinst rfl rfl rfl rfl
    · exact ⟨.refl _, .inl ⟨rfl, rfl, hno⟩⟩
  · exact h.wp_lookup hpd hv ht ⟨.refl m, .inr ⟨T, h, ht, rfl⟩⟩

/-- A user entry is present, and names the frame it was made for. -/
theorem userPte_flags (hk : kpage.toNat % 4096 = 0) (hhigh : 0xC0000 ≤ pageOf kpage) (writable : Bool) :
    userPte kpage writable &&& pteP ≠ 0 ∧ frameOf (userPte kpage writable) = [kpage] := by
  have hval := toNat_vtop hhigh
  have hfold : userPte kpage writable = kpage - physBase |||
    (pteP ||| (if writable then pteW else 0) ||| pteU) := by
    unfold userPte
    rw [UInt32.or_assoc, UInt32.or_assoc, UInt32.or_assoc]
  have hp : userPte kpage writable &&& pteP ≠ 0 := by
    rw [hfold, or_and]
    have hflag : (pteP ||| (if writable then pteW else 0) ||| pteU) &&& pteP = pteP :=
      by cases writable <;> decide
    rw [hflag]
    exact or_ne_zero (by decide)
  refine ⟨hp, ?_⟩
  unfold frameOf
  rw [if_neg hp, hfold, and_addr (by omega) (by cases writable <;> decide), ptov_vtop]

/-- Where nothing is mapped nothing is cached. -/
theorem Shows.not_cached (h : Shows T m S) (hn : n < 0xC0000) (hp : S.entry S.active n &&& pteP = 0) :
    m.tlb (UInt32.ofNat n) = none := by
  cases hc : m.tlb (UInt32.ofNat n) with
  | none => rfl
  | some e =>
      obtain ⟨hpres, hcached⟩ := h.tlb n hn e hc
      exact absurd ((hcached.flag (by decide)).trans hp) hpres

/-- A change of one entry is no change of the others. -/
theorem Spaces.entry_other {S : Spaces} {pd' : UInt32} {n' : Nat} (h : ¬ (pd' = pd ∧ n' = n)) :
    (S.setEntry pd n e).entry pd' n' = S.entry pd' n' := by
  show Function.update S.entry pd _ pd' n' = _
  by_cases hpd' : pd' = pd
  · rw [hpd', Function.update_self, Function.update_of_ne fun hn => h ⟨hpd', hn⟩]
  · rw [Function.update_of_ne hpd']

theorem Spaces.entry_self {S : Spaces} : (S.setEntry pd n e).entry pd n = e := by
  show Function.update S.entry pd _ pd n = e
  rw [Function.update_self, Function.update_self]

/-- Only one entry changes, and no frames but those that are held before or after it. -/
theorem Spaces.loaded_entry {S : Spaces} {held : List UInt32}
    (hframe : ∀ b ∈ frameOf e, S.Loaded b) (hheld : ∀ b ∈ held, S.Loaded b) :
    ∀ b, { S.setEntry pd n e with held := held }.Loaded b → S.Loaded b := by
  rintro b (hb | ⟨pd', hpd', n', hn', hb⟩)
  · exact hheld b hb
  · replace hb : b ∈ frameOf ((S.setEntry pd n e).entry pd' n') := hb
    by_cases heq : pd' = pd ∧ n' = n
    · rw [heq.1, heq.2, entry_self] at hb
      exact hframe b hb
    · rw [entry_other heq] at hb
      exact .inr ⟨pd', hpd', n', hn', hb⟩

/-- `pagedir_set_page`: the page is mapped to the frame, or there is no page for a table. -/
theorem Shows.set_spec (h : Shows T m S) (hpd : pd ∈ S.dirs) (hu : upage.toNat % 4096 = 0)
    (hv : upage < physBase)
    (hk : kpage ∈ S.held) (hfree : S.entry pd (pageOf upage) &&& pteP = 0) (writable : Bool) :
    wp (pagedirSetPage pd upage kpage writable)
      (fun r m' => m.Alike m' ∧ (r = false → NoRun m false 1) ∧
        ∃ T', Shows T' m' (if r then S.map pd (pageOf upage) kpage writable else S)) never m := by
  have hmem := h.loaded_mem (.inl hk)
  have hkal := h.counted.aligned kpage hmem
  have hhigh := h.high hmem
  obtain ⟨hn, hi, hsplit⟩ := pageOf_user hv
  have hj : pageOf upage % 1024 < 1024 := Nat.mod_lt _ (by decide)
  unfold pagedirSetPage
  rw [if_neg]
  swap
  · rintro (hno | hno | hno)
    · exact hno (pgOfs_eq_zero hu)
    · exact hno (pgOfs_eq_zero hkal)
    · exact hno hv
  refine wp_bind.mpr (wp_vtop hhigh (wp_bind.mpr (wp_get.mpr ?_)))
  rw [if_neg]
  swap
  · rintro (hno | hno)
    · refine hno ?_
      have hlt := (h.counted.bounds hmem).2
      have hval := toNat_vtop hhigh
      have hshift : ((kpage - physBase) >>> 12).toNat = (kpage - physBase).toNat / 4096 := by
        rw [UInt32.toNat_shiftRight]
        exact Nat.shiftRight_eq_div_pow ..
      rw [UInt32.lt_iff_toNat_lt, hshift, hval]
      unfold pageOf at hlt hhigh
      omega
    · exact h.dir_ne_init hpd hno
  refine wp_seq (h.lookup_create hpd hv) fun r m₁ ⟨halike, hr⟩ => ?_
  rcases hr with ⟨rfl, rfl, hno⟩ | ⟨T', h', ht, rfl⟩
  · exact ⟨halike, fun _ => hno, T, h⟩
  · obtain ⟨hp, hframe⟩ := userPte_flags hkal hhigh writable
    refine wp_bind.mpr (wp_load ?_)
    rw [h'.pte_word hpd hv ht, if_neg (not_not_intro hfree)]
    unfold pteCreateUser pteCreateKernel
    refine wp_bind.mpr (wp_bind.mpr ?_)
    rw [if_neg (not_not_intro (pgOfs_eq_zero hkal))]
    refine wp_bind.mpr (wp_vtop hhigh ((wp_pure _).mpr ((wp_pure _).mpr (wp_bind.mpr (wp_store ?_)))))
    refine ⟨halike.trans (alike_put ..), nofun, T', ?_⟩
    have hno : frameOf (S.entry pd (pageOf upage)) = [] := if_pos hfree
    have hmap : Maps T' (m₁.put (word (T' pd (pageOf upage / 1024)) (pageOf upage % 1024))
      (userPte kpage writable))
        (S.map pd (pageOf upage) kpage writable) := by
      refine h'.toMaps.entered hpd hi hj ht _ (by rw [hsplit]; rfl) ?_
        (Spaces.loaded_entry (fun b hb => ?_) fun b hb => .inl (List.mem_of_mem_erase hb))
      · have hentry : ∀ pd' n', ¬ (pd' = pd ∧ n' = 1024 * (pageOf upage / 1024) + pageOf upage % 1024) →
            (S.map pd (pageOf upage) kpage writable).entry pd' n' = S.entry pd' n' := fun pd' n' hne => by
          rw [hsplit] at hne
          exact Spaces.entry_other hne
        have hgain : (frameOf ((S.map pd (pageOf upage) kpage writable).entry pd
            (1024 * (pageOf upage / 1024) + pageOf upage % 1024))).Perm
            ([kpage] ++ frameOf (S.entry pd (1024 * (pageOf upage / 1024) + pageOf upage % 1024))) := by
          rw [hsplit, hno]
          show (frameOf ((S.setEntry pd (pageOf upage) (userPte kpage writable)).entry pd
            (pageOf upage))).Perm _
          rw [Spaces.entry_self, hframe]
          exact .refl _
        have hpages : ((S.map pd (pageOf upage) kpage writable).pages T').Perm
            ([kpage] ++ { S with held := S.held.erase kpage }.pages T') :=
          Spaces.pages_entry h'.dirs_nodup hpd hi hj ht rfl rfl rfl hentry hgain
        exact hpages.trans (Spaces.pages_erase hk).symm
      · rw [hframe, List.mem_singleton] at hb
        exact .inl (hb ▸ hk)
    refine ⟨hmap, fun n' hn' e he => ?_, h'.kernelTlb⟩
    show _ ∧ Cached e ((S.setEntry pd (pageOf upage) (userPte kpage writable)).entry S.active n')
    by_cases heq : S.active = pd ∧ n' = pageOf upage
    · have hnone := h'.not_cached hn (n := pageOf upage) (by rw [heq.1]; exact hfree)
      rw [← heq.2] at hnone
      exact absurd (hnone.symm.trans he) (by simp)
    · rw [Spaces.entry_other heq]
      exact h'.tlb n' hn' e he

/-! ## Entries that change -/

/-- `active_pd` and `pagedir_activate`. -/
theorem Shows.wp_activate (h : Maps T m S) (hpd : pd = m.initPageDir ∨ pd ∈ S.dirs)
    {Q : Unit → Machine → Prop}
    {E : Panic → Machine → Prop} (hQ : Q () { m with cr3 := pd - physBase, tlb := fun _ => none }) :
    wp (pagedirActivate pd) Q E m := by
  have hhigh := h.dir_high hpd
  have hne : pd ≠ 0 := by
    rintro rfl
    exact absurd hhigh (by decide)
  unfold pagedirActivate
  refine wp_bind.mpr (wp_get.mpr ?_)
  rw [if_neg hne]
  exact wp_bind.mpr (wp_vtop hhigh hQ)

theorem Shows.activate_spec (h : Shows T m S) (hpd : pd ∈ S.dirs) :
    wp (pagedirActivate pd) (fun _ m' => Shows T m' { S with active := pd }) never m :=
  Shows.wp_activate h.toMaps (.inr hpd) (h.toMaps.flushed (.inr hpd))

/-- `pagedir_activate` of the null pointer. -/
theorem Shows.activate_init (h : Shows T m S) :
    wp (pagedirActivate 0) (fun _ m' => Shows T m' { S with active := m.initPageDir }) never m := by
  unfold pagedirActivate
  refine wp_bind.mpr (wp_get.mpr ?_)
  rw [if_pos rfl]
  exact wp_bind.mpr (wp_vtop (h.dir_high (.inl rfl)) (h.toMaps.flushed (.inl rfl)))

/-- `invalidate_pagedir`: what is cached of the directory is right again. -/
theorem Maps.invalidate_spec (h : Maps T m S) (hpd : pd ∈ S.dirs)
    (htlb : S.active ≠ pd → ∀ n < 0xC0000, ∀ e, m.tlb (UInt32.ofNat n) = some e →
      e &&& pteP ≠ 0 ∧ Cached e (S.entry S.active n))
    (hktlb : ∀ n, 0xC0000 ≤ n → n < 0x100000 → ∀ e, m.tlb (UInt32.ofNat n) = some e →
      e &&& pteP ≠ 0 ∧ SameMarked e (S.kernel n)) :
    wp (invalidatePagedir pd) (fun _ m' => Shows T m' S) never m := by
  have hactive : 0xC0000 ≤ pageOf (ptov m.cr3) := by
    rw [h.active.1]
    exact h.dir_high h.active.2
  unfold invalidatePagedir activePd
  refine wp_bind.mpr (wp_bind.mpr (wp_get.mpr (wp_ptov hactive ?_)))
  rw [h.active.1]
  refine wp_ite (fun heq => ?_) fun hne => ⟨h, htlb hne, hktlb⟩
  refine Shows.wp_activate h (.inr hpd) ?_
  have hflush := h.flushed (.inr hpd)
  have hS : ({ S with active := pd } : Spaces) = S := by rw [← heq]
  rwa [hS] at hflush

/-- The entry of a page that is mapped or was has other flags now. -/
theorem Maps.reentered (h : Maps T m S) (hpd : pd ∈ S.dirs) (hv : v < physBase)
    (ht : T pd (pageOf v / 1024) ≠ 0)
    (hframe : frameOf e = frameOf (S.entry pd (pageOf v))) :
    Maps T (m.put (word (T pd (pageOf v / 1024)) (pageOf v % 1024)) e) (S.setEntry pd (pageOf v) e) := by
  obtain ⟨hn, hi, hsplit⟩ := pageOf_user hv
  have hj : pageOf v % 1024 < 1024 := Nat.mod_lt _ (by decide)
  refine h.entered hpd hi hj ht e (by rw [hsplit]) ?_ (Spaces.loaded_entry (fun b hb => ?_) fun b hb =>
    .inl hb)
  · have hentry : ∀ pd' n', ¬ (pd' = pd ∧ n' = 1024 * (pageOf v / 1024) + pageOf v % 1024) →
        (S.setEntry pd (pageOf v) e).entry pd' n' = S.entry pd' n' := fun pd' n' hne => by
      rw [hsplit] at hne
      exact Spaces.entry_other hne
    refine Spaces.pages_entry (l := []) h.dirs_nodup hpd hi hj ht rfl rfl rfl hentry ?_
    rw [hsplit, Spaces.entry_self, hframe]
    exact .refl _
  · exact .inr ⟨pd, hpd, _, hn, hframe ▸ hb⟩

/-- `pagedir_clear_page`: a frame that was mapped is held now. -/
theorem Shows.clear_spec (h : Shows T m S) (hpd : pd ∈ S.dirs) (hu : upage.toNat % 4096 = 0)
    (hv : upage < physBase) :
    wp (pagedirClearPage pd upage)
      (fun _ m' => Shows T m' (if S.entry pd (pageOf upage) &&& pteP ≠ 0 then S.unmap pd (pageOf upage)
      else S))
      never m := by
  obtain ⟨hn, hi, hsplit⟩ := pageOf_user hv
  have hj : pageOf upage % 1024 < 1024 := Nat.mod_lt _ (by decide)
  unfold pagedirClearPage
  rw [if_neg fun hno => hno.elim (fun hno => hno (pgOfs_eq_zero hu)) fun hno => hno hv]
  refine h.wp_look hpd hv (fun _ hzero => ?_) fun pte ht hpte he => ?_
  · rw [hzero]
    exact h
  refine wp_bind.mpr (wp_load ?_)
  rw [he]
  refine wp_ite (fun hp => ?_) fun hno => ?_
  swap
  · rw [if_neg hno]
    exact h
  rw [if_pos hp]
  have hgone : frameOf (S.entry pd (pageOf upage) &&& ~~~ pteP) = [] := by
    refine if_pos (UInt32.eq_of_bits fun k hk => ?_)
    have hzero : (0 : UInt32).toNat.testBit k = false := Nat.zero_testBit k
    rw [and_bit, and_bit, not_bit _ hk, hzero]
    cases pteP.toNat.testBit k <;> simp
  have hmap :
      Maps T (m.put pte (S.entry pd (pageOf upage) &&& ~~~ pteP)) (S.unmap pd (pageOf upage)) := by
    rw [hpte]
    refine h.toMaps.entered hpd hi hj ht _ (by rw [hsplit]; rfl) ?_
      (Spaces.loaded_entry (fun b hb => ?_) fun b hb => ?_)
    · have hentry : ∀ pd' n', ¬ (pd' = pd ∧ n' = 1024 * (pageOf upage / 1024) + pageOf upage % 1024) →
          S.entry pd' n' = (S.setEntry pd (pageOf upage)
          (S.entry pd (pageOf upage) &&& ~~~ pteP)).entry pd' n' :=
        fun pd' n' hne => by
          rw [hsplit] at hne
          exact (Spaces.entry_other hne).symm
      have hloss : (S.pages T).Perm (frameOf (S.entry pd (pageOf upage)) ++
          (S.setEntry pd (pageOf upage) (S.entry pd (pageOf upage) &&& ~~~ pteP)).pages T) := by
        have hdirs : (S.setEntry pd (pageOf upage)
          (S.entry pd (pageOf upage) &&& ~~~ pteP)).dirs.Nodup := h.dirs_nodup
        refine Spaces.pages_entry hdirs hpd hi hj ht rfl rfl rfl hentry ?_
        rw [hsplit, Spaces.entry_self, hgone, List.append_nil]
      refine List.Perm.trans ?_ hloss.symm
      unfold Spaces.unmap
      rw [show frameOf (S.entry pd (pageOf upage)) =
        [ptov (S.entry pd (pageOf upage) &&& pteAddr)] from if_neg hp]
      exact Spaces.pages_held (S := S.setEntry pd (pageOf upage) _)
    · rw [hgone] at hb
      exact absurd hb List.not_mem_nil
    · rcases List.mem_append.mp hb with hb | hb
      · exact .inr ⟨pd, hpd, _, hn, hb⟩
      · exact .inl hb
  refine wp_bind.mpr (wp_store (hmap.invalidate_spec hpd (fun (hne : S.active ≠ pd) n hn e hc =>
    ?_) h.kernelTlb))
  show _ ∧ Cached e ((S.setEntry pd (pageOf upage) _).entry S.active n)
  rw [Spaces.entry_other fun hno => hne hno.1]
  exact h.tlb n hn e hc

/-- `pagedir_set_dirty` and `pagedir_set_accessed`, where there is a table for the page. -/
theorem Shows.setFlag_spec (h : Shows T m S) (hpd : pd ∈ S.dirs) (hv : v < physBase)
    (hf : f ||| (pteA ||| pteD) = pteA ||| pteD) (value : Bool) :
    wp (setFlag f pd v value)
      (fun _ m' => Shows T m' (if T pd (pageOf v / 1024) = 0 then S else
        S.setEntry pd (pageOf v) (if value then S.entry pd (pageOf v) ||| f
        else S.entry pd (pageOf v) &&& ~~~ f)))
      never m := by
  have hP : f &&& pteP = 0 := other_zero hf (by decide)
  have hAddr : f &&& pteAddr = 0 := other_zero hf (by decide)
  unfold setFlag
  refine h.wp_look hpd hv (fun ht _ => ?_) fun pte ht hpte he => ?_
  · rw [if_pos ht]
    exact h
  rw [if_neg ht]
  refine wp_bind.mpr (wp_load ?_)
  rw [he]
  cases value with
  | true =>
      have hframe : frameOf (S.entry pd (pageOf v) ||| f) = frameOf (S.entry pd (pageOf v)) := by
        unfold frameOf
        rw [or_and_other hP, or_and_other hAddr]
      rw [if_pos rfl, if_pos rfl]
      refine wp_store (hpte ▸ ⟨h.toMaps.reentered hpd hv ht hframe, fun n hn e hc => ?_, h.kernelTlb⟩)
      obtain ⟨hp, hcached⟩ := h.tlb n hn e hc
      refine ⟨hp, ?_⟩
      by_cases heq : S.active = pd ∧ n = pageOf v
      · show Cached e ((S.setEntry pd (pageOf v) _).entry S.active n)
        rw [heq.1, heq.2, Spaces.entry_self]
        rw [heq.1, heq.2] at hcached
        exact hcached.set hf
      · show Cached e ((S.setEntry pd (pageOf v) _).entry S.active n)
        rwa [Spaces.entry_other heq]
  | false =>
      have hframe : frameOf (S.entry pd (pageOf v) &&& ~~~ f) = frameOf (S.entry pd (pageOf v)) := by
        unfold frameOf
        rw [and_not_and_other hP, and_not_and_other hAddr]
      rw [if_neg Bool.false_ne_true, if_neg Bool.false_ne_true]
      have hmap := h.toMaps.reentered hpd hv ht hframe
      rw [← hpte] at hmap
      refine wp_bind.mpr (wp_store (hmap.invalidate_spec hpd (fun (hne : S.active ≠ pd) n hn e hc =>
        ?_) h.kernelTlb))
      show _ ∧ Cached e ((S.setEntry pd (pageOf v) _).entry S.active n)
      rw [Spaces.entry_other fun hno => hne hno.1]
      exact h.tlb n hn e hc

/-! ## Directories -/

/-- What `memcpy` of a whole page leaves in the words of a page: those of the source if it is the
target, its own if it is another. -/
theorem copyPage_words (ha : a.toNat % 4096 = 0) (hb : b.toNat % 4096 = 0) (hi : i < 1024) :
    (if word b i - a < pgSize then m.words (e + (word b i - a)) else m.words (word b i)) =
      if b = a then m.words (word e i) else m.words (word b i) := by
  have hword := toNat_word hb hi
  have hlt := b.toNat_lt
  have hlt' := a.toNat_lt
  have hpage : pgSize.toNat = 4096 := rfl
  have hsub : (word b i - a).toNat = (2 ^ 32 - a.toNat + (b.toNat + 4 * i)) % 2 ^ 32 := by
    rw [UInt32.toNat_sub, hword]
  by_cases hba : b = a
  · have hofs : word b i - a = 4 * UInt32.ofNat i := by
      rw [hba]
      unfold word
      rw [UInt32.add_comm, UInt32.add_sub_cancel]
    rw [if_pos hba, if_pos (by rw [UInt32.lt_iff_toNat_lt, hsub, hpage, hba]; omega), hofs]
    rfl
  · have hne : b.toNat ≠ a.toNat := fun hno => hba (UInt32.toNat_inj.mp hno)
    rw [if_neg hba, if_neg (by rw [UInt32.lt_iff_toNat_lt, hsub, hpage]; omega)]

/-- `pagedir_create`. -/
theorem Shows.create_spec (h : Shows T m S) :
    wp pagedirCreate (fun r m' => r = none ∧ m' = m ∧ NoRun m false 1 ∨ ∃ pd T', r = some pd ∧
    m.Alike m' ∧
      (∀ k, k ∈ m'.used ↔ k = pageOf pd ∨ k ∈ m.used) ∧ Shows T' m'
      { S with dirs := pd :: S.dirs, entry := Function.update S.entry pd fun _ => 0 }) never m := by
  unfold pagedirCreate
  refine wp_seq (wp_mono (h.alloc_spec _) (fun _ _ hr => hr) fun _ _ he =>
    Bool.false_ne_true he.2.2) fun r m' hr => ?_
  rcases hr with ⟨pd, rfl, halike, hs, -⟩ | ⟨rfl, rfl, -, hno⟩
  · have hpages := hs.counted.perm (Spaces.pages_hold S T pd _)
    have hfresh := (List.nodup_cons.mp hpages.nodup).1
    have hal := hpages.aligned pd (List.mem_cons_self ..)
    have hcopied : m'.Alike { m' with words := fun x =>
        if x - pd < pgSize then m'.words (m'.initPageDir + (x - pd)) else m'.words x } :=
      ⟨fun u => by cases u <;> rfl, fun u => by cases u <;> rfl, rfl, rfl, rfl, rfl⟩
    have hused : ∀ k, k ∈ m'.used ↔ k = pageOf pd ∨ k ∈ m.used := fun k => by
      rw [hpages.used, h.counted.used]
      simp only [List.mem_cons, exists_eq_or_imp]
      exact or_congr_left eq_comm
    refine .inr ⟨pd, _, rfl, halike.trans hcopied, hused,
      hs.of_maps (hs.toMaps.adopted hcopied rfl (fun k hk => ?_)
      fun b hb hne k hk => ?_) rfl rfl ?_ rfl⟩
    · exact (copyPage_words hal hal hk).trans (if_pos rfl)
    · exact (copyPage_words hal hb hk).trans (if_neg hne)
    · refine Function.update_of_ne (fun hno => hfresh ?_) ..
      rw [← hno]
      exact Spaces.structural_mem (h.dir_structural h.active.2)
  · exact .inl ⟨rfl, rfl, hno⟩

/-- The pages of the directory and those of the others. -/
theorem Spaces.pages_drop (hpd : pd ∈ S.dirs) :
    (S.pages T).Perm (S.dirPages T pd ++ { S with dirs := S.dirs.erase pd }.pages T) := by
  have hdirs : (S.dirs.flatMap (S.dirPages T)).Perm (S.dirPages T pd ++
    (S.dirs.erase pd).flatMap (S.dirPages T)) :=
    (List.perm_cons_erase hpd).flatMap_right _
  show (S.reserved ++ S.held ++ S.dirs.flatMap (S.dirPages T)).Perm
    (S.dirPages T pd ++ (S.reserved ++ S.held ++ (S.dirs.erase pd).flatMap (S.dirPages T)))
  refine (hdirs.append_left _).trans ?_
  rw [← List.append_assoc, ← List.append_assoc]
  exact List.perm_append_comm.append_right _

/-- The inner loop of `pagedir_destroy` gives back the frames of the table. -/
theorem Maps.freeFrames_spec (h : Maps T m S) (hpd : pd ∈ S.dirs) (hi : i < 768) (ht : T pd i ≠ 0)
    {rest : List UInt32} (hrest : T pd i ∈ rest) (hl : Left m (S.frames pd i ++ rest) m') :
    wp (freeFrames (T pd i)) (fun _ m'' => Left m rest m'') never m' := by
  let todo (l : List Nat) := l.flatMap fun j => frameOf (S.entry pd (1024 * i + j))
  let I (l : List Nat) (t : Machine) := (∀ j ∈ l, j < 1024) ∧ Left m (todo l ++ rest) t
  have hstep : ∀ j l t, I (j :: l) t → wp (do
      let e ← load (T pd i + 4 * UInt32.ofNat j)
      if e &&& pteP ≠ 0 then
        let page ← pteGetPage e
        pallocFreePage page
      else return ()) (fun _ t' => I l t') never t := by
    rintro j l t ⟨hlt, hleft⟩
    have hj := hlt j (List.mem_cons_self ..)
    have hsub : ∀ k ∈ l, k < 1024 := fun k hk => hlt k (List.mem_cons_of_mem j hk)
    have hword : t.words (T pd i + 4 * UInt32.ofNat j) = S.entry pd (1024 * i + j) :=
      (hleft.words _ (List.mem_append_right _ hrest) j hj).trans (h.pte pd hpd i hi ht j hj)
    have htodo : todo (j :: l) ++ rest = frameOf (S.entry pd (1024 * i + j)) ++ (todo l ++ rest) := by
      show frameOf (S.entry pd (1024 * i + j)) ++ todo l ++ rest = _
      rw [List.append_assoc]
    rw [htodo] at hleft
    refine wp_bind.mpr (wp_load ?_)
    rw [hword]
    refine wp_ite (fun hp => ?_) fun hno => ?_
    · have hframe : frameOf (S.entry pd (1024 * i + j)) =
        [ptov (S.entry pd (1024 * i + j) &&& pteAddr)] := if_neg hp
      rw [hframe] at hleft
      refine wp_bind.mpr (wp_ptov (h.frame_high hpd (by omega) hp).2 ?_)
      exact wp_mono hleft.free_spec (fun _ t' hl' => ⟨hsub, hl'⟩) fun _ _ he => he
    · have hframe : frameOf (S.entry pd (1024 * i + j)) = [] := if_pos (not_not.mp hno)
      rw [hframe] at hleft
      exact ⟨hsub, hleft⟩
  have hrange : ∀ j ∈ List.range 1024, j < 1024 := fun j => List.mem_range.mp
  unfold freeFrames
  unfold Spaces.frames at hl
  generalize List.range 1024 = l at hrange hl ⊢
  exact wp_mono (wp_forM (I := I) hstep l ⟨hrange, hl⟩) (fun _ t ht => ht.2) fun _ _ he => he

/-- `pagedir_destroy` at one entry of the directory: the
pages of its table go back, and the table's own. -/
theorem Maps.freeTable_spec (h : Maps T m S) (hpd : pd ∈ S.dirs) (hi : i < 768) {rest : List UInt32}
    (hrest : pd ∈ rest) (hl : Left m (S.slot T pd i ++ rest) m') :
    wp (freeTable pd i) (fun _ m'' => Left m rest m'') never m' := by
  have hword : m'.words (pd + 4 * UInt32.ofNat i) = m.words (word pd i) :=
    hl.words pd (List.mem_append_right _ hrest) i (by omega)
  unfold freeTable
  refine wp_bind.mpr (wp_load ?_)
  rw [hword]
  by_cases ht : T pd i = 0
  · rw [(h.noTable pd hpd i hi ht).1, if_neg (by decide)]
    have hslot : S.slot T pd i = [] := if_pos ht
    rwa [hslot] at hl
  · obtain ⟨hp, hpt⟩ := h.table pd hpd i hi ht
    have hslot : S.slot T pd i ++ rest = S.frames pd i ++ (T pd i :: rest) := by
      unfold Spaces.slot
      rw [if_neg ht, List.append_assoc]
      rfl
    rw [hslot] at hl
    rw [if_pos hp]
    refine wp_bind.mpr (wp_pdeGetPt hp ?_ ?_)
    · rw [hpt]
      exact h.high (Spaces.structural_mem (Spaces.structural_table hpd hi ht))
    · rw [hpt]
      have hframes : wp (freeFrames (T pd i)) (fun _ m'' => Left m (T pd i :: rest) m'') never m' :=
        h.freeFrames_spec hpd hi ht (List.mem_cons_self ..) hl
      exact wp_seq hframes fun _ _ hl' => hl'.free_spec

/-- `pagedir_destroy`: the directory, its tables and its
frames are given back, and nothing else is touched. -/
theorem Shows.destroy_spec (h : Shows T m S) (hpd : pd ∈ S.dirs) (hactive : pd ≠ S.active) :
    wp (pagedirDestroy pd) (fun _ m' => Shows T m' { S with dirs := S.dirs.erase pd }) never m := by
  generalize hS : ({ S with dirs := S.dirs.erase pd } : Spaces) = S'
  let I (l : List Nat) (t : Machine) := (∀ i ∈ l, i < 768) ∧
    Left m (l.flatMap (S.slot T pd) ++ pd :: S'.pages T) t
  have hstep : ∀ i l t, I (i :: l) t → wp (freeTable pd i) (fun _ t' => I l t') never t := by
    rintro i l t ⟨hlt, hleft⟩
    have hslots : (i :: l).flatMap (S.slot T pd) ++ pd :: S'.pages T =
        S.slot T pd i ++ (l.flatMap (S.slot T pd) ++ pd :: S'.pages T) := by
      rw [List.flatMap_cons, List.append_assoc]
    rw [hslots] at hleft
    exact wp_mono (h.freeTable_spec hpd (hlt i (List.mem_cons_self ..))
      (List.mem_append_right _ (List.mem_cons_self ..)) hleft)
      (fun _ t' hl => ⟨fun k hk => hlt k (List.mem_cons_of_mem i hk), hl⟩) fun _ _ he => he
  have hrange : ∀ i ∈ List.range 768, i < 768 := fun i => List.mem_range.mp
  have hstart : Left m ((List.range 768).flatMap (S.slot T pd) ++ pd :: S'.pages T) m := by
    refine (Left.refl h.counted).perm ((Spaces.pages_drop hpd).trans ?_)
    rw [hS]
    unfold Spaces.dirPages
    rw [List.append_assoc]
    exact .refl _
  have hcount : (pdNo physBase).toNat = 768 := by decide
  unfold pagedirDestroy
  refine wp_bind.mpr (wp_get.mpr ?_)
  rw [if_neg (h.dir_ne_zero hpd), if_neg (h.dir_ne_init hpd), hcount]
  generalize List.range 768 = l at hrange hstart ⊢
  refine wp_seq (wp_forM (I := I) hstep l ⟨hrange, hstart⟩) fun _ t ht => ?_
  refine wp_mono ht.2.free_spec (fun _ m' hl => ?_) fun _ _ he => he
  have hstays : S.active = m.initPageDir ∨ S.active ∈ S'.dirs := by
    rw [← hS]
    exact h.active.2.imp_right fun hin => (List.mem_erase_of_ne fun heq => hactive heq.symm).mpr hin
  refine h.of_maps (h.toMaps.left hl ?_ ?_ ?_ ?_ ?_ ?_ ?_ hstays) hl.alike.tlb ?_ ?_ ?_ <;> rw [← hS]
  · exact fun _ ha => ha
  · exact fun _ hin => List.mem_of_mem_erase hin

end CS162.Paging
