/-
# `CS162.Paging.Processor` — programs that run

What the processor does with the tables and with what it has cached, on address spaces: an access goes
by the entry of the page in the active directory, or by the kernel's, and is a fault if that does not
allow it.
-/
import CS162.Paging.Calls

namespace CS162.Paging

open Userprog.UserMem Wp

variable {T T' : PageTables} {m m' : Machine} {S S' : Spaces} {a b e f pd v w bits : UInt32} {i j n : Nat}
  {user : Bool} {value : Option UInt32}

namespace Spaces

variable (S : Spaces)

/-- The entry for an address. -/
def entryAt (v : UInt32) : UInt32 := if v < physBase then S.entry S.active (pageOf v) else S.kernel
    (pageOf v)

/-- What the entry lets a program do, or the kernel. -/
def Allows (user : Bool) (v : UInt32) (value : Option UInt32) : Prop :=
  S.entryAt v &&& pteP ≠ 0 ∧ (user = true → S.entryAt v &&& pteU ≠ 0) ∧
    (value.isSome = true → S.entryAt v &&& pteW ≠ 0)

/-- An entry is marked. -/
def marked (v bits : UInt32) : Spaces := S.setEntry S.active (pageOf v)
    (S.entry S.active (pageOf v) ||| bits)

/-- A word of a page of the active directory has been read or, if `value` is there, written. -/
def accessed (v : UInt32) (value : Option UInt32) : Spaces :=
  let S₁ := S.marked v (accessBits value)
  match value with
  | some w => S₁.setWord (ptov (S.entry S.active (pageOf v) &&& pteAddr)) (v.toNat % 4096 / 4) w
  | none => S₁

end Spaces

/-! ## Addresses -/

theorem pgNo_eq (v : UInt32) : pgNo v = UInt32.ofNat (pageOf v) := by
  have hlt := v.toNat_lt
  refine UInt32.toNat_inj.mp ?_
  unfold pageOf
  rw [toNat_pgNo, UInt32.toNat_ofNat']
  omega

/-- Numbers of pages as words. -/
theorem page_word_inj {n' : Nat} (hn : n < 0x100000) (hn' : n' < 0x100000)
    (h : UInt32.ofNat n = UInt32.ofNat n') : n = n' := by
  have hnat := congrArg UInt32.toNat h
  rw [UInt32.toNat_ofNat', UInt32.toNat_ofNat'] at hnat
  omega

theorem pageOf_lt (v : UInt32) : pageOf v < 0x100000 := by
  have hlt := v.toNat_lt
  unfold pageOf
  omega

theorem pageOf_kernel (hv : physBase ≤ v) : 0xC0000 ≤ pageOf v ∧ 768 ≤ pageOf v / 1024 ∧
    pageOf v / 1024 < 1024 ∧
    1024 * (pageOf v / 1024) + pageOf v % 1024 = pageOf v := by
  have hlt := v.toNat_lt
  rw [UInt32.le_iff_toNat_le, toNat_physBase] at hv
  unfold pageOf
  omega

/-- Where a word is in its page. -/
theorem pgOfs_word (v : UInt32) : pgOfs v &&& ~~~ 3 = 4 * UInt32.ofNat (v.toNat % 4096 / 4) := by
  have h4 : (4 * UInt32.ofNat (v.toNat % 4096 / 4)).toNat = 2 ^ 2 * (v.toNat % 2 ^ 12 / 2 ^ 2) := by
    have h4 : (4 : UInt32).toNat = 4 := rfl
    rw [UInt32.toNat_mul, h4, UInt32.toNat_ofNat']
    omega
  have hmask : ∀ k < 32, (0xFFF &&& ~~~ (3 : UInt32)).toNat.testBit k =
      (decide (2 ≤ k) && decide (k < 12)) := by
    decide
  refine UInt32.eq_of_bits fun k hk => ?_
  unfold pgOfs
  rw [UInt32.and_assoc, and_bit, hmask k hk, h4, Nat.testBit_two_pow_mul, Nat.testBit_div_two_pow,
    Nat.testBit_mod_two_pow]
  by_cases h2 : 2 ≤ k
  · rw [decide_eq_true h2, Nat.sub_add_cancel h2, Bool.true_and, Bool.true_and, Bool.and_comm]
  · rw [decide_eq_false h2, Bool.false_and, Bool.and_false, Bool.false_and]

/-! ## Entries that are marked -/

theorem SameMarked.flag {p x : UInt32} (h : SameMarked e p) (hx : (pteA ||| pteD) &&& x = 0) :
    e &&& x = p &&& x := by
  unfold SameMarked at h
  rw [← or_and_other (e := e) hx, ← or_and_other (e := p) hx, h]

theorem SameMarked.mark {p : UInt32} (h : SameMarked e p) (hf : f ||| (pteA ||| pteD) = pteA ||| pteD) :
    SameMarked (e ||| f) p := by
  unfold SameMarked at h ⊢
  rw [UInt32.or_assoc, hf, h]

theorem accessBits_marks (value : Option UInt32) :
    accessBits value ||| (pteA ||| pteD) = pteA ||| pteD := by
  unfold accessBits
  split <;> decide

/-! ## What the tables say -/

/-- The cache is no part of the memory. -/
theorem Maps.cached (h : Maps T m S) (t : UInt32 → Option UInt32) : Maps T { m with tlb := t } S :=
  ⟨⟨⟨h.counted.ok.pool, h.counted.ok.apart⟩, h.counted.ram, h.counted.nodup, h.counted.used,
    h.counted.aligned⟩,
    h.initDir, h.initBlank, h.initEntry, h.noTable, h.table, h.pte, h.kernel, h.row, h.supervisor,
    h.direct, h.active,
    h.content⟩

/-- What the tables of the active directory say. -/
theorem Maps.walk_eq (h : Maps T m S) (hv : v < physBase) :
    m.walk (ptov m.cr3) v = S.entry S.active (pageOf v) := by
  obtain ⟨-, hi, -⟩ := pageOf_user hv
  unfold Machine.walk
  dsimp only
  rw [h.active.1, dir_word, table_word]
  rcases h.active.2 with hinit | hdir
  · rw [hinit, h.initBlank _ hi, h.initEntry]
    rfl
  · by_cases ht : T S.active (pageOf v / 1024) = 0
    · rw [(h.noTable _ hdir _ hi ht).1, h.no_entry hdir hv ht]
      rfl
    · obtain ⟨hp, hpt⟩ := h.table _ hdir _ hi ht
      rw [if_neg hp, hpt, h.pte_word hdir hv ht]

/-- The entry of a directory for the kernel's pages is that of `init_page_dir`. -/
theorem Maps.kernel_flag (h : Maps T m S) (hpd : pd = m.initPageDir ∨ pd ∈ S.dirs) {x : UInt32}
    (hx : pteA &&& x = 0)
    (hle : 768 ≤ i) (hlt : i < 1024) : m.words (word pd i) &&& x = m.words
    (word m.initPageDir i) &&& x := by
  rcases hpd with rfl | hpd
  · rfl
  · rw [← or_and_other (e := m.words (word pd i)) hx, ← or_and_other (e :=
      m.words (word m.initPageDir i)) hx,
      h.kernel pd hpd i hle hlt]

/-- Every directory leads to the kernel's pages. -/
theorem Maps.kernel_walk (h : Maps T m S) (hpd : pd = m.initPageDir ∨ pd ∈ S.dirs) (hv : physBase ≤ v) :
    SameMarked (m.walk pd v) (S.kernel (pageOf v)) ∧
      (S.kernel (pageOf v) &&& pteP ≠ 0 → m.words (word pd (pageOf v / 1024)) &&& pteP ≠ 0 ∧
        ∃ pt ∈ S.reserved, pt ≠ m.initPageDir ∧
        ptov (m.words (word pd (pageOf v / 1024)) &&& pteAddr) = pt) := by
  obtain ⟨-, hi, hi', hsplit⟩ := pageOf_kernel hv
  have hflag := h.kernel_flag hpd (x := pteP) (by decide) hi hi'
  have haddr := h.kernel_flag hpd (x := pteAddr) (by decide) hi hi'
  unfold Machine.walk
  dsimp only
  rw [dir_word, table_word, haddr, hflag]
  rcases h.row _ hi hi' with ⟨hzero, hnone⟩ | ⟨hp, pt, hpt, hne, hto, hrow⟩
  · have hno := hnone (pageOf v % 1024) (Nat.mod_lt _ (by decide))
    rw [hsplit] at hno
    rw [hzero, hno]
    exact ⟨rfl, fun hyes => absurd rfl hyes⟩
  · have hentry := hrow (pageOf v % 1024) (Nat.mod_lt _ (by decide))
    rw [hsplit] at hentry
    rw [if_neg hp, hto]
    exact ⟨hentry, fun _ => ⟨hp, pt, hpt, hne, rfl⟩⟩

/-- The processor goes by what the active directory says. -/
theorem Shows.translate_user (h : Shows T m S) (hv : v < physBase) :
    Cached (m.translate v) (S.entry S.active (pageOf v)) := by
  unfold Machine.translate
  cases hc : m.tlb (pgNo v) with
  | none =>
      rw [Option.getD_none, h.walk_eq hv]
      exact .refl _
  | some e =>
      rw [pgNo_eq] at hc
      exact (h.tlb _ (pageOf_user hv).1 e hc).2

theorem Shows.translate_kernel (h : Shows T m S) (hv : physBase ≤ v) :
    SameMarked (m.translate v) (S.kernel (pageOf v)) := by
  unfold Machine.translate
  cases hc : m.tlb (pgNo v) with
  | none =>
      have hdir : ptov m.cr3 = m.initPageDir ∨ ptov m.cr3 ∈ S.dirs := by
        rw [h.active.1]
        exact h.active.2
      rw [Option.getD_none]
      exact (h.kernel_walk hdir hv).1
  | some e =>
      rw [pgNo_eq] at hc
      exact (h.kernelTlb _ (pageOf_kernel hv).1 (pageOf_lt v) e hc).2

theorem Shows.translate_flag (h : Shows T m S) {x : UInt32} (hx : (pteA ||| pteD) &&& x = 0)
    (v : UInt32) :
    m.translate v &&& x = S.entryAt v &&& x := by
  unfold Spaces.entryAt
  by_cases hv : v < physBase
  · rw [if_pos hv]
    exact (h.translate_user hv).flag hx
  · rw [if_neg hv]
    exact (h.translate_kernel (UInt32.not_lt.mp hv)).flag hx

/-- An access is a fault exactly where the entry does not allow it. -/
theorem Shows.access_none (h : Shows T m S) (user : Bool) (v : UInt32) (value : Option UInt32) :
    m.access user v value = none ↔ ¬ S.Allows user v value := by
  unfold Spaces.Allows Machine.access
  dsimp only
  rw [h.translate_flag (by decide), h.translate_flag (by decide), h.translate_flag (by decide)]
  split
  · next hyes =>
      refine iff_of_false (fun hno => ?_) (not_not_intro hyes)
      cases value <;> cases hno
  · next hno => exact iff_of_true rfl hno

/-! ## Accesses -/

namespace Shows

variable (h : Shows T m S)

include h

/-- Where the processor reads and marks the entry of a user's page. -/
theorem user_places (hv : v < physBase) (hp : S.entry S.active (pageOf v) &&& pteP ≠ 0) :
    S.active ∈ S.dirs ∧ T S.active (pageOf v / 1024) ≠ 0 ∧ m.pdeAt v = word S.active (pageOf v / 1024) ∧
      m.pteAt v = word (T S.active (pageOf v / 1024)) (pageOf v % 1024) := by
  obtain ⟨-, hi, -⟩ := pageOf_user hv
  have hdir : S.active ∈ S.dirs := h.active.2.resolve_left fun hinit => by
    rw [hinit, h.initEntry] at hp
    exact hp rfl
  have ht : T S.active (pageOf v / 1024) ≠ 0 := fun hno => by
    rw [h.no_entry hdir hv hno] at hp
    exact hp rfl
  have hpde : m.pdeAt v = word S.active (pageOf v / 1024) := by
    unfold Machine.pdeAt
    rw [h.active.1, dir_word]
  refine ⟨hdir, ht, hpde, ?_⟩
  unfold Machine.pteAt
  rw [hpde, (h.table _ hdir _ hi ht).2, table_word]

/-- An access by way of a user page marks its entry, and only that. -/
theorem touch_user (hv : v < physBase) (hp : m.translate v &&& pteP ≠ 0)
    (hf : f ||| (pteA ||| pteD) = pteA ||| pteD) : Shows T (m.touch v f) (S.marked v f) := by
  have hc := h.translate_user hv
  obtain ⟨hn, hi, -⟩ := pageOf_user hv
  have hi' : pageOf v / 1024 < 1024 := by omega
  obtain ⟨hdir, ht, hpde, hpte⟩ := h.user_places hv fun hno => hp ((hc.flag (by decide)).trans hno)
  have hfP : f &&& pteP = 0 := other_zero hf (by decide)
  have hfA : f &&& pteAddr = 0 := other_zero hf (by decide)
  unfold Machine.touch Spaces.marked
  dsimp only
  rw [hpde, hpte]
  generalize m.translate v = e at hc hp ⊢
  -- the mark in the directory
  have h₁ : Maps T (if (m.tlb (pgNo v)).isSome = true then m
    else m.mark (word S.active (pageOf v / 1024)) pteA) S := by
    split
    · exact h.toMaps
    · exact h.toMaps.marked (.inr hdir) hi' (.inr ⟨hdir, ht⟩)
  generalize (if (m.tlb (pgNo v)).isSome = true then m
    else m.mark (word S.active (pageOf v / 1024)) pteA) = m₁ at h₁ ⊢
  -- the mark in the table
  have h₂ : Maps T (if e &&& f = f then m₁
      else m₁.mark (word (T S.active (pageOf v / 1024)) (pageOf v % 1024)) f)
      (S.setEntry S.active (pageOf v) (S.entry S.active (pageOf v) ||| f)) := by
    split
    · next hhas =>
        have hsame : S.setEntry S.active (pageOf v) (S.entry S.active (pageOf v) ||| f) = S := by
          unfold Spaces.setEntry
          rw [or_eq_of_and (hc.has hhas), Function.update_eq_self, Function.update_eq_self]
        rwa [hsame]
    · have hframe : frameOf (S.entry S.active (pageOf v) ||| f) =
        frameOf (S.entry S.active (pageOf v)) := by
        unfold frameOf
        rw [or_and_other hfP, or_and_other hfA]
      have hmark := h₁.reentered hdir hv ht hframe
      rw [← h₁.pte_word hdir hv ht] at hmark ⊢
      exact hmark
  refine ⟨h₂.cached _, fun n' hn' e' he' => ?_, fun n' hle hlt e' he' => ?_⟩
  · replace he' : Function.update m.tlb (pgNo v) (some (e ||| f)) (UInt32.ofNat n') = some e' := he'
    show _ ∧ Cached e' ((S.setEntry S.active (pageOf v) (S.entry S.active (pageOf v) |||
      f)).entry S.active n')
    rw [pgNo_eq] at he'
    by_cases heq : n' = pageOf v
    · rw [heq, Function.update_self] at he'
      obtain rfl := Option.some.inj he'
      rw [heq, Spaces.entry_self, or_and_other hfP]
      exact ⟨hp, hc.mark⟩
    · rw [Function.update_of_ne fun hno => heq (page_word_inj (by omega) (by omega) hno)] at he'
      rw [Spaces.entry_other fun hno => heq hno.2]
      exact h.tlb n' hn' e' he'
  · replace he' : Function.update m.tlb (pgNo v) (some (e ||| f)) (UInt32.ofNat n') = some e' := he'
    rw [pgNo_eq, Function.update_of_ne fun hno => by
      have := page_word_inj hlt (by omega) hno
      omega] at he'
    exact h.kernelTlb n' hle hlt e' he'

/-- An access by way of a kernel page marks an entry that no space has. -/
theorem touch_kernel (hv : physBase ≤ v) (hp : m.translate v &&& pteP ≠ 0)
    (hf : f ||| (pteA ||| pteD) = pteA ||| pteD) : Shows T (m.touch v f) S := by
  have hc := h.translate_kernel hv
  obtain ⟨hn, hle, hlt, -⟩ := pageOf_kernel hv
  obtain ⟨hpres, pt, hpt, hne, hto⟩ := (h.kernel_walk h.active.2 hv).2 fun hno =>
    hp ((hc.flag (by decide)).trans hno)
  have hpde : m.pdeAt v = word S.active (pageOf v / 1024) := by
    unfold Machine.pdeAt
    rw [h.active.1, dir_word]
  have hpte : m.pteAt v = word pt (pageOf v % 1024) := by
    unfold Machine.pteAt
    rw [hpde, hto, table_word]
  unfold Machine.touch
  dsimp only
  rw [hpde, hpte]
  generalize m.translate v = e at hc hp ⊢
  have h₁ : Maps T (if (m.tlb (pgNo v)).isSome = true then m
    else m.mark (word S.active (pageOf v / 1024)) pteA) S ∧
      (if (m.tlb (pgNo v)).isSome = true then m else
        m.mark (word S.active (pageOf v / 1024)) pteA).initPageDir = m.initPageDir := by
    split
    · exact ⟨h.toMaps, rfl⟩
    · exact ⟨h.toMaps.marked h.active.2 hlt (.inl ⟨hle, hpres⟩), rfl⟩
  generalize (if (m.tlb (pgNo v)).isSome = true then m
    else m.mark (word S.active (pageOf v / 1024)) pteA) = m₁ at h₁ ⊢
  have h₂ : Maps T (if e &&& f = f then m₁ else m₁.mark (word pt (pageOf v % 1024)) f) S := by
    split
    · exact h₁.1
    · exact h₁.1.markedKernel hpt (h₁.2 ▸ hne) (Nat.mod_lt _ (by decide)) hf
  refine ⟨h₂.cached _, fun n' hn' e' he' => ?_, fun n' hle' hlt' e' he' => ?_⟩
  · replace he' : Function.update m.tlb (pgNo v) (some (e ||| f)) (UInt32.ofNat n') = some e' := he'
    rw [pgNo_eq, Function.update_of_ne fun hno => by
      have := page_word_inj (by omega) (pageOf_lt v) hno
      omega] at he'
    exact h.tlb n' hn' e' he'
  · replace he' : Function.update m.tlb (pgNo v) (some (e ||| f)) (UInt32.ofNat n') = some e' := he'
    rw [pgNo_eq] at he'
    by_cases heq : n' = pageOf v
    · rw [heq, Function.update_self] at he'
      obtain rfl := Option.some.inj he'
      rw [heq, or_and_other (other_zero hf (by decide))]
      exact ⟨hp, hc.mark hf⟩
    · rw [Function.update_of_ne fun hno => heq (page_word_inj hlt' (pageOf_lt v) hno)] at he'
      exact h.kernelTlb n' hle' hlt' e' he'

/-- An access to the pages of the active directory: a word
of the frame, and the marks of the processor. -/
theorem access_user (hv : v < physBase) (hm : m.access user v value = some m') : Shows T m'
    (S.accessed v value) := by
  have hc := h.translate_user hv
  unfold Machine.access at hm
  dsimp only at hm
  split at hm
  swap
  · cases hm
  next hyes =>
  have ht := h.touch_user hv hyes.1 (accessBits_marks value)
  unfold Spaces.accessed
  dsimp only
  cases value with
  | none =>
      obtain rfl := Option.some.inj hm
      exact ht
  | some w =>
      obtain rfl := Option.some.inj hm
      have hp : S.entry S.active (pageOf v) &&& pteP ≠ 0 := fun hno =>
        hyes.1 ((hc.flag (by decide)).trans hno)
      have haddr : m.translate v &&& pteAddr = S.entry S.active (pageOf v) &&& pteAddr :=
        hc.flag (by decide)
      have hword : ptov (m.translate v &&& pteAddr) + (pgOfs v &&& ~~~ 3) =
          word (ptov (S.entry S.active (pageOf v) &&& pteAddr)) (v.toNat % 4096 / 4) := by
        rw [haddr, pgOfs_word]
        rfl
      have hload : (S.marked v (accessBits (some w))).Loaded
        (ptov (S.entry S.active (pageOf v) &&& pteAddr)) := by
        refine .inr ⟨S.active, (h.user_places hv hp).1, pageOf v, (pageOf_user hv).1, ?_⟩
        unfold Spaces.marked
        rw [Spaces.entry_self]
        unfold frameOf
        rw [or_and_other (other_zero (accessBits_marks _) (by decide)),
          or_and_other (other_zero (accessBits_marks _) (by decide)), if_neg hp]
        exact List.mem_singleton.mpr rfl
      rw [hword]
      exact ⟨ht.toMaps.write hload (by omega) w, ht.tlb, ht.kernelTlb⟩

/-- A program has no access to the kernel's pages. -/
theorem access_supervisor (hv : physBase ≤ v) : m.access true v value = none := by
  refine (h.access_none true v value).mpr fun hyes => hyes.2.1 rfl ?_
  unfold Spaces.entryAt
  rw [if_neg (UInt32.not_lt.mpr hv)]
  exact h.supervisor _

/-- The kernel reads where it is. -/
theorem access_kernel_read (hv : physBase ≤ v) (hm : m.access user v none = some m') : Shows T m' S := by
  unfold Machine.access at hm
  dsimp only at hm
  split at hm
  swap
  · cases hm
  next hyes =>
  obtain rfl := Option.some.inj hm
  exact h.touch_kernel hv hyes.1 (accessBits_marks none)

/-- The kernel writes in a page that it holds or that is mapped. -/
theorem access_kernel_write (hv : physBase ≤ v) (hload : S.Loaded (UInt32.ofNat (4096 * pageOf v)))
    (hm : m.access user v (some w) = some m') :
    Shows T m' (S.setWord (UInt32.ofNat (4096 * pageOf v)) (v.toNat % 4096 / 4) w) := by
  have hc := h.translate_kernel hv
  unfold Machine.access at hm
  dsimp only at hm
  split at hm
  swap
  · cases hm
  next hyes =>
  obtain rfl := Option.some.inj hm
  have ht := h.touch_kernel hv hyes.1 (accessBits_marks (some w))
  have haddr : m.translate v &&& pteAddr = S.kernel (pageOf v) &&& pteAddr := hc.flag (by decide)
  have hword : ptov (m.translate v &&& pteAddr) + (pgOfs v &&& ~~~ 3) =
      word (UInt32.ofNat (4096 * pageOf v)) (v.toNat % 4096 / 4) := by
    rw [haddr, h.direct _ fun hno => hyes.1 ((hc.flag (by decide)).trans hno), pgOfs_word]
    rfl
  rw [hword]
  exact ⟨ht.toMaps.write hload (by omega) w, ht.tlb, ht.kernelTlb⟩

/-- A cached translation is dropped. -/
theorem forget_spec (n : UInt32) : Shows T (m.forget n) S := by
  have hsub : ∀ k e, Function.update m.tlb n none k = some e → m.tlb k = some e := by
    intro k e he
    by_cases hk : k = n
    · rw [hk, Function.update_self] at he
      cases he
    · rwa [Function.update_of_ne hk] at he
  exact ⟨h.toMaps.cached _, fun k hk e he => h.tlb k hk e (hsub _ _ he),
    fun k hle hlt e he => h.kernelTlb k hle hlt e (hsub _ _ he)⟩

end Shows

end CS162.Paging
