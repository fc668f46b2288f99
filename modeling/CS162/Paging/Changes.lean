/-
# `CS162.Paging.Changes` — changes of the memory

The kinds of change that the memory of the machine goes through, and what each of them is to the address
spaces: an entry of a table changes, a page becomes a table or a directory, pages are given back, the
processor leaves its marks, or loads CR3.
-/
import CS162.Paging.Spaces

namespace CS162.Paging

open Userprog.UserMem Wp

/-- One word of the memory. -/
def Machine.put (m : Machine) (a w : UInt32) : Machine := { m with words := Function.update m.words a w }

/-- The entry that `pagedir_set_page` makes. -/
def userPte (kpage : UInt32) (writable : Bool) : UInt32 :=
  kpage - physBase ||| pteP ||| (if writable then pteW else 0) ||| pteU

variable {T T' : PageTables} {m m' : Machine} {S S' : Spaces} {a b e f pd v w : UInt32}
  {l l' : List UInt32}
  {flags : Flags} {i j n : Nat} {r : Bool}

/-! ## Addresses -/

theorem toNat_physBase : physBase.toNat = 0xC0000000 := rfl

theorem physBase_le (ha : 0xC0000 ≤ pageOf a) : physBase ≤ a := by
  unfold pageOf at ha
  rw [UInt32.le_iff_toNat_le, toNat_physBase]
  omega

theorem toNat_vtop (ha : 0xC0000 ≤ pageOf a) : (a - physBase).toNat = a.toNat - 0xC0000000 := by
  have hle := physBase_le ha
  rw [UInt32.toNat_sub_of_le _ _ hle, toNat_physBase]

theorem ptov_vtop (a : UInt32) : ptov (a - physBase) = a := by
  unfold ptov
  exact UInt32.sub_add_cancel ..

theorem vtop_ptov (a : UInt32) : ptov a - physBase = a := by
  unfold ptov
  exact UInt32.add_sub_cancel ..

/-- What `ptov` asserts. -/
theorem ptov_lt (ha : 0xC0000 ≤ pageOf (ptov a)) : a < physBase := by
  have hval := toNat_vtop ha
  have hlt := (ptov a).toNat_lt
  rw [vtop_ptov] at hval
  rw [UInt32.lt_iff_toNat_lt, toNat_physBase]
  omega

theorem wp_vtop {Q : UInt32 → Machine → Prop} {E : Panic → Machine → Prop} (ha : 0xC0000 ≤ pageOf a)
    (h : Q (a - physBase) m) : wp (vtop a) Q E m := by
  unfold vtop
  rw [if_pos (physBase_le ha)]
  exact h

theorem wp_ptov {Q : UInt32 → Machine → Prop} {E : Panic → Machine → Prop}
    (ha : 0xC0000 ≤ pageOf (ptov a))
    (h : Q (ptov a) m) : wp (ptovChecked a) Q E m := by
  unfold ptovChecked
  rw [if_pos (ptov_lt ha)]
  exact h

theorem wp_load {Q : UInt32 → Machine → Prop} {E : Panic → Machine → Prop} (h : Q (m.words a) m) :
    wp (load a) Q E m := h

theorem wp_store {Q : Unit → Machine → Prop} {E : Panic → Machine → Prop} (h : Q () (m.put a w)) :
    wp (store a w) Q E m := h

theorem wp_pdeGetPt {Q : UInt32 → Machine → Prop} {E : Panic → Machine → Prop} (hp : e &&& pteP ≠ 0)
    (ha : 0xC0000 ≤ pageOf (ptov (e &&& pteAddr))) (h : Q (ptov (e &&& pteAddr)) m) : wp
    (pdeGetPt e) Q E m := by
  unfold pdeGetPt
  rw [if_neg hp]
  exact wp_ptov ha h

theorem dir_word (pd v : UInt32) : pd + 4 * pdNo v = word pd (pageOf v / 1024) := by
  unfold word
  rw [pdNo_eq]

theorem table_word (pt v : UInt32) : pt + 4 * ptNo v = word pt (pageOf v % 1024) := by
  unfold word
  rw [ptNo_eq]

/-! ## Words that change -/

theorem alike_put (m : Machine) (a w : UInt32) : m.Alike (m.put a w) := ⟨fun u => by cases u <;> rfl,
  fun u => by cases u <;> rfl, rfl, rfl, rfl, rfl⟩

theorem put_self (m : Machine) (a w : UInt32) : (m.put a w).words a = w := Function.update_self ..

theorem put_word (ha : a.toNat % 4096 = 0) (hb : b.toNat % 4096 = 0) (hi : i < 1024) (hj : j < 1024)
    (hne : ¬ (b = a ∧ j = i)) : (m.put (word a i) w).words (word b j) = m.words (word b j) :=
  Function.update_of_ne (fun heq => hne (word_inj hb ha hj hi heq)) ..

theorem Counted.put (h : Counted m l) (a w : UInt32) : Counted (m.put a w) l := h.congr
    (alike_put m a w) rfl

theorem Spaces.structural_table (hpd : pd ∈ S.dirs) (hi : i < 768) (ht : T pd i ≠ 0) :
    S.Structural T (T pd i) := .inr (.inr ⟨pd, hpd, i, hi, ht, rfl⟩)

namespace Maps

variable (h : Maps T m S)

include h

theorem dir_aligned (hpd : pd ∈ S.dirs) : pd.toNat % 4096 = 0 :=
  h.counted.aligned pd (Spaces.structural_mem (.inr (.inl hpd)))

theorem init_aligned : m.initPageDir.toNat % 4096 = 0 := h.counted.aligned _
    (Spaces.structural_mem (.inl h.initDir))

theorem structural_aligned (hb : S.Structural T b) : b.toNat % 4096 = 0 :=
  h.counted.aligned b (Spaces.structural_mem hb)

theorem loaded_aligned (ha : S.Loaded a) : a.toNat % 4096 = 0 := h.counted.aligned a (h.loaded_mem ha)

/-- Kernel addresses. -/
theorem high (ha : a ∈ S.pages T) : 0xC0000 ≤ pageOf a := le_trans (by decide) (h.counted.bounds ha).1

theorem dir_structural (hpd : pd = m.initPageDir ∨ pd ∈ S.dirs) : S.Structural T pd :=
  hpd.elim (fun hinit => .inl (hinit ▸ h.initDir)) fun hdir => .inr (.inl hdir)

theorem dir_high (hpd : pd = m.initPageDir ∨ pd ∈ S.dirs) : 0xC0000 ≤ pageOf pd :=
  h.high (Spaces.structural_mem (h.dir_structural hpd))

theorem dir_ne_zero (hpd : pd ∈ S.dirs) : pd ≠ 0 := by
  rintro rfl
  exact absurd (h.high (Spaces.structural_mem (.inr (.inl hpd)))) (by decide)

theorem dir_ne_init (hpd : pd ∈ S.dirs) : pd ≠ m.initPageDir := fun hno =>
  h.reserved_apart h.initDir hpd (hno ▸ S.dir_mem T pd)

/-- A table has one place in one directory, and is neither a directory nor `init_page_dir`. -/
theorem table_unique (hpd : pd ∈ S.dirs) (hi : i < 768) (ht : T pd i ≠ 0) {pd' : UInt32}
    (hpd' : pd' ∈ S.dirs)
    (hj : j < 768) (heq : T pd' j = T pd i) : pd' = pd ∧ j = i := by
  have ht' : T pd' j ≠ 0 := heq ▸ ht
  obtain rfl := h.dir_unique hpd' hpd (Spaces.table_mem hj ht') (heq ▸ Spaces.table_mem hi ht)
  exact ⟨rfl, h.slot_unique hpd' hj hi (Spaces.mem_slot.mpr ⟨ht', .inr rfl⟩)
    (Spaces.mem_slot.mpr ⟨ht, .inr heq⟩)⟩

theorem table_ne_reserved (hpd : pd ∈ S.dirs) (hi : i < 768) (ht : T pd i ≠ 0) (hb : b ∈ S.reserved) :
    b ≠ T pd i :=
  fun hno => h.reserved_apart hb hpd (hno ▸ Spaces.table_mem hi ht)

theorem dir_ne_reserved (hpd : pd ∈ S.dirs) (hb : b ∈ S.reserved) : b ≠ pd := by
  rintro rfl
  exact h.reserved_apart hb hpd (S.dir_mem T b)

theorem reserved_aligned (hb : b ∈ S.reserved) : b.toNat % 4096 = 0 :=
  h.counted.aligned b (Spaces.structural_mem (.inl hb))

/-- A word of a page from which no translation is read. -/
theorem put_other {a : UInt32} (ha : a.toNat % 4096 = 0) (hfree : ¬ S.Structural T a) (hj : j < 1024)
    {content : UInt32 → Nat → UInt32}
    (hcontent : ∀ b, S.Loaded b → ∀ k < 1024, (m.put (word a j) w).words (word b k) = content b k) :
    Maps T (m.put (word a j) w) { S with content := content } :=
  h.kept (alike_put m _ _) rfl (fun _ hpd => hpd) rfl rfl rfl h.active.2 (h.counted.put _ _)
    (fun _ hb _ hk => put_word ha (h.structural_aligned hb) hj hk fun hba => hfree (hba.1 ▸ hb)) hcontent

/-- Who holds or maps a page writes in it. -/
theorem write (ha : S.Loaded a) (hj : j < 1024) (w : UInt32) : Maps T (m.put (word a j) w)
    (S.setWord a j w) := by
  refine h.put_other (h.loaded_aligned ha) (h.loaded_free ha) hj fun b hb k hk => ?_
  by_cases heq : b = a ∧ k = j
  · rw [heq.1, heq.2, put_self, Function.update_self, Function.update_self]
  · rw [put_word (h.loaded_aligned ha) (h.loaded_aligned hb) hj hk heq, h.content b hb k hk]
    by_cases hba : b = a
    · rw [hba, Function.update_self, Function.update_of_ne fun hkj => heq ⟨hba, hkj⟩]
    · rw [Function.update_of_ne hba]

/-- An entry of a table changes. -/
theorem entered (hpd : pd ∈ S.dirs) (hi : i < 768) (hj : j < 1024) (ht : T pd i ≠ 0) (e : UInt32)
    {held : List UInt32} (hS : S' = { S.setEntry pd (1024 * i + j) e with held := held })
    (hperm : (S'.pages T).Perm (S.pages T)) (hloaded : ∀ a, S'.Loaded a → S.Loaded a) :
    Maps T (m.put (word (T pd i) j) e) S' := by
  have hta := h.structural_aligned (Spaces.structural_table hpd hi ht)
  have hother : ∀ pd' n, ¬ (pd' = pd ∧ n = 1024 * i + j) → S'.entry pd' n = S.entry pd' n := by
    intro pd' n hno
    rw [hS]
    show Function.update S.entry pd _ pd' n = _
    by_cases hpd' : pd' = pd
    · rw [hpd', Function.update_self, Function.update_of_ne fun hn => hno ⟨hpd', hn⟩]
    · rw [Function.update_of_ne hpd']
  have hself : S'.entry pd (1024 * i + j) = e := by
    rw [hS]
    show Function.update S.entry pd _ pd _ = e
    rw [Function.update_self, Function.update_self]
  have hdirs : S'.dirs = S.dirs := by rw [hS]; rfl
  have hdirword : ∀ pd' ∈ S.dirs, ∀ k < 1024, (m.put (word (T pd i) j) e).words (word pd' k) =
      m.words (word pd' k) :=
    fun pd' hpd' k hk => put_word hta (h.dir_aligned hpd') hj hk fun heq =>
      h.table_ne_dir hpd hpd' hi (Spaces.mem_slot.mpr ⟨ht, .inr rfl⟩) heq.1.symm
  have hres : ∀ b ∈ S.reserved, ∀ k < 1024, (m.put (word (T pd i) j) e).words (word b k) =
      m.words (word b k) :=
    fun b hb k hk => put_word hta (h.reserved_aligned hb) hj hk fun heq =>
      h.table_ne_reserved hpd hi ht hb heq.1
  refine ⟨(h.counted.put _ _).perm hperm.symm, ?_, fun k hk => ?_, fun n => ?_, fun pd' hpd' k hk hno =>
    ?_,
    fun pd' hpd' k hk hyes => ?_, fun pd' hpd' k hk hyes z hz => ?_, fun pd' hpd' k hle hlt => ?_,
    fun k hle hlt => ?_, ?_, ?_, ?_, fun b hb k hk => ?_⟩
  · rw [hS]
    exact h.initDir
  · exact (hres _ h.initDir k (by omega)).trans (h.initBlank k hk)
  · exact (hother _ _ fun hno => h.dir_ne_init hpd hno.1.symm).trans (h.initEntry n)
  · rw [hdirs] at hpd'
    obtain ⟨hzero, hblank⟩ := h.noTable pd' hpd' k hk hno
    refine ⟨(hdirword pd' hpd' k (by omega)).trans hzero, fun z hz => ?_⟩
    rw [hother pd' _ fun heq => ht (by rw [← heq.1, ← (show k = i by omega)]; exact hno)]
    exact hblank z hz
  · rw [hdirs] at hpd'
    rw [hdirword pd' hpd' k (by omega)]
    exact h.table pd' hpd' k hk hyes
  · rw [hdirs] at hpd'
    by_cases heq : pd' = pd ∧ k = i ∧ z = j
    · obtain ⟨rfl, rfl, rfl⟩ := heq
      rw [hself, put_self]
    · have hplace : ¬ (T pd' k = T pd i ∧ z = j) := fun hno => by
        obtain ⟨h1, h2⟩ := h.table_unique hpd hi ht hpd' hk hno.1
        exact heq ⟨h1, h2, hno.2⟩
      rw [put_word hta (h.structural_aligned (Spaces.structural_table hpd' hk hyes)) hj hz hplace,
        hother pd' _ fun hno => heq ⟨hno.1, by omega, by omega⟩]
      exact h.pte pd' hpd' k hk hyes z hz
  · rw [hdirs] at hpd'
    rw [hdirword pd' hpd' k hlt]
    exact (h.kernel pd' hpd' k hle hlt).trans (congrArg (· ||| pteA) (hres _ h.initDir k hlt).symm)
  · refine h.row_congr hle hlt rfl ?_ ?_ hres <;> rw [hS]
    · rfl
    · rfl
  · rw [hS]
    exact h.supervisor
  · rw [hS]
    exact h.direct
  · rw [hS]
    exact h.active
  · have hold := hloaded b hb
    have hcontent : S'.content = S.content := by rw [hS]; rfl
    rw [put_word hta (h.loaded_aligned hold) hj hk fun heq =>
      h.loaded_free hold (heq.1 ▸ Spaces.structural_table hpd hi ht), hcontent]
    exact h.content b hold k hk

/-- The processor marks an entry of a directory, or of `init_page_dir`. -/
theorem marked {pd : UInt32} (hpd : pd = m.initPageDir ∨ pd ∈ S.dirs) (hi : i < 1024)
    (hplace : 768 ≤ i ∧ m.words (word pd i) &&& pteP ≠ 0 ∨ pd ∈ S.dirs ∧ T pd i ≠ 0) :
    Maps T (m.mark (word pd i) pteA) S := by
  have hstruct := h.dir_structural hpd
  have hal := h.structural_aligned hstruct
  have hother : ∀ b : UInt32, b.toNat % 4096 = 0 → ∀ k < 1024, ¬ (b = pd ∧ k = i) →
      (m.mark (word pd i) pteA).words (word b k) = m.words (word b k) := fun b hb k hk hne =>
    put_word hal hb hi hk hne
  have hself : (m.mark (word pd i) pteA).words (word pd i) = m.words (word pd i) ||| pteA := put_self ..
  have hagain : ∀ x : UInt32, x ||| pteA ||| pteA = x ||| pteA := fun x => by
    rw [UInt32.or_assoc, UInt32.or_self]
  have hup : ∀ b : UInt32, b.toNat % 4096 = 0 → ∀ k < 1024,
      (m.mark (word pd i) pteA).words (word b k) ||| pteA = m.words (word b k) ||| pteA :=
      fun b hb k hk => by
    by_cases heq : b = pd ∧ k = i
    · rw [heq.1, heq.2, hself, hagain]
    · rw [hother b hb k hk heq]
  have htable : ∀ pd' ∈ S.dirs, ∀ k < 768, T pd' k ≠ 0 → T pd' k ≠ pd := fun pd' hpd' k hk hyes => by
    rcases hpd with rfl | hpd
    · exact (h.table_ne_reserved hpd' hk hyes h.initDir).symm
    · exact h.table_ne_dir hpd' hpd hk (Spaces.mem_slot.mpr ⟨hyes, .inr rfl⟩)
  refine ⟨h.counted.put _ _, h.initDir, fun k hk => ?_, h.initEntry, fun pd' hpd' k hk hno => ?_,
    fun pd' hpd' k hk hyes => ?_, fun pd' hpd' k hk hyes z hz => ?_, fun pd' hpd' k hle hlt => ?_,
    fun k hle hlt => ?_, h.supervisor, h.direct, h.active, fun b hb k hk => ?_⟩
  · refine (hother _ h.init_aligned k (by omega) ?_).trans (h.initBlank k hk)
    rintro ⟨hinit, rfl⟩
    rcases hplace with ⟨hle, -⟩ | ⟨hno, -⟩
    · omega
    · exact h.dir_ne_init hno hinit.symm
  · refine ⟨(hother pd' (h.dir_aligned hpd') k (by omega) ?_).trans (h.noTable pd' hpd' k hk hno).1,
      (h.noTable pd' hpd' k hk hno).2⟩
    rintro ⟨rfl, rfl⟩
    rcases hplace with ⟨hle, -⟩ | ⟨-, hyes⟩
    · omega
    · exact hyes hno
  · by_cases heq : pd' = pd ∧ k = i
    · obtain ⟨rfl, rfl⟩ := heq
      rw [hself, or_and_other (by decide), or_and_addr (by decide)]
      exact h.table pd' hpd' k hk hyes
    · rw [hother pd' (h.dir_aligned hpd') k (by omega) heq]
      exact h.table pd' hpd' k hk hyes
  · rw [hother _ (h.structural_aligned (Spaces.structural_table hpd' hk hyes)) z hz fun hno =>
      htable pd' hpd' k hk hyes hno.1]
    exact h.pte pd' hpd' k hk hyes z hz
  · show (m.mark (word pd i) pteA).words (word pd' k) ||| pteA =
      (m.mark (word pd i) pteA).words (word m.initPageDir k) ||| pteA
    rw [hup pd' (h.dir_aligned hpd') k hlt, hup _ h.init_aligned k hlt]
    exact h.kernel pd' hpd' k hle hlt
  · rcases h.row k hle hlt with ⟨hzero, hnone⟩ | ⟨hp, pt, hpt, hne, haddr, hrow⟩
    · refine .inl ⟨(hother _ h.init_aligned k hlt ?_).trans hzero, hnone⟩
      rintro ⟨hinit, rfl⟩
      rcases hplace with ⟨-, hyes⟩ | ⟨hno, -⟩
      · rw [← hinit, hzero] at hyes
        exact hyes rfl
      · exact h.dir_ne_init hno hinit.symm
    · have hptne : pt ≠ pd := hpd.elim (fun hinit => hinit ▸ hne) fun hdir => h.dir_ne_reserved hdir hpt
      have hmark : (m.mark (word pd i) pteA).words (word m.initPageDir k) =
          m.words (word m.initPageDir k) ∨
          (m.mark (word pd i) pteA).words (word m.initPageDir k) = m.words
          (word m.initPageDir k) ||| pteA := by
        by_cases heq : m.initPageDir = pd ∧ k = i
        · exact .inr (by rw [heq.1, heq.2, hself])
        · exact .inl (hother _ h.init_aligned k hlt heq)
      have hrow' : ∀ j < 1024, SameMarked ((m.mark (word pd i) pteA).words (word pt j))
        (S.kernel (1024 * k + j)) :=
        fun j hj => by
          rw [hother pt (h.reserved_aligned hpt) j hj fun hno => hptne hno.1]
          exact hrow j hj
      refine .inr ?_
      show (m.mark (word pd i) pteA).words (word m.initPageDir k) &&& pteP ≠ 0 ∧ ∃ pt ∈ S.reserved,
        pt ≠ m.initPageDir ∧ ptov ((m.mark (word pd i) pteA).words (word m.initPageDir k) &&& pteAddr) =
        pt ∧ _
      rcases hmark with hmark | hmark <;> rw [hmark]
      · exact ⟨hp, pt, hpt, hne, haddr, hrow'⟩
      · rw [or_and_other (by decide), or_and_addr (by decide)]
        exact ⟨hp, pt, hpt, hne, haddr, hrow'⟩
  · rw [hother b (h.loaded_aligned hb) k hk fun hno => h.loaded_free hb (hno.1 ▸ hstruct)]
    exact h.content b hb k hk

/-- The processor marks an entry of the kernel's. -/
theorem markedKernel (hb : b ∈ S.reserved) (hne : b ≠ m.initPageDir) (hj : j < 1024)
    (hf : f ||| (pteA ||| pteD) = pteA ||| pteD) : Maps T (m.mark (word b j) f) S := by
  have hal := h.reserved_aligned hb
  have hself : (m.mark (word b j) f).words (word b j) = m.words (word b j) ||| f := put_self ..
  have hother : ∀ c : UInt32, c.toNat % 4096 = 0 → ∀ k < 1024, ¬ (c = b ∧ k = j) →
      (m.mark (word b j) f).words (word c k) = m.words (word c k) := fun c hc k hk hno =>
    put_word hal hc hj hk hno
  have hinit : ∀ k < 1024, (m.mark (word b j) f).words (word m.initPageDir k) =
      m.words (word m.initPageDir k) :=
    fun k hk => hother _ h.init_aligned k hk fun hno => hne hno.1.symm
  have hdir : ∀ pd ∈ S.dirs, ∀ k < 1024, (m.mark (word b j) f).words (word pd k) = m.words (word pd k) :=
    fun pd hpd k hk => hother pd (h.dir_aligned hpd) k hk fun hno => h.dir_ne_reserved hpd hb hno.1.symm
  refine ⟨h.counted.put _ _, h.initDir, fun k hk => (hinit k (by omega)).trans (h.initBlank k hk),
    h.initEntry,
    fun pd hpd k hk hno => ?_, fun pd hpd k hk hyes => ?_, fun pd hpd k hk hyes z hz => ?_,
    fun pd hpd k hle hlt => ?_, fun k hle hlt => ?_, h.supervisor, h.direct, h.active, fun c hc k hk =>
      ?_⟩
  · rw [hdir pd hpd k (by omega)]
    exact h.noTable pd hpd k hk hno
  · rw [hdir pd hpd k (by omega)]
    exact h.table pd hpd k hk hyes
  · rw [hother _ (h.structural_aligned (Spaces.structural_table hpd hk hyes)) z hz fun hno =>
      h.table_ne_reserved hpd hk hyes hb hno.1.symm]
    exact h.pte pd hpd k hk hyes z hz
  · show (m.mark (word b j) f).words (word pd k) ||| pteA =
      (m.mark (word b j) f).words (word m.initPageDir k) ||| pteA
    rw [hdir pd hpd k hlt, hinit k hlt]
    exact h.kernel pd hpd k hle hlt
  · show (m.mark (word b j) f).words (word m.initPageDir k) = 0 ∧ _ ∨
      (m.mark (word b j) f).words (word m.initPageDir k) &&& pteP ≠ 0 ∧ ∃ pt ∈ S.reserved,
      pt ≠ m.initPageDir ∧
        ptov ((m.mark (word b j) f).words (word m.initPageDir k) &&& pteAddr) = pt ∧ _
    rw [hinit k hlt]
    refine (h.row k hle hlt).imp id fun ⟨hp, pt, hpt, hptne, haddr, hrow⟩ =>
      ⟨hp, pt, hpt, hptne, haddr, fun z hz => ?_⟩
    by_cases heq : pt = b ∧ z = j
    · have hold := hrow z hz
      rw [heq.1, heq.2] at hold ⊢
      rw [hself]
      unfold SameMarked at hold ⊢
      rw [UInt32.or_assoc, hf]
      exact hold
    · rw [hother pt (h.reserved_aligned hpt) z hz heq]
      exact hrow z hz
  · rw [hother c (h.loaded_aligned hc) k hk fun hno => h.loaded_free hc (hno.1 ▸ .inl hb)]
    exact h.content c hc k hk

/-- CR3 is loaded. -/
theorem flushed (hpd : pd = m.initPageDir ∨ pd ∈ S.dirs) :
    Shows T { m with cr3 := pd - physBase, tlb := fun _ => none } { S with active := pd } :=
  ⟨⟨⟨⟨h.counted.ok.pool, h.counted.ok.apart⟩, h.counted.ram, h.counted.nodup, h.counted.used,
    h.counted.aligned⟩,
    h.initDir, h.initBlank, h.initEntry, h.noTable, h.table, h.pte, h.kernel, h.row, h.supervisor,
    h.direct, ⟨ptov_vtop pd, hpd⟩,
    h.content⟩, fun _ _ _ hno => (by cases hno), fun _ _ _ _ hno => (by cases hno)⟩

end Maps

/-- What is held last was not held or mapped before. -/
theorem Maps.hold_fresh {row : Nat → UInt32} (h : Maps T m (S.hold a row)) (hb : S.Loaded b) : b ≠ a := by
  rintro rfl
  rcases hb with hb | ⟨pd, hpd, n, hn, hb⟩
  · have hnodup := (h.counted.perm (Spaces.pages_hold S T b row)).nodup
    exact (List.nodup_cons.mp hnodup).1 (Spaces.mem_pages.mpr (.inr (.inl hb)))
  · obtain ⟨ht, hf⟩ := h.frame_slot hpd hn hb
    exact (h.held_apart (List.mem_cons_self ..)).2 pd hpd
      (Spaces.mem_dirPages.mpr (.inl ⟨n / 1024, by omega, Spaces.mem_slot.mpr ⟨ht, .inl hf⟩⟩))

/-- A page that is held becomes a table, with nothing in it. -/
theorem Maps.installed {row : Nat → UInt32} (h : Maps T m (S.hold a row)) (hpd : pd ∈ S.dirs)
    (hi : i < 768)
    (ht : T pd i = 0) (hblank : ∀ j < 1024, row j = 0) (hp : e &&& pteP ≠ 0)
    (hpt : ptov (e &&& pteAddr) = a) :
    Maps (Function.update T pd (Function.update (T pd) i a)) (m.put (word pd i) e) S := by
  have ha : a ∈ (S.hold a row).held := List.mem_cons_self ..
  have hmem : a ∈ (S.hold a row).pages T := Spaces.mem_pages.mpr (.inr (.inl ha))
  have hane : a ≠ 0 := by
    rintro rfl
    exact absurd (h.high hmem) (by decide)
  have hal := h.counted.aligned a hmem
  have hpdal := h.dir_aligned hpd
  have hnodup : S.dirs.Nodup := h.dirs_nodup
  have hblankdir : ∀ j < 1024, S.entry pd (1024 * i + j) = 0 := (h.noTable pd hpd i hi ht).2
  obtain ⟨hnew, hsame⟩ : (∀ T', T' = Function.update T pd (Function.update (T pd) i a) → T' pd i = a) ∧
      ∀ T', T' = Function.update T pd (Function.update (T pd) i a) → ∀ pd' k, ¬ (pd' = pd ∧ k = i) →
        T' pd' k = T pd' k := by
    refine ⟨fun T' hT => by rw [hT, Function.update_self, Function.update_self], fun T' hT pd' k hk => ?_⟩
    rw [hT]
    by_cases hpd' : pd' = pd
    · rw [hpd', Function.update_self, Function.update_of_ne fun hki => hk ⟨hpd', hki⟩]
    · rw [Function.update_of_ne hpd']
  generalize hT : Function.update T pd (Function.update (T pd) i a) = T' at hnew hsame
  replace hnew := hnew T' rfl
  replace hsame := hsame T' rfl
  have hother : ∀ b : UInt32, b.toNat % 4096 = 0 → ∀ k < 1024, ¬ (b = pd ∧ k = i) →
      (m.put (word pd i) e).words (word b k) = m.words (word b k) := fun b hb k hk hne =>
    put_word hpdal hb (by omega) hk hne
  have hperm : ((S.hold a row).pages T).Perm (S.pages T') := by
    refine (Spaces.pages_hold S T a row).trans ?_
    rw [← hT]
    exact (Spaces.pages_table hnodup hpd hi hane ht hblankdir).symm
  have hres : ∀ b ∈ S.reserved, ∀ k < 1024, (m.put (word pd i) e).words (word b k) = m.words (word b k) :=
    fun b hb k hk => hother b (h.reserved_aligned hb) k hk fun hno => h.dir_ne_reserved hpd hb hno.1
  have hinit : ∀ k < 1024, (m.put (word pd i) e).words (word m.initPageDir k) =
      m.words (word m.initPageDir k) :=
    fun k hk => hres _ h.initDir k hk
  refine ⟨(h.counted.put _ _).perm hperm, h.initDir, fun k hk =>
    (hinit k (by omega)).trans (h.initBlank k hk),
    h.initEntry, fun pd' hpd' k hk hno => ?_, fun pd' hpd' k hk hyes => ?_,
    fun pd' hpd' k hk hyes z hz => ?_,
    fun pd' hpd' k hle hlt => ?_, fun k hle hlt => h.row_congr hle hlt rfl rfl rfl hres, h.supervisor,
      h.direct, h.active,
    fun b hb k hk => ?_⟩
  · have hne : ¬ (pd' = pd ∧ k = i) := by
      rintro ⟨rfl, rfl⟩
      exact hane (hnew.symm.trans hno)
    rw [hsame pd' k hne] at hno
    rw [hother pd' (h.dir_aligned hpd') k (by omega) hne]
    exact h.noTable pd' hpd' k hk hno
  · by_cases heq : pd' = pd ∧ k = i
    · obtain ⟨rfl, rfl⟩ := heq
      rw [put_self, hnew]
      exact ⟨hp, hpt⟩
    · rw [hsame pd' k heq] at hyes ⊢
      rw [hother pd' (h.dir_aligned hpd') k (by omega) heq]
      exact h.table pd' hpd' k hk hyes
  · by_cases heq : pd' = pd ∧ k = i
    · obtain ⟨rfl, rfl⟩ := heq
      rw [hnew, hother a hal z hz fun hno => (h.held_apart ha).2 pd' hpd' (hno.1 ▸ S.dir_mem T a),
        h.content a (.inl ha) z hz, hblankdir z hz]
      show Function.update S.content a row a z = 0
      rw [Function.update_self]
      exact hblank z hz
    · rw [hsame pd' k heq] at hyes ⊢
      rw [hother _ (h.structural_aligned (Spaces.structural_table hpd' hk hyes)) z hz fun hno =>
        h.table_ne_dir hpd' hpd hk (Spaces.mem_slot.mpr ⟨hyes, .inr rfl⟩) hno.1]
      exact h.pte pd' hpd' k hk hyes z hz
  · rw [hother pd' (h.dir_aligned hpd') k hlt fun hno => by omega]
    exact (h.kernel pd' hpd' k hle hlt).trans (congrArg (· ||| pteA) (hinit k hlt).symm)
  · have hold : (S.hold a row).Loaded b := hb.imp (List.mem_cons_of_mem a) id
    have hba := h.hold_fresh hb
    rw [hother b (h.loaded_aligned hold) k hk fun hno =>
      h.loaded_free hold (hno.1 ▸ .inr (.inl hpd)), h.content b hold k hk]
    show Function.update S.content a row b k = _
    rw [Function.update_of_ne hba]

/-! ## Directories that come and go -/

/-- A page that is held becomes a directory, a copy of `init_page_dir`. -/
theorem Maps.adopted {row : Nat → UInt32} (h : Maps T m (S.hold a row))
    (hm : m.Alike m') (hused : m'.used = m.used)
    (hself : ∀ k < 1024, m'.words (word a k) = m.words (word m.initPageDir k))
    (hother : ∀ b : UInt32, b.toNat % 4096 = 0 → b ≠ a → ∀ k < 1024,
    m'.words (word b k) = m.words (word b k)) :
    Maps (Function.update T a fun _ => 0) m'
      { S with dirs := a :: S.dirs, entry := Function.update S.entry a fun _ => 0 } := by
  have ha : a ∈ (S.hold a row).held := List.mem_cons_self ..
  have hfresh := (h.held_apart ha).2
  have hdirne : ∀ pd ∈ S.dirs, pd ≠ a := fun pd hpd hno => hfresh pd hpd (hno ▸ S.dir_mem T pd)
  have hinitne : m.initPageDir ≠ a := fun hno => (h.held_apart ha).1 (hno ▸ h.initDir)
  generalize hT : Function.update T a (fun _ => 0) = T'
  have hTself : ∀ i, T' a i = 0 := fun i => by rw [← hT, Function.update_self]
  have hTother : ∀ pd, pd ≠ a → T' pd = T pd := fun pd hne => by rw [← hT, Function.update_of_ne hne]
  generalize hS : ({ S with
    dirs := a :: S.dirs, entry := Function.update S.entry a fun _ => 0 } : Spaces) = S'
  have hentry : ∀ n, S'.entry a n = 0 := fun n => by
    rw [← hS]
    show Function.update S.entry a (fun _ => 0) a n = 0
    rw [Function.update_self]
  have hentryother : ∀ pd, pd ≠ a → S'.entry pd = S.entry pd := fun pd hne => by
    rw [← hS]
    exact Function.update_of_ne hne ..
  have hdirs : S'.dirs = a :: S.dirs := by rw [← hS]
  have hpages : (S'.pages T').Perm ((S.hold a row).pages T) := by
    have hrest : S.dirs.flatMap (S'.dirPages T') = S.dirs.flatMap (S.dirPages T) := by
      refine List.flatMap_congr fun pd hpd => ?_
      unfold Spaces.dirPages
      have hslots :
          (List.range 768).flatMap (S'.slot T' pd) = (List.range 768).flatMap (S.slot T pd) := by
        refine List.flatMap_congr fun i _ => ?_
        unfold Spaces.slot Spaces.frames
        rw [hTother pd (hdirne pd hpd), hentryother pd (hdirne pd hpd)]
      rw [hslots]
    have hnew : S'.dirPages T' a = [a] := by
      unfold Spaces.dirPages
      have hslots : (List.range 768).flatMap (S'.slot T' a) = [] :=
        List.flatMap_eq_nil_iff.mpr fun i _ => by
          unfold Spaces.slot
          rw [if_pos (hTself i)]
      rw [hslots, List.nil_append]
    refine List.Perm.trans ?_ (Spaces.pages_hold S T a row).symm
    unfold Spaces.pages
    rw [hdirs, List.flatMap_cons, hnew, hrest, ← hS]
    exact List.perm_middle
  refine ⟨(h.counted.congr hm hused).perm hpages.symm, ?_, fun i hi => ?_, fun n => ?_,
    fun pd hpd i hi hno => ?_,
    fun pd hpd i hi hyes => ?_, fun pd hpd i hi hyes j hj => ?_, fun pd hpd i hle hlt => ?_,
      fun i hle hlt => ?_,
    ?_, ?_, ?_, fun b hb k hk => ?_⟩
  · rw [hm.initDir, ← hS]
    exact h.initDir
  · rw [hm.initDir, hother _ h.init_aligned hinitne i (by omega)]
    exact h.initBlank i hi
  · rw [hm.initDir, hentryother _ hinitne]
    exact h.initEntry n
  · rw [hdirs] at hpd
    rcases List.mem_cons.mp hpd with rfl | hpd
    · exact ⟨(hself i (by omega)).trans (h.initBlank i hi), fun j _ => hentry _⟩
    · rw [hTother pd (hdirne pd hpd)] at hno
      rw [hother pd (h.dir_aligned hpd) (hdirne pd hpd) i (by omega), hentryother pd (hdirne pd hpd)]
      exact h.noTable pd hpd i hi hno
  · rw [hdirs] at hpd
    rcases List.mem_cons.mp hpd with rfl | hpd
    · exact absurd (hTself i) hyes
    · rw [hTother pd (hdirne pd hpd)] at hyes ⊢
      rw [hother pd (h.dir_aligned hpd) (hdirne pd hpd) i (by omega)]
      exact h.table pd hpd i hi hyes
  · rw [hdirs] at hpd
    rcases List.mem_cons.mp hpd with rfl | hpd
    · exact absurd (hTself i) hyes
    · rw [hTother pd (hdirne pd hpd)] at hyes ⊢
      have htable : T pd i ≠ a := fun hno => hfresh pd hpd (hno ▸ Spaces.table_mem hi hyes)
      rw [hother _ (h.structural_aligned (Spaces.structural_table hpd hi hyes)) htable j hj,
        hentryother pd (hdirne pd hpd)]
      exact h.pte pd hpd i hi hyes j hj
  · rw [hdirs] at hpd
    rw [hm.initDir, hother _ h.init_aligned hinitne i hlt]
    rcases List.mem_cons.mp hpd with rfl | hpd
    · rw [hself i hlt]
    · rw [hother pd (h.dir_aligned hpd) (hdirne pd hpd) i hlt]
      exact h.kernel pd hpd i hle hlt
  · refine h.row_congr hle hlt hm.initDir ?_ ?_ (fun b hb j hj => hother b (h.reserved_aligned hb)
      (fun hno => (h.held_apart ha).1 (hno ▸ hb)) j hj) <;> rw [← hS]
    · rfl
    · rfl
  · rw [← hS]
    exact h.supervisor
  · rw [← hS]
    exact h.direct
  · rw [hm.cr3, hm.initDir, hdirs, ← hS]
    exact ⟨h.active.1, h.active.2.imp_right (List.mem_cons_of_mem a)⟩
  · have hcontent : S'.content = S.content := by rw [← hS]
    have hold : S.Loaded b := by
      rcases hb with hb | ⟨pd, hpd, n, hn, hb⟩
      · rw [← hS] at hb
        exact .inl hb
      · rw [hdirs] at hpd
        rcases List.mem_cons.mp hpd with rfl | hpd
        · rw [hentry] at hb
          exact absurd hb List.not_mem_nil
        · rw [hentryother pd (hdirne pd hpd)] at hb
          exact .inr ⟨pd, hpd, n, hn, hb⟩
    have hne := h.hold_fresh hold
    have hin : (S.hold a row).Loaded b := hold.imp (List.mem_cons_of_mem a) id
    rw [hother b (h.loaded_aligned hin) hne k hk, h.content b hin k hk, hcontent]
    show Function.update S.content a row b k = _
    rw [Function.update_of_ne hne]

/-- Pages have been given back; what is left is as it was. -/
structure Left (m : Machine) (l : List UInt32) (m' : Machine) : Prop where
  alike : m.Alike m'
  counted : Counted m' l
  words : ∀ b ∈ l, ∀ j < 1024, m'.words (word b j) = m.words (word b j)

namespace Left

theorem refl (h : Counted m l) : Left m l m := ⟨.refl m, h, fun _ _ _ _ => rfl⟩

theorem perm (h : Left m l m') (hp : l.Perm l') : Left m l' m' :=
  ⟨h.alike, h.counted.perm hp, fun b hb => h.words b (hp.mem_iff.mpr hb)⟩

/-- A page that is in use goes back to its pool; the others stay. -/
theorem free_spec (h : Left m (a :: l) m') : wp (pallocFreePage a)
    (fun _ m'' => Left m l m'') never m' := by
  have hmem : a ∈ a :: l := List.mem_cons_self ..
  have hbounds := (h.counted.bounds hmem).1
  have hlow : 0 < a.toNat := by
    unfold pageOf at hbounds
    omega
  refine wp_mono h.counted.free_spec (fun _ m'' ⟨hf, hc⟩ => ?_) fun _ _ he => he
  refine ⟨h.alike.trans hf.alike, hc, fun b hb j hj => ?_⟩
  have hbin := List.mem_cons_of_mem a hb
  have hne : b ≠ a := fun hba => (List.nodup_cons.mp h.counted.nodup).1 (hba ▸ hb)
  rw [hf.others (h.counted.aligned a hmem) hlow (h.counted.aligned b hbin)
    (h.counted.apart hbin hmem hne) hj]
  exact h.words b hbin j hj

end Left

/-- What is left is the pages of address spaces. -/
theorem Maps.left (h : Maps T m S) (hl : Left m (S'.pages T) m') (hr : S'.reserved = S.reserved)
    (hheld : ∀ a ∈ S'.held, a ∈ S.held) (hd : ∀ pd ∈ S'.dirs, pd ∈ S.dirs) (he : S'.entry = S.entry)
    (hcontent : S'.content = S.content) (ha : S'.active = S.active)
    (hk : S'.kernel = S.kernel) (hactive : S.active = m.initPageDir ∨ S.active ∈ S'.dirs) :
        Maps T m' S' := by
  refine h.kept hl.alike hr hd he ha hk hactive hl.counted (fun b hb =>
    hl.words b (Spaces.structural_mem hb)) fun b hb j hj => ?_
  · rcases hb with hb | ⟨pd, hpd, n, hn, hb⟩
    · rw [hl.words b (Spaces.mem_pages.mpr (.inr (.inl hb))) j hj, hcontent]
      exact h.content b (.inl (hheld b hb)) j hj
    · have hold : b ∈ frameOf (S.entry pd n) := he ▸ hb
      obtain ⟨ht, hf⟩ := h.frame_slot (hd pd hpd) hn hold
      have hf' : b ∈ S'.frames pd (n / 1024) := by
        unfold Spaces.frames
        rw [he]
        exact hf
      have hmem : b ∈ S'.pages T := Spaces.mem_pages.mpr (.inr (.inr ⟨pd, hpd, Spaces.mem_dirPages.mpr
        (.inl ⟨n / 1024, by omega, Spaces.mem_slot.mpr ⟨ht, .inl hf'⟩⟩)⟩))
      rw [hl.words b hmem j hj, hcontent]
      exact h.content b (.inr ⟨pd, hd pd hpd, n, hn, hold⟩) j hj

end CS162.Paging
