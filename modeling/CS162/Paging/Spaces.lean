/-
# `CS162.Paging.Spaces` — address spaces

`Spaces` is what page directories are for: each has an entry for every page of its user, and the pages of
memory have owners.  A page is reserved for the kernel, or held by whoever has allocated it, or it belongs
to a directory: the directory itself, one of its tables, or a frame that it maps.  What is in the pages
that are held or mapped is known.  The kernel's own pages have one entry each, for all directories.

`Maps T m S` says that the memory of the machine `m` is an implementation of `S`, with the page tables
`T`; `Shows T m S` says so of the translations that the processor has cached, too.
-/
import CS162.Lib.Holdings
import CS162.Paging.Entries

namespace CS162.Paging

open Userprog.UserMem Wp

/-! ## The abstract state -/

structure Spaces where
  reserved : List UInt32
  held : List UInt32
  dirs : List UInt32
  entry : UInt32 → Nat → UInt32
  content : UInt32 → Nat → UInt32
  active : UInt32
  kernel : Nat → UInt32

/-- The page tables of directories, by number; 0 if there is none. -/
abbrev PageTables := UInt32 → Nat → UInt32

/-- The frame that an entry maps. -/
def frameOf (e : UInt32) : List UInt32 := if e &&& pteP = 0 then [] else [ptov (e &&& pteAddr)]

namespace Spaces

variable (S : Spaces) (T : PageTables)

/-- The frames of one table. -/
def frames (pd : UInt32) (i : Nat) : List UInt32 :=
  (List.range 1024).flatMap fun j => frameOf (S.entry pd (1024 * i + j))

/-- A table and its frames. -/
def slot (pd : UInt32) (i : Nat) : List UInt32 := if T pd i = 0 then [] else S.frames pd i ++ [T pd i]

/-- The pages of a directory. -/
def dirPages (pd : UInt32) : List UInt32 := (List.range 768).flatMap (S.slot T pd) ++ [pd]

def pages : List UInt32 := S.reserved ++ S.held ++ S.dirs.flatMap (S.dirPages T)

/-- The pages that translations are read from; those that are reserved may be. -/
def Structural (b : UInt32) : Prop :=
  b ∈ S.reserved ∨ b ∈ S.dirs ∨ ∃ pd ∈ S.dirs, ∃ i < 768, T pd i ≠ 0 ∧ b = T pd i

/-- The pages whose words are up to those who hold or map them. -/
def Loaded (a : UInt32) : Prop := a ∈ S.held ∨ ∃ pd ∈ S.dirs, ∃ n < 0xC0000, a ∈ frameOf (S.entry pd n)

def hold (a : UInt32) (row : Nat → UInt32) : Spaces :=
  { S with held := a :: S.held, content := Function.update S.content a row }

def setWord (a : UInt32) (j : Nat) (w : UInt32) : Spaces :=
  { S with content := Function.update S.content a (Function.update (S.content a) j w) }

def setEntry (pd : UInt32) (n : Nat) (e : UInt32) : Spaces :=
  { S with entry := Function.update S.entry pd (Function.update (S.entry pd) n e) }

end Spaces

/-- The pages in use are those of the list, each once. -/
structure Counted (m : Machine) (l : List UInt32) : Prop where
  ok : m.Ok
  ram : ∀ user k, (m.pool user).Has k → 0xC0100 ≤ k ∧ k < 0xC0000 + m.initRamPages.toNat
  nodup : l.Nodup
  used : ∀ k, k ∈ m.used ↔ ∃ a ∈ l, pageOf a = k
  aligned : ∀ a ∈ l, a.toNat % 4096 = 0

/-- Entries that are alike up to the bits that the processor sets. -/
def SameMarked (e p : UInt32) : Prop := e ||| (pteA ||| pteD) = p ||| (pteA ||| pteD)

/-- One entry of `init_page_dir` for the kernel: the pages that it leads to have the entries that they are
to have, in a table that is reserved. -/
def KernelRow (m : Machine) (S : Spaces) (i : Nat) : Prop :=
  m.words (word m.initPageDir i) = 0 ∧ (∀ j < 1024, S.kernel (1024 * i + j) = 0) ∨
  m.words (word m.initPageDir i) &&& pteP ≠ 0 ∧ ∃ pt ∈ S.reserved, pt ≠ m.initPageDir ∧
    ptov (m.words (word m.initPageDir i) &&& pteAddr) = pt ∧
    ∀ j < 1024, SameMarked (m.words (word pt j)) (S.kernel (1024 * i + j))

/-- The memory of the machine is an implementation of the address spaces. -/
structure Maps (T : PageTables) (m : Machine) (S : Spaces) : Prop where
  counted : Counted m (S.pages T)
  initDir : m.initPageDir ∈ S.reserved
  initBlank : ∀ i < 768, m.words (word m.initPageDir i) = 0
  initEntry : ∀ n, S.entry m.initPageDir n = 0
  noTable : ∀ pd ∈ S.dirs, ∀ i < 768, T pd i = 0 →
    m.words (word pd i) = 0 ∧ ∀ j < 1024, S.entry pd (1024 * i + j) = 0
  table : ∀ pd ∈ S.dirs, ∀ i < 768, T pd i ≠ 0 →
    m.words (word pd i) &&& pteP ≠ 0 ∧ ptov (m.words (word pd i) &&& pteAddr) = T pd i
  pte : ∀ pd ∈ S.dirs, ∀ i < 768, T pd i ≠ 0 → ∀ j < 1024,
    m.words (word (T pd i) j) = S.entry pd (1024 * i + j)
  kernel : ∀ pd ∈ S.dirs, ∀ i, 768 ≤ i → i < 1024 →
    m.words (word pd i) ||| pteA = m.words (word m.initPageDir i) ||| pteA
  row : ∀ i, 768 ≤ i → i < 1024 → KernelRow m S i
  supervisor : ∀ n, S.kernel n &&& pteU = 0
  direct : ∀ n, S.kernel n &&& pteP ≠ 0 → ptov (S.kernel n &&& pteAddr) = UInt32.ofNat (4096 * n)
  active : ptov m.cr3 = S.active ∧ (S.active = m.initPageDir ∨ S.active ∈ S.dirs)
  content : ∀ a, S.Loaded a → ∀ j < 1024, m.words (word a j) = S.content a j

/-- And what the processor has cached is what the tables say. -/
structure Shows (T : PageTables) (m : Machine) (S : Spaces) : Prop extends Maps T m S where
  tlb : ∀ n < 0xC0000, ∀ e, m.tlb (UInt32.ofNat n) = some e → e &&& pteP ≠ 0 ∧
    Cached e (S.entry S.active n)
  kernelTlb : ∀ n, 0xC0000 ≤ n → n < 0x100000 → ∀ e, m.tlb (UInt32.ofNat n) = some e →
    e &&& pteP ≠ 0 ∧ SameMarked e (S.kernel n)

variable {T T' : PageTables} {m m' : Machine} {S S' : Spaces} {a b e pd v w : UInt32} {l l' : List UInt32}
  {flags : Flags} {i j n : Nat}

/-! ## Accounts -/

theorem pageOf_inj (ha : a.toNat % 4096 = 0) (hb : b.toNat % 4096 = 0) (h : pageOf a = pageOf b) :
    a = b := by
  unfold pageOf at h
  exact UInt32.toNat_inj.mp (by omega)

theorem mem_block_one {k : Nat} : k ∈ block a 1 ↔ k = pageOf a := by
  have h1 : (1 : UInt32).toNat = 1 := rfl
  unfold block pageOf
  rw [Set.mem_ofPred_eq, h1]
  omega

namespace Counted

theorem perm (h : Counted m l) (hp : l.Perm l') : Counted m l' :=
  ⟨h.ok, h.ram, hp.nodup_iff.mp h.nodup, fun k => by
    rw [h.used]
    exact exists_congr fun a => and_congr_left fun _ => hp.mem_iff, fun a ha =>
      h.aligned a (hp.mem_iff.mpr ha)⟩

/-- Nothing has been handed out or given back. -/
theorem congr (h : Counted m l) (hm : m.Alike m') (hused : m'.used = m.used) : Counted m' l :=
  ⟨hm.ok h.ok, fun u k hk => hm.ram ▸ h.ram u k ((hm.has u k).mp hk), h.nodup, fun k =>
    by rw [hused, h.used],
    h.aligned⟩

theorem has (h : Counted m l) (ha : a ∈ l) : ∃ user, (m.pool user).Has (pageOf a) := by
  obtain ⟨user, hu⟩ := (m.mem_used _).mp ((h.used _).mpr ⟨a, ha, rfl⟩)
  exact ⟨user, hu.1⟩

/-- Where the pages are. -/
theorem bounds (h : Counted m l) (ha : a ∈ l) : 0xC0100 ≤ pageOf a ∧
    pageOf a < 0xC0000 + m.initRamPages.toNat := by
  obtain ⟨user, hu⟩ := h.has ha
  exact h.ram user _ hu

theorem apart (h : Counted m l) (ha : a ∈ l) (hb : b ∈ l) (hne : a ≠ b) : pageOf a ≠ pageOf b :=
    fun hab =>
  hne (pageOf_inj (h.aligned a ha) (h.aligned b hb) hab)

theorem got (h : Counted m l) (hg : Got m flags 1 a m') : Counted m' (a :: l) ∧ ∀ b ∈ l,
    pageOf b ≠ pageOf a := by
  have hfresh : ∀ b ∈ l, pageOf b ≠ pageOf a := fun b hb hab =>
    Set.disjoint_left.mp (hg.fresh h.ok) (mem_block_one.mpr rfl) ((h.used _).mpr ⟨b, hb, hab⟩)
  refine ⟨⟨hg.alike.ok h.ok, fun u k hk => hg.alike.ram ▸ h.ram u k ((hg.alike.has u k).mp hk),
    List.nodup_cons.mpr ⟨fun ha => hfresh a ha rfl, h.nodup⟩, fun k => ?_,
    List.forall_mem_cons.mpr ⟨hg.aligned, h.aligned⟩⟩, hfresh⟩
  rw [hg.used, h.used, mem_block_one]
  simp only [List.mem_cons, exists_eq_or_imp]
  exact or_comm.trans (or_congr_left eq_comm)

/-- A page of the list can be given back. -/
theorem free_spec (h : Counted m (a :: l)) :
    wp (pallocFreePage a) (fun _ m' => Freed m a 1 m' ∧ Counted m' l) never m := by
  obtain ⟨hno, hnodup⟩ := List.nodup_cons.mp h.nodup
  have hmem : a ∈ a :: l := List.mem_cons_self ..
  obtain ⟨user, hhas⟩ := h.has hmem
  have hlow := (h.bounds hmem).1
  have hfree : wp (pallocFreeMultiple a 1) (fun _ m' => Freed m a 1 m') never m := by
    have hrange : ∀ k ∈ block a 1, (m.pool user).Has k := fun k hk => by
      rw [mem_block_one.mp hk]
      exact hhas
    refine pallocFreeMultiple_spec h.ok (by decide) (h.aligned a hmem)
      (by unfold pageOf at hlow; omega) hrange fun k hk => ?_
    rw [mem_block_one.mp hk]
    exact (h.used _).mpr ⟨a, hmem, rfl⟩
  refine wp_mono hfree (fun _ m' hf => ⟨hf, ?_⟩) fun _ _ he => he
  refine ⟨hf.alike.ok h.ok, fun u k hk => hf.alike.ram ▸ h.ram u k ((hf.alike.has u k).mp hk), hnodup,
    fun k => ?_, fun b hb => h.aligned b (List.mem_cons_of_mem a hb)⟩
  rw [hf.used, h.used, mem_block_one]
  simp only [List.mem_cons, exists_eq_or_imp]
  constructor
  · rintro ⟨rfl | hb, hne⟩
    · exact absurd rfl hne
    · exact hb
  · rintro ⟨b, hb, rfl⟩
    exact ⟨.inr ⟨b, hb, rfl⟩, h.apart (List.mem_cons_of_mem a hb) hmem fun hba => hno (hba ▸ hb)⟩

end Counted

/-- What `palloc_get_page` leaves in the other pages. -/
theorem Got.others (hg : Got m flags 1 a m') (hm : m.Ok) (hb : b.toNat % 4096 = 0)
    (hne : pageOf b ≠ pageOf a)
    (hi : i < 1024) : m'.words (word b i) = m.words (word b i) := by
  rw [hg.words_eq hm (by decide)]
  refine if_neg fun hno => hne ?_
  have hpage := mem_block_one.mp hno.2
  rw [word_page hb hi] at hpage
  exact hpage

theorem Freed.others (hf : Freed m a 1 m') (ha : a.toNat % 4096 = 0) (hlow : 0 < a.toNat)
    (hb : b.toNat % 4096 = 0) (hne : pageOf b ≠ pageOf a) (hi : i < 1024) :
    m'.words (word b i) = m.words (word b i) := by
  have h1 : (1 : UInt32).toNat = 1 := rfl
  have hlt := a.toNat_lt
  rw [hf.words, fill_words ha hlow (by rw [h1]; omega), word_page hb hi, h1]
  refine if_neg fun hno => hne ?_
  unfold pageOf
  omega

/-! ## Owners -/

namespace Spaces

theorem mem_pages : b ∈ S.pages T ↔ b ∈ S.reserved ∨ b ∈ S.held ∨ ∃ pd ∈ S.dirs, b ∈ S.dirPages T pd := by
  unfold pages
  rw [List.mem_append, List.mem_append, List.mem_flatMap, or_assoc]

theorem mem_dirPages : b ∈ S.dirPages T pd ↔ (∃ i < 768, b ∈ S.slot T pd i) ∨ b = pd := by
  unfold dirPages
  rw [List.mem_append, List.mem_flatMap, List.mem_singleton]
  simp only [List.mem_range]

theorem mem_slot : b ∈ S.slot T pd i ↔ T pd i ≠ 0 ∧ (b ∈ S.frames pd i ∨ b = T pd i) := by
  unfold slot
  split
  · next h => exact iff_of_false List.not_mem_nil fun hno => hno.1 h
  · next h => rw [List.mem_append, List.mem_singleton, and_iff_right h]

theorem dir_mem (S : Spaces) (T : PageTables) (pd : UInt32) : pd ∈ S.dirPages T pd := mem_dirPages.mpr
    (.inr rfl)

theorem table_mem (hi : i < 768) (ht : T pd i ≠ 0) : T pd i ∈ S.dirPages T pd :=
  mem_dirPages.mpr (.inl ⟨i, hi, mem_slot.mpr ⟨ht, .inr rfl⟩⟩)

theorem structural_mem (hb : S.Structural T b) : b ∈ S.pages T := by
  rw [mem_pages]
  rcases hb with hb | hb | ⟨pd, hpd, i, hi, ht, rfl⟩
  · exact .inl hb
  · exact .inr (.inr ⟨b, hb, S.dir_mem T b⟩)
  · exact .inr (.inr ⟨pd, hpd, table_mem hi ht⟩)

/-- Entries of one directory that map other frames. -/
theorem pages_entry (hnodup : S.dirs.Nodup) (hpd : pd ∈ S.dirs) (hi : i < 768) (hj : j < 1024)
    (ht : T pd i ≠ 0) (hr : S'.reserved = S.reserved) (hh : S'.held = S.held) (hd : S'.dirs = S.dirs)
    (hothers : ∀ pd' n, ¬ (pd' = pd ∧ n = 1024 * i + j) → S'.entry pd' n = S.entry pd' n)
    (hgain : (frameOf (S'.entry pd (1024 * i + j))).Perm (l ++ frameOf (S.entry pd (1024 * i + j)))) :
    (S'.pages T).Perm (l ++ S.pages T) := by
  have hframes : (S'.frames pd i).Perm (l ++ S.frames pd i) := by
    refine List.flatMap_gain List.nodup_range (List.mem_range.mpr hj) hgain fun z hz hzj => ?_
    rw [hothers pd _ fun h => hzj (by omega)]
  have hslot : (S'.slot T pd i).Perm (l ++ S.slot T pd i) := by
    unfold slot
    rw [if_neg ht, if_neg ht, ← List.append_assoc]
    exact hframes.append_right _
  have hsame : ∀ pd' k, ¬ (pd' = pd ∧ k = i) → S'.slot T pd' k = S.slot T pd' k := by
    intro pd' k hk
    unfold slot frames
    have hrow : (List.range 1024).flatMap (fun j => frameOf (S'.entry pd' (1024 * k + j))) =
        (List.range 1024).flatMap fun j => frameOf (S.entry pd' (1024 * k + j)) := by
      refine List.flatMap_congr fun z hz => ?_
      have hz' := List.mem_range.mp hz
      rw [hothers pd' _ fun h => hk ⟨h.1, by omega⟩]
    rw [hrow]
  have hdir : (S'.dirPages T pd).Perm (l ++ S.dirPages T pd) := by
    unfold dirPages
    rw [← List.append_assoc]
    exact (List.flatMap_gain List.nodup_range (List.mem_range.mpr hi) hslot
      fun z _ hz => hsame pd z fun h => hz h.2).append_right _
  have hdirs : (S.dirs.flatMap (S'.dirPages T)).Perm (l ++ S.dirs.flatMap (S.dirPages T)) := by
    refine List.flatMap_gain hnodup hpd hdir fun pd' _ hne => ?_
    unfold dirPages
    have hrow : (List.range 768).flatMap (S'.slot T pd') = (List.range 768).flatMap (S.slot T pd') :=
      List.flatMap_congr fun z _ => hsame pd' z fun h => hne h.1
    rw [hrow]
  unfold pages
  rw [hr, hh, hd]
  refine (hdirs.append_left _).trans ?_
  rw [← List.append_assoc, ← List.append_assoc]
  exact List.perm_append_comm.append_right _

/-- A page more is held. -/
theorem pages_held {held : List UInt32} : ({ S with held := a :: held }.pages T).Perm
    (a :: { S with held := held }.pages T) := by
  show (S.reserved ++ a :: held ++ S.dirs.flatMap (S.dirPages T)).Perm
    (a :: (S.reserved ++ held ++ S.dirs.flatMap (S.dirPages T)))
  rw [List.append_assoc, List.append_assoc]
  exact List.perm_middle

theorem pages_hold (S : Spaces) (T : PageTables) (a : UInt32) (row : Nat → UInt32) :
    ((S.hold a row).pages T).Perm (a :: S.pages T) := pages_held (S := S)

theorem pages_erase (ha : a ∈ S.held) : (S.pages T).Perm
    (a :: { S with held := S.held.erase a }.pages T) := by
  refine List.Perm.trans ?_ (pages_held (S := S))
  show (S.reserved ++ S.held ++ S.dirs.flatMap (S.dirPages T)).Perm
    (S.reserved ++ a :: S.held.erase a ++ S.dirs.flatMap (S.dirPages T))
  exact ((List.perm_cons_erase ha).append_left _).append_right _

/-- A directory has a table more, with nothing in it. -/
theorem pages_table (hnodup : S.dirs.Nodup) (hpd : pd ∈ S.dirs) (hi : i < 768) (ha : a ≠ 0)
    (ht : T pd i = 0)
    (hblank : ∀ j < 1024, S.entry pd (1024 * i + j) = 0) :
    (S.pages (Function.update T pd (Function.update (T pd) i a))).Perm (a :: S.pages T) := by
  have hframes : S.frames pd i = [] := by
    refine List.flatMap_eq_nil_iff.mpr fun j hj => ?_
    rw [hblank j (List.mem_range.mp hj)]
    rfl
  generalize hT : Function.update T pd (Function.update (T pd) i a) = T'
  have hsame : ∀ pd' k, ¬ (pd' = pd ∧ k = i) → T' pd' k = T pd' k := by
    intro pd' k hk
    rw [← hT]
    by_cases hpd' : pd' = pd
    · rw [hpd', Function.update_self, Function.update_of_ne fun hki => hk ⟨hpd', hki⟩]
    · rw [Function.update_of_ne hpd']
  have hnew : T' pd i = a := by rw [← hT, Function.update_self, Function.update_self]
  have hslot : (S.slot T' pd i).Perm ([a] ++ S.slot T pd i) := by
    unfold slot
    rw [hnew, if_neg ha, if_pos ht, hframes]
    exact .refl _
  have hkeep : ∀ pd' k, ¬ (pd' = pd ∧ k = i) → S.slot T' pd' k = S.slot T pd' k := by
    intro pd' k hk
    unfold slot
    rw [hsame pd' k hk]
  have hdir : (S.dirPages T' pd).Perm ([a] ++ S.dirPages T pd) := by
    unfold dirPages
    rw [← List.append_assoc]
    exact (List.flatMap_gain List.nodup_range (List.mem_range.mpr hi) hslot
      fun z _ hz => hkeep pd z fun h => hz h.2).append_right _
  have hdirs : (S.dirs.flatMap (S.dirPages T')).Perm ([a] ++ S.dirs.flatMap (S.dirPages T)) := by
    refine List.flatMap_gain hnodup hpd hdir fun pd' _ hne => ?_
    unfold dirPages
    have hrow : (List.range 768).flatMap (S.slot T' pd') = (List.range 768).flatMap (S.slot T pd') :=
      List.flatMap_congr fun z _ => hkeep pd' z fun h => hne h.1
    rw [hrow]
  unfold pages
  exact (hdirs.append_left _).trans List.perm_middle

end Spaces

namespace Maps

variable (h : Maps T m S)

include h

theorem dirs_nodup : S.dirs.Nodup := by
  refine List.nodup_owners (List.nodup_append.mp h.counted.nodup).2.1 fun pd _ hnil => ?_
  have hmem := S.dir_mem T pd
  rw [hnil] at hmem
  exact List.not_mem_nil hmem

/-- Where the frame of an entry is. -/
theorem frame_slot (hpd : pd ∈ S.dirs) (hn : n < 0xC0000) (ha : a ∈ frameOf (S.entry pd n)) :
    T pd (n / 1024) ≠ 0 ∧ a ∈ S.frames pd (n / 1024) := by
  have hsplit : 1024 * (n / 1024) + n % 1024 = n := Nat.div_add_mod n 1024
  refine ⟨fun hno => ?_, List.mem_flatMap.mpr ⟨n % 1024, List.mem_range.mpr (Nat.mod_lt _ (by decide)),
    ?_⟩⟩
  · have hzero := (h.noTable pd hpd (n / 1024) (by omega) hno).2 (n % 1024) (Nat.mod_lt _ (by decide))
    rw [hsplit] at hzero
    rw [hzero] at ha
    exact List.not_mem_nil ha
  · rwa [hsplit]

theorem loaded_mem (ha : S.Loaded a) : a ∈ S.pages T := by
  rw [Spaces.mem_pages]
  rcases ha with ha | ⟨pd, hpd, n, hn, ha⟩
  · exact .inr (.inl ha)
  · obtain ⟨ht, hf⟩ := h.frame_slot hpd hn ha
    exact .inr (.inr ⟨pd, hpd, Spaces.mem_dirPages.mpr
      (.inl ⟨n / 1024, by omega, Spaces.mem_slot.mpr ⟨ht, .inl hf⟩⟩)⟩)

/-- A page that belongs to a directory is in one place of one directory. -/
theorem dir_unique (hpd : pd ∈ S.dirs) {pd' : UInt32} (hpd' : pd' ∈ S.dirs) (ha : a ∈ S.dirPages T pd)
    (ha' : a ∈ S.dirPages T pd') : pd = pd' :=
  List.owner_unique (List.nodup_append.mp h.counted.nodup).2.1 hpd hpd' ha ha'

theorem dirPages_nodup (hpd : pd ∈ S.dirs) : (S.dirPages T pd).Nodup :=
  (List.nodup_flatMap.mp (List.nodup_append.mp h.counted.nodup).2.1).1 pd hpd

theorem slot_unique (hpd : pd ∈ S.dirs) (hi : i < 768) (hj : j < 768) (ha : a ∈ S.slot T pd i)
    (ha' : a ∈ S.slot T pd j) : i = j :=
  List.owner_unique (List.nodup_append.mp (h.dirPages_nodup hpd)).1 (List.mem_range.mpr hi)
  (List.mem_range.mpr hj)
    ha ha'

theorem slot_nodup (hpd : pd ∈ S.dirs) (hi : i < 768) : (S.slot T pd i).Nodup :=
  (List.nodup_flatMap.mp (List.nodup_append.mp (h.dirPages_nodup hpd)).1).1 i (List.mem_range.mpr hi)

/-- A table is not a directory. -/
theorem table_ne_dir (hpd : pd ∈ S.dirs) {pd' : UInt32} (hpd' : pd' ∈ S.dirs) (hi : i < 768)
    (ha : a ∈ S.slot T pd i) : a ≠ pd' := by
  rintro rfl
  have hmem : a ∈ S.dirPages T pd := Spaces.mem_dirPages.mpr (.inl ⟨i, hi, ha⟩)
  obtain rfl := h.dir_unique hpd hpd' hmem (S.dir_mem T a)
  exact (List.nodup_append.mp (h.dirPages_nodup hpd)).2.2 _
    (List.mem_flatMap.mpr ⟨i, List.mem_range.mpr hi, ha⟩) _ (List.mem_singleton.mpr rfl) rfl

theorem held_apart (ha : a ∈ S.held) : a ∉ S.reserved ∧ ∀ pd ∈ S.dirs, a ∉ S.dirPages T pd := by
  obtain ⟨hleft, -, hdisj⟩ := List.nodup_append.mp h.counted.nodup
  obtain ⟨-, -, hdisj'⟩ := List.nodup_append.mp hleft
  exact ⟨fun hr => hdisj' a hr a ha rfl, fun pd hpd hd =>
    hdisj a (List.mem_append_right _ ha) a (List.mem_flatMap.mpr ⟨pd, hpd, hd⟩) rfl⟩

theorem reserved_apart (ha : a ∈ S.reserved) (hpd : pd ∈ S.dirs) : a ∉ S.dirPages T pd := fun hd =>
  (List.nodup_append.mp h.counted.nodup).2.2 a (List.mem_append_left _ ha) a
  (List.mem_flatMap.mpr ⟨pd, hpd, hd⟩) rfl

/-- No translation is read from a page that is held or mapped. -/
theorem loaded_free (ha : S.Loaded a) : ¬ S.Structural T a := by
  rcases ha with ha | ⟨pd, hpd, n, hn, ha⟩
  · obtain ⟨hr, hd⟩ := h.held_apart ha
    rintro (hb | hb | ⟨pd, hpd, i, hi, ht, rfl⟩)
    · exact hr hb
    · exact hd a hb (S.dir_mem T a)
    · exact hd pd hpd (Spaces.table_mem hi ht)
  · obtain ⟨ht, hf⟩ := h.frame_slot hpd hn ha
    have hi : n / 1024 < 768 := by omega
    have hslot : a ∈ S.slot T pd (n / 1024) := Spaces.mem_slot.mpr ⟨ht, .inl hf⟩
    have hdir : a ∈ S.dirPages T pd := Spaces.mem_dirPages.mpr (.inl ⟨_, hi, hslot⟩)
    rintro (hb | hb | ⟨pd', hpd', i, hi', ht', rfl⟩)
    · exact h.reserved_apart hb hpd hdir
    · exact h.table_ne_dir hpd hb hi hslot rfl
    · obtain rfl := h.dir_unique hpd hpd' hdir (Spaces.table_mem hi' ht')
      obtain rfl := h.slot_unique hpd hi hi' hslot (Spaces.mem_slot.mpr ⟨ht', .inr rfl⟩)
      have hnodup := h.slot_nodup hpd hi
      unfold Spaces.slot at hnodup
      rw [if_neg ht] at hnodup
      exact (List.nodup_append.mp hnodup).2.2 _ hf _ (List.mem_singleton.mpr rfl) rfl

/-- No two entries map one frame. -/
theorem frame_unique (hpd : pd ∈ S.dirs) {pd' : UInt32} (hpd' : pd' ∈ S.dirs) {n' : Nat}
    (hn : n < 0xC0000)
    (hn' : n' < 0xC0000) (ha : a ∈ frameOf (S.entry pd n)) (ha' : a ∈ frameOf (S.entry pd' n')) :
    pd = pd' ∧ n = n' := by
  obtain ⟨ht, hf⟩ := h.frame_slot hpd hn ha
  obtain ⟨ht', hf'⟩ := h.frame_slot hpd' hn' ha'
  have hi : n / 1024 < 768 := by omega
  have hi' : n' / 1024 < 768 := by omega
  have hslot : a ∈ S.slot T pd (n / 1024) := Spaces.mem_slot.mpr ⟨ht, .inl hf⟩
  have hslot' : a ∈ S.slot T pd' (n' / 1024) := Spaces.mem_slot.mpr ⟨ht', .inl hf'⟩
  obtain rfl := h.dir_unique hpd hpd' (Spaces.mem_dirPages.mpr (.inl ⟨_, hi, hslot⟩))
    (Spaces.mem_dirPages.mpr (.inl ⟨_, hi', hslot'⟩))
  have hrow := h.slot_unique hpd hi hi' hslot hslot'
  have hnodup := h.slot_nodup hpd hi
  unfold Spaces.slot at hnodup
  rw [if_neg ht] at hnodup
  have hmod : n % 1024 < 1024 := by omega
  have hmod' : n' % 1024 < 1024 := by omega
  have hsplit : 1024 * (n / 1024) + n % 1024 = n := Nat.div_add_mod n 1024
  have hsplit' : 1024 * (n / 1024) + n' % 1024 = n' := by rw [hrow, Nat.div_add_mod n' 1024]
  have hframe : a ∈ frameOf (S.entry pd (1024 * (n / 1024) + n % 1024)) := hsplit.symm ▸ ha
  have hframe' : a ∈ frameOf (S.entry pd (1024 * (n / 1024) + n' % 1024)) := hsplit'.symm ▸ ha'
  have hplace := List.owner_unique (List.nodup_append.mp hnodup).1 (List.mem_range.mpr hmod)
    (List.mem_range.mpr hmod') hframe hframe'
  exact ⟨rfl, by omega⟩

/-- The kernel's entries are in the same words. -/
theorem row_congr (hi : 768 ≤ i) (hlt : i < 1024) (hinit : m'.initPageDir = m.initPageDir)
    (hr : S'.reserved = S.reserved) (hk : S'.kernel = S.kernel)
    (hwords : ∀ b ∈ S.reserved, ∀ j < 1024, m'.words (word b j) = m.words (word b j)) :
        KernelRow m' S' i := by
  have hdir := hwords _ h.initDir i hlt
  unfold KernelRow
  rw [hinit, hr, hk, hdir]
  refine (h.row i hi hlt).imp id fun ⟨hp, pt, hpt, hne, haddr, hrow⟩ =>
    ⟨hp, pt, hpt, hne, haddr, fun j hj => ?_⟩
  rw [hwords pt hpt j hj]
  exact hrow j hj

/-- The words of the pages that are still owned have not changed. -/
theorem kept (hm : m.Alike m') (hr : S'.reserved = S.reserved) (hd : ∀ pd ∈ S'.dirs, pd ∈ S.dirs)
    (he : S'.entry = S.entry) (ha : S'.active = S.active)
    (hk : S'.kernel = S.kernel) (hactive : S.active = m.initPageDir ∨ S.active ∈ S'.dirs)
    (hcount : Counted m' (S'.pages T))
    (hwords : ∀ b, S'.Structural T b → ∀ i < 1024, m'.words (word b i) = m.words (word b i))
    (hcontent : ∀ a, S'.Loaded a → ∀ j < 1024, m'.words (word a j) = S'.content a j) : Maps T m' S' where
  counted := hcount
  initDir := by
    rw [hm.initDir, hr]
    exact h.initDir
  initBlank i hi := by
    rw [hm.initDir, hwords _ (.inl (hr ▸ h.initDir)) i (by omega)]
    exact h.initBlank i hi
  initEntry := by
    rw [hm.initDir, he]
    exact h.initEntry
  noTable pd hpd i hi ht := by
    rw [hwords pd (.inr (.inl hpd)) i (by omega), he]
    exact h.noTable pd (hd pd hpd) i hi ht
  table pd hpd i hi ht := by
    rw [hwords pd (.inr (.inl hpd)) i (by omega)]
    exact h.table pd (hd pd hpd) i hi ht
  pte pd hpd i hi ht j hj := by
    rw [hwords _ (.inr (.inr ⟨pd, hpd, i, hi, ht, rfl⟩)) j hj, he]
    exact h.pte pd (hd pd hpd) i hi ht j hj
  kernel pd hpd i hle hlt := by
    rw [hm.initDir, hwords pd (.inr (.inl hpd)) i hlt, hwords _ (.inl (hr ▸ h.initDir)) i hlt]
    exact h.kernel pd (hd pd hpd) i hle hlt
  row i hle hlt := h.row_congr hle hlt hm.initDir hr hk fun b hb => hwords b (.inl (hr ▸ hb))
  supervisor := hk ▸ h.supervisor
  direct := hk ▸ h.direct
  active := by
    rw [hm.cr3, hm.initDir, ha]
    exact ⟨h.active.1, hactive⟩
  content := hcontent

end Maps

end CS162.Paging
