/-
# `CS162.Hw3.Realloc` — what `mm_realloc` does to the contents

`mm_realloc` marks the old block free and calls `mm_malloc`.  Where that finds the old block first,
the `memset` of the new block and the one of the old block clear the same bytes.  Where it finds
another block, or gets one from `sbrk`, the bytes are moved, although the list is linked wrongly
afterwards.  Where it returns `NULL` the old block stays free, and a block that is split is handed
out free.

The heap is one that runs of good calls can leave (`GoodStep`), between which the program writes
into what it has.  There, for a block that is not split, `Suits` says exactly when `mm_realloc` does
what is promised (`mm_realloc_contract`).
-/
import CS162.Hw3.HeapRuns

namespace CS162.Hw3

open Mem Heap

/-! ## The contract -/

/-- A block of at least `n` bytes that is not free, in memory that `sbrk` gave. -/
def Holds (h : Heap) (q n : Nat) : Prop :=
  ∃ b, q = b + metaSize ∧ h.free b = 0 ∧ n ≤ h.size b ∧ h.base ≤ b ∧ b + metaSize + h.size b ≤ h.brk

/-- The `k` bytes from `p` on are from `q` on now. -/
def SameBytes (h h' : Heap) (p q k : Nat) : Prop := ∀ i < k, h'.mem (q + i) = h.mem (p + i)

/-- What is promised of a call `mm_realloc(p, n)` that returns `q`. -/
structure Promised (s : St) (p n q : Nat) (h' : Heap) : Prop where
  moved : q ≠ 0 → Holds h' q n ∧ SameBytes s.heap h' p q (min (s.heap.size (header p)) n)
  others : q ≠ 0 → ∀ e ∈ s.drop p, (e.1 + e.2 ≤ q ∨ q + n ≤ e.1) ∧
    SameBytes s.heap h' e.1 e.1 (s.heap.size (header e.1))
  failed : q = 0 → Holds h' p (s.heap.size (header p)) ∧
    SameBytes s.heap h' p p (s.heap.size (header p))

def Contract (s : St) (p n : Nat) : Prop :=
  ∀ register, ∃ q h', s.heap.mmRealloc p n register = some (q, h') ∧ Promised s p n q h'

/-- What the search of `mm_malloc` ends with, the old block counted as free. -/
def Finds (s : St) (p n c : Nat) : Prop := (s.heap.setFree (header p) 1).firstFit n = some c

/-- No block is split. -/
def NoSplit (s : St) (p n : Nat) : Prop :=
  ∀ c, Finds s p n c → c ≠ 0 → s.heap.size c ≤ n + 2 * metaSize

/-- `sbrk` has the memory, and its result is not negative as an `int`. -/
def Given (h : Heap) (n : Nat) : Prop := h.brk + metaSize + n ≤ h.limit ∧ h.brk % 2 ^ 32 < 2 ^ 31

/-- The old block is found only where it has nothing to lose, and `sbrk` gives what is asked for. -/
def Suits (s : St) (p n : Nat) : Prop :=
  ∀ c, Finds s p n c →
    (c = header p → ∀ i < min (s.heap.size c) n, s.heap.mem (p + i) = 0) ∧
      (c = 0 → Given s.heap n)

/-! ## Links -/

section Links

variable {h : Heap} {p c b n : Nat} {l bs : List Nat}

/-- A link back goes to a block before, or to what is before the first. -/
theorem Links.prev_mem (hl : Links h p c l) (hlt : (p :: l).Pairwise (· < ·)) (hb : b ∈ l) :
    h.prev b < b ∧ h.prev b ∈ p :: l := by
  induction l generalizing p c with
  | nil => cases hb
  | cons a l ih =>
      obtain ⟨-, -, hp, hrest⟩ := hl
      rw [List.pairwise_cons] at hlt
      rcases List.mem_cons.mp hb with rfl | hb
      · rw [hp]
        exact ⟨hlt.1 b List.mem_cons_self, List.mem_cons_self⟩
      · obtain ⟨hprev, hmem⟩ := ih hrest hlt.2 hb
        exact ⟨hprev, List.mem_cons_of_mem p hmem⟩

theorem Links.next_mem (hl : Links h p c l) (hb : b ∈ l) : h.next b = 0 ∨ h.next b ∈ l := by
  induction l generalizing p c with
  | nil => cases hb
  | cons a l ih =>
      obtain ⟨-, -, -, hrest⟩ := hl
      rcases List.mem_cons.mp hb with rfl | hb
      · cases l with
        | nil => exact .inl hrest
        | cons d l =>
            rw [hrest.1]
            exact .inr (List.mem_cons_of_mem b List.mem_cons_self)
      · exact (ih hrest hb).imp_right (List.mem_cons_of_mem a)

/-- The search ends when it may take as many turns as there are blocks, and one more. -/
theorem Links.search_ends {size fuel : Nat} (hl : Links h p c l) (hfuel : l.length < fuel) :
    ∃ r, h.search size fuel c = some r := by
  induction l generalizing p c fuel with
  | nil =>
      cases fuel with
      | zero => exact absurd hfuel (Nat.not_lt_zero _)
      | succ fuel => exact ⟨0, by rw [Heap.search, if_pos (show c = 0 from hl)]⟩
  | cons b l ih =>
      obtain ⟨rfl, hb, -, hrest⟩ := hl
      cases fuel with
      | zero => exact absurd hfuel (Nat.not_lt_zero _)
      | succ fuel =>
          rw [Heap.search, if_neg hb]
          split
          · exact ⟨c, rfl⟩
          · exact ih hrest (Nat.lt_of_succ_lt_succ hfuel)

/-- Blocks that take 32 bytes each. -/
theorem length_of_sorted {k : Nat} (hsorted : bs.Pairwise fun b c => b + metaSize + h.size b ≤ c)
    (hlo : ∀ b ∈ bs, n ≤ b) (hhi : ∀ b ∈ bs, b + metaSize ≤ k) (hn : n ≤ k) :
    n + metaSize * bs.length ≤ k := by
  induction bs generalizing n with
  | nil => exact hn
  | cons b bs ih =>
      rw [List.pairwise_cons] at hsorted
      have hb := hlo b List.mem_cons_self
      have hrest := @ih (b + metaSize) hsorted.2
        (fun c hc => (Nat.le_add_right _ _).trans (hsorted.1 c hc))
        (fun c hc => hhi c (List.mem_cons_of_mem b hc)) (hhi b List.mem_cons_self)
      rw [List.length_cons, Nat.mul_succ]
      omega

theorem Ok.ends (hok : Ok h bs) (n : Nat) : ∃ r, h.firstFit n = some r := by
  refine hok.links.search_ends ?_
  have hlen := @length_of_sorted h h.base bs h.brk hok.sorted (fun b hb => (hok.inside b hb).1)
    (fun b hb => hok.below hb) hok.lo
  have h1 := hok.hi
  have h2 := hok.limit
  simp only [metaSize] at hlen
  omega

theorem Ok.pos (hok : Ok h bs) (hb : b ∈ bs) : 0 < b := hok.base.trans_le (hok.inside b hb).1

/-- The block before is a block, or there is none. -/
theorem Ok.prev_mem (hok : Ok h bs) (hb : b ∈ bs) : h.prev b < b ∧ (h.prev b = 0 ∨ h.prev b ∈ bs) := by
  have hlt : (0 :: bs).Pairwise (· < ·) := by
    refine List.pairwise_cons.mpr ⟨fun b hb => hok.pos hb, hok.sorted.imp fun hle => ?_⟩
    simp only [metaSize] at hle
    omega
  obtain ⟨hprev, hmem⟩ := hok.links.prev_mem hlt hb
  exact ⟨hprev, List.mem_cons.mp hmem⟩

end Links

/-! ## Moving a block -/

section Move

variable {h h₀ h' : Heap} {bs : List Nat} {b c d n k v x : Nat}

/-- Nothing but the links of blocks is different. -/
structure Relinked (bs : List Nat) (h h' : Heap) : Prop where
  globals : SameGlobals h h'
  mem : ∀ x, (∀ d ∈ bs, x < d + 8 ∨ d + 24 ≤ x) → h'.mem x = h.mem x

theorem Relinked.refl (bs : List Nat) (h : Heap) : Relinked bs h h :=
  ⟨⟨rfl, rfl, rfl, rfl, rfl⟩, fun _ _ => rfl⟩

theorem Relinked.setPrev (hr : Relinked bs h₀ h) (hd : d ∈ bs) : Relinked bs h₀ (h.setPrev d v) := by
  refine ⟨⟨hr.globals.head, hr.globals.last, hr.globals.brk, hr.globals.base, hr.globals.limit⟩,
    fun x hx => ?_⟩
  have hxd := hx d hd
  exact (store_other (by omega)).trans (hr.mem x hx)

theorem Relinked.setNext (hr : Relinked bs h₀ h) (hd : d ∈ bs) : Relinked bs h₀ (h.setNext d v) := by
  refine ⟨⟨hr.globals.head, hr.globals.last, hr.globals.brk, hr.globals.base, hr.globals.limit⟩,
    fun x hx => ?_⟩
  have hxd := hx d hd
  exact (store_other (by omega)).trans (hr.mem x hx)

/-- The size, the flag and the contents of a block are no links. -/
theorem Ok.clear (hok : Ok h bs) (hd : d ∈ bs)
    (hx : d ≤ x ∧ x < d + 8 ∨ d + 24 ≤ x ∧ x < d + metaSize + h.size d) :
    ∀ e ∈ bs, x < e + 8 ∨ e + 24 ≤ x := by
  intro e he
  by_cases hed : e = d
  · rw [hed]
    omega
  · have hap := hok.apart he hd hed
    simp only [metaSize] at hap hx
    omega

theorem Relinked.bytes (hr : Relinked bs h h') (hok : Ok h bs) (hd : d ∈ bs) :
    SameBytes h h' (d + metaSize) (d + metaSize) (h.size d) := by
  intro i hi
  refine hr.mem _ (hok.clear hd (.inr ?_))
  simp only [metaSize]
  omega

theorem Relinked.same (hr : Relinked bs h h') (hok : Ok h bs) (hd : d ∈ bs) :
    h'.size d = h.size d ∧ h'.free d = h.free d := by
  refine ⟨load_congr fun x hx hlt => hr.mem x (hok.clear hd (.inl ⟨hx, hlt⟩)),
    load_congr fun x hx hlt => hr.mem x (hok.clear hd (.inr ⟨hx, ?_⟩))⟩
  simp only [metaSize]
  omega

/-- Something happens to the contents of the block `c`: sizes and flags are the same. -/
theorem Ok.same_outside (hok : Ok h bs) (hc : c ∈ bs) {h' h'' : Heap}
    (hm : ∀ x, x < c + metaSize ∨ c + metaSize + h.size c ≤ x → h''.mem x = h'.mem x)
    (hsame : ∀ d ∈ bs, h'.size d = h.size d ∧ h'.free d = h.free d) :
    ∀ d ∈ bs, h''.size d = h.size d ∧ h''.free d = h.free d := by
  intro d hd
  have hm' : ∀ x, d ≤ x → x < d + 28 → h''.mem x = h'.mem x := by
    intro x hx hlt
    refine hm x ?_
    by_cases hdc : d = c
    · simp only [metaSize]
      omega
    · have hap := hok.apart hd hc hdc
      simp only [metaSize] at hap ⊢
      omega
  obtain ⟨hsize, -, -, hfree⟩ := fields_congr hm'
  exact ⟨hsize.trans (hsame d hd).1, hfree.trans (hsame d hd).2⟩

/-- `mm_realloc` step by step, from where it links the new block. -/
theorem replace_stages (h : Heap) (p q n : Nat) : ∃ h₂ h₃ h₄ h₆ : Heap,
    h₂ = (h.setPrev (header q) (h.prev (header p))).setNext (header q)
      ((h.setPrev (header q) (h.prev (header p))).next (header p)) ∧
    h₃ = (if h₂.prev (header p) ≠ 0 then h₂.setNext (h₂.prev (header p)) (header q) else h₂) ∧
    h₄ = (if h₃.next (header p) ≠ 0 then h₃.setPrev (h₃.next (header p)) (header q) else h₃) ∧
    h₆ = (if (h₄.memset q n).size (header p) ≤ (h₄.memset q n).size (header q) then
        (h₄.memset q n).memcpy q p ((h₄.memset q n).size (header p))
      else (h₄.memset q n).memcpy q p ((h₄.memset q n).size (header q))) ∧
    h.replace p q n = h₆.memset (header p + metaSize) (h₆.size (header p)) :=
  ⟨_, _, _, _, rfl, rfl, rfl, rfl, by unfold replace; with_reducible rfl⟩

/-- The new block takes the old one's place in the list, and then the bytes are moved. -/
theorem replace_eq (hok : Ok h bs) (hb : b ∈ bs) (hc : c ∈ bs) (hne : b ≠ c) (hn : n ≤ h.size c) :
    ∃ h', Relinked bs h h' ∧ h.replace (b + metaSize) (c + metaSize) n =
      ((h'.memset (c + metaSize) n).memcpy (c + metaSize) (b + metaSize)
        (min (h.size b) (h.size c))).memset (b + metaSize) (h.size b) := by
  have hap := hok.apart hb hc hne
  simp only [metaSize] at hap
  have hblt := hok.lt hb
  have hclt := hok.lt hc
  obtain ⟨hprevLt, hprevMem⟩ := hok.prev_mem hb
  obtain ⟨h₂, h₃, h₄, h₆, e₂, e₃, e₄, e₆, heq⟩ := replace_stages h (b + metaSize) (c + metaSize) n
  rw [header_of (by omega : b < 2 ^ 63)] at e₂ e₃ e₄ e₆ heq
  rw [header_of (by omega : c < 2 ^ 63)] at e₂ e₃ e₄ e₆
  have hr₂ : Relinked bs h h₂ := by
    rw [e₂]
    exact ((Relinked.refl bs h).setPrev hc).setNext hc
  have hprev₂ : h₂.prev b = h.prev b := by
    rw [e₂]
    exact (load_store_other (by omega)).trans (load_store_other (by omega))
  have hnext₂ : h₂.next b = h.next b := by
    rw [e₂]
    exact (load_store_other (by omega)).trans (load_store_other (by omega))
  have hr₃ : Relinked bs h h₃ ∧ h₃.next b = h.next b := by
    rw [e₃, hprev₂]
    by_cases hz : h.prev b ≠ 0
    · have hmem : h.prev b ∈ bs := hprevMem.resolve_left hz
      have hap' := hok.apart hmem hb (Nat.ne_of_lt hprevLt)
      simp only [metaSize] at hap'
      rw [if_pos hz]
      exact ⟨hr₂.setNext hmem, (load_store_other (by omega)).trans hnext₂⟩
    · rw [if_neg hz]
      exact ⟨hr₂, hnext₂⟩
  have hr₄ : Relinked bs h h₄ := by
    rw [e₄, hr₃.2]
    by_cases hz : h.next b ≠ 0
    · rw [if_pos hz]
      exact hr₃.1.setPrev ((hok.links.next_mem hb).resolve_left hz)
    · rw [if_neg hz]
      exact hr₃.1
  have hs₅ := @Ok.same_outside h bs c hok hc h₄ (h₄.memset (c + metaSize) n)
    (fun x hx => fill_other (by omega)) fun d hd => hr₄.same hok hd
  rw [(hs₅ b hb).1, (hs₅ c hc).1] at e₆
  have hcopy : h₆ = (h₄.memset (c + metaSize) n).memcpy (c + metaSize) (b + metaSize)
      (min (h.size b) (h.size c)) := by
    rw [e₆]
    split
    · next hle => rw [Nat.min_eq_left hle]
    · next hle => rw [Nat.min_eq_right (Nat.le_of_not_le hle)]
  have hs₆ := @Ok.same_outside h bs c hok hc (h₄.memset (c + metaSize) n) h₆
    (fun x hx => by rw [hcopy]; exact copy_other (by omega)) hs₅
  exact ⟨h₄, hr₄, by rw [heq, (hs₆ b hb).1, hcopy]⟩

/-- A block has moved. -/
structure Moved (bs : List Nat) (b c : Nat) (h h' : Heap) : Prop where
  globals : SameGlobals h h'
  same : ∀ d ∈ bs, h'.size d = h.size d ∧ h'.free d = h.free d
  bytes : SameBytes h h' (b + metaSize) (c + metaSize) (min (h.size b) (h.size c))
  others : ∀ d ∈ bs, d ≠ b → d ≠ c → SameBytes h h' (d + metaSize) (d + metaSize) (h.size d)

/-- `mm_realloc` into another block: the contents that fit
come along, and every other block keeps its own. -/
theorem replace_moved (hok : Ok h bs) (hb : b ∈ bs) (hc : c ∈ bs) (hne : b ≠ c) (hn : n ≤ h.size c) :
    Moved bs b c h (h.replace (b + metaSize) (c + metaSize) n) := by
  obtain ⟨h₄, hr, heq⟩ := replace_eq hok hb hc hne hn
  have hap := hok.apart hb hc hne
  have hmin := Nat.min_le_right (h.size b) (h.size c)
  have hmin' := Nat.min_le_left (h.size b) (h.size c)
  let k := min (h.size b) (h.size c)
  let h₅ := h₄.memset (c + metaSize) n
  have hs₅ := @Ok.same_outside h bs c hok hc h₄ h₅ (fun x hx => fill_other (by omega))
    fun d hd => hr.same hok hd
  have hs₆ := @Ok.same_outside h bs c hok hc h₅ (h₅.memcpy (c + metaSize) (b + metaSize) k)
    (fun x hx => copy_other (by omega)) hs₅
  have hs₇ := @Ok.same_outside h bs b hok hb _
    ((h₅.memcpy (c + metaSize) (b + metaSize) k).memset (b + metaSize) (h.size b))
    (fun x hx => fill_other (by omega)) hs₆
  rw [heq]
  refine ⟨⟨hr.globals.head, hr.globals.last, hr.globals.brk, hr.globals.base, hr.globals.limit⟩, hs₇,
    fun i hi => ?_, fun d hd hdb hdc i hi => ?_⟩
  · -- the bytes of `b` are copied before they are cleared, and `c` is not cleared
    have hlast := @fill_other (h₅.memcpy (c + metaSize) (b + metaSize) k).mem (b + metaSize) (h.size b)
      (c + metaSize + i) 0 (by omega)
    have hcopy : (h₅.memcpy (c + metaSize) (b + metaSize) k).mem (c + metaSize + i) =
        h₅.mem (b + metaSize + (c + metaSize + i - (c + metaSize))) := if_pos (by omega)
    rw [Nat.add_sub_cancel_left] at hcopy
    have hfill := @fill_other h₄.mem (c + metaSize) n (b + metaSize + i) 0 (by omega)
    exact hlast.trans (hcopy.trans (hfill.trans (hr.bytes hok hb i (Nat.lt_of_lt_of_le hi hmin'))))
  · have hap₁ := hok.apart hd hb hdb
    have hap₂ := hok.apart hd hc hdc
    have hlast := @fill_other (h₅.memcpy (c + metaSize) (b + metaSize) k).mem (b + metaSize) (h.size b)
      (d + metaSize + i) 0 (by omega)
    have hcopy := @copy_other h₅.mem (c + metaSize) (b + metaSize) k (d + metaSize + i) (by omega)
    have hfill := @fill_other h₄.mem (c + metaSize) n (d + metaSize + i) 0 (by omega)
    exact hlast.trans (hcopy.trans (hfill.trans (hr.bytes hok hd i hi)))

end Move

/-! ## Getting a block -/

section Get

variable {h h₂ : Heap} {s : St} {bs bs' : List Nat} {b c d e n p q x : Nat}

/-- What `increase_mem` can do: move the break, and put a header there. -/
theorem increaseMem_cases (hok : Ok h bs) (n : Nat) : ∃ k ≤ h.limit,
    h.increaseMem n = (0, { h with brk := k }) ∧ ¬ Given h n ∨
    (h.increaseMem n).1 = h.brk ∧ (h.increaseMem n).2.brk = k ∧ (metaSize + n < 2 ^ 63 → Given h n) ∧
      ∀ x < h.brk, (h.head ≠ 0 → x < h.last + 8 ∨ h.last + 16 ≤ x) →
        (h.increaseMem n).2.mem x = h.mem x := by
  have hlo := hok.lo
  have hhi := hok.hi
  have hlim := hok.limit
  by_cases hmoves : (h.base : Int) ≤ h.brk + signed ((metaSize + n) % 2 ^ 64) ∧
      h.brk + signed ((metaSize + n) % 2 ^ 64) ≤ h.limit
  · have hs : h.sbrk ((metaSize + n) % 2 ^ 64) =
        (h.brk, { h with brk := (h.brk + signed ((metaSize + n) % 2 ^ 64)).toNat }) := if_pos hmoves
    refine ⟨(h.brk + signed ((metaSize + n) % 2 ^ 64)).toNat, by omega, ?_⟩
    unfold increaseMem
    rw [hs]
    dsimp only
    by_cases hneg : 2 ^ 31 ≤ h.brk % 2 ^ 32
    · rw [if_pos hneg]
      exact .inl ⟨rfl, fun hg => absurd hg.2 (Nat.not_lt.mpr hneg)⟩
    · rw [if_neg hneg]
      refine .inr ?_
      have hgiven : metaSize + n < 2 ^ 63 → Given h n := by
        intro hsmall
        unfold signed at hmoves
        rw [Nat.mod_eq_of_lt (by omega), if_pos hsmall] at hmoves
        exact ⟨by omega, by omega⟩
      -- the header is written at the break, and the link to it in the last block
      have hheader : ∀ x < h.brk, store (store (store (store h.mem h.brk 8 n) (h.brk + 16) 8 0)
          (h.brk + 24) 4 0) (h.brk + 8) 8 0 x = h.mem x := fun x hx =>
        (store_other (by omega)).trans ((store_other (by omega)).trans
          ((store_other (by omega)).trans (store_other (by omega))))
      split
      · exact ⟨rfl, rfl, hgiven, fun x hx _ => hheader x hx⟩
      · next hhead =>
        refine ⟨rfl, rfl, hgiven, fun x hx hlast => ?_⟩
        have hx' := hlast hhead
        exact (store_other hx').trans ((store_other (by omega)).trans (hheader x hx))
  · have hs : h.sbrk ((metaSize + n) % 2 ^ 64) = (2 ^ 64 - 1, h) := if_neg hmoves
    refine ⟨h.brk, hhi, .inl ⟨?_, fun hg => hmoves ?_⟩⟩
    · unfold increaseMem
      rw [hs]
      rfl
    · have hroom := hg.1
      unfold signed
      rw [Nat.mod_eq_of_lt (by omega), if_pos (by omega)]
      exact ⟨by omega, by omega⟩

theorem Finds.realloc (hn : n ≠ 0) (hc : Finds s (b + metaSize) n c) (register : Nat) :
    s.heap.mmRealloc (b + metaSize) n register =
      if ((s.heap.setFree (header (b + metaSize)) 1).take n c).1 = 0 then
        some (0, ((s.heap.setFree (header (b + metaSize)) 1).take n c).2)
      else some (((s.heap.setFree (header (b + metaSize)) 1).take n c).1,
        ((s.heap.setFree (header (b + metaSize)) 1).take n c).2.replace (b + metaSize)
          ((s.heap.setFree (header (b + metaSize)) 1).take n c).1 n) := by
  have hfit : (s.heap.setFree (header (b + metaSize)) 1).firstFit n = some c := hc
  unfold mmRealloc mmMalloc
  rw [if_neg hn, if_neg (Nat.ne_of_gt (Nat.lt_of_lt_of_le (by decide) (Nat.le_add_left metaSize b))),
    if_neg hn, hfit, Option.map_some]

/-- The heap before the bytes are moved: the old block is free, the new one is `c`. -/
structure Ready (s : St) (bs bs' : List Nat) (n c : Nat) (h : Heap) : Prop where
  ok : Ok h bs'
  sub : ∀ d ∈ bs, d ∈ bs'
  mem : c ∈ bs'
  free : h.free c = 0
  room : n ≤ h.size c
  size : ∀ d ∈ bs, h.size d = s.heap.size d
  bytes : ∀ d ∈ bs, SameBytes s.heap h (d + metaSize) (d + metaSize) (s.heap.size d)
  fresh : ∀ e ∈ s.live, e.1 ≠ c + metaSize

/-- A block that is not split and not the old one is a good one. -/
theorem Ready.promised (hi : Inv s bs) (hb : b ∈ bs) (hr : Ready s bs bs' n c h₂) (hne : b ≠ c) :
    Promised s (b + metaSize) n (c + metaSize)
      (h₂.replace (b + metaSize) (c + metaSize) n) := by
  have hmoved := replace_moved hr.ok (hr.sub b hb) hr.mem hne hr.room
  have hheader : header (b + metaSize) = b := header_of (by have := hi.ok.lt hb; omega)
  have hin := hr.ok.inside c hr.mem
  refine ⟨fun _ => ⟨⟨c, rfl, (hmoved.same c hr.mem).2.trans hr.free, ?_, ?_, ?_⟩, fun i hi' => ?_⟩,
    fun _ e he => ?_, fun hz => absurd hz (by simp only [metaSize]; omega)⟩
  · rw [(hmoved.same c hr.mem).1]
    exact hr.room
  · rw [hmoved.globals.base]
    exact hin.1
  · rw [(hmoved.same c hr.mem).1, hmoved.globals.brk]
    exact hin.2
  · rw [hheader] at hi'
    have hsize := hr.size b hb
    have hroom := hr.room
    have hcopied := hmoved.bytes i (by rw [hsize]; omega)
    exact hcopied.trans (hr.bytes b hb i (by omega))
  · have hnot := drop_not s _ e he
    have he' : e ∈ s.live := List.filter_sublist.subset he
    obtain ⟨d, hd, heq, -, hle⟩ := hi.live e he'
    have hdb : d ≠ b := fun h => hnot (heq.trans (congrArg (· + metaSize) h))
    have hdc : d ≠ c := fun h => hr.fresh e he' (heq.trans (congrArg (· + metaSize) h))
    have hap := hr.ok.apart (hr.sub d hd) hr.mem hdc
    have hroom := hr.room
    have hsize := hr.size d hd
    have hheaderd : header e.1 = d := by
      rw [heq]
      exact header_of (by have := hi.ok.lt hd; omega)
    refine ⟨by omega, ?_⟩
    rw [hheaderd, heq]
    intro i hi'
    exact (hmoved.others d (hr.sub d hd) hdb hdc i (by rw [hsize]; exact hi')).trans
      (hr.bytes d hd i hi')

/-- Only the flag is different. -/
theorem setFree_bytes (hok : Ok h bs) (hb : b ∈ bs) (hd : d ∈ bs) {v : Nat} :
    SameBytes h (h.setFree b v) (d + metaSize) (d + metaSize) (h.size d) := by
  intro i hi
  refine store_other ?_
  by_cases hdb : d = b
  · simp only [metaSize]
    omega
  · have hap := hok.apart hd hb hdb
    simp only [metaSize] at hap ⊢
    omega

/-- A free block of the list. -/
theorem ready_of_free (hi : Inv s bs) (hb : b ∈ bs) (hc : c ∈ bs) (hne : b ≠ c)
    (hfree : (s.heap.setFree b 1).free c = 1) (hroom : n ≤ s.heap.size c) :
    Ready s bs bs n c ((s.heap.setFree b 1).setFree c 0) := by
  obtain ⟨hok₁, hsize₁, hother₁⟩ := hi.ok.setFree hb (v := 1)
  obtain ⟨hok₂, hsize₂, hother₂⟩ := hok₁.setFree hc (v := 0)
  refine ⟨hok₂, fun _ hd => hd, hc, setFree_self (by decide), ?_, fun d hd => ?_, fun d hd i hi' => ?_,
    hi.not_live (.inr ((hother₁ c hc (Ne.symm hne)).symm.trans hfree))⟩
  · rw [hsize₂ c hc, hsize₁ c hc]
    exact hroom
  · exact (hsize₂ d hd).trans (hsize₁ d hd)
  · exact (setFree_bytes hok₁ hc hd i (by rw [hsize₁ d hd]; exact hi')).trans
      (setFree_bytes hi.ok hb hd i hi')

/-- A block from `sbrk`. -/
theorem ready_of_brk (hi : Inv s bs) (hb : b ∈ bs) (hn : n < 2 ^ 64) (hg : Given s.heap n) :
    Ready s bs (bs ++ [s.heap.brk]) n s.heap.brk ((s.heap.setFree b 1).increaseMem n).2 ∧
      ((s.heap.setFree b 1).increaseMem n).1 = s.heap.brk := by
  obtain ⟨hok₁, hsize₁, hother₁⟩ := hi.ok.setFree hb (v := 1)
  have hlim := hok₁.limit
  have hroom := hg.1
  have hgrows : Grows (s.heap.setFree b 1) n := .inl (by
    have : (s.heap.setFree b 1).limit = s.heap.limit := rfl
    omega)
  obtain ⟨hsame, hdone⟩ := increaseMem_ok hok₁ hn hgrows
  obtain ⟨k, hk, ⟨-, hnot⟩ | ⟨hfst, -, -, hmem⟩⟩ := increaseMem_cases hok₁ n
  · exact absurd hg hnot
  have hpos : 0 < s.heap.brk := hi.ok.base.trans_le hi.ok.lo
  obtain ⟨hz, -⟩ | ⟨-, -, hfresh, hok₂, hsize₂, hfree₂⟩ := hdone
  · exact absurd (hz.symm.trans hfst) (Nat.ne_of_lt hpos)
  refine ⟨⟨hok₂, fun d hd => List.mem_append_left _ hd, List.mem_append_right _ List.mem_cons_self,
    hfree₂, Nat.le_of_eq hsize₂.symm, fun d hd => (hsame d hd).1.trans (hsize₁ d hd),
    fun d hd i hi' => ?_,
    hi.not_live (.inl hfresh)⟩, hfst⟩
  have hin := (hi.ok.inside d hd).2
  refine (hmem _ (show d + metaSize + i < s.heap.brk by omega) fun hhead => ?_).trans
    (setFree_bytes hi.ok hb hd i hi')
  obtain ⟨l, hl⟩ := hok₁.eq_snoc hhead
  have hlast : s.heap.last ∈ bs := by
    have hl' : bs = l ++ [s.heap.last] := hl
    rw [hl']
    exact List.mem_append_right _ List.mem_cons_self
  have hclear : d + metaSize + i < s.heap.last + 8 ∨ s.heap.last + 24 ≤ d + metaSize + i :=
    hi.ok.clear hd (.inr (by simp only [metaSize]; omega)) _ hlast
  exact hclear.imp_right fun hle => Nat.le_trans (Nat.add_le_add_left (by decide) _) hle

/-- The heap after a call that found the old block `b`. -/
def cleared (h : Heap) (b n : Nat) : Heap :=
  (((h.setFree b 1).setFree b 0).memset (b + metaSize) n).memset (b + metaSize) (h.size b)

/-- The old block is found: it is taken again, and cleared twice. -/
theorem realloc_own (hi : Inv s bs) (hb : b ∈ bs) (hn : n ≠ 0) (hfind : Finds s (b + metaSize) n b)
    (hfits : s.heap.size b ≤ n + 2 * metaSize) (register : Nat) :
    n ≤ s.heap.size b ∧
      s.heap.mmRealloc (b + metaSize) n register = some (b + metaSize, cleared s.heap b n) := by
  have hlt := hi.ok.lt hb
  have hpos := hi.ok.pos hb
  have hheader : header (b + metaSize) = b := header_of (by omega)
  obtain ⟨hok₁, hsize₁, -⟩ := hi.ok.setFree hb (v := 1)
  obtain ⟨hok₂, hsize₂, -⟩ := hok₁.setFree hb (v := 0)
  have hfit : (s.heap.setFree b 1).firstFit n = some b := by
    have hfind' := hfind
    unfold Finds at hfind'
    rwa [hheader] at hfind'
  have hroom : n ≤ (s.heap.setFree b 1).size b := by
    obtain hz | ⟨-, -, hle⟩ := hok₁.links.search hfit
    · exact absurd hz (Nat.ne_of_gt hpos)
    · exact hle
  obtain ⟨-, hsame₃⟩ := hok₂.memset hb (hroom.trans (hsize₂ b hb).ge)
  have hsize : (((s.heap.setFree b 1).setFree b 0).memset (b + metaSize) n).size b = s.heap.size b :=
    (hsame₃ b hb).1.trans ((hsize₂ b hb).trans (hsize₁ b hb))
  refine ⟨hroom.trans (hsize₁ b hb).le, ?_⟩
  rw [hfind.realloc hn, hheader, take_block hok₁ hb hroom ((hsize₁ b hb).le.trans hfits),
    if_neg (Nat.ne_of_gt (Nat.lt_of_lt_of_le (by decide) (Nat.le_add_left metaSize b)))]
  rw [replace_self hok₂ hb (by omega), hsize]
  rfl

/-- What the old block holds then, and what is beside it. -/
theorem cleared_bytes (hroom : n ≤ h.size b) :
    (∀ i < h.size b, (cleared h b n).mem (b + metaSize + i) = 0) ∧
      ∀ x, x < b + 24 ∨ b + metaSize + h.size b ≤ x → (cleared h b n).mem x = h.mem x := by
  refine ⟨fun i hi => if_pos (by omega), fun x hx => ?_⟩
  simp only [metaSize] at hx
  have hout : x < b + metaSize ∨ b + metaSize + h.size b ≤ x := by
    simp only [metaSize]
    omega
  exact (fill_other hout).trans ((fill_other (by omega)).trans
    ((store_other (by omega)).trans (store_other (by omega))))

/-- The block is not free, and as large as it was. -/
theorem cleared_fields (hok : Ok h bs) (hb : b ∈ bs) (hroom : n ≤ h.size b) :
    Ok (cleared h b n) bs ∧ (cleared h b n).free b = 0 ∧ (cleared h b n).size b = h.size b := by
  obtain ⟨hok₁, hsize₁, -⟩ := hok.setFree hb (v := 1)
  obtain ⟨hok₂, hsize₂, -⟩ := hok₁.setFree hb (v := 0)
  have hsize : ((h.setFree b 1).setFree b 0).size b = h.size b := (hsize₂ b hb).trans (hsize₁ b hb)
  obtain ⟨hok₃, hsame₃⟩ := hok₂.memset hb (hroom.trans hsize.ge)
  obtain ⟨hok₄, hsame₄⟩ := hok₃.memset hb (((hsame₃ b hb).1.trans hsize).ge)
  exact ⟨hok₄, (hsame₄ b hb).2.trans ((hsame₃ b hb).2.trans (setFree_self (by decide))),
    (hsame₄ b hb).1.trans ((hsame₃ b hb).1.trans hsize)⟩

/-- The old block is as promised only where its bytes were zero. -/
theorem cleared_promised (hi : Inv s bs) (hb : b ∈ bs) (hroom : n ≤ s.heap.size b) :
    Promised s (b + metaSize) n (b + metaSize) (cleared s.heap b n) ↔
      ∀ i < min (s.heap.size b) n, s.heap.mem (b + metaSize + i) = 0 := by
  have hlt := hi.ok.lt hb
  have hheader : header (b + metaSize) = b := header_of (by omega)
  have hne : b + metaSize ≠ 0 :=
    Nat.ne_of_gt (Nat.lt_of_lt_of_le (by decide) (Nat.le_add_left metaSize b))
  obtain ⟨hzero, hout⟩ := cleared_bytes hroom
  refine ⟨fun hp i hi' => ?_, fun hold => ?_⟩
  · have hsame := (hp.moved hne).2 i (by rw [hheader]; exact hi')
    exact hsame.symm.trans (hzero i (by omega))
  · obtain ⟨hok', hfree, hsize⟩ := cleared_fields hi.ok hb hroom
    refine ⟨fun _ => ⟨⟨b, rfl, hfree, hroom.trans hsize.ge, hok'.inside b hb⟩, fun i hi' => ?_⟩,
      fun _ e he => ?_, fun hz => absurd hz hne⟩
    · rw [hheader] at hi'
      exact (hzero i (by omega)).trans (hold i hi').symm
    · have hnot := drop_not s _ e he
      obtain ⟨d, hd, heq, -, hle⟩ := hi.live e (List.filter_sublist.subset he)
      have hdb : d ≠ b := fun h => hnot (heq.trans (congrArg (· + metaSize) h))
      have hap := hi.ok.apart hd hb hdb
      have hheaderd : header e.1 = d := by
        rw [heq]
        exact header_of (by have := hi.ok.lt hd; omega)
      refine ⟨by omega, ?_⟩
      rw [hheaderd, heq]
      intro i hi'
      refine hout _ ?_
      simp only [metaSize] at hap ⊢
      omega

theorem take_null : h.take n 0 = if (h.increaseMem n).1 = 0 then (0, (h.increaseMem n).2)
    else ((h.increaseMem n).1 + metaSize, (h.increaseMem n).2) := rfl

theorem setPrev_brk {v : Nat} : (h.setPrev b v).brk = h.brk := rfl

theorem setNext_brk {v : Nat} : (h.setNext b v).brk = h.brk := rfl

theorem memset_brk : (h.memset b n).brk = h.brk := rfl

theorem memcpy_brk : (h.memcpy b c n).brk = h.brk := rfl

theorem ite_brk {P : Prop} [Decidable P] {h₁ h₂ : Heap} (he₁ : h₁.brk = h.brk) (he₂ : h₂.brk = h.brk) :
    (if P then h₁ else h₂).brk = h.brk := by
  split
  · exact he₁
  · exact he₂

/-- It does not move the break. -/
theorem replace_brk : (h.replace p q n).brk = h.brk := by
  obtain ⟨h₂, h₃, h₄, h₆, e₂, e₃, e₄, e₆, heq⟩ := replace_stages h p q n
  have hb₂ : h₂.brk = h.brk := by
    rw [e₂]
    exact setNext_brk.trans setPrev_brk
  have hb₃ : h₃.brk = h₂.brk := by
    rw [e₃]
    exact ite_brk setNext_brk rfl
  have hb₄ : h₄.brk = h₃.brk := by
    rw [e₄]
    exact ite_brk setPrev_brk rfl
  have hb₆ : h₆.brk = h₄.brk := by
    rw [e₆]
    exact ite_brk (memcpy_brk.trans memset_brk) (memcpy_brk.trans memset_brk)
  rw [heq, memset_brk, hb₆, hb₄, hb₃, hb₂]

/-- With no free block that fits it is for `sbrk` to say. -/
theorem contract_brk (hi : Inv s bs) (hb : b ∈ bs) (hn : n ≠ 0) (hlt : n < 2 ^ 64)
    (hfind : Finds s (b + metaSize) n 0) : Contract s (b + metaSize) n ↔ Given s.heap n := by
  have hb63 := hi.ok.lt hb
  have hheader : header (b + metaSize) = b := header_of (by omega)
  obtain ⟨hok₁, -, -⟩ := hi.ok.setFree hb (v := 1)
  have hpos : 0 < s.heap.brk := hi.ok.base.trans_le hi.ok.lo
  have hcall := hfind.realloc hn
  rw [hheader, take_null] at hcall
  refine ⟨fun hcon => ?_, fun hg register => ?_⟩
  · by_contra hg
    obtain ⟨q, h', hq, hprom⟩ := hcon 0
    rw [hcall 0] at hq
    obtain ⟨k, hk, ⟨heq, -⟩ | ⟨hfst, hbrk, hgiven, -⟩⟩ := increaseMem_cases hok₁ n
    · -- the old block stays free
      rw [heq] at hq
      cases hq
      obtain ⟨⟨d, hd, hfree, -⟩, -⟩ := hprom.failed rfl
      obtain rfl : b = d := Nat.add_right_cancel hd
      have hone : (s.heap.setFree b 1).free b = 1 := setFree_self (by decide)
      exact absurd (hone.symm.trans hfree) (by decide)
    · -- the block does not end below the break
      have hbig : ¬ metaSize + n < 2 ^ 63 := fun hsmall => hg (hgiven hsmall)
      have hfst' : ((s.heap.setFree b 1).increaseMem n).1 ≠ 0 := by
        rw [hfst]
        exact Nat.ne_of_gt hpos
      rw [if_neg hfst', if_neg (by simp only [metaSize]; omega)] at hq
      cases hq
      obtain ⟨⟨d, hd, -, hsize, -, hend⟩, -⟩ := hprom.moved (by simp only [metaSize]; omega)
      rw [replace_brk, hbrk] at hend
      have hlim : (s.heap.setFree b 1).limit < 2 ^ 63 := hok₁.limit
      omega
  · obtain ⟨hready, hfst⟩ := ready_of_brk hi hb hlt hg
    have hne : b ≠ s.heap.brk := fun h => hi.ok.not_mem_brk (h ▸ hb)
    refine ⟨s.heap.brk + metaSize, _, ?_, hready.promised hi hb hne⟩
    rw [hcall register, hfst, if_neg (Nat.ne_of_gt hpos), if_neg (by simp only [metaSize]; omega)]

/-- Where no block is split, `mm_realloc` keeps its contract exactly where it suits. -/
theorem contract_iff (hi : Inv s bs) (hp : s.Live p) (hn : n ≠ 0) (hlt : n < 2 ^ 64)
    (hsplit : NoSplit s p n) : Contract s p n ↔ Suits s p n := by
  obtain ⟨b, hb, rfl, hheader⟩ := hi.block hp
  obtain ⟨hok₁, hsize₁, -⟩ := hi.ok.setFree hb (v := 1)
  have hbpos := hi.ok.pos hb
  obtain ⟨c, hc⟩ := hok₁.ends n
  have hfind : Finds s (b + metaSize) n c := by
    unfold Finds
    rwa [hheader]
  have hsuits : Suits s (b + metaSize) n ↔
      (c = b → ∀ i < min (s.heap.size c) n, s.heap.mem (b + metaSize + i) = 0) ∧
        (c = 0 → Given s.heap n) := by
    refine ⟨fun h => ?_, fun h d hd => ?_⟩
    · have hcase := h c hfind
      rwa [hheader] at hcase
    · obtain rfl : c = d := Option.some.inj (hfind.symm.trans hd)
      rwa [hheader]
  rw [hsuits]
  obtain rfl | ⟨hmem, hfree, hroom⟩ := hok₁.links.search hc
  · rw [contract_brk hi hb hn hlt hfind]
    exact ⟨fun hg => ⟨fun hz => absurd hz (Nat.ne_of_lt hbpos), fun _ => hg⟩, fun h => h.2 rfl⟩
  · have hcpos := hi.ok.pos hmem
    have hfits := hsplit c hfind (Nat.ne_of_gt hcpos)
    have hnull : c = 0 → Given s.heap n := fun hz => absurd hz (Nat.ne_of_gt hcpos)
    by_cases hcb : c = b
    · obtain rfl := hcb
      have hroom' : n ≤ s.heap.size c := hroom.trans (hsize₁ c hmem).le
      have hcall := fun register => (realloc_own hi hb hn hfind hfits register).2
      refine Iff.trans ?_ ((cleared_promised hi hb hroom').trans
        ⟨fun h => ⟨fun _ => h, hnull⟩, fun h => h.1 rfl⟩)
      refine ⟨fun hcon => ?_, fun hprom register => ⟨_, _, hcall register, hprom⟩⟩
      obtain ⟨q, h', hq, hprom⟩ := hcon 0
      rw [hcall 0] at hq
      cases hq
      exact hprom
    · refine ⟨fun _ => ⟨fun h => absurd h hcb, hnull⟩, fun _ register => ?_⟩
      have hroom' : n ≤ s.heap.size c := hroom.trans (hsize₁ c hmem).le
      have hready := ready_of_free hi hb hmem (Ne.symm hcb) hfree hroom'
      refine ⟨c + metaSize, _, ?_, hready.promised hi hb (Ne.symm hcb)⟩
      rw [hfind.realloc hn, hheader, take_block hok₁ hmem hroom ((hsize₁ c hmem).le.trans hfits),
        if_neg (Nat.ne_of_gt (Nat.lt_of_lt_of_le (by decide) (Nat.le_add_left metaSize c)))]

end Get

/-! ## Runs -/

section Runs

variable {s s' : St} {bs : List Nat} {p n : Nat}

/-- The program writes a byte into what it has. -/
def Writes (s s' : St) : Prop := ∃ e ∈ s.live, ∃ i < e.2, ∃ v,
  s' = ⟨{ s.heap with mem := fill s.heap.mem (e.1 + i) 1 v }, s.live⟩

/-- A call that meets the condition, or a write. -/
def GoodEvent (s s' : St) : Prop := GoodStep s s' ∨ Writes s s'

/-- Any call, or a write. -/
def Event (s s' : St) : Prop := Step s s' ∨ Writes s s'

/-- Writes into live blocks keep the heap in order. -/
theorem writes_inv (hi : Inv s bs) (hw : Writes s s') : Inv s' bs := by
  obtain ⟨e, he, i, hi', v, rfl⟩ := hw
  obtain ⟨b, hb, heq, -, hle⟩ := hi.live e he
  have hm : ∀ x, x < b + metaSize ∨ b + metaSize + s.heap.size b ≤ x →
      fill s.heap.mem (e.1 + i) 1 v x = s.heap.mem x := fun x hx => fill_other (by omega)
  generalize hh : ({ s.heap with mem := fill s.heap.mem (e.1 + i) 1 v } : Heap) = h'
  have hglobals : SameGlobals s.heap h' := by
    rw [← hh]
    exact ⟨rfl, rfl, rfl, rfl, rfl⟩
  have hm' : ∀ x, x < b + metaSize ∨ b + metaSize + s.heap.size b ≤ x → h'.mem x = s.heap.mem x := by
    rw [← hh]
    exact hm
  obtain ⟨hok, -⟩ := hi.ok.within hb hglobals fun x hx => hm' x (by simp only [metaSize] at hx ⊢; omega)
  have hsame := hi.ok.same_outside hb hm' fun _ _ => ⟨rfl, rfl⟩
  refine ⟨hok, fun e' he' => ?_, hi.once⟩
  obtain ⟨c, hc, heq', hfree, hle'⟩ := hi.live e' he'
  exact ⟨c, hc, heq', (hsame c hc).2.trans hfree, hle'.trans (hsame c hc).1.ge⟩

theorem run_inv {base limit : Nat} {mem : Bytes} (hbase : 0 < base) (hle : base ≤ limit)
    (hlimit : limit < 2 ^ 63) (hrun : Relation.ReflTransGen GoodEvent (St.init base limit mem) s) :
    ∃ bs, Inv s bs := by
  refine Threads.invariant_of_step (I := fun s => ∃ bs, Inv s bs) hrun
    ⟨[], init_inv mem hbase hle hlimit⟩ fun a b ha hab => ?_
  obtain ⟨bs, hi⟩ := ha
  obtain ⟨op, hm, hs⟩ | hw := hab
  · exact step_inv hi hm hs
  · exact ⟨bs, writes_inv hi hw⟩

/-- With `NULL` for a pointer, the result is what the register holds. -/
theorem realloc_null (hi : Inv s bs) (hn : n ≠ 0) : ∃ r h', s.heap.mmMalloc n = some (r, h') ∧
    ∀ register, (s.heap.mmRealloc 0 n register).map Prod.fst = some register := by
  obtain ⟨c, hc⟩ := hi.ok.ends n
  have hmalloc : s.heap.mmMalloc n = some (s.heap.take n c) := by
    unfold mmMalloc
    rw [if_neg hn, hc, Option.map_some]
  refine ⟨_, _, hmalloc, fun register => ?_⟩
  unfold mmRealloc
  rw [if_neg hn, if_pos rfl, hmalloc]
  rfl

/-- After every run of good calls and of writes: `mm_realloc` of what is live, where no block is
split, and of `NULL`. -/
theorem mm_realloc_contract (base limit : Nat) (mem : Bytes) (hbase : 0 < base) (hle : base ≤ limit)
    (hlimit : limit < 2 ^ 63) (hrun : Relation.ReflTransGen GoodEvent (St.init base limit mem) s)
    (hn : 0 < n) (hlt : n < 2 ^ 64) :
    (∀ p, s.Live p → NoSplit s p n → (Contract s p n ↔ Suits s p n)) ∧
      ∃ r h', s.heap.mmMalloc n = some (r, h') ∧ ∀ register,
        (s.heap.mmRealloc 0 n register).map Prod.fst = some r ↔ register = r := by
  obtain ⟨bs, hi⟩ := run_inv hbase hle hlimit hrun
  refine ⟨fun p hp hsplit => contract_iff hi hp (Nat.ne_of_gt hn) hlt hsplit, ?_⟩
  obtain ⟨r, h', hmalloc, hnull⟩ := realloc_null hi (Nat.ne_of_gt hn)
  refine ⟨r, h', hmalloc, fun register => ?_⟩
  rw [hnull register]
  exact ⟨fun h => Option.some.inj h, fun h => congrArg some h⟩

end Runs

/-! ## A run -/

section Small

/-- Four bytes are asked for, and the first one is written. -/
def written : St :=
  ⟨{ (call begin (.malloc 4)).heap with mem := fill (call begin (.malloc 4)).heap.mem 4128 1 65 },
    (call begin (.malloc 4)).live⟩

theorem writes_written : Writes (call begin (.malloc 4)) written :=
  ⟨(4128, 4), by decide +kernel, 0, by decide, 65, rfl⟩

/-- Eight bytes do not fit, and are got from `sbrk`. -/
theorem mm_realloc_contract_grows : Relation.ReflTransGen GoodEvent begin written ∧
    Contract written 4128 8 := by
  have hfirst : GoodStep begin (call begin (.malloc 4)) :=
    ⟨.malloc 4, .malloc (b := 0) (by decide +kernel) (fun _ => .inl (by decide))
      fun hne => absurd rfl hne,
      step_call (by decide +kernel)⟩
  have hrun : Relation.ReflTransGen GoodEvent begin written :=
    (Relation.ReflTransGen.single (.inl hfirst)).tail (.inr writes_written)
  have hfind : Finds written 4128 8 0 := by
    unfold Finds
    decide +kernel
  have hgiven : Given written.heap 8 := by
    unfold Given
    decide +kernel
  refine ⟨hrun, ((mm_realloc_contract 4096 100000 (fun _ => 0) (by decide) (by decide) (by decide) hrun
    (by decide) (by decide)).1 4128 (by decide +kernel) fun c hc hne => ?_).mpr fun c hc => ?_⟩
  · exact absurd (Option.some.inj (hfind.symm.trans hc)).symm hne
  · obtain rfl := Option.some.inj (hfind.symm.trans hc)
    exact ⟨fun h => absurd h (by decide), fun _ => hgiven⟩

/-- Four bytes fit: the block is found again, and its byte is lost. -/
theorem mm_realloc_loses : ¬∀ (base limit : Nat) (mem : Bytes) (s : St) (p n : Nat), 0 < base →
    base ≤ limit → limit < 2 ^ 63 → Relation.ReflTransGen Event (St.init base limit mem) s →
    s.Live p → 0 < n → n < 2 ^ 64 → Contract s p n := by
  intro hall
  have hrun : Relation.ReflTransGen Event begin written :=
    (Relation.ReflTransGen.single (.inl ⟨.malloc 4, step_call (by decide +kernel)⟩)).tail
      (.inr writes_written)
  obtain ⟨q, h', hcall, hprom⟩ := hall 4096 100000 _ written 4128 4 (by decide) (by decide)
    (by decide) hrun (by decide +kernel) (by decide) (by decide) 0
  have hresult : (written.heap.mmRealloc 4128 4 0).map (fun r => (r.1, r.2.mem 4128)) =
      some (4128, 0) := by
    decide +kernel
  rw [hcall] at hresult
  obtain ⟨rfl, hzero⟩ := Prod.mk.inj (Option.some.inj hresult)
  have hsize : 0 < min (written.heap.size (header 4128)) 4 := by decide +kernel
  have hkept := (hprom.moved (by decide)).2 0 hsize
  have hold : written.heap.mem (4128 + 0) = 65 := by decide +kernel
  rw [hold] at hkept
  exact absurd (hkept.symm.trans hzero) (by decide)

end Small

end CS162.Hw3
