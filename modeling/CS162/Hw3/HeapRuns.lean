/-
# `CS162.Hw3.HeapRuns` — the heap in runs

What the allocator has to keep: the list from `head` is linked both ways and ends in
`end`, its blocks lie one beside the other in memory got from `sbrk`, and every pointer
the program holds is a block that is not free and large enough.

Three things break it.  `split` does not take the block it splits (`free` stays 1), puts
the rest 8 times too far and gives it a size below zero.  `mm_realloc` links the new
block in the place of the old one without taking it out of its own.  A request so large
that `META_SIZE + size` is negative makes the break go down.  `Meets` is the condition
that a call does none of these; in runs of such calls blocks are only appended
(`increaseMem_ok`), taken and given back (`Ok.within`).
-/
import Mathlib.Data.List.Nodup
import Mathlib.Logic.Relation
import CS162.Lib.Threads
import CS162.Hw3.MmAlloc

namespace CS162.Hw3

open Mem Heap

/-! ## The heap -/

/-- The blocks reached from `c`, whose `prev` has to be `p`. -/
def Links (h : Heap) : Nat → Nat → List Nat → Prop
  | _, c, [] => c = 0
  | p, c, b :: l => c = b ∧ b ≠ 0 ∧ h.prev b = p ∧ Links h b (h.next b) l

/-- The heap is in order. -/
structure Intact (s : St) (bs : List Nat) : Prop where
  links : Links s.heap 0 s.heap.head bs
  last : s.heap.last = bs.getLastD 0
  disjoint : bs.Pairwise fun b c =>
    b + metaSize + s.heap.size b ≤ c ∨ c + metaSize + s.heap.size c ≤ b
  inside : ∀ b ∈ bs, s.heap.base ≤ b ∧ b + metaSize + s.heap.size b ≤ s.heap.brk
  live : ∀ e ∈ s.live, ∃ b ∈ bs, e.1 = b + metaSize ∧ s.heap.free b = 0 ∧ e.2 ≤ s.heap.size b
  apart : s.live.Pairwise fun e f => e.1 + e.2 ≤ f.1 ∨ f.1 + f.2 ≤ e.1

/-- What the heap asks `sbrk` for is not negative, or is so
far below zero that `sbrk` refuses it. -/
def Grows (h : Heap) (n : Nat) : Prop :=
  metaSize + n < 2 ^ 63 ∨ metaSize + n < 2 ^ 64 ∧ h.brk + (metaSize + n) < h.base + 2 ^ 64

/-- The condition on a call: it does not split, it does not move a block, and it does not
ask `sbrk` for a negative amount. -/
def Meets (s : St) : Op → Prop
  | .malloc n => ∀ b, s.heap.firstFit n = some b →
      (b = 0 → Grows s.heap n) ∧ (b ≠ 0 → s.heap.size b ≤ n + 2 * metaSize)
  | .realloc p n => n = 0 ∨
      (s.heap.setFree (header p) 1).firstFit n = some (header p) ∧
        s.heap.size (header p) ≤ n + 2 * metaSize
  | .free _ => True

/-! ## Fields -/

section Fields

variable {h h' : Heap} {b c n v : Nat}

/-- A header is 28 bytes and some padding. -/
theorem fields_congr (hm : ∀ x, b ≤ x → x < b + 28 → h'.mem x = h.mem x) :
    h'.size b = h.size b ∧ h'.next b = h.next b ∧ h'.prev b = h.prev b ∧ h'.free b = h.free b :=
  ⟨load_congr fun x _ _ => hm x (by omega) (by omega),
    load_congr fun x _ _ => hm x (by omega) (by omega),
    load_congr fun x _ _ => hm x (by omega) (by omega),
    load_congr fun x _ _ => hm x (by omega) (by omega)⟩

/-- The flag of a block. -/
theorem setFree_self (hv : v < 2 ^ 32) : (h.setFree b v).free b = v := load_store hv

theorem setPrev_prev (h : Heap) (b : Nat) : h.setPrev b (h.prev b) = h := by
  unfold setPrev prev
  rw [store_load]

theorem setNext_next (h : Heap) (b : Nat) : h.setNext b (h.next b) = h := by
  unfold setNext next
  rw [store_load]

end Fields

/-! ## Lists of blocks -/

section Lists

variable {h h' : Heap} {p c e n : Nat} {l : List Nat}

theorem Links.congr (hl : Links h p c l)
    (hsame : ∀ b ∈ l, h'.next b = h.next b ∧ h'.prev b = h.prev b) : Links h' p c l := by
  induction l generalizing p c with
  | nil => exact hl
  | cons b l ih =>
      obtain ⟨hc, hb, hp, hrest⟩ := hl
      obtain ⟨hn, hpr⟩ := hsame b List.mem_cons_self
      refine ⟨hc, hb, hpr.trans hp, ?_⟩
      rw [hn]
      exact ih hrest fun b' hb' => hsame b' (List.mem_cons_of_mem b hb')

/-- A block is linked to its neighbours, and they to it. -/
theorem Links.neighbours {b : Nat} (hl : Links h p c l) (hb : b ∈ l) :
    (c = b ∧ h.prev b = p ∨ h.next (h.prev b) = b) ∧ (h.next b = 0 ∨ h.prev (h.next b) = b) := by
  induction l generalizing p c with
  | nil => cases hb
  | cons a l ih =>
      obtain ⟨hc, -, hp, hrest⟩ := hl
      rcases List.mem_cons.mp hb with rfl | hmem
      · refine ⟨.inl ⟨hc, hp⟩, ?_⟩
        cases l with
        | nil => exact .inl hrest
        | cons d l =>
            obtain ⟨hd, -, hdp, -⟩ := hrest
            rw [hd]
            exact .inr hdp
      · obtain ⟨hprev, hnext⟩ := ih hrest hmem
        refine ⟨.inr ?_, hnext⟩
        rcases hprev with ⟨hn, hprev⟩ | hprev
        · rw [hprev, hn]
        · exact hprev

/-- One more block at the end. -/
theorem Links.snoc (hl : Links h p c (l ++ [e])) (hprev : ∀ b ∈ l ++ [e], h'.prev b = h.prev b)
    (hnext : ∀ b ∈ l, h'.next b = h.next b) (he : h'.next e = n) (hn : n ≠ 0)
    (hp : h'.prev n = e) (hz : h'.next n = 0) : Links h' p c (l ++ [e] ++ [n]) := by
  induction l generalizing p c with
  | nil =>
      obtain ⟨hc, hne, hpe, -⟩ := hl
      exact ⟨hc, hne, (hprev e (by simp)).trans hpe, he, hn, hp, hz⟩
  | cons b l ih =>
      obtain ⟨hc, hne, hpb, hrest⟩ := hl
      refine ⟨hc, hne, (hprev b (by simp)).trans hpb, ?_⟩
      rw [hnext b List.mem_cons_self]
      exact ih hrest (fun b' hb' => hprev b' (List.mem_cons_of_mem b hb'))
        fun b' hb' => hnext b' (List.mem_cons_of_mem b hb')

/-- What the loop of `mm_malloc` ends with. -/
theorem Links.search {size fuel r : Nat} (hl : Links h p c l) (hs : h.search size fuel c = some r) :
    r = 0 ∨ r ∈ l ∧ h.free r = 1 ∧ size ≤ h.size r := by
  induction l generalizing p c fuel with
  | nil =>
      obtain rfl : c = 0 := hl
      cases fuel with
      | zero => cases hs
      | succ fuel =>
          rw [Heap.search, if_pos rfl] at hs
          exact .inl (Option.some.inj hs).symm
  | cons b l ih =>
      obtain ⟨rfl, hb, -, hrest⟩ := hl
      cases fuel with
      | zero => cases hs
      | succ fuel =>
          rw [Heap.search, if_neg hb] at hs
          split at hs
          · next hfit =>
            cases hs
            exact .inr ⟨List.mem_cons_self, hfit⟩
          · exact (ih hrest hs).imp_right fun hr => ⟨List.mem_cons_of_mem _ hr.1, hr.2⟩

end Lists

/-! ## The invariant -/

/-- The blocks in order of their addresses. -/
structure Ok (h : Heap) (bs : List Nat) : Prop where
  base : 0 < h.base
  limit : h.limit < 2 ^ 63
  lo : h.base ≤ h.brk
  hi : h.brk ≤ h.limit
  links : Links h 0 h.head bs
  last : h.last = bs.getLastD 0
  sorted : bs.Pairwise fun b c => b + metaSize + h.size b ≤ c
  inside : ∀ b ∈ bs, h.base ≤ b ∧ b + metaSize + h.size b ≤ h.brk

structure Inv (s : St) (bs : List Nat) : Prop where
  ok : Ok s.heap bs
  live : ∀ e ∈ s.live, ∃ b ∈ bs, e.1 = b + metaSize ∧ s.heap.free b = 0 ∧ e.2 ≤ s.heap.size b
  once : (s.live.map Prod.fst).Nodup

/-- The same globals. -/
structure SameGlobals (h h' : Heap) : Prop where
  head : h'.head = h.head
  last : h'.last = h.last
  brk : h'.brk = h.brk
  base : h'.base = h.base
  limit : h'.limit = h.limit

namespace Ok

variable {h h' : Heap} {bs : List Nat} {b c n : Nat}

/-- It is enough that the headers of the blocks are as they were. -/
theorem touch (hok : Ok h bs) (hg : SameGlobals h h')
    (hsame : ∀ b ∈ bs, h'.size b = h.size b ∧ h'.next b = h.next b ∧ h'.prev b = h.prev b) :
    Ok h' bs where
  base := by rw [hg.base]; exact hok.base
  limit := by rw [hg.limit]; exact hok.limit
  lo := by rw [hg.base, hg.brk]; exact hok.lo
  hi := by rw [hg.brk, hg.limit]; exact hok.hi
  links := by
    rw [hg.head]
    exact hok.links.congr fun b hb => (hsame b hb).2
  last := hg.last.trans hok.last
  sorted := by
    refine hok.sorted.imp_of_mem fun hb _ hlt => ?_
    rw [(hsame _ hb).1]
    exact hlt
  inside b hb := by
    rw [hg.base, hg.brk, (hsame b hb).1]
    exact hok.inside b hb

/-- Two blocks lie apart. -/
theorem apart (hok : Ok h bs) (hb : b ∈ bs) (hc : c ∈ bs) (hne : b ≠ c) :
    b + metaSize + h.size b ≤ c ∨ c + metaSize + h.size c ≤ b := by
  have hpair : bs.Pairwise fun b c =>
      b + metaSize + h.size b ≤ c ∨ c + metaSize + h.size c ≤ b := hok.sorted.imp .inl
  have _ : Std.Symm fun b c => b + metaSize + h.size b ≤ c ∨ c + metaSize + h.size c ≤ b :=
    ⟨fun _ _ => Or.symm⟩
  exact hpair.forall hb hc hne

/-- Something happens in the block `b`, but not to the first 24 bytes of it. -/
theorem within (hok : Ok h bs) (hb : b ∈ bs) (hg : SameGlobals h h')
    (hm : ∀ x, x < b + 24 ∨ b + metaSize + h.size b ≤ x → h'.mem x = h.mem x) :
    Ok h' bs ∧ (∀ c ∈ bs, h'.size c = h.size c) ∧ ∀ c ∈ bs, c ≠ b → h'.free c = h.free c := by
  have hself : h'.size b = h.size b ∧ h'.next b = h.next b ∧ h'.prev b = h.prev b :=
    ⟨load_congr fun x _ _ => hm x (by omega), load_congr fun x _ _ => hm x (by omega),
      load_congr fun x _ _ => hm x (by omega)⟩
  have hother : ∀ c ∈ bs, c ≠ b → h'.size c = h.size c ∧ h'.next c = h.next c ∧
      h'.prev c = h.prev c ∧ h'.free c = h.free c := by
    intro c hc hne
    refine fields_congr fun x hx hlt => hm x ?_
    rcases hok.apart hb hc (Ne.symm hne) with hle | hle
    · exact .inr (hle.trans hx)
    · simp only [metaSize] at hle
      exact .inl (by omega)
  have hall : ∀ c ∈ bs, h'.size c = h.size c ∧ h'.next c = h.next c ∧ h'.prev c = h.prev c := by
    intro c hc
    by_cases hcb : c = b
    · rw [hcb]
      exact hself
    · obtain ⟨h1, h2, h3, -⟩ := hother c hc hcb
      exact ⟨h1, h2, h3⟩
  exact ⟨hok.touch hg hall, fun c hc => (hall c hc).1, fun c hc hcb => (hother c hc hcb).2.2.2⟩

end Ok

/-! ## The calls -/

section Calls

variable {h h' : Heap} {bs : List Nat} {b n p : Nat}

theorem header_of (hlt : b < 2 ^ 63) : header (b + metaSize) = b := by
  unfold header
  rw [show b + metaSize + 2 ^ 64 - metaSize = b + 2 ^ 64 by omega, Nat.add_mod_right]
  exact Nat.mod_eq_of_lt (by omega)

theorem Ok.lt (hok : Ok h bs) (hb : b ∈ bs) : b + metaSize + h.size b < 2 ^ 63 := by
  have h1 := (hok.inside b hb).2
  have h2 := hok.hi
  have h3 := hok.limit
  omega

/-- The flag of a block is set. -/
theorem Ok.setFree (hok : Ok h bs) (hb : b ∈ bs) {v : Nat} :
    Ok (h.setFree b v) bs ∧ (∀ c ∈ bs, (h.setFree b v).size c = h.size c) ∧
      ∀ c ∈ bs, c ≠ b → (h.setFree b v).free c = h.free c := by
  refine hok.within hb ⟨rfl, rfl, rfl, rfl, rfl⟩ fun x hx => store_other ?_
  simp only [metaSize] at hx
  omega

/-- The memory of a block is cleared. -/
theorem Ok.memset (hok : Ok h bs) (hb : b ∈ bs) (hn : n ≤ h.size b) :
    Ok (h.memset (b + metaSize) n) bs ∧
      ∀ c ∈ bs, (h.memset (b + metaSize) n).size c = h.size c ∧
        (h.memset (b + metaSize) n).free c = h.free c := by
  have hm : ∀ x, x < b + metaSize ∨ b + metaSize + n ≤ x →
      (h.memset (b + metaSize) n).mem x = h.mem x := fun x hx => fill_other hx
  have hg : SameGlobals h (h.memset (b + metaSize) n) := ⟨rfl, rfl, rfl, rfl, rfl⟩
  obtain ⟨hok', hsize, hfree⟩ :=
    hok.within hb hg fun x hx => hm x (by simp only [metaSize] at hx ⊢; omega)
  refine ⟨hok', fun c hc => ⟨hsize c hc, ?_⟩⟩
  by_cases hcb : c = b
  · rw [hcb]
    exact load_congr fun x _ _ => hm x (by simp only [metaSize]; omega)
  · exact hfree c hc hcb

/-- The break has moved up. -/
theorem Ok.moved (hok : Ok h bs) {k : Nat} (hlo : h.brk ≤ k) (hhi : k ≤ h.limit) :
    Ok { h with brk := k } bs where
  base := hok.base
  limit := hok.limit
  lo := hok.lo.trans hlo
  hi := hhi
  links := hok.links.congr fun _ _ => ⟨rfl, rfl⟩
  last := hok.last
  sorted := hok.sorted
  inside b hb := ⟨(hok.inside b hb).1, (hok.inside b hb).2.trans hlo⟩

/-- What `sbrk` does with a request of `n` bytes and a header. -/
theorem sbrk_grows (hok : Ok h bs) (hn : Grows h n) :
    h.sbrk ((metaSize + n) % 2 ^ 64) = (h.brk, { h with brk := h.brk + metaSize + n }) ∧
      h.brk + metaSize + n ≤ h.limit ∨
    h.sbrk ((metaSize + n) % 2 ^ 64) = (2 ^ 64 - 1, h) := by
  have hlo := hok.lo
  have hlt : metaSize + n < 2 ^ 64 := by
    rcases hn with hn | hn
    · omega
    · exact hn.1
  unfold sbrk signed
  rw [Nat.mod_eq_of_lt hlt]
  dsimp only
  by_cases hpos : metaSize + n < 2 ^ 63
  · rw [if_pos hpos]
    split
    · refine .inl ⟨?_, by omega⟩
      rw [show ((h.brk : Int) + ((metaSize + n : Nat) : Int)).toNat = h.brk + metaSize + n by omega]
    · exact .inr rfl
  · rw [if_neg hpos]
    have hneg := hn.resolve_left hpos
    exact .inr (if_neg (by omega))

/-- The break has moved, and there is a header in the new memory. -/
structure Fresh (h h' : Heap) (n : Nat) : Prop where
  head : h'.head = h.head
  last : h'.last = h.last
  brk : h'.brk = h.brk + metaSize + n
  base : h'.base = h.base
  limit : h'.limit = h.limit
  size : h'.size h.brk = n
  next : h'.next h.brk = 0
  prev : h'.prev h.brk = 0
  free : h'.free h.brk = 0
  mem : ∀ x < h.brk, h'.mem x = h.mem x

/-- The header that `increase_mem` writes. -/
theorem fresh_header (h : Heap) (hn : n < 2 ^ 64) :
    Fresh h (((({ h with brk := h.brk + metaSize + n } : Heap).setSize h.brk n).setPrev h.brk 0).setFree
      h.brk 0 |>.setNext h.brk 0) n := by
  refine ⟨rfl, rfl, rfl, rfl, rfl, ?_, ?_, ?_, ?_, fun x hx => ?_⟩ <;>
    simp only [Heap.size, Heap.next, Heap.prev, Heap.free, setSize, setNext, setPrev, Heap.setFree] <;>
    simp (disch := omega) only [load_store_other, load_store, store_other]

/-- The blocks, and one more at the break. -/
theorem Ok.append (hok : Ok h bs) (hk : h.brk + metaSize + n ≤ h.limit) (hbase : h'.base = h.base)
    (hlimit : h'.limit = h.limit) (hbrk : h'.brk = h.brk + metaSize + n) (hlast : h'.last = h.brk)
    (hlinks : Links h' 0 h'.head (bs ++ [h.brk])) (hsame : ∀ b ∈ bs, h'.size b = h.size b)
    (hsize : h'.size h.brk = n) : Ok h' (bs ++ [h.brk]) where
  base := by rw [hbase]; exact hok.base
  limit := by rw [hlimit]; exact hok.limit
  lo := by
    have hlo := hok.lo
    omega
  hi := by rw [hbrk, hlimit]; exact hk
  links := hlinks
  last := by rw [hlast]; simp
  sorted := by
    refine List.pairwise_append.mpr ⟨?_, List.pairwise_singleton _ _, fun b hb c hc => ?_⟩
    · refine hok.sorted.imp_of_mem fun hb _ hlt => ?_
      rw [hsame _ hb]
      exact hlt
    · rw [List.mem_singleton.mp hc, hsame b hb]
      exact (hok.inside b hb).2
  inside b hb := by
    rw [hbase, hbrk]
    rcases List.mem_append.mp hb with hb | hb
    · rw [hsame b hb]
      obtain ⟨h1, h2⟩ := hok.inside b hb
      exact ⟨h1, by omega⟩
    · rw [List.mem_singleton.mp hb, hsize]
      exact ⟨hok.lo, le_rfl⟩

/-- What `increase_mem` can do: nothing but move the break, or append a block. -/
structure Increased (h : Heap) (bs : List Nat) (n : Nat) (r : Nat × Heap) : Prop where
  same : ∀ b ∈ bs, r.2.size b = h.size b ∧ r.2.free b = h.free b
  done : r.1 = 0 ∧ Ok r.2 bs ∨
    r.1 = h.brk ∧ 0 < h.brk ∧ h.brk ∉ bs ∧ Ok r.2 (bs ++ [h.brk]) ∧ r.2.size h.brk = n ∧
    r.2.free h.brk = 0

/-- The end of the list is the last block. -/
theorem Ok.eq_snoc (hok : Ok h bs) (hne : h.head ≠ 0) : ∃ l, bs = l ++ [h.last] := by
  have hlinks := hok.links
  rcases List.eq_nil_or_concat bs with rfl | ⟨l, e, rfl⟩
  · exact absurd hlinks hne
  · refine ⟨l, ?_⟩
    rw [hok.last]
    simp

theorem Ok.below (hok : Ok h bs) (hb : b ∈ bs) : b + metaSize ≤ h.brk := by
  have hin := (hok.inside b hb).2
  omega

theorem Ok.not_mem_brk (hok : Ok h bs) : h.brk ∉ bs := by
  intro hb
  have hbelow := hok.below hb
  simp only [metaSize] at hbelow
  omega

/-- What was there is not touched. -/
theorem Fresh.same (hf : Fresh h h' n) (hok : Ok h bs) (hb : b ∈ bs) :
    h'.size b = h.size b ∧ h'.next b = h.next b ∧ h'.prev b = h.prev b ∧ h'.free b = h.free b := by
  have hbelow := hok.below hb
  simp only [metaSize] at hbelow
  exact fields_congr fun x _ hx => hf.mem x (by omega)

/-- The first block. -/
theorem Fresh.first (hf : Fresh h h' n) (hok : Ok h bs) (hk : h.brk + metaSize + n ≤ h.limit)
    (hz : h'.head = 0) : Increased h bs n (h.brk, { h' with head := h.brk, last := h.brk }) := by
  obtain rfl : bs = [] := by
    cases bs with
    | nil => rfl
    | cons b l => exact absurd (hok.links.1.symm.trans (hf.head.symm.trans hz)) hok.links.2.1
  have hpos : 0 < h.brk := hok.base.trans_le hok.lo
  refine ⟨fun b hb => absurd hb List.not_mem_nil,
    .inr ⟨rfl, hpos, hok.not_mem_brk, ?_, hf.size, hf.free⟩⟩
  exact hok.append hk hf.base hf.limit hf.brk rfl ⟨rfl, hpos.ne', hf.prev, hf.next⟩
    (fun b hb => absurd hb List.not_mem_nil) hf.size

/-- A block after the last one. -/
theorem Fresh.linked (hf : Fresh h h' n) (hok : Ok h bs) (hk : h.brk + metaSize + n ≤ h.limit)
    (hne : h'.head ≠ 0) :
    Increased h bs n
      (h.brk, { (h'.setPrev h.brk h'.last).setNext h'.last h.brk with last := h.brk }) := by
  obtain ⟨l, hl⟩ := hok.eq_snoc (hf.head ▸ hne)
  have hpos : 0 < h.brk := hok.base.trans_le hok.lo
  have hlim := hok.limit
  have hhi := hok.hi
  have hmem : h.last ∈ bs := by rw [hl]; simp
  have hbelow := hok.below hmem
  simp only [metaSize] at hbelow
  rw [hf.last]
  generalize hh : ({ (h'.setPrev h.brk h.last).setNext h.last h.brk with last := h.brk } : Heap) = h''
  have hmem' : h''.mem = store (store h'.mem (h.brk + 16) 8 h.last) (h.last + 8) 8 h.brk := by
    rw [← hh]
    rfl
  have hnew : h''.size h.brk = n ∧ h''.next h.brk = 0 ∧ h''.prev h.brk = h.last ∧
      h''.free h.brk = 0 ∧ h''.next h.last = h.brk := by
    simp only [Heap.size, Heap.next, Heap.prev, Heap.free, hmem']
    simp (disch := omega) only [load_store_other, load_store, true_and, and_true]
    exact ⟨hf.size, hf.next, hf.free⟩
  have hsame : ∀ b ∈ bs, h''.size b = h.size b ∧ h''.prev b = h.prev b ∧ h''.free b = h.free b ∧
      (b ≠ h.last → h''.next b = h.next b) := by
    intro b hb
    obtain ⟨hs, hn, hp, hfr⟩ := hf.same hok hb
    have hb' := hok.below hb
    have hcase : b = h.last ∨ b + 32 ≤ h.last ∨ h.last + 32 ≤ b := by
      by_cases hbl : b = h.last
      · exact .inl hbl
      · have hap := hok.apart hb hmem hbl
        simp only [metaSize] at hap
        omega
    simp only [metaSize] at hb'
    rw [← hs, ← hn, ← hp, ← hfr]
    simp only [Heap.size, Heap.next, Heap.prev, Heap.free, hmem']
    rcases hcase with rfl | hcase
    · simp (disch := omega) only [load_store_other, true_and]
      exact fun hne => absurd rfl hne
    · simp (disch := omega) only [load_store_other, implies_true, and_true]
  have hglob : h''.base = h.base ∧ h''.limit = h.limit ∧ h''.brk = h.brk + metaSize + n ∧
      h''.last = h.brk ∧ h''.head = h.head := by
    rw [← hh]
    exact ⟨hf.base, hf.limit, hf.brk, rfl, hf.head⟩
  obtain ⟨hbase, hlimit, hbrk, hlast, hhead⟩ := hglob
  obtain ⟨hsize, hnext, hprev, hfree, hlink⟩ := hnew
  refine ⟨fun b hb => ⟨(hsame b hb).1, (hsame b hb).2.2.1⟩,
    .inr ⟨rfl, hpos, hok.not_mem_brk, ?_, hsize, hfree⟩⟩
  refine hok.append hk hbase hlimit hbrk hlast ?_ (fun b hb => (hsame b hb).1) hsize
  have hnodup : h.last ∉ l := by
    intro hin
    have hsort := hok.sorted
    rw [hl] at hsort
    have hlt := (List.pairwise_append.mp hsort).2.2 h.last hin h.last (by simp)
    simp only [metaSize] at hlt
    omega
  rw [hhead, hl]
  refine Links.snoc (hl ▸ hok.links) (fun b hb => (hsame b (hl ▸ hb)).2.1) (fun b hb => ?_) hlink
    hpos.ne' hprev hnext
  have hb' : b ∈ bs := by
    rw [hl]
    exact List.mem_append_left _ hb
  refine (hsame b hb').2.2.2 ?_
  rintro rfl
  exact hnodup hb

/-- A new block at the break comes last in the list. -/
theorem increaseMem_ok (hok : Ok h bs) (hn : n < 2 ^ 64) (hg : Grows h n) :
    Increased h bs n (h.increaseMem n) := by
  unfold increaseMem
  rcases sbrk_grows hok hg with ⟨hs, hk⟩ | hs
  · rw [hs]
    dsimp only
    have hf := fresh_header h hn
    split
    · exact ⟨fun _ _ => ⟨rfl, rfl⟩, .inl ⟨rfl, hok.moved (by omega) hk⟩⟩
    · split
      · next hz => exact hf.first hok hk hz
      · next hne => exact hf.linked hok hk hne
  · rw [hs]
    exact ⟨fun _ _ => ⟨rfl, rfl⟩, .inl ⟨rfl, hok⟩⟩

/-- `mm_realloc` that gets its own block back moves nothing. -/
theorem replace_self (hok : Ok h bs) (hb : b ∈ bs) (hlt : b < 2 ^ 63) :
    h.replace (b + metaSize) (b + metaSize) n =
      (h.memset (b + metaSize) n).memset (b + metaSize) ((h.memset (b + metaSize) n).size b) := by
  obtain ⟨hprev, hnext⟩ := hok.links.neighbours hb
  have h1 : (if h.prev b ≠ 0 then h.setNext (h.prev b) b else h) = h := by
    split
    · next hne =>
      have hself : h.next (h.prev b) = b := hprev.resolve_left fun hz => hne hz.2
      have hset := setNext_next h (h.prev b)
      rwa [hself] at hset
    · rfl
  have h2 : (if h.next b ≠ 0 then h.setPrev (h.next b) b else h) = h := by
    split
    · next hne =>
      have hself : h.prev (h.next b) = b := hnext.resolve_left hne
      have hset := setPrev_prev h (h.next b)
      rwa [hself] at hset
    · rfl
  unfold replace
  simp only [header_of hlt, setPrev_prev, setNext_next, h1, h2, memcpy, copy_self, ite_self]

end Calls

/-! ## Runs -/

section Runs

variable {s s' : St} {h' : Heap} {bs bs' : List Nat} {live : List (Nat × Nat)} {b n p : Nat} {op : Op}

/-- A pointer that is held. -/
theorem Inv.block (hi : Inv s bs) (hp : s.Live p) : ∃ b ∈ bs, p = b + metaSize ∧ header p = b := by
  obtain ⟨e, he, rfl⟩ := hp
  obtain ⟨b, hb, heq, -, -⟩ := hi.live e he
  have hlt := hi.ok.lt hb
  exact ⟨b, hb, heq, by rw [heq]; exact header_of (by omega)⟩

/-- The other pointers are still good when only `b` has changed. -/
theorem Inv.without (hi : Inv s bs) (hok : Ok h' bs') (hsub : ∀ c ∈ bs, c ∈ bs')
    (hsame : ∀ c ∈ bs, c ≠ b → h'.size c = s.heap.size c ∧ h'.free c = s.heap.free c)
    (hlive : live.Sublist s.live) (hnot : ∀ e ∈ live, e.1 ≠ b + metaSize) : Inv ⟨h', live⟩ bs' where
  ok := hok
  live e he := by
    obtain ⟨c, hc, heq, hfree, hle⟩ := hi.live e (hlive.subset he)
    have hne : c ≠ b := by
      rintro rfl
      exact hnot e he heq
    obtain ⟨hs, hf⟩ := hsame c hc hne
    exact ⟨c, hsub c hc, heq, hf.trans hfree, hle.trans hs.ge⟩
  once := (hlive.map Prod.fst).nodup hi.once

theorem Inv.add (hi : Inv ⟨h', live⟩ bs) (hnot : ∀ e ∈ live, e.1 ≠ b + metaSize) (hb : b ∈ bs)
    (hfree : h'.free b = 0) (hn : n ≤ h'.size b) : Inv ⟨h', (b + metaSize, n) :: live⟩ bs where
  ok := hi.ok
  live e he := by
    rcases List.mem_cons.mp he with rfl | he
    · exact ⟨b, hb, rfl, hfree, hn⟩
    · exact hi.live e he
  once := by
    refine List.nodup_cons.mpr ⟨fun hin => ?_, hi.once⟩
    obtain ⟨e, he, heq⟩ := List.mem_map.mp hin
    exact hnot e he heq

theorem drop_not (s : St) (p : Nat) : ∀ e ∈ s.drop p, e.1 ≠ p := by
  intro e he
  simpa using (List.mem_filter.mp he).2

/-- No pointer that is held is to a free block. -/
theorem Inv.not_live (hi : Inv s bs) (hb : b ∉ bs ∨ s.heap.free b = 1) :
    ∀ e ∈ s.live, e.1 ≠ b + metaSize := by
  intro e he heq
  obtain ⟨c, hc, heq', hfree, -⟩ := hi.live e he
  obtain rfl : c = b := by omega
  rcases hb with hb | hb
  · exact hb hc
  · rw [hfree] at hb
    cases hb

/-- A block of the list is taken. -/
theorem take_block (hok : Ok h' bs) (hb : b ∈ bs) (hle : n ≤ h'.size b)
    (hfit : h'.size b ≤ n + 2 * metaSize) : h'.take n b = (b + metaSize, h'.setFree b 0) := by
  have hlt := hok.lt hb
  have hpos : b ≠ 0 := by
    have h1 := (hok.inside b hb).1
    have h2 := hok.base
    omega
  simp only [metaSize] at hlt hfit
  unfold take
  rw [if_neg hpos, if_neg]
  simp only [metaSize]
  rw [Nat.mod_eq_of_lt (by omega)]
  omega

/-- `mm_malloc` reuses the first free block that is large enough, or makes one at the break. -/
theorem malloc_inv (hi : Inv s bs) (hm : Meets s (.malloc n)) (hstep : step s (.malloc n) = some s') :
    ∃ bs', Inv s' bs' := by
  rw [step] at hstep
  split at hstep
  · next hn =>
    rw [mmMalloc, if_neg hn.1.ne'] at hstep
    obtain ⟨r, hr, rfl⟩ := Option.map_eq_some_iff.mp hstep
    obtain ⟨b, hb, rfl⟩ := Option.map_eq_some_iff.mp hr
    obtain ⟨hzero, hsome⟩ := hm b hb
    rcases hi.ok.links.search hb with rfl | ⟨hmem, hfree, hle⟩
    · -- the heap is extended
      have hinc := increaseMem_ok hi.ok hn.2 (hzero rfl)
      unfold Heap.take
      rw [if_pos rfl]
      generalize s.heap.increaseMem n = r at hinc
      obtain ⟨k, h'⟩ := r
      obtain ⟨hsame, ⟨hk, hok⟩ | ⟨hk, hpos, hnot, hok, hsize, hfree⟩⟩ := hinc
      · obtain rfl : k = 0 := hk
        exact ⟨bs, hok, fun e he => by
          obtain ⟨c, hc, heq, hf, hle⟩ := hi.live e he
          exact ⟨c, hc, heq, (hsame c hc).2.trans hf, hle.trans (hsame c hc).1.ge⟩, hi.once⟩
      · obtain rfl : k = s.heap.brk := hk
        have hnl := hi.not_live (.inl hnot)
        refine ⟨bs ++ [s.heap.brk], ?_⟩
        simp only [Nat.add_eq_zero_iff, hpos.ne', false_and, if_false]
        refine Inv.add (hi.without hok (fun c hc => List.mem_append_left _ hc)
          (fun c hc _ => hsame c hc) (List.Sublist.refl _) hnl) hnl (by simp) hfree hsize.ge
    · -- a free block is taken
      have hpos : b ≠ 0 := by
        rintro rfl
        have h1 := (hi.ok.inside 0 hmem).1
        have h2 := hi.ok.base
        omega
      rw [take_block hi.ok hmem hle (hsome hpos)]
      have hnl := hi.not_live (.inr hfree)
      obtain ⟨hok, hsize, hother⟩ := hi.ok.setFree hmem (v := 0)
      refine ⟨bs, ?_⟩
      simp only [Nat.add_eq_zero_iff, hpos, false_and, if_false]
      exact Inv.add (hi.without hok (fun _ hc => hc)
        (fun c hc hcb => ⟨hsize c hc, hother c hc hcb⟩) (List.Sublist.refl _) hnl) hnl hmem
        (setFree_self (by decide)) (hle.trans (hsize b hmem).ge)
  · cases hstep

theorem free_inv (hi : Inv s bs) (hp : s.Live p) : Inv ⟨s.heap.mmFree p, s.drop p⟩ bs := by
  obtain ⟨b, hb, rfl, hhead⟩ := hi.block hp
  obtain ⟨hok, hsize, hother⟩ := hi.ok.setFree hb (v := 1)
  obtain ⟨hok', hsame⟩ := hok.memset hb le_rfl
  unfold mmFree
  rw [if_neg (by simp), hhead]
  refine hi.without hok' (fun _ hc => hc) (fun c hc hcb => ?_) List.filter_sublist (drop_not s _)
  obtain ⟨hs, hf⟩ := hsame c hc
  exact ⟨hs.trans (hsize c hc), hf.trans (hother c hc hcb)⟩

/-- `mm_realloc` whose search finds the block itself again. -/
theorem realloc_inv (hi : Inv s bs) (hp : s.Live p) (hn : 0 < n)
    (hfit : (s.heap.setFree (header p) 1).firstFit n = some (header p))
    (hle : s.heap.size (header p) ≤ n + 2 * metaSize) :
    ∃ h', s.heap.mmRealloc p n 0 = some (p, h') ∧ Inv ⟨h', (p, n) :: s.drop p⟩ bs := by
  obtain ⟨b, hb, rfl, hhead⟩ := hi.block hp
  rw [hhead] at hfit hle
  have hlt := hi.ok.lt hb
  obtain ⟨hok₁, hsize₁, hother₁⟩ := hi.ok.setFree hb (v := 1)
  obtain ⟨hok₂, hsize₂, hother₂⟩ := hok₁.setFree hb (v := 0)
  have hfits : n ≤ (s.heap.setFree b 1).size b := by
    rcases hok₁.links.search hfit with hz | hr
    · have h1 := (hi.ok.inside b hb).1
      have h2 := hi.ok.base
      omega
    · exact hr.2.2
  obtain ⟨hok₃, hsame₃⟩ := hok₂.memset hb (hfits.trans (hsize₂ b hb).ge)
  obtain ⟨hok₄, hsame₄⟩ := hok₃.memset hb le_rfl
  let h₃ := ((s.heap.setFree b 1).setFree b 0).memset (b + metaSize) n
  refine ⟨h₃.memset (b + metaSize) (h₃.size b), ?_, ?_⟩
  · unfold mmRealloc mmMalloc
    rw [if_neg hn.ne', if_neg (by simp), hhead, if_neg hn.ne', hfit, Option.map_some,
      take_block hok₁ hb hfits ((hsize₁ b hb).le.trans hle)]
    simp only [Nat.add_eq_zero_iff, OfNat.ofNat_ne_zero, and_false, if_false]
    rw [replace_self hok₂ hb (by omega)]
  · refine Inv.add (hi.without hok₄ (fun _ hc => hc) (fun c hc hcb => ⟨?_, ?_⟩) List.filter_sublist
      (drop_not s _)) (drop_not s _) hb ?_ ?_
    · exact (hsame₄ c hc).1.trans ((hsame₃ c hc).1.trans ((hsize₂ c hc).trans (hsize₁ c hc)))
    · exact (hsame₄ c hc).2.trans ((hsame₃ c hc).2.trans
        ((hother₂ c hc hcb).trans (hother₁ c hc hcb)))
    · exact (hsame₄ b hb).2.trans ((hsame₃ b hb).2.trans (setFree_self (by decide)))
    · rw [(hsame₄ b hb).1, (hsame₃ b hb).1, hsize₂ b hb]
      exact hfits

/-- One call that meets the condition. -/
theorem step_inv (hi : Inv s bs) (hm : Meets s op) (hstep : step s op = some s') :
    ∃ bs', Inv s' bs' := by
  cases op with
  | malloc n => exact malloc_inv hi hm hstep
  | realloc p n =>
      rw [step] at hstep
      split at hstep
      · next hp =>
        by_cases hz : n = 0
        · rw [hz, mmRealloc, if_pos rfl, Option.map_some, if_pos rfl] at hstep
          cases hstep
          exact ⟨bs, free_inv hi hp.1⟩
        · obtain ⟨hfit, hle⟩ := hm.resolve_left hz
          obtain ⟨h', hr, hi'⟩ := realloc_inv hi hp.1 (Nat.pos_of_ne_zero hz) hfit hle
          obtain ⟨b, -, hpb, -⟩ := hi.block hp.1
          rw [hr, Option.map_some, if_neg hz, if_neg (by rw [hpb]; simp)] at hstep
          cases hstep
          exact ⟨bs, hi'⟩
      · cases hstep
  | free p =>
      rw [step] at hstep
      split at hstep
      · next hp =>
        cases hstep
        exact ⟨bs, free_inv hi hp⟩
      · cases hstep

/-- What the invariant says of the list of blocks is what is to be proved of the heap. -/
theorem Inv.intact (hi : Inv s bs) : Intact s bs where
  links := hi.ok.links
  last := hi.ok.last
  disjoint := hi.ok.sorted.imp .inl
  inside := hi.ok.inside
  live := hi.live
  apart := by
    refine ((List.pairwise_map.mp hi.once).imp_of_mem fun he hf hne => ?_)
    obtain ⟨b, hb, heq, -, hle⟩ := hi.live _ he
    obtain ⟨c, hc, hfq, -, hlf⟩ := hi.live _ hf
    have hbc : b ≠ c := by
      rintro rfl
      exact hne (heq.trans hfq.symm)
    have hap := hi.ok.apart hb hc hbc
    simp only [metaSize] at hap heq hfq
    omega

/-- A call of a run in which every call meets the condition. -/
def GoodStep (s s' : St) : Prop := ∃ op, Meets s op ∧ step s op = some s'

theorem init_inv {base limit : Nat} (mem : Bytes) (hbase : 0 < base) (hle : base ≤ limit)
    (hlimit : limit < 2 ^ 63) : Inv (St.init base limit mem) [] :=
  ⟨⟨hbase, hlimit, le_rfl, hle, rfl, rfl, .nil, fun _ hb => absurd hb List.not_mem_nil⟩,
    fun _ he => absurd he List.not_mem_nil, List.nodup_nil⟩

/-- The heap is in order after every run of calls that meet the condition. -/
theorem heap_intact (base limit : Nat) (mem : Bytes) (hbase : 0 < base) (hle : base ≤ limit)
    (hlimit : limit < 2 ^ 63) (hrun : Relation.ReflTransGen GoodStep (St.init base limit mem) s) :
    ∃ bs, Intact s bs := by
  have hinv : ∃ bs, Inv s bs := by
    refine Threads.invariant_of_step (I := fun s => ∃ bs, Inv s bs) hrun
      ⟨[], init_inv mem hbase hle hlimit⟩ fun a b ha hab => ?_
    obtain ⟨bs, hi⟩ := ha
    obtain ⟨op, hm, hs⟩ := hab
    exact step_inv hi hm hs
  obtain ⟨bs, hi⟩ := hinv
  exact ⟨bs, hi.intact⟩

/-- A call of any run. -/
def Step (s s' : St) : Prop := ∃ op, step s op = some s'

end Runs

/-! ## Two runs -/

section Small

def begin : St := St.init 4096 100000 fun _ => 0

/-- The state after a call that returns. -/
def call (s : St) (op : Op) : St := (step s op).getD s

theorem step_call {s : St} {op : Op} (hr : (step s op).isSome = true) : step s op = some (call s op) := by
  obtain ⟨s', hs⟩ := Option.isSome_iff_exists.mp hr
  unfold call
  rw [hs]
  rfl

/-- What the first fit is at most. -/
theorem Meets.malloc {s : St} {n b : Nat} (hb : s.heap.firstFit n = some b)
    (hz : b = 0 → Grows s.heap n) (hs : b ≠ 0 → s.heap.size b ≤ n + 2 * metaSize) :
    Meets s (.malloc n) := by
  intro c hc
  obtain rfl : b = c := Option.some.inj (hb.symm.trans hc)
  exact ⟨hz, hs⟩

/-- 100 bytes are asked for and given back. -/
def freed : St := call (call begin (.malloc 100)) (.free 4128)

/-- 90 bytes fit into them. -/
theorem heap_intact_reused : Relation.ReflTransGen GoodStep begin (call freed (.malloc 90)) ∧
    (call freed (.malloc 90)).live = [(4128, 90)] ∧ ∃ bs, Intact (call freed (.malloc 90)) bs := by
  have h1 : GoodStep begin (call begin (.malloc 100)) :=
    ⟨.malloc 100, .malloc (b := 0) (by decide +kernel) (fun _ => .inl (by decide))
      fun hne => absurd rfl hne, step_call (by decide +kernel)⟩
  have h2 : GoodStep (call begin (.malloc 100)) freed :=
    ⟨.free 4128, trivial, step_call (by decide +kernel)⟩
  have h3 : GoodStep freed (call freed (.malloc 90)) :=
    ⟨.malloc 90, .malloc (b := 4096) (by decide +kernel) nofun fun _ => by decide +kernel,
      step_call (by decide +kernel)⟩
  have hrun : Relation.ReflTransGen GoodStep begin (call freed (.malloc 90)) :=
    ((Relation.ReflTransGen.single h1).tail h2).tail h3
  exact ⟨hrun, by decide +kernel,
    heap_intact 4096 100000 (fun _ => 0) (by decide) (by decide) (by decide) hrun⟩

/-- One byte does not: the block is split, and stays free. -/
theorem heap_split : ¬∀ (base limit : Nat) (mem : Bytes) (s : St), 0 < base → base ≤ limit →
    limit < 2 ^ 63 → Relation.ReflTransGen Step (St.init base limit mem) s → ∃ bs, Intact s bs := by
  intro hall
  have hrun : Relation.ReflTransGen Step begin (call freed (.malloc 1)) :=
    ((Relation.ReflTransGen.single ⟨.malloc 100, step_call (by decide +kernel)⟩).tail
      ⟨.free 4128, step_call (by decide +kernel)⟩).tail ⟨.malloc 1, step_call (by decide +kernel)⟩
  obtain ⟨bs, hi⟩ := hall 4096 100000 _ _ (by decide) (by decide) (by decide) hrun
  have hlive : (call freed (.malloc 1)).live = [(4128, 1)] := by decide +kernel
  have hfree : (call freed (.malloc 1)).heap.free 4096 = 1 := by decide +kernel
  obtain ⟨b, -, heq, hf, -⟩ := hi.live (4128, 1) (by rw [hlive]; exact List.mem_singleton_self _)
  obtain rfl : b = 4096 := by
    simp only [metaSize] at heq
    omega
  rw [hfree] at hf
  cases hf

end Small

end CS162.Hw3
