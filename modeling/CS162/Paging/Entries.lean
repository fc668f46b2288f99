/-
# `CS162.Paging.Entries` — bits of entries, words of pages

What the masks of `threads/pte.h` do to an entry, and where the words of a page are.
-/
import CS162.Paging.Pagedir

namespace CS162.Paging

open Userprog.UserMem

variable {e p f x a b v : UInt32} {i j : Nat}

/-! ## Bits -/

theorem UInt32.eq_of_bits (h : ∀ k < 32, a.toNat.testBit k = b.toNat.testBit k) : a = b := by
  refine UInt32.toNat_inj.mp (Nat.eq_of_testBit_eq fun k => ?_)
  by_cases hk : k < 32
  · exact h k hk
  · have hhigh : ∀ w : UInt32, w.toNat.testBit k = false := fun w =>
      Nat.testBit_lt_two_pow (w.toNat_lt.trans_le (Nat.pow_le_pow_right (by decide)
      (Nat.le_of_not_lt hk)))
    rw [hhigh, hhigh]

theorem and_bit (a b : UInt32) (k : Nat) :
    (a &&& b).toNat.testBit k = (a.toNat.testBit k && b.toNat.testBit k) := by
  rw [UInt32.toNat_and, Nat.testBit_and]

theorem or_bit (a b : UInt32) (k : Nat) :
    (a ||| b).toNat.testBit k = (a.toNat.testBit k || b.toNat.testBit k) := by
  rw [UInt32.toNat_or, Nat.testBit_or]

theorem not_bit (a : UInt32) {k : Nat} (hk : k < 32) : (~~~ a).toNat.testBit k = !a.toNat.testBit k := by
  have hsub : UInt32.size - 1 - a.toNat = 2 ^ 32 - (a.toNat + 1) := by
    show 2 ^ 32 - 1 - _ = _
    omega
  rw [UInt32.toNat_not, hsub, Nat.testBit_two_pow_sub_succ a.toNat_lt, decide_eq_true hk, Bool.true_and]

/-- The bits of `PTE_ADDR`. -/
theorem addr_bit {k : Nat} (hk : k < 32) : pteAddr.toNat.testBit k = decide (12 ≤ k) := by
  have hall : ∀ k < 32, pteAddr.toNat.testBit k = decide (12 ≤ k) := by decide
  exact hall k hk

theorem aligned_bit (ha : a.toNat % 4096 = 0) {k : Nat} (hk : k < 12) : a.toNat.testBit k = false := by
  have hmod : (a.toNat % 2 ^ 12).testBit k = a.toNat.testBit k := by
    rw [Nat.testBit_mod_two_pow, decide_eq_true hk, Bool.true_and]
  rw [← hmod, show a.toNat % 2 ^ 12 = 0 from ha, Nat.zero_testBit]

theorem flags_bit (hf : f.toNat < 4096) {k : Nat} (hk : 12 ≤ k) : f.toNat.testBit k = false :=
  Nat.testBit_lt_two_pow (hf.trans_le (Nat.pow_le_pow_right (by decide : 0 < 2) hk : 2 ^ 12 ≤ 2 ^ k))

/-- An address with flags. -/
theorem and_addr (ha : a.toNat % 4096 = 0) (hf : f.toNat < 4096) : (a ||| f) &&& pteAddr = a := by
  refine UInt32.eq_of_bits fun k hk => ?_
  rw [and_bit, or_bit, addr_bit hk]
  by_cases h12 : 12 ≤ k
  · rw [flags_bit hf h12, decide_eq_true h12, Bool.or_false, Bool.and_true]
  · rw [aligned_bit ha (Nat.lt_of_not_le h12), decide_eq_false h12, Bool.and_false]

/-- Flags are not part of the address. -/
theorem or_and_addr (hf : f.toNat < 4096) : (e ||| f) &&& pteAddr = e &&& pteAddr := by
  refine UInt32.eq_of_bits fun k hk => ?_
  rw [and_bit, and_bit, or_bit, addr_bit hk]
  by_cases h12 : 12 ≤ k
  · rw [flags_bit hf h12, Bool.or_false]
  · rw [decide_eq_false h12, Bool.and_false, Bool.and_false]

theorem or_and (e f x : UInt32) : (e ||| f) &&& x = e &&& x ||| f &&& x := by
  refine UInt32.eq_of_bits fun k _ => ?_
  rw [and_bit, or_bit, or_bit, and_bit, and_bit, Bool.and_or_distrib_right]

theorem or_ne_zero (hf : f ≠ 0) : e ||| f ≠ 0 := by
  intro hno
  refine hf (UInt32.eq_of_bits fun k _ => ?_)
  have hbit := congrArg (fun y : UInt32 => y.toNat.testBit k) hno
  have hzero : (0 : UInt32).toNat.testBit k = false := Nat.zero_testBit k
  rw [or_bit, hzero, Bool.or_eq_false_iff] at hbit
  rw [hbit.2, hzero]

/-- Other flags are left alone. -/
theorem or_and_other (hx : f &&& x = 0) : (e ||| f) &&& x = e &&& x := by
  rw [or_and, hx, UInt32.or_zero]

theorem and_not_and_other (hx : f &&& x = 0) : (e &&& ~~~ f) &&& x = e &&& x := by
  refine UInt32.eq_of_bits fun k hk => ?_
  have hbit := congrArg (fun y : UInt32 => y.toNat.testBit k) hx
  have hzero : (0 : UInt32).toNat.testBit k = false := Nat.zero_testBit k
  rw [and_bit, hzero] at hbit
  rw [and_bit, and_bit, and_bit, not_bit f hk]
  revert hbit
  cases e.toNat.testBit k <;> cases f.toNat.testBit k <;> cases x.toNat.testBit k <;> decide

/-- Flags of a set that `x` has no part in. -/
theorem other_zero {y : UInt32} (hf : f ||| y = y) (hx : y &&& x = 0) : f &&& x = 0 := by
  have hor : (f ||| y) &&& x = 0 := hf.symm ▸ hx
  rw [or_and] at hor
  by_contra hne
  rw [UInt32.or_comm] at hor
  exact or_ne_zero hne hor

/-- The processor goes by `e`, and the table has `p`: they are alike up to the bits that the processor
sets, and of these the table has those of `e`. -/
structure Cached (e p : UInt32) : Prop where
  alike : e ||| (pteA ||| pteD) = p ||| (pteA ||| pteD)
  marks : e &&& p = e

theorem Cached.flag (h : Cached e p) (hx : (pteA ||| pteD) &&& x = 0) : e &&& x = p &&& x := by
  rw [← or_and_other (e := e) hx, ← or_and_other (e := p) hx, h.alike]

theorem Cached.refl (e : UInt32) : Cached e e := ⟨rfl, UInt32.and_self⟩

/-- A flag that the processor sets, in the table and in the cache. -/
theorem Cached.mark (h : Cached e p) : Cached (e ||| f) (p ||| f) := by
  refine ⟨?_, UInt32.eq_of_bits fun k _ => ?_⟩
  · have hswap : ∀ y : UInt32, y ||| f ||| (pteA ||| pteD) = y ||| (pteA ||| pteD) ||| f := fun y => by
      rw [UInt32.or_assoc, UInt32.or_comm f, ← UInt32.or_assoc]
    rw [hswap, hswap, h.alike]
  · have hbit := congrArg (fun y : UInt32 => y.toNat.testBit k) h.marks
    rw [and_bit] at hbit
    rw [and_bit, or_bit, or_bit]
    revert hbit
    cases e.toNat.testBit k <;> cases f.toNat.testBit k <;> cases p.toNat.testBit k <;> decide

/-- The kernel sets a flag in the table. -/
theorem Cached.set (h : Cached e p) (hf : f ||| (pteA ||| pteD) = pteA ||| pteD) :
    Cached e (p ||| f) := by
  refine ⟨?_, UInt32.eq_of_bits fun k _ => ?_⟩
  · rw [UInt32.or_assoc, hf, h.alike]
  · have hbit := congrArg (fun y : UInt32 => y.toNat.testBit k) h.marks
    rw [and_bit] at hbit
    rw [and_bit, or_bit]
    revert hbit
    cases e.toNat.testBit k <;> cases f.toNat.testBit k <;> cases p.toNat.testBit k <;> decide

/-- Flags that are set already. -/
theorem or_eq_of_and (h : p &&& f = f) : p ||| f = p := by
  refine UInt32.eq_of_bits fun k _ => ?_
  have hbit := congrArg (fun y : UInt32 => y.toNat.testBit k) h
  rw [and_bit] at hbit
  rw [or_bit]
  revert hbit
  cases f.toNat.testBit k <;> cases p.toNat.testBit k <;> decide

theorem Cached.has (h : Cached e p) (hf : e &&& f = f) : p &&& f = f := by
  refine UInt32.eq_of_bits fun k _ => ?_
  have hbit := congrArg (fun y : UInt32 => y.toNat.testBit k) h.marks
  have hbit' := congrArg (fun y : UInt32 => y.toNat.testBit k) hf
  rw [and_bit] at hbit hbit'
  rw [and_bit]
  revert hbit hbit'
  cases e.toNat.testBit k <;> cases f.toNat.testBit k <;> cases p.toNat.testBit k <;> decide

/-! ## Words -/

/-- The address of a word of a page. -/
def word (a : UInt32) (i : Nat) : UInt32 := a + 4 * UInt32.ofNat i

theorem toNat_word (ha : a.toNat % 4096 = 0) (hi : i < 1024) : (word a i).toNat = a.toNat + 4 * i := by
  have hlt := a.toNat_lt
  have h4 : (4 : UInt32).toNat = 4 := rfl
  unfold word
  rw [UInt32.toNat_add, UInt32.toNat_mul, h4, UInt32.toNat_ofNat']
  omega

theorem word_page (ha : a.toNat % 4096 = 0) (hi : i < 1024) :
    (word a i).toNat / 4096 = a.toNat / 4096 := by
  rw [toNat_word ha hi]
  omega

/-- Words of one page, or of two. -/
theorem word_inj (ha : a.toNat % 4096 = 0) (hb : b.toNat % 4096 = 0) (hi : i < 1024) (hj : j < 1024)
    (h : word a i = word b j) : a = b ∧ i = j := by
  have hnat := congrArg UInt32.toNat h
  rw [toNat_word ha hi, toNat_word hb hj] at hnat
  exact ⟨UInt32.toNat_inj.mp (by omega), by omega⟩

/-- The number of the page of an address. -/
def pageOf (v : UInt32) : Nat := v.toNat / 4096

theorem pdNo_eq (v : UInt32) : pdNo v = UInt32.ofNat (pageOf v / 1024) := by
  refine UInt32.toNat_inj.mp ?_
  have hlt := v.toNat_lt
  unfold pageOf
  rw [toNat_pdNo, UInt32.toNat_ofNat']
  omega

theorem ptNo_eq (v : UInt32) : ptNo v = UInt32.ofNat (pageOf v % 1024) := by
  refine UInt32.toNat_inj.mp ?_
  have hlt := v.toNat_lt
  unfold pageOf
  rw [toNat_ptNo, UInt32.toNat_ofNat']
  omega

theorem pageOf_user (hv : v < physBase) : pageOf v < 0xC0000 ∧ pageOf v / 1024 < 768 ∧
    1024 * (pageOf v / 1024) + pageOf v % 1024 = pageOf v := by
  have hbase : physBase.toNat = 3221225472 := rfl
  rw [UInt32.lt_iff_toNat_lt, hbase] at hv
  unfold pageOf
  omega

end CS162.Paging
