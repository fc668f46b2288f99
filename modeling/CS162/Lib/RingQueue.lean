/-
# `CS162.Lib.RingQueue` — a queue in a ring of cells

`n` cells, a head where the next element goes and a tail where the oldest one is.  The two are equal
when the queue is empty, so one cell always stays free.  `contents` reads the queue off the cells,
the oldest element first; `put` adds at its end and `get` takes its first element away.

What is read is said without remainders: `used` and `slot` tell whether the cells in use run past the
last one.
-/
import Mathlib.Logic.Function.Basic
import Mathlib.Data.List.Basic

/-- Cells that are used in turn. -/
structure RingQueue (α : Type) (n : Nat) where
  buf : Fin n → α
  head : Fin n
  tail : Fin n

namespace RingQueue

variable {α : Type} {n : Nat} {r : RingQueue α n} {a : α}

/-- The place after `p`. -/
def next (p : Fin n) : Fin n := ⟨(p.val + 1) % n, Nat.mod_lt _ p.pos⟩

def empty (r : RingQueue α n) : Bool := r.head == r.tail

def full (r : RingQueue α n) : Bool := next r.head == r.tail

def put (r : RingQueue α n) (a : α) : RingQueue α n :=
  { r with buf := Function.update r.buf r.head a, head := next r.head }

/-- The oldest element. -/
def front (r : RingQueue α n) : α := r.buf r.tail

def drop (r : RingQueue α n) : RingQueue α n := { r with tail := next r.tail }

/-- How many cells are in use. -/
def used (r : RingQueue α n) : Nat :=
  if r.tail.val ≤ r.head.val then r.head.val - r.tail.val else r.head.val + n - r.tail.val

/-- The cell of the `i`-th element. -/
def slot (r : RingQueue α n) (i : Nat) : Fin n := ⟨(r.tail.val + i) % n, Nat.mod_lt _ r.tail.pos⟩

/-- The elements, the oldest first. -/
def contents (r : RingQueue α n) : List α := (List.range r.used).map fun i => r.buf (r.slot i)

/-! ## Places -/

theorem next_val (p : Fin n) : (next p).val = if p.val + 1 = n then 0 else p.val + 1 := by
  have hp := p.isLt
  split
  · next h => simp only [next, h, Nat.mod_self]
  · next h => exact Nat.mod_eq_of_lt (by omega)

theorem slot_val {i : Nat} (hi : i < n) :
    (r.slot i).val = if r.tail.val + i < n then r.tail.val + i else r.tail.val + i - n := by
  have ht := r.tail.isLt
  split
  · next h => exact Nat.mod_eq_of_lt h
  · next h =>
      have hge : n ≤ r.tail.val + i := by omega
      simp only [slot]
      rw [Nat.mod_eq_sub_mod hge]
      exact Nat.mod_eq_of_lt (by omega)

theorem used_lt (r : RingQueue α n) : r.used < n := by
  have hh := r.head.isLt
  have ht := r.tail.isLt
  unfold used
  split <;> omega

theorem length_contents (r : RingQueue α n) : r.contents.length = r.used := by
  simp only [contents, List.length_map, List.length_range]

theorem empty_iff : r.empty = true ↔ r.used = 0 := by
  have hh := r.head.isLt
  have ht := r.tail.isLt
  simp only [empty, beq_iff_eq, Fin.ext_iff, used]
  split <;> omega

theorem full_iff : r.full = true ↔ r.used + 1 = n := by
  have hh := r.head.isLt
  have ht := r.tail.isLt
  simp only [full, beq_iff_eq, Fin.ext_iff, next_val, used]
  split <;> split <;> omega

theorem not_full_of_empty (hn : 1 < n) (h : r.empty = true) : r.full = false := by
  have := empty_iff.mp h
  rw [← Bool.not_eq_true, full_iff]
  omega

theorem not_empty_of_full (hn : 1 < n) (h : r.full = true) : r.empty = false := by
  have := full_iff.mp h
  rw [← Bool.not_eq_true, empty_iff]
  omega

/-- The cell at the head is the one after the last element's. -/
theorem slot_used (r : RingQueue α n) : r.slot r.used = r.head := by
  have hh := r.head.isLt
  have ht := r.tail.isLt
  rw [Fin.ext_iff, slot_val r.used_lt]
  unfold used
  split <;> split <;> omega

theorem slot_inj {i j : Nat} (hi : i < n) (hj : j < n) (h : r.slot i = r.slot j) : i = j := by
  have ht := r.tail.isLt
  rw [Fin.ext_iff, slot_val hi, slot_val hj] at h
  split at h <;> split at h <;> omega

/-! ## Putting and getting -/

theorem used_put (h : r.full = false) : (r.put a).used = r.used + 1 := by
  have hh := r.head.isLt
  have ht := r.tail.isLt
  have hnot : ¬ r.used + 1 = n := fun he => by simp [full_iff.mpr he] at h
  simp only [used] at hnot
  simp only [put, used, next_val]
  split <;> split at hnot <;> split <;> omega

/-- An element goes to the end; no cell in use is written. -/
theorem contents_put (h : r.full = false) : (r.put a).contents = r.contents ++ [a] := by
  have hslot : ∀ i, (r.put a).slot i = r.slot i := fun i => rfl
  simp only [contents, used_put h, hslot, List.range_succ, List.map_append, List.map_cons,
    List.map_nil]
  congr 1
  · refine List.map_congr_left fun i hi => Function.update_of_ne (fun he => ?_) _ _
    have hlt := List.mem_range.mp hi
    rw [← slot_used] at he
    exact Nat.ne_of_lt hlt (slot_inj (Nat.lt_trans hlt r.used_lt) r.used_lt he)
  · rw [slot_used]
    simp only [put, Function.update_self]

theorem not_empty_put (h : r.full = false) : (r.put a).empty = false := by
  rw [← Bool.not_eq_true, empty_iff, used_put h]
  omega

theorem used_drop (h : r.empty = false) : r.used = r.drop.used + 1 := by
  have hh := r.head.isLt
  have ht := r.tail.isLt
  have hnot : ¬ r.used = 0 := fun he => by simp [empty_iff.mpr he] at h
  simp only [used] at hnot
  have hhead : r.drop.head = r.head := rfl
  have hnext : r.drop.tail.val = if r.tail.val + 1 = n then 0 else r.tail.val + 1 := next_val r.tail
  simp only [used, hhead]
  split at hnot <;> split at hnext <;> split <;> split <;> omega

theorem slot_drop (r : RingQueue α n) (i : Nat) : r.drop.slot i = r.slot (i + 1) := by
  simp only [slot, drop, next, Nat.mod_add_mod, Nat.add_assoc, Nat.add_comm 1 i]

/-- The oldest element is taken away. -/
theorem contents_eq (h : r.empty = false) : r.contents = r.front :: r.drop.contents := by
  have hslot : r.slot 0 = r.tail := Fin.ext (Nat.mod_eq_of_lt r.tail.isLt)
  simp only [contents, used_drop h, List.range_succ_eq_map, List.map_cons, List.map_map, hslot, front]
  congr 1
  refine List.map_congr_left fun i _ => ?_
  rw [slot_drop]
  rfl

theorem not_full_drop (h : r.empty = false) : r.drop.full = false := by
  have := used_drop h
  have := r.used_lt
  rw [← Bool.not_eq_true, full_iff]
  omega

end RingQueue
