/-
# `CS162.Fs.Bitmap` — `lib/kernel/bitmap.c`

From the outside a bitmap is an array of bits, and that is the model: `bit_cnt`
and a function.  The words of the C array show only in the file format, where
word order and bit order together make bit `k` of the map bit `k % 8` of byte
`k / 8`.

`bitmap_scan` and `bitmap_scan_and_flip` return `BITMAP_ERROR` as `none`.  Their
arguments are in range at every call; the range assertion that a caller can
meet with a bad argument, in `bitmap_contains`, is in `freeMapRelease`.
-/
import Mathlib.Logic.Function.Basic
import Mathlib.Data.List.Basic
import Mathlib.Tactic.IntervalCases

namespace CS162.Fs

/-- `struct bitmap`. -/
structure Bitmap where
  bitCnt : Nat
  bits : Nat → Bool

/-- `bitmap_create`. -/
def bitmapCreate (bitCnt : Nat) : Bitmap := ⟨bitCnt, fun _ => false⟩

/-- `bitmap_set`, and with it `bitmap_mark` and `bitmap_reset`. -/
def bitmapSet (b : Bitmap) (idx : Nat) (value : Bool) : Bitmap :=
  { b with bits := Function.update b.bits idx value }

/-- `bitmap_set_multiple`. -/
def bitmapSetMultiple (b : Bitmap) (start cnt : Nat) (value : Bool) : Bitmap :=
  (List.range cnt).foldl (fun b i => bitmapSet b (start + i) value) b

/-- `bitmap_contains`. -/
def bitmapContains (b : Bitmap) (start cnt : Nat) (value : Bool) : Bool :=
  (List.range cnt).any fun i => b.bits (start + i) == value

/-- `bitmap_all`. -/
def bitmapAll (b : Bitmap) (start cnt : Nat) : Bool := !bitmapContains b start cnt false

/-- `bitmap_scan`. -/
def bitmapScan (b : Bitmap) (start cnt : Nat) (value : Bool) : Option Nat :=
  if cnt ≤ b.bitCnt then
    (List.range' start (b.bitCnt - cnt + 1 - start)).find? fun i =>
      !bitmapContains b i cnt (!value)
  else none

/-- `bitmap_scan_and_flip`: the index found and the bitmap after. -/
def bitmapScanAndFlip (b : Bitmap) (start cnt : Nat) (value : Bool) : Option (Nat × Bitmap) :=
  (bitmapScan b start cnt value).map fun idx => (idx, bitmapSetMultiple b idx cnt (!value))

/-- `byte_cnt`, the size of the file a bitmap is saved in. -/
def byteCnt (bitCnt : Nat) : Nat := 4 * ((bitCnt + 31) / 32)

/-- Eight bits, low end first, as a byte. -/
def bitmapByte (bits : Nat → Bool) : UInt8 :=
  UInt8.ofBitVec
    (BitVec.ofBoolListLE [bits 0, bits 1, bits 2, bits 3, bits 4, bits 5, bits 6, bits 7])

/-- The bytes of `b->bits`. -/
def bitmapBytes (b : Bitmap) : List UInt8 :=
  (List.range (byteCnt b.bitCnt)).map fun i => bitmapByte fun k => b.bits (8 * i + k)

/-- What `bitmap_read` makes of those bytes, after `last_mask`. -/
def bitmapOfBytes (bitCnt : Nat) (bytes : List UInt8) : Bitmap where
  bitCnt := bitCnt
  bits k := k < bitCnt && (bytes.getD (k / 8) 0).toNat.testBit (k % 8)

/-! ## One bit at a time -/

variable {b : Bitmap} {x y : Nat} {v : Bool}

@[simp] theorem bitmapSet_bitCnt : (bitmapSet b x v).bitCnt = b.bitCnt := rfl

theorem bitmapSet_bits : (bitmapSet b x v).bits y = if y = x then v else b.bits y := by
  simp [bitmapSet, Function.update_apply]

@[simp] theorem bitmapSetMultiple_one : bitmapSetMultiple b x 1 v = bitmapSet b x v := by
  simp [bitmapSetMultiple, List.range_succ]

@[simp] theorem bitmapContains_one : bitmapContains b x 1 v = (b.bits x == v) := by
  simp [bitmapContains, List.range_succ]

@[simp] theorem bitmapAll_one : bitmapAll b x 1 = b.bits x := by
  cases h : b.bits x <;> simp [bitmapAll, h]

theorem bitmapSetMultiple_bitCnt (start cnt : Nat) :
    (bitmapSetMultiple b start cnt v).bitCnt = b.bitCnt := by
  induction cnt with
  | zero => rfl
  | succ n ih => rw [bitmapSetMultiple, List.range_succ, List.foldl_append, ← bitmapSetMultiple]; exact ih

theorem bitmapSetMultiple_bits (start cnt : Nat) :
    (bitmapSetMultiple b start cnt v).bits y = if start ≤ y ∧ y < start + cnt then v else b.bits y := by
  induction cnt with
  | zero => exact (if_neg (by omega)).symm
  | succ n ih =>
      rw [bitmapSetMultiple, List.range_succ, List.foldl_append, ← bitmapSetMultiple]
      show (bitmapSet _ _ _).bits y = _
      rw [bitmapSet_bits, ih]
      grind

theorem bitmapContains_iff {start cnt : Nat} :
    bitmapContains b start cnt v = true ↔ ∃ i < cnt, b.bits (start + i) = v := by
  simp [bitmapContains]

theorem bitmapAll_iff {start cnt : Nat} :
    bitmapAll b start cnt = true ↔ ∀ i < cnt, b.bits (start + i) = true := by
  rw [bitmapAll, Bool.not_eq_true', ← Bool.not_eq_true, bitmapContains_iff]
  grind

/-- A run that `bitmap_scan` finds. -/
theorem bitmapScan_some {start cnt idx : Nat} (h : bitmapScan b start cnt v = some idx) :
    start ≤ idx ∧ idx + cnt ≤ b.bitCnt ∧ ∀ i < cnt, b.bits (idx + i) = v := by
  unfold bitmapScan at h
  split at h
  · next hc =>
      have hmem := List.mem_of_find?_eq_some h
      have hbits := List.find?_some h
      rw [List.mem_range'_1] at hmem
      rw [Bool.not_eq_true', ← Bool.not_eq_true, bitmapContains_iff] at hbits
      refine ⟨hmem.1, by omega, fun i hi => ?_⟩
      cases hv : b.bits (idx + i) <;> cases v <;> grind
  · cases h

theorem bitmapScanAndFlip_some {start idx : Nat} {b' : Bitmap}
    (h : bitmapScanAndFlip b start 1 false = some (idx, b')) :
    start ≤ idx ∧ idx < b.bitCnt ∧ b.bits idx = false ∧ b' = bitmapSet b idx true := by
  simp only [bitmapScanAndFlip, bitmapScan, Option.map_eq_some_iff] at h
  obtain ⟨i, hi, he⟩ := h
  split at hi
  · next hc =>
      obtain ⟨rfl, rfl⟩ : i = idx ∧ bitmapSetMultiple b i 1 (!false) = b' := by simpa using he
      have hmem := List.mem_of_find?_eq_some hi
      have hbit := List.find?_some hi
      rw [List.mem_range'_1] at hmem
      refine ⟨hmem.1, by omega, by simpa using hbit, by simp⟩
  · cases hi

theorem bitmapScanAndFlip_none {start : Nat} (h : bitmapScanAndFlip b start 1 false = none)
    (hx : start ≤ x) (hb : x < b.bitCnt) : b.bits x = true := by
  simp only [bitmapScanAndFlip, bitmapScan, Option.map_eq_none_iff] at h
  rw [if_pos (by omega), List.find?_eq_none] at h
  have := h x (by rw [List.mem_range'_1]; omega)
  simpa using this

/-! ## The file -/

@[simp] theorem length_bitmapBytes : (bitmapBytes b).length = byteCnt b.bitCnt := by
  simp [bitmapBytes]

theorem bitmapByte_testBit (f : Nat → Bool) {k : Nat} (hk : k < 8) :
    (bitmapByte f).toNat.testBit k = f k := by
  have h : (bitmapByte f).toNat.testBit k
      = [f 0, f 1, f 2, f 3, f 4, f 5, f 6, f 7].getD k false :=
    BitVec.getLsbD_ofBoolListLE
  rw [h]
  interval_cases k <;> rfl

/-- Saving and loading gives the same bits. -/
theorem bitmapOfBytes_bits (hx : x < b.bitCnt) :
    (bitmapOfBytes b.bitCnt (bitmapBytes b)).bits x = b.bits x := by
  have hlt : x / 8 < byteCnt b.bitCnt := by unfold byteCnt; omega
  have hbyte : (bitmapBytes b).getD (x / 8) 0 = bitmapByte fun k => b.bits (8 * (x / 8) + k) := by
    simp [bitmapBytes, List.getD_eq_getElem?_getD, hlt]
  simp only [bitmapOfBytes, hbyte, hx, decide_true, Bool.true_and]
  rw [bitmapByte_testBit _ (Nat.mod_lt _ (by omega)), Nat.div_add_mod]

end CS162.Fs
