/-
# `CS162.Fs.BitmapElems` — the words of a bitmap

From the inside a bitmap is an array of `elem_type`, 32 bits wide, and `size_t` wraps.  This is
`lib/kernel/bitmap.c` on that array, with the assertions and the bounds of the array (`Fault`), and
`free-map.c` on top of it.  Each operation refines its namesake on `Fs.Bitmap` (`Map.toBitmap`).

The file of the free map is a parameter: all that counts here is that a whole map that is written gets
there and can be read (`FileOps.Writable`).  Nothing is asked of writes of other lengths, nor of files
other than those a map is written to; `CS162.Fs.MapDisk` shows that the kernel's own file meets it.
-/
import Mathlib.Data.List.Nodup
import Mathlib.Data.Nat.Bitwise
import Mathlib.Data.UInt
import Mathlib.Order.Bounds.Basic
import CS162.Fs.Bitmap
import CS162.Lib.Bytes

namespace CS162.Fs.Elem

open Bytes

/-! ## The model -/

/-- What stops the kernel: an assertion, an access outside the array, a loop without end, or a file
that is not there. -/
inductive Fault where
  | assertion
  | outside
  | spin
  | noFile
deriving DecidableEq

/-- `elem_idx`. -/
def elemIdx (bitIdx : UInt32) : UInt32 := bitIdx / 32

/-- `bit_mask`. -/
def bitMask (bitIdx : UInt32) : UInt32 := 1 <<< (bitIdx % 32)

/-- `elem_cnt`, with `DIV_ROUND_UP`. -/
def elemCnt (bitCnt : UInt32) : UInt32 := (bitCnt + 32 - 1) / 32

/-- `byte_cnt`. -/
def byteCnt (bitCnt : UInt32) : UInt32 := 4 * elemCnt bitCnt

/-- `struct bitmap`, as `bitmap_create` makes it: where `DIV_ROUND_UP` wraps it asks `malloc` for no
bytes, and gets none. -/
@[ext]
structure Map where
  bitCnt : UInt32
  bits : List UInt32
  fits : bitCnt.toNat + 32 ≤ 2 ^ 32
  length : bits.length = (elemCnt bitCnt).toNat

/-- `last_mask`. -/
def lastMask (b : Map) : UInt32 :=
  let lastBits := b.bitCnt % 32
  if lastBits ≠ 0 then (1 <<< lastBits) - 1 else 0 - 1

/-- `b->bits[idx]`. -/
def load (b : Map) (idx : UInt32) : Except Fault UInt32 :=
  match (b.bits)[idx.toNat]? with
  | some elem => .ok elem
  | none => .error .outside

/-- An element changed by one instruction. -/
def modify (b : Map) (idx : UInt32) (f : UInt32 → UInt32) : Except Fault Map :=
  if idx.toNat < b.bits.length then
    .ok { b with bits := b.bits.modify idx.toNat f, length := by rw [List.length_modify, b.length] }
  else .error .outside

/-- `bitmap_mark`. -/
def bitmapMark (b : Map) (bitIdx : UInt32) : Except Fault Map :=
  modify b (elemIdx bitIdx) (· ||| bitMask bitIdx)

/-- `bitmap_reset`. -/
def bitmapReset (b : Map) (bitIdx : UInt32) : Except Fault Map :=
  modify b (elemIdx bitIdx) (· &&& ~~~ bitMask bitIdx)

/-- `bitmap_set`. -/
def bitmapSet (b : Map) (idx : UInt32) (value : Bool) : Except Fault Map :=
  if idx < b.bitCnt then if value then bitmapMark b idx else bitmapReset b idx
  else .error .assertion

/-- `bitmap_test`. -/
def bitmapTest (b : Map) (idx : UInt32) : Except Fault Bool :=
  if idx < b.bitCnt then do
    let elem ← load b (elemIdx idx)
    return elem &&& bitMask idx ≠ 0
  else .error .assertion

/-- `bitmap_set_multiple`. -/
def bitmapSetMultiple (b : Map) (start cnt : UInt32) (value : Bool) : Except Fault Map :=
  if start ≤ b.bitCnt ∧ start + cnt ≤ b.bitCnt then
    (List.range cnt.toNat).foldlM (fun b i => bitmapSet b (start + UInt32.ofNat i) value) b
  else .error .assertion

/-- `bitmap_contains`. -/
def bitmapContains (b : Map) (start cnt : UInt32) (value : Bool) : Except Fault Bool :=
  if start ≤ b.bitCnt ∧ start + cnt ≤ b.bitCnt then
    (List.range cnt.toNat).anyM fun i => do
      let bit ← bitmapTest b (start + UInt32.ofNat i)
      return bit == value
  else .error .assertion

/-- `bitmap_all`. -/
def bitmapAll (b : Map) (start cnt : UInt32) : Except Fault Bool := do
  let any ← bitmapContains b start cnt false
  return !any

/-- `BITMAP_ERROR`. -/
def bitmapError : UInt32 := 0xffffffff

/-- The loop of `bitmap_scan`. -/
def scanLoop (b : Map) (last cnt : UInt32) (value : Bool) : Nat → UInt32 → Except Fault UInt32
  | 0, _ => .error .spin
  | fuel + 1, i =>
      if i ≤ last then do
        if ← bitmapContains b i cnt !value then scanLoop b last cnt value fuel (i + 1)
        else return i
      else return bitmapError

/-- `bitmap_scan`. -/
def bitmapScan (b : Map) (start cnt : UInt32) (value : Bool) : Except Fault UInt32 :=
  if start ≤ b.bitCnt then
    if cnt ≤ b.bitCnt then scanLoop b (b.bitCnt - cnt) cnt value (2 ^ 32) start
    else return bitmapError
  else .error .assertion

/-- `bitmap_scan_and_flip`: the index and the bitmap after. -/
def bitmapScanAndFlip (b : Map) (start cnt : UInt32) (value : Bool) : Except Fault (UInt32 × Map) := do
  let idx ← bitmapScan b start cnt value
  if idx ≠ bitmapError then
    let b ← bitmapSetMultiple b idx cnt !value
    return (idx, b)
  else return (idx, b)

/-! ### Files -/

/-- `file_read_at` and `file_write_at` from offset 0 on: the
bytes that are read, and the number that are written. -/
structure FileOps (φ : Type) where
  readAt : φ → Nat → List UInt8
  writeAt : φ → List UInt8 → Nat × φ

/-- The files of `W` can be written, `n` bytes at a time: these all get there, they are what is read,
and the file stays in `W`. -/
structure FileOps.Writable {φ : Type} (ops : FileOps φ) (n : Nat) (W : φ → Prop) : Prop where
  written : ∀ file bytes, W file → bytes.length = n → (ops.writeAt file bytes).1 = n
  read : ∀ file bytes, W file → bytes.length = n →
    ops.readAt (ops.writeAt file bytes).2 n = bytes
  stays : ∀ file bytes, W file → bytes.length = n → W (ops.writeAt file bytes).2

/-- The bytes of `b->bits`. -/
def image (b : Map) : List UInt8 :=
  (List.range (byteCnt b.bitCnt).toNat).map fun i => Block.byteOf (b.bits.getD (i / 4) 0) (i % 4)

/-- The bitmap after the first bytes of its array have been overwritten. -/
def overlay (b : Map) (bytes : List UInt8) : Map :=
  let all := bytes ++ (image b).drop bytes.length
  { b with
    bits := (List.range b.bits.length).map fun j =>
      Block.join (all.getD (4 * j) 0) (all.getD (4 * j + 1) 0) (all.getD (4 * j + 2) 0)
        (all.getD (4 * j + 3) 0)
    length := by rw [List.length_map, List.length_range, b.length] }

section

variable {φ : Type} (ops : FileOps φ)

/-- `bitmap_read`. -/
def bitmapRead (b : Map) (file : φ) : Except Fault (Bool × Map) :=
  if 0 < b.bitCnt then do
    let size := (byteCnt b.bitCnt).toNat
    let bytes := ops.readAt file size
    let b ← modify (overlay b bytes) (elemCnt b.bitCnt - 1) (· &&& lastMask b)
    return (bytes.length == size, b)
  else return (true, b)

/-- `bitmap_write`. -/
def bitmapWrite (b : Map) (file : φ) : Bool × φ :=
  let (n, file) := ops.writeAt file (image b)
  (n == (byteCnt b.bitCnt).toNat, file)

/-- `free_map` and `free_map_file`. -/
structure FreeMap (φ : Type) where
  freeMap : Map
  freeMapFile : Option φ

/-- `free_map_allocate`. -/
def freeMapAllocate (st : FreeMap φ) (cnt : UInt32) : Except Fault (Option UInt32 × FreeMap φ) := do
  let (sector, b) ← bitmapScanAndFlip st.freeMap 0 cnt false
  if sector ≠ bitmapError then
    match st.freeMapFile with
    | none => return (some sector, ⟨b, none⟩)
    | some file =>
        match bitmapWrite ops b file with
        | (true, file) => return (some sector, ⟨b, some file⟩)
        | (false, file) =>
            let b ← bitmapSetMultiple b sector cnt false
            return (none, ⟨b, some file⟩)
  else return (none, ⟨b, st.freeMapFile⟩)

/-- `free_map_release`. -/
def freeMapRelease (st : FreeMap φ) (sector cnt : UInt32) : Except Fault (FreeMap φ) := do
  if ← bitmapAll st.freeMap sector cnt then
    let b ← bitmapSetMultiple st.freeMap sector cnt false
    match st.freeMapFile with
    | none => throw .noFile
    | some file => return ⟨b, some (bitmapWrite ops b file).2⟩
  else throw .assertion

end

/-! ## Bits -/

/-- The bit of a number in an element. -/
def bit (w : UInt32) (k : Nat) : Bool := w.toNat.testBit k

/-- The bitmap that an array shows. -/
def Map.toBitmap (b : Map) : Bitmap where
  bitCnt := b.bitCnt.toNat
  bits k := bit (b.bits.getD (k / 32) 0) (k % 32)

section

variable {b b' : Map} {x start cnt : UInt32} {w : UInt32} {k : Nat} {v : Bool}

theorem elemIdx_toNat (x : UInt32) : (elemIdx x).toNat = x.toNat / 32 := UInt32.toNat_div ..

theorem mod32_toNat (x : UInt32) : (x % 32).toNat = x.toNat % 32 := UInt32.toNat_mod ..

/-- There is one element for 32 bits. -/
theorem Map.elemCnt_toNat (b : Map) : (elemCnt b.bitCnt).toNat = (b.bitCnt.toNat + 31) / 32 := by
  have hfits := b.fits
  have hsum : (b.bitCnt + 32 - 1).toNat = b.bitCnt.toNat + 31 := by
    rw [UInt32.toNat_sub, UInt32.toNat_add]
    have h32 : (32 : UInt32).toNat = 32 := rfl
    have h1 : (1 : UInt32).toNat = 1 := rfl
    omega
  unfold elemCnt
  rw [UInt32.toNat_div, hsum]
  rfl

theorem Map.byteCnt_toNat (b : Map) : (byteCnt b.bitCnt).toNat = 4 * b.bits.length := by
  have hfits := b.fits
  have hcnt := b.elemCnt_toNat
  rw [b.length]
  unfold byteCnt
  have h4 : (4 : UInt32).toNat = 4 := rfl
  rw [UInt32.toNat_mul, h4]
  omega

theorem bitMask_toNat (x : UInt32) : (bitMask x).toNat = 2 ^ (x.toNat % 32) := by
  have hlt : x.toNat % 32 < 32 := Nat.mod_lt _ (by decide)
  have hpow : 2 ^ (x.toNat % 32) < 2 ^ 32 := Nat.pow_lt_pow_right (by decide) hlt
  unfold bitMask
  rw [UInt32.toNat_shiftLeft, mod32_toNat, Nat.mod_mod, Nat.shiftLeft_eq]
  show 1 * 2 ^ (x.toNat % 32) % 2 ^ 32 = _
  rw [Nat.one_mul, Nat.mod_eq_of_lt hpow]

theorem bitMask_testBit (x : UInt32) (k : Nat) :
    (bitMask x).toNat.testBit k = decide (k = x.toNat % 32) := by
  rw [bitMask_toNat, Nat.testBit_two_pow]
  exact decide_eq_decide.mpr eq_comm

theorem bit_mark : bit (w ||| bitMask x) k = if k = x.toNat % 32 then true else bit w k := by
  unfold bit
  rw [UInt32.toNat_or, Nat.testBit_or, bitMask_testBit]
  by_cases hk : k = x.toNat % 32
  · rw [if_pos hk, decide_eq_true hk, Bool.or_true]
  · rw [if_neg hk, decide_eq_false hk, Bool.or_false]

/-- `&= ~mask` clears one bit. -/
theorem bit_reset : bit (w &&& ~~~ bitMask x) k = if k = x.toNat % 32 then false else bit w k := by
  have hw : w.toNat < 2 ^ 32 := w.toNat_lt
  unfold bit
  rw [UInt32.toNat_and, Nat.testBit_and, UInt32.toNat_not]
  have hmask : (UInt32.size - 1 - (bitMask x).toNat).testBit k =
      (decide (k < 32) && !decide (k = x.toNat % 32)) := by
    rw [← bitMask_testBit, ← Nat.testBit_two_pow_sub_succ (bitMask x).toNat_lt]
    congr 1
    show 2 ^ 32 - 1 - _ = _
    omega
  rw [hmask]
  by_cases hk : k = x.toNat % 32
  · rw [if_pos hk, decide_eq_true hk, Bool.not_true, Bool.and_false, Bool.and_false]
  · rw [if_neg hk, decide_eq_false hk, Bool.not_false, Bool.and_true]
    by_cases hlt : k < 32
    · rw [decide_eq_true hlt, Bool.and_true]
    · have hpow : w.toNat < 2 ^ k := hw.trans_le (Nat.pow_le_pow_right (by decide) (Nat.le_of_not_lt hlt))
      rw [Nat.testBit_lt_two_pow hpow, Bool.false_and]

/-- Testing with a mask is testing the bit. -/
theorem and_bitMask_ne_zero : decide (w &&& bitMask x ≠ 0) = bit w (x.toNat % 32) := by
  unfold bit
  have hand : (w &&& bitMask x).toNat = (w.toNat.testBit (x.toNat % 32)).toNat * 2 ^ (x.toNat % 32) := by
    rw [UInt32.toNat_and, bitMask_toNat, Nat.and_two_pow]
  cases hb : w.toNat.testBit (x.toNat % 32) with
  | true =>
      rw [hb, Bool.toNat_true, Nat.one_mul] at hand
      refine decide_eq_true fun hzero => ?_
      rw [hzero] at hand
      exact absurd hand.symm (Nat.two_pow_pos _).ne'
  | false =>
      rw [hb, Bool.toNat_false, Nat.zero_mul] at hand
      exact decide_eq_false fun hne => hne (UInt32.toNat_inj.mp hand)

/-- The element of a bit is in the array. -/
theorem Map.elemIdx_lt (b : Map) (hx : x < b.bitCnt) : (elemIdx x).toNat < b.bits.length := by
  have hlt : x.toNat < b.bitCnt.toNat := UInt32.lt_iff_toNat_lt.mp hx
  rw [b.length, b.elemCnt_toNat, elemIdx_toNat]
  omega

/-- One instruction changes the bits of one element. -/
theorem modify_ok {f : UInt32 → UInt32} {idx : UInt32} (h : idx.toNat < b.bits.length) :
    ∃ b', modify b idx f = .ok b' ∧ b'.bitCnt = b.bitCnt ∧
      ∀ j, b'.bits.getD j 0 = if j = idx.toNat then f (b.bits.getD j 0) else b.bits.getD j 0 := by
  refine ⟨_, if_pos h, rfl, fun j => ?_⟩
  simp only [List.getD_eq_getElem?_getD, List.getElem?_modify]
  by_cases hj : j = idx.toNat
  · subst hj
    simp [h]
  · simp [hj, Ne.symm hj]

theorem bitmapTest_ok (hx : x < b.bitCnt) : bitmapTest b x = .ok (b.toBitmap.bits x.toNat) := by
  have hlt := b.elemIdx_lt hx
  unfold bitmapTest load
  rw [if_pos hx, List.getElem?_eq_getElem hlt]
  show Except.ok (decide (_ &&& bitMask x ≠ 0)) = _
  rw [and_bitMask_ne_zero]
  unfold Map.toBitmap
  dsimp only
  rw [List.getD_eq_getElem?_getD, ← elemIdx_toNat, List.getElem?_eq_getElem hlt]
  rfl

/-- `bitmap_set` finds its element in the array, and changes one bit of the map. -/
theorem bitmapSet_ok (hx : x < b.bitCnt) (v : Bool) :
    ∃ b', bitmapSet b x v = .ok b' ∧ b'.bitCnt = b.bitCnt ∧
      b'.toBitmap = Fs.bitmapSet b.toBitmap x.toNat v := by
  have hlt := b.elemIdx_lt hx
  have hbits : ∀ {b' : Map} {f : UInt32 → UInt32}, b'.bitCnt = b.bitCnt →
      (∀ j, b'.bits.getD j 0 = if j = (elemIdx x).toNat then f (b.bits.getD j 0) else b.bits.getD j 0) →
      (∀ w k, bit (f w) k = if k = x.toNat % 32 then v else bit w k) →
      b'.toBitmap = Fs.bitmapSet b.toBitmap x.toNat v := by
    intro b' f hcnt hget hf
    unfold Map.toBitmap Fs.bitmapSet
    rw [hcnt]
    congr 1
    funext k
    rw [hget, elemIdx_toNat, Function.update_apply]
    by_cases hk : k = x.toNat
    · rw [hk, if_pos rfl, if_pos rfl, hf, if_pos rfl]
    · rw [if_neg hk]
      by_cases hj : k / 32 = x.toNat / 32
      · rw [if_pos hj, hf, if_neg (by omega)]
      · rw [if_neg hj]
  unfold bitmapSet
  rw [if_pos hx]
  cases v with
  | true =>
      obtain ⟨b', hmod, hcnt, hget⟩ := modify_ok (f := (· ||| bitMask x)) hlt
      exact ⟨b', hmod, hcnt, hbits hcnt hget fun _ _ => bit_mark⟩
  | false =>
      obtain ⟨b', hmod, hcnt, hget⟩ := modify_ok (f := (· &&& ~~~ bitMask x)) hlt
      exact ⟨b', hmod, hcnt, hbits hcnt hget fun _ _ => bit_reset⟩

/-- A range that does not wrap. -/
def InRange (b : Map) (start cnt : UInt32) : Prop := start.toNat + cnt.toNat ≤ b.bitCnt.toNat

theorem InRange.guard (h : InRange b start cnt) : start ≤ b.bitCnt ∧ start + cnt ≤ b.bitCnt := by
  unfold InRange at h
  have hlt := b.bitCnt.toNat_lt
  rw [UInt32.le_iff_toNat_le, UInt32.le_iff_toNat_le, UInt32.toNat_add, Nat.mod_eq_of_lt (by omega)]
  omega

theorem InRange.index (h : InRange b start cnt) {i : Nat} (hi : i < cnt.toNat) :
    (start + UInt32.ofNat i).toNat = start.toNat + i ∧ start + UInt32.ofNat i < b.bitCnt := by
  unfold InRange at h
  have hlt := b.bitCnt.toNat_lt
  have hsum : (start + UInt32.ofNat i).toNat = start.toNat + i := by
    rw [UInt32.toNat_add, UInt32.toNat_ofNat', Nat.add_mod_mod, Nat.mod_eq_of_lt (by omega)]
  exact ⟨hsum, UInt32.lt_iff_toNat_lt.mpr (by omega)⟩

/-- `bitmap_set_multiple` on a range of the map: no assertion fails, no access is out of bounds, and it
does on the elements what `CS162.Fs.bitmapSetMultiple` does on the bits. -/
theorem bitmapSetMultiple_ok (h : InRange b start cnt) (v : Bool) :
    ∃ b', bitmapSetMultiple b start cnt v = .ok b' ∧ b'.bitCnt = b.bitCnt ∧
      b'.toBitmap = Fs.bitmapSetMultiple b.toBitmap start.toNat cnt.toNat v := by
  unfold bitmapSetMultiple Fs.bitmapSetMultiple
  rw [if_pos h.guard]
  -- the bits that are still to be set are in range
  have hloop : ∀ (l : List Nat) (b₁ : Map), b₁.bitCnt = b.bitCnt → (∀ i ∈ l, i < cnt.toNat) →
      ∃ b', l.foldlM (fun b i => bitmapSet b (start + UInt32.ofNat i) v) b₁ = .ok b' ∧
        b'.bitCnt = b.bitCnt ∧
        b'.toBitmap = l.foldl (fun b i => Fs.bitmapSet b (start.toNat + i) v) b₁.toBitmap := by
    intro l
    induction l with
    | nil => exact fun b₁ hcnt _ => ⟨b₁, rfl, hcnt, rfl⟩
    | cons i l ih =>
        intro b₁ hcnt hl
        obtain ⟨hsum, hlt⟩ := h.index (hl i (List.mem_cons_self ..))
        obtain ⟨b₂, hset, hcnt₂, hbit⟩ := bitmapSet_ok (b := b₁) (hcnt ▸ hlt) v
        obtain ⟨b', hrest, hcnt', hbits⟩ := ih b₂ (hcnt₂.trans hcnt)
          fun j hj => hl j (List.mem_cons_of_mem _ hj)
        refine ⟨b', ?_, hcnt', ?_⟩
        · rw [List.foldlM_cons, hset]
          exact hrest
        · rw [hbits, hbit, hsum, List.foldl_cons]
  exact hloop _ b rfl fun i hi => List.mem_range.mp hi

/-- The same for `bitmap_contains`. -/
theorem bitmapContains_ok (h : InRange b start cnt) (v : Bool) :
    bitmapContains b start cnt v = .ok (Fs.bitmapContains b.toBitmap start.toNat cnt.toNat v) := by
  unfold bitmapContains Fs.bitmapContains
  rw [if_pos h.guard]
  have hloop : ∀ l : List Nat, (∀ i ∈ l, i < cnt.toNat) →
      (l.anyM fun i => do
        let bit ← bitmapTest b (start + UInt32.ofNat i)
        return bit == v : Except Fault Bool) =
      .ok (l.any fun i => b.toBitmap.bits (start.toNat + i) == v) := by
    intro l
    induction l with
    | nil => exact fun _ => rfl
    | cons i l ih =>
        intro hl
        obtain ⟨hsum, hlt⟩ := h.index (hl i (List.mem_cons_self ..))
        have hrest := ih fun j hj => hl j (List.mem_cons_of_mem _ hj)
        rw [List.anyM, bitmapTest_ok hlt, hsum, List.any_cons]
        cases hv : b.toBitmap.bits (start.toNat + i) == v with
        | true => simp [Bind.bind, Except.bind, Pure.pure, Except.pure, hv]
        | false => simpa [Bind.bind, Except.bind, Pure.pure, Except.pure, hv] using hrest
  exact hloop _ fun i hi => List.mem_range.mp hi

/-- What the index of a scan is for the caller. -/
def found (r : Option Nat) : UInt32 := r.elim bitmapError UInt32.ofNat

/-- The loop of `bitmap_scan`, by induction on what is left to try.  The bound has been computed by an
unsigned subtraction that does not wrap here. -/
theorem scanLoop_ok {last : UInt32} (hlast : last.toNat + cnt.toNat ≤ b.bitCnt.toNat) (v : Bool) :
    ∀ (fuel : Nat) (i : UInt32), last.toNat + 1 - i.toNat < fuel →
      scanLoop b last cnt v fuel i = .ok (found
        ((List.range' i.toNat (last.toNat + 1 - i.toNat)).find? fun k =>
          !Fs.bitmapContains b.toBitmap k cnt.toNat !v)) := by
  have hfits := b.fits
  intro fuel
  induction fuel with
  | zero => exact fun _ hfuel => absurd hfuel (Nat.not_lt_zero _)
  | succ fuel ih =>
      intro i hfuel
      rw [scanLoop]
      by_cases hle : i ≤ last
      · have hle' : i.toNat ≤ last.toNat := UInt32.le_iff_toNat_le.mp hle
        have hrange : InRange b i cnt := by unfold InRange; omega
        have hsucc : (i + 1).toNat = i.toNat + 1 := by
          rw [UInt32.toNat_add]
          exact Nat.mod_eq_of_lt (by have h1 : (1 : UInt32).toNat = 1 := rfl; omega)
        have hsplit : last.toNat + 1 - i.toNat = last.toNat + 1 - (i + 1).toNat + 1 := by omega
        rw [if_pos hle, bitmapContains_ok hrange, hsplit, List.range'_succ, List.find?_cons, ← hsucc]
        cases hc : Fs.bitmapContains b.toBitmap i.toNat cnt.toNat !v with
        | true => exact ih (i + 1) (by omega)
        | false =>
            show Except.ok i = Except.ok (UInt32.ofNat i.toNat)
            rw [UInt32.ofNat_toNat]
      · have hgt : ¬ i.toNat ≤ last.toNat := fun h => hle (UInt32.le_iff_toNat_le.mpr h)
        have hnone : last.toNat + 1 - i.toNat = 0 := by omega
        rw [if_neg hle, hnone]
        rfl

theorem bitmapScan_ok (hstart : start ≤ b.bitCnt) (v : Bool) :
    bitmapScan b start cnt v = .ok (found (Fs.bitmapScan b.toBitmap start.toNat cnt.toNat v)) := by
  have hfits := b.fits
  have hsize : b.toBitmap.bitCnt = b.bitCnt.toNat := rfl
  unfold bitmapScan Fs.bitmapScan
  rw [if_pos hstart, hsize]
  by_cases hcnt : cnt ≤ b.bitCnt
  · have hcnt' : cnt.toNat ≤ b.bitCnt.toNat := UInt32.le_iff_toNat_le.mp hcnt
    have hlast : (b.bitCnt - cnt).toNat = b.bitCnt.toNat - cnt.toNat := UInt32.toNat_sub_of_le _ _ hcnt
    rw [if_pos hcnt, if_pos hcnt', scanLoop_ok (by omega) v _ _ (by omega), hlast]
  · have hcnt' : ¬ cnt.toNat ≤ b.bitCnt.toNat := fun h => hcnt (UInt32.le_iff_toNat_le.mpr h)
    rw [if_neg hcnt, if_neg hcnt']
    rfl

/-- Two arrays with the same bits are the same. -/
theorem Map.ext_bits (hcnt : b'.bitCnt = b.bitCnt) (h : ∀ k, b'.toBitmap.bits k = b.toBitmap.bits k) :
    b' = b := by
  have hlen : b'.bits.length = b.bits.length := by rw [b'.length, b.length, hcnt]
  have hbits : b'.bits = b.bits := by
    refine List.ext_getElem hlen fun j h₁ h₂ => UInt32.toNat_inj.mp (Nat.eq_of_testBit_eq fun i => ?_)
    by_cases hi : i < 32
    · have hk := h (32 * j + i)
      have hdiv : (32 * j + i) / 32 = j := by omega
      have hmod : (32 * j + i) % 32 = i := by omega
      simp only [Map.toBitmap, hdiv, hmod, List.getD_eq_getElem?_getD, List.getElem?_eq_getElem h₁,
        List.getElem?_eq_getElem h₂] at hk
      exact hk
    · have hhigh : ∀ w : UInt32, w.toNat.testBit i = false := fun w =>
        Nat.testBit_lt_two_pow (w.toNat_lt.trans_le (Nat.pow_le_pow_right (by decide)
        (Nat.le_of_not_lt hi)))
      rw [hhigh, hhigh]
  exact Map.ext hcnt hbits

end

/-! ## First fit -/

/-- `cnt` consecutive free sectors from `x` on. -/
def FreeRun (b : Bitmap) (cnt x : Nat) : Prop := x + cnt ≤ b.bitCnt ∧ ∀ i < cnt, b.bits (x + i) = false

section

variable {b : Bitmap} {cnt x : Nat}

theorem freeRun_iff : FreeRun b cnt x ↔ x + cnt ≤ b.bitCnt ∧ Fs.bitmapContains b x cnt true = false := by
  unfold FreeRun
  rw [← Bool.not_eq_true, bitmapContains_iff]
  simp

/-- `bitmap_scan` from the start gives the first run. -/
theorem scan_some : Fs.bitmapScan b 0 cnt false = some x ↔ IsLeast {x | FreeRun b cnt x} x := by
  unfold Fs.bitmapScan
  have hmem : ∀ y, y ∈ {x | FreeRun b cnt x} ↔ FreeRun b cnt y := fun _ => Iff.rfl
  split
  · next hcnt =>
    rw [List.find?_range'_eq_some, List.mem_range'_1]
    simp only [Bool.not_false, Bool.not_eq_true', Bool.not_not]
    constructor
    · rintro ⟨hx, ⟨-, hlt⟩, hleast⟩
      refine ⟨freeRun_iff.mpr ⟨by omega, hx⟩, fun y hy => Nat.le_of_not_lt fun hyx => ?_⟩
      have hno := hleast y (Nat.zero_le _) hyx
      rw [(freeRun_iff.mp ((hmem y).mp hy)).2] at hno
      cases hno
    · rintro ⟨hx, hleast⟩
      obtain ⟨hle, hfree⟩ := freeRun_iff.mp hx
      refine ⟨hfree, ⟨Nat.zero_le _, by omega⟩, fun y _ hyx => ?_⟩
      by_contra hno
      have hy : FreeRun b cnt y := freeRun_iff.mpr ⟨by omega, by simpa using hno⟩
      exact absurd (hleast hy) (Nat.not_le.mpr hyx)
  · next hcnt =>
    refine iff_of_false (fun h => nomatch h) fun h => ?_
    obtain ⟨hle, -⟩ := (hmem x).mp h.1
    omega

/-- The search on the bits fails only if there is no run. -/
theorem scan_none : Fs.bitmapScan b 0 cnt false = none ↔ ¬ ∃ x, FreeRun b cnt x := by
  constructor
  · intro h hex
    classical
    have hleast : IsLeast {x | FreeRun b cnt x} (Nat.find hex) :=
      ⟨Nat.find_spec hex, fun y hy => Nat.find_min' hex hy⟩
    rw [scan_some.mpr hleast] at h
    cases h
  · intro h
    cases hs : Fs.bitmapScan b 0 cnt false with
    | none => rfl
    | some x => exact absurd ⟨x, (scan_some.mp hs).1⟩ h

end

/-! ## The file -/

section

variable {φ : Type} {ops : FileOps φ} {W : φ → Prop} {b b' : Map}

theorem image_getD {i : Nat} (hi : i < 4 * b.bits.length) :
    (image b).getD i 0 = Block.byteOf (b.bits.getD (i / 4) 0) (i % 4) := by
  unfold image
  rw [b.byteCnt_toNat, List.getD_eq_getElem?_getD, List.getElem?_map, List.getElem?_range hi]
  rfl

theorem length_image (b : Map) : (image b).length = 4 * b.bits.length := by
  unfold image
  rw [List.length_map, List.length_range, b.byteCnt_toNat]

/-- An image that is loaded gives the words. -/
theorem overlay_image (hcnt : b'.bitCnt = b.bitCnt) : overlay b' (image b) = b := by
  have hlen : b'.bits.length = b.bits.length := by rw [b'.length, b.length, hcnt]
  refine Map.ext hcnt ?_
  unfold overlay
  dsimp only
  have hdrop : (image b').drop (image b).length = [] :=
    List.drop_eq_nil_of_le (by rw [length_image, length_image, hlen])
  rw [hdrop, List.append_nil]
  refine List.ext_getElem (by rw [List.length_map, List.length_range, hlen]) fun j h₁ h₂ => ?_
  have hbyte : ∀ r < 4, (image b).getD (4 * j + r) 0 = Block.byteOf ((b.bits)[j]) r := by
    intro r hr
    have hdiv : (4 * j + r) / 4 = j := by omega
    have hmod : (4 * j + r) % 4 = r := by omega
    rw [image_getD (by omega), hdiv, hmod, List.getD_eq_getElem?_getD, List.getElem?_eq_getElem h₂]
    rfl
  have h0 := hbyte 0 (by decide)
  rw [Nat.add_zero] at h0
  rw [List.getElem_map, List.getElem_range, h0, hbyte 1 (by decide), hbyte 2 (by decide),
    hbyte 3 (by decide), Block.join_bytes]

/-- The mask for the last element keeps the bits of the map. -/
theorem lastMask_testBit (b : Map) (k : Nat) : (lastMask b).toNat.testBit k =
    decide (k < if b.bitCnt.toNat % 32 = 0 then 32 else b.bitCnt.toNat % 32) := by
  have hlt : b.bitCnt.toNat % 32 < 32 := Nat.mod_lt _ (by decide)
  have hmod := mod32_toNat b.bitCnt
  unfold lastMask
  dsimp only
  by_cases hzero : b.bitCnt % 32 = 0
  · have hzero' : b.bitCnt.toNat % 32 = 0 := by
      rw [← hmod, hzero]
      rfl
    rw [if_neg (not_not.mpr hzero), if_pos hzero']
    exact Nat.testBit_two_pow_sub_one 32 k
  · have hzero' : ¬ b.bitCnt.toNat % 32 = 0 := fun h => hzero (UInt32.toNat_inj.mp (hmod.trans h))
    have hmask : (1 <<< (b.bitCnt % 32)).toNat = 2 ^ (b.bitCnt.toNat % 32) := bitMask_toNat b.bitCnt
    have hpos : 0 < 2 ^ (b.bitCnt.toNat % 32) := Nat.two_pow_pos _
    have hone : (1 : UInt32) ≤ 1 <<< (b.bitCnt % 32) := by
      rw [UInt32.le_iff_toNat_le, hmask]
      exact hpos
    rw [if_pos hzero, if_neg hzero', UInt32.toNat_sub_of_le _ _ hone, hmask]
    exact Nat.testBit_two_pow_sub_one _ k

theorem image_size (b : Map) : (image b).length = (byteCnt b.bitCnt).toNat := by
  rw [length_image, b.byteCnt_toNat]

theorem bitmapWrite_true (hw : ops.Writable (byteCnt b.bitCnt).toNat W) {file : φ} (hf : W file) :
    (bitmapWrite ops b file).1 = true := by
  show ((ops.writeAt file (image b)).1 == _) = true
  rw [hw.written file (image b) hf (image_size b)]
  exact beq_self_eq_true _

theorem bitmapWrite_stays (hw : ops.Writable (byteCnt b.bitCnt).toNat W) {file : φ} (hf : W file) :
    W (bitmapWrite ops b file).2 :=
  hw.stays file (image b) hf (image_size b)

/-- The bits of an array whose last element is masked. -/
theorem bits_masked {last : UInt32} (hlast : last.toNat = (b.bitCnt.toNat + 31) / 32 - 1)
    (hpos : 0 < b.bitCnt.toNat)
    (hget : ∀ j, b'.bits.getD j 0 =
      if j = last.toNat then b.bits.getD j 0 &&& lastMask b else b.bits.getD j 0) (k : Nat) :
    b'.toBitmap.bits k = (decide (k < b.bitCnt.toNat) && b.toBitmap.bits k) := by
  have helems := b.elemCnt_toNat
  have hlen := b.length
  show bit (b'.bits.getD (k / 32) 0) (k % 32) = (_ && bit (b.bits.getD (k / 32) 0) (k % 32))
  rw [hget, hlast]
  by_cases hk : k / 32 = (b.bitCnt.toNat + 31) / 32 - 1
  · rw [if_pos hk]
    unfold bit
    rw [UInt32.toNat_and, Nat.testBit_and, lastMask_testBit, Bool.and_comm]
    congr 1
    refine decide_eq_decide.mpr ?_
    split <;> omega
  · rw [if_neg hk]
    by_cases hlt : k < b.bitCnt.toNat
    · rw [decide_eq_true hlt, Bool.true_and]
    · have hout : b.bits.length ≤ k / 32 := by omega
      rw [decide_eq_false hlt, Bool.false_and, List.getD_eq_getElem?_getD, List.getElem?_eq_none hout]
      exact Nat.zero_testBit _

/-- What is written is read back, and what is beyond the last bit is masked. -/
theorem bitmapRead_write (hw : ops.Writable (byteCnt b.bitCnt).toNat W)
    (hcnt : b'.bitCnt = b.bitCnt) {file : φ} (hf : W file) :
    ∃ b'', bitmapRead ops b' (bitmapWrite ops b file).2 = .ok (true, b'') ∧ b''.bitCnt = b.bitCnt ∧
      ∀ k, b''.toBitmap.bits k = (decide (k < b.bitCnt.toNat) && b.toBitmap.bits k) := by
  have helems := b.elemCnt_toNat
  have hlen := b.length
  have hread : ops.readAt (bitmapWrite ops b file).2 (byteCnt b'.bitCnt).toNat = image b := by
    rw [hcnt]
    exact hw.read file (image b) hf (image_size b)
  unfold bitmapRead
  by_cases hpos : 0 < b'.bitCnt
  · have hpos' : 0 < b.bitCnt.toNat := hcnt ▸ UInt32.lt_iff_toNat_lt.mp hpos
    have hone : (1 : UInt32) ≤ elemCnt b.bitCnt := by
      rw [UInt32.le_iff_toNat_le, helems]
      show 1 ≤ _
      omega
    have hlast : (elemCnt b.bitCnt - 1).toNat = (b.bitCnt.toNat + 31) / 32 - 1 := by
      rw [UInt32.toNat_sub_of_le _ _ hone, helems]
      rfl
    have hidx : (elemCnt b.bitCnt - 1).toNat < b.bits.length := by omega
    obtain ⟨b'', hmod, hcnt'', hget⟩ := modify_ok (f := (· &&& lastMask b)) hidx
    have hmask : lastMask b' = lastMask b := by
      unfold lastMask
      rw [hcnt]
    refine ⟨b'', ?_, hcnt'', bits_masked hlast hpos' hget⟩
    rw [if_pos hpos]
    dsimp only
    rw [hread, overlay_image hcnt, hmask, hcnt, hmod, image_size, beq_self_eq_true]
    rfl
  · have hzero : b.bitCnt.toNat = 0 := by
      rw [hcnt, UInt32.lt_iff_toNat_lt] at hpos
      exact Nat.eq_zero_of_not_pos hpos
    have hnil : b'.bits = [] := List.eq_nil_of_length_eq_zero (by rw [b'.length, hcnt, helems]; omega)
    refine ⟨b', if_neg hpos, hcnt, fun k => ?_⟩
    simp [Map.toBitmap, hnil, hzero, bit]

end

/-! ## The free map -/

section

variable {φ : Type} {ops : FileOps φ} {W : φ → Prop} {st st' : FreeMap φ} {sector cnt : UInt32}

/-- A run of sectors has sector `k`. -/
def Covers (run : UInt32 × UInt32) (k : Nat) : Prop :=
  run.1.toNat ≤ k ∧ k < run.1.toNat + run.2.toNat

instance (run : UInt32 × UInt32) (k : Nat) : Decidable (Covers run k) :=
  inferInstanceAs (Decidable (_ ∧ _))

/-- The bits of the free map. -/
def FreeMap.bits (st : FreeMap φ) : Nat → Bool := st.freeMap.toBitmap.bits

/-- `free_map_allocate` found a run. -/
structure Allocated (st : FreeMap φ) (cnt sector : UInt32) (st' : FreeMap φ) : Prop where
  least : IsLeast {x | FreeRun st.freeMap.toBitmap cnt.toNat x} sector.toNat
  bits : ∀ k, st'.bits k = if Covers (sector, cnt) k then true else st.bits k
  size : st'.freeMap.bitCnt = st.freeMap.bitCnt
  file : st'.freeMapFile.isSome = st.freeMapFile.isSome

/-- `free_map_release` has freed a run. -/
structure Released (st : FreeMap φ) (sector cnt : UInt32) (st' : FreeMap φ) : Prop where
  bits : ∀ k, st'.bits k = if Covers (sector, cnt) k then false else st.bits k
  size : st'.freeMap.bitCnt = st.freeMap.bitCnt
  file : st'.freeMapFile.isSome = st.freeMapFile.isSome

theorem found_some {b : Map} {x : Nat} (hx : x ≤ b.bitCnt.toNat) :
    (found (some x)).toNat = x ∧ found (some x) ≠ bitmapError := by
  have hfits := b.fits
  have hval : (found (some x)).toNat = x := by
    show (UInt32.ofNat x).toNat = x
    rw [UInt32.toNat_ofNat']
    exact Nat.mod_eq_of_lt (by omega)
  refine ⟨hval, fun h => ?_⟩
  rw [h] at hval
  have herr : bitmapError.toNat = 2 ^ 32 - 1 := rfl
  omega

/-- First fit, and the file has been written where there is one. -/
theorem freeMapAllocate_ok (hw : ops.Writable (byteCnt st.freeMap.bitCnt).toNat W)
    (hgood : ∀ file ∈ st.freeMapFile, W file) (cnt : UInt32) :
    (∃ sector st', freeMapAllocate ops st cnt = .ok (some sector, st') ∧ Allocated st cnt sector st' ∧
        ∀ file ∈ st'.freeMapFile, W file) ∨
      freeMapAllocate ops st cnt = .ok (none, st) ∧ ¬ ∃ x, FreeRun st.freeMap.toBitmap cnt.toNat x := by
  have hscan : bitmapScan st.freeMap 0 cnt false =
      .ok (found (Fs.bitmapScan st.freeMap.toBitmap (0 : UInt32).toNat cnt.toNat false)) :=
    bitmapScan_ok (UInt32.le_iff_toNat_le.mpr (Nat.zero_le _)) false
  unfold freeMapAllocate bitmapScanAndFlip
  rw [hscan]
  cases hs : Fs.bitmapScan st.freeMap.toBitmap (0 : UInt32).toNat cnt.toNat false with
  | none =>
      refine .inr ⟨?_, scan_none.mp hs⟩
      cases st
      rfl
  | some x =>
      have hleast := scan_some.mp hs
      have hle : x + cnt.toNat ≤ st.freeMap.bitCnt.toNat := hleast.1.1
      obtain ⟨hval, hne⟩ := found_some (b := st.freeMap) (x := x) (by omega)
      have hrange : InRange st.freeMap (found (some x)) cnt := by
        unfold InRange
        rw [hval]
        exact hle
      obtain ⟨b, hset, hsize, hbits⟩ := bitmapSetMultiple_ok hrange true
      have hcover : ∀ k, b.toBitmap.bits k =
          if Covers (found (some x), cnt) k then true else st.bits k := by
        intro k
        rw [hbits, Fs.bitmapSetMultiple_bits]
        rfl
      have halloc : ∀ file : Option φ, file.isSome = st.freeMapFile.isSome →
          Allocated st cnt (found (some x)) ⟨b, file⟩ := fun file hfile =>
        ⟨hval.symm ▸ hleast, hcover, hsize, hfile⟩
      simp only [Bind.bind, Except.bind, Pure.pure, Except.pure, hne, ne_eq, not_false_eq_true, if_true,
        Bool.not_false, hset]
      cases hf : st.freeMapFile with
      | none => exact .inl ⟨_, _, rfl, halloc none (by rw [hf]), fun _ hnone => by cases hnone⟩
      | some file =>
          have hwb : ops.Writable (byteCnt b.bitCnt).toNat W := hsize.symm ▸ hw
          have hwrite := bitmapWrite_true hwb (hgood file hf)
          have hstays := bitmapWrite_stays hwb (hgood file hf)
          cases hr : bitmapWrite ops b file with
          | mk done file' =>
              rw [hr] at hwrite hstays
              cases hwrite
              refine .inl ⟨_, _, ?_, halloc (some file') (by rw [hf]; rfl), ?_⟩
              swap
              · rintro _ ⟨⟩
                exact hstays
              dsimp only
              rw [hr]

/-- A run that is used can be released. -/
theorem freeMapRelease_ok (hw : ops.Writable (byteCnt st.freeMap.bitCnt).toNat W)
    (hfile : st.freeMapFile.isSome = true) (hgood : ∀ file ∈ st.freeMapFile, W file)
    (hrange : InRange st.freeMap sector cnt)
    (hused : ∀ k, Covers (sector, cnt) k → st.bits k = true) :
    ∃ st', freeMapRelease ops st sector cnt = .ok st' ∧ Released st sector cnt st' ∧
      ∀ file ∈ st'.freeMapFile, W file := by
  obtain ⟨file, hf⟩ := Option.isSome_iff_exists.mp hfile
  obtain ⟨b, hset, hsize, hbits⟩ := bitmapSetMultiple_ok hrange false
  have hall : bitmapAll st.freeMap sector cnt = .ok true := by
    have hno : Fs.bitmapContains st.freeMap.toBitmap sector.toNat cnt.toNat false = false := by
      rw [← Bool.not_eq_true, bitmapContains_iff]
      rintro ⟨i, hi, hbit⟩
      have hone := hused (sector.toNat + i) ⟨Nat.le_add_right .., Nat.add_lt_add_left hi _⟩
      exact absurd (hbit.symm.trans hone) Bool.false_ne_true
    unfold bitmapAll
    rw [bitmapContains_ok hrange, hno]
    rfl
  have hstays : W (bitmapWrite ops b file).2 := bitmapWrite_stays (hsize.symm ▸ hw) (hgood file hf)
  refine ⟨⟨b, some (bitmapWrite ops b file).2⟩, ?_, ⟨fun k => ?_, hsize, by rw [hf]; rfl⟩, ?_⟩
  · unfold freeMapRelease
    simp only [hall, hset, hf, Bind.bind, Except.bind, Pure.pure, Except.pure, if_true]
  · show b.toBitmap.bits k = _
    rw [hbits, Fs.bitmapSetMultiple_bits]
    rfl
  · rintro _ ⟨⟩
    exact hstays

/-- A run that was just allocated, released again, leaves the bitmap as it was. -/
theorem Allocated.release (h : Allocated st cnt sector st')
    (hw : ops.Writable (byteCnt st.freeMap.bitCnt).toNat W) (hfile : st.freeMapFile.isSome = true)
    (hgood : ∀ file ∈ st'.freeMapFile, W file) :
    ∃ st'', freeMapRelease ops st' sector cnt = .ok st'' ∧ st''.freeMap = st.freeMap := by
  have hrange : InRange st'.freeMap sector cnt := by
    unfold InRange
    rw [h.size]
    exact h.least.1.1
  obtain ⟨st'', hrun, hrel, -⟩ := freeMapRelease_ok (h.size.symm ▸ hw) (h.file.trans hfile) hgood hrange
    fun k hk => by rw [h.bits, if_pos hk]
  refine ⟨st'', hrun, Map.ext_bits (hrel.size.trans h.size) fun k => ?_⟩
  have hk' : st''.freeMap.toBitmap.bits k = st''.bits k := rfl
  rw [hk', hrel.bits]
  by_cases hk : Covers (sector, cnt) k
  · -- the sector was free before
    rw [if_pos hk]
    obtain ⟨hle, hlt⟩ := hk
    have hfree := h.least.1.2 (k - sector.toNat) (by dsimp only at hle hlt; omega)
    rw [Nat.add_sub_cancel' hle] at hfree
    exact hfree.symm
  · rw [if_neg hk, h.bits, if_neg hk]
    rfl

/-! ## Runs -/

/-- The states after calls, with the runs that are allocated: only these are released. -/
inductive Runs (ops : FileOps φ) (st₀ : FreeMap φ) : FreeMap φ → List (UInt32 × UInt32) → Prop where
  | start : Runs ops st₀ st₀ []
  | allocate {st st' : FreeMap φ} {live : List (UInt32 × UInt32)} {cnt sector : UInt32} :
      Runs ops st₀ st live → freeMapAllocate ops st cnt = .ok (some sector, st') →
      Runs ops st₀ st' ((sector, cnt) :: live)
  | refuse {st st' : FreeMap φ} {live : List (UInt32 × UInt32)} {cnt : UInt32} :
      Runs ops st₀ st live → freeMapAllocate ops st cnt = .ok (none, st') → Runs ops st₀ st' live
  | release {st st' : FreeMap φ} {live : List (UInt32 × UInt32)} {run : UInt32 × UInt32} :
      Runs ops st₀ st live → run ∈ live → freeMapRelease ops st run.1 run.2 = .ok st' →
      Runs ops st₀ st' (live.erase run)

/-- The bits that are set are those from before the calls and those of the allocated runs, and no two of
these have a sector in common. -/
structure Accounted (st₀ st : FreeMap φ) (live : List (UInt32 × UInt32)) : Prop where
  size : st.freeMap.bitCnt = st₀.freeMap.bitCnt
  file : st.freeMapFile.isSome = st₀.freeMapFile.isSome
  range : ∀ run ∈ live, InRange st₀.freeMap run.1 run.2
  fresh : ∀ run ∈ live, ∀ k, Covers run k → st₀.bits k = false
  apart : live.Pairwise fun run run' => ∀ k, Covers run k → ¬ Covers run' k
  used : ∀ k, st.bits k = true ↔ st₀.bits k = true ∨ ∃ run ∈ live, Covers run k

variable {st₀ : FreeMap φ} {live : List (UInt32 × UInt32)}

/-- An allocated run is live, apart from the others, and has gone from the free ones. -/
theorem Accounted.allocated (h : Accounted st₀ st live) (ha : Allocated st cnt sector st') :
    Accounted st₀ st' ((sector, cnt) :: live) := by
  have hfree : ∀ k, Covers (sector, cnt) k → st.bits k = false := by
    rintro k ⟨hle, hlt⟩
    have hbit := ha.least.1.2 (k - sector.toNat) (by dsimp only at hle hlt; omega)
    rwa [Nat.add_sub_cancel' hle] at hbit
  have hnone : ∀ k, Covers (sector, cnt) k → ¬ (st₀.bits k = true ∨ ∃ run ∈ live, Covers run k) := by
    intro k hk
    rw [← h.used, hfree k hk]
    exact Bool.false_ne_true
  refine ⟨ha.size.trans h.size, ha.file.trans h.file, List.forall_mem_cons.mpr ⟨?_, h.range⟩,
    List.forall_mem_cons.mpr ⟨fun k hk => ?_, h.fresh⟩, List.pairwise_cons.mpr ⟨?_, h.apart⟩, fun k => ?_⟩
  · unfold InRange
    rw [← h.size]
    exact ha.least.1.1
  · exact Bool.eq_false_iff.mpr fun hk' => hnone k hk (.inl hk')
  · exact fun run hrun k hk hk' => hnone k hk (.inr ⟨run, hrun, hk'⟩)
  · rw [ha.bits]
    by_cases hk : Covers (sector, cnt) k
    · rw [if_pos hk]
      exact iff_of_true rfl (.inr ⟨_, List.mem_cons_self .., hk⟩)
    · rw [if_neg hk, h.used]
      refine or_congr_right ⟨?_, ?_⟩
      · rintro ⟨run, hrun, hk'⟩
        exact ⟨run, List.mem_cons_of_mem _ hrun, hk'⟩
      · rintro ⟨run, hrun, hk'⟩
        rcases List.mem_cons.mp hrun with rfl | hrun
        · exact absurd hk' hk
        · exact ⟨run, hrun, hk'⟩

theorem Accounted.releasable (h : Accounted st₀ st live)
    (hw : ops.Writable (byteCnt st₀.freeMap.bitCnt).toNat W) (hfile : st₀.freeMapFile.isSome = true)
    (hgood : ∀ file ∈ st.freeMapFile, W file) {run : UInt32 × UInt32} (hrun : run ∈ live) :
    ∃ st', freeMapRelease ops st run.1 run.2 = .ok st' ∧ Released st run.1 run.2 st' ∧
      ∀ file ∈ st'.freeMapFile, W file := by
  refine freeMapRelease_ok (h.size.symm ▸ hw) (h.file.trans hfile) hgood ?_
    fun k hk => (h.used k).mpr (.inr ⟨run, hrun, hk⟩)
  unfold InRange
  rw [h.size]
  exact h.range run hrun

/-- A released run is no longer live, and its sectors are free again. -/
theorem Accounted.released (h : Accounted st₀ st live) {run : UInt32 × UInt32} (hrun : run ∈ live)
    (hr : Released st run.1 run.2 st') : Accounted st₀ st' (live.erase run) := by
  have hperm := List.perm_cons_erase hrun
  have hsymm : ∀ {r r' : UInt32 × UInt32}, (∀ k, Covers r k → ¬ Covers r' k) →
      ∀ k, Covers r' k → ¬ Covers r k := fun hno k hk hk' => hno k hk' hk
  have hpair := (hperm.pairwise_iff hsymm).mp h.apart
  obtain ⟨hothers, hrest⟩ := List.pairwise_cons.mp hpair
  have hmem : ∀ r ∈ live.erase run, r ∈ live := fun r hr => List.mem_of_mem_erase hr
  refine ⟨hr.size.trans h.size, hr.file.trans h.file, fun r hr => h.range r (hmem r hr),
    fun r hr => h.fresh r (hmem r hr), hrest, fun k => ?_⟩
  rw [hr.bits]
  by_cases hk : Covers (run.1, run.2) k
  · rw [if_pos hk]
    refine iff_of_false Bool.false_ne_true ?_
    rintro (hbefore | ⟨r, hr, hk'⟩)
    · rw [h.fresh run hrun k hk] at hbefore
      cases hbefore
    · exact hothers r hr k hk hk'
  · rw [if_neg hk, h.used]
    refine or_congr_right ⟨?_, ?_⟩
    · rintro ⟨r, hr, hk'⟩
      rcases List.mem_cons.mp (hperm.mem_iff.mp hr) with rfl | hr
      · exact absurd hk' hk
      · exact ⟨r, hr, hk'⟩
    · rintro ⟨r, hr, hk'⟩
      exact ⟨r, hmem r hr, hk'⟩

/-- After any calls the bits are accounted for, and the file can still be written. -/
theorem Runs.accounted (hw : ops.Writable (byteCnt st₀.freeMap.bitCnt).toNat W)
    (hfile : ∃ file ∈ st₀.freeMapFile, W file) (h : Runs ops st₀ st live) :
    Accounted st₀ st live ∧ ∀ file ∈ st.freeMapFile, W file := by
  obtain ⟨file₀, hmem₀, hf₀⟩ := hfile
  have hsome : st₀.freeMapFile.isSome = true := Option.isSome_iff_exists.mpr ⟨file₀, hmem₀⟩
  induction h with
  | start =>
      refine ⟨⟨rfl, rfl, fun _ h => absurd h List.not_mem_nil, fun _ h => absurd h List.not_mem_nil, .nil,
        fun k => ⟨.inl, ?_⟩⟩, fun file hmem => ?_⟩
      · rintro (h | ⟨_, h, -⟩)
        · exact h
        · exact absurd h List.not_mem_nil
      · cases hmem₀.symm.trans hmem
        exact hf₀
  | @allocate st st' live cnt sector _ hrun ih =>
      obtain ⟨hacc, hgood⟩ := ih
      rcases freeMapAllocate_ok (hacc.size ▸ hw) hgood cnt with ⟨_, _, hok, ha, hgood'⟩ | ⟨hok, -⟩
      · cases hrun.symm.trans hok
        exact ⟨hacc.allocated ha, hgood'⟩
      · cases hrun.symm.trans hok
  | @refuse st st' live cnt _ hrun ih =>
      rcases freeMapAllocate_ok (ih.1.size ▸ hw) ih.2 cnt with ⟨_, _, hok, -⟩ | ⟨hok, -⟩
      · cases hrun.symm.trans hok
      · cases hrun.symm.trans hok
        exact ih
  | release _ hmem hrun ih =>
      obtain ⟨hacc, hgood⟩ := ih
      obtain ⟨_, hok, hr, hgood'⟩ := hacc.releasable hw hsome hgood hmem
      cases hrun.symm.trans hok
      exact ⟨hacc.released hmem hr, hgood'⟩

/-- What the free map is to do after any calls: it gives the first run there is, and takes its sectors
and no others; a run that is released gives back its sectors and no others, and the map that is saved is
the map that is read. -/
structure Allocator (ops : FileOps φ) (W : φ → Prop) (st : FreeMap φ)
    (live : List (UInt32 × UInt32)) : Prop where
  finds : ∀ cnt, ∃ r st', freeMapAllocate ops st cnt = .ok (r, st') ∧
    (r.isSome = true ↔ ∃ x, FreeRun st.freeMap.toBitmap cnt.toNat x)
  first : ∀ cnt sector st', freeMapAllocate ops st cnt = .ok (some sector, st') →
    IsLeast {x | FreeRun st.freeMap.toBitmap cnt.toNat x} sector.toNat ∧
      ∀ k, st'.bits k = if Covers (sector, cnt) k then true else st.bits k
  refuses : ∀ cnt st', freeMapAllocate ops st cnt = .ok (none, st') → st' = st
  inverse : ∀ cnt sector st', freeMapAllocate ops st cnt = .ok (some sector, st') →
    ∃ st'', freeMapRelease ops st' sector cnt = .ok st'' ∧ st''.freeMap = st.freeMap
  releases : ∀ run ∈ live, ∃ st', freeMapRelease ops st run.1 run.2 = .ok st' ∧
    ∀ k, st'.bits k = if Covers run k then false else st.bits k
  saved : ∀ (b : Map) (file : φ), b.bitCnt = st.freeMap.bitCnt → W file →
    (bitmapWrite ops st.freeMap file).1 = true ∧
      ∃ b', bitmapRead ops b (bitmapWrite ops st.freeMap file).2 = .ok (true, b') ∧
        b'.bitCnt = st.freeMap.bitCnt ∧
        ∀ k < st.freeMap.bitCnt.toNat, b'.toBitmap.bits k = st.bits k

/-- After any calls on any bitmap the free map does that. -/
theorem free_map_runs (hw : ops.Writable (byteCnt st₀.freeMap.bitCnt).toNat W)
    (hfile : ∃ file ∈ st₀.freeMapFile, W file) (h : Runs ops st₀ st live) :
    Allocator ops W st live := by
  obtain ⟨hacc, hgood⟩ := h.accounted hw hfile
  have hsome₀ : st₀.freeMapFile.isSome = true := by
    obtain ⟨file, hmem, -⟩ := hfile
    exact Option.isSome_iff_exists.mpr ⟨file, hmem⟩
  have hsome : st.freeMapFile.isSome = true := hacc.file.trans hsome₀
  have hwst : ops.Writable (byteCnt st.freeMap.bitCnt).toNat W := hacc.size ▸ hw
  have hcases := freeMapAllocate_ok hwst hgood
  have hfound : ∀ {cnt sector st'}, freeMapAllocate ops st cnt = .ok (some sector, st') →
      Allocated st cnt sector st' ∧ ∀ file ∈ st'.freeMapFile, W file := by
    intro cnt sector st' hrun
    rcases hcases cnt with ⟨_, _, hok, ha⟩ | ⟨hok, -⟩
    · cases hrun.symm.trans hok
      exact ha
    · cases hrun.symm.trans hok
  refine ⟨fun cnt => ?_, fun _ _ _ hrun => ⟨(hfound hrun).1.least, (hfound hrun).1.bits⟩,
    fun cnt st' hrun => ?_, fun _ _ _ hrun => (hfound hrun).1.release hwst hsome (hfound hrun).2,
    fun run hrun => ?_, fun b file hcnt hf => ?_⟩
  · rcases hcases cnt with ⟨sector, st', hok, ha, -⟩ | ⟨hok, hno⟩
    · exact ⟨_, _, hok, iff_of_true rfl ⟨_, ha.least.1⟩⟩
    · exact ⟨_, _, hok, iff_of_false Bool.false_ne_true hno⟩
  · rcases hcases cnt with ⟨_, _, hok, -⟩ | ⟨hok, -⟩
    · cases hrun.symm.trans hok
    · cases hrun.symm.trans hok
      rfl
  · obtain ⟨st', hok, hr, -⟩ := hacc.releasable hw hsome₀ hgood hrun
    exact ⟨st', hok, hr.bits⟩
  · obtain ⟨b', hread, hsize, hbits⟩ := bitmapRead_write hwst hcnt hf
    refine ⟨bitmapWrite_true hwst hf, b', hread, hsize, fun k hk => ?_⟩
    rw [hbits, decide_eq_true hk, Bool.true_and]
    rfl

/-- Files of bytes that do not grow: what is behind the end is not written. -/
def byteFile : FileOps (List UInt8) :=
  ⟨fun file n => file.take n, fun file bytes =>
    (min bytes.length file.length, bytes.take file.length ++ file.drop bytes.length)⟩

theorem byteFile_writable (n : Nat) : byteFile.Writable n fun file => n ≤ file.length := by
  have htake : ∀ file bytes : List UInt8, n ≤ file.length → bytes.length = n →
      bytes.take file.length = bytes := fun file bytes hf hb => List.take_of_length_le (by omega)
  refine ⟨fun file bytes hf hb => ?_, fun file bytes hf hb => ?_, fun file bytes hf hb => ?_⟩
  · show min bytes.length file.length = n
    omega
  · show (bytes.take file.length ++ file.drop bytes.length).take n = bytes
    rw [htake file bytes hf hb, ← hb]
    exact List.take_left
  · show n ≤ (bytes.take file.length ++ file.drop bytes.length).length
    rw [htake file bytes hf hb, List.length_append]
    omega

/-- A map of 40 sectors, the first 24 of them used, with rubbish behind the last. -/
def fortyMap : FreeMap (List UInt8) :=
  ⟨⟨40, [0xffffff, 0xffffff00], by decide, rfl⟩, some [255, 255, 255, 0, 0, 255, 255, 255, 9]⟩

/-- Ten sectors are taken, two of them in the second element; seven more are refused; the ten are
given back, and three are taken. -/
theorem free_map_runs_forty : ∃ st : FreeMap (List UInt8),
    Runs byteFile fortyMap st [(24, 3)] ∧
    st.freeMap.bits = [0x7ffffff, 0xffffff00] ∧
    st.freeMapFile = some [255, 255, 255, 7, 0, 255, 255, 255, 9] ∧
    Allocator byteFile (8 ≤ ·.length) st [(24, 3)] := by
  have hten : Runs byteFile fortyMap
      ⟨⟨40, [0xffffffff, 0xffffff03], by decide, rfl⟩, some [255, 255, 255, 255, 3, 255, 255, 255, 9]⟩
      [(24, 10)] := .allocate .start rfl
  have hrefuse : freeMapAllocate byteFile
      ⟨⟨40, [0xffffffff, 0xffffff03], by decide, rfl⟩, some [255, 255, 255, 255, 3, 255, 255, 255, 9]⟩ 7 =
      .ok (none, _) := rfl
  have hback : Runs byteFile fortyMap fortyMap [] := .release (hten.refuse hrefuse) (.head _) rfl
  have hthree : Runs byteFile fortyMap
      ⟨⟨40, [0x7ffffff, 0xffffff00], by decide, rfl⟩, some [255, 255, 255, 7, 0, 255, 255, 255, 9]⟩
      [(24, 3)] := .allocate hback rfl
  have hw : byteFile.Writable (byteCnt fortyMap.freeMap.bitCnt).toNat fun file => 8 ≤ file.length :=
    byteFile_writable 8
  exact ⟨_, hthree, rfl, rfl, free_map_runs hw ⟨_, rfl, by decide⟩ hthree⟩

end

end CS162.Fs.Elem
