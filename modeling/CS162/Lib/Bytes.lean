/-
# `CS162.Lib.Bytes` — fixed-size byte blocks and the words stored in them

A `Block n` is an array of `n` bytes.  The three things a storage layer does with
one are copied from C's `memcpy` and pointer casts: `slice` copies bytes out,
`splice` copies bytes in, and `word` reads the block as an array of
little-endian 32-bit words (`ofWords` writes such an array).  The lemmas say how
these act byte by byte and that words written are words read.
-/
import Mathlib.Algebra.Group.Nat.Defs
import Mathlib.Tactic.Common

namespace Bytes

/-- An array of `n` bytes. -/
abbrev Block (n : Nat) := Fin n → UInt8

namespace Block

variable {n : Nat}

/-- Byte `i`; past the end there is nothing, read as `0`. -/
def get (b : Block n) (i : Nat) : UInt8 :=
  if h : i < n then b ⟨i, h⟩ else 0

theorem ext_get {a b : Block n} (h : ∀ i < n, a.get i = b.get i) : a = b := by
  funext i
  have := h i.val i.isLt
  simpa [get] using this

@[simp] theorem get_fin (b : Block n) (i : Fin n) : b.get i.val = b i := by
  simp [get]

/-- The block with the same byte everywhere. -/
def fill (v : UInt8) : Block n := fun _ => v

theorem get_fill {v : UInt8} {i : Nat} (h : i < n) : (fill v : Block n).get i = v := by
  simp [get, fill, h]

/-- `len` bytes from offset `off`: `memcpy (buffer, b + off, len)`. -/
def slice (b : Block n) (off len : Nat) : List UInt8 :=
  (List.range len).map fun k => b.get (off + k)

@[simp] theorem length_slice (b : Block n) (off len : Nat) : (b.slice off len).length = len := by
  simp [slice]

theorem getElem?_slice (b : Block n) {off len k : Nat} (h : k < len) :
    (b.slice off len)[k]? = some (b.get (off + k)) := by
  simp [slice, h]

/-- The block with `buf` copied in at `off`: `memcpy (b + off, buf, len)`. -/
def splice (b : Block n) (off : Nat) (buf : List UInt8) : Block n :=
  fun i => if off ≤ i.val ∧ i.val < off + buf.length then buf.getD (i.val - off) 0 else b i

theorem get_splice (b : Block n) {off i : Nat} {buf : List UInt8} (hi : i < n) :
    (b.splice off buf).get i =
      if off ≤ i ∧ i < off + buf.length then buf.getD (i - off) 0 else b.get i := by
  simp [get, splice, hi]

/-- Copying a whole block in replaces it. -/
theorem splice_slice_self (a b : Block n) : a.splice 0 (b.slice 0 n) = b := by
  refine ext_get fun i hi => ?_
  rw [get_splice a hi, length_slice, if_pos (by omega), List.getD_eq_getElem?_getD,
    getElem?_slice b (by omega)]
  simp

/-- A list of bytes as a block, short lists filled up with zeros. -/
def ofList (l : List UInt8) : Block n := fun i => l.getD i.val 0

@[simp] theorem ofList_slice (b : Block n) : (ofList (b.slice 0 n) : Block n) = b := by
  funext i
  rw [ofList, List.getD_eq_getElem?_getD, getElem?_slice b i.isLt]
  simp

/-! ## Words -/

/-- Four bytes, low end first, as a word. -/
def join (b₀ b₁ b₂ b₃ : UInt8) : UInt32 :=
  UInt32.ofNat (b₀.toNat + 256 * b₁.toNat + 65536 * b₂.toNat + 16777216 * b₃.toNat)

/-- Byte `k` of a word, counted from the low end. -/
def byteOf (w : UInt32) (k : Nat) : UInt8 := UInt8.ofNat (w.toNat / 256 ^ k)

/-- Little-endian word `j` of the block. -/
def word (b : Block n) (j : Nat) : UInt32 :=
  join (b.get (4 * j)) (b.get (4 * j + 1)) (b.get (4 * j + 2)) (b.get (4 * j + 3))

/-- The block whose words are `w 0, w 1, …`. -/
def ofWords (w : Nat → UInt32) : Block n := fun i => byteOf (w (i.val / 4)) (i.val % 4)

theorem join_bytes (w : UInt32) :
    join (byteOf w 0) (byteOf w 1) (byteOf w 2) (byteOf w 3) = w := by
  apply UInt32.toNat_inj.mp
  have hw := w.toNat_lt
  simp only [join, byteOf, UInt8.toNat_ofNat', UInt32.toNat_ofNat']
  omega

theorem word_ofWords (w : Nat → UInt32) {j : Nat} (h : 4 * j + 3 < n) :
    (ofWords w : Block n).word j = w j := by
  have e : ∀ k < 4, (ofWords w : Block n).get (4 * j + k) = byteOf (w j) k := by
    intro k hk
    have h1 : 4 * j + k < n := by omega
    have h2 : (4 * j + k) / 4 = j := by omega
    have h3 : (4 * j + k) % 4 = k := by omega
    simp [get, ofWords, h1, h2, h3]
  have e0 := e 0 (by omega)
  rw [Nat.add_zero] at e0
  rw [word, e0, e 1 (by omega), e 2 (by omega), e 3 (by omega), join_bytes]

end Block

end Bytes
