/-
# `CS162.Hw3.MmAlloc` — `hw3/mm_alloc.c`

The allocator over byte memory.  Pointers are 64 bits wide, so `struct mem_block` is

    0    size
    8    next
    16   prev
    24   free            4 bytes
    32   actual_memory

and `META_SIZE` is its size.  `actual_memory` is an array of `char *`: `actual_memory + s`
is `8 * s` bytes further on.  Arithmetic on `size_t` and pointers is modulo `2 ^ 64`.

`sbrk` is the kernel's: the break moves by a signed amount and the old one is returned,
or, where the new break would leave `[base, limit]`, nothing moves and the result is
`(void *) -1`.  `increase_mem` keeps only the low 32 bits of the result to see whether it
failed.

The loop of `mm_malloc` runs over the list.  No list without a cycle has more than
`2 ^ 64` blocks, so a search that takes longer does not end (`none`).
-/
import Mathlib.Algebra.Group.Int.Defs
import CS162.Lib.Mem

namespace CS162.Hw3

open Mem

/-- `META_SIZE`. -/
abbrev metaSize : Nat := 0x20

/-- The globals, the memory and the break. -/
structure Heap where
  mem : Bytes
  head : Nat
  last : Nat
  brk : Nat
  base : Nat
  limit : Nat

namespace Heap

def size (h : Heap) (b : Nat) : Nat := load h.mem b 8
def next (h : Heap) (b : Nat) : Nat := load h.mem (b + 8) 8
def prev (h : Heap) (b : Nat) : Nat := load h.mem (b + 16) 8
def free (h : Heap) (b : Nat) : Nat := load h.mem (b + 24) 4

def setSize (h : Heap) (b v : Nat) : Heap := { h with mem := store h.mem b 8 v }
def setNext (h : Heap) (b v : Nat) : Heap := { h with mem := store h.mem (b + 8) 8 v }
def setPrev (h : Heap) (b v : Nat) : Heap := { h with mem := store h.mem (b + 16) 8 v }
def setFree (h : Heap) (b v : Nat) : Heap := { h with mem := store h.mem (b + 24) 4 v }

def memset (h : Heap) (a n : Nat) : Heap := { h with mem := fill h.mem a n 0 }
def memcpy (h : Heap) (dst src n : Nat) : Heap := { h with mem := copy h.mem dst src n }

/-- A `size_t` as the `intptr_t` that `sbrk` takes. -/
def signed (n : Nat) : Int := if n < 2 ^ 63 then n else n - 2 ^ 64

/-- `sbrk`. -/
def sbrk (h : Heap) (increment : Nat) : Nat × Heap :=
  let brk : Int := h.brk + signed increment
  if h.base ≤ brk ∧ brk ≤ h.limit then (h.brk, { h with brk := brk.toNat }) else (2 ^ 64 - 1, h)

/-- `increase_mem`; it does not use its first argument. -/
def increaseMem (h : Heap) (size : Nat) : Nat × Heap :=
  let newBlock := h.brk
  let (r, h) := h.sbrk ((metaSize + size) % 2 ^ 64)
  -- the result as an `int` is negative
  if 2 ^ 31 ≤ r % 2 ^ 32 then (0, h)
  else
    let h := h.setSize newBlock size
    let h := h.setPrev newBlock 0
    let h := h.setFree newBlock 0
    let h := h.setNext newBlock 0
    if h.head = 0 then (newBlock, { h with head := newBlock, last := newBlock })
    else
      let h := h.setPrev newBlock h.last
      let h := h.setNext h.last newBlock
      (newBlock, { h with last := newBlock })

/-- `split`. -/
def split (h : Heap) (start s : Nat) : Heap :=
  let middle := (start + metaSize + 8 * s) % 2 ^ 64
  let h := h.setSize start s
  let h := h.setNext middle (h.next start)
  let h := h.setPrev middle start
  let h := h.setNext start middle
  let h := h.setFree middle 1
  h.setSize middle ((h.size start + 2 ^ 65 - s - 2 * metaSize) % 2 ^ 64)

/-- The loop of `mm_malloc`: a free block that is large enough, or `NULL`. -/
def search (h : Heap) (size : Nat) : Nat → Nat → Option Nat
  | 0, _ => none
  | fuel + 1, temp =>
      if temp = 0 then some 0
      else if h.free temp = 1 ∧ size ≤ h.size temp then some temp
      else search h size fuel (h.next temp)

def firstFit (h : Heap) (size : Nat) : Option Nat := h.search size (2 ^ 64) h.head

/-- `mm_malloc`, when the search has ended in `temp`. -/
def take (h : Heap) (size temp : Nat) : Nat × Heap :=
  if temp = 0 then
    let (temp, h) := h.increaseMem size
    if temp = 0 then (0, h) else (temp + metaSize, h)
  else if (size + 2 * metaSize) % 2 ^ 64 < h.size temp then (temp + metaSize, h.split temp size)
  else (temp + metaSize, h.setFree temp 0)

/-- `mm_malloc`.  With `head == NULL` the search ends at once, in `NULL`. -/
def mmMalloc (h : Heap) (size : Nat) : Option (Nat × Heap) :=
  if size = 0 then some (0, h) else (h.firstFit size).map (h.take size)

/-- The header of the block that `ptr` was returned for. -/
def header (ptr : Nat) : Nat := (ptr + 2 ^ 64 - metaSize) % 2 ^ 64

/-- `mm_free`. -/
def mmFree (h : Heap) (ptr : Nat) : Heap :=
  if ptr = 0 then h
  else
    let temp := header ptr
    let h := h.setFree temp 1
    h.memset (temp + metaSize) (h.size temp)

/-- What `mm_realloc` does once it has the new block: it puts it in the place of the old
one and moves the bytes. -/
def replace (h : Heap) (ptr newPtr size : Nat) : Heap :=
  let temp := header ptr
  let newTemp := header newPtr
  let h := h.setPrev newTemp (h.prev temp)
  let h := h.setNext newTemp (h.next temp)
  let h := if h.prev temp ≠ 0 then h.setNext (h.prev temp) newTemp else h
  let h := if h.next temp ≠ 0 then h.setPrev (h.next temp) newTemp else h
  let h := h.memset newPtr size
  let h := if h.size temp ≤ h.size newTemp then h.memcpy newPtr ptr (h.size temp)
    else h.memcpy newPtr ptr (h.size newTemp)
  h.memset (temp + metaSize) (h.size temp)

/-- `mm_realloc`.  Where it says `return;` the value is whatever the register holds. -/
def mmRealloc (h : Heap) (ptr size register : Nat) : Option (Nat × Heap) :=
  if size = 0 then some (0, h.mmFree ptr)
  else if ptr = 0 then (h.mmMalloc size).map fun r => (register, r.2)
  else
    match (h.setFree (header ptr) 1).mmMalloc size with
    | none => none
    | some (newPtr, h) => if newPtr = 0 then some (0, h) else some (newPtr, h.replace ptr newPtr size)

end Heap

/-! ## Runs -/

/-- The heap, and the pointers the program holds with the sizes it asked for. -/
structure St where
  heap : Heap
  live : List (Nat × Nat)

inductive Op where
  | malloc (n : Nat)
  | realloc (p n : Nat)
  | free (p : Nat)

namespace St

/-- Before the first call. -/
def init (base limit : Nat) (mem : Bytes) : St := ⟨⟨mem, 0, 0, base, base, limit⟩, []⟩

def Live (s : St) (p : Nat) : Prop := ∃ e ∈ s.live, e.1 = p

instance (s : St) (p : Nat) : Decidable (s.Live p) := inferInstanceAs (Decidable (∃ e ∈ s.live, e.1 = p))

/-- The other pointers. -/
def drop (s : St) (p : Nat) : List (Nat × Nat) := s.live.filter fun e => e.1 ≠ p

end St

/-- One call; `none` if it does not return or may not be made. -/
def step (s : St) : Op → Option St
  | .malloc n =>
      if 0 < n ∧ n < 2 ^ 64 then
        (s.heap.mmMalloc n).map fun r => ⟨r.2, if r.1 = 0 then s.live else (r.1, n) :: s.live⟩
      else none
  | .realloc p n =>
      if s.Live p ∧ n < 2 ^ 64 then
        (s.heap.mmRealloc p n 0).map fun r =>
          if n = 0 then ⟨r.2, s.drop p⟩
          else if r.1 = 0 then ⟨r.2, s.live⟩
          else ⟨r.2, (r.1, n) :: s.drop p⟩
      else none
  | .free p => if s.Live p then some ⟨s.heap.mmFree p, s.drop p⟩ else none

end CS162.Hw3
