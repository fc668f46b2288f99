/-
# `CS162.Lib.Mem` — memory as bytes

Memory is a byte for each address.  A number of `w` bytes is stored with its low byte
first.  What a load sees depends on its `w` bytes only (`load_congr`), so stores, fills
and copies elsewhere do not change it.  Nothing here names a program.
-/
import Mathlib.Algebra.Group.Nat.Defs
import Mathlib.Tactic.Common

namespace Mem

/-- A byte for each address. -/
abbrev Bytes := Nat → UInt8

/-- The number in the `w` bytes from `a` on. -/
def load (m : Bytes) (a : Nat) : Nat → Nat
  | 0 => 0
  | w + 1 => (m a).toNat + 256 * load m (a + 1) w

/-- Byte `i` of a number. -/
def byteOf (v : Nat) : Nat → UInt8
  | 0 => UInt8.ofNat v
  | i + 1 => byteOf (v / 256) i

def store (m : Bytes) (a w v : Nat) : Bytes := fun x =>
  if a ≤ x ∧ x < a + w then byteOf v (x - a) else m x

/-- `memset`. -/
def fill (m : Bytes) (a n : Nat) (b : UInt8) : Bytes := fun x => if a ≤ x ∧ x < a + n then b else m x

/-- `memcpy`. -/
def copy (m : Bytes) (dst src n : Nat) : Bytes := fun x =>
  if dst ≤ x ∧ x < dst + n then m (src + (x - dst)) else m x

variable {m m' : Bytes} {a b w n v x : Nat}

theorem load_congr (h : ∀ x, a ≤ x → x < a + w → m' x = m x) : load m' a w = load m a w := by
  induction w generalizing a with
  | zero => rfl
  | succ w ih =>
      unfold load
      rw [h a (Nat.le_refl a) (by omega), ih fun x hx hlt => h x (by omega) (by omega)]

/-- What was stored is loaded. -/
theorem load_of_bytes (h : ∀ i < w, m (a + i) = byteOf v i) (hv : v < 256 ^ w) : load m a w = v := by
  induction w generalizing a v with
  | zero =>
      have hz : v = 0 := by simpa using hv
      exact hz.symm
  | succ w ih =>
      have hlow : (m a).toNat = v % 256 := by
        have h0 := h 0 (Nat.succ_pos w)
        rw [Nat.add_zero] at h0
        rw [h0]
        simp [byteOf]
      have hhigh : load m (a + 1) w = v / 256 := by
        refine ih (fun i hi => ?_) ?_
        · have hi' := h (i + 1) (by omega)
          rw [show a + 1 + i = a + (i + 1) by omega, hi']
          rfl
        · rw [Nat.pow_succ] at hv
          exact Nat.div_lt_of_lt_mul (by rwa [Nat.mul_comm])
      unfold load
      rw [hlow, hhigh]
      omega

theorem load_store (hv : v < 256 ^ w) : load (store m a w v) a w = v := by
  refine load_of_bytes (fun i hi => ?_) hv
  unfold store
  rw [if_pos ⟨by omega, by omega⟩, show a + i - a = i by omega]

theorem load_store_other {w' : Nat} (h : b + w' ≤ a ∨ a + w ≤ b) :
    load (store m a w v) b w' = load m b w' :=
  load_congr fun x hx hlt => if_neg (by omega)

/-- Storing what is there changes nothing. -/
theorem store_load (m : Bytes) (a w : Nat) : store m a w (load m a w) = m := by
  have hbyte : ∀ i < w, byteOf (load m a w) i = m (a + i) := by
    induction w generalizing a with
    | zero => exact fun i hi => absurd hi (Nat.not_lt_zero i)
    | succ w ih =>
        intro i hi
        have hlt := (m a).toNat_lt
        cases i with
        | zero =>
            apply UInt8.toNat_inj.mp
            simp only [byteOf, load, UInt8.toNat_ofNat', Nat.add_zero]
            omega
        | succ i =>
            have hdiv : load m a (w + 1) / 256 = load m (a + 1) w := by
              show ((m a).toNat + 256 * load m (a + 1) w) / 256 = _
              omega
            unfold byteOf
            rw [hdiv, ih (a + 1) i (by omega), show a + 1 + i = a + (i + 1) by omega]
  funext x
  unfold store
  split
  · next hx => rw [hbyte _ (by omega), show a + (x - a) = x by omega]
  · rfl

theorem copy_self (m : Bytes) (a n : Nat) : copy m a a n = m := by
  funext x
  unfold copy
  split
  · next hx => rw [show a + (x - a) = x by omega]
  · rfl

theorem store_other (hx : x < a ∨ a + w ≤ x) : store m a w v x = m x := if_neg (by omega)

theorem fill_other {c : UInt8} (hx : x < a ∨ a + n ≤ x) : fill m a n c x = m x := if_neg (by omega)

theorem copy_other (hx : x < a ∨ a + n ≤ x) : copy m a b n x = m x := if_neg (by omega)

/-! ## Strings -/

/-- A string with its null byte. -/
def Text (m : Bytes) : Nat → List UInt8 → Prop
  | a, [] => m a = 0
  | a, c :: l => m a = c ∧ c ≠ 0 ∧ Text m (a + 1) l

variable {l : List UInt8}

theorem text_of_get (hget : ∀ i ≤ l.length, m (a + i) = l.getD i 0) (hne : ∀ c ∈ l, c ≠ 0) :
    Text m a l := by
  induction l generalizing a with
  | nil => exact hget 0 (Nat.le_refl 0)
  | cons c l ih =>
      refine ⟨hget 0 (Nat.zero_le _), hne c List.mem_cons_self, ih (fun i hi => ?_) fun d hd =>
        hne d (List.mem_cons_of_mem c hd)⟩
      have hi' := hget (i + 1) (Nat.succ_le_succ hi)
      rw [Nat.add_assoc, Nat.add_comm 1 i, hi']
      rfl

theorem Text.congr (h : Text m a l) (heq : ∀ x, a ≤ x → x ≤ a + l.length → m' x = m x) :
    Text m' a l := by
  induction l generalizing a with
  | nil => exact (heq a (Nat.le_refl a) (Nat.le_add_right ..)).trans h
  | cons c l ih =>
      obtain ⟨hc, hne, hrest⟩ := h
      rw [List.length_cons] at heq
      exact ⟨(heq a (Nat.le_refl a) (Nat.le_add_right ..)).trans hc, hne,
        ih hrest fun x hx hle => heq x (by omega) (by omega)⟩

/-- The string starts as another does. -/
theorem Text.append {l' : List UInt8} (h : Text m a (l ++ l')) : Text m (a + l.length) l' := by
  induction l generalizing a with
  | nil => exact h
  | cons c l ih =>
      rw [List.length_cons, Nat.add_comm l.length, ← Nat.add_assoc]
      exact ih h.2.2

/-- A null byte cuts a string off. -/
theorem Text.cut {l' : List UInt8} (h : Text m a (l ++ l')) :
    Text (Function.update m (a + l.length) 0) a l := by
  induction l generalizing a with
  | nil => exact Function.update_self ..
  | cons c l ih =>
      obtain ⟨hc, hne, hrest⟩ := h
      refine ⟨(Function.update_of_ne ?_ ..).trans hc, hne, ?_⟩
      · rw [List.length_cons]
        omega
      · rw [List.length_cons, Nat.add_comm l.length, ← Nat.add_assoc]
        exact ih hrest

theorem Text.copy {src dst : Nat} (h : Text m src l) :
    Text (Function.update (copy m dst src l.length) (dst + l.length) 0) dst l := by
  suffices hgen : ∀ k l' n, Text m (src + k) l' → k + l'.length = n →
      Text (Function.update (Mem.copy m dst src n) (dst + n) 0) (dst + k) l' by
    exact hgen 0 l l.length h (Nat.zero_add _)
  intro k l'
  induction l' generalizing k with
  | nil =>
      rintro n - rfl
      exact Function.update_self ..
  | cons c l' ih =>
      rintro n ⟨hc, hne, hrest⟩ hn
      rw [List.length_cons] at hn
      refine ⟨(Function.update_of_ne (by omega) ..).trans ?_, hne, ih (k + 1) n hrest (by omega)⟩
      unfold Mem.copy
      rw [if_pos ⟨by omega, by omega⟩, show src + (dst + k - dst) = src + k by omega]
      exact hc

end Mem
