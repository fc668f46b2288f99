/-
# `CS162.Lib.Threads` — many threads over one shared state

A system of threads is a family of local states `T → α` next to whatever they
share.  A step changes the local state of one thread.  Reference counts,
tickets, tokens and the like are then cardinalities of "the threads whose local
state satisfies `p`"; `count_update` says how such a count moves when one thread
steps.  `invariant_of_step` is the induction over runs, stated once.
-/
import Mathlib.Data.Fintype.Card
import Mathlib.Data.Finset.Card
import Mathlib.Logic.Relation
import Mathlib.Algebra.BigOperators.Ring.Finset

namespace Threads

/-! ## Runs -/

/-- What holds at the start and is kept by every step holds in every reachable
state. -/
theorem invariant_of_step {σ : Type*} {Step : σ → σ → Prop} {I : σ → Prop} {s s' : σ}
    (hrun : Relation.ReflTransGen Step s s') (h0 : I s)
    (hstep : ∀ a b, I a → Step a b → I b) : I s' := by
  induction hrun with
  | refl => exact h0
  | tail _ hs ih => exact hstep _ _ ih hs

/-! ## Counting threads -/

variable {T α : Type*} [Fintype T]

/-- How many threads are in a local state satisfying `p`. -/
def count (p : α → Prop) [DecidablePred p] (f : T → α) : Nat :=
  (Finset.univ.filter fun t => p (f t)).card

variable {p : α → Prop} [DecidablePred p] {f : T → α}

theorem count_pos {t : T} (h : p (f t)) : 0 < count p f :=
  Finset.card_pos.mpr ⟨t, by simp [h]⟩

theorem count_eq_zero : count p f = 0 ↔ ∀ t, ¬ p (f t) := by
  simp [count, Finset.card_eq_zero, Finset.filter_eq_empty_iff]

/-- Nobody is counted when everybody is in the same uncounted state. -/
theorem count_const {a : α} (h : ¬ p a) : count p (fun _ : T => a) = 0 :=
  count_eq_zero.mpr fun _ => h

variable [DecidableEq T]

/-- When one thread moves, the count moves by that thread alone. -/
theorem count_update (t : T) (a : α) :
    count p (Function.update f t a) + (if p (f t) then 1 else 0)
      = count p f + (if p a then 1 else 0) := by
  simp only [count, Finset.card_filter]
  rw [← Finset.add_sum_erase _ _ (Finset.mem_univ t),
    ← Finset.add_sum_erase (f := fun s => if p (f s) then 1 else 0) _ (Finset.mem_univ t)]
  have h : ∑ s ∈ Finset.univ.erase t, (if p (Function.update f t a s) then 1 else 0)
      = ∑ s ∈ Finset.univ.erase t, if p (f s) then 1 else 0 := by
    refine Finset.sum_congr rfl fun s hs => ?_
    rw [Function.update_of_ne (Finset.ne_of_mem_erase hs)]
  rw [h, Function.update_self]
  omega

theorem count_update_same {t : T} {a : α} (h : p (f t) ↔ p a) :
    count p (Function.update f t a) = count p f := by
  have := count_update (p := p) (f := f) t a
  by_cases ha : p a
  · rw [if_pos ha, if_pos (h.mpr ha)] at this
    omega
  · rw [if_neg ha, if_neg (fun hf => ha (h.mp hf))] at this
    omega

theorem count_update_enter {t : T} {a : α} (hf : ¬ p (f t)) (ha : p a) :
    count p (Function.update f t a) = count p f + 1 := by
  have := count_update (p := p) (f := f) t a
  rwa [if_neg hf, if_pos ha, Nat.add_zero] at this

theorem count_update_leave {t : T} {a : α} (hf : p (f t)) (ha : ¬ p a) :
    count p (Function.update f t a) = count p f - 1 := by
  have := count_update (p := p) (f := f) t a
  rw [if_pos hf, if_neg ha] at this
  omega

/-! ## Locks

A lock is a holder; what it protects is stated through the local states in which
a thread holds it.  `Holds l H f` says the two agree. -/

/-- The holder of the lock is the thread whose local state says so. -/
def Holds (l : Option T) (H : α → Prop) (f : T → α) : Prop := ∀ t, l = some t ↔ H (f t)

namespace Holds

variable {l : Option T} {H : α → Prop} {t t' : T} {a : α}

omit [Fintype T] in
/-- A step that leaves the lock alone. -/
theorem same (h : Holds l H f) (ha : H (f t) ↔ H a) : Holds l H (Function.update f t a) := by
  intro t'
  by_cases ht : t' = t
  · rw [ht, Function.update_self, h t, ha]
  · rw [Function.update_of_ne ht, h t']

omit [Fintype T] in
theorem acquire (h : Holds none H f) (ha : H a) : Holds (some t) H (Function.update f t a) := by
  intro t'
  by_cases ht : t' = t
  · rw [ht, Function.update_self]
    exact ⟨fun _ => ha, fun _ => rfl⟩
  · rw [Function.update_of_ne ht, ← h t']
    simp [Ne.symm ht]

omit [Fintype T] in
theorem release (h : Holds l H f) (ht : H (f t)) (ha : ¬ H a) :
    Holds none H (Function.update f t a) := by
  intro t'
  by_cases htt : t' = t
  · rw [htt, Function.update_self]
    simp [ha]
  · rw [Function.update_of_ne htt, ← h t', (h t).mpr ht]
    simp [Ne.symm htt]

omit [Fintype T] [DecidableEq T] in
/-- Mutual exclusion. -/
theorem unique (h : Holds l H f) (ht : H (f t)) (ht' : H (f t')) : t' = t := by
  have h1 := (h t).mpr ht
  have h2 := (h t').mpr ht'
  rw [h1] at h2
  exact (Option.some.inj h2).symm

end Holds

end Threads
