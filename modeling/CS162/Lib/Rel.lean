/-
# `CS162.Lib.Rel` — two runs side by side

Two programs with error exit, run from related states, are *alike* if both return, with
related values, or both stop for the same reason, and the states they leave are related
again.  The rules follow the programs: a proof that two programs are alike is one rule
for each `do` step.

A program that is alike with itself for a relation `s = t ∧ P s` keeps `P`; for a
relation `t = f s` it does not see what `f` changes.  Nothing here names a program.
-/
import Mathlib.Tactic.Common

namespace Rel

variable {ε σ τ α β γ δ : Type}

/-- Two ways to end, side by side. -/
def Outcomes (R : σ → τ → Prop) (A : α → β → Prop) :
    EStateM.Result ε σ α → EStateM.Result ε τ β → Prop
  | .ok a s, .ok b t => A a b ∧ R s t
  | .error e s, .error e' t => e = e' ∧ R s t
  | _, _ => False

/-- Run from related states, the two programs end alike. -/
def Alike (R : σ → τ → Prop) (A : α → β → Prop) (x : EStateM ε σ α) (y : EStateM ε τ β) : Prop :=
  ∀ s t, R s t → Outcomes R A (x s) (y t)

variable {R : σ → τ → Prop} {A : α → β → Prop} {B : γ → δ → Prop} {x : EStateM ε σ α}
  {y : EStateM ε τ β} {f : α → EStateM ε σ γ} {g : β → EStateM ε τ δ}

theorem alike_pure {a : α} {b : β} (h : A a b) :
    Alike R A (pure a : EStateM ε σ α) (pure b : EStateM ε τ β) :=
  fun _ _ hR => ⟨h, hR⟩

theorem alike_throw (e : ε) : Alike R A (throw e : EStateM ε σ α) (throw e : EStateM ε τ β) :=
  fun _ _ hR => ⟨rfl, hR⟩

theorem alike_get : Alike R R (get : EStateM ε σ σ) (get : EStateM ε τ τ) :=
  fun _ _ hR => ⟨hR, hR⟩

theorem alike_modify {u : σ → σ} {w : τ → τ} (h : ∀ s t, R s t → R (u s) (w t)) :
    Alike R Eq (modify u : EStateM ε σ PUnit) (modify w : EStateM ε τ PUnit) :=
  fun s t hR => ⟨rfl, h s t hR⟩

/-- The rule of sequencing, from two given states. -/
theorem outcomes_bind {s : σ} {t : τ} (h : Outcomes R A (x s) (y t))
    (hf : ∀ a b, A a b → Alike R B (f a) (g b)) : Outcomes R B ((x >>= f) s) ((y >>= g) t) := by
  show Outcomes R B (EStateM.bind x f s) (EStateM.bind y g t)
  unfold EStateM.bind
  cases hs : x s with
  | ok a s' =>
      cases ht : y t with
      | ok b t' =>
          rw [hs, ht] at h
          exact hf a b h.1 s' t' h.2
      | error e t' =>
          rw [hs, ht] at h
          exact h.elim
  | error e s' =>
      cases ht : y t with
      | ok b t' =>
          rw [hs, ht] at h
          exact h.elim
      | error e' t' =>
          rw [hs, ht] at h
          exact h

/-- The rule of sequencing. -/
theorem alike_bind (hx : Alike R A x y) (hf : ∀ a b, A a b → Alike R B (f a) (g b)) :
    Alike R B (x >>= f) (y >>= g) :=
  fun s t hR => outcomes_bind (hx s t hR) hf

/-- Sequencing after a program that returns the same value on both sides. -/
theorem alike_seq {y : EStateM ε τ α} {g : α → EStateM ε τ δ} (hx : Alike R Eq x y)
    (hf : ∀ a, Alike R B (f a) (g a)) : Alike R B (x >>= f) (y >>= g) :=
  alike_bind hx fun a _ hab => hab ▸ hf a

theorem alike_ite {c : Prop} [Decidable c] {x' : EStateM ε σ α} {y' : EStateM ε τ β}
    (h : c → Alike R A x y) (h' : ¬ c → Alike R A x' y') :
    Alike R A (if c then x else x') (if c then y else y') := by
  by_cases hc : c
  · rw [if_pos hc, if_pos hc]
    exact h hc
  · rw [if_neg hc, if_neg hc]
    exact h' hc

/-- Programs that end alike return together. -/
theorem Outcomes.ok {s s' : σ} {t : τ} {a : α} (h : Outcomes R A (x s) (y t))
    (hx : x s = .ok a s') : ∃ b t', y t = .ok b t' ∧ A a b ∧ R s' t' := by
  rw [hx] at h
  cases ht : y t with
  | ok b t' =>
      rw [ht] at h
      exact ⟨b, t', rfl, h⟩
  | error e t' =>
      rw [ht] at h
      exact h.elim

end Rel
