/-
# `CS162.Lib.Wp` — weakest preconditions for state with error exit

A kernel routine either returns, leaving a state, or stops the machine (a failed
assertion, an access past the end of a device, a stack overflow), also leaving a
state.  Core's `EStateM ε σ` is exactly that.  This module gives it the rules of
a Hoare logic: `wp x Q E s` says that running `x` from `s` either returns in a
state satisfying `Q` or stops in one satisfying `E`.

With `E` everywhere false this is total correctness; with a weaker `E` it says
which ways of stopping remain possible.  Nothing here names a program.
-/
import Mathlib.Tactic.Common

namespace Wp

variable {ε σ α β : Type}

/-- `x`, run from `s`, returns in `Q` or stops in `E`. -/
def wp (x : EStateM ε σ α) (Q : α → σ → Prop) (E : ε → σ → Prop) (s : σ) : Prop :=
  match x s with
  | .ok a s' => Q a s'
  | .error e s' => E e s'

/-- No way of stopping is allowed: total correctness. -/
def never : ε → σ → Prop := fun _ _ => False

variable {x : EStateM ε σ α} {f : α → EStateM ε σ β} {s s' : σ}
  {Q Q' : α → σ → Prop} {R : β → σ → Prop} {E E' : ε → σ → Prop}

theorem wp_ok {a : α} (h : x s = .ok a s') : wp x Q E s ↔ Q a s' := by
  simp only [wp, h]

theorem wp_error {e : ε} (h : x s = .error e s') : wp x Q E s ↔ E e s' := by
  simp only [wp, h]

@[simp] theorem wp_pure (a : α) : wp (pure a : EStateM ε σ α) Q E s ↔ Q a s := Iff.rfl

@[simp] theorem wp_throw (e : ε) : wp (throw e : EStateM ε σ α) Q E s ↔ E e s := Iff.rfl

@[simp] theorem wp_get {Q : σ → σ → Prop} : wp (get : EStateM ε σ σ) Q E s ↔ Q s s := Iff.rfl

@[simp] theorem wp_set {Q : PUnit → σ → Prop} (t : σ) :
    wp (set t : EStateM ε σ PUnit) Q E s ↔ Q ⟨⟩ t := Iff.rfl

@[simp] theorem wp_modify {Q : PUnit → σ → Prop} (g : σ → σ) :
    wp (modify g : EStateM ε σ PUnit) Q E s ↔ Q ⟨⟩ (g s) := Iff.rfl

/-- The rule of sequencing. -/
theorem wp_bind : wp (x >>= f) R E s ↔ wp x (fun a t => wp (f a) R E t) E s := by
  show (match EStateM.bind x f s with | .ok a s' => R a s' | .error e s' => E e s') ↔ _
  unfold EStateM.bind wp
  cases x s with
  | ok a t => rfl
  | error e t => rfl

/-- The rule of consequence. -/
theorem wp_mono (h : wp x Q E s) (hQ : ∀ a t, Q a t → Q' a t) (hE : ∀ e t, E e t → E' e t) :
    wp x Q' E' s := by
  unfold wp at h ⊢
  cases hx : x s with
  | ok a t =>
      rw [hx] at h
      exact hQ a t h
  | error e t =>
      rw [hx] at h
      exact hE e t h

/-- Sequencing and consequence in one step, the shape most proofs use. -/
theorem wp_seq (h : wp x Q E s) (hf : ∀ a t, Q a t → wp (f a) R E t) : wp (x >>= f) R E s :=
  wp_bind.mpr (wp_mono h hf (fun _ _ he => he))

/-- Total correctness produces the result. -/
theorem wp_never : wp x Q never s ↔ ∃ a t, x s = .ok a t ∧ Q a t := by
  constructor
  · intro h
    unfold wp at h
    cases hx : x s with
    | ok a t =>
        rw [hx] at h
        exact ⟨a, t, rfl, h⟩
    | error e t =>
        rw [hx] at h
        exact h.elim
  · rintro ⟨a, t, hx, hQ⟩
    exact (wp_ok hx).mpr hQ

theorem wp_and (h : wp x Q E s) (h' : wp x Q' E' s) :
    wp x (fun a t => Q a t ∧ Q' a t) (fun e t => E e t ∧ E' e t) s := by
  unfold wp at h h' ⊢
  cases hx : x s with
  | ok a t =>
      rw [hx] at h h'
      exact ⟨h, h'⟩
  | error e t =>
      rw [hx] at h h'
      exact ⟨h, h'⟩

theorem wp_ite {c : Prop} [Decidable c] {y : EStateM ε σ α}
    (h₁ : c → wp x Q E s) (h₂ : ¬ c → wp y Q E s) : wp (if c then x else y) Q E s := by
  by_cases hc : c
  · rw [if_pos hc]; exact h₁ hc
  · rw [if_neg hc]; exact h₂ hc

/-- The rule of a counted loop: an invariant indexed by what is still to do. -/
theorem wp_forM {γ : Type} {I : List γ → σ → Prop} {g : γ → EStateM ε σ PUnit}
    (h : ∀ c l t, I (c :: l) t → wp (g c) (fun _ t' => I l t') E t) :
    ∀ (l : List γ) {s : σ}, I l s → wp (l.forM g) (fun _ t => I [] t) E s
  | [], _, hs => hs
  | c :: l, s, hs => wp_seq (h c l s hs) fun _ _ ht => wp_forM h l ht

/-- The rule of a counted loop that carries a value. -/
theorem wp_foldlM_range {δ : Type} {I : Nat → δ → σ → Prop} {g : δ → Nat → EStateM ε σ δ} {d : δ}
    {n : Nat}
    (h : ∀ k < n, ∀ d t, I k d t → wp (g d k) (fun d' t' => I (k + 1) d' t') E t) (hs : I 0 d s) :
    wp ((List.range n).foldlM g d) (fun d' t => I n d' t) E s := by
  induction n with
  | zero => exact hs
  | succ n ih =>
      rw [List.range_succ, List.foldlM_append]
      refine wp_seq (ih fun k hk => h k (Nat.lt_succ_of_lt hk)) fun d' t ht => ?_
      rw [List.foldlM_cons]
      exact wp_seq (h n (Nat.lt_succ_self n) d' t ht) fun _ _ ht' => ht'

/-! ## Abstraction

Often only part of the state matters to a property: `abs` forgets the rest.
`wpOn abs x Q E t` says what `wp` says, of every state that `abs` sends to `t`,
with postconditions that look at states through `abs` alone.  The rules are those
of `wp`; an operation needs one lemma that says what it does to the abstract
state, and proofs above it never see the concrete one. -/

section Abstraction

variable {τ : Type} {abs : σ → τ} {t : τ} {Q Q' : α → τ → Prop} {R : β → τ → Prop}
  {E E' : ε → τ → Prop}

/-- From every state with abstraction `t`, `x` returns in `Q` or stops in `E`. -/
def wpOn (abs : σ → τ) (x : EStateM ε σ α) (Q : α → τ → Prop) (E : ε → τ → Prop) (t : τ) : Prop :=
  ∀ s, abs s = t → wp x (fun a s' => Q a (abs s')) (fun e s' => E e (abs s')) s

theorem wpOn_pure {a : α} (h : Q a t) : wpOn abs (pure a) Q E t := by
  rintro s rfl
  exact h

theorem wpOn_throw {e : ε} (h : E e t) : wpOn abs (throw e : EStateM ε σ α) Q E t := by
  rintro s rfl
  exact h

theorem wpOn_mono (h : wpOn abs x Q E t) (hQ : ∀ a t', Q a t' → Q' a t')
    (hE : ∀ e t', E e t' → E' e t') : wpOn abs x Q' E' t := by
  intro s hs
  exact wp_mono (h s hs) (fun a s' => hQ a (abs s')) (fun e s' => hE e (abs s'))

theorem wpOn_weaken (h : wpOn abs x Q E t) (hQ : ∀ a t', Q a t' → Q' a t') :
    wpOn abs x Q' E t :=
  wpOn_mono h hQ (fun _ _ he => he)

/-- Two specifications of one run; the first says how it may stop. -/
theorem wpOn_and (h : wpOn abs x Q E t) (h' : wpOn abs x Q' E' t) :
    wpOn abs x (fun a t' => Q a t' ∧ Q' a t') E t := by
  intro s hs
  exact wp_mono (wp_and (h s hs) (h' s hs)) (fun _ _ hq => hq) (fun _ _ he => he.1)

theorem wpOn_seq (h : wpOn abs x Q E t) (hf : ∀ a t', Q a t' → wpOn abs (f a) R E t') :
    wpOn abs (x >>= f) R E t := by
  intro s hs
  refine wp_seq (h s hs) ?_
  intro a s' hq
  exact hf a (abs s') hq s' rfl

theorem wpOn_ite {c : Prop} [Decidable c] {y : EStateM ε σ α} (h₁ : c → wpOn abs x Q E t)
    (h₂ : ¬ c → wpOn abs y Q E t) : wpOn abs (if c then x else y) Q E t := by
  intro s hs
  exact wp_ite (fun hc => h₁ hc s hs) (fun hc => h₂ hc s hs)

/-- Looking at the state: only what the continuation does with it matters. -/
theorem wpOn_get {g : σ → EStateM ε σ β} (h : ∀ s, abs s = t → wpOn abs (g s) R E t) :
    wpOn abs (get >>= g) R E t := by
  intro s hs
  exact wp_bind.mpr (h s hs s hs)

theorem wpOn_modify {Q : PUnit → τ → Prop} {g : σ → σ} (h : ∀ s, abs s = t → Q ⟨⟩ (abs (g s))) :
    wpOn abs (modify g : EStateM ε σ PUnit) Q E t := h

/-- What is true of every run is true of a given one. -/
theorem wpOn_run (h : wpOn abs x Q E (abs s)) :
    (∃ a s', x s = .ok a s' ∧ Q a (abs s')) ∨ ∃ e s', x s = .error e s' ∧ E e (abs s') := by
  have hs := h s rfl
  unfold wp at hs
  cases hx : x s with
  | ok a s' =>
      rw [hx] at hs
      exact Or.inl ⟨a, s', rfl, hs⟩
  | error e s' =>
      rw [hx] at hs
      exact Or.inr ⟨e, s', rfl, hs⟩

theorem wpOn_ok {a : α} {s' : σ} (h : wpOn abs x Q E (abs s)) (hx : x s = .ok a s') : Q a (abs s') := by
  have hs := h s rfl
  unfold wp at hs
  rw [hx] at hs
  exact hs

end Abstraction

/-! ## Refinement

`R s t` says that the state `s` is an implementation of the abstract `t`.  Now the
abstract state after a step is not determined by the concrete one, so the rules ask for
one that fits. -/

section Refinement

variable {τ : Type} {R : σ → τ → Prop} {t : τ} {Q Q' : α → τ → Prop} {P : β → τ → Prop}
  {E : ε → σ → Prop}

/-- From every implementation of `t`, `x` returns in an
implementation of a state in `Q` or stops in `E`. -/
def wpBy (R : σ → τ → Prop) (x : EStateM ε σ α) (Q : α → τ → Prop) (E : ε → σ → Prop) (t : τ) : Prop :=
  ∀ s, R s t → wp x (fun a s' => ∃ t', R s' t' ∧ Q a t') E s

theorem wpBy_pure {a : α} (h : Q a t) : wpBy R (pure a) Q E t := fun _ hs => ⟨t, hs, h⟩

theorem wpBy_throw {e : ε} (h : ∀ s, E e s) : wpBy R (throw e : EStateM ε σ α) Q E t := fun s _ => h s

theorem wpBy_seq (h : wpBy R x Q E t) (hf : ∀ a t', Q a t' → wpBy R (f a) P E t') :
    wpBy R (x >>= f) P E t := by
  intro s hs
  refine wp_seq (h s hs) ?_
  rintro a s' ⟨t', hr, hq⟩
  exact hf a t' hq s' hr

theorem wpBy_ite {c : Prop} [Decidable c] {y : EStateM ε σ α} (h₁ : c → wpBy R x Q E t)
    (h₂ : ¬ c → wpBy R y Q E t) : wpBy R (if c then x else y) Q E t := by
  intro s hs
  exact wp_ite (fun hc => h₁ hc s hs) (fun hc => h₂ hc s hs)

/-- What is true of every run is true of a given one. -/
theorem wpBy_run (h : wpBy R x Q E t) (hs : R s t) :
    (∃ a s' t', x s = .ok a s' ∧ R s' t' ∧ Q a t') ∨ ∃ e s', x s = .error e s' ∧ E e s' := by
  have hx := h s hs
  unfold wp at hx
  cases hr : x s with
  | ok a s' =>
      rw [hr] at hx
      obtain ⟨t', ht, hq⟩ := hx
      exact Or.inl ⟨a, s', t', rfl, ht, hq⟩
  | error e s' =>
      rw [hr] at hx
      exact Or.inr ⟨e, s', rfl, hx⟩

theorem wpBy_ok {a : α} {s' : σ} (h : wpBy R x Q E t) (hs : R s t) (hx : x s = .ok a s') :
    ∃ t', R s' t' ∧ Q a t' := by
  have hr := h s hs
  unfold wp at hr
  rw [hx] at hr
  exact hr

end Refinement

/-! ## Runs from a given state -/

section Runs

/-- The state after a call. -/
def afterCall (x : EStateM ε σ α) (s : σ) : σ :=
  match x s with
  | .ok _ s' => s'
  | .error _ s' => s'

def returnedValue (x : EStateM ε σ α) (s : σ) : Option α :=
  match x s with
  | .ok a _ => some a
  | .error _ _ => none

variable {a : α}

theorem run_of_returnedValue (h : returnedValue x s = some a) : x s = .ok a (afterCall x s) := by
  unfold returnedValue at h
  unfold afterCall
  cases hx : x s with
  | ok b s' =>
      rw [hx] at h
      cases h
      rfl
  | error e s' =>
      rw [hx] at h
      cases h

theorem returnedValue_bind {b : β} (h : returnedValue (x >>= f) s = some b) :
    ∃ a, returnedValue x s = some a ∧ returnedValue (f a) (afterCall x s) = some b := by
  unfold returnedValue afterCall
  unfold returnedValue at h
  simp only [bind, EStateM.bind] at h
  cases hx : x s with
  | ok a s' =>
      rw [hx] at h
      exact ⟨a, rfl, h⟩
  | error e s' =>
      rw [hx] at h
      cases h

end Runs

end Wp
