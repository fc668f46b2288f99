/-
# `CS162.Kernel.Sema` — semaphores and locks of the priority scheduler

`sema_down`, `sema_try_down` and `sema_up` on one semaphore, by any number of threads.
A section with interrupts off is one step; `sema_up` is two, since it yields before it
returns.  A thread that `sema_up` has taken off the wait list is `woken` until it has
tested the value again, and may find that another thread was quicker.

`ups` and `downs` count the calls that have changed `value`.  `value` is an
`unsigned int`: `wraps` counts the calls of `sema_up` that found it at its largest.

A lock is a semaphore and a holder.  `LockSt` is the same with the steps of
`lock_acquire`, `lock_try_acquire` and `lock_release` around it; what these do to
priorities is in `CS162.Kernel.Priority`.
-/
import Mathlib.Data.List.MinMax
import CS162.Lib.Donation
import CS162.Lib.Threads

namespace CS162.Kernel

variable {T : Type}

/-- The largest `unsigned int`. -/
def uintMax : UInt32 := 0xFFFFFFFF

/-- `struct semaphore`. -/
structure Sema (T : Type) where
  value : UInt32
  waiters : List T

namespace Sema

/-- `sema_try_down`, and the test in the loop of `sema_down`. -/
def tryDown (S : Sema T) : Option (Sema T) :=
  if S.value > 0 then some { S with value := S.value - 1 } else none

/-- One more thread in the wait list. -/
def wait (S : Sema T) (t : T) : Sema T := { S with waiters := S.waiters ++ [t] }

/-- `list_max` with `compare_thread`. -/
def first (S : Sema T) (priority : T → Int) : Option T := S.waiters.argmax priority

variable [DecidableEq T]

/-- `sema_up` up to `thread_yield`, when `first` has been unblocked. -/
def up (S : Sema T) (w : Option T) : Sema T where
  value := S.value + 1
  waiters := match w with
    | some w => S.waiters.erase w
    | none => S.waiters

end Sema

/-! ## Semaphores -/

/-- Where a thread is. -/
inductive Place where
  | out
  | blocked
  | woken
  | yielding
  deriving DecidableEq

structure SemaSt (T : Type) where
  sema : Sema T
  place : T → Place
  priority : T → Int
  ups : Nat
  downs : Nat
  wraps : Nat

inductive SemaAct (T : Type) where
  | down (t : T)
  | retest (t : T)
  | tryDown (t : T)
  | up (t : T)
  | resume (t : T)
  | setPriority (t : T) (p : Int)

namespace SemaSt

def init (value : UInt32) (priority : T → Int) : SemaSt T where
  sema := ⟨value, []⟩
  place _ := .out
  priority := priority
  ups := 0
  downs := 0
  wraps := 0

variable [DecidableEq T]

def setPlace (s : SemaSt T) (t : T) (p : Place) : SemaSt T :=
  { s with place := Function.update s.place t p }

/-- The loop of `sema_down`, once. -/
def semaDown (s : SemaSt T) (t : T) : SemaSt T :=
  match s.sema.tryDown with
  | some S => { s with sema := S, downs := s.downs + 1, place := Function.update s.place t .out }
  | none => { s with sema := s.sema.wait t, place := Function.update s.place t .blocked }

/-- `sema_up` up to `thread_yield`. -/
def semaUp (s : SemaSt T) (t : T) : SemaSt T :=
  let w := s.sema.first s.priority
  { s with
    sema := s.sema.up w
    ups := s.ups + 1
    wraps := if s.sema.value = uintMax then s.wraps + 1 else s.wraps
    place := Function.update
      (match w with
        | some w => Function.update s.place w .woken
        | none => s.place) t .yielding }

def step (s : SemaSt T) : SemaAct T → Option (SemaSt T)
  | .down t => if s.place t = .out then some (s.semaDown t) else none
  | .retest t => if s.place t = .woken then some (s.semaDown t) else none
  | .tryDown t =>
      if s.place t = .out then
        match s.sema.tryDown with
        | some S => some { s with sema := S, downs := s.downs + 1 }
        | none => some s
      else none
  | .up t => if s.place t = .out then some (s.semaUp t) else none
  | .resume t => if s.place t = .yielding then some (s.setPlace t .out) else none
  | .setPriority t p => some { s with priority := Function.update s.priority t p }

def Step (s s' : SemaSt T) : Prop := ∃ a, s.step a = some s'

/-- The threads that have been taken off the wait list and have not tested the value. -/
def woken [Fintype T] (s : SemaSt T) : Nat := Threads.count (· = Place.woken) s.place

end SemaSt

/-! ### The invariant -/

theorem toNat_up (v : UInt32) : (v + 1).toNat
    + 2 ^ 32 * (if v = uintMax then 1 else 0) = v.toNat + 1 := by
  have hlt := v.toNat_lt
  rw [UInt32.toNat_add]
  by_cases hv : v = uintMax
  · subst hv
    decide
  · have hne : v.toNat ≠ 2 ^ 32 - 1 := fun hc => hv (UInt32.toNat_inj.mp (hc.trans (by decide)))
    rw [if_neg hv, show (1 : UInt32).toNat = 1 from rfl, Nat.mod_eq_of_lt (by omega)]
    omega

/-- `omega` does not get along with the literal. -/
theorem units_up {K a b d w v u : Nat} (h1 : a + d + K * w = v + u) (h2 : b + K * 1 = a + 1) :
    b + d + K * (w + 1) = v + (u + 1) := by
  rw [Nat.mul_succ]
  omega

theorem toNat_down {v : UInt32} (hv : v > 0) : (v - 1).toNat + 1 = v.toNat := by
  have hpos : 0 < v.toNat := hv
  have hle : (1 : UInt32) ≤ v := hpos
  rw [UInt32.toNat_sub_of_le v 1 hle, show (1 : UInt32).toNat = 1 from rfl]
  omega

/-- What `list_max` finds. -/
theorem Sema.first_mem {S : Sema T} {priority : T → Int} {w : T} (h : S.first priority = some w) :
    w ∈ S.waiters := List.argmax_mem h

theorem Sema.first_none {S : Sema T} {priority : T → Int} (h : S.first priority = none) :
    S.waiters = [] := List.argmax_eq_none.mp h

namespace SemaSt

variable [DecidableEq T] [Fintype T] {s s' : SemaSt T} {t : T} {value : UInt32}

structure Inv (value : UInt32) (s : SemaSt T) : Prop where
  units : s.sema.value.toNat + s.downs + 2 ^ 32 * s.wraps = value.toNat + s.ups
  waiters : ∀ t, t ∈ s.sema.waiters ↔ s.place t = .blocked
  nodup : s.sema.waiters.Nodup
  wake : s.sema.waiters ≠ [] → s.sema.value.toNat ≤ s.woken

/-- The loop of `sema_down`, entered or re-entered. -/
theorem Inv.semaDown (h : Inv value s) (ht : s.place t = .out ∨ s.place t = .woken) :
    Inv value (s.semaDown t) := by
  have hnot : t ∉ s.sema.waiters := by
    intro hc
    have hb := (h.waiters t).mp hc
    rcases ht with ht | ht <;> rw [ht] at hb <;> cases hb
  -- at most the thread itself leaves the woken ones
  have hwoken : ∀ p, p ≠ Place.woken →
      s.woken ≤ Threads.count (· = Place.woken) (Function.update s.place t p) + 1 ∧
        (s.place t = .out → s.woken ≤ Threads.count (· = Place.woken) (Function.update s.place t p)) := by
    intro p hp
    have hc := Threads.count_update (p := (· = Place.woken)) (f := s.place) t p
    rw [if_neg hp] at hc
    unfold SemaSt.woken
    refine ⟨?_, fun hout => ?_⟩
    · split at hc <;> omega
    · rw [if_neg (by rw [hout]; decide)] at hc
      omega
  unfold SemaSt.semaDown Sema.tryDown
  by_cases hv : s.sema.value > 0
  · rw [if_pos hv]
    have hdown := toNat_down hv
    refine ⟨?_, ?_, h.nodup, fun hne => ?_⟩
    · have := h.units
      show (s.sema.value - 1).toNat + (s.downs + 1) + 2 ^ 32 * s.wraps = value.toNat + s.ups
      omega
    · intro t'
      by_cases htt : t' = t
      · subst htt
        simp [hnot]
      · simp only [Function.update_of_ne htt]
        exact h.waiters t'
    · have := h.wake hne
      have := (hwoken .out (by decide)).1
      show (s.sema.value - 1).toNat ≤ Threads.count (· = Place.woken) (Function.update s.place t .out)
      omega
  · rw [if_neg hv]
    have hzero : s.sema.value.toNat = 0 := Nat.eq_zero_of_not_pos hv
    refine ⟨h.units, ?_, ?_, fun _ => ?_⟩
    · intro t'
      by_cases htt : t' = t
      · subst htt
        simp [Sema.wait]
      · simp only [Sema.wait, Function.update_of_ne htt, List.mem_append, List.mem_singleton, htt,
          or_false]
        exact h.waiters t'
    · refine List.Nodup.append h.nodup (List.nodup_singleton t) ?_
      rw [List.disjoint_singleton]
      exact hnot
    · show s.sema.value.toNat ≤ _
      rw [hzero]
      exact Nat.zero_le _

theorem Inv.semaUp (h : Inv value s) (ht : s.place t = .out) : Inv value (s.semaUp t) := by
  have hunits : (s.sema.value + 1).toNat + s.downs + 2 ^ 32 * (if s.sema.value = uintMax
      then s.wraps + 1 else s.wraps) = value.toNat + (s.ups + 1) := by
    have h1 := h.units
    have h2 := toNat_up s.sema.value
    split
    · next hv =>
      rw [if_pos hv] at h2
      exact units_up h1 h2
    · next hv =>
      rw [if_neg hv] at h2
      omega
  cases hw : s.sema.first s.priority with
  | none =>
      have hnil := Sema.first_none hw
      simp only [SemaSt.semaUp, hw]
      refine ⟨hunits, ?_, h.nodup, fun hne => absurd hnil hne⟩
      intro t'
      show t' ∈ s.sema.waiters ↔ _
      by_cases htt : t' = t
      · subst htt
        simp [hnil]
      · simp only [Function.update_of_ne htt]
        exact h.waiters t'
  | some w =>
      have hmem := Sema.first_mem hw
      have hblocked := (h.waiters w).mp hmem
      have hwt : w ≠ t := by
        rintro rfl
        rw [ht] at hblocked
        cases hblocked
      simp only [SemaSt.semaUp, hw]
      refine ⟨hunits, ?_, h.nodup.erase w, fun hne => ?_⟩
      · intro t'
        show t' ∈ s.sema.waiters.erase w ↔ _
        by_cases htt : t' = t
        · subst htt
          simp [h.nodup.mem_erase_iff, h.waiters, ht]
        · by_cases htw : t' = w
          · subst htw
            simp [h.nodup.mem_erase_iff, htt]
          · simp only [h.nodup.mem_erase_iff, Function.update_of_ne htt, Function.update_of_ne htw, ne_eq,
              htw, not_false_eq_true, true_and]
            exact h.waiters t'
      · -- one thread more is woken, one unit more is there
        have hle := h.wake (List.ne_nil_of_mem hmem)
        have h1 : Threads.count (· = Place.woken) (Function.update s.place w .woken) = s.woken + 1 :=
          Threads.count_update_enter (by rw [hblocked]; decide) rfl
        have hplace : Function.update s.place w .woken t = .out := by
          rw [Function.update_of_ne (Ne.symm hwt)]
          exact ht
        have h2 : Threads.count (· = Place.woken)
            (Function.update (Function.update s.place w .woken) t .yielding) = s.woken + 1 := by
          rw [Threads.count_update_same (by rw [hplace]; decide), h1]
        show (s.sema.value + 1).toNat ≤ Threads.count (· = Place.woken)
          (Function.update (Function.update s.place w .woken) t .yielding)
        have h3 := toNat_up s.sema.value
        omega

theorem Inv.step (h : Inv value s) (hstep : Step s s') : Inv value s' := by
  obtain ⟨a, hstep⟩ := hstep
  cases a with
  | down t =>
      simp only [SemaSt.step] at hstep
      split at hstep
      · next ht =>
        cases hstep
        exact h.semaDown (.inl ht)
      · cases hstep
  | retest t =>
      simp only [SemaSt.step] at hstep
      split at hstep
      · next ht =>
        cases hstep
        exact h.semaDown (.inr ht)
      · cases hstep
  | tryDown t =>
      simp only [SemaSt.step, Sema.tryDown] at hstep
      split at hstep
      · next ht =>
        by_cases hv : s.sema.value > 0
        · rw [if_pos hv] at hstep
          cases hstep
          have hdown := toNat_down hv
          refine ⟨?_, h.waiters, h.nodup, fun hne => ?_⟩
          · have := h.units
            show (s.sema.value - 1).toNat + (s.downs + 1) + 2 ^ 32 * s.wraps = value.toNat + s.ups
            omega
          · have := h.wake hne
            show (s.sema.value - 1).toNat ≤ s.woken
            omega
        · rw [if_neg hv] at hstep
          cases hstep
          exact h
      · cases hstep
  | up t =>
      simp only [SemaSt.step] at hstep
      split at hstep
      · next ht =>
        cases hstep
        exact h.semaUp ht
      · cases hstep
  | resume t =>
      simp only [SemaSt.step] at hstep
      split at hstep
      · next ht =>
        cases hstep
        refine ⟨h.units, fun t' => ?_, h.nodup, fun hne => ?_⟩
        · show t' ∈ s.sema.waiters ↔ Function.update s.place t .out t' = .blocked
          by_cases htt : t' = t
          · subst htt
            simp [h.waiters, ht]
          · rw [Function.update_of_ne htt]
            exact h.waiters t'
        · have hsame : Threads.count (· = Place.woken) (Function.update s.place t .out) = s.woken :=
            Threads.count_update_same (by rw [ht]; decide)
          show s.sema.value.toNat ≤ Threads.count (· = Place.woken) (Function.update s.place t .out)
          rw [hsame]
          exact h.wake hne
      · cases hstep
  | setPriority t p =>
      cases hstep
      exact ⟨h.units, h.waiters, h.nodup, h.wake⟩

omit [DecidableEq T] in
theorem Inv.init (priority : T → Int) : Inv value (SemaSt.init value priority) where
  units := rfl
  waiters t := ⟨fun hc => by (cases hc), fun hc => by (cases hc)⟩
  nodup := List.nodup_nil
  wake hne := absurd rfl hne

end SemaSt

/-! ## Locks -/

/-- Where a thread is with a lock: `got` is between the semaphore and the assignment to
`holder`, `releasing` between the start of `lock_release` and its `sema_up`, where
`remove_lock` may have yielded. -/
inductive LockPlace where
  | out
  | blocked
  | woken
  | got
  | inside
  | releasing
  | yielding
  deriving DecidableEq

structure LockSt (T : Type) where
  sema : Sema T
  holder : Option T
  place : T → LockPlace
  priority : T → Int

inductive LockAct (T : Type) where
  | acquire (t : T)
  | retest (t : T)
  | tryAcquire (t : T)
  | take (t : T)
  | release (t : T)
  | semaUp (t : T)
  | resume (t : T)
  | setPriority (t : T) (p : Int)

namespace LockSt

/-- `lock_init`. -/
def init (priority : T → Int) : LockSt T where
  sema := ⟨1, []⟩
  holder := none
  place _ := .out
  priority := priority

variable [DecidableEq T]

def setPlace (s : LockSt T) (t : T) (p : LockPlace) : LockSt T :=
  { s with place := Function.update s.place t p }

def semaDown (s : LockSt T) (t : T) : LockSt T :=
  match s.sema.tryDown with
  | some S => { s with sema := S, place := Function.update s.place t .got }
  | none => { s with sema := s.sema.wait t, place := Function.update s.place t .blocked }

/-- `lock->holder = NULL` and `sema_up`. -/
def semaUp (s : LockSt T) (t : T) : LockSt T :=
  let w := s.sema.first s.priority
  { s with
    holder := none
    sema := s.sema.up w
    place := Function.update
      (match w with
        | some w => Function.update s.place w .woken
        | none => s.place) t .yielding }

def step (s : LockSt T) : LockAct T → Option (LockSt T)
  | .acquire t => if s.place t = .out ∧ s.holder ≠ some t then some (s.semaDown t) else none
  | .retest t => if s.place t = .woken then some (s.semaDown t) else none
  | .tryAcquire t =>
      if s.place t = .out ∧ s.holder ≠ some t then
        match s.sema.tryDown with
        | some S => some { s with sema := S, place := Function.update s.place t .got }
        | none => some s
      else none
  | .take t => if s.place t = .got then some { s.setPlace t .inside with holder := some t } else none
  | .release t =>
      -- not in another call, and the assertion holds
      if (s.place t = .out ∨ s.place t = .inside) ∧ s.holder = some t then
        some (s.setPlace t .releasing)
      else none
  | .semaUp t => if s.place t = .releasing then some (s.semaUp t) else none
  | .resume t => if s.place t = .yielding then some (s.setPlace t .out) else none
  | .setPriority t p => some { s with priority := Function.update s.priority t p }

def Step (s s' : LockSt T) : Prop := ∃ a, s.step a = some s'

/-! ### The invariant -/

/-- The places of a thread that has taken the semaphore and not given it back. -/
def Owns (p : LockPlace) : Prop := p = .got ∨ p = .inside ∨ p = .releasing

structure Inv (s : LockSt T) : Prop where
  owner : s.sema.value = 1 ∧ (∀ t, ¬ Owns (s.place t)) ∨
    s.sema.value = 0 ∧ ∃ t, Owns (s.place t) ∧ ∀ t', Owns (s.place t') → t' = t
  holder : ∀ t, s.holder = some t → s.place t = .inside ∨ s.place t = .releasing
  waiters : ∀ t ∈ s.sema.waiters, s.place t = .blocked
  nodup : s.sema.waiters.Nodup

variable {s s' : LockSt T} {t : T}

/-- A thread moves, and neither takes nor gives back the semaphore. -/
theorem Inv.owner_move {p : LockPlace} {v : UInt32} (hown : Owns (s.place t) ↔ Owns p)
    (h : v = 1 ∧ (∀ t, ¬ Owns (s.place t)) ∨
      v = 0 ∧ ∃ t, Owns (s.place t) ∧ ∀ t', Owns (s.place t') → t' = t) :
    v = 1 ∧ (∀ t', ¬ Owns (Function.update s.place t p t')) ∨
      v = 0 ∧ ∃ u, Owns (Function.update s.place t p u) ∧
        ∀ t', Owns (Function.update s.place t p t') → t' = u := by
  have hiff : ∀ t', Owns (Function.update s.place t p t') ↔ Owns (s.place t') := by
    intro t'
    by_cases htt : t' = t
    · subst htt
      rw [Function.update_self, hown]
    · rw [Function.update_of_ne htt]
  simpa only [hiff] using h

omit [DecidableEq T] in
/-- The value of a lock's semaphore is 0 or 1. -/
theorem Inv.tryDown_cases (h : Inv s) :
    (s.sema.tryDown = some { s.sema with value := 0 } ∧ s.sema.value = 1 ∧
      ∀ t, ¬ Owns (s.place t)) ∨ s.sema.tryDown = none := by
  rcases h.owner with ⟨hv, hno⟩ | ⟨hv, -⟩
  · exact .inl ⟨by simp [Sema.tryDown, hv], hv, hno⟩
  · exact .inr (by simp [Sema.tryDown, hv])

/-- The thread takes the semaphore. -/
theorem Inv.got (h : Inv s) (hno : ∀ t, ¬ Owns (s.place t)) (ht : s.place t ≠ .blocked) :
    Inv { s with sema := { s.sema with value := 0 }, place := Function.update s.place t .got } := by
  have hne : ∀ t', Owns (Function.update s.place t .got t') → t' = t := by
    intro t' hown
    by_contra htt
    rw [Function.update_of_ne htt] at hown
    exact hno t' hown
  refine ⟨.inr ⟨rfl, t, .inl (Function.update_self ..), hne⟩, fun t' ht' => ?_, fun t' ht' => ?_,
    h.nodup⟩
  · exact absurd (.inr (h.holder t' ht')) (hno t')
  · have hb := h.waiters t' ht'
    have htt : t' ≠ t := by
      rintro rfl
      exact ht hb
    show Function.update s.place t .got t' = .blocked
    rw [Function.update_of_ne htt]
    exact hb

theorem Inv.semaDown (h : Inv s) (ht : s.place t = .out ∨ s.place t = .woken) :
    Inv (s.semaDown t) := by
  have hb : s.place t ≠ .blocked := by
    rcases ht with ht | ht <;> rw [ht] <;> decide
  unfold LockSt.semaDown
  rcases h.tryDown_cases with ⟨hdown, -, hno⟩ | hdown
  · rw [hdown]
    exact h.got hno hb
  · rw [hdown]
    have hown : ¬ Owns (s.place t) := by
      rcases ht with ht | ht <;> rw [ht] <;> (rintro (h | h | h) <;> cases h)
    refine ⟨Inv.owner_move ⟨fun hc => absurd hc hown, ?_⟩ h.owner, fun t' ht' => ?_,
      fun t' ht' => ?_, ?_⟩
    · rintro (hc | hc | hc) <;> cases hc
    · have hold := h.holder t' ht'
      have htt : t' ≠ t := by
        rintro rfl
        exact hown (.inr hold)
      simp only [Function.update_of_ne htt]
      exact hold
    · show Function.update s.place t .blocked t' = .blocked
      by_cases htt : t' = t
      · rw [htt, Function.update_self]
      · rw [Function.update_of_ne htt]
        refine h.waiters t' ?_
        rcases List.mem_append.mp ht' with hold | hnew
        · exact hold
        · exact absurd (List.mem_singleton.mp hnew) htt
    · refine List.Nodup.append h.nodup (List.nodup_singleton t) ?_
      rw [List.disjoint_singleton]
      exact fun hc => hb (h.waiters t hc)

/-- The thread gives the semaphore back. -/
theorem Inv.semaUp (h : Inv s) (ht : s.place t = .releasing) : Inv (s.semaUp t) := by
  have hown : Owns (s.place t) := .inr (.inr ht)
  rcases h.owner with ⟨-, hno⟩ | ⟨hv, u, hu, huniq⟩
  · exact absurd hown (hno t)
  · have htu := huniq t hown
    subst htu
    -- nobody has it now
    have hnone : ∀ f : T → LockPlace, (∀ t', t' ≠ t → f t' = s.place t' ∨ f t' = .woken) →
        ∀ t', ¬ Owns (Function.update f t .yielding t') := by
      intro f hf t' hown'
      by_cases htt : t' = t
      · rw [htt, Function.update_self] at hown'
        rcases hown' with hc | hc | hc <;> cases hc
      · rw [Function.update_of_ne htt] at hown'
        rcases hf t' htt with hs | hs
        · rw [hs] at hown'
          exact htt (huniq t' hown')
        · rw [hs] at hown'
          rcases hown' with hc | hc | hc <;> cases hc
    cases hw : s.sema.first s.priority with
    | none =>
        have hnil := Sema.first_none hw
        simp only [LockSt.semaUp, hw]
        refine ⟨.inl ⟨by simp [Sema.up, hv], hnone s.place fun _ _ => .inl rfl⟩,
          fun t' ht' => by (cases ht'), fun t' ht' => ?_, h.nodup⟩
        replace ht' : t' ∈ s.sema.waiters := ht'
        rw [hnil] at ht'
        cases ht'
    | some w =>
        simp only [LockSt.semaUp, hw]
        refine ⟨.inl ⟨by simp [Sema.up, hv], hnone _ fun t' _ => ?_⟩, fun t' ht' => by (cases ht'),
          fun t' ht' => ?_, h.nodup.erase w⟩
        · by_cases htw : t' = w
          · rw [htw, Function.update_self]
            exact .inr rfl
          · rw [Function.update_of_ne htw]
            exact .inl rfl
        · obtain ⟨htw, hmem⟩ := h.nodup.mem_erase_iff.mp ht'
          have hb := h.waiters t' hmem
          have htt : t' ≠ t := by
            rintro rfl
            rw [ht] at hb
            cases hb
          simp only [Function.update_of_ne htt, Function.update_of_ne htw]
          exact hb

/-- A thread that does not own the semaphore moves. -/
theorem Inv.setPlace {p : LockPlace} (h : Inv s) (hown : Owns (s.place t) ↔ Owns p)
    (hin : s.place t = .inside → p = .inside ∨ p = .releasing)
    (hrel : s.place t ≠ .releasing) (ht : s.place t ≠ .blocked) : Inv (s.setPlace t p) := by
  refine ⟨Inv.owner_move hown h.owner, fun t' ht' => ?_, fun t' ht' => ?_, h.nodup⟩
  · show Function.update s.place t p t' = .inside ∨ Function.update s.place t p t' = .releasing
    by_cases htt : t' = t
    · subst htt
      rw [Function.update_self]
      exact hin ((h.holder t' ht').resolve_right hrel)
    · rw [Function.update_of_ne htt]
      exact h.holder t' ht'
  · show Function.update s.place t p t' = .blocked
    have hb := h.waiters t' ht'
    have htt : t' ≠ t := by
      rintro rfl
      exact ht hb
    rw [Function.update_of_ne htt]
    exact hb

theorem Inv.step (h : Inv s) (hstep : Step s s') : Inv s' := by
  obtain ⟨a, hstep⟩ := hstep
  cases a with
  | acquire t =>
      simp only [LockSt.step] at hstep
      split at hstep
      · next ht =>
        cases hstep
        exact h.semaDown (.inl ht.1)
      · cases hstep
  | retest t =>
      simp only [LockSt.step] at hstep
      split at hstep
      · next ht =>
        cases hstep
        exact h.semaDown (.inr ht)
      · cases hstep
  | tryAcquire t =>
      simp only [LockSt.step] at hstep
      split at hstep
      · next ht =>
        rcases h.tryDown_cases with ⟨hdown, -, hno⟩ | hdown
        · rw [hdown] at hstep
          cases hstep
          exact h.got hno (by rw [ht.1]; decide)
        · rw [hdown] at hstep
          cases hstep
          exact h
      · cases hstep
  | take t =>
      simp only [LockSt.step] at hstep
      split at hstep
      · next ht =>
        cases hstep
        have hmove := h.setPlace (t := t) (p := .inside) (by rw [ht]; simp [Owns])
          (fun hc => .inl rfl) (by rw [ht]; decide) (by rw [ht]; decide)
        refine ⟨hmove.owner, fun t' ht' => ?_, hmove.waiters, hmove.nodup⟩
        cases ht'
        exact .inl (Function.update_self ..)
      · cases hstep
  | release t =>
      simp only [LockSt.step] at hstep
      split at hstep
      · next ht =>
        cases hstep
        -- the assertion says that the thread is inside
        have hin : s.place t = .inside := by
          rcases h.holder t ht.2 with hin | hrel
          · exact hin
          · rw [hrel] at ht
            rcases ht.1 with hc | hc <;> cases hc
        exact h.setPlace (by rw [hin]; simp [Owns]) (fun _ => .inr rfl) (by rw [hin]; decide)
          (by rw [hin]; decide)
      · cases hstep
  | semaUp t =>
      simp only [LockSt.step] at hstep
      split at hstep
      · next ht =>
        cases hstep
        exact h.semaUp ht
      · cases hstep
  | resume t =>
      simp only [LockSt.step] at hstep
      split at hstep
      · next ht =>
        cases hstep
        exact h.setPlace (by rw [ht]; simp [Owns]) (fun hc => by rw [ht] at hc; cases hc)
          (by rw [ht]; decide) (by rw [ht]; decide)
      · cases hstep
  | setPriority t p =>
      cases hstep
      exact ⟨h.owner, h.holder, h.waiters, h.nodup⟩

omit [DecidableEq T] in
theorem Inv.init (priority : T → Int) : Inv (LockSt.init priority) where
  owner := .inl ⟨rfl, fun t hown => by rcases hown with hc | hc | hc <;> cases hc⟩
  holder t ht := by cases ht
  waiters t ht := by cases ht
  nodup := List.nodup_nil

end LockSt

/-! ## Runs -/

/-- In every state of every run the units of a semaphore are accounted for and no wake-up
is lost, and no two threads have a lock. -/
theorem sema_and_lock (T : Type) [DecidableEq T] [Fintype T] (priority : T → Int) :
    (∀ value s, Relation.ReflTransGen SemaSt.Step (SemaSt.init value priority) s →
      s.sema.value.toNat + s.downs + 2 ^ 32 * s.wraps = value.toNat + s.ups ∧
      s.downs ≤ value.toNat + s.ups ∧
      (s.sema.waiters ≠ [] → s.sema.value.toNat ≤ s.woken)) ∧
    (∀ s, Relation.ReflTransGen LockSt.Step (LockSt.init priority) s →
      ∀ t t', LockSt.Owns (s.place t) → LockSt.Owns (s.place t') → t = t') := by
  constructor
  · intro value s hrun
    have h : SemaSt.Inv value s := Threads.invariant_of_step hrun (SemaSt.Inv.init priority)
      fun _ _ h hstep => h.step hstep
    have hunits := h.units
    exact ⟨hunits, by omega, h.wake⟩
  · intro s hrun t t' ht ht'
    have h : LockSt.Inv s := Threads.invariant_of_step hrun (LockSt.Inv.init priority)
      fun _ _ h hstep => h.step hstep
    rcases h.owner with ⟨-, hno⟩ | ⟨-, u, -, huniq⟩
    · exact absurd ht (hno t)
    · rw [huniq t ht, huniq t' ht']

/-- One thread has taken the only unit and given it back; another was blocked, and is woken. -/
theorem sema_and_lock_two :
    (∃ s : SemaSt (Fin 3), Relation.ReflTransGen SemaSt.Step (SemaSt.init 1 fun _ => 31) s ∧
      s.sema.waiters ≠ [] ∧ s.sema.value.toNat = 1 ∧
      s.sema.value.toNat + s.downs + 2 ^ 32 * s.wraps = 1 + s.ups ∧ s.sema.value.toNat ≤ s.woken) ∧
    (∃ s : LockSt (Fin 3), Relation.ReflTransGen LockSt.Step (LockSt.init fun _ => 31) s ∧
      s.place 0 = .inside ∧ ∀ t, LockSt.Owns (s.place t) → t = 0) := by
  constructor
  · obtain ⟨s₁, s₂, s₃, s₄, h₁, h₂, h₃, h₄, hwait, hvalue⟩ : ∃ s₁ s₂ s₃ s₄ : SemaSt (Fin 3),
        (SemaSt.init 1 fun _ => 31).step (.down 0) = some s₁ ∧ s₁.step (.down 1) = some s₂ ∧
          s₂.step (.down 2) = some s₃ ∧ s₃.step (.up 0) = some s₄ ∧ s₄.sema.waiters = [2] ∧
          s₄.sema.value.toNat = 1 :=
      ⟨_, _, _, _, rfl, rfl, rfl, rfl, rfl, rfl⟩
    have hrun : Relation.ReflTransGen SemaSt.Step (SemaSt.init 1 fun _ => 31) s₄ :=
      (((Relation.ReflTransGen.single ⟨_, h₁⟩).tail ⟨_, h₂⟩).tail ⟨_, h₃⟩).tail ⟨_, h₄⟩
    have hne : s₄.sema.waiters ≠ [] := by
      rw [hwait]
      decide
    obtain ⟨h1, -, h3⟩ := (sema_and_lock (Fin 3) fun _ => 31).1 1 s₄ hrun
    exact ⟨s₄, hrun, hne, hvalue, h1, h3 hne⟩
  · obtain ⟨s₁, s₂, h₁, h₂, hin⟩ : ∃ s₁ s₂ : LockSt (Fin 3),
        (LockSt.init fun _ => 31).step (.acquire 0) = some s₁ ∧ s₁.step (.take 0) = some s₂ ∧
          s₂.place 0 = .inside :=
      ⟨_, _, rfl, rfl, rfl⟩
    have hrun : Relation.ReflTransGen LockSt.Step (LockSt.init fun _ => 31) s₂ :=
      (Relation.ReflTransGen.single ⟨_, h₁⟩).tail ⟨_, h₂⟩
    exact ⟨s₂, hrun, hin, fun t ht =>
      (sema_and_lock (Fin 3) fun _ => 31).2 s₂ hrun t 0 ht (.inr (.inl hin))⟩

/-- A thread that does nothing but `sema_up`. -/
theorem ups_only (n : Nat) : ∃ s : SemaSt Unit,
    Relation.ReflTransGen SemaSt.Step (SemaSt.init 0 fun _ => 31) s ∧ s.place () = .out ∧
      s.sema = ⟨UInt32.ofNat n, []⟩ ∧ s.ups = n ∧ s.downs = 0 := by
  induction n with
  | zero => exact ⟨_, .refl, rfl, rfl, rfl, rfl⟩
  | succ n ih =>
      obtain ⟨s, hrun, hout, hsema, hups, hdowns⟩ := ih
      have h₁ : s.step (.up ()) = some (s.semaUp ()) := by simp [SemaSt.step, hout]
      have hfirst : s.sema.first s.priority = none := by simp [Sema.first, hsema]
      have hplace : (s.semaUp ()).place () = .yielding := by simp [SemaSt.semaUp]
      have h₂ : (s.semaUp ()).step (.resume ()) = some ((s.semaUp ()).setPlace () .out) := by
        simp [SemaSt.step, hplace]
      refine ⟨_, (hrun.tail ⟨_, h₁⟩).tail ⟨_, h₂⟩, ?_, ?_, ?_, hdowns⟩
      · simp [SemaSt.setPlace]
      · show s.sema.up (s.sema.first s.priority) = _
        rw [hfirst, hsema, UInt32.ofNat_add]
        rfl
      · show s.ups + 1 = n + 1
        rw [hups]

/-- After 2^32 ups the value is 0 again. -/
theorem value_wraps : ¬ ∀ (value : UInt32) (s : SemaSt Unit),
    Relation.ReflTransGen SemaSt.Step (SemaSt.init value fun _ => 31) s →
      s.sema.value.toNat + s.downs = value.toNat + s.ups := by
  intro h
  obtain ⟨s, hrun, -, hsema, hups, hdowns⟩ := ups_only (2 ^ 32)
  have hsum := h 0 s hrun
  rw [hsema, hups, hdowns] at hsum
  revert hsum
  decide

end CS162.Kernel
