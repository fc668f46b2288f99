/-
# `CS162.Devices.Intq` — interrupt queues

The monitor of `devices/intq.c`: a ring of 63 bytes between kernel threads and interrupt handlers.
Everything in it runs with interrupts off, so a call is one step up to where its thread blocks, and
`run` takes a thread on from there.  A thread blocks at two places: in `lock_acquire`, while another
thread has the lock, and in `wait`, as the waiter of the condition it needs.  A handler never blocks;
it calls only when the condition it needs holds.

A step is `none` where the code stops at an assertion.  `put` and `got` remember the bytes that went
in and came out.  The lock is the one of `threads/synch.c` beside this file, whose `sema_up` does not
yield.
-/
import CS162.Lib.RingQueue
import CS162.Lib.Threads

namespace CS162.Devices

open Threads

/-- `INTQ_BUFSIZE`. -/
abbrev intqBufsize : Nat := 64

/-- The conditions a thread may wait for. -/
inductive Cond where
  | notFull
  | notEmpty
  deriving DecidableEq

/-- `intq_getc` and `intq_putc`. -/
inductive IntqCall where
  | getc
  | putc (byte : UInt8)
  deriving DecidableEq

/-- How far a thread is that has not returned. -/
inductive Stage where
  /-- In the wait list of the lock's semaphore. -/
  | asleep
  /-- Off that list again, and about to test the semaphore's value. -/
  | acquiring
  /-- Blocked in `wait`, with the lock. -/
  | waiting
  /-- Unblocked by `signal`, with the lock. -/
  | signalled
  deriving DecidableEq

inductive Place where
  | out
  | inside (c : IntqCall) (stage : Stage)
  deriving DecidableEq

/-- `struct lock`, with its semaphore. -/
structure Lock (T : Type) where
  holder : Option T
  value : Nat
  waiters : List T

/-- `struct intq`; `waiter` is its `not_full` and `not_empty`. -/
structure Intq (T : Type) where
  lock : Lock T
  waiter : Cond → Option T
  ring : RingQueue UInt8 intqBufsize

structure IntqSt (T : Type) where
  q : Intq T
  place : T → Place
  put : List UInt8
  got : List UInt8

inductive IntqAct (T : Type) where
  /-- A thread calls. -/
  | call (t : T) (c : IntqCall)
  /-- A thread that is ready runs on. -/
  | run (t : T)
  /-- An interrupt handler calls. -/
  | intr (c : IntqCall)

def Cond.holds (r : RingQueue UInt8 intqBufsize) : Cond → Bool
  | .notFull => !r.full
  | .notEmpty => !r.empty

/-- What the loop of a call waits for. -/
def IntqCall.needs : IntqCall → Cond
  | .getc => .notEmpty
  | .putc _ => .notFull

/-- What a call has made true when it is done. -/
def IntqCall.gives : IntqCall → Cond
  | .getc => .notFull
  | .putc _ => .notEmpty

/-- `intq_init`. -/
def intqInit (T : Type) (buf : Fin intqBufsize → UInt8) : Intq T where
  lock := { holder := none, value := 1, waiters := [] }
  waiter _ := none
  ring := { buf := buf, head := ⟨0, Nat.zero_lt_succ 63⟩, tail := ⟨0, Nat.zero_lt_succ 63⟩ }

namespace IntqSt

variable {T : Type}

def init (T : Type) (buf : Fin intqBufsize → UInt8) : IntqSt T where
  q := intqInit T buf
  place _ := .out
  put := []
  got := []

variable [DecidableEq T]

def setPlace (s : IntqSt T) (t : T) (p : Place) : IntqSt T :=
  { s with place := Function.update s.place t p }

def setLock (s : IntqSt T) (l : Lock T) : IntqSt T := { s with q := { s.q with lock := l } }

def setWaiter (s : IntqSt T) (k : Cond) (w : Option T) : IntqSt T :=
  { s with q := { s.q with waiter := Function.update s.q.waiter k w } }

/-- `thread_unblock`, with its assertion. -/
def threadUnblock (s : IntqSt T) (t : T) : Option (IntqSt T) :=
  match s.place t with
  | .inside c .asleep => some (s.setPlace t (.inside c .acquiring))
  | .inside c .waiting => some (s.setPlace t (.inside c .signalled))
  | _ => none

/-- `signal`. -/
def signal (s : IntqSt T) (k : Cond) : Option (IntqSt T) :=
  if k.holds s.q.ring then
    match s.q.waiter k with
    | some w => (s.threadUnblock w).map (·.setWaiter k none)
    | none => some s
  else none

/-- `wait` up to `thread_block`. -/
def wait (s : IntqSt T) (t : T) (c : IntqCall) : Option (IntqSt T) :=
  if c.needs.holds s.q.ring then none
  else some ((s.setWaiter c.needs (some t)).setPlace t (.inside c .waiting))

/-- The loop of `sema_down` in `lock_acquire`, and `wait` once the lock is there. -/
def semaDown (s : IntqSt T) (t : T) (c : IntqCall) : Option (IntqSt T) :=
  if s.q.lock.value = 0 then
    some ((s.setLock { s.q.lock with waiters := s.q.lock.waiters ++ [t] }).setPlace t
      (.inside c .asleep))
  else
    (s.setLock { s.q.lock with value := s.q.lock.value - 1, holder := some t }).wait t c

/-- `lock_acquire` and `wait`. -/
def lockAcquire (s : IntqSt T) (t : T) (c : IntqCall) : Option (IntqSt T) :=
  if s.q.lock.holder = some t then none else s.semaDown t c

/-- `sema_up`. -/
def semaUp (s : IntqSt T) : Option (IntqSt T) :=
  match s.q.lock.waiters with
  | [] => some (s.setLock { s.q.lock with value := s.q.lock.value + 1 })
  | w :: rest =>
      (s.setLock { s.q.lock with value := s.q.lock.value + 1, waiters := rest }).threadUnblock w

/-- `lock_release`. -/
def lockRelease (s : IntqSt T) (t : T) : Option (IntqSt T) :=
  if s.q.lock.holder = some t then (s.setLock { s.q.lock with holder := none }).semaUp else none

/-- What a call does after its loop. -/
def finish (s : IntqSt T) : IntqCall → Option (IntqSt T)
  | .getc =>
      { s with q := { s.q with ring := s.q.ring.drop }, got := s.got ++ [s.q.ring.front] }.signal
        .notFull
  | .putc byte =>
      { s with q := { s.q with ring := s.q.ring.put byte }, put := s.put ++ [byte] }.signal .notEmpty

/-- A call from its loop's test on. -/
def call (s : IntqSt T) (t : T) (c : IntqCall) : Option (IntqSt T) :=
  if c.needs.holds s.q.ring then (s.finish c).map (·.setPlace t .out) else s.lockAcquire t c

def step (s : IntqSt T) : IntqAct T → Option (IntqSt T)
  | .call t c => s.call t c
  | .run t =>
      match s.place t with
      | .inside c .acquiring => s.semaDown t c
      -- the loop goes back to its test, where the thread is as one that calls
      | .inside c .signalled => (s.lockRelease t).bind fun s => (s.setPlace t .out).call t c
      | _ => none
  | .intr c => s.finish c

def Ready (p : Place) : Prop := ∃ c, p = .inside c .acquiring ∨ p = .inside c .signalled

instance : DecidablePred Ready := fun p =>
  match p with
  | .out => isFalse fun ⟨_, h⟩ => by rcases h with h | h <;> cases h
  | .inside c stage => decidable_of_iff (stage = .acquiring ∨ stage = .signalled)
      (by simp [Ready, exists_or])

/-- What the callers see to. -/
def Enabled (s : IntqSt T) : IntqAct T → Prop
  | .call t _ => s.place t = .out
  | .run t => Ready (s.place t)
  | .intr c => c.needs.holds s.q.ring = true

instance (s : IntqSt T) (a : IntqAct T) : Decidable (s.Enabled a) :=
  match a with
  | .call t _ => inferInstanceAs (Decidable (s.place t = .out))
  | .run t => inferInstanceAs (Decidable (Ready (s.place t)))
  | .intr c => inferInstanceAs (Decidable (c.needs.holds s.q.ring = true))

end IntqSt

/-- Runs of an interrupt queue, through states of which `P` holds. -/
inductive IntqRun {T : Type} [DecidableEq T] (P : IntqSt T → Prop) : IntqSt T → Prop
  | init (buf : Fin intqBufsize → UInt8) : IntqRun P (IntqSt.init T buf)
  | step {s s' : IntqSt T} {a : IntqAct T} : IntqRun P s → s.Enabled a → s.step a = some s' →
      P s' → IntqRun P s'

namespace IntqSt

variable {T : Type} {s s' : IntqSt T} {t : T} {c : IntqCall} {k : Cond}

/-! ## The invariant -/

def Owns (p : Place) : Prop := ∃ c, p = .inside c .waiting ∨ p = .inside c .signalled

def Asleep (p : Place) : Prop := ∃ c, p = .inside c .asleep

def Acquiring (p : Place) : Prop := ∃ c, p = .inside c .acquiring

/-- Waits for `k`. -/
def Waits (k : Cond) (p : Place) : Prop := ∃ c : IntqCall, c.needs = k ∧ p = .inside c .waiting

structure Inv (s : IntqSt T) : Prop where
  fifo : s.put = s.got ++ s.q.ring.contents
  value : s.q.lock.value = if s.q.lock.holder.isNone then 1 else 0
  holder : Holds s.q.lock.holder Owns s.place
  sleepers : ∀ t, t ∈ s.q.lock.waiters ↔ Asleep (s.place t)
  nodup : s.q.lock.waiters.Nodup
  waiter : ∀ k, Holds (s.q.waiter k) (Waits k) s.place
  /-- Nobody waits for what is there. -/
  rightly : ∀ k t, Waits k (s.place t) → k.holds s.q.ring = false
  /-- While threads sleep for the lock somebody has it or is on the way to it. -/
  led : s.q.lock.waiters ≠ [] → s.q.lock.holder = none → ∃ t, Acquiring (s.place t)

@[simp] theorem not_owns_out : ¬ Owns .out := fun ⟨_, h⟩ => by rcases h with h | h <;> cases h

@[simp] theorem owns_inside {stage : Stage} :
    Owns (.inside c stage) ↔ stage = .waiting ∨ stage = .signalled := by
  simp [Owns, exists_or]

@[simp] theorem not_asleep_out : ¬ Asleep .out := fun ⟨_, h⟩ => by cases h

@[simp] theorem asleep_inside {stage : Stage} : Asleep (.inside c stage) ↔ stage = .asleep := by
  simp [Asleep]

@[simp] theorem acquiring_inside {stage : Stage} :
    Acquiring (.inside c stage) ↔ stage = .acquiring := by
  simp [Acquiring]

@[simp] theorem not_waits_out : ¬ Waits k .out := fun ⟨_, _, h⟩ => by cases h

@[simp] theorem waits_inside {stage : Stage} :
    Waits k (.inside c stage) ↔ c.needs = k ∧ stage = .waiting := by
  simp only [Waits, Place.inside.injEq]
  exact ⟨fun ⟨c', hk, hc, hs⟩ => ⟨hc ▸ hk, hs⟩, fun ⟨hk, hs⟩ => ⟨c, hk, rfl, hs⟩⟩

@[simp] theorem not_ready_out : ¬ Ready .out := fun ⟨_, h⟩ => by rcases h with h | h <;> cases h

@[simp] theorem ready_inside {stage : Stage} :
    Ready (.inside c stage) ↔ stage = .acquiring ∨ stage = .signalled := by
  simp [Ready, exists_or]

theorem cases_of_not_ready {p : Place} (h : ¬ Ready p) :
    p = .out ∨ Asleep p ∨ ∃ c, p = .inside c .waiting := by
  cases p with
  | out => exact .inl rfl
  | inside c stage => cases stage <;> simp at h ⊢

theorem Waits.owns {p : Place} (h : Waits k p) : Owns p := by
  obtain ⟨c, _, rfl⟩ := h
  exact ⟨c, .inl rfl⟩

/-- There are two conditions. -/
theorem eq_gives (h : k ≠ c.needs) : k = c.gives := by
  cases c <;> cases k <;> first | rfl | exact absurd rfl h

theorem Inv.waiter_eq_none (h : Inv s) (hfree : s.q.lock.holder = none) (k : Cond) :
    s.q.waiter k = none := by
  cases hw : s.q.waiter k with
  | none => rfl
  | some w =>
      have hown := ((h.waiter k w).mp hw).owns
      have := (h.holder w).mpr hown
      rw [hfree] at this
      cases this

theorem Inv.init (buf : Fin intqBufsize → UInt8) : Inv (IntqSt.init T buf) where
  fifo := rfl
  value := rfl
  holder t := iff_of_false (by simp [IntqSt.init, intqInit]) not_owns_out
  sleepers t := iff_of_false (by simp [IntqSt.init, intqInit]) not_asleep_out
  nodup := List.nodup_nil
  waiter k t := iff_of_false (by simp [IntqSt.init, intqInit]) not_waits_out
  rightly k t h := absurd h not_waits_out
  led h := absurd rfl h

variable [DecidableEq T]

/-! ## The operations -/

theorem setPlace_of_ne {u : T} {p : Place} (h : u ≠ t) : (s.setPlace t p).place u = s.place u :=
  Function.update_of_ne h _ _

@[simp] theorem setPlace_self {p : Place} : (s.setPlace t p).place t = p := Function.update_self ..

omit [DecidableEq T] in
/-- Nobody waits any more, and nothing else has changed for those who sleep or have the lock. -/
theorem Inv.unwaited (h : Inv s) (hfifo : s'.put = s'.got ++ s'.q.ring.contents)
    (hlock : s'.q.lock = s.q.lock) (hwaiter : ∀ k, s'.q.waiter k = none)
    (hno : ∀ k t, ¬ Waits k (s'.place t)) (hown : ∀ t, Owns (s'.place t) ↔ Owns (s.place t))
    (hasleep : ∀ t, Asleep (s'.place t) ↔ Asleep (s.place t))
    (hacquiring : ∀ t, Acquiring (s.place t) → Acquiring (s'.place t)) : Inv s' where
  fifo := hfifo
  value := by rw [hlock, h.value]
  holder t := by rw [hlock, hown, h.holder t]
  sleepers t := by rw [hlock, hasleep, h.sleepers t]
  nodup := hlock ▸ h.nodup
  waiter k t := iff_of_false (by simp [hwaiter]) (hno k t)
  rightly k t hk := absurd hk (hno k t)
  led hne hfree := by
    rw [hlock] at hne hfree
    obtain ⟨t, ht⟩ := h.led hne hfree
    exact ⟨t, hacquiring t ht⟩

/-- What is waited for is waited for by the waiter only, so after `signal` nobody waits for it. -/
theorem Inv.signal (h : Inv s) (hneeds : c.needs.holds s.q.ring = true)
    (s₁ : IntqSt T) (hlock : s₁.q.lock = s.q.lock) (hwaiter : s₁.q.waiter = s.q.waiter)
    (hplace : s₁.place = s.place) (hfifo : s₁.put = s₁.got ++ s₁.q.ring.contents)
    (hgives : c.gives.holds s₁.q.ring = true) :
    ∃ s', s₁.signal c.gives = some s' ∧ Inv s' ∧ ∀ t, s'.place t = s.place t ∨ Owns (s.place t) := by
  -- a thread that waits in `s` waits for what the call gives
  have hkind : ∀ k t, Waits k (s.place t) → k = c.gives := by
    intro k t hk
    refine eq_gives ?_
    rintro rfl
    exact Bool.noConfusion ((h.rightly _ t hk).symm.trans hneeds)
  have hwaits : ∀ k t, Waits k (s.place t) → s.q.waiter c.gives = some t := fun k t hk =>
    (h.waiter _ t).mpr (hkind k t hk ▸ hk)
  have hother : ∀ k, k ≠ c.gives → s.q.waiter k = none := by
    intro k hk
    cases hw : s.q.waiter k with
    | none => rfl
    | some t => exact absurd (hkind k t ((h.waiter k t).mp hw)) hk
  cases hw : s.q.waiter c.gives with
  | none =>
      refine ⟨s₁, by simp only [IntqSt.signal, hgives, if_pos, hwaiter, hw], ?_,
        fun t => .inl (by rw [hplace])⟩
      refine h.unwaited hfifo hlock (fun k => ?_) (fun k t hk => ?_) (by simp [hplace])
        (by simp [hplace]) (by simp [hplace])
      · rw [hwaiter]
        by_cases hk : k = c.gives
        · rw [hk, hw]
        · exact hother k hk
      · rw [hplace] at hk
        have := hwaits k t hk
        rw [hw] at this
        cases this
  | some w =>
      obtain ⟨c', hc', hpw⟩ := (h.waiter _ w).mp hw
      have hpl : ∀ t, t ≠ w → (s₁.setPlace w (.inside c' .signalled)).place t = s.place t := by
        intro t ht
        rw [setPlace_of_ne ht, hplace]
      -- to have been told is to be as one that waits, but for the waiting
      have hlike : ∀ F : Place → Prop, (F (.inside c' .signalled) ↔ F (.inside c' .waiting)) →
          ∀ t, F ((s₁.setPlace w (.inside c' .signalled)).place t) ↔ F (s.place t) := by
        intro F hF t
        by_cases ht : t = w
        · rw [ht, setPlace_self, hpw, hF]
        · rw [hpl t ht]
      refine ⟨(s₁.setPlace w (.inside c' .signalled)).setWaiter c.gives none, ?_, ?_, fun t => ?_⟩
      · simp only [IntqSt.signal, hgives, if_pos, hwaiter, hw, threadUnblock, hplace, hpw,
          Option.map_some]
      · refine h.unwaited hfifo hlock (fun k => ?_) (fun k t hk => ?_) (hlike Owns (by simp))
          (hlike Asleep (by simp)) fun t => (hlike Acquiring (by simp) t).mpr
        · simp only [setWaiter, setPlace, hwaiter]
          by_cases hk : k = c.gives
          · rw [hk, Function.update_self]
          · rw [Function.update_of_ne hk, hother k hk]
        · simp only [setWaiter] at hk
          by_cases ht : t = w
          · simp [ht] at hk
          · rw [hpl t ht] at hk
            exact ht (Option.some.inj ((hwaits k t hk).symm.trans hw))
      · by_cases ht : t = w
        · exact .inr (ht ▸ ⟨c', .inl hpw⟩)
        · exact .inl (hpl t ht)

/-- A thread moves that waits for no condition, before or after. -/
theorem Inv.move {l : Lock T} {p : Place} (h : Inv s)
    (hvalue : l.value = if l.holder.isNone then 1 else 0)
    (hholder : Holds l.holder Owns (Function.update s.place t p))
    (hsleepers : ∀ u, u ∈ l.waiters ↔ Asleep (Function.update s.place t p u))
    (hnodup : l.waiters.Nodup) (hbefore : ∀ k, ¬ Waits k (s.place t)) (hafter : ∀ k, ¬ Waits k p)
    (hled : l.waiters ≠ [] → l.holder = none → ∃ u, Acquiring (Function.update s.place t p u)) :
    Inv ((s.setLock l).setPlace t p) where
  fifo := h.fifo
  value := hvalue
  holder := hholder
  sleepers := hsleepers
  nodup := hnodup
  waiter k := (h.waiter k).same (iff_of_false (hbefore k) (hafter k))
  rightly k u hk := by
    by_cases hu : u = t
    · rw [hu, setPlace_self] at hk
      exact absurd hk (hafter k)
    · rw [setPlace_of_ne hu] at hk
      exact h.rightly k u hk
  led := hled

/-- With its need met a call takes or puts its byte, and wakes who waits for that. -/
theorem Inv.finish (h : Inv s) (hneeds : c.needs.holds s.q.ring = true) :
    ∃ s', s.finish c = some s' ∧ Inv s' ∧ ∀ t, s'.place t = s.place t ∨ Owns (s.place t) := by
  cases c with
  | getc =>
      have hne : s.q.ring.empty = false := by simpa [IntqCall.needs, Cond.holds] using hneeds
      obtain ⟨s', hs, hinv, hplace⟩ := h.signal hneeds
        { s with q := { s.q with ring := s.q.ring.drop }, got := s.got ++ [s.q.ring.front] }
        rfl rfl rfl (by simp [h.fifo, RingQueue.contents_eq hne])
        (by simp [IntqCall.gives, Cond.holds, RingQueue.not_full_drop hne])
      exact ⟨s', hs, hinv, hplace⟩
  | putc byte =>
      have hnf : s.q.ring.full = false := by simpa [IntqCall.needs, Cond.holds] using hneeds
      obtain ⟨s', hs, hinv, hplace⟩ := h.signal hneeds
        { s with q := { s.q with ring := s.q.ring.put byte }, put := s.put ++ [byte] }
        rfl rfl rfl (by simp [h.fifo, RingQueue.contents_put hnf])
        (by simp [IntqCall.gives, Cond.holds, RingQueue.not_empty_put hnf])
      exact ⟨s', hs, hinv, hplace⟩

/-- Only the wait for a condition that holds already stops at an assertion. -/
theorem Inv.semaDown (h : Inv s) (ht : s.place t = .out ∨ s.place t = .inside c .acquiring) :
    (∃ s', s.semaDown t c = some s' ∧ Inv s') ∨
      s.semaDown t c = none ∧ s.q.lock.holder = none ∧ c.needs.holds s.q.ring = true := by
  have hown : ¬ Owns (s.place t) := by rcases ht with ht | ht <;> simp [ht]
  have hasleep : ¬ Asleep (s.place t) := by rcases ht with ht | ht <;> simp [ht]
  have hwaits : ∀ k, ¬ Waits k (s.place t) := fun k hk => hown hk.owns
  unfold IntqSt.semaDown
  split
  · next hv =>
      left
      have hheld : s.q.lock.holder ≠ none := fun hn => by
        have := h.value
        simp [hn, hv] at this
      refine ⟨_, rfl, h.move h.value (h.holder.same (iff_of_false hown (by simp))) (fun u => ?_) ?_
        hwaits (by simp) fun _ hn => absurd hn hheld⟩
      · rw [List.mem_append, List.mem_singleton]
        by_cases hu : u = t
        · simp [hu]
        · rw [Function.update_of_ne hu, ← h.sleepers u]
          exact or_iff_left hu
      · refine List.nodup_append.mpr ⟨h.nodup, List.nodup_singleton t, fun a ha b hb => ?_⟩
        rw [List.mem_singleton.mp hb]
        rintro rfl
        exact hasleep ((h.sleepers a).mp ha)
  · next hv =>
      have hfree : s.q.lock.holder = none := by
        cases hh : s.q.lock.holder with
        | none => rfl
        | some u => exact absurd (by simpa [hh] using h.value) hv
      have hone : s.q.lock.value = 1 := by simpa [hfree] using h.value
      unfold IntqSt.wait
      split
      · next hc => exact .inr ⟨rfl, hfree, hc⟩
      · next hc =>
          left
          refine ⟨_, rfl, ?_⟩
          exact {
            fifo := h.fifo
            value := by simp [setPlace, setWaiter, setLock, hone]
            holder := (hfree ▸ h.holder).acquire (by simp)
            sleepers := fun u => by
              refine (h.sleepers u).trans ?_
              by_cases hu : u = t
              · rw [hu, setPlace_self]
                exact iff_of_false hasleep (by simp)
              · rw [setPlace_of_ne hu]
                rfl
            nodup := h.nodup
            waiter := fun k => by
              simp only [setPlace, setWaiter, setLock]
              by_cases hk : k = c.needs
              · rw [hk, Function.update_self]
                exact ((h.waiter_eq_none hfree c.needs) ▸ h.waiter c.needs).acquire (by simp)
              · rw [Function.update_of_ne hk]
                exact (h.waiter k).same (iff_of_false (hwaits k) (by simp [Ne.symm hk]))
            rightly := fun k u hk => by
              by_cases hu : u = t
              · rw [hu, setPlace_self] at hk
                obtain ⟨rfl, -⟩ := waits_inside.mp hk
                simpa [setPlace, setWaiter, setLock] using hc
              · rw [setPlace_of_ne hu] at hk
                exact h.rightly k u hk
            led := fun _ hn => by simp [setPlace, setWaiter, setLock] at hn }

/-- The lock goes free, and the first of those who wait for it is woken. -/
theorem Inv.lockRelease (h : Inv s) (ht : s.place t = .inside c .signalled) :
    ∃ s', s.lockRelease t = some s' ∧ Inv (s'.setPlace t .out) := by
  have hown : Owns (s.place t) := ⟨c, .inr ht⟩
  have hheld : s.q.lock.holder = some t := (h.holder t).mpr hown
  have hzero : s.q.lock.value = 0 := by simpa [hheld] using h.value
  have hasleep : ¬ Asleep (s.place t) := by simp [ht]
  have hwaits : ∀ k, ¬ Waits k (s.place t) := by simp [ht]
  have hsame : ∀ {u : T}, Asleep (Function.update s.place t .out u) ↔ Asleep (s.place u) := by
    intro u
    by_cases hu : u = t
    · rw [hu, Function.update_self]
      exact iff_of_false not_asleep_out hasleep
    · rw [Function.update_of_ne hu]
  simp only [IntqSt.lockRelease, hheld, if_pos, IntqSt.semaUp, setLock]
  cases hw : s.q.lock.waiters with
  | nil =>
      refine ⟨_, rfl, h.move (by simp [hzero]) (h.holder.release hown not_owns_out) (fun u => ?_)
        (by simp) hwaits (fun _ => not_waits_out) (by simp)⟩
      rw [hsame, ← h.sleepers u, hw]
  | cons w rest =>
      obtain ⟨cw, hcw⟩ := (h.sleepers w).mp (hw ▸ List.mem_cons_self)
      have hne : w ≠ t := by
        rintro rfl
        exact hasleep ⟨cw, hcw⟩
      obtain ⟨hnot, hnodup⟩ := List.nodup_cons.mp (hw ▸ h.nodup)
      -- the thread that is woken leaves the list while the lock is still held
      have hwoken : Inv ((s.setLock { s.q.lock with waiters := rest }).setPlace w
          (.inside cw .acquiring)) := by
        refine h.move h.value (h.holder.same (iff_of_false (by simp [hcw]) (by simp))) (fun u => ?_)
          hnodup (by simp [hcw]) (by simp) fun _ hn => by simp [hheld] at hn
        by_cases hu : u = w
        · rw [hu, Function.update_self]
          exact iff_of_false hnot (by simp)
        · rw [Function.update_of_ne hu, ← h.sleepers u, hw, List.mem_cons]
          exact (or_iff_right hu).symm
      have hpt : ((s.setLock { s.q.lock with waiters := rest }).setPlace w
          (.inside cw .acquiring)).place t = .inside c .signalled := by
        rw [setPlace_of_ne hne.symm]
        exact ht
      simp only [threadUnblock, hcw]
      refine ⟨_, rfl, hwoken.move (by simp [hzero]) (hwoken.holder.release (by simp [hpt])
        not_owns_out) (fun u => ?_) hnodup (by simp [hpt]) (fun _ => not_waits_out)
        fun _ _ => ⟨w, ?_⟩⟩
      · refine (hwoken.sleepers u).trans ?_
        by_cases hu : u = t
        · simp [hu, hpt]
        · rw [Function.update_of_ne hu]
      · rw [Function.update_of_ne hne, setPlace_self]
        exact acquiring_inside.mpr rfl

/-- A call that starts, or is back at its loop's test, stops at no assertion. -/
theorem Inv.call (h : Inv s) (ht : s.place t = .out) : ∃ s', s.call t c = some s' ∧ Inv s' := by
  unfold IntqSt.call
  split
  · next hc =>
      obtain ⟨s', hs, hinv, hplace⟩ := h.finish hc
      have hout : s'.place t = .out := by
        rcases hplace t with he | hown
        · rw [he, ht]
        · simp [ht] at hown
      refine ⟨s', ?_, hinv⟩
      simp only [hs, Option.map_some, setPlace, ← hout, Function.update_eq_self]
  · next hc =>
      have hnot : s.q.lock.holder ≠ some t := fun he => by
        have := (h.holder t).mp he
        simp [ht] at this
      simp only [IntqSt.lockAcquire, if_neg hnot]
      rcases h.semaDown (.inl ht) with hs | ⟨_, _, hc'⟩
      · exact hs
      · exact absurd hc' hc

/-- The thread has slept for the lock, and what it needs has come meanwhile. -/
def Late (s : IntqSt T) (a : IntqAct T) : Prop :=
  ∃ t c, a = .run t ∧ s.place t = .inside c .acquiring ∧ s.q.lock.holder = none ∧
    c.needs.holds s.q.ring = true

/-- Each step keeps the invariant, or a thread has come to the lock too late and fails an assertion. -/
theorem Inv.step {a : IntqAct T} (h : Inv s) (ha : s.Enabled a) :
    (∃ s', s.step a = some s' ∧ Inv s') ∨ s.step a = none ∧ Late s a := by
  cases a with
  | call t c => exact .inl (h.call ha)
  | intr c =>
      obtain ⟨s', hs, hinv, _⟩ := h.finish ha
      exact .inl ⟨s', hs, hinv⟩
  | run t =>
      simp only [IntqSt.Enabled] at ha
      simp only [IntqSt.step]
      cases hp : s.place t with
      | out => simp [hp] at ha
      | inside c stage =>
          cases stage with
          | asleep => simp [hp] at ha
          | waiting => simp [hp] at ha
          | acquiring =>
              rcases h.semaDown (c := c) (.inr hp) with hs | ⟨hs, hfree, hc⟩
              · exact .inl hs
              · exact .inr ⟨hs, t, c, rfl, hp, hfree, hc⟩
          | signalled =>
              obtain ⟨s₁, hs, hinv⟩ := h.lockRelease hp
              simp only [hs, Option.bind_some]
              exact .inl (hinv.call setPlace_self)

/-- A step fails an assertion for a thread that comes too late, and for no other. -/
theorem Inv.fails_iff {a : IntqAct T} (h : Inv s) (ha : s.Enabled a) :
    s.step a = none ↔ Late s a := by
  constructor
  · intro hnone
    rcases h.step ha with ⟨s', hs, _⟩ | ⟨_, hlate⟩
    · rw [hnone] at hs
      cases hs
    · exact hlate
  · rintro ⟨t, c, rfl, hp, hfree, hc⟩
    have hone : s.q.lock.value = 1 := by simpa [hfree] using h.value
    have hc' : c.needs.holds (s.setLock { s.q.lock with value := 0, holder := some t }).q.ring = true :=
      hc
    simp only [IntqSt.step, hp, IntqSt.semaDown, hone, one_ne_zero, if_false, IntqSt.wait,
      Nat.sub_self, hc', if_true]

end IntqSt

end CS162.Devices
