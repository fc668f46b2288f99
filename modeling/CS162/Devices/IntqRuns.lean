/-
# `CS162.Devices.IntqRuns` — interrupt queues in use

What holds in every state that threads and handlers can bring an interrupt queue to.  The bytes come
out in the order they went in, and no thread is left waiting for a condition that holds.

`wait` asserts that the condition it is to wait for does not hold.  A thread that has slept for the
lock comes to it without having tested the condition again, and `intq_asserts` says that this is the
one way to an assertion that fails: it takes two threads in the monitor at once.
-/
import CS162.Devices.Intq

namespace CS162.Devices

open Threads

namespace IntqSt

variable {T : Type} {s s' : IntqSt T} {t : T} {c : IntqCall} {k : Cond}

/-! ## Where the threads are -/

/-- `Q` holds of the place of every thread, and goes on doing so when a thread is unblocked. -/
structure Everyone (Q : Place → Prop) (s : IntqSt T) : Prop where
  all : ∀ t, Q (s.place t)
  woken : ∀ c, Q (.inside c .asleep) → Q (.inside c .acquiring)
  signalled : ∀ c, Q (.inside c .waiting) → Q (.inside c .signalled)

/-- At most one thread is in the monitor. -/
def Alone (s : IntqSt T) : Prop := ∀ t u, s.place t ≠ .out → s.place u ≠ .out → t = u

/-- Has not slept for the lock. -/
def Unslept (p : Place) : Prop := ¬ Asleep p ∧ ¬ Acquiring p

@[simp] theorem unslept_out : Unslept .out := ⟨not_asleep_out, fun ⟨_, h⟩ => by cases h⟩

@[simp] theorem unslept_inside {stage : Stage} :
    Unslept (.inside c stage) ↔ stage ≠ .asleep ∧ stage ≠ .acquiring := by
  simp [Unslept]

/-- With one thread inside nobody sleeps for the lock. -/
theorem Inv.unslept (h : Inv s) (halone : Alone s) (hno : ∀ t, ¬ Acquiring (s.place t)) :
    Everyone Unslept s := by
  refine ⟨fun t => ⟨fun hasleep => ?_, hno t⟩, by simp, by simp⟩
  have hne : s.q.lock.waiters ≠ [] := List.ne_nil_of_mem ((h.sleepers t).mpr hasleep)
  cases hh : s.q.lock.holder with
  | none =>
      obtain ⟨u, hu⟩ := h.led hne hh
      exact hno u hu
  | some u =>
      have hown := (h.holder u).mp hh
      obtain ⟨c, hc⟩ := hasleep
      have htu : t = u := by
        refine halone t u (by simp [hc]) fun hout => ?_
        simp [hout] at hown
      rw [← htu, hc] at hown
      simp at hown

variable [DecidableEq T] {Q : Place → Prop}

theorem Everyone.setPlace {p : Place} (h : Everyone Q s) (hp : Q p) : Everyone Q (s.setPlace t p) := by
  refine ⟨fun u => ?_, h.woken, h.signalled⟩
  by_cases hu : u = t
  · rw [hu, setPlace_self]
    exact hp
  · rw [setPlace_of_ne hu]
    exact h.all u

theorem Everyone.threadUnblock (h : Everyone Q s) (hs : s.threadUnblock t = some s') :
    Everyone Q s' := by
  have ht := h.all t
  unfold IntqSt.threadUnblock at hs
  split at hs
  · next c hp =>
      cases hs
      exact h.setPlace (h.woken c (hp ▸ ht))
  · next c hp =>
      cases hs
      exact h.setPlace (h.signalled c (hp ▸ ht))
  · cases hs

theorem Everyone.signal (h : Everyone Q s) (hs : s.signal k = some s') : Everyone Q s' := by
  unfold IntqSt.signal at hs
  split at hs
  · split at hs
    · obtain ⟨s₁, h₁, rfl⟩ := Option.map_eq_some_iff.mp hs
      exact ⟨(h.threadUnblock h₁).all, h.woken, h.signalled⟩
    · cases hs
      exact h
  · cases hs

theorem Everyone.finish (h : Everyone Q s) (hs : s.finish c = some s') : Everyone Q s' := by
  cases c with
  | getc =>
      have h₁ : Everyone Q
          { s with q := { s.q with ring := s.q.ring.drop }, got := s.got ++ [s.q.ring.front] } :=
        ⟨h.all, h.woken, h.signalled⟩
      exact h₁.signal hs
  | putc byte =>
      have h₁ : Everyone Q
          { s with q := { s.q with ring := s.q.ring.put byte }, put := s.put ++ [byte] } :=
        ⟨h.all, h.woken, h.signalled⟩
      exact h₁.signal hs

theorem Everyone.lockRelease (h : Everyone Q s) (hs : s.lockRelease t = some s') : Everyone Q s' := by
  have hset : ∀ l, Everyone Q (s.setLock l) := fun l => ⟨h.all, h.woken, h.signalled⟩
  unfold IntqSt.lockRelease IntqSt.semaUp at hs
  split at hs
  · split at hs
    · cases hs
      exact hset _
    · next w rest _ =>
        exact (hset { holder := none, value := s.q.lock.value + 1, waiters := rest }).threadUnblock hs
  · cases hs

/-! ## What the calls do -/

/-- The bytes are left alone. -/
structure Kept (s s' : IntqSt T) : Prop where
  ring : s'.q.ring = s.q.ring
  put : s'.put = s.put
  got : s'.got = s.got

theorem Kept.threadUnblock (hs : s.threadUnblock t = some s') : Kept s s' := by
  unfold IntqSt.threadUnblock at hs
  split at hs <;> cases hs
  · exact ⟨rfl, rfl, rfl⟩
  · exact ⟨rfl, rfl, rfl⟩

theorem Kept.signal (hs : s.signal k = some s') : Kept s s' := by
  unfold IntqSt.signal at hs
  split at hs
  · split at hs
    · obtain ⟨s₁, h₁, rfl⟩ := Option.map_eq_some_iff.mp hs
      obtain ⟨hr, hp, hg⟩ := Kept.threadUnblock h₁
      exact ⟨hr, hp, hg⟩
    · cases hs
      exact ⟨rfl, rfl, rfl⟩
  · cases hs

theorem Kept.lockRelease (hs : s.lockRelease t = some s') : Kept s s' := by
  unfold IntqSt.lockRelease IntqSt.semaUp at hs
  split at hs
  · split at hs
    · cases hs
      exact ⟨rfl, rfl, rfl⟩
    · obtain ⟨hr, hp, hg⟩ := Kept.threadUnblock hs
      exact ⟨hr, hp, hg⟩
  · cases hs

theorem finish_getc (hs : s.finish .getc = some s') :
    s'.q.ring = s.q.ring.drop ∧ s'.put = s.put ∧ s'.got = s.got ++ [s.q.ring.front] := by
  obtain ⟨hr, hp, hg⟩ := Kept.signal hs
  exact ⟨hr, hp, hg⟩

theorem finish_putc {byte : UInt8} (hs : s.finish (.putc byte) = some s') :
    s'.q.ring = s.q.ring.put byte ∧ s'.put = s.put ++ [byte] ∧ s'.got = s.got := by
  obtain ⟨hr, hp, hg⟩ := Kept.signal hs
  exact ⟨hr, hp, hg⟩

/-- A thread that asks for the lock blocks, one way or the other. -/
theorem semaDown_eq (hs : s.semaDown t c = some s') :
    Kept s s' ∧ ∃ stage, (stage = .asleep ∨ stage = .waiting) ∧
      s'.place = Function.update s.place t (.inside c stage) := by
  unfold IntqSt.semaDown at hs
  split at hs
  · cases hs
    exact ⟨⟨rfl, rfl, rfl⟩, .asleep, .inl rfl, rfl⟩
  · unfold IntqSt.wait at hs
    split at hs
    · cases hs
    · cases hs
      exact ⟨⟨rfl, rfl, rfl⟩, .waiting, .inr rfl, rfl⟩

theorem call_cases (hs : s.call t c = some s') :
    (∃ s₁, s.finish c = some s₁ ∧ s' = s₁.setPlace t .out) ∨ s.semaDown t c = some s' := by
  unfold IntqSt.call at hs
  split at hs
  · obtain ⟨s₁, h₁, rfl⟩ := Option.map_eq_some_iff.mp hs
    exact .inl ⟨s₁, h₁, rfl⟩
  · unfold IntqSt.lockAcquire at hs
    split at hs
    · cases hs
    · exact .inr hs

theorem run_cases (hs : s.step (.run t) = some s') :
    (∃ c, s.place t = .inside c .acquiring ∧ s.semaDown t c = some s') ∨
      ∃ c s₁, s.place t = .inside c .signalled ∧ s.lockRelease t = some s₁ ∧
        (s₁.setPlace t .out).call t c = some s' := by
  simp only [IntqSt.step] at hs
  split at hs
  · next c hp => exact .inl ⟨c, hp, hs⟩
  · next c hp =>
      obtain ⟨s₁, h₁, hcall⟩ := Option.bind_eq_some_iff.mp hs
      exact .inr ⟨c, s₁, hp, h₁, hcall⟩
  · cases hs

/-- Inside for the calls that `f` tells of. -/
def Only (f : IntqCall → Prop) (p : Place) : Prop := ∀ c stage, p = .inside c stage → f c

theorem only_inside {f : IntqCall → Prop} {stage : Stage} : Only f (.inside c stage) ↔ f c :=
  ⟨fun h => h c stage rfl, fun h c' _ he => by cases he; exact h⟩

omit [DecidableEq T] in
theorem everyone_only {f : IntqCall → Prop} (h : ∀ t, Only f (s.place t)) : Everyone (Only f) s :=
  ⟨h, fun _ hc => only_inside.mpr (only_inside.mp hc), fun _ hc => only_inside.mpr (only_inside.mp hc)⟩

theorem Everyone.semaDown {f : IntqCall → Prop} (h : Everyone (Only f) s) (hc : f c)
    (hs : s.semaDown t c = some s') : Everyone (Only f) s' := by
  obtain ⟨-, stage, -, hplace⟩ := semaDown_eq hs
  refine everyone_only fun u => ?_
  rw [hplace]
  by_cases hu : u = t
  · rw [hu, Function.update_self]
    exact only_inside.mpr hc
  · rw [Function.update_of_ne hu]
    exact h.all u

theorem Everyone.call {f : IntqCall → Prop} (h : Everyone (Only f) s) (hc : f c)
    (hs : s.call t c = some s') : Everyone (Only f) s' := by
  rcases call_cases hs with ⟨s₁, h₁, rfl⟩ | hd
  · exact (h.finish h₁).setPlace fun _ _ he => by cases he
  · exact h.semaDown hc hd

theorem Everyone.run {f : IntqCall → Prop} (h : Everyone (Only f) s)
    (hs : s.step (.run t) = some s') : Everyone (Only f) s' := by
  have ht := h.all t
  rcases run_cases hs with ⟨c, hp, hd⟩ | ⟨c, s₁, hp, h₁, hcall⟩
  · exact h.semaDown (ht c _ hp) hd
  · exact ((h.lockRelease h₁).setPlace fun _ _ he => by cases he).call (ht c _ hp) hcall

/-- A call that returns has done its work, and one that blocks has left the bytes alone. -/
theorem call_effect (hs : s.call t c = some s') :
    (s'.place t = .out ∧ ∃ s₁, s.finish c = some s₁ ∧ Kept s₁ s') ∨
      s'.place t ≠ .out ∧ Kept s s' := by
  rcases call_cases hs with ⟨s₁, h₁, rfl⟩ | hd
  · exact .inl ⟨setPlace_self, s₁, h₁, rfl, rfl, rfl⟩
  · obtain ⟨hk, stage, -, hplace⟩ := semaDown_eq hd
    exact .inr ⟨by simp [hplace], hk⟩

theorem run_effect (hs : s.step (.run t) = some s') :
    (s'.place t = .out ∧ ∃ c stage s₁ s₂, s.place t = .inside c stage ∧ Kept s s₁ ∧
      s₁.finish c = some s₂ ∧ Kept s₂ s') ∨ s'.place t ≠ .out ∧ Kept s s' := by
  rcases run_cases hs with ⟨c, hp, hd⟩ | ⟨c, s₁, hp, h₁, hcall⟩
  · obtain ⟨hk, stage, -, hplace⟩ := semaDown_eq hd
    exact .inr ⟨by simp [hplace], hk⟩
  · obtain ⟨hr, hput, hgot⟩ := Kept.lockRelease h₁
    rcases call_effect hcall with ⟨hout, s₂, h₂, hk⟩ | ⟨hin, hk⟩
    · exact .inl ⟨hout, c, .signalled, s₁.setPlace t .out, s₂, hp, ⟨hr, hput, hgot⟩, h₂, hk⟩
    · exact .inr ⟨hin, hk.ring.trans hr, hk.put.trans hput, hk.got.trans hgot⟩

/-- Nobody has slept for the lock, so nobody is on the way to it after a step. -/
theorem Everyone.not_acquiring {a : IntqAct T} (h : Everyone Unslept s) (hs : s.step a = some s') :
    ∀ u, ¬ Acquiring (s'.place u) := by
  have hdown : ∀ {s₁ : IntqSt T} {t c}, Everyone Unslept s₁ → s₁.semaDown t c = some s' →
      ∀ u, ¬ Acquiring (s'.place u) := by
    intro s₁ t c h₁ hs₁ u
    obtain ⟨_, stage, hstage, hplace⟩ := semaDown_eq hs₁
    by_cases hu : u = t
    · rw [hplace, hu, Function.update_self, acquiring_inside]
      rcases hstage with rfl | rfl <;> simp
    · rw [hplace, Function.update_of_ne hu]
      exact (h₁.all u).2
  have hcall : ∀ {s₁ : IntqSt T} {t c}, Everyone Unslept s₁ → s₁.call t c = some s' →
      ∀ u, ¬ Acquiring (s'.place u) := by
    intro s₁ t c h₁ hs₁ u
    rcases call_cases hs₁ with ⟨s₂, h₂, rfl⟩ | hd
    · exact (((h₁.finish h₂).setPlace unslept_out).all u).2
    · exact hdown h₁ hd u
  cases a with
  | call t c => exact hcall h hs
  | intr c => exact fun u => ((h.finish hs).all u).2
  | run t =>
      rcases run_cases hs with ⟨c, hp, hd⟩ | ⟨c, s₁, hp, h₁, hc⟩
      · exact hdown h hd
      · exact hcall ((h.lockRelease h₁).setPlace unslept_out) hc

end IntqSt

/-! ## Runs -/

open IntqSt

variable {T : Type} {s : IntqSt T}

/-- What the monitor promises. -/
structure Monitor (s : IntqSt T) : Prop where
  /-- The bytes come out as they went in, and none is written over before it has come out. -/
  fifo : s.put = s.got ++ s.q.ring.contents
  room : s.q.ring.contents.length < intqBufsize
  /-- Only one thread waits for a condition, or has been told of it. -/
  one : ∀ t u, Owns (s.place t) → Owns (s.place u) → t = u
  /-- A thread waits for a condition only while it does not hold. -/
  rightly : ∀ t c, s.place t = .inside c .waiting → c.needs.holds s.q.ring = false
  /-- When no thread inside can run, one of them waits for what is not there, and the others sleep
  for its lock. -/
  stuck : (∀ t, ¬ Ready (s.place t)) → ∀ t, s.place t ≠ .out →
    ∃ u c, s.place u = .inside c .waiting ∧ c.needs.holds s.q.ring = false ∧
      ∀ v, v ≠ u → s.place v = .out ∨ Asleep (s.place v)

/-- What the invariant says of those who use the queue. -/
theorem IntqSt.Inv.monitor (h : Inv s) : Monitor s where
  fifo := h.fifo
  room := by
    rw [RingQueue.length_contents]
    exact s.q.ring.used_lt
  one t u ht hu := h.holder.unique hu ht
  rightly t c ht := h.rightly c.needs t (ht ▸ waits_inside.mpr ⟨rfl, rfl⟩)
  stuck hready t ht := by
    cases hh : s.q.lock.holder with
    | none =>
        have hasleep : Asleep (s.place t) := by
          rcases cases_of_not_ready (hready t) with hp | hp | ⟨c, hp⟩
          · exact absurd hp ht
          · exact hp
          · have := (h.holder t).mpr (by simp [hp])
            rw [hh] at this
            cases this
        obtain ⟨u, c, hu⟩ := h.led (List.ne_nil_of_mem ((h.sleepers t).mpr hasleep)) hh
        exact absurd ⟨c, .inl hu⟩ (hready u)
    | some u =>
        -- whoever has the lock waits, since nobody is ready
        obtain ⟨c, hc⟩ : ∃ c, s.place u = .inside c .waiting := by
          obtain ⟨c, hc | hc⟩ := (h.holder u).mp hh
          · exact ⟨c, hc⟩
          · exact absurd ⟨c, .inr hc⟩ (hready u)
        refine ⟨u, c, hc, h.rightly _ u (by simp [hc]), fun v hv => ?_⟩
        rcases cases_of_not_ready (hready v) with hp | hp | ⟨c', hp⟩
        · exact .inl hp
        · exact .inr hp
        · have := (h.holder v).mpr (by simp [hp])
          rw [hh] at this
          exact absurd (Option.some.inj this).symm hv

variable [DecidableEq T] {P : IntqSt T → Prop}

theorem IntqRun.inv (h : IntqRun P s) : Inv s := by
  induction h with
  | init buf => exact Inv.init buf
  | step _ ha hs _ ih =>
      rcases ih.step ha with ⟨s', hs', hinv⟩ | ⟨hnone, _⟩
      · rw [hs] at hs'
        cases hs'
        exact hinv
      · rw [hs] at hnone
        cases hnone

theorem IntqRun.unslept (h : IntqRun Alone s) : Everyone Unslept s := by
  induction h with
  | init buf => exact ⟨fun t => unslept_out, by simp, by simp⟩
  | step hrun ha hs halone ih =>
      exact (IntqRun.step hrun ha hs halone).inv.unslept halone (ih.not_acquiring hs)

/-- The steps one after the other, each where the callers may make it. -/
def IntqSt.runs (s : IntqSt T) : List (IntqAct T) → Option (IntqSt T)
  | [] => some s
  | a :: as => if s.Enabled a then (s.step a).bind (·.runs as) else none

theorem IntqRun.runs {as : List (IntqAct T)} {s' : IntqSt T} (h : IntqRun (fun _ => True) s)
    (hs : s.runs as = some s') : IntqRun (fun _ => True) s' := by
  induction as generalizing s with
  | nil =>
      cases hs
      exact h
  | cons a as ih =>
      simp only [IntqSt.runs] at hs
      split at hs
      · next ha =>
          obtain ⟨s₁, h₁, hrest⟩ := Option.bind_eq_some_iff.mp hs
          exact ih (.step h ha h₁ trivial) hrest
      · cases hs

/-- Whatever threads and handlers call, the queue is first in, first out, and wakes who can go on. -/
theorem intq_monitor (h : IntqRun P s) : Monitor s := h.inv.monitor

/-- A reader waits, and a handler has a byte for it. -/
theorem intq_monitor_small : ∃ s : IntqSt Unit, IntqRun (fun _ => True) s ∧ s.put = [7] ∧
    Ready (s.place ()) ∧ Monitor s := by
  have hok : (((IntqSt.init Unit fun _ => 0).runs [.call () .getc, .intr (.putc 7)]).map fun s =>
      (s.put, s.place ())) = some ([7], .inside .getc .signalled) := by decide
  obtain ⟨s, hs, hput⟩ := Option.map_eq_some_iff.mp hok
  obtain ⟨h₁, h₂⟩ := Prod.mk.inj hput
  have hrun : IntqRun (fun _ => True) s := (IntqRun.init _).runs hs
  exact ⟨s, hrun, h₁, h₂ ▸ ready_inside.mpr (.inr rfl), intq_monitor hrun⟩

/-- The code stops at an assertion exactly when a thread that has slept for the lock finds that what it
needs has come meanwhile, and so never while one thread at a time is in the queue's functions. -/
theorem intq_asserts (T : Type) [DecidableEq T] :
    (∀ (s : IntqSt T) (a : IntqAct T), IntqRun (fun _ => True) s → s.Enabled a →
      (s.step a = none ↔ Late s a)) ∧
    ∀ (s : IntqSt T) (a : IntqAct T), IntqRun Alone s → s.Enabled a → s.step a ≠ none := by
  refine ⟨fun s a h ha => h.inv.fails_iff ha, fun s a h ha hnone => ?_⟩
  obtain ⟨t, c, -, hp, -⟩ := (h.inv.fails_iff ha).mp hnone
  have := h.unslept.all t
  simp [hp] at this

/-- Two readers and two bytes: the first reader takes one of them, and the second comes to the lock
when the other is still there. -/
theorem intq_asserts_two : ∃ s : IntqSt (Fin 2), IntqRun (fun _ => True) s ∧
    s.Enabled (.run 1) ∧ s.step (.run 1) = none := by
  have hok : (((IntqSt.init (Fin 2) fun _ => 0).runs [.call 0 .getc, .call 1 .getc,
      .intr (.putc 5), .intr (.putc 6), .run 0]).map fun s =>
        (s.place 1, s.q.lock.holder, Cond.notEmpty.holds s.q.ring))
      = some (.inside .getc .acquiring, none, true) := by decide
  obtain ⟨s, hs, hfacts⟩ := Option.map_eq_some_iff.mp hok
  obtain ⟨hplace, hfree, hbyte⟩ : s.place 1 = .inside .getc .acquiring ∧ s.q.lock.holder = none ∧
      Cond.notEmpty.holds s.q.ring = true := by simpa using hfacts
  have hrun : IntqRun (fun _ => True) s := (IntqRun.init _).runs hs
  have hready : s.Enabled (.run 1) := ⟨.getc, .inl hplace⟩
  exact ⟨s, hrun, hready,
    ((intq_asserts (Fin 2)).1 s _ hrun hready).mpr ⟨1, .getc, rfl, hplace, hfree, hbyte⟩⟩

end CS162.Devices
