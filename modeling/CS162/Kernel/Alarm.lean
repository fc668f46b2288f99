/-
# `CS162.Kernel.Alarm` — the alarm clock, with interrupts between any two statements

`timer_sleep` reads the tick count and only then turns interrupts off, puts the thread into
`sleeping_thread_queue` and blocks.  In between the timer may interrupt, or another thread
may run.  So a call is two steps here, and the steps of all threads and of the timer come in
any order; which thread has the processor is left open.  A sum of two `int64_t` values that
does not overflow is their sum as integers.

`timer_interrupt` removes from the front of the queue until it comes to a thread that is not
due.  As the queue is sorted these are all that are due (`wakeLoop_eq`).
-/
import Mathlib.Algebra.Order.Ring.Int
import CS162.Kernel.Lists

namespace CS162.Kernel

namespace Alarm

open Sched.St (insertSleeper)

/-- Where a thread is: in no call of `timer_sleep`, in one that has read the tick count, or
blocked in one. -/
inductive Place where
  | awake
  | called (start n : Int)
  | asleep
deriving DecidableEq

structure St where
  ticks : Int
  place : Nat → Place
  /-- The members `wake_time` and `thread`. -/
  sleepingThreadQueue : List (Int × Nat)

/-- `thread_unblock`; it asserts that the thread is blocked. -/
def threadUnblock (s : St) (t : Nat) : Option St :=
  if s.place t = .asleep then some { s with place := Function.update s.place t .awake } else none

/-- The thread that is taken from the queue, if one is, and the queue. -/
def removeFromSleepingQueue (currentTime : Int) : List (Int × Nat) → Option Nat × List (Int × Nat)
  | [] => (none, [])
  | (wakeTime, t) :: rest =>
      if wakeTime ≤ currentTime then (some t, rest) else (none, (wakeTime, t) :: rest)

/-- The loop of `timer_interrupt`, with the threads that it has unblocked. -/
def wakeLoop : Nat → St → List Nat → Option (St × List Nat)
  | 0, _, _ => none
  | fuel + 1, s, woken =>
      match removeFromSleepingQueue s.ticks s.sleepingThreadQueue with
      | (none, q) => some ({ s with sleepingThreadQueue := q }, woken)
      | (some t, q) =>
          (threadUnblock { s with sleepingThreadQueue := q } t).bind fun s =>
            wakeLoop fuel s (woken ++ [t])

def timerInterrupt (s : St) : Option (St × List Nat) :=
  wakeLoop (s.sleepingThreadQueue.length + 1) { s with ticks := s.ticks + 1 } []

inductive Event where
  /-- A call of `timer_sleep` has read the tick count. -/
  | called (t : Nat) (start n : Int)
  | queued (t : Nat) (wakeTime : Int)
  /-- The tick count after the interrupt, and the threads that were unblocked. -/
  | tick (now : Int) (woken : List Nat)
deriving DecidableEq

inductive Step : St → Event → St → Prop where
  | called {s : St} {t : Nat} (n : Int) : s.place t = .awake →
      Step s (.called t s.ticks n) { s with place := Function.update s.place t (.called s.ticks n) }
  | queued {s : St} {t : Nat} {start n : Int} : s.place t = .called start n →
      Step s (.queued t (start + n))
        { s with
          place := Function.update s.place t .asleep
          sleepingThreadQueue := insertSleeper (start + n, t) s.sleepingThreadQueue }
  | tick {s s' : St} {woken : List Nat} : timerInterrupt s = some (s', woken) →
      Step s (.tick s'.ticks woken) s'

inductive Run (s₀ : St) : List Event → St → Prop where
  | nil : Run s₀ [] s₀
  | snoc {s s' : St} {e : Event} {tr : List Event} : Run s₀ tr s → Step s e s' → Run s₀ (tr ++ [e]) s'

/-- After `timer_init`. -/
def St.init (ticks : Int) : St := ⟨ticks, fun _ => .awake, []⟩

variable {s s' s₀ m : St} {e : Event} {tr l₁ l₂ : List Event} {t : Nat}
  {w now start n : Int} {woken : List Nat}
  {q : List (Int × Nat)} {x : Int × Nat}

/-! ## The queue -/

/-- What is kept between steps. -/
structure Inv (s : St) : Prop where
  sorted : s.sleepingThreadQueue.Pairwise fun a b => a.1 ≤ b.1
  asleep : ∀ t, s.place t = .asleep ↔ t ∈ s.sleepingThreadQueue.map Prod.snd
  nodup : (s.sleepingThreadQueue.map Prod.snd).Nodup

theorem Inv.init (ticks : Int) : Inv (St.init ticks) :=
  ⟨.nil, fun t => by simp [St.init], List.nodup_nil⟩

/-- The list stays in the order of the wake times. -/
theorem insertSleeper_sorted (h : q.Pairwise fun a b => a.1 ≤ b.1) :
    (insertSleeper x q).Pairwise fun a b => a.1 ≤ b.1 := by
  induction q with
  | nil => exact List.pairwise_singleton _ x
  | cons e rest ih =>
      obtain ⟨hhead, hrest⟩ := List.pairwise_cons.mp h
      simp only [insertSleeper]
      split
      · next hlt =>
        refine List.pairwise_cons.mpr ⟨fun b hb => ?_, h⟩
        rcases List.mem_cons.mp hb with rfl | hb
        · exact hlt.le
        · exact hlt.le.trans (hhead b hb)
      · next hlt =>
        refine List.pairwise_cons.mpr ⟨fun b hb => ?_, ih hrest⟩
        rcases List.mem_cons.mp ((Sched.Lists.insertSleeper_perm x rest).mem_iff.mp hb) with rfl | hb
        · exact not_lt.mp hlt
        · exact hhead b hb

/-- Among those of one wake time a new one is the last. -/
theorem insertSleeper_filter (h : q.Pairwise fun a b => a.1 ≤ b.1) (w : Int) :
    (insertSleeper x q).filter (fun a => a.1 = w) = (q ++ [x]).filter fun a => a.1 = w := by
  induction q with
  | nil => rfl
  | cons e rest ih =>
      obtain ⟨hhead, hrest⟩ := List.pairwise_cons.mp h
      simp only [insertSleeper]
      split
      · next hlt =>
        by_cases hx : x.1 = w
        · -- all that were there have later wake times
          have hnone : (e :: rest).filter (fun a => decide (a.1 = w)) = [] := by
            rw [List.filter_eq_nil_iff]
            intro b hb
            have hle : e.1 ≤ b.1 := (List.mem_cons.mp hb).elim (fun he => he ▸ le_refl _) (hhead b)
            simp only [decide_eq_true_eq]
            omega
          rw [List.filter_append, hnone, List.filter_cons, hnone]
          simp [hx]
        · rw [List.filter_append, List.filter_cons]
          simp [hx]
      · rw [List.filter_cons, ih hrest, List.cons_append, List.filter_cons]

/-- What `timer_interrupt` does to the queue and to the threads in it. -/
theorem wakeLoop_eq (h : Inv s) (hq : s.sleepingThreadQueue = q) (acc : List Nat) {fuel : Nat}
    (hfuel : q.length < fuel) : ∃ place, wakeLoop fuel s acc =
      some (⟨s.ticks, place, q.filter fun a => s.ticks < a.1⟩,
        acc ++ (q.filter fun a => a.1 ≤ s.ticks).map Prod.snd) ∧
      ∀ t, place t =
        if t ∈ (q.filter fun a => a.1 ≤ s.ticks).map Prod.snd then .awake else s.place t := by
  induction q generalizing s acc fuel with
  | nil =>
      obtain ⟨k, rfl⟩ := Nat.exists_eq_add_of_le' hfuel
      refine ⟨s.place, ?_, fun t => by simp⟩
      simp only [wakeLoop, hq, removeFromSleepingQueue]
      simp
  | cons e rest ih =>
      obtain ⟨w, t⟩ := e
      obtain ⟨k, rfl⟩ := Nat.exists_eq_add_of_le' (Nat.one_le_of_lt hfuel)
      have hsorted := h.sorted
      have hnodup := h.nodup
      have hasleep := h.asleep
      rw [hq] at hsorted hnodup hasleep
      obtain ⟨hhead, hrest⟩ := List.pairwise_cons.mp hsorted
      obtain ⟨hnot, hnodup'⟩ := List.nodup_cons.mp hnodup
      simp only [wakeLoop, hq, removeFromSleepingQueue]
      by_cases hw : w ≤ s.ticks
      · rw [if_pos hw]
        have hblocked : s.place t = .asleep := (hasleep t).mpr (by simp)
        simp only [threadUnblock, if_pos hblocked, Option.bind_some]
        have hinv : Inv ⟨s.ticks, Function.update s.place t .awake, rest⟩ := by
          refine ⟨hrest, fun u => ?_, hnodup'⟩
          show Function.update s.place t .awake u = .asleep ↔ u ∈ rest.map Prod.snd
          by_cases hu : u = t
          · rw [hu, Function.update_self]
            exact iff_of_false (by simp) hnot
          · rw [Function.update_of_ne hu, hasleep]
            simp [hu]
        have hk : rest.length < k := Nat.lt_of_succ_lt_succ hfuel
        obtain ⟨place, hloop, hplace⟩ := ih hinv rfl (acc ++ [t]) hk
        have hlt : ¬ s.ticks < w := not_lt.mpr hw
        have hdue : ((w, t) :: rest).filter (fun a => decide (a.1 ≤ s.ticks)) =
            (w, t) :: rest.filter (fun a => decide (a.1 ≤ s.ticks)) :=
          List.filter_cons_of_pos (decide_eq_true hw)
        refine ⟨place, ?_, fun u => ?_⟩
        · rw [hloop]
          simp [hw, hlt]
        · rw [hplace u, hdue, List.map_cons]
          by_cases hu : u = t
          · simp [hu]
          · simp only [List.mem_cons, hu, false_or, Function.update_of_ne hu]
      · -- nobody behind the first one is due either
        rw [if_neg hw]
        have hlater : ∀ a ∈ (w, t) :: rest, s.ticks < a.1 := by
          intro a ha
          rcases List.mem_cons.mp ha with rfl | ha
          · exact not_le.mp hw
          · exact (not_le.mp hw).trans_le (hhead a ha)
        have hdue : ((w, t) :: rest).filter (fun a => decide (a.1 ≤ s.ticks)) = [] :=
          List.filter_eq_nil_iff.mpr fun a ha => by simpa using hlater a ha
        have hall : ((w, t) :: rest).filter (fun a => decide (s.ticks < a.1)) = (w, t) :: rest :=
          List.filter_eq_self.mpr fun a ha => by simpa using hlater a ha
        refine ⟨s.place, ?_, fun u => ?_⟩
        · rw [hdue, hall]
          simp
        · rw [hdue]
          simp

/-- A timer interrupt, as a whole. -/
structure Ticks (s : St) (woken : List Nat) (s' : St) : Prop where
  ticks : s'.ticks = s.ticks + 1
  queue : s'.sleepingThreadQueue = s.sleepingThreadQueue.filter fun a => s'.ticks < a.1
  unblocked : woken = (s.sleepingThreadQueue.filter fun a => a.1 ≤ s'.ticks).map Prod.snd
  place : ∀ t, s'.place t = if t ∈ woken then .awake else s.place t

theorem Inv.timerInterrupt (h : Inv s) :
    ∃ s' woken, timerInterrupt s = some (s', woken) ∧ Ticks s woken s' := by
  have h' : Inv { s with ticks := s.ticks + 1 } := ⟨h.sorted, h.asleep, h.nodup⟩
  obtain ⟨place, hloop, hplace⟩ := wakeLoop_eq h' rfl [] (Nat.lt_succ_self _)
  exact ⟨_, _, hloop, rfl, rfl, rfl, hplace⟩

theorem Inv.ticks (h : Inv s) (hrun : Alarm.timerInterrupt s = some (s', woken)) : Ticks s woken s' := by
  obtain ⟨s₁, woken₁, hrun₁, hticks⟩ := h.timerInterrupt
  rw [hrun] at hrun₁
  cases hrun₁
  exact hticks

/-- Each step keeps the invariant. -/
theorem Inv.step (h : Inv s) (hstep : Step s e s') : Inv s' := by
  cases hstep with
  | @called t n hawake =>
      refine ⟨h.sorted, fun u => ?_, h.nodup⟩
      show Function.update s.place t _ u = .asleep ↔ _
      by_cases hu : u = t
      · have hnot := mt (h.asleep t).mpr (by rw [hawake]; decide)
        rw [hu, Function.update_self]
        exact iff_of_false (by simp) hnot
      · rw [Function.update_of_ne hu]
        exact h.asleep u
  | @queued t start n hcalled =>
      have hperm := Sched.Lists.insertSleeper_perm (start + n, t) s.sleepingThreadQueue
      have hnot := mt (h.asleep t).mpr (by rw [hcalled]; simp)
      refine ⟨insertSleeper_sorted h.sorted, fun u => ?_, ?_⟩
      · show Function.update s.place t .asleep u = .asleep ↔ _
        rw [(hperm.map Prod.snd).mem_iff, List.map_cons, List.mem_cons]
        by_cases hu : u = t
        · rw [hu, Function.update_self]
          exact iff_of_true rfl (.inl rfl)
        · rw [Function.update_of_ne hu, h.asleep u]
          simp [hu]
      · rw [(hperm.map Prod.snd).nodup_iff]
        exact List.nodup_cons.mpr ⟨hnot, h.nodup⟩
  | tick hrun =>
      have ht := h.ticks hrun
      refine ⟨?_, fun u => ?_, ?_⟩
      · rw [ht.queue]
        exact h.sorted.filter _
      · rw [ht.place u, ht.queue, ht.unblocked]
        split
        · next hdue =>
          refine iff_of_false (by simp) fun hrest => ?_
          obtain ⟨a, ha, rfl⟩ := List.mem_map.mp hdue
          obtain ⟨b, hb, hab⟩ := List.mem_map.mp hrest
          obtain ⟨ha, hle⟩ := List.mem_filter.mp ha
          obtain ⟨hb, hlt⟩ := List.mem_filter.mp hb
          -- a thread is in the queue once
          obtain rfl := List.inj_on_of_nodup_map h.nodup hb ha hab
          simp only [decide_eq_true_eq] at hle hlt
          omega
        · next hdue =>
          rw [h.asleep u]
          constructor
          · intro hu
            obtain ⟨a, ha, rfl⟩ := List.mem_map.mp hu
            refine List.mem_map_of_mem (List.mem_filter.mpr ⟨ha, ?_⟩)
            by_contra hle
            simp only [decide_eq_true_eq, not_lt] at hle
            exact hdue (List.mem_map_of_mem (List.mem_filter.mpr ⟨ha, decide_eq_true hle⟩))
          · intro hu
            obtain ⟨a, ha, rfl⟩ := List.mem_map.mp hu
            exact List.mem_map_of_mem (List.mem_filter.mp ha).1
      · rw [ht.queue]
        exact h.nodup.sublist ((List.filter_sublist ..).map Prod.snd)

theorem Ticks.mem_unblocked (h : Ticks s woken s') (hs : Inv s) (hq : (w, t) ∈ s.sleepingThreadQueue) :
    t ∈ woken ↔ w ≤ s'.ticks := by
  rw [h.unblocked]
  constructor
  · intro ht
    obtain ⟨a, ha, hat⟩ := List.mem_map.mp ht
    obtain ⟨ha, hle⟩ := List.mem_filter.mp ha
    obtain rfl := List.inj_on_of_nodup_map hs.nodup ha hq hat
    exact of_decide_eq_true hle
  · intro hle
    exact List.mem_map.mpr ⟨(w, t), List.mem_filter.mpr ⟨hq, decide_eq_true hle⟩, rfl⟩

theorem Ticks.nodup (h : Ticks s woken s') (hs : Inv s) : woken.Nodup := by
  rw [h.unblocked]
  exact hs.nodup.sublist ((List.filter_sublist ..).map Prod.snd)

/-! ## Runs -/

/-- The event is an interrupt. -/
def Event.isTick : Event → Bool
  | .tick _ _ => true
  | .called _ _ _ | .queued _ _ => false

/-- The tick count after a history. -/
def clock (ticks : Int) (tr : List Event) : Int := ticks + tr.countP Event.isTick

/-- An event of the history, for those who wait. -/
def pend (l : List (Int × Nat)) : Event → List (Int × Nat)
  | .called _ _ _ => l
  | .queued t w => l ++ [(w, t)]
  | .tick now _ => l.filter fun a => now < a.1

/-- Those who have been queued and were not due since, in the order in which they came. -/
def pending (tr : List Event) : List (Int × Nat) := tr.foldl pend []

/-- The event is part of a call of `timer_sleep` by `t`. -/
def Event.by (t : Nat) : Event → Prop
  | .called u _ _ | .queued u _ => u = t
  | .tick _ _ => False

namespace Run

theorem inv (h : Run s₀ tr s) (h₀ : Inv s₀) : Inv s := by
  induction h with
  | nil => exact h₀
  | snoc _ hstep ih => exact ih.step hstep

/-- A run can be cut at any place of its trace. -/
theorem split (h : Run s₀ tr s) :
    ∀ {l₁ l₂ : List Event}, tr = l₁ ++ l₂ → ∃ m, Run s₀ l₁ m ∧ Run m l₂ s := by
  induction h with
  | nil =>
      intro l₁ l₂ htr
      obtain ⟨rfl, rfl⟩ := List.append_eq_nil_iff.mp htr.symm
      exact ⟨s₀, .nil, .nil⟩
  | @snoc s s' e tr hrun hstep ih =>
      intro l₁ l₂ htr
      rcases List.eq_nil_or_concat l₂ with rfl | ⟨l₂', e', rfl⟩
      · rw [List.append_nil] at htr
        exact ⟨s', htr ▸ hrun.snoc hstep, .nil⟩
      · rw [List.concat_eq_append, ← List.append_assoc] at htr
        obtain ⟨hrest, he⟩ := List.append_inj' htr rfl
        obtain rfl := (List.cons.inj he).1
        obtain ⟨m, h₁, h₂⟩ := ih hrest
        rw [List.concat_eq_append]
        exact ⟨m, h₁, h₂.snoc hstep⟩

theorem eq_of_nil (h : Run s₀ tr s) (htr : tr = []) : s = s₀ := by
  cases h with
  | nil => rfl
  | snoc _ _ => simp at htr

/-- The first step. -/
theorem head (h : Run s₀ (e :: tr) s) : ∃ m, Step s₀ e m ∧ Run m tr s := by
  obtain ⟨m, h₁, h₂⟩ := h.split (List.singleton_append (x := e) (l := tr)).symm
  generalize hl : [e] = l at h₁
  cases h₁ with
  | nil => cases hl
  | @snoc m₀ _ e' l hrun hstep =>
      have hl' : [] ++ [e] = l ++ [e'] := hl
      obtain ⟨hnil, he⟩ := List.append_inj' hl' rfl
      obtain rfl := (List.cons.inj he).1
      obtain rfl := hrun.eq_of_nil hnil.symm
      exact ⟨m, hstep, h₂⟩

theorem ticks (h : Run s₀ tr s) (h₀ : Inv s₀) : s.ticks = clock s₀.ticks tr := by
  induction h with
  | nil => simp [clock]
  | @snoc s s' e tr hrun hstep ih =>
      unfold clock at ih ⊢
      rw [List.countP_append]
      cases hstep with
      | called n _ =>
          simp only [List.countP_singleton, Event.isTick]
          simpa using ih
      | queued _ =>
          simp only [List.countP_singleton, Event.isTick]
          simpa using ih
      | tick hrun' =>
          have ht := ((hrun.inv h₀).ticks hrun').ticks
          simp only [List.countP_singleton, Event.isTick, if_true]
          push_cast
          omega

/-- The queue is sorted, and those of one wake time stand in the order in which they came. -/
theorem pending (h : Run s₀ tr s) (h₀ : Inv s₀) (hnil : s₀.sleepingThreadQueue = []) (w : Int) :
    s.sleepingThreadQueue.filter (fun a => a.1 = w) = (pending tr).filter fun a => a.1 = w := by
  induction h with
  | nil => rw [hnil]; rfl
  | @snoc s s' e tr hrun hstep ih =>
      have hpend : Alarm.pending (tr ++ [e]) = pend (Alarm.pending tr) e := by
        unfold Alarm.pending
        rw [List.foldl_append]
        rfl
      rw [hpend]
      cases hstep with
      | called n _ => exact ih
      | @queued t start n _ =>
          show (insertSleeper (start + n, t) s.sleepingThreadQueue).filter _ = _
          rw [insertSleeper_filter (hrun.inv h₀).sorted, pend, List.filter_append, List.filter_append, ih]
      | tick hrun' =>
          rw [((hrun.inv h₀).ticks hrun').queue, pend, List.filter_comm, ih, List.filter_comm]

/-- Who waits goes on waiting until due. -/
theorem waits (h : Run m tr s) (hm : Inv m) (hq : (w, t) ∈ m.sleepingThreadQueue)
    (hlate : ∀ now woken, Event.tick now woken ∈ tr → now < w) : (w, t) ∈ s.sleepingThreadQueue := by
  induction h with
  | nil => exact hq
  | @snoc s s' e tr hrun hstep ih =>
      have hmem := ih fun now woken he => hlate now woken (List.mem_append_left _ he)
      cases hstep with
      | called n _ => exact hmem
      | queued _ =>
          exact (Sched.Lists.insertSleeper_perm _ _).mem_iff.mpr (List.mem_cons_of_mem _ hmem)
      | tick hrun' =>
          rw [((hrun.inv hm).ticks hrun').queue]
          have hlt := hlate _ _ (List.mem_append_right tr List.mem_cons_self)
          exact List.mem_filter.mpr ⟨hmem, decide_eq_true hlt⟩

/-- Who waits has been queued, and was neither due nor woken since. -/
theorem queuedBefore (h : Run s₀ tr s) (h₀ : Inv s₀) (hnil : s₀.sleepingThreadQueue = [])
    (hq : (w, t) ∈ s.sleepingThreadQueue) : ∃ pre mid, tr = pre ++ .queued t w :: mid ∧
      ∀ now woken, Event.tick now woken ∈ mid → now < w ∧ t ∉ woken := by
  induction h with
  | nil =>
      rw [hnil] at hq
      cases hq
  | @snoc s s' e tr hrun hstep ih =>
      -- an event that leaves the thread waiting is put at the end
      have hlater : (w, t) ∈ s.sleepingThreadQueue →
          (∀ now woken, e = .tick now woken → now < w ∧ t ∉ woken) → ∃ pre mid,
            tr ++ [e] = pre ++ .queued t w :: mid ∧
              ∀ now woken, Event.tick now woken ∈ mid → now < w ∧ t ∉ woken := by
        intro hold he
        obtain ⟨pre, mid, rfl, hmid⟩ := ih hold
        refine ⟨pre, mid ++ [e], by simp, fun now woken hmem => ?_⟩
        rcases List.mem_append.mp hmem with hmem | hmem
        · exact hmid now woken hmem
        · exact he now woken (List.mem_singleton.mp hmem).symm
      cases hstep with
      | called n _ => exact hlater hq fun _ _ he => by cases he
      | @queued u start n _ =>
          rcases List.mem_cons.mp ((Sched.Lists.insertSleeper_perm _ _).mem_iff.mp hq) with heq | hold
          · cases heq
            exact ⟨tr, [], rfl, fun _ _ he => by cases he⟩
          · exact hlater hold fun _ _ he => by cases he
      | tick hrun' =>
          have ht := (hrun.inv h₀).ticks hrun'
          rw [ht.queue] at hq
          obtain ⟨hold, hlt⟩ := List.mem_filter.mp hq
          replace hlt := of_decide_eq_true hlt
          refine hlater hold fun now woken' he => ?_
          cases he
          exact ⟨hlt, mt (ht.mem_unblocked (hrun.inv h₀) hold).mp (not_le.mpr hlt)⟩

/-- A thread that is in a call of `timer_sleep` has read the tick count in this call. -/
theorem calledBefore (h : Run s₀ tr s) (h₀ : Inv s₀) (hawake : ∀ t, s₀.place t = .awake)
    (hp : s.place t = .called start n) : ∃ pre mid, tr = pre ++ .called t start n :: mid ∧
      start = clock s₀.ticks pre ∧ ∀ e ∈ mid, ¬ e.by t := by
  induction h with
  | nil =>
      rw [hawake] at hp
      cases hp
  | @snoc s s' e tr hrun hstep ih =>
      have hlater : s.place t = .called start n → ¬ e.by t → ∃ pre mid,
          tr ++ [e] = pre ++ .called t start n :: mid ∧ start = clock s₀.ticks pre ∧
            ∀ e ∈ mid, ¬ e.by t := by
        intro hold he
        obtain ⟨pre, mid, rfl, hstart, hmid⟩ := ih hold
        refine ⟨pre, mid ++ [e], by simp, hstart, fun e' hmem => ?_⟩
        rcases List.mem_append.mp hmem with hmem | hmem
        · exact hmid e' hmem
        · exact List.mem_singleton.mp hmem ▸ he
      cases hstep with
      | @called u k _ =>
          replace hp : Function.update s.place u (.called s.ticks k) t = .called start n := hp
          by_cases hu : t = u
          · rw [hu, Function.update_self] at hp
            cases hp
            exact ⟨tr, [], by rw [hu], hrun.ticks h₀, fun _ he => by cases he⟩
          · rw [Function.update_of_ne hu] at hp
            exact hlater hp (Ne.symm hu)
      | @queued u _ _ _ =>
          replace hp : Function.update s.place u .asleep t = .called start n := hp
          by_cases hu : t = u
          · rw [hu, Function.update_self] at hp
            cases hp
          · rw [Function.update_of_ne hu] at hp
            exact hlater hp (Ne.symm hu)
      | tick hrun' =>
          rw [((hrun.inv h₀).ticks hrun').place] at hp
          split at hp
          · cases hp
          · exact hlater hp id

end Run

/-- What is said of a run: `s` is the state after the history `tr`, and `ticks` was the tick
count before it. -/
structure OnTime (ticks : Int) (tr : List Event) (s : St) : Prop where
  sorted : s.sleepingThreadQueue.Pairwise fun a b => a.1 ≤ b.1
  inOrder : ∀ w, s.sleepingThreadQueue.filter (fun a => a.1 = w) = (pending tr).filter fun a => a.1 = w
  /-- The wake time is that of the call which the thread is in. -/
  wakeTime : ∀ pre t w post, tr = pre ++ .queued t w :: post → ∃ pre' n mid,
    pre = pre' ++ .called t (clock ticks pre') n :: mid ∧ (∀ e ∈ mid, ¬ e.by t) ∧ w = clock ticks pre' + n
  /-- The first interrupt that is late enough unblocks the thread, once; those before do not. -/
  unblocks : ∀ pre t w mid now woken post, tr = pre ++ .queued t w :: (mid ++ .tick now woken :: post) →
    (∀ now' woken', .tick now' woken' ∈ mid → now' < w) →
    now = clock ticks (pre ++ .queued t w :: mid) + 1 ∧ woken.count t = if w ≤ now then 1 else 0
  /-- Whoever is unblocked has been queued, and that interrupt is the first late enough. -/
  unblocked : ∀ pre now woken post, tr = pre ++ .tick now woken :: post → ∀ t ∈ woken,
    ∃ pre' w mid, pre = pre' ++ .queued t w :: mid ∧ w ≤ now ∧
      ∀ now' woken', .tick now' woken' ∈ mid → now' < w ∧ t ∉ woken'
  noneDue : ∀ pre now woken, tr = pre ++ [.tick now woken] → now = s.ticks ∧
    ∀ a ∈ s.sleepingThreadQueue, s.ticks < a.1
  /-- The next interrupt finds every thread that it unblocks blocked. -/
  goesOn : (timerInterrupt s).isSome = true

/-- In every history nobody is woken before its time, and everybody once, at the first tick that is late
enough after it was queued. -/
theorem alarm_clock (ticks : Int) (h : Run (St.init ticks) tr s) : OnTime ticks tr s := by
  have h₀ := Inv.init ticks
  have hinv := h.inv h₀
  refine ⟨hinv.sorted, h.pending h₀ rfl, ?_, ?_, ?_, ?_, ?_⟩
  · intro pre t w post htr
    obtain ⟨m, hpre, hrest⟩ := h.split htr
    obtain ⟨m', hstep, -⟩ := hrest.head
    cases hstep with
    | queued hcalled =>
        obtain ⟨pre', mid, rfl, rfl, hmid⟩ := hpre.calledBefore h₀ (fun _ => rfl) hcalled
        exact ⟨pre', _, mid, rfl, hmid, rfl⟩
  · intro pre t w mid now woken post htr hlate
    rw [← List.cons_append, ← List.append_assoc] at htr
    obtain ⟨m, hmid, hrest⟩ := h.split htr
    obtain ⟨m₀, hpre, hqueued⟩ := hmid.split rfl
    obtain ⟨m₁, hstep, hwait⟩ := hqueued.head
    have hm₁ := (hpre.inv h₀).step hstep
    have hq : (w, t) ∈ m₁.sleepingThreadQueue := by
      cases hstep with
      | queued _ => exact (Sched.Lists.insertSleeper_perm _ _).mem_iff.mpr List.mem_cons_self
    have hq := hwait.waits hm₁ hq hlate
    have hm := hwait.inv hm₁
    obtain ⟨m₂, hstep₂, -⟩ := hrest.head
    cases hstep₂ with
    | tick hrun =>
        have ht := hm.ticks hrun
        have hmem := ht.mem_unblocked hm hq
        refine ⟨by rw [ht.ticks, hmid.ticks h₀]; rfl, ?_⟩
        split
        · next hle => exact List.count_eq_one_of_mem (ht.nodup hm) (hmem.mpr hle)
        · next hle => exact List.count_eq_zero_of_not_mem (mt hmem.mp hle)
  · intro pre now woken post htr t ht
    obtain ⟨m, hpre, hrest⟩ := h.split htr
    obtain ⟨m', hstep, -⟩ := hrest.head
    cases hstep with
    | tick hrun =>
        have hticks := (hpre.inv h₀).ticks hrun
        have hmem := ht
        rw [hticks.unblocked] at hmem
        obtain ⟨⟨w, u⟩, hq, rfl⟩ := List.mem_map.mp hmem
        obtain ⟨hq, hle⟩ := List.mem_filter.mp hq
        obtain ⟨pre', mid, rfl, hmid⟩ := hpre.queuedBefore h₀ rfl hq
        exact ⟨pre', w, mid, rfl, of_decide_eq_true hle, hmid⟩
  · intro pre now woken htr
    obtain ⟨m, hpre, hrest⟩ := h.split htr
    obtain ⟨m', hstep, hlast⟩ := hrest.head
    obtain rfl := hlast.eq_of_nil rfl
    cases hstep with
    | tick hrun =>
        refine ⟨rfl, fun a ha => ?_⟩
        rw [((hpre.inv h₀).ticks hrun).queue] at ha
        exact of_decide_eq_true (List.mem_filter.mp ha).2
  · obtain ⟨s', woken, hrun, -⟩ := hinv.timerInterrupt
    rw [hrun]
    rfl

theorem Step.tickAt (h : timerInterrupt s = some (s', woken)) (hnow : s'.ticks = now) :
    Step s (.tick now woken) s' := hnow ▸ .tick h

/-- Two threads sleep, one with a wake time that has passed when it is queued. -/
theorem alarm_clock_late : ∃ tr s, Run (St.init 0) tr s ∧ OnTime 0 tr s ∧
    tr = [.called 1 0 1, .called 2 0 5, .tick 1 [], .queued 1 1, .queued 2 5, .tick 2 [1]] := by
  have h₁ : Run (St.init 0) [.called 1 0 1] _ := Run.nil.snoc (.called 1 rfl)
  have h₂ : Run (St.init 0) [.called 1 0 1, .called 2 0 5] _ := h₁.snoc (.called 5 rfl)
  have h₃ : Run (St.init 0) [.called 1 0 1, .called 2 0 5, .tick 1 []] _ := h₂.snoc (.tickAt rfl rfl)
  have h₄ : Run (St.init 0) [.called 1 0 1, .called 2 0 5, .tick 1 [], .queued 1 1] _ :=
    h₃.snoc (@Step.queued _ 1 0 1 rfl)
  have h₅ : Run (St.init 0) [.called 1 0 1, .called 2 0 5, .tick 1 [], .queued 1 1, .queued 2 5] _ :=
    h₄.snoc (@Step.queued _ 2 0 5 rfl)
  have h₆ : Run (St.init 0) [.called 1 0 1, .called 2 0 5, .tick 1 [], .queued 1 1, .queued 2 5,
      .tick 2 [1]] _ := h₅.snoc (.tickAt rfl rfl)
  exact ⟨_, _, h₆, alarm_clock 0 h₆, rfl⟩

end Alarm

end CS162.Kernel
