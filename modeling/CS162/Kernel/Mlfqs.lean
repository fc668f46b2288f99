/-
# `CS162.Kernel.Mlfqs` — the statistics of the advanced scheduler

What `thread_tick` and `thread_set_nice` do when `thread_mlfqs` is set: the running thread's
`recent_cpu` at every tick, all priorities at every fourth, and `load_avg` and every
`recent_cpu` once a second.  How the processor passes from thread to thread is left open: a
switch gives it to any thread and leaves any threads in `ready_list`.

Three things are not as the documentation has them, and each section says how far they go.
Priorities are not kept between `PRI_MIN` and `PRI_MAX` (`legal_iff`).  `thread_set_nice`
applies the recurrence of `recent_cpu` once more (`recent_cpu_follows`).  And the getters
round negative numbers up and overflow beyond 327 (`statistics_right_iff`).
-/
import CS162.Kernel.FixedPoint
import CS162.Kernel.Sched

namespace CS162.Kernel

namespace Mlfqs

open Rounding
open Sched (mainThread idleThread)

/-- The members of `struct thread` that are used. -/
structure Thread where
  nice : Int32
  recentCpu : FixedPoint
  priority : Int32

structure St where
  allList : List Nat
  thread : Nat → Thread
  current : Nat
  readyList : List Nat
  loadAvg : FixedPoint
  ticks : Int

def priMin : Int32 := 0

def priDefault : Int32 := 31

def priMax : Int32 := 63

/-- `TIMER_FREQ`. -/
def timerFreq : Int32 := 100

/-- `init_thread`. -/
def newThread : Thread := ⟨0, fixInt 0, priDefault⟩

/-- `(2*load_avg)/(2*load_avg + 1)`. -/
def coeff (loadAvg : FixedPoint) : FixedPoint :=
  let top := fixScale loadAvg 2
  fixDiv top (fixAdd top (fixInt 1))

/-- The recurrence. -/
def nextRecentCpu (loadAvg : FixedPoint) (nice : Int32) (recentCpu : FixedPoint) : FixedPoint :=
  fixAdd (fixMul (coeff loadAvg) recentCpu) (fixInt nice)

/-- Ends in an assertion of `fix_int`, or a division by zero, or not. -/
def threadUpdateRecentCpu (loadAvg : FixedPoint) (t : Thread) : Option Thread :=
  if fixIntAsserts t.nice ∧ (fixAdd (fixScale loadAvg 2) (fixInt 1)).f ≠ 0 then
    some { t with recentCpu := nextRecentCpu loadAvg t.nice t.recentCpu }
  else none

def threadUpdatePriority (t : Thread) : Thread :=
  { t with priority := priMax - (fixRound (fixUnscale t.recentCpu 4) + t.nice * 2) }

namespace St

variable (s : St)

def setThread (t : Nat) (x : Thread) : St := { s with thread := Function.update s.thread t x }

/-- `thread_foreach`. -/
def threadForeach (f : Thread → Option Thread) : Option St :=
  (s.allList.foldlM (fun thread t => (f (thread t)).map (Function.update thread t)) s.thread).map
    fun thread => { s with thread := thread }

/-- The threads that run or are ready to. -/
def readyThreads : Int32 :=
  Int32.ofNat s.readyList.length + if s.current = idleThread then 0 else 1

def nextLoadAvg : FixedPoint :=
  fixAdd (fixMul (fixFrac 59 60) s.loadAvg) (fixMul (fixFrac 1 60) (fixInt s.readyThreads))

def updateLoadAvg : Option St :=
  if fixIntAsserts s.readyThreads then some { s with loadAvg := s.nextLoadAvg } else none

/-- The running thread's `recent_cpu` grows by 1. -/
def charge : St :=
  s.setThread s.current
    { s.thread s.current with recentCpu := fixAdd (s.thread s.current).recentCpu (fixInt 1) }

def updatePriorities (currTicks : Int32) : Option St :=
  if currTicks % 4 = 0 then s.threadForeach (some ∘ threadUpdatePriority) else some s

def updateStatistics (currTicks : Int32) : Option St :=
  if currTicks % timerFreq = 0 then
    s.updateLoadAvg.bind fun s => s.threadForeach (threadUpdateRecentCpu s.loadAvg)
  else some s

/-- `thread_tick`; `timer_ticks` is cut to an `int`. -/
def threadTick : Option St :=
  let currTicks := Int32.ofInt s.ticks
  (s.charge.updatePriorities currTicks).bind fun s => s.updateStatistics currTicks

def timerInterrupt : Option St := threadTick { s with ticks := s.ticks + 1 }

/-- `thread_set_nice` up to the comparison with `ready_list`, after which it may yield. -/
def threadSetNice (nice : Int32) : Option St :=
  (threadUpdateRecentCpu s.loadAvg { s.thread s.current with nice := nice }).map fun t =>
    s.setThread s.current (threadUpdatePriority t)

def threadGetLoadAvg : Int32 := hundredfold s.loadAvg

def threadGetRecentCpu : Int32 := hundredfold (s.thread s.current).recentCpu

end St

inductive Act where
  | tick
  | setNice (nice : Int32)
  /-- A context switch, for whatever reason. -/
  | switch (next : Nat) (ready : List Nat)
  | create (t : Nat)
  | exit (next : Nat) (ready : List Nat)

def step (s : St) : Act → Option St
  | .tick => s.timerInterrupt
  | .setNice nice => s.threadSetNice nice
  | .switch next ready =>
      if next ∈ s.allList then some { s with current := next, readyList := ready } else none
  | .create t =>
      if t ∈ s.allList then none else some { s.setThread t newThread with allList := s.allList ++ [t] }
  | .exit next ready =>
      if next ∈ s.allList ∧ next ≠ s.current then
        some { s with allList := s.allList.erase s.current, current := next, readyList := ready }
      else none

/-- After `thread_start`. -/
def St.init : St := ⟨[mainThread, idleThread], fun _ => newThread, mainThread, [], fixInt 0, 0⟩

/-- A step that was made. -/
structure Entry where
  before : St
  act : Act
  after : St

inductive Run : List Entry → St → Prop where
  | nil : Run [] St.init
  | snoc {s s' : St} {a : Act} {tr : List Entry} : Run tr s → step s a = some s' →
      Run (tr ++ [⟨s, a, s'⟩]) s'

variable {s s' : St} {t u : Nat} {f : Thread → Option Thread} {n : Int32} {tr : List Entry} {a : Act}

/-! ## Steps -/

/-- A loop over `all_list` that changes each thread by itself: it gets through if each change does, and
every thread is changed once, because none is listed twice. -/
theorem foldlM_update {l : List Nat} {thread thread' : Nat → Thread} (hnodup : l.Nodup)
    (h : l.foldlM (fun thread t => (f (thread t)).map (Function.update thread t)) thread = some thread') :
    (∀ t ∈ l, f (thread t) = some (thread' t)) ∧ ∀ t, t ∉ l → thread' t = thread t := by
  induction l generalizing thread with
  | nil =>
      cases h
      exact ⟨fun t ht => absurd ht List.not_mem_nil, fun _ _ => rfl⟩
  | cons u l ih =>
      obtain ⟨hu, hnodup⟩ := List.nodup_cons.mp hnodup
      rw [List.foldlM_cons] at h
      obtain ⟨thread₁, h₁, h₂⟩ := Option.bind_eq_some_iff.mp h
      obtain ⟨x, hx, rfl⟩ := Option.map_eq_some_iff.mp h₁
      obtain ⟨hmem, hother⟩ := ih hnodup h₂
      refine ⟨fun t ht => ?_, fun t ht => ?_⟩
      · rcases List.mem_cons.mp ht with rfl | ht
        · rw [hother t hu, Function.update_self]
          exact hx
        · have hne : t ≠ u := fun he => hu (he ▸ ht)
          have hf := hmem t ht
          rw [Function.update_of_ne hne] at hf
          exact hf
      · obtain ⟨hne, ht⟩ := not_or.mp (mt List.mem_cons.mpr ht)
        rw [hother t ht, Function.update_of_ne hne]

/-- Every thread of `all_list` is treated once. -/
theorem threadForeach_spec (hnodup : s.allList.Nodup) (h : s.threadForeach f = some s') :
    s' = { s with thread := s'.thread } ∧ (∀ t ∈ s.allList, f (s.thread t) = some (s'.thread t)) := by
  obtain ⟨thread, hfold, rfl⟩ := Option.map_eq_some_iff.mp h
  exact ⟨rfl, (foldlM_update hnodup hfold).1⟩

/-- The `recent_cpu` of a thread after the running one has been charged. -/
def charged (s : St) (t : Nat) : FixedPoint :=
  if t = s.current then fixAdd (s.thread t).recentCpu (fixInt 1) else (s.thread t).recentCpu

/-- The interrupt is one of every four. -/
def QuarterTick (s : St) : Prop := Int32.ofInt (s.ticks + 1) % 4 = 0

/-- The interrupt is taken for the end of a second. -/
def SecondTick (s : St) : Prop := Int32.ofInt (s.ticks + 1) % timerFreq = 0

instance decidableQuarterTick (s : St) : Decidable (QuarterTick s) := by
  unfold QuarterTick
  infer_instance

instance decidableSecondTick (s : St) : Decidable (SecondTick s) := by
  unfold SecondTick
  infer_instance

/-- A timer interrupt as a whole. -/
structure Ticked (s s' : St) : Prop where
  ticks : s'.ticks = s.ticks + 1
  allList : s'.allList = s.allList
  current : s'.current = s.current
  readyList : s'.readyList = s.readyList
  nice : ∀ t ∈ s.allList, (s'.thread t).nice = (s.thread t).nice
  recentCpu : ∀ t ∈ s.allList, (s'.thread t).recentCpu =
    if SecondTick s then nextRecentCpu s'.loadAvg (s.thread t).nice (charged s t) else charged s t
  priority : ∀ t ∈ s.allList, (s'.thread t).priority =
    if QuarterTick s then priMax - (fixRound (fixUnscale (charged s t) 4) + (s.thread t).nice * 2)
    else (s.thread t).priority

theorem charge_thread (s : St) (t : Nat) :
    s.charge.thread t = { s.thread t with recentCpu := charged s t } := by
  unfold St.charge St.setThread charged
  by_cases ht : t = s.current
  · rw [ht, if_pos rfl]
    exact Function.update_self ..
  · rw [if_neg ht]
    exact Function.update_of_ne ht ..

/-- Every fourth tick each thread gets the priority that its
`recent_cpu` and `nice` make; other ticks change none. -/
theorem updatePriorities_spec {c : Int32} (hnodup : s.allList.Nodup)
    (h : s.updatePriorities c = some s') :
    s' = { s with thread := s'.thread } ∧
      ∀ t ∈ s.allList, s'.thread t = if c % 4 = 0 then threadUpdatePriority (s.thread t)
      else s.thread t := by
  unfold St.updatePriorities at h
  by_cases hc : c % 4 = 0
  · rw [if_pos hc] at h
    obtain ⟨heq, hall⟩ := threadForeach_spec hnodup h
    refine ⟨heq, fun t ht => ?_⟩
    rw [if_pos hc]
    exact (Option.some.inj (hall t ht)).symm
  · rw [if_neg hc] at h
    cases h
    exact ⟨rfl, fun t _ => by rw [if_neg hc]⟩

/-- At a second `load_avg` is computed first, and `recent_cpu` of each thread from the new value. -/
theorem updateStatistics_spec {c : Int32} (hnodup : s.allList.Nodup)
    (h : s.updateStatistics c = some s') :
    s' = { s with thread := s'.thread, loadAvg := s'.loadAvg } ∧
      ∀ t ∈ s.allList, s'.thread t = if c % timerFreq = 0 then
        { s.thread t with recentCpu := nextRecentCpu s'.loadAvg (s.thread t).nice (s.thread t).recentCpu }
      else s.thread t := by
  unfold St.updateStatistics at h
  by_cases hc : c % timerFreq = 0
  · rw [if_pos hc] at h
    obtain ⟨s₁, hload, hrest⟩ := Option.bind_eq_some_iff.mp h
    unfold St.updateLoadAvg at hload
    split at hload
    · cases hload
      obtain ⟨heq, hall⟩ := threadForeach_spec (s := { s with loadAvg := s.nextLoadAvg }) hnodup hrest
      have hload : s'.loadAvg = s.nextLoadAvg := by rw [heq]
      refine ⟨by rw [heq], fun t ht => ?_⟩
      have hf := hall t ht
      unfold threadUpdateRecentCpu at hf
      split at hf
      · rw [if_pos hc, hload]
        exact (Option.some.inj hf).symm
      · cases hf
    · cases hload
  · rw [if_neg hc] at h
    cases h
    exact ⟨rfl, fun t _ => by rw [if_neg hc]⟩

/-- A tick, put together: the running thread is charged, then come the priorities, from what that makes,
and the statistics last. -/
theorem timerInterrupt_spec (hnodup : s.allList.Nodup) (h : s.timerInterrupt = some s') :
    Ticked s s' := by
  let s₀ : St := { s with ticks := s.ticks + 1 }
  have hcharge : ∀ t, s₀.charge.thread t = { s.thread t with recentCpu := charged s t } :=
    charge_thread s₀
  obtain ⟨s₁, h₁, h₂⟩ := Option.bind_eq_some_iff.mp
    (show (s₀.charge.updatePriorities (Int32.ofInt (s.ticks + 1))).bind (fun s₁ =>
      s₁.updateStatistics (Int32.ofInt (s.ticks + 1))) = some s' from h)
  obtain ⟨heq₁, hall₁⟩ := updatePriorities_spec (s := s₀.charge) hnodup h₁
  have hlist₁ : s₁.allList = s.allList := by rw [heq₁]; rfl
  obtain ⟨heq, hall⟩ := updateStatistics_spec (by rw [hlist₁]; exact hnodup) h₂
  have hthread : ∀ t ∈ s.allList, s'.thread t = _ := fun t ht => hall t (by rw [hlist₁]; exact ht)
  refine ⟨by rw [heq, heq₁]; rfl, by rw [heq]; exact hlist₁, by rw [heq, heq₁]; rfl,
    by rw [heq, heq₁]; rfl, fun t ht => ?_, fun t ht => ?_, fun t ht => ?_⟩ <;>
  · rw [hthread t ht, hall₁ t ht, hcharge t]
    by_cases hq : Int32.ofInt (s.ticks + 1) % 4 = 0 <;>
      by_cases hr : Int32.ofInt (s.ticks + 1) % timerFreq = 0 <;>
        simp only [QuarterTick, SecondTick, hq, hr, if_true, if_false, threadUpdatePriority]

theorem setThread_self (s : St) (t : Nat) (x : Thread) : (s.setThread t x).thread t = x :=
  Function.update_self ..

theorem setThread_of_ne {x : Thread} (h : u ≠ t) : (s.setThread t x).thread u = s.thread u :=
  Function.update_of_ne h ..

theorem threadSetNice_spec (h : s.threadSetNice n = some s') :
    s' = s.setThread s.current (threadUpdatePriority
      { s.thread s.current with
        nice := n, recentCpu := nextRecentCpu s.loadAvg n (s.thread s.current).recentCpu }) := by
  obtain ⟨x, hx, rfl⟩ := Option.map_eq_some_iff.mp h
  unfold threadUpdateRecentCpu at hx
  split at hx
  · rw [← Option.some.inj hx]
  · cases hx

theorem switch_spec {next : Nat} {ready : List Nat} (h : step s (.switch next ready) = some s') :
    next ∈ s.allList ∧ s' = { s with current := next, readyList := ready } := by
  obtain ⟨hnext, heq⟩ := Option.ite_none_right_eq_some.mp h
  exact ⟨hnext, (Option.some.inj heq).symm⟩

theorem create_spec (h : step s (.create t) = some s') :
    t ∉ s.allList ∧ s' = { s.setThread t newThread with allList := s.allList ++ [t] } := by
  obtain ⟨hnew, heq⟩ := Option.ite_none_left_eq_some.mp h
  exact ⟨hnew, (Option.some.inj heq).symm⟩

theorem exit_spec {next : Nat} {ready : List Nat} (h : step s (.exit next ready) = some s') :
    (next ∈ s.allList ∧ next ≠ s.current) ∧
      s' = { s with allList := s.allList.erase s.current, current := next, readyList := ready } := by
  obtain ⟨hnext, heq⟩ := Option.ite_none_right_eq_some.mp h
  exact ⟨hnext, (Option.some.inj heq).symm⟩

/-- The threads after a new one has been set up. -/
theorem created_thread (s : St) (t u : Nat) :
    (s.setThread u newThread).thread t = if t = u then newThread else s.thread t := by
  by_cases htu : t = u
  · rw [if_pos htu, htu, setThread_self]
  · rw [if_neg htu, setThread_of_ne htu]

/-! ## What holds in every run -/

/-- The arguments of `thread_set_nice` are nice values. -/
def NiceRange (tr : List Entry) : Prop :=
  ∀ y ∈ tr, ∀ n, y.act = .setNice n → -20 ≤ n.toInt ∧ n.toInt ≤ 20

structure Inv (s : St) : Prop where
  nodup : s.allList.Nodup
  current : s.current ∈ s.allList

structure NiceInv (s : St) : Prop where
  nice : ∀ t ∈ s.allList, -20 ≤ (s.thread t).nice.toInt ∧ (s.thread t).nice.toInt ≤ 20

/-- No step lists a thread twice, and the running thread stays in the list. -/
theorem Inv.step (hinv : Inv s) (h : step s a = some s') : Inv s' := by
  cases a with
  | tick =>
      have hticked := timerInterrupt_spec hinv.nodup h
      exact ⟨by rw [hticked.allList]; exact hinv.nodup,
        by rw [hticked.allList, hticked.current]; exact hinv.current⟩
  | setNice n =>
      rw [threadSetNice_spec h]
      exact ⟨hinv.nodup, hinv.current⟩
  | switch next ready =>
      obtain ⟨hnext, rfl⟩ := switch_spec h
      exact ⟨hinv.nodup, hnext⟩
  | create t =>
      obtain ⟨hnew, rfl⟩ := create_spec h
      refine ⟨?_, List.mem_append_left _ hinv.current⟩
      exact List.nodup_append.mpr ⟨hinv.nodup, List.nodup_singleton t, fun u hu v hv he => by
        rw [List.mem_singleton.mp hv] at he
        exact hnew (he ▸ hu)⟩
  | exit next ready =>
      obtain ⟨⟨hnext, hne⟩, rfl⟩ := exit_spec h
      exact ⟨hinv.nodup.erase _, (List.mem_erase_of_ne hne).mpr hnext⟩

theorem newThread_nice : -20 ≤ newThread.nice.toInt ∧ newThread.nice.toInt ≤ 20 := by decide

/-- `nice` stays between -20 and 20, as long as the arguments are. -/
theorem NiceInv.step (hnice : NiceInv s) (hinv : Inv s) (h : step s a = some s')
    (harg : ∀ n, a = .setNice n → -20 ≤ n.toInt ∧ n.toInt ≤ 20) : NiceInv s' := by
  refine ⟨fun t ht => ?_⟩
  cases a with
  | tick =>
      have hticked := timerInterrupt_spec hinv.nodup h
      rw [hticked.allList] at ht
      rw [hticked.nice t ht]
      exact hnice.nice t ht
  | setNice n =>
      obtain rfl := threadSetNice_spec h
      by_cases hcur : t = s.current
      · rw [hcur, setThread_self]
        exact harg n rfl
      · rw [setThread_of_ne hcur]
        exact hnice.nice t ht
  | switch next ready =>
      obtain ⟨-, rfl⟩ := switch_spec h
      exact hnice.nice t ht
  | create u =>
      obtain ⟨-, rfl⟩ := create_spec h
      rw [created_thread]
      split_ifs with htu
      · exact newThread_nice
      · exact hnice.nice t ((List.mem_append.mp ht).resolve_right (mt List.mem_singleton.mp htu))
  | exit next ready =>
      obtain ⟨-, rfl⟩ := exit_spec h
      exact hnice.nice t (List.mem_of_mem_erase ht)

theorem Run.inv (h : Run tr s) : Inv s := by
  induction h with
  | nil => exact ⟨by decide, by decide⟩
  | snoc _ hstep ih => exact ih.step hstep

theorem NiceRange.init {y : Entry} (h : NiceRange (tr ++ [y])) : NiceRange tr :=
  fun x hx => h x (List.mem_append_left _ hx)

theorem NiceRange.last {y : Entry} (h : NiceRange (tr ++ [y])) :
    ∀ n, y.act = .setNice n → -20 ≤ n.toInt ∧ n.toInt ≤ 20 :=
  h y List.mem_concat_self

theorem Run.niceInv (h : Run tr s) (hnice : NiceRange tr) : NiceInv s := by
  induction h with
  | nil => exact ⟨fun _ _ => newThread_nice⟩
  | snoc hrun hstep ih => exact (ih hnice.init).step hrun.inv hstep hnice.last

/-! ## Interrupts in a row -/

/-- `k` timer interrupts, one after the other. -/
def St.ticked (s : St) : Nat → Option St
  | 0 => some s
  | k + 1 => (s.ticked k).bind St.timerInterrupt

/-- One of `k` interrupts in a row. -/
structure TickOf (s : St) (k : Nat) (y : Entry) : Prop where
  act : y.act = .tick
  ticks : s.ticks ≤ y.before.ticks ∧ y.before.ticks < s.ticks + k
  current : y.before.current = s.current
  readyList : y.before.readyList = s.readyList

/-- As many ticks in a row as one likes are a run, and each entry of it is a tick. -/
theorem Run.ticked {k : Nat} (h : Run tr s) (hticked : s.ticked k = some s') :
    ∃ tr', tr'.length = k ∧ Run (tr ++ tr') s' ∧ (∀ y ∈ tr', TickOf s k y) ∧
      s'.ticks = s.ticks + k ∧ s'.current = s.current ∧ s'.readyList = s.readyList := by
  induction k generalizing s' with
  | zero =>
      cases hticked
      exact ⟨[], rfl, (List.append_nil tr).symm ▸ h, fun _ hy => absurd hy List.not_mem_nil,
        (Int.add_zero _).symm, rfl, rfl⟩
  | succ k ih =>
      obtain ⟨s₁, h₁, h₂⟩ := Option.bind_eq_some_iff.mp hticked
      obtain ⟨tr', hlen, hrun, hall, hticks, hcur, hready⟩ := ih h₁
      have hlast := timerInterrupt_spec hrun.inv.nodup h₂
      refine ⟨tr' ++ [⟨s₁, .tick, s'⟩], by rw [List.length_append, hlen]; rfl, ?_, ?_, ?_,
        hlast.current.trans hcur, hlast.readyList.trans hready⟩
      · rw [← List.append_assoc]
        exact hrun.snoc h₂
      · rw [List.forall_mem_append, List.forall_mem_singleton]
        refine ⟨fun y hy => ?_, rfl, ⟨?_, ?_⟩, hcur, hready⟩
        · obtain ⟨hact, ⟨hlo, hhi⟩, hcur', hready'⟩ := hall y hy
          exact ⟨hact, ⟨hlo, by omega⟩, hcur', hready'⟩
        · show s.ticks ≤ s₁.ticks
          omega
        · show s₁.ticks < _
          omega
      · rw [hlast.ticks, hticks]
        omega

/-! ## Priorities -/

/-- Every priority is one. -/
def Legal (s : St) : Prop :=
  ∀ t ∈ s.allList, 0 ≤ (s.thread t).priority.toInt ∧ (s.thread t).priority.toInt ≤ 63

/-- What `recent_cpu` may be for the priority to be legal. -/
def InRange (recentCpu : FixedPoint) (nice : Int32) : Prop :=
  recentCpu.f.toInt < (254 - 8 * nice.toInt) * 65536 ∧
    if nice.toInt < 0 then (-8 * nice.toInt - 2) * 65536 ≤ recentCpu.f.toInt
    else (-8 * nice.toInt - 6) * 65536 < recentCpu.f.toInt

instance decidableInRange (recentCpu : FixedPoint) (nice : Int32) :
    Decidable (InRange recentCpu nice) := by
  unfold InRange
  infer_instance

/-- The rounded quarter of a number. -/
theorem quarter_bounds {f : Int} (hf : Fits f) : ∃ r, (f.tdiv 4 + 32768).tdiv 65536 = r ∧
    Fits (f.tdiv 4 + 32768) ∧ -8192 ≤ r ∧ r ≤ 8192 ∧
      (∀ k, 0 ≤ k → (r ≤ k ↔ f < (4 * k + 2) * 65536)) ∧
        (∀ m, 0 < m → (m ≤ r ↔ (4 * m - 2) * 65536 ≤ f)) ∧
          ∀ m, m ≤ 0 → (m ≤ r ↔ (4 * m - 6) * 65536 < f) := by
  obtain ⟨hlo, hhi⟩ := hf
  refine ⟨_, rfl, ?_⟩
  rcases le_or_gt 0 f with hf | hf
  · rw [Int.tdiv_eq_ediv_of_nonneg hf, Int.tdiv_eq_ediv_of_nonneg (by omega)]
    unfold Fits
    refine ⟨by omega, by omega, by omega, ?_, ?_, ?_⟩ <;>
    · intro k hk
      constructor <;> omega
  · rw [tdiv_of_neg hf]
    unfold Fits
    rcases le_or_gt 0 (-(-f / 4) + 32768) with hq | hq
    · rw [Int.tdiv_eq_ediv_of_nonneg hq]
      refine ⟨by omega, by omega, by omega, ?_, ?_, ?_⟩ <;>
      · intro k hk
        constructor <;> omega
    · rw [tdiv_of_neg hq]
      refine ⟨by omega, by omega, by omega, ?_, ?_, ?_⟩ <;>
      · intro k hk
        constructor <;> omega

/-- When `thread_update_priority` stores a legal priority: `recent_cpu` / 4 is rounded, and so the
bounds on `recent_cpu` are not those that the formula suggests. -/
theorem priority_legal_iff {x : Thread} (hnice : -20 ≤ x.nice.toInt ∧ x.nice.toInt ≤ 20) :
    (0 ≤ (threadUpdatePriority x).priority.toInt ∧ (threadUpdatePriority x).priority.toInt ≤ 63) ↔
      InRange x.recentCpu x.nice := by
  obtain ⟨r, hr, hsum, hlo, hhi, hupper, hpos, hneg⟩ := quarter_bounds (fits_toInt x.recentCpu.f)
  have hquarter : (fixUnscale x.recentCpu 4).f.toInt = x.recentCpu.f.toInt.tdiv 4 :=
    toInt_fixUnscale (by decide)
  have hround : (fixRound (fixUnscale x.recentCpu 4)).toInt = r := by
    rw [toInt_fixRound (by rw [hquarter]; exact hsum), hquarter, hr]
  have htwice : (x.nice * 2).toInt = x.nice.toInt * 2 := by
    have htwo : (2 : Int32).toInt = 2 := rfl
    rw [toInt_mul (by rw [htwo]; exact ⟨by omega, by omega⟩), htwo]
  have hweighted : (fixRound (fixUnscale x.recentCpu 4) + x.nice * 2).toInt = r + x.nice.toInt * 2 := by
    rw [toInt_add (by rw [hround, htwice]; exact ⟨by omega, by omega⟩), hround, htwice]
  have hpriority : (threadUpdatePriority x).priority.toInt = 63 - (r + x.nice.toInt * 2) := by
    have hmax : priMax.toInt = 63 := rfl
    unfold threadUpdatePriority
    rw [toInt_sub (by rw [hmax, hweighted]; exact ⟨by omega, by omega⟩), hmax, hweighted]
  rw [hpriority]
  unfold InRange
  have htop := hupper (63 - 2 * x.nice.toInt) (by omega)
  split_ifs with hsign
  · have hbottom := hpos (-2 * x.nice.toInt) (by omega)
    constructor <;> omega
  · have hbottom := hneg (-2 * x.nice.toInt) (by omega)
    constructor <;> omega

/-- What a step needs of the state before it. -/
def Meets (y : Entry) : Prop :=
  match y.act with
  | .tick => QuarterTick y.before →
      ∀ t ∈ y.before.allList, InRange (charged y.before t) (y.before.thread t).nice
  | .setNice n =>
      InRange (nextRecentCpu y.before.loadAvg n (y.before.thread y.before.current).recentCpu) n
  | _ => True

/-- One step: the priorities are legal after it exactly if what it computes them from is in range. -/
theorem step_legal_iff (hinv : Inv s) (hnice : NiceInv s) (hlegal : Legal s)
    (harg : ∀ n, a = .setNice n → -20 ≤ n.toInt ∧ n.toInt ≤ 20) (h : step s a = some s') :
    Legal s' ↔ Meets ⟨s, a, s'⟩ := by
  cases a with
  | tick =>
      have hticked := timerInterrupt_spec hinv.nodup h
      have hupdated : ∀ t ∈ s.allList, QuarterTick s → (0 ≤ (s'.thread t).priority.toInt ∧
          (s'.thread t).priority.toInt ≤ 63 ↔ InRange (charged s t) (s.thread t).nice) := by
        intro t ht hquarter
        rw [hticked.priority t ht, if_pos hquarter]
        exact priority_legal_iff (x := ⟨(s.thread t).nice, charged s t, 0⟩) (hnice.nice t ht)
      unfold Legal
      rw [hticked.allList]
      constructor
      · intro hlegal' hquarter t ht
        exact (hupdated t ht hquarter).mp (hlegal' t ht)
      · intro hmeets t ht
        by_cases hquarter : QuarterTick s
        · exact (hupdated t ht hquarter).mpr (hmeets hquarter t ht)
        · rw [hticked.priority t ht, if_neg hquarter]
          exact hlegal t ht
  | setNice n =>
      obtain rfl := threadSetNice_spec h
      have hupdated := priority_legal_iff (x := ⟨n, nextRecentCpu s.loadAvg n
        (s.thread s.current).recentCpu, (s.thread s.current).priority⟩) (harg n rfl)
      constructor
      · intro hlegal'
        have hcur := hlegal' s.current hinv.current
        rw [setThread_self] at hcur
        exact hupdated.mp hcur
      · intro hmeets t ht
        by_cases hcur : t = s.current
        · rw [hcur, setThread_self]
          exact hupdated.mpr hmeets
        · rw [setThread_of_ne hcur]
          exact hlegal t ht
  | switch next ready =>
      obtain ⟨-, rfl⟩ := switch_spec h
      exact iff_of_true hlegal trivial
  | create t =>
      obtain ⟨-, rfl⟩ := create_spec h
      refine iff_of_true (fun u hu => ?_) trivial
      rw [created_thread]
      split_ifs with htu
      · decide
      · exact hlegal u ((List.mem_append.mp hu).resolve_right (mt List.mem_singleton.mp htu))
  | exit next ready =>
      obtain ⟨-, rfl⟩ := exit_spec h
      exact iff_of_true (fun t ht => hlegal t (List.mem_of_mem_erase ht)) trivial

/-- The state that a run has reached, from its last step. -/
theorem Run.legal (h : Run tr s) (hlegal : ∀ y ∈ tr, Legal y.after) : Legal s := by
  cases h with
  | nil => exact fun _ _ => (by decide : 0 ≤ newThread.priority.toInt ∧ newThread.priority.toInt ≤ 63)
  | snoc _ _ => exact hlegal _ List.mem_concat_self

/-- Priorities stay legal for as long as `recent_cpu` is in range whenever they are computed. -/
theorem legal_iff (h : Run tr s) (hnice : NiceRange tr) :
    (∀ y ∈ tr, Legal y.after) ↔ ∀ y ∈ tr, Meets y := by
  induction h with
  | nil => exact iff_of_true (fun _ h => absurd h List.not_mem_nil) fun _ h => absurd h List.not_mem_nil
  | snoc hrun hstep ih =>
      rw [List.forall_mem_append, List.forall_mem_append, ih hnice.init, List.forall_mem_singleton,
        List.forall_mem_singleton]
      refine and_congr_right fun hmeets => ?_
      exact step_legal_iff hrun.inv (hrun.niceInv hnice.init) (hrun.legal ((ih hnice.init).mpr hmeets))
        hnice.last hstep

/-- The first thread sets its nice value as its first deed. -/
theorem first_setNice (h : (St.init.threadSetNice n).isSome) : ∃ s, Run [⟨.init, .setNice n, s⟩] s ∧
    s.loadAvg = fixInt 0 ∧ mainThread ∈ s.allList ∧ s.current = mainThread ∧
      s.thread mainThread =
        threadUpdatePriority ⟨n, nextRecentCpu (fixInt 0) n (fixInt 0), priDefault⟩ := by
  obtain ⟨s, hs⟩ := Option.isSome_iff_exists.mp h
  refine ⟨s, Run.snoc .nil hs, ?_⟩
  rw [threadSetNice_spec hs]
  exact ⟨rfl, List.mem_cons_self, rfl, setThread_self ..⟩

/-- A nice value is set, and the fourth interrupt after it computes the priorities. -/
theorem legal_iff_first : ∃ tr s, Run tr s ∧ (∀ y ∈ tr, Legal y.after) ∧
    (∃ y ∈ tr, y.act = .tick ∧ QuarterTick y.before) ∧
      (s.thread mainThread).priority = 51 ∧ (s.thread idleThread).priority = 63 := by
  have hrun : ((St.init.threadSetNice 5).bind fun s₁ => (s₁.ticked 3).bind fun s₂ =>
      s₂.timerInterrupt.map fun s => decide (
        (∀ t ∈ s₂.allList, InRange (charged s₂ t) (s₂.thread t).nice) ∧
        QuarterTick s₂ ∧ (s.thread mainThread).priority = 51 ∧ (s.thread idleThread).priority = 63)) =
      some true := by decide +kernel
  obtain ⟨s₁, h₁, hrun⟩ := Option.bind_eq_some_iff.mp hrun
  obtain ⟨s₂, h₂, hrun⟩ := Option.bind_eq_some_iff.mp hrun
  obtain ⟨s, h, hvalues⟩ := Option.map_eq_some_iff.mp hrun
  obtain ⟨hrange, hquarter, hprio⟩ := of_decide_eq_true hvalues
  have hticks : s₁.ticks = 0 := by
    rw [threadSetNice_spec h₁]
    rfl
  have hrun₁ : Run [⟨.init, .setNice 5, s₁⟩] s₁ := Run.snoc .nil h₁
  obtain ⟨tr, -, hrun₂, htick, -⟩ := hrun₁.ticked h₂
  have hrun₃ := hrun₂.snoc (a := .tick) h
  refine ⟨_, s, hrun₃, (legal_iff hrun₃ ?_).mpr ?_,
    ⟨_, List.mem_concat_self, rfl, hquarter⟩, hprio⟩
  · intro y hy n hn
    rw [List.append_assoc, List.singleton_append, List.mem_cons, List.mem_append, List.mem_singleton]
      at hy
    rcases hy with rfl | hy | rfl
    · cases hn
      decide
    · rw [(htick y hy).act] at hn
      cases hn
    · cases hn
  · rw [List.forall_mem_append, List.forall_mem_append, List.forall_mem_singleton,
      List.forall_mem_singleton]
    refine ⟨⟨?_, fun y hy => ?_⟩, fun _ => hrange⟩
    · exact (by decide : InRange (nextRecentCpu (fixInt 0) 5 (fixInt 0)) 5)
    · -- the first three interrupts compute no priority
      obtain ⟨hact, ⟨hlo, hhi⟩, -⟩ := htick y hy
      unfold Meets
      rw [hact]
      intro hquarter
      exfalso
      unfold QuarterTick at hquarter
      rw [hticks] at hlo hhi
      have hcases : y.before.ticks = 0 ∨ y.before.ticks = 1 ∨ y.before.ticks = 2 := by omega
      rcases hcases with heq | heq | heq <;>
      · rw [heq] at hquarter
        exact absurd hquarter (by decide)

/-- The nice value −20 gives the priority 107. -/
theorem priority_above_max : ∃ tr s, Run tr s ∧ NiceRange tr ∧ mainThread ∈ s.allList ∧
    ¬ (s.thread mainThread).priority ≤ priMax := by
  obtain ⟨s, hrun, -, hmain, -, hthread⟩ := first_setNice (n := -20) (by decide)
  refine ⟨_, s, hrun, fun y hy n hn => ?_, hmain, ?_⟩
  · rw [List.mem_singleton.mp hy] at hn
    cases hn
    decide
  · rw [hthread]
    decide

/-! ## `recent_cpu` -/

/-- What `recent_cpu` should be after one more step. -/
def Entry.owedNext (t : Nat) (v : FixedPoint) (y : Entry) : FixedPoint :=
  match y.act with
  | .tick =>
      let v := if t = y.before.current then fixAdd v (fixInt 1) else v
      if 100 ∣ y.before.ticks + 1 then nextRecentCpu y.after.loadAvg (y.before.thread t).nice v else v
  | .create u => if t = u then fixInt 0 else v
  | _ => v

/-- What `recent_cpu` should be, by the steps of the run. -/
def owed (tr : List Entry) (t : Nat) : FixedPoint := tr.foldl (Entry.owedNext t) (fixInt 0)

/-- As much of `recent_cpu` decays as the nice value adds. -/
def Steady (loadAvg : FixedPoint) (nice : Int32) (recentCpu : FixedPoint) : Prop :=
  (2 ^ 32 : Int) ∣
    recentCpu.f.toInt - ((coeff loadAvg).f.toInt * recentCpu.f.toInt).tdiv 65536 - nice.toInt * 65536

/-- When an update leaves `recent_cpu` as it is. -/
theorem nextRecentCpu_eq_iff {loadAvg x : FixedPoint} :
    nextRecentCpu loadAvg n x = x ↔ Steady loadAvg n x := by
  have hnext : (nextRecentCpu loadAvg n x).f.toInt =
      (((coeff loadAvg).f.toInt * x.f.toInt).tdiv 65536 + n.toInt * 65536).bmod (2 ^ 32) := by
    unfold nextRecentCpu fixAdd fixMul fixInt
    rw [Int32.toInt_add, Int32.toInt_mul, Int32.toInt_ofInt, toInt_fixF, Int.bmod_add_bmod,
      Int.add_bmod_bmod]
  have hinj : nextRecentCpu loadAvg n x = x ↔ (nextRecentCpu loadAvg n x).f.toInt = x.f.toInt := by
    rw [Int32.toInt_inj]
    exact ⟨congrArg FixedPoint.f, congrArg FixedPoint.mk⟩
  obtain ⟨hlo, hhi⟩ := fits_toInt x.f
  rw [hinj, hnext, Int.bmod_eq_iff (by decide), ← Int.sub_sub]
  unfold Steady
  exact ⟨fun h => h.2.2, fun h => ⟨by omega, by omega, h⟩⟩

/-- What a step needs of the state before it. -/
def Keeps (y : Entry) : Prop :=
  match y.act with
  | .tick => SecondTick y.before ↔ 100 ∣ y.before.ticks + 1
  | .setNice n => Steady y.before.loadAvg n (y.before.thread y.before.current).recentCpu
  | _ => True

/-- The end of a second is recognised as long as the ticks fit into an `int`. -/
theorem secondTick_iff (h : Fits (s.ticks + 1)) : SecondTick s ↔ 100 ∣ s.ticks + 1 := by
  have hfreq : timerFreq.toInt = 100 := rfl
  have hrem : (Int32.ofInt (s.ticks + 1) % timerFreq).toInt = (s.ticks + 1).tmod 100 := by
    rw [Int32.toInt_mod, Int32.toInt_ofInt, hfreq]
    exact congrArg (Int.tmod · 100) h.bmod
  unfold SecondTick
  rw [← Int32.toInt_inj, hrem, Int.dvd_iff_tmod_eq_zero]
  exact Iff.rfl

theorem setNice_recentCpu (h : s.threadSetNice n = some s')
    (hsteady : Steady s.loadAvg n (s.thread s.current).recentCpu) (t : Nat) :
    (s'.thread t).recentCpu = (s.thread t).recentCpu := by
  rw [threadSetNice_spec h]
  by_cases hcur : t = s.current
  · rw [hcur, setThread_self]
    exact nextRecentCpu_eq_iff.mpr hsteady
  · rw [setThread_of_ne hcur]

/-- One step keeps `recent_cpu` at what the recurrence makes of the history, unless it is a call of
`thread_set_nice` that changes it or a second that is not recognised. -/
theorem step_owed (hinv : Inv s) (h : step s a = some s') (hkeeps : Keeps ⟨s, a, s'⟩)
    (howed : ∀ t ∈ s.allList, (s.thread t).recentCpu = owed tr t) :
    ∀ t ∈ s'.allList, (s'.thread t).recentCpu = (⟨s, a, s'⟩ : Entry).owedNext t (owed tr t) := by
  intro t ht
  cases a with
  | tick =>
      have hticked := timerInterrupt_spec hinv.nodup h
      rw [hticked.allList] at ht
      have hsecond : SecondTick s ↔ 100 ∣ s.ticks + 1 := hkeeps
      rw [hticked.recentCpu t ht]
      unfold Entry.owedNext charged
      rw [howed t ht]
      simp only [hsecond]
  | setNice n =>
      obtain heq := threadSetNice_spec h
      rw [setNice_recentCpu h hkeeps t]
      exact howed t (by rw [heq] at ht; exact ht)
  | switch next ready =>
      obtain ⟨-, rfl⟩ := switch_spec h
      exact howed t ht
  | create u =>
      obtain ⟨-, rfl⟩ := create_spec h
      have hnext : ∀ s', (⟨s, .create u, s'⟩ : Entry).owedNext t (owed tr t) =
        if t = u then fixInt 0 else owed tr t := fun _ => rfl
      rw [hnext, created_thread]
      split_ifs with htu
      · rfl
      · exact howed t ((List.mem_append.mp ht).resolve_right (mt List.mem_singleton.mp htu))
  | exit next ready =>
      obtain ⟨-, rfl⟩ := exit_spec h
      exact howed t (List.mem_of_mem_erase ht)

/-- The recurrence is followed by runs in which no call of `thread_set_nice` changes
`recent_cpu` and the seconds are recognised. -/
theorem recent_cpu_follows (h : Run tr s) (hkeeps : ∀ y ∈ tr, Keeps y) :
    (∀ t ∈ s.allList, (s.thread t).recentCpu = owed tr t) ∧
      ∀ y ∈ tr, ∀ n, y.act = .setNice n →
        ∀ t, (y.after.thread t).recentCpu = (y.before.thread t).recentCpu := by
  induction h with
  | nil => exact ⟨fun _ _ => rfl, fun _ h => absurd h List.not_mem_nil⟩
  | snoc hrun hstep ih =>
      rw [List.forall_mem_append, List.forall_mem_singleton] at hkeeps
      obtain ⟨hold, hlast⟩ := hkeeps
      obtain ⟨howed, hnice⟩ := ih hold
      refine ⟨?_, ?_⟩
      · intro t ht
        unfold owed
        rw [List.foldl_append]
        exact step_owed hrun.inv hstep hlast howed t ht
      · rw [List.forall_mem_append, List.forall_mem_singleton]
        refine ⟨hnice, fun n hn t => ?_⟩
        cases hn
        exact setNice_recentCpu hstep hlast t

/-- A second with one thread running and three ready: of the
100 ticks charged, the recurrence leaves 11.76. -/
theorem recent_cpu_follows_first : ∃ tr s, Run tr s ∧ (∃ y ∈ tr, y.act = .setNice 0) ∧
    s.ticks = 100 ∧ s.loadAvg = ⟨4368⟩ ∧ (s.thread mainThread).recentCpu = ⟨770800⟩ ∧
      ∀ t ∈ s.allList, (s.thread t).recentCpu = owed tr t := by
  have hrun : ((St.init.threadSetNice 0).bind fun s₁ =>
      (St.ticked { s₁ with readyList := [4, 5, 6] } 100).map fun s =>
        decide (s.loadAvg = ⟨4368⟩ ∧ (s.thread mainThread).recentCpu = ⟨770800⟩)) =
      some true := by decide +kernel
  obtain ⟨s₁, h₁, hrun⟩ := Option.bind_eq_some_iff.mp hrun
  obtain ⟨s, h, hvalues⟩ := Option.map_eq_some_iff.mp hrun
  obtain ⟨hload, hrecent⟩ := of_decide_eq_true hvalues
  have hfirst := threadSetNice_spec h₁
  have hswitch : step s₁ (.switch mainThread [4, 5, 6]) = some { s₁ with readyList := [4, 5, 6] } := by
    rw [hfirst]
    rfl
  have hrun₂ := (Run.nil.snoc (a := .setNice 0) h₁).snoc hswitch
  obtain ⟨tr, -, hrun, htick, hticks, -⟩ := hrun₂.ticked h
  refine ⟨_, s, hrun, ⟨_, List.mem_cons_self, rfl⟩, ?_, hload, hrecent,
    (recent_cpu_follows hrun fun y hy => ?_).1⟩
  · rw [hticks, hfirst]
    rfl
  · rcases List.mem_append.mp hy with hy | hy
    · rcases List.mem_cons.mp hy with rfl | hy
      · exact nextRecentCpu_eq_iff.mp (by decide : nextRecentCpu (fixInt 0) 0 (fixInt 0) = fixInt 0)
      · rw [List.mem_singleton.mp hy]
        trivial
    · obtain ⟨hact, ⟨hlo, hhi⟩, -⟩ := htick y hy
      unfold Keeps
      rw [hact]
      rw [hfirst] at hlo hhi
      have hzero : (0 : Int) ≤ y.before.ticks ∧ y.before.ticks < 0 + 100 := ⟨hlo, hhi⟩
      exact secondTick_iff ⟨by omega, by omega⟩

/-- Setting the nice value 5 adds 5 to `recent_cpu`. -/
theorem recent_cpu_jumps : ∃ tr s, Run tr s ∧ NiceRange tr ∧ mainThread ∈ s.allList ∧
    mainThread ≠ idleThread ∧ (s.thread mainThread).recentCpu = fixInt 5 ∧
      owed tr mainThread = fixInt 0 := by
  obtain ⟨s, hrun, -, hmain, -, hthread⟩ := first_setNice (n := 5) (by decide)
  refine ⟨_, s, hrun, fun y hy n hn => ?_, hmain, by decide, ?_, rfl⟩
  · rw [List.mem_singleton.mp hy] at hn
    cases hn
    decide
  · rw [hthread]
    decide

/-! ## The getters -/

/-- Both getters. -/
structure StatisticsRight (s : St) : Prop where
  loadAvg : IsHundredfold s.threadGetLoadAvg s.loadAvg
  recentCpu : IsHundredfold s.threadGetRecentCpu (s.thread s.current).recentCpu

/-- In every state, and so in those that a run reaches: the getters are right for the values whose
hundredfold is in range and rounds up or to itself. -/
theorem statistics_right_iff (s : St) :
    StatisticsRight s ↔ Reportable s.loadAvg ∧ Reportable (s.thread s.current).recentCpu := by
  rw [← isHundredfold_iff, ← isHundredfold_iff]
  exact ⟨fun h => ⟨h.loadAvg, h.recentCpu⟩, fun h => ⟨h.1, h.2⟩⟩

/-- −20 is reported as −19.99. -/
theorem recent_cpu_reported : ∃ tr s, Run tr s ∧ NiceRange tr ∧
    (s.thread s.current).recentCpu = fixInt (-20) ∧ s.threadGetRecentCpu = -1999 ∧
    ¬ StatisticsRight s := by
  obtain ⟨s, hrun, -, -, hcur, hthread⟩ := first_setNice (n := -20) (by decide)
  have hrecent : (s.thread s.current).recentCpu = fixInt (-20) := by
    rw [hcur, hthread]
    decide
  refine ⟨_, s, hrun, fun y hy n hn => ?_, hrecent, ?_, fun h => ?_⟩
  · rw [List.mem_singleton.mp hy] at hn
    cases hn
    decide
  · unfold St.threadGetRecentCpu
    rw [hrecent]
    decide
  · have hreportable := (isHundredfold_iff _).mp h.recentCpu
    rw [hrecent] at hreportable
    exact absurd hreportable (by decide)

end Mlfqs

end CS162.Kernel
