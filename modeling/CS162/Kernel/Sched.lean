/-
# `CS162.Kernel.Sched` — threads, run queue, semaphores, locks and the timer

The priority-scheduler kernel on one processor.  A step is a section that runs with
interrupts off, by the running thread, or a timer interrupt.  `Pc` says where a thread
continues: after a call of `thread_block` or `thread_yield`, or after interrupts have
come on again inside a call.  A timer interrupt is possible where interrupts are on.

`thread_create` takes and releases the lock inside `allocate_tid`; the argument `c` of
the places inside `lock_acquire` and `lock_release` is the new thread if the call comes
from there.

The state begins after `thread_start`: the first thread runs, and the idle thread has
come to its first `sema_up`.  `fault` records a failed assertion of `thread_unblock`;
other assertions that fail end the run.  `parent` is not part of the kernel: it is the
thread that created another one.
-/
import CS162.Kernel.Priority
import CS162.Kernel.Sema

namespace CS162.Kernel

namespace Sched

/-- A `struct semaphore` of its own, or the one in a `struct lock`. -/
inductive SemaId where
  | user (k : Nat)
  | lock (l : Nat)
  deriving DecidableEq

/-- `enum thread_status`, and `absent` for a thread that has not been created. -/
inductive Status where
  | absent
  | running
  | ready
  | blocked
  | dying
  deriving DecidableEq

inductive Pc where
  | user
  | start
  | idle
  | semaDown (k : Nat)
  | lockRequested (l : Nat) (c : Option Nat)
  | lockDown (l : Nat) (c : Option Nat)
  | lockAcquired (l : Nat) (c : Option Nat)
  | tidRelease (n : Nat)
  | unlock (l : Nat) (c : Option Nat)
  | returning (c : Option Nat)
  | unblockNew (n : Nat)
  | maybeYield (n : Nat)
  | asleep
  | exited
  deriving DecidableEq

/-- Interrupts are on at that place.  A thread that was switched to goes on with
interrupts off. -/
def Pc.intrOn : Pc → Bool
  | .user | .start | .idle | .lockRequested _ _ | .lockAcquired _ _ | .tidRelease _
  | .unblockNew _ | .maybeYield _ => true
  | .semaDown _ | .lockDown _ _ | .unlock _ _ | .returning _ | .asleep | .exited => false

structure St where
  books : Books
  status : Nat → Status
  pc : Nat → Pc
  current : Nat
  readyList : List Nat
  sema : SemaId → Sema Nat
  sleeping : List (Int × Nat)
  ticks : Int
  threadTicks : Nat
  next : Nat
  parent : Nat → Nat
  fault : Bool

inductive Call where
  | create (priority : Int)
  | yield
  | semaDown (k : Nat)
  | semaUp (k : Nat)
  | lockAcquire (l : Nat)
  | lockRelease (l : Nat)
  | setPriority (newPriority : Int)
  | sleep (ticks : Int)
  | exit

inductive Act where
  | call (c : Call)
  | go
  | tick

/-- The lock inside `allocate_tid`. -/
def tidLock : Nat := 0

def mainThread : Nat := 1

def idleThread : Nat := 2

/-- `TIME_SLICE`. -/
def timeSlice : Nat := 4

namespace St

variable (s : St)

/-- The running thread continues at `p`. -/
def goto (p : Pc) : St := { s with pc := Function.update s.pc s.current p }

def setStatus (t : Nat) (st : Status) : St := { s with status := Function.update s.status t st }

def setSema (k : SemaId) (S : Sema Nat) : St := { s with sema := Function.update s.sema k S }

def setBooks (B : Books) : St := { s with books := B }

def eff (t : Nat) : Int := s.books.effectivePriority t

/-! ### `thread.c` -/

def threadUnblock (t : Nat) : St :=
  if s.status t = .blocked then { s.setStatus t .ready with readyList := s.readyList ++ [t] }
  else { s with fault := true }

/-- `list_max` with `compare_thread`. -/
def nextThreadToRun : Nat :=
  match s.readyList.argmax s.books.effectivePriority with
  | none => idleThread
  | some t => t

/-- `schedule` and `thread_schedule_tail`; the status of the running thread has been
changed. -/
def schedule : St :=
  { s.setStatus s.nextThreadToRun .running with
    readyList := s.readyList.erase s.nextThreadToRun
    current := s.nextThreadToRun
    threadTicks := 0 }

def threadBlock : St := (s.setStatus s.current .blocked).schedule

def threadYield : St :=
  schedule { s.setStatus s.current .ready with
    readyList := if s.current = idleThread then s.readyList else s.readyList ++ [s.current] }

def threadExit : St := ((s.setStatus s.current .dying).goto .exited).schedule

/-! ### `synch.c` -/

/-- The loop of `sema_down`, once: on to `after`, or blocked at `here`. -/
def semaDown (k : SemaId) (here after : Pc) : St :=
  match (s.sema k).tryDown with
  | some S => (s.setSema k S).goto after
  | none => ((s.setSema k ((s.sema k).wait s.current)).goto here).threadBlock

/-- The thread that `sema_up` unblocks. -/
def wakeFirst (k : SemaId) : St :=
  match (s.sema k).first s.books.effectivePriority with
  | some w => (s.setSema k ((s.sema k).up (some w))).threadUnblock w
  | none => s.setSema k ((s.sema k).up none)

def semaUp (k : SemaId) (c : Option Nat) : St := ((s.wakeFirst k).goto (.returning c)).threadYield

/-- `lock_acquire` up to `sema_down`. -/
def lockAcquire (l : Nat) (c : Option Nat) : Option St :=
  if s.books.holder l = some s.current then none
  else (s.books.request s.next s.current l).map fun B => (s.setBooks B).goto (.lockRequested l c)

/-- `lock_release` after `remove_lock`. -/
def unlock (l : Nat) (c : Option Nat) : St :=
  (s.setBooks (s.books.setHolder l none)).semaUp (.lock l) c

/-- `lock_release`; `update_thread_effective_priority` yields if locks remain. -/
def lockRelease (l : Nat) (c : Option Nat) : Option St :=
  if s.books.holder l = some s.current then
    let s := s.setBooks (s.books.removeLock s.current l)
    if (s.books.acquiredLockList s.current).isEmpty then some (s.unlock l c)
    else some (s.goto (.unlock l c)).threadYield
  else none

/-- `thread_create` up to the lock of `allocate_tid`. -/
def threadCreate (priority : Int) : Option St :=
  if priMin ≤ priority ∧ priority ≤ priMax then
    lockAcquire { s with
      books := s.books.initThread s.next priority
      status := Function.update s.status s.next .blocked
      pc := Function.update s.pc s.next .start
      next := s.next + 1
      parent := Function.update s.parent s.next s.current } tidLock (some s.next)
  else none

def threadSetPriority (newPriority : Int) : St :=
  let s' := s.setBooks (s.books.threadSetPriority s.current newPriority)
  if s.books.setsEffective s.current newPriority then (s'.goto (.returning none)).threadYield else s'

/-! ### `timer.c` -/

/-- `list_insert_ordered` with `less`. -/
def insertSleeper (x : Int × Nat) : List (Int × Nat) → List (Int × Nat)
  | [] => [x]
  | e :: rest => if x.1 < e.1 then x :: e :: rest else e :: insertSleeper x rest

def timerSleep (n : Int) : St :=
  ({ s with sleeping := insertSleeper (s.ticks + n, s.current) s.sleeping }.goto .asleep).threadBlock

/-- The loop of `timer_interrupt`. -/
def wakeSleepers (s : St) : List (Int × Nat) → St
  | [] => { s with sleeping := [] }
  | (wakeTime, t) :: rest =>
      if wakeTime ≤ s.ticks then wakeSleepers (s.threadUnblock t) rest
      else { s with sleeping := (wakeTime, t) :: rest }

/-- The time slice of the running thread ends with this interrupt. -/
def sliceEnds : Bool := s.threadTicks + 1 ≥ timeSlice

def timerInterrupt : St :=
  let s' := wakeSleepers { s with ticks := s.ticks + 1, threadTicks := s.threadTicks + 1 } s.sleeping
  if s.sliceEnds then s'.threadYield else s'

/-! ### Steps -/

def call : Call → Option St
  | .create priority => s.threadCreate priority
  | .yield => some (s.goto (.returning none)).threadYield
  | .semaDown k => some (s.semaDown (.user k) (.semaDown k) .user)
  | .semaUp k => some (s.semaUp (.user k) none)
  | .lockAcquire l => if l = tidLock then none else s.lockAcquire l none
  | .lockRelease l => if l = tidLock then none else s.lockRelease l none
  | .setPriority newPriority => some (s.threadSetPriority newPriority)
  | .sleep ticks => some (s.timerSleep ticks)
  | .exit => some s.threadExit

/-- The running thread goes on. -/
def go : Option St :=
  match s.pc s.current with
  | .user | .exited => none
  | .start | .asleep => some (s.goto .user)
  | .idle => some s.threadBlock
  | .semaDown k => some (s.semaDown (.user k) (.semaDown k) .user)
  | .lockRequested l c | .lockDown l c =>
      some (s.semaDown (.lock l) (.lockDown l c) (.lockAcquired l c))
  | .lockAcquired l c =>
      some ((s.setBooks (s.books.acquired s.current l)).goto
        (match c with
          | none => .user
          | some n => .tidRelease n))
  | .tidRelease n => s.lockRelease tidLock (some n)
  | .unlock l c => some (s.unlock l c)
  | .returning none => some (s.goto .user)
  | .returning (some n) => some (s.goto (.unblockNew n))
  | .unblockNew n => some ((s.threadUnblock n).goto (.maybeYield n))
  | .maybeYield n =>
      if s.eff n > s.eff s.current then some (s.goto (.returning none)).threadYield
      else some (s.goto .user)

end St

def step (s : St) : Act → Option St
  | .call c => if s.pc s.current = .user then s.call c else none
  | .go => s.go
  | .tick => if (s.pc s.current).intrOn then some s.timerInterrupt else none

/-- After `thread_start`, with semaphores that have been given some value. -/
def St.init (values : Nat → UInt32) : St where
  books :=
    { priority := fun t => if t = mainThread then priDefault else 0
      effectivePriority := fun t => if t = mainThread then priDefault else 0
      acquiredLockList := fun _ => []
      waitingLock := fun _ => none
      holder := fun _ => none
      lockPriority := fun _ => -1 }
  status t := if t = mainThread then .running else if t = idleThread then .ready else .absent
  pc t := if t = idleThread then .idle else .user
  current := mainThread
  readyList := []
  sema k := match k with
    | .user k => ⟨values k, []⟩
    | .lock _ => ⟨1, []⟩
  sleeping := []
  ticks := 0
  threadTicks := 0
  next := 3
  parent _ := 0
  fault := false

end Sched

end CS162.Kernel
