/-
# `CS162.Userprog.Wait` — `process_execute`, `process_wait` and `process_exit`

The parts of `userprog/process.c` and of the `exit` system call that share
`struct wait_status`, as steps of many processes.  A step is one statement that
touches a shared struct; anything may happen between two steps of a process.

A process and the struct made for it have the same name, a number that is never
used again; as the child's `tid` it is what `process_execute` returns.  `frees`
counts the calls of `free` on the struct, so a pointer to it can be followed when
that is 0.  Following it later, a `NULL` pointer, or acquiring a lock twice is a
fault, after which there are no more steps.

`sema_down` and `lock_acquire` are steps that are possible only when they do not
block.  `load` may succeed or fail, and `thread_create` may fail; which it is comes
with the action.  `malloc` is taken to succeed.

`log`, `kids`, `code` and `parent` are there for the statements about runs; no step
depends on them.
-/
import Mathlib.Logic.Function.Basic
import Mathlib.Data.List.Basic

namespace CS162.Userprog

/-- `struct wait_status`. -/
structure WaitStatus where
  refCnt : Int
  childTid : Nat
  exitCode : Int
  sema : Nat
  loaded : Bool
  lock : Option Nat
  frees : Nat
  deriving DecidableEq

/-- What `process_execute` makes of the memory it gets. -/
def WaitStatus.init : WaitStatus := ⟨2, 0, -1, 0, false, none, 0⟩

/-- Where a process is; the argument is the struct it is about to touch. -/
inductive Pc where
  | absent
  | user
  | execDown (w : Nat)
  | execCheck (w : Nat)
  | execPush (w : Nat)
  | loading (w : Nat)
  | failUp (w : Nat)
  | okUp (w : Nat)
  | waitDown (w : Nat)
  | waitTake (w : Nat)
  | waitFree (w : Nat) (status : Int)
  | exitLock (w : Nat)
  | exitDec (w : Nat)
  | exitRelease (w : Nat)
  | exitUp (w : Nat)
  | loopLock (rest : List Nat)
  | loopDec (rest : List Nat)
  | loopRelease (rest : List Nat)
  | dead
  deriving DecidableEq

/-- The fields of `struct thread` in question. -/
structure Proc where
  pc : Pc
  waitStatus : Option Nat
  children : List Nat
  deriving DecidableEq

/-- A call of `process_wait` that has returned.  `kid`: the caller had loaded a child
with that `tid` when it called. -/
structure WaitCall where
  caller : Nat
  tid : Int
  kid : Bool
  result : Int
  deriving DecidableEq

structure St where
  procs : Nat → Proc
  ws : Nat → WaitStatus
  next : Nat
  fault : Bool
  log : List WaitCall
  kids : Nat → List Nat
  code : Nat → Int
  parent : Nat → Nat

inductive Act where
  | exec (p : Nat) (created : Bool)
  | load (p : Nat) (success : Bool)
  | wait (p : Nat) (tid : Int)
  | exit (p : Nat) (status : Int)
  | kill (p : Nat)
  | go (p : Nat)

/-- The first thread of the kernel. -/
def mainThread : Nat := 1

/-- After booting: one thread, no struct. -/
def St.init : St where
  procs p := if p = mainThread then ⟨.user, none, []⟩ else ⟨.absent, none, []⟩
  ws _ := { WaitStatus.init with frees := 1 }
  next := 2
  fault := false
  log := []
  kids _ := []
  code _ := -1
  parent _ := 0

namespace St

def setProc (s : St) (p : Nat) (P : Proc) : St := { s with procs := Function.update s.procs p P }

def setPc (s : St) (p : Nat) (pc : Pc) : St := s.setProc p { s.procs p with pc := pc }

def setWs (s : St) (w : Nat) (W : WaitStatus) : St := { s with ws := Function.update s.ws w W }

def crash (s : St) : St := { s with fault := true }

/-- Follow a pointer to the struct `w`. -/
def use (s : St) (w : Nat) (k : WaitStatus → Option St) : Option St :=
  if (s.ws w).frees = 0 then k (s.ws w) else some s.crash

/-- `free`, by a process that has just followed the pointer. -/
def free (s : St) (w : Nat) : St := s.setWs w { s.ws w with frees := (s.ws w).frees + 1 }

end St

/-- The loop of `process_wait`: the struct with the given `child_tid`.  Every struct it
looks at must be there (`none` otherwise). -/
def findChild (s : St) (tid : Int) : List Nat → Option (Option Nat)
  | [] => some none
  | w :: rest =>
      if (s.ws w).frees ≠ 0 then none
      else if ((s.ws w).childTid : Int) = tid then some (some w)
      else findChild s tid rest

/-- `process_execute` up to `sema_down`.  When `thread_create` fails the page with the
command line is freed, the struct is not. -/
def processExecute (s : St) (p : Nat) (created : Bool) : St :=
  let w := s.next
  let s := { s.setWs w WaitStatus.init with next := w + 1, parent := Function.update s.parent w p }
  if created then (s.setProc w ⟨.loading w, none, []⟩).setPc p (.execDown w) else s

/-- `start_process` when `load` is done. -/
def startProcess (s : St) (p w : Nat) (success : Bool) : Option St :=
  s.use w fun W =>
    if success then
      some ((s.setProc p ⟨.okUp w, some w, (s.procs p).children⟩).setWs w { W with loaded := true })
    else some ((s.setPc p (.failUp w)).setWs w { W with loaded := false })

/-- The caller has loaded a child of that name. -/
def St.isKid (s : St) (p : Nat) (tid : Int) : Bool := (s.kids p).any fun w => (w : Int) = tid

/-- `process_wait` up to `sema_down`. -/
def processWait (s : St) (p : Nat) (tid : Int) : St :=
  match findChild s tid (s.procs p).children with
  | none => s.crash
  | some none => { s with log := s.log ++ [⟨p, tid, s.isKid p tid, -1⟩] }
  | some (some w) => s.setPc p (.waitDown w)

/-- Where `process_exit` begins. -/
def processExit (P : Proc) : Pc :=
  match P.waitStatus with
  | some w => .exitLock w
  | none => .loopLock P.children

/-- `lock_acquire (&w->lock)`, then on to `pc`. -/
def lockAcquire (s : St) (p w : Nat) (pc : Pc) : Option St :=
  s.use w fun W =>
    match W.lock with
    | none => some ((s.setPc p pc).setWs w { W with lock := some p })
    | some h => if h = p then some s.crash else none

/-- `ref_cnt--`, and `free` at 0. -/
def decrement (s : St) (p w : Nat) (freed kept : Pc) : Option St :=
  s.use w fun W =>
    let s := s.setWs w { W with refCnt := W.refCnt - 1 }
    if W.refCnt - 1 ≤ 0 then some ((s.free w).setPc p freed) else some (s.setPc p kept)

/-- The next step of a call that has begun. -/
def advance (s : St) (p : Nat) : Option St :=
  let P := s.procs p
  match P.pc with
  | .execDown w => s.use w fun W =>
      if W.sema = 0 then none
      else some ((s.setPc p (.execCheck w)).setWs w { W with sema := W.sema - 1 })
  | .execCheck w => s.use w fun W =>
      if W.loaded then some (s.setPc p (.execPush w)) else some ((s.free w).setPc p .user)
  | .execPush w => s.use w fun W =>
      some { (s.setProc p { P with pc := .user, children := w :: P.children }).setWs w
        { W with childTid := w } with kids := Function.update s.kids p (w :: s.kids p) }
  | .failUp w => s.use w fun W =>
      some ((s.setPc p (processExit P)).setWs w { W with sema := W.sema + 1 })
  | .okUp w => s.use w fun W => some ((s.setPc p .user).setWs w { W with sema := W.sema + 1 })
  | .waitDown w => s.use w fun W =>
      if W.sema = 0 then none
      else some ((s.setPc p (.waitTake w)).setWs w { W with sema := W.sema - 1 })
  | .waitTake w => s.use w fun W =>
      some (s.setProc p { P with pc := .waitFree w W.exitCode, children := P.children.erase w })
  | .waitFree w status => s.use w fun _ =>
      some { (s.free w).setPc p .user with log := s.log ++ [⟨p, w, true, status⟩] }
  | .exitLock w => lockAcquire s p w (.exitDec w)
  | .exitDec w => decrement s p w (.loopLock P.children) (.exitRelease w)
  | .exitRelease w => s.use w fun W =>
      some ((s.setPc p (.exitUp w)).setWs w { W with lock := none })
  | .exitUp w => s.use w fun W =>
      some ((s.setPc p (.loopLock P.children)).setWs w { W with sema := W.sema + 1 })
  | .loopLock [] => some (s.setPc p .dead)
  | .loopLock (c :: rest) => s.use c fun _ =>
      -- the loop has the child's struct at hand and locks its own
      match P.waitStatus with
      | none => some s.crash
      | some w => lockAcquire s p w (.loopDec (c :: rest))
  | .loopDec rest =>
      match P.waitStatus with
      | none => some s.crash
      | some w => decrement s p w (.loopLock rest.tail) (.loopRelease rest)
  | .loopRelease rest =>
      match P.waitStatus with
      | none => some s.crash
      | some w => s.use w fun W =>
          some ((s.setPc p (.loopLock rest.tail)).setWs w { W with lock := none })
  | .absent | .user | .loading _ | .dead => none

/-- One step; `none` when it is not possible. -/
def step (s : St) (a : Act) : Option St :=
  if s.fault then none
  else match a with
  | .exec p created => if (s.procs p).pc = .user then some (processExecute s p created) else none
  | .load p success =>
      match (s.procs p).pc with
      | .loading w => startProcess s p w success
      | _ => none
  | .wait p tid => if (s.procs p).pc = .user then some (processWait s p tid) else none
  | .exit p status =>
      -- a system call: only a process that has been loaded makes it
      match (s.procs p).pc, (s.procs p).waitStatus with
      | .user, some w => s.use w fun W =>
          some { (s.setPc p (processExit (s.procs p))).setWs w { W with exitCode := status } with
            code := Function.update s.code p status }
      | _, _ => none
  | .kill p =>
      if (s.procs p).pc = .user then some (s.setPc p (processExit (s.procs p))) else none
  | .go p => advance s p

end CS162.Userprog
