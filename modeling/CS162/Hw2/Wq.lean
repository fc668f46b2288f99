/-
# `CS162.Hw2.Wq` — `hw2/wq.c`

The work queue of the HTTP server, used by any number of threads.  Items live in a heap of
`calloc`ed cells, a pointer is an optional address, and a store or a load through a pointer
that is not to a live cell stops the process.  Between two statements of a thread any
other thread may run; `DL_APPEND` and `DL_DELETE` are one step each.

`pthread_cond_wait` gives the mutex up and waits, and a waiting thread goes on to take the
mutex again when it is signalled, or at any other time: wake-ups may be spurious.  The
macro `DL_DELETE (wq->head, wq->head)` evaluates its second argument anew at each use, so
`del` is an expression in the current head.

`pushed` and `popped` record the descriptors in the order in which `DL_APPEND` links them
in and `DL_DELETE` takes them out.  `size` is an `int`: it counts modulo `2 ^ 32`.
-/
import CS162.Lib.Threads

namespace CS162.Hw2

abbrev Addr := Nat

/-- `wq_item_t`. -/
structure WqItem where
  clientSocketFd : Int32
  next : Option Addr
  prev : Option Addr
  deriving DecidableEq

abbrev Heap := Addr → Option WqItem

namespace Heap

/-- `p->…`, on the right of an assignment. -/
def deref (h : Heap) (p : Option Addr) : Option WqItem := p.bind h

/-- `p->… = …`. -/
def assign (h : Heap) (p : Option Addr) (f : WqItem → WqItem) : Option Heap := do
  let a ← p
  let i ← h a
  return Function.update h a (some (f i))

def setNext (h : Heap) (p q : Option Addr) : Option Heap := h.assign p ({ · with next := q })
def setPrev (h : Heap) (p q : Option Addr) : Option Heap := h.assign p ({ · with prev := q })

/-- `DL_APPEND`: the heap and the new head. -/
def dlAppend (h : Heap) (head add : Option Addr) : Option (Heap × Option Addr) :=
  match head with
  | some _ => do
      let h ← h.setPrev add (← h.deref head).prev
      let h ← h.setNext (← h.deref head).prev add
      let h ← h.setPrev head add
      let h ← h.setNext add none
      return (h, head)
  | none => do
      let head := add
      let h ← h.setPrev head head
      let h ← h.setNext head none
      return (h, head)

/-- `DL_DELETE`; its assertion fails as a bad access does. -/
def dlDelete (h : Heap) (head : Option Addr) (del : Option Addr → Option Addr) :
    Option (Heap × Option Addr) := do
  let d ← h.deref (del head)
  if d.prev = none then none
  else if d.prev = del head then return (h, none)
  else if del head = head then
    let h ← h.setPrev d.next d.prev
    return (h, (← h.deref (del head)).next)
  else
    let h ← h.setNext d.prev d.next
    let h ← if d.next ≠ none then h.setPrev d.next d.prev else h.setPrev head d.prev
    return (h, head)

end Heap

/-- Where a thread is: in no call, in `wq_pop` or in `wq_push`. -/
inductive Pc where
  | idle
  | popLock
  | popTest
  | popWait
  | popRelock
  | popTake
  | popSize (item : Option Addr) (fd : Int32)
  | popDelete (item : Option Addr) (fd : Int32)
  | popFree (item : Option Addr) (fd : Int32)
  | popUnlock (fd : Int32)
  | pushCalloc (fd : Int32)
  | pushSet (item : Option Addr) (fd : Int32)
  | pushLock (item : Option Addr)
  | pushAppend (item : Option Addr)
  | pushSize
  | pushSignal
  | pushUnlock
  deriving DecidableEq

/-- The access at which the process stopped. -/
inductive Stop where
  /-- `wq_push` stores through the `NULL` that `calloc` returned -/
  | calloc
  | append
  | take
  | delete
  | free
  deriving DecidableEq

structure Wq (T : Type) where
  heap : Heap
  size : Int32
  head : Option Addr
  mutex : Option T
  pc : T → Pc
  pushed : List Int32
  popped : List Int32
  stopped : Option Stop

inductive Act (T : Type) where
  | callPop (t : T)
  | callPush (t : T) (fd : Int32)
  /-- `calloc` returns a cell that is not in use, or `NULL` -/
  | calloc (t : T) (item : Option Addr)
  /-- `pthread_cond_signal` wakes a waiting thread; if there is none, or the thread it wakes
  goes on only later (`wake`), nothing changes -/
  | signal (t : T) (woken : Option T)
  /-- a waiting thread goes on, woken by whatever -/
  | wake (t : T)
  /-- the next statement -/
  | run (t : T)

variable {T : Type}

/-- `wq_init`. -/
def wqInit : Wq T where
  heap _ := none
  size := 0
  head := none
  mutex := none
  pc _ := .idle
  pushed := []
  popped := []
  stopped := none

variable [DecidableEq T]

namespace Wq

def goto (s : Wq T) (t : T) (p : Pc) : Wq T := { s with pc := Function.update s.pc t p }

def stop (s : Wq T) (why : Stop) : Wq T := { s with stopped := some why }

/-- The next statement of `wq_pop` or `wq_push`, where it needs nothing from outside. -/
def runThread (s : Wq T) (t : T) : Option (Wq T) :=
  match s.pc t with
  | .popLock | .popRelock =>
      if s.mutex = none then some { s.goto t .popTest with mutex := some t } else none
  | .popTest =>
      if s.size < 1 then some { s.goto t .popWait with mutex := none } else some (s.goto t .popTake)
  | .popTake =>
      match s.heap.deref s.head with
      | some i => some (s.goto t (.popSize s.head i.clientSocketFd))
      | none => some (s.stop .take)
  | .popSize item fd => some { s.goto t (.popDelete item fd) with size := s.size - 1 }
  | .popDelete item fd =>
      match s.heap.dlDelete s.head id with
      | some (heap, head) =>
          some { s.goto t (.popFree item fd) with heap := heap, head := head, popped := s.popped ++ [fd] }
      | none => some (s.stop .delete)
  | .popFree item fd =>
      match item with
      | none => some (s.goto t (.popUnlock fd))
      | some a =>
          if s.heap a = none then some (s.stop .free)
          else some { s.goto t (.popUnlock fd) with heap := Function.update s.heap a none }
  | .popUnlock _ => some { s.goto t .idle with mutex := none }
  | .pushSet item fd =>
      match s.heap.assign item ({ · with clientSocketFd := fd }) with
      | some heap => some { s.goto t (.pushLock item) with heap := heap }
      | none => some (s.stop .calloc)
  | .pushLock item =>
      if s.mutex = none then some { s.goto t (.pushAppend item) with mutex := some t } else none
  | .pushAppend item =>
      match s.heap.dlAppend s.head item, s.heap.deref item with
      | some (heap, head), some i =>
          some { s.goto t .pushSize with
            heap := heap
            head := head
            pushed := s.pushed ++ [i.clientSocketFd] }
      | _, _ => some (s.stop .append)
  | .pushSize => some { s.goto t .pushSignal with size := s.size + 1 }
  | .pushUnlock => some { s.goto t .idle with mutex := none }
  | .idle | .popWait | .pushCalloc _ | .pushSignal => none

def step (s : Wq T) (a : Act T) : Option (Wq T) :=
  if s.stopped ≠ none then none
  else match a with
  | .callPop t => if s.pc t = .idle then some (s.goto t .popLock) else none
  | .callPush t fd => if s.pc t = .idle then some (s.goto t (.pushCalloc fd)) else none
  | .calloc t item =>
      match s.pc t, item with
      | .pushCalloc fd, none => some (s.goto t (.pushSet none fd))
      | .pushCalloc fd, some a =>
          if s.heap a = none then
            some { s.goto t (.pushSet a fd) with heap := Function.update s.heap a (some ⟨0, none, none⟩) }
          else none
      | _, _ => none
  | .signal t woken =>
      if s.pc t = .pushSignal then
        match woken with
        | some w => if s.pc w = .popWait then some ((s.goto w .popRelock).goto t .pushUnlock) else none
        | none => some (s.goto t .pushUnlock)
      else none
  | .wake t => if s.pc t = .popWait then some (s.goto t .popRelock) else none
  | .run t => s.runThread t

end Wq

end CS162.Hw2
