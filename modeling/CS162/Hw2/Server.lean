/-
# `CS162.Hw2.Server` — who closes what in `hw2/httpserver.c`

The HTTP server in files mode: the accept loop of `serve_forever`, a worker thread
(`req_thread`) for every element of `T`, and `handle_files_request`, which all of them run.
With no workers the accept loop handles the request itself.  Threads take turns between any
two calls that touch the descriptor table.

The table says what a descriptor number stands for now: a connection, by the number of the
`accept` that made it, or a file or directory that `handle_files_request` has open.
`accept`, `open` and `opendir` return any number that is not in use.  What the handler reads
from the client and finds in the file system is not modelled: it may take any of its exits,
and the process may go down where the request cannot be parsed.  `wq_pop` and `wq_push` are
one step each; that they make a queue is the result of `CS162.Hw2.WqRuns`.

A request carries, next to its descriptor, the connection it came with; the code has only
the descriptor.  `bad` records that `close` was called on a descriptor that was not, or not
any longer, the connection of the caller's request, or that the close of a file hit a
connection.
-/
import CS162.Hw2.WqRuns

namespace CS162.Hw2

/-- What a descriptor number stands for. -/
inductive Entry (T : Type) where
  | std
  | conn (c : Nat)
  /-- opened in `handle_files_request` -/
  | file (t : Option T)

structure Request where
  fd : Nat
  conn : Nat

namespace Server

inductive Pc where
  | accept
  | push (r : Request)
  | pop
  | parse (r : Request)
  | stat (r : Request)
  | openFile (r : Request)
  | sendFile (r : Request) (opened : Option Nat)
  | openDir (r : Request)
  | readDir (r : Request) (opened : Option Nat)
  /-- `close (fd)` at the end of `handle_files_request` -/
  | close (r : Request)
  /-- `close` after `request_handler` has returned -/
  | closeAgain (r : Request)

/-- What `handle_files_request` finds. -/
inductive Found where
  | file
  | index
  | directory
  | nothing

/-- The threads are `none`, in `serve_forever`, and the workers. -/
structure St (T : Type) where
  fds : Nat → Option (Entry T)
  accepted : Nat
  queue : List Request
  pc : Option T → Pc
  bad : Bool
  down : Bool

inductive Act (T : Type) where
  /-- `none`: the call fails -/
  | accept (fd : Option Nat)
  | push
  | pop (t : T)
  | parse (t : Option T) (ok : Bool)
  | stat (t : Option T) (found : Found)
  | openFile (t : Option T) (opened : Option Nat)
  | closeFile (t : Option T)
  | openDir (t : Option T) (opened : Option Nat)
  | closeDir (t : Option T)
  | close (t : Option T)
  | closeAgain (t : Option T)

variable {T : Type}

/-- The server listens, with some descriptors in use. -/
def St.init (std : Nat → Bool) : St T where
  fds f := if std f then some .std else none
  accepted := 0
  queue := []
  pc t := match t with
    | none => .accept
    | some _ => .pop
  bad := false
  down := false

namespace St

/-- A close on behalf of a request. -/
def closeConn (s : St T) (r : Request) : St T :=
  { s with
    fds := Function.update s.fds r.fd none
    bad := s.bad || match s.fds r.fd with
      | some (.conn c) => c ≠ r.conn
      | _ => true }

/-- A close of what the handler has opened; `close (-1)` does nothing. -/
def closeOpened (s : St T) (opened : Option Nat) : St T :=
  match opened with
  | none => s
  | some f =>
      { s with
        fds := Function.update s.fds f none
        bad := s.bad || match s.fds f with
          | some (.conn _) => true
          | _ => false }

variable [DecidableEq T]

def goto (s : St T) (t : Option T) (p : Pc) : St T := { s with pc := Function.update s.pc t p }

/-- `open` or `opendir`, by a thread that goes on at `p`. -/
def opens (s : St T) (t : Option T) (opened : Option Nat) (p : Pc) : Option (St T) :=
  match opened with
  | none => some (s.goto t p)
  | some f =>
      if (s.fds f).isNone then some { s.goto t p with fds := Function.update s.fds f (some (.file t)) }
      else none

end St

/-- Back to the loop, in `serve_forever` or `req_thread`. -/
def loop (t : Option T) : Pc :=
  match t with
  | none => .accept
  | some _ => .pop

variable [DecidableEq T]

def step [Fintype T] (s : St T) (a : Act T) : Option (St T) :=
  if s.down then none
  else match a with
  | .accept fd =>
      match s.pc none, fd with
      | .accept, none => some s
      | .accept, some f =>
          if (s.fds f).isNone then
            let r : Request := ⟨f, s.accepted⟩
            -- if (num_threads == 0)
            some { s.goto none (if Fintype.card T = 0 then .parse r else .push r) with
              fds := Function.update s.fds f (some (.conn s.accepted))
              accepted := s.accepted + 1 }
          else none
      | _, _ => none
  | .push =>
      match s.pc none with
      | .push r => some { s.goto none .accept with queue := s.queue ++ [r] }
      | _ => none
  | .pop t =>
      match s.pc (some t), s.queue with
      | .pop, r :: rest => some { s.goto (some t) (.parse r) with queue := rest }
      | _, _ => none
  | .parse t ok =>
      match s.pc t with
      | .parse r => if ok then some (s.goto t (.stat r)) else some { s with down := true }
      | _ => none
  | .stat t found =>
      match s.pc t, found with
      | .stat r, .file | .stat r, .index => some (s.goto t (.openFile r))
      | .stat r, .directory => some (s.goto t (.openDir r))
      | .stat r, .nothing => some (s.goto t (.close r))
      | _, _ => none
  | .openFile t opened =>
      match s.pc t with
      | .openFile r => s.opens t opened (.sendFile r opened)
      | _ => none
  | .closeFile t =>
      match s.pc t with
      | .sendFile r opened => some ((s.closeOpened opened).goto t (.close r))
      | _ => none
  | .openDir t opened =>
      match s.pc t with
      | .openDir r => s.opens t opened (.readDir r opened)
      | _ => none
  | .closeDir t =>
      match s.pc t with
      | .readDir r opened => some ((s.closeOpened opened).goto t (.close r))
      | _ => none
  | .close t =>
      match s.pc t with
      | .close r => some ((s.closeConn r).goto t (.closeAgain r))
      | _ => none
  | .closeAgain t =>
      match s.pc t with
      | .closeAgain r => some ((s.closeConn r).goto t (loop t))
      | _ => none

end Server

end CS162.Hw2
