/-
# `CS162.Hw2.Relay` — the proxy of `hw2/httpserver.c`

`handle_proxy_request` runs `forward_data1` and `forward_data2`, which are one loop between two
descriptors and share `stop`.  The threads take turns between any two of: the test of `stop`, the
`read`, and `http_send_string`.  `buff` is `temp_buff` and, from 1000 on, the stack above it, which
may change at any time.

The buffer is sent as a string.  What goes out ends at the first NUL, and where a chunk has none
it goes on into what older chunks or the stack left behind.  A `read` at the end of the stream
returns 0, and the loop then goes round for ever (`eof_spins`).  In runs without either
(`Meets`), the bytes arrive as they were sent and the loops end (`relay_of_meets`).
-/
import Mathlib.Logic.Relation
import Mathlib.Logic.Function.Basic
import CS162.Lib.Threads
import CS162.Hw2.Send

namespace CS162.Hw2.Relay

/-! ## The model -/

/-- `forward_data1`, from the proxy target to the client, and `forward_data2`, back. -/
inductive Dir where
  | data1
  | data2
deriving DecidableEq

/-- Where a thread is in its loop. -/
inductive Pc where
  /-- `if (args -> stop ==1)` -/
  | check
  /-- `read` -/
  | read
  /-- `http_send_string` -/
  | send
  | done
deriving DecidableEq

/-- A thread, what its source has given and will still give, what it has written, and whether a
`read` has returned 0 or has failed. -/
structure Thread where
  pc : Pc
  buff : Nat → UInt8
  given : List UInt8
  source : List UInt8
  written : List UInt8
  ended : Bool
  failed : Bool

/-- `struct socket_input` and the two threads. -/
structure St where
  stop : Bool
  thread : Dir → Thread

/-- `sizeof(temp_buff)`. -/
def tempBuff : Nat := 1000

/-- What a thread does next. -/
inductive Act where
  | check
  | chunk (c : List UInt8) (buff : Nat → UInt8)
  | eof
  | fail
  | send (writes : List Int)

/-- A `read` puts the chunk at the start of the buffer and leaves the rest of the buffer. -/
def Filled (c : List UInt8) (buff buff' : Nat → UInt8) : Prop :=
  (List.range c.length).map buff' = c ∧ ∀ i, c.length ≤ i → i < tempBuff → buff' i = buff i

/-- The string that begins at `buff`, and `strlen` of it. -/
def CString (buff : Nat → UInt8) (s : List UInt8) : Prop :=
  (List.range s.length).map buff = s ∧ 0 ∉ s ∧ buff s.length = 0

/-- The body of the loop, for the thread `t`: the thread and `stop` after. -/
inductive Round (stop : Bool) (t : Thread) : Act → Bool → Thread → Prop
  | check : t.pc = .check → Round stop t .check stop { t with pc := if stop then .done else .read }
  | chunk {c rest : List UInt8} {buff : Nat → UInt8} : t.pc = .read → t.source = c ++ rest → c ≠ [] →
      c.length ≤ tempBuff → Filled c t.buff buff →
      Round stop t (.chunk c buff) stop
        { t with pc := .send, buff, given := t.given ++ c, source := rest }
  | eof : t.pc = .read → t.source = [] → Round stop t .eof stop { t with pc := .check, ended := true }
  | fail : t.pc = .read → Round stop t .fail true { t with pc := .check, failed := true }
  | send {s out : List UInt8} {writes left : List Int} : t.pc = .send → CString t.buff s →
      httpSendData writes s = some (out, left) →
      Round stop t (.send writes) stop { t with pc := .check, written := t.written ++ out }

/-- The thread `d` takes a step. -/
def Step (d : Dir) (a : Act) (s s' : St) : Prop :=
  ∃ stop t, Round s.stop (s.thread d) a stop t ∧ s' = ⟨stop, Function.update s.thread d t⟩

/-- A thread when `handle_proxy_request` makes it. -/
def fresh (buff : Nat → UInt8) (stream : List UInt8) : Thread :=
  ⟨.check, buff, [], stream, [], false, false⟩

/-- What `handle_proxy_request` starts. -/
def start (buff : Dir → Nat → UInt8) (stream : Dir → List UInt8) : St :=
  ⟨false, fun d => fresh (buff d) (stream d)⟩

/-! ## When it relays -/

/-- The condition on a step: a chunk has no NUL and has one behind it, no `write` fails, and the
stream ends only when `stop` is set already. -/
def Meets (stop : Bool) : Act → Prop
  | .chunk c buff => 0 ∉ c ∧ buff c.length = 0
  | .send writes => ∀ w ∈ writes, 0 ≤ w
  | .eof => stop = true
  | _ => True

/-- A step of either thread that meets the condition. -/
def GoodStep (s s' : St) : Prop := ∃ d a, Step d a s s' ∧ Meets s.stop a

/-- A thread has returned, or its next step is to return. -/
def Returns (s : St) (d : Dir) : Prop :=
  (s.thread d).pc = .done ∨
    (∃ a s', Step d a s s') ∧ ∀ a s', Step d a s s' → (s'.thread d).pc = .done

/-- What is written is a prefix of the stream, and all of it at its end, and the thread returns
after the end or an error. -/
structure Relays (stream : List UInt8) (s : St) (d : Dir) : Prop where
  unchanged : (s.thread d).written <+: stream
  all : (s.thread d).ended = true → (s.thread d).written = stream
  returns : (s.thread d).ended = true ∨ (s.thread d).failed = true → Returns s d

/-- What is kept for a thread. -/
structure Kept (stream : List UInt8) (stop : Bool) (t : Thread) : Prop where
  stream : t.given ++ t.source = stream
  written : t.pc ≠ .send → t.written = t.given
  sending : t.pc = .send → ∃ c, t.given = t.written ++ c ∧ CString t.buff c
  ended : t.ended = true → t.source = []
  finished : t.ended = true ∨ t.failed = true → stop = true ∧ (t.pc = .check ∨ t.pc = .done)

section

variable {stream : List UInt8} {stop stop' : Bool} {t t' : Thread} {a : Act} {s s' : St} {d : Dir}

theorem Kept.mono (h : Kept stream stop t) (hstop : stop = true → stop' = true) : Kept stream stop' t :=
  ⟨h.stream, h.written, h.sending, h.ended,
    fun hover => ⟨hstop (h.finished hover).1, (h.finished hover).2⟩⟩

/-- `stop` is never taken back. -/
theorem Round.keeps_stop (h : Round stop t a stop' t') : stop = true → stop' = true := by
  cases h with
  | fail => exact fun _ => rfl
  | check | chunk | eof | send => exact id

theorem CString.le {buff : Nat → UInt8} {c c' : List UInt8} (h : CString buff c) (h' : CString buff c') :
    c'.length ≤ c.length := by
  by_contra hlt
  refine h'.2.1 ?_
  rw [← h'.1, List.mem_map]
  exact ⟨c.length, List.mem_range.mpr (Nat.lt_of_not_le hlt), h.2.2⟩

/-- A string is determined by the memory. -/
theorem CString.eq {buff : Nat → UInt8} {c c' : List UInt8} (h : CString buff c) (h' : CString buff c') :
    c = c' := by
  rw [← h.1, ← h'.1, Nat.le_antisymm (h'.le h) (h.le h')]

/-- What one step of a thread keeps for it. -/
theorem Round.kept (hk : Kept stream stop t) (h : Round stop t a stop' t') (hmeets : Meets stop a) :
    Kept stream stop' t' := by
  cases h with
  | check hpc =>
      refine ⟨hk.stream, fun _ => hk.written (by rw [hpc]; decide), ?_, hk.ended, fun hover => ?_⟩
      · intro hsend
        cases stop <;> cases hsend
      · obtain ⟨rfl, -⟩ := hk.finished hover
        exact ⟨rfl, .inr rfl⟩
  | @chunk c rest buff hpc hsource hne hle hfilled =>
      have hnot : ¬ (t.ended = true ∨ t.failed = true) := by
        intro hover
        rcases (hk.finished hover).2 with h | h <;> rw [hpc] at h <;> cases h
      refine ⟨?_, fun h => absurd rfl h, fun _ => ?_, fun hended => absurd (.inl hended) hnot,
        fun hover => absurd hover hnot⟩
      · rw [← hk.stream, hsource, List.append_assoc]
      · exact ⟨c, by rw [hk.written (by rw [hpc]; decide)], hfilled.1, hmeets.1, hmeets.2⟩
  | eof hpc hsource =>
      exact ⟨hk.stream, fun _ => hk.written (by rw [hpc]; decide), (fun h => nomatch h), fun _ => hsource,
        fun _ => ⟨hmeets, .inl rfl⟩⟩
  | fail hpc =>
      exact ⟨hk.stream, fun _ => hk.written (by rw [hpc]; decide), (fun h => nomatch h), hk.ended,
        fun _ => ⟨rfl, .inl rfl⟩⟩
  | @send s out writes left hpc hstring hsend =>
      obtain ⟨c, hgiven, hc⟩ := hk.sending hpc
      have hout : out = c := (httpSendData_eq hmeets hsend).trans (hstring.eq hc)
      refine ⟨hk.stream, fun _ => ?_, (fun h => nomatch h), hk.ended, fun hover => ?_⟩
      · rw [hgiven, hout]
      · rcases (hk.finished hover).2 with h | h <;> rw [hpc] at h <;> cases h

/-- What one step keeps for both threads. -/
theorem kept_step {stream : Dir → List UInt8} (hk : ∀ d, Kept (stream d) s.stop (s.thread d))
    (hs : GoodStep s s') (d : Dir) : Kept (stream d) s'.stop (s'.thread d) := by
  obtain ⟨e, a, ⟨stop, t, hround, rfl⟩, hmeets⟩ := hs
  by_cases hd : d = e
  · subst hd
    dsimp only
    rw [Function.update_self]
    exact hround.kept (hk d) hmeets
  · dsimp only
    rw [Function.update_of_ne hd]
    exact (hk d).mono hround.keeps_stop

theorem kept_of_run {buff : Dir → Nat → UInt8} {stream : Dir → List UInt8}
    (hrun : Relation.ReflTransGen GoodStep (start buff stream) s) (d : Dir) :
    Kept (stream d) s.stop (s.thread d) := by
  refine Threads.invariant_of_step (I := fun s => ∀ d, Kept (stream d) s.stop (s.thread d)) hrun
    (fun d => ?_) (fun _ _ hk hs => kept_step hk hs) d
  refine ⟨rfl, fun _ => rfl, (fun h => nomatch h), (fun h => nomatch h), fun hover => ?_⟩
  rcases hover with h | h <;> cases h

/-- A thread that finds `stop` set returns. -/
theorem returns_of_stop (hstop : s.stop = true) (hpc : (s.thread d).pc = .check) : Returns s d := by
  refine .inr ⟨⟨.check, _, s.stop, _, .check hpc, rfl⟩, ?_⟩
  rintro a s' ⟨stop, t, hround, rfl⟩
  dsimp only
  rw [Function.update_self]
  cases hround with
  | check => exact if_pos hstop
  | chunk h | eof h | fail h | send h => rw [hpc] at h; cases h

end

/-- In runs that meet the condition, the proxy relays what the sources send, and its loops end. -/
theorem relay_of_meets {buff : Dir → Nat → UInt8} {stream : Dir → List UInt8} {s : St}
    (hrun : Relation.ReflTransGen GoodStep (start buff stream) s) (d : Dir) : Relays (stream d) s d := by
  have hk := kept_of_run hrun d
  have hgiven : (s.thread d).written <+: (s.thread d).given := by
    by_cases hpc : (s.thread d).pc = .send
    · obtain ⟨c, hgiven, -⟩ := hk.sending hpc
      rw [hgiven]
      exact List.prefix_append ..
    · rw [hk.written hpc]
  refine ⟨?_, fun hended => ?_, fun hover => ?_⟩
  · rw [← hk.stream]
    exact hgiven.trans (List.prefix_append ..)
  · obtain ⟨-, hpc⟩ := hk.finished (.inl hended)
    rw [← hk.stream, hk.ended hended, List.append_nil]
    refine hk.written fun hsend => ?_
    rcases hpc with h | h <;> rw [hsend] at h <;> cases h
  · obtain ⟨hstop, hpc⟩ := hk.finished hover
    rcases hpc with hpc | hpc
    · exact returns_of_stop hstop hpc
    · exact .inl hpc

/-- At the end of the stream the loop goes round, where nobody sets `stop`. -/
theorem eof_spins {s : St} {d : Dir} (hpc : (s.thread d).pc = .read) (hsource : (s.thread d).source = [])
    (hended : (s.thread d).ended = true) (hstop : s.stop = false) :
    ∃ s', Step d .eof s s' ∧ Step d .check s' s := by
  refine ⟨_, ⟨s.stop, _, .eof hpc hsource, rfl⟩, s.stop, s.thread d, ?_, ?_⟩
  · dsimp only
    rw [Function.update_self]
    have hcheck := @Round.check s.stop { s.thread d with pc := .check, ended := true } rfl
    rw [hstop] at hcheck ⊢
    have hback : s.thread d = { s.thread d with pc := .read, ended := true } := by
      rw [← hpc, ← hended]
    rw [hback]
    exact hcheck
  · dsimp only
    rw [Function.update_idem, Function.update_eq_self]

/-- Both threads. -/
def both (t u : Thread) : Dir → Thread
  | .data1 => t
  | .data2 => u

theorem Round.data1 {stop stop' : Bool} {t t' u : Thread} {a : Act} (h : Round stop t a stop' t') :
    Step .data1 a ⟨stop, both t u⟩ ⟨stop', both t' u⟩ :=
  ⟨stop', t', h, congrArg (St.mk stop') (funext fun d => by cases d <;> rfl)⟩

theorem Round.data2 {stop stop' : Bool} {t u u' : Thread} {a : Act} (h : Round stop u a stop' u') :
    Step .data2 a ⟨stop, both t u⟩ ⟨stop', both t u'⟩ :=
  ⟨stop', u', h, congrArg (St.mk stop') (funext fun d => by cases d <;> rfl)⟩

theorem start_eq_both (buff : Dir → Nat → UInt8) (stream : Dir → List UInt8) :
    start buff stream =
      ⟨false, both (fresh (buff .data1) (stream .data1)) (fresh (buff .data2) (stream .data2))⟩ :=
  congrArg (St.mk false) (funext fun d => by cases d <;> rfl)

/-- `forward_data1` relays two bytes, the client's side fails, and then the target closes: both
loops are left. -/
theorem relay_of_meets_two : ∃ s, Relation.ReflTransGen GoodStep
    (start (fun _ _ => 0) fun d => if d = .data1 then [65, 66] else []) s ∧
      (s.thread .data1).ended = true ∧ (s.thread .data1).written = [65, 66] ∧
        (s.thread .data2).failed = true ∧ ∀ d, (s.thread d).pc = .done := by
  let buff : Nat → UInt8 := fun i => if i = 0 then 65 else if i = 1 then 66 else 0
  let t : Thread := fresh (fun _ => 0) [65, 66]
  let t₁ : Thread := { t with pc := .read }
  let t₂ : Thread := { t₁ with pc := .send, buff, given := [65, 66], source := [] }
  let t₃ : Thread := { t₂ with pc := .check, written := [65, 66] }
  let t₄ : Thread := { t₃ with pc := .read }
  let t₅ : Thread := { t₄ with pc := .check, ended := true }
  let u : Thread := fresh (fun _ => 0) []
  let u₁ : Thread := { u with pc := .read }
  let u₂ : Thread := { u₁ with pc := .check, failed := true }
  have hfilled : Filled [65, 66] (fun _ => 0) buff := by
    refine ⟨rfl, fun i hi _ => ?_⟩
    have hlen : 2 ≤ i := hi
    show (if i = 0 then 65 else if i = 1 then 66 else 0) = (0 : UInt8)
    rw [if_neg (by omega), if_neg (by omega)]
  have hcheck : Round false t .check false t₁ := .check rfl
  have hchunk : Round false t₁ (.chunk [65, 66] buff) false t₂ :=
    .chunk rfl rfl (List.cons_ne_nil _ _) (by decide) hfilled
  have hstring : CString buff [65, 66] := ⟨rfl, by decide, rfl⟩
  have hsend : Round false t₂ (.send [1, 1]) false t₃ := .send rfl hstring rfl
  have hagain : Round false t₃ .check false t₄ := .check rfl
  have hother : Round false u .check false u₁ := .check rfl
  have hfail : Round false u₁ .fail true u₂ := .fail rfl
  have heof : Round true t₄ .eof true t₅ := .eof rfl rfl
  have hdone : Round true t₅ .check true { t₅ with pc := .done } := .check rfl
  have hdone' : Round true u₂ .check true { u₂ with pc := .done } := .check rfl
  have hclean : Meets false (.chunk [65, 66] buff) := ⟨by decide, rfl⟩
  have hmeets : Meets false (.send [1, 1]) := fun w hw => by
    rw [List.eq_of_mem_replicate (n := 2) hw]
    decide
  have hsent : Relation.ReflTransGen GoodStep ⟨false, both t u⟩ ⟨false, both t₃ u⟩ :=
    ((Relation.ReflTransGen.single ⟨_, _, hcheck.data1, trivial⟩).tail
      ⟨_, _, hchunk.data1, hclean⟩).tail ⟨_, _, hsend.data1, hmeets⟩
  have hfailed : Relation.ReflTransGen GoodStep ⟨false, both t u⟩ ⟨true, both t₄ u₂⟩ :=
    ((hsent.tail ⟨_, _, hagain.data1, trivial⟩).tail ⟨_, _, hother.data2, trivial⟩).tail
      ⟨_, _, hfail.data2, trivial⟩
  have hrun : Relation.ReflTransGen GoodStep ⟨false, both t u⟩
      ⟨true, both { t₅ with pc := .done } { u₂ with pc := .done }⟩ :=
    ((hfailed.tail ⟨_, _, heof.data1, rfl⟩).tail ⟨_, _, hdone.data1, trivial⟩).tail
      ⟨_, _, hdone'.data2, trivial⟩
  have hstart : start (fun _ _ => 0) (fun d => if d = .data1 then [65, 66] else []) = ⟨false, both t u⟩ :=
    start_eq_both ..
  rw [← hstart] at hrun
  exact ⟨_, hrun, rfl, (relay_of_meets hrun .data1).all rfl, rfl, fun d => by cases d <;> rfl⟩

/-- A stream of one byte, on a stack that has another byte behind it: two bytes go out. -/
theorem relay_stale : ¬ ∀ (buff : Dir → Nat → UInt8) (stream : Dir → List UInt8) (s : St),
    Relation.ReflTransGen (fun s s' => ∃ d a, Step d a s s') (start buff stream) s →
      ∀ d, Relays (stream d) s d := by
  intro hall
  let stack : Nat → UInt8 := fun i => if i = 1 then 66 else 0
  let buff : Nat → UInt8 := fun i => if i = 0 then 65 else stack i
  let t : Thread := fresh stack [65]
  let t₁ : Thread := { t with pc := .read }
  let t₂ : Thread := { t₁ with pc := .send, buff, given := [65], source := [] }
  let t₃ : Thread := { t₂ with pc := .check, written := [65, 66] }
  have hcheck : Round false t .check false t₁ := .check rfl
  have hchunk : Round false t₁ (.chunk [65] buff) false t₂ := by
    refine .chunk rfl rfl (List.cons_ne_nil _ _) (by decide) ⟨rfl, fun i hi _ => if_neg ?_⟩
    exact Nat.ne_of_gt hi
  have hstring : CString buff [65, 66] := ⟨rfl, by decide, rfl⟩
  have hsend : Round false t₂ (.send [2]) false t₃ := .send rfl hstring rfl
  have hrun : Relation.ReflTransGen (fun s s' => ∃ d a, Step d a s s')
      ⟨false, both t t⟩ ⟨false, both t₃ t⟩ :=
    ((Relation.ReflTransGen.single ⟨_, _, hcheck.data1⟩).tail ⟨_, _, hchunk.data1⟩).tail
      ⟨_, _, hsend.data1⟩
  have hstart : start (fun _ => stack) (fun _ => [65]) = ⟨false, both t t⟩ := start_eq_both ..
  rw [← hstart] at hrun
  have hinitial := (hall _ _ _ hrun .data1).unchanged
  have hwritten : (both t₃ t .data1).written = [65, 66] := rfl
  rw [hwritten] at hinitial
  exact absurd hinitial.length_le (by decide)

end CS162.Hw2.Relay
