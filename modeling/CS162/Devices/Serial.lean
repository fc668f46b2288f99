/-
# `CS162.Devices.Serial` — the serial port and the input buffer

`devices/serial.c` and `devices/input.c` once `serial_init_queue` has been called: two interrupt
queues, `buffer` for what is typed or received and `txq` for what is to be sent, and the port's
interrupt enable register, which `write_ier` sets from the two.  Threads call `input_getc` and
`serial_putc`; the keyboard and the port interrupt.  What the port has received and has room to send
are arguments of its interrupt.

A thread that cannot go on depends on the port to wake it, so the register has to be right whenever
nobody can run: `serial_port` says it is.
-/
import CS162.Devices.IntqRuns

namespace CS162.Devices

open IntqSt

/-- `IER_XMIT` and `IER_RECV` of the interrupt enable register. -/
structure Ier where
  xmit : Bool
  recv : Bool

structure SerialSt (T : Type) where
  /-- `buffer` of `devices/input.c`. -/
  input : IntqSt T
  txq : IntqSt T
  ier : Ier
  /-- What has been written to `THR_REG`. -/
  sent : List UInt8

inductive SerialAct (T : Type) where
  | inputGetc (t : T)
  /-- A thread, or a handler, which has interrupts off. -/
  | serialPutc (t : Option T) (byte : UInt8) (off : Bool)
  | run (t : T)
  | keyboard (key : UInt8)
  | serialInterrupt (received : List UInt8) (ready : Nat)
  | serialFlush

namespace SerialSt

variable {T : Type}

/-- `write_ier`. -/
def writeIer (s : SerialSt T) : SerialSt T :=
  { s with ier := { xmit := !s.txq.q.ring.empty, recv := !s.input.q.ring.full } }

/-- After `serial_init_queue`. -/
def init (T : Type) (buf buf' : Fin intqBufsize → UInt8) : SerialSt T :=
  writeIer
    { input := IntqSt.init T buf
      txq := IntqSt.init T buf'
      ier := { xmit := false, recv := false }
      sent := [] }

variable [DecidableEq T]

/-- A thread has gone on in `input_getc`: `serial_notify` once it has its byte. -/
def afterInput (s : SerialSt T) (t : T) (input : IntqSt T) : SerialSt T :=
  if input.place t = .out then writeIer { s with input := input } else { s with input := input }

/-- A thread has gone on in `serial_putc`. -/
def afterTxq (s : SerialSt T) (t : T) (txq : IntqSt T) : SerialSt T :=
  if txq.place t = .out then writeIer { s with txq := txq } else { s with txq := txq }

/-- `input_putc`, with its assertion. -/
def inputPutc (s : SerialSt T) (key : UInt8) : Option (SerialSt T) :=
  if s.input.q.ring.full then none
  else (s.input.finish (.putc key)).map fun input => writeIer { s with input := input }

/-- A byte of `txq` to the port. -/
def sendOne (s : SerialSt T) : Option (SerialSt T) :=
  (s.txq.finish .getc).map fun txq =>
    { s with txq := txq, sent := s.sent ++ [s.txq.q.ring.front] }

/-- `serial_putc`. -/
def serialPutc (s : SerialSt T) (t : Option T) (byte : UInt8) (off : Bool) : Option (SerialSt T) :=
  -- with interrupts off a full queue gives its oldest byte to the port at once
  (if off && s.txq.q.ring.full then s.sendOne else some s).bind fun s =>
    match t with
    | some t => (s.txq.call t (.putc byte)).map (s.afterTxq t)
    | none => (s.txq.finish (.putc byte)).map fun txq => writeIer { s with txq := txq }

/-- The first loop of `serial_interrupt`. -/
def receive (s : SerialSt T) : List UInt8 → Option (SerialSt T)
  | [] => some s
  | byte :: rest => if s.input.q.ring.full then some s else (s.inputPutc byte).bind (·.receive rest)

/-- The second loop, while the port is ready for another byte. -/
def transmit (s : SerialSt T) : Nat → Option (SerialSt T)
  | 0 => some s
  | n + 1 => if s.txq.q.ring.empty then some s else s.sendOne.bind (·.transmit n)

/-- `serial_flush` polls until the port takes the next byte, and so sends all there are. -/
def serialFlush (s : SerialSt T) : Option (SerialSt T) := s.transmit intqBufsize

def step (s : SerialSt T) : SerialAct T → Option (SerialSt T)
  | .inputGetc t => (s.input.call t .getc).map (s.afterInput t)
  | .serialPutc t byte off => s.serialPutc t byte off
  | .run t =>
      if Ready (s.input.place t) then (s.input.step (.run t)).map (s.afterInput t)
      else (s.txq.step (.run t)).map (s.afterTxq t)
  | .keyboard key => if s.input.q.ring.full then some s else s.inputPutc key
  | .serialInterrupt received ready =>
      (s.receive received).bind fun s => (s.transmit ready).map writeIer
  | .serialFlush => s.serialFlush

/-- A thread makes one call at a time. -/
def Enabled (s : SerialSt T) : SerialAct T → Prop
  | .inputGetc t => s.input.place t = .out ∧ s.txq.place t = .out
  | .serialPutc (some t) _ _ => s.input.place t = .out ∧ s.txq.place t = .out
  | .serialPutc none _ off => off = true
  | .run t => Ready (s.input.place t) ∨ Ready (s.txq.place t)
  | _ => True

/-! ## The invariant -/

def Reads (c : IntqCall) : Prop := c = .getc

def Writes (c : IntqCall) : Prop := c ≠ .getc

/-- The register says what the two queues need, or asks for an interrupt too many. -/
structure Masked (s : SerialSt T) : Prop where
  recv : s.ier.recv = !s.input.q.ring.full
  xmit : s.txq.q.ring.empty = false → s.ier.xmit = true

structure Inv (s : SerialSt T) : Prop extends Masked s where
  input : IntqRun (fun _ => True) s.input
  txq : IntqRun (fun _ => True) s.txq
  readers : Everyone (Only Reads) s.input
  writers : Everyone (Only Writes) s.txq
  sent : s.sent = s.txq.got

variable {s s' : SerialSt T} {t : T}

omit [DecidableEq T] in
theorem masked_writeIer (s : SerialSt T) : Masked s.writeIer :=
  ⟨rfl, fun h => by
    have h' : s.txq.q.ring.empty = false := h
    simp [writeIer, h']⟩

theorem Inv.init (buf buf' : Fin intqBufsize → UInt8) : Inv (SerialSt.init T buf buf') where
  toMasked := masked_writeIer _
  input := .init buf
  txq := .init buf'
  readers := everyone_only fun _ _ _ h => by cases h
  writers := everyone_only fun _ _ _ h => by cases h
  sent := rfl

/-- A handler's call, where what it needs is there. -/
theorem intr_run {q : IntqSt T} {c : IntqCall} (h : IntqRun (fun _ => True) q)
    (hc : c.needs.holds q.q.ring = true) :
    ∃ q', q.finish c = some q' ∧ IntqRun (fun _ => True) q' ∧
      ∀ t, q.place t = .out → q'.place t = .out := by
  obtain ⟨q', hq, -, hplace⟩ := h.inv.finish hc
  have hstep : q.step (.intr c) = some q' := hq
  refine ⟨q', hq, IntqRun.step (a := .intr c) h hc hstep trivial, fun t ht => ?_⟩
  rcases hplace t with he | hown
  · rw [he, ht]
  · simp [ht] at hown

theorem Inv.writeIer (h : Inv s) : Inv s.writeIer where
  toMasked := masked_writeIer s
  input := h.input
  txq := h.txq
  readers := h.readers
  writers := h.writers
  sent := h.sent

theorem Inv.inputPutc (key : UInt8) (h : Inv s) (hroom : s.input.q.ring.full = false) :
    ∃ s', s.inputPutc key = some s' ∧ Inv s' := by
  obtain ⟨q', hq, hrun, -⟩ := intr_run (c := .putc key) h.input
    (by simp [IntqCall.needs, Cond.holds, hroom])
  refine ⟨SerialSt.writeIer { s with input := q' }, by simp [SerialSt.inputPutc, hroom, hq], ?_⟩
  exact {
    toMasked := masked_writeIer _
    input := hrun
    txq := h.txq
    readers := h.readers.finish hq
    writers := h.writers
    sent := h.sent }

/-- A byte that waits goes to the port; nobody who was outside is held up. -/
theorem Inv.sendOne (h : Inv s) (hne : s.txq.q.ring.empty = false) :
    ∃ s', s.sendOne = some s' ∧ Inv s' ∧ s'.txq.q.ring = s.txq.q.ring.drop ∧
      ∀ t, s.txq.place t = .out → s'.txq.place t = .out := by
  obtain ⟨q', hq, hrun, hplace⟩ := intr_run (c := .getc) h.txq
    (by simp [IntqCall.needs, Cond.holds, hne])
  obtain ⟨hring, -, hgot⟩ := finish_getc hq
  refine ⟨{ s with txq := q', sent := s.sent ++ [s.txq.q.ring.front] },
    by simp [SerialSt.sendOne, hq], ?_, hring, hplace⟩
  exact {
    recv := h.recv
    xmit := fun _ => h.xmit hne
    input := h.input
    txq := hrun
    readers := h.readers
    writers := h.writers.finish hq
    sent := by
      show s.sent ++ [s.txq.q.ring.front] = q'.got
      rw [hgot, h.sent] }

theorem Inv.receive (bytes : List UInt8) (h : Inv s) :
    ∃ s', s.receive bytes = some s' ∧ Inv s' := by
  induction bytes generalizing s with
  | nil => exact ⟨s, rfl, h⟩
  | cons byte rest ih =>
      simp only [SerialSt.receive]
      split
      · exact ⟨s, rfl, h⟩
      · next hroom =>
          obtain ⟨s₁, h₁, hinv⟩ := h.inputPutc byte (Bool.not_eq_true _ ▸ hroom)
          simp only [h₁, Option.bind_some]
          exact ih hinv

theorem Inv.transmit (n : Nat) (h : Inv s) : ∃ s', s.transmit n = some s' ∧ Inv s' := by
  induction n generalizing s with
  | zero => exact ⟨s, rfl, h⟩
  | succ n ih =>
      simp only [SerialSt.transmit]
      split
      · exact ⟨s, rfl, h⟩
      · next hne =>
          obtain ⟨s₁, h₁, hinv, -⟩ := h.sendOne (Bool.not_eq_true _ ▸ hne)
          simp only [h₁, Option.bind_some]
          exact ih hinv

/-- A thread that has not returned has left the bytes alone. -/
theorem Inv.afterInput {q : IntqSt T} (h : Inv s) (hrun : IntqRun (fun _ => True) q)
    (hreaders : Everyone (Only Reads) q) (hkept : q.place t ≠ .out → Kept s.input q) :
    Inv (s.afterInput t q) := by
  unfold SerialSt.afterInput
  split
  · exact {
      toMasked := masked_writeIer _
      input := hrun
      txq := h.txq
      readers := hreaders
      writers := h.writers
      sent := h.sent }
  · next hin =>
      exact {
        recv := by
          show s.ier.recv = !q.q.ring.full
          rw [(hkept hin).ring, h.recv]
        xmit := h.xmit
        input := hrun
        txq := h.txq
        readers := hreaders
        writers := h.writers
        sent := h.sent }

theorem Inv.afterTxq {q : IntqSt T} (h : Inv s) (hrun : IntqRun (fun _ => True) q)
    (hwriters : Everyone (Only Writes) q) (hkept : q.place t ≠ .out → Kept s.txq q)
    (hgot : q.got = s.txq.got) : Inv (s.afterTxq t q) := by
  unfold SerialSt.afterTxq
  split
  · exact {
      toMasked := masked_writeIer _
      input := h.input
      txq := hrun
      readers := h.readers
      writers := hwriters
      sent := h.sent.trans hgot.symm }
  · next hin =>
      exact {
        recv := h.recv
        xmit := fun hne => by
          rw [show ({ s with txq := q } : SerialSt T).txq.q.ring = s.txq.q.ring from (hkept hin).ring]
            at hne
          exact h.xmit hne
        input := h.input
        txq := hrun
        readers := h.readers
        writers := hwriters
        sent := h.sent.trans hgot.symm }

/-- A byte that is put leaves alone what has come out. -/
theorem got_of_writes {q q₁ : IntqSt T} {c : IntqCall} (hc : Writes c)
    (hq : q.finish c = some q₁) : q₁.got = q.got := by
  cases c with
  | getc => exact absurd rfl hc
  | putc byte => exact (finish_putc hq).2.2

/-- The caller of `intq_putc` goes in, and the transmit queue keeps its invariant. -/
theorem Inv.putByte {byte : UInt8} (h : Inv s) (ht : s.txq.place t = .out) :
    ∃ s', (s.txq.call t (.putc byte)).map (s.afterTxq t) = some s' ∧ Inv s' := by
  obtain ⟨q, hq, -⟩ := h.txq.inv.call (c := .putc byte) ht
  have hstep : s.txq.step (.call t (.putc byte)) = some q := hq
  have hwrites : Writes (.putc byte) := fun he => by cases he
  have hrun : IntqRun (fun _ => True) q :=
    IntqRun.step (a := .call t (.putc byte)) h.txq ht hstep trivial
  refine ⟨s.afterTxq t q, by simp [hq], h.afterTxq hrun (h.writers.call hwrites hq) ?_ ?_⟩
  · intro hin
    rcases call_effect hq with ⟨hout, -⟩ | ⟨-, hk⟩
    · exact absurd hout hin
    · exact hk
  · rcases call_effect hq with ⟨-, q₁, h₁, hk⟩ | ⟨-, hk⟩
    · exact hk.got.trans (got_of_writes hwrites h₁)
    · exact hk.got

/-- `serial_putc` queues its byte; with interrupts off a full queue gives one to the port first. -/
theorem Inv.serialPutc {t : Option T} {byte : UInt8} {off : Bool} (h : Inv s)
    (ht : s.Enabled (.serialPutc t byte off)) :
    ∃ s', s.serialPutc t byte off = some s' ∧ Inv s' := by
  -- what a full queue gives up first
  have hfirst : ∃ s₁, (if off && s.txq.q.ring.full then s.sendOne else some s) = some s₁ ∧ Inv s₁ ∧
      (off = true → s₁.txq.q.ring.full = false) ∧ ∀ t, s.txq.place t = .out → s₁.txq.place t = .out := by
    by_cases hfull : (off && s.txq.q.ring.full) = true
    · obtain ⟨hoff, hring⟩ := Bool.and_eq_true_iff.mp hfull
      have hne : s.txq.q.ring.empty = false := RingQueue.not_empty_of_full (by decide) hring
      obtain ⟨s₁, h₁, hinv, hdrop, hplace⟩ := h.sendOne hne
      refine ⟨s₁, by rw [if_pos hfull, h₁], hinv, fun _ => ?_, hplace⟩
      rw [hdrop]
      exact RingQueue.not_full_drop hne
    · refine ⟨s, if_neg hfull, h, fun hoff => ?_, fun _ => id⟩
      simpa [hoff] using hfull
  obtain ⟨s₁, h₁, hinv, hroom, hplace⟩ := hfirst
  simp only [SerialSt.serialPutc, h₁, Option.bind_some]
  cases t with
  | some t => exact hinv.putByte (hplace t ht.2)
  | none =>
      obtain ⟨q, hq, hrun, -⟩ := intr_run (c := .putc byte) hinv.txq
        (by simp [IntqCall.needs, Cond.holds, hroom ht])
      refine ⟨SerialSt.writeIer { s₁ with txq := q }, by simp [hq], ?_⟩
      exact {
        toMasked := masked_writeIer _
        input := hinv.input
        txq := hrun
        readers := hinv.readers
        writers := hinv.writers.finish hq
        sent := hinv.sent.trans (finish_putc hq).2.2.symm }

/-- A thread comes to the lock of one of the queues when what it slept for is there. -/
def TooLate (s : SerialSt T) (a : SerialAct T) : Prop :=
  ∃ t, a = .run t ∧ (Late s.input (.run t) ∨ Late s.txq (.run t))

/-- Each step keeps the invariant, unless a thread has come to a lock too late. -/
theorem Inv.step {a : SerialAct T} (h : Inv s) (ha : s.Enabled a) :
    (∃ s', s.step a = some s' ∧ Inv s') ∨ s.step a = none ∧ TooLate s a := by
  cases a with
  | inputGetc t =>
      left
      obtain ⟨q, hq, -⟩ := h.input.inv.call (c := .getc) ha.1
      have hstep : s.input.step (.call t .getc) = some q := hq
      have hrun : IntqRun (fun _ => True) q :=
        IntqRun.step (a := .call t .getc) h.input ha.1 hstep trivial
      refine ⟨s.afterInput t q, by simp [SerialSt.step, hq],
        h.afterInput hrun (h.readers.call rfl hq) fun hin => ?_⟩
      rcases call_effect hq with ⟨hout, -⟩ | ⟨-, hk⟩
      · exact absurd hout hin
      · exact hk
  | serialPutc t byte off => exact .inl (h.serialPutc ha)
  | keyboard key =>
      left
      simp only [SerialSt.step]
      split
      · exact ⟨s, rfl, h⟩
      · next hroom => exact h.inputPutc key (Bool.not_eq_true _ ▸ hroom)
  | serialInterrupt received ready =>
      left
      obtain ⟨s₁, h₁, hinv₁⟩ := h.receive received
      obtain ⟨s₂, h₂, hinv₂⟩ := hinv₁.transmit ready
      exact ⟨s₂.writeIer, by simp [SerialSt.step, h₁, h₂], hinv₂.writeIer⟩
  | serialFlush => exact .inl (h.transmit intqBufsize)
  | run t =>
      simp only [SerialSt.step]
      split
      · next hready =>
          rcases h.input.inv.step (a := .run t) hready with ⟨q, hq, -⟩ | ⟨hnone, hlate⟩
          · left
            have hrun : IntqRun (fun _ => True) q :=
              IntqRun.step (a := .run t) h.input hready hq trivial
            refine ⟨s.afterInput t q, by simp [hq],
              h.afterInput hrun (h.readers.run hq) fun hin => ?_⟩
            rcases run_effect hq with ⟨hout, -⟩ | ⟨-, hk⟩
            · exact absurd hout hin
            · exact hk
          · exact .inr ⟨by simp [hnone], t, rfl, .inl hlate⟩
      · next hnot =>
          have hready : Ready (s.txq.place t) := ha.resolve_left hnot
          rcases h.txq.inv.step (a := .run t) hready with ⟨q, hq, -⟩ | ⟨hnone, hlate⟩
          · left
            have hrun : IntqRun (fun _ => True) q :=
              IntqRun.step (a := .run t) h.txq hready hq trivial
            refine ⟨s.afterTxq t q, by simp [hq],
              h.afterTxq hrun (h.writers.run hq) (fun hin => ?_) ?_⟩
            · rcases run_effect hq with ⟨hout, -⟩ | ⟨-, hk⟩
              · exact absurd hout hin
              · exact hk
            · rcases run_effect hq with ⟨-, c, stage, q₁, q₂, hp, hk₁, h₂, hk₂⟩ | ⟨-, hk⟩
              · exact hk₂.got.trans
                  ((got_of_writes (h.writers.all t c stage hp) h₂).trans hk₁.got)
              · exact hk.got
          · exact .inr ⟨by simp [hnone], t, rfl, .inr hlate⟩

end SerialSt

/-! ## Runs -/

open SerialSt

variable {T : Type} [DecidableEq T] {s : SerialSt T}

inductive SerialRun : SerialSt T → Prop
  | init (buf buf' : Fin intqBufsize → UInt8) : SerialRun (SerialSt.init T buf buf')
  | step {s s' : SerialSt T} {a : SerialAct T} : SerialRun s → s.Enabled a → s.step a = some s' →
      SerialRun s'

theorem SerialRun.inv (h : SerialRun s) : SerialSt.Inv s := by
  induction h with
  | init buf buf' => exact SerialSt.Inv.init buf buf'
  | step _ ha hs ih =>
      rcases ih.step ha with ⟨s', hs', hinv⟩ | ⟨hnone, _⟩
      · rw [hs] at hs'
        cases hs'
        exact hinv
      · rw [hs] at hnone
        cases hnone

/-- What the port promises. -/
structure Port (s : SerialSt T) : Prop where
  /-- The bytes go out in the order in which they were put into the queue. -/
  order : s.txq.put = s.sent ++ s.txq.q.ring.contents
  typed : s.input.put = s.input.got ++ s.input.q.ring.contents
  /-- Readers that cannot run have nothing to read, and the port will interrupt with more. -/
  readers : (∀ t, ¬ Ready (s.input.place t)) → ∀ t, s.input.place t ≠ .out →
    s.input.q.ring.empty = true ∧ s.ier.recv = true
  /-- Writers that cannot run have no room, and the port will interrupt to make some. -/
  writers : (∀ t, ¬ Ready (s.txq.place t)) → ∀ t, s.txq.place t ≠ .out →
    s.txq.q.ring.full = true ∧ s.ier.xmit = true
  asserts : ∀ a, s.Enabled a → s.step a = none → TooLate s a

/-- The port keeps its promises whatever is typed, received,
read and written, by any threads and handlers. -/
theorem serial_port (h : SerialRun s) : Port s where
  order := by rw [h.inv.sent, h.inv.txq.inv.fifo]
  typed := h.inv.input.inv.fifo
  readers hready t ht := by
    obtain ⟨u, c, hu, hnot, -⟩ := h.inv.input.inv.monitor.stuck hready t ht
    obtain rfl : c = .getc := h.inv.readers.all u c _ hu
    have hempty : s.input.q.ring.empty = true := by simpa [IntqCall.needs, Cond.holds] using hnot
    have hroom : s.input.q.ring.full = false := RingQueue.not_full_of_empty (by decide) hempty
    exact ⟨hempty, by rw [h.inv.recv, hroom]; rfl⟩
  writers hready t ht := by
    obtain ⟨u, c, hu, hnot, -⟩ := h.inv.txq.inv.monitor.stuck hready t ht
    have hwrites : Writes c := h.inv.writers.all u c _ hu
    cases c with
    | getc => exact absurd rfl hwrites
    | putc byte =>
        have hfull : s.txq.q.ring.full = true := by simpa [IntqCall.needs, Cond.holds] using hnot
        exact ⟨hfull, h.inv.xmit (RingQueue.not_empty_of_full (by decide) hfull)⟩
  asserts a ha hnone := by
    rcases h.inv.step ha with ⟨s', hs, -⟩ | ⟨-, hlate⟩
    · rw [hnone] at hs
      cases hs
    · exact hlate

/-- A reader waits, and the port is to interrupt when it has received a byte. -/
theorem serial_port_small : ∃ s : SerialSt Unit, SerialRun s ∧
    s.input.place () = .inside .getc .waiting ∧ s.ier.recv = true ∧ Port s := by
  have hok : ((SerialSt.init Unit (fun _ => 0) fun _ => 0).step (.inputGetc ())).map (fun s =>
      (s.input.place (), s.ier.recv)) = some (.inside .getc .waiting, true) := by decide
  obtain ⟨s, hs, hfacts⟩ := Option.map_eq_some_iff.mp hok
  obtain ⟨hplace, hrecv⟩ := Prod.mk.inj hfacts
  have hrun : SerialRun s := SerialRun.step (a := .inputGetc ()) (.init _ _) ⟨rfl, rfl⟩ hs
  exact ⟨s, hrun, hplace, hrecv, serial_port hrun⟩

end CS162.Devices
