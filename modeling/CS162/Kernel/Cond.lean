/-
# `CS162.Kernel.Cond` — condition variables

`cond_wait`, `cond_signal` and `cond_broadcast` on one condition variable and its lock,
by any number of threads.  `cond_wait` is four steps: into `cond->waiters`, release the
lock, `sema_down` on a semaphore of the thread's own, acquire the lock again.  The
semaphore is named after the thread.  `cond_signal` is one step up to the yield inside
`sema_up`, and anything may happen between two steps.

`compare_sema` looks at the first thread in the wait list of each semaphore.  A thread
that has released the lock and not yet come to `sema_down` is in `cond->waiters` while
its own list is empty: then the assertion of `list_front` fails (`fault`), unless
nothing has to be compared.  `Meets` is the condition on a signal that excludes it.
-/
import CS162.Kernel.Sema

namespace CS162.Kernel

namespace Cond

variable {T : Type}

inductive Place where
  | out
  | holding
  | enqueued
  | released
  | blocked
  | woken
  | downed
  | signalling
  | broadcasting
  deriving DecidableEq

/-- Inside `cond_wait`. -/
def Place.inWait : Place → Bool
  | .enqueued | .released | .blocked | .woken | .downed => true
  | .out | .holding | .signalling | .broadcasting => false

/-- With the lock in hand. -/
def Place.locked : Place → Bool
  | .holding | .enqueued | .signalling | .broadcasting => true
  | .out | .released | .blocked | .woken | .downed => false

structure St (T : Type) where
  holder : Option T
  waiters : List T
  sema : T → Sema T
  place : T → Place
  priority : T → Int
  fault : Bool

inductive Act (T : Type) where
  | lock (t : T)
  | unlock (t : T)
  | wait (t : T)
  | release (t : T)
  | down (t : T)
  | relock (t : T)
  | signal (t : T)
  | broadcast (t : T)
  | next (t : T)
  | resume (t : T)
  | setPriority (t : T) (p : Int)

/-- Nobody is in a call. -/
def St.init (priority : T → Int) : St T where
  holder := none
  waiters := []
  sema _ := ⟨0, []⟩
  place _ := .out
  priority := priority
  fault := false

/-- `list_front` of the semaphore's wait list, and the priority of that thread. -/
def frontPriority (s : St T) (w : T) : Option Int := (s.sema w).waiters.head?.map s.priority

/-- `list_max` with `compare_sema`; `none` if `list_front` finds an empty list. -/
def listMax (s : St T) : T → List T → Option T
  | max, [] => some max
  | max, e :: rest =>
      match frontPriority s max, frontPriority s e with
      | some x, some y => if x < y then listMax s e rest else listMax s max rest
      | _, _ => none

namespace St

variable [DecidableEq T]

def setPlace (s : St T) (t : T) (p : Place) : St T := { s with place := Function.update s.place t p }

/-- `sema_up` on the semaphore of `c`, up to `thread_yield`. -/
def semaUp (s : St T) (c : T) : St T :=
  let w := (s.sema c).first s.priority
  { s with
    sema := Function.update s.sema c ((s.sema c).up w)
    place := match w with
      | some w => Function.update s.place w .woken
      | none => s.place }

/-- `cond_signal`. -/
def condSignal (s : St T) : St T :=
  match s.waiters with
  | [] => s
  | w :: rest =>
      match listMax s w rest with
      | none => { s with fault := true }
      | some c => semaUp { s with waiters := s.waiters.erase c } c

end St

variable [DecidableEq T]

def step (s : St T) (a : Act T) : Option (St T) :=
  if s.fault then none
  else match a with
  | .lock t =>
      if s.place t = .out ∧ s.holder = none then some { s.setPlace t .holding with holder := some t }
      else none
  | .unlock t => if s.place t = .holding then some { s.setPlace t .out with holder := none } else none
  | .wait t =>
      if s.place t = .holding then
        some { s.setPlace t .enqueued with
          waiters := s.waiters ++ [t]
          sema := Function.update s.sema t ⟨0, []⟩ }
      else none
  | .release t =>
      if s.place t = .enqueued then some { s.setPlace t .released with holder := none } else none
  | .down t =>
      if s.place t = .released ∨ s.place t = .woken then
        match (s.sema t).tryDown with
        | some S => some { s.setPlace t .downed with sema := Function.update s.sema t S }
        | none => some { s.setPlace t .blocked with
            sema := Function.update s.sema t ((s.sema t).wait t) }
      else none
  | .relock t =>
      if s.place t = .downed ∧ s.holder = none then
        some { s.setPlace t .holding with holder := some t }
      else none
  | .signal t => if s.place t = .holding then some (s.condSignal.setPlace t .signalling) else none
  | .broadcast t => if s.place t = .holding then some (s.setPlace t .broadcasting) else none
  | .next t =>
      -- the loop of `cond_broadcast`
      if s.place t = .broadcasting then
        if s.waiters = [] then some (s.setPlace t .holding) else some s.condSignal
      else none
  | .resume t => if s.place t = .signalling then some (s.setPlace t .holding) else none
  | .setPriority t p => some { s with priority := Function.update s.priority t p }

/-! ## What a condition variable is for -/

/-- Has to be signalled before it can return. -/
def Stuck (s : St T) (t : T) : Prop := s.place t ≠ .downed ∧ (s.sema t).value = 0

/-- Is past its semaphore, or will get past it. -/
def Free (s : St T) (t : T) : Prop :=
  s.place t = .downed ∨ (s.place t ≠ .blocked ∧ (s.sema t).value = 1)

/-- In every state: nothing has failed, and of the threads in `cond_wait` those that no
signal has taken off `cond->waiters` are stuck, the others are free. -/
structure Right (s : St T) : Prop where
  safe : s.fault = false
  stuck : ∀ t ∈ s.waiters, (s.place t).inWait = true ∧ Stuck s t
  free : ∀ t, (s.place t).inWait = true → t ∉ s.waiters → Free s t
  /-- who is stuck is blocked by `sema_down` -/
  stays : ∀ t ∈ s.waiters, ∀ s', step s (.down t) = some s' → s'.place t = .blocked
  /-- who is free gets past it -/
  passes : ∀ t, t ∉ s.waiters → s.place t = .released ∨ s.place t = .woken →
    ∃ s', step s (.down t) = some s' ∧ s'.place t = .downed

/-- One signal takes one thread off `cond->waiters`, the one of highest priority. -/
def Wakes (s s' : St T) : Prop :=
  ∃ c ∈ s.waiters, (∀ w ∈ s.waiters, s.priority w ≤ s.priority c) ∧
    s'.waiters = s.waiters.erase c ∧ Free s' c ∧ ∀ t, t ≠ c → (Free s' t ↔ Free s t)

/-- The waiting threads have come to their semaphores, or there is nothing to compare. -/
def Ready (s : St T) : Prop := s.waiters.length ≤ 1 ∨ ∀ w ∈ s.waiters, s.place w = .blocked

/-- The condition on a step. -/
def Meets (s : St T) : Act T → Prop
  | .signal _ | .next _ => Ready s
  | .lock _ | .unlock _ | .wait _ | .release _ | .down _ | .relock _ | .broadcast _ | .resume _
  | .setPriority _ _ => True

/-! ## The invariant -/

/-- Place, membership in `cond->waiters` and value of the semaphore of one thread. -/
def Fits (listed : Prop) (v : UInt32) : Place → Prop
  | .out | .holding | .signalling | .broadcasting | .downed => ¬ listed ∧ v = 0
  | .enqueued | .released => listed ∧ v = 0 ∨ ¬ listed ∧ v = 1
  | .blocked => listed ∧ v = 0
  | .woken => ¬ listed ∧ v = 1

structure Inv (s : St T) : Prop where
  fault : s.fault = false
  fits : ∀ t, Fits (t ∈ s.waiters) (s.sema t).value (s.place t)
  inner : ∀ t, (s.sema t).waiters = if s.place t = .blocked then [t] else []
  nodup : s.waiters.Nodup

variable {s s' : St T} {t : T}

/-- One thread moves. -/
theorem Inv.move {p : Place} {S : Sema T} {l : List T} {o : Option T} (h : Inv s)
    (hl : ∀ u, u ≠ t → (u ∈ l ↔ u ∈ s.waiters)) (hnodup : l.Nodup)
    (hfits : Fits (t ∈ l) S.value p) (hinner : S.waiters = if p = .blocked then [t] else []) :
    Inv { s with
      holder := o
      waiters := l
      sema := Function.update s.sema t S
      place := Function.update s.place t p } := by
  refine ⟨h.fault, fun u => ?_, fun u => ?_, hnodup⟩
  · by_cases hu : u = t
    · subst hu
      simpa using hfits
    · simp only [Function.update_of_ne hu, hl u hu]
      exact h.fits u
  · by_cases hu : u = t
    · subst hu
      simpa using hinner
    · simp only [Function.update_of_ne hu]
      exact h.inner u

/-- One thread moves, and touches neither the list nor its semaphore. -/
theorem Inv.setPlace {p : Place} {o : Option T} (h : Inv s)
    (hfits : Fits (t ∈ s.waiters) (s.sema t).value p) (hb : s.place t ≠ .blocked)
    (hb' : p ≠ .blocked) : Inv { s.setPlace t p with holder := o } := by
  have hmove := h.move (t := t) (p := p) (S := s.sema t) (l := s.waiters) (o := o)
    (fun _ _ => Iff.rfl) h.nodup hfits (by rw [h.inner t, if_neg hb, if_neg hb'])
  rwa [Function.update_eq_self] at hmove

omit [DecidableEq T] in
/-- `list_max` when every semaphore has its thread. -/
theorem listMax_spec (s : St T) (rest : List T) (m : T)
    (hfront : ∀ w ∈ m :: rest, frontPriority s w = some (s.priority w)) :
    ∃ c ∈ m :: rest, listMax s m rest = some c ∧ ∀ w ∈ m :: rest, s.priority w ≤ s.priority c := by
  induction rest generalizing m with
  | nil =>
      refine ⟨m, List.mem_cons_self, rfl, fun w hw => ?_⟩
      rw [List.mem_singleton.mp hw]
  | cons e rest ih =>
      have hm := hfront m List.mem_cons_self
      have he := hfront e (List.mem_cons_of_mem m List.mem_cons_self)
      simp only [listMax, hm, he]
      split
      · next hlt =>
        obtain ⟨c, hc, heq, hmax⟩ := ih e fun w hw => hfront w (List.mem_cons_of_mem m hw)
        refine ⟨c, List.mem_cons_of_mem m hc, heq, fun w hw => ?_⟩
        rcases List.mem_cons.mp hw with rfl | hw
        · exact (le_of_lt hlt).trans (hmax e List.mem_cons_self)
        · exact hmax w hw
      · next hle =>
        obtain ⟨c, hc, heq, hmax⟩ := ih m fun w hw => hfront w (by
          rcases List.mem_cons.mp hw with rfl | hw
          · exact List.mem_cons_self
          · exact List.mem_cons_of_mem m (List.mem_cons_of_mem e hw))
        refine ⟨c, ?_, heq, fun w hw => ?_⟩
        · rcases List.mem_cons.mp hc with rfl | hc
          · exact List.mem_cons_self
          · exact List.mem_cons_of_mem m (List.mem_cons_of_mem e hc)
        · rcases List.mem_cons.mp hw with rfl | hw
          · exact hmax w List.mem_cons_self
          · rcases List.mem_cons.mp hw with rfl | hw
            · exact (le_of_not_gt hle).trans (hmax m List.mem_cons_self)
            · exact hmax w (List.mem_cons_of_mem m hw)

/-- The place of a thread that gets a signal. -/
def signalled : Place → Place
  | .blocked => .woken
  | p => p

/-- What `cond_signal` does to a condition with waiters that are ready. -/
theorem Inv.condSignal_eq (h : Inv s) (hready : Ready s) (hne : s.waiters ≠ []) :
    ∃ c ∈ s.waiters, (∀ w ∈ s.waiters, s.priority w ≤ s.priority c) ∧
      s.condSignal = { s with
        waiters := s.waiters.erase c
        sema := Function.update s.sema c ⟨1, []⟩
        place := Function.update s.place c (signalled (s.place c)) } := by
  obtain ⟨c, hc, hmax, heq⟩ : ∃ c ∈ s.waiters, (∀ w ∈ s.waiters, s.priority w ≤ s.priority c) ∧
      s.condSignal = St.semaUp { s with waiters := s.waiters.erase c } c := by
    unfold St.condSignal
    cases hw : s.waiters with
    | nil => exact absurd hw hne
    | cons w rest =>
        rcases hready with hlen | hblocked
        · rw [hw] at hlen
          have hrest : rest = [] :=
            List.eq_nil_of_length_eq_zero (Nat.le_zero.mp (Nat.le_of_succ_le_succ hlen))
          subst hrest
          refine ⟨w, List.mem_cons_self, fun u hu => ?_, rfl⟩
          rw [List.mem_singleton.mp hu]
        · obtain ⟨c, hc, heq, hmax⟩ := listMax_spec s rest w fun u hu => by
            rw [hw] at hblocked
            rw [frontPriority, h.inner u, if_pos (hblocked u hu)]
            rfl
          exact ⟨c, hc, hmax, by simp only [heq]⟩
  refine ⟨c, hc, hmax, ?_⟩
  have hinner := h.inner c
  -- the value of a listed thread's semaphore is 0
  have hvalue : (s.sema c).value = 0 := by
    have hfits := h.fits c
    cases hp : s.place c <;> rw [hp] at hfits <;> simp only [Fits, hc, not_true, false_and, true_and,
      or_false] at hfits <;> exact hfits
  rw [heq]
  by_cases hb : s.place c = .blocked
  · rw [if_pos hb] at hinner
    have hfirst : (s.sema c).first s.priority = some c := by
      unfold Sema.first
      rw [hinner]
      rfl
    have hup : (s.sema c).up (some c) = ⟨1, []⟩ := by
      simp [Sema.up, hvalue, hinner]
    simp only [St.semaUp, hfirst, hup, hb, signalled]
  · rw [if_neg hb] at hinner
    have hfirst : (s.sema c).first s.priority = none := by
      unfold Sema.first
      rw [hinner]
      rfl
    have hup : (s.sema c).up none = ⟨1, []⟩ := by
      simp [Sema.up, hvalue, hinner]
    have hsig : signalled (s.place c) = s.place c := by
      cases hp : s.place c <;> first | rfl | exact absurd hp hb
    simp only [St.semaUp, hfirst, hup, hsig, Function.update_eq_self]

/-- `cond_signal` takes a waiter of highest priority out of the list, and ups its semaphore. -/
theorem Inv.condSignal (h : Inv s) (hready : Ready s) : Inv s.condSignal := by
  by_cases hne : s.waiters = []
  · have heq : s.condSignal = s := by
      unfold St.condSignal
      rw [hne]
    rw [heq]
    exact h
  · obtain ⟨c, hc, -, heq⟩ := h.condSignal_eq hready hne
    rw [heq]
    have hnot : c ∉ s.waiters.erase c := fun hcon => (h.nodup.mem_erase_iff.mp hcon).1 rfl
    refine h.move (fun u hu => List.mem_erase_of_ne hu) (h.nodup.erase c) ?_ ?_
    · have hfits := h.fits c
      cases hp : s.place c <;> rw [hp] at hfits <;> simp_all [Fits, signalled]
    · cases s.place c <;> rfl

/-- Who does not wait is not touched. -/
theorem Inv.condSignal_place (h : Inv s) (hready : Ready s) (ht : t ∉ s.waiters) :
    s.condSignal.place t = s.place t := by
  by_cases hne : s.waiters = []
  · unfold St.condSignal
    rw [hne]
  · obtain ⟨c, hc, -, heq⟩ := h.condSignal_eq hready hne
    have htc : t ≠ c := by
      rintro rfl
      exact ht hc
    rw [heq]
    exact Function.update_of_ne htc ..

/-- Each step, by who takes it and where it stands in `cond_wait` or `cond_signal`. -/
theorem Inv.step {a : Act T} (h : Inv s) (hmeets : Meets s a) (hstep : step s a = some s') :
    Inv s' := by
  unfold Cond.step at hstep
  rw [h.fault] at hstep
  simp only [Bool.false_eq_true, if_false] at hstep
  cases a with
  | lock t =>
      simp only at hstep
      split at hstep
      · next hp =>
        cases hstep
        have hfits := h.fits t
        rw [hp.1] at hfits
        exact h.setPlace hfits (by rw [hp.1]; decide) (by decide)
      · cases hstep
  | unlock t =>
      simp only at hstep
      split at hstep
      · next hp =>
        cases hstep
        have hfits := h.fits t
        rw [hp] at hfits
        exact h.setPlace hfits (by rw [hp]; decide) (by decide)
      · cases hstep
  | wait t =>
      simp only at hstep
      split at hstep
      · next hp =>
        cases hstep
        have hfits := h.fits t
        rw [hp] at hfits
        refine h.move (fun u hu => by simp [hu]) ?_ (.inl ⟨by simp, rfl⟩) rfl
        refine List.Nodup.append h.nodup (List.nodup_singleton t) ?_
        rw [List.disjoint_singleton]
        exact hfits.1
      · cases hstep
  | release t =>
      simp only at hstep
      split at hstep
      · next hp =>
        cases hstep
        have hfits := h.fits t
        rw [hp] at hfits
        exact h.setPlace hfits (by rw [hp]; decide) (by decide)
      · cases hstep
  | down t =>
      simp only [Sema.tryDown] at hstep
      split at hstep
      · next hp =>
        have hfits := h.fits t
        have hb : s.place t ≠ .blocked := by
          rcases hp with hp | hp <;> rw [hp] <;> decide
        have hinner := h.inner t
        rw [if_neg hb] at hinner
        by_cases hv : (s.sema t).value > 0
        · rw [if_pos hv] at hstep
          cases hstep
          refine h.move (fun _ _ => Iff.rfl) h.nodup ?_ hinner
          -- one unit was there, from the signal
          have hone : t ∉ s.waiters ∧ (s.sema t).value = 1 := by
            rcases hp with hp | hp
            · rw [hp] at hfits
              rcases hfits with ⟨-, hz⟩ | hone
              · rw [hz] at hv
                exact absurd hv (by decide)
              · exact hone
            · rw [hp] at hfits
              exact hfits
          exact ⟨hone.1, by rw [hone.2]; rfl⟩
        · rw [if_neg hv] at hstep
          cases hstep
          refine h.move (fun _ _ => Iff.rfl) h.nodup ?_ ?_
          · rcases hp with hp | hp
            · rw [hp] at hfits
              rcases hfits with hzero | ⟨-, hone⟩
              · exact hzero
              · rw [hone] at hv
                exact absurd (by decide) hv
            · rw [hp] at hfits
              rw [hfits.2] at hv
              exact absurd (by decide) hv
          · simp [Sema.wait, hinner]
      · cases hstep
  | relock t =>
      simp only at hstep
      split at hstep
      · next hp =>
        cases hstep
        have hfits := h.fits t
        rw [hp.1] at hfits
        exact h.setPlace hfits (by rw [hp.1]; decide) (by decide)
      · cases hstep
  | signal t =>
      simp only at hstep
      split at hstep
      · next hp =>
        cases hstep
        have hfits := h.fits t
        rw [hp] at hfits
        have hsig := h.condSignal hmeets
        have hp' : s.condSignal.place t = .holding := (h.condSignal_place hmeets hfits.1).trans hp
        have hfits' := hsig.fits t
        rw [hp'] at hfits'
        exact hsig.setPlace (o := s.condSignal.holder) hfits' (by rw [hp']; decide) (by decide)
      · cases hstep
  | broadcast t =>
      simp only at hstep
      split at hstep
      · next hp =>
        cases hstep
        have hfits := h.fits t
        rw [hp] at hfits
        exact h.setPlace (o := s.holder) hfits (by rw [hp]; decide) (by decide)
      · cases hstep
  | next t =>
      simp only at hstep
      split at hstep
      · next hp =>
        split at hstep
        · cases hstep
          have hfits := h.fits t
          rw [hp] at hfits
          exact h.setPlace (o := s.holder) hfits (by rw [hp]; decide) (by decide)
        · cases hstep
          exact h.condSignal hmeets
      · cases hstep
  | resume t =>
      simp only at hstep
      split at hstep
      · next hp =>
        cases hstep
        have hfits := h.fits t
        rw [hp] at hfits
        exact h.setPlace (o := s.holder) hfits (by rw [hp]; decide) (by decide)
      · cases hstep
  | setPriority t p =>
      cases hstep
      exact ⟨rfl, h.fits, h.inner, h.nodup⟩

omit [DecidableEq T] in
theorem Inv.init (priority : T → Int) : Inv (St.init priority) :=
  ⟨rfl, fun _ => ⟨fun hc => by (cases hc), rfl⟩, fun _ => rfl, List.nodup_nil⟩

/-- What the invariant says of the places of the threads is what is to be proved. -/
theorem Inv.right (h : Inv s) : Right s := by
  have hstuck : ∀ t ∈ s.waiters, (s.place t).inWait = true ∧ Stuck s t := by
    intro t ht
    have hfits := h.fits t
    unfold Stuck
    cases hp : s.place t <;> rw [hp] at hfits <;> simp_all [Fits, Place.inWait]
  refine ⟨h.fault, hstuck, ?_, ?_, ?_⟩
  · intro t hin ht
    have hfits := h.fits t
    unfold Free
    cases hp : s.place t <;> rw [hp] at hfits hin <;> simp_all [Fits, Place.inWait]
  · intro t ht s' hstep
    have hv := (hstuck t ht).2.2
    simp only [Cond.step, h.fault, Bool.false_eq_true, if_false, Sema.tryDown, hv] at hstep
    split at hstep
    · rw [if_neg (by decide)] at hstep
      cases hstep
      exact Function.update_self ..
    · cases hstep
  · intro t ht hp
    have hfits := h.fits t
    have hv : (s.sema t).value = 1 := by
      rcases hp with hp | hp <;> rw [hp] at hfits <;> simp_all [Fits]
    refine ⟨_, by simp only [Cond.step, h.fault, Bool.false_eq_true, if_false, if_pos hp, Sema.tryDown,
      hv, if_pos (show (1 : UInt32) > 0 by decide)]; rfl, ?_⟩
    exact Function.update_self ..

/-- A signal for a condition with waiters frees the right one. -/
theorem Inv.wakes (h : Inv s) (hready : Ready s) (hne : s.waiters ≠ []) : Wakes s s.condSignal := by
  obtain ⟨c, hc, hmax, heq⟩ := h.condSignal_eq hready hne
  refine ⟨c, hc, hmax, by rw [heq], ?_, fun t htc => ?_⟩
  · rw [heq]
    refine .inr ⟨?_, ?_⟩
    · show Function.update s.place c (signalled (s.place c)) c ≠ .blocked
      rw [Function.update_self]
      cases s.place c <;> decide
    · show (Function.update s.sema c ⟨1, []⟩ c).value = 1
      rw [Function.update_self]
  · rw [heq]
    simp only [Free, Function.update_of_ne htc]

/-! ## Runs -/

def Step (s s' : St T) : Prop := ∃ a, step s a = some s'

/-- A step that meets the condition. -/
def GoodStep (s s' : St T) : Prop := ∃ a, Meets s a ∧ step s a = some s'

/-- The calls of `cond_signal`, the one in the loop of `cond_broadcast` included. -/
def Signals (s : St T) (a : Act T) (s' : St T) : Prop :=
  step s a = some s' ∧ s.waiters ≠ [] ∧
    ((∃ t, a = .signal t) ∨ ∃ t, a = .next t)

/-- `Wakes` but for the place of the signalling thread. -/
theorem Wakes.setPlace {p : Place} (h : Wakes s s') (ht : t ∉ s.waiters)
    (hp : s'.place t ≠ .downed) (hv : (s'.sema t).value = 0) (hp' : p ≠ .downed) :
    Wakes s (s'.setPlace t p) := by
  have hsame : ∀ u, Free (s'.setPlace t p) u ↔ Free s' u := by
    intro u
    by_cases hu : u = t
    · subst hu
      have hz : (s'.sema u).value ≠ 1 := by rw [hv]; decide
      constructor
      · rintro (hc | ⟨-, hc⟩)
        · exact absurd ((Function.update_self ..).symm.trans hc) hp'
        · exact absurd hc hz
      · rintro (hc | ⟨-, hc⟩)
        · exact absurd hc hp
        · exact absurd hc hz
    · show (Function.update s'.place t p u = .downed ∨ _) ↔ _
      unfold Free St.setPlace
      simp only [Function.update_of_ne hu]
  obtain ⟨c, hc, hmax, hl, hf, hothers⟩ := h
  exact ⟨c, hc, hmax, hl, (hsame c).mpr hf, fun u hu => (hsame u).trans (hothers u hu)⟩

/-- A signal wakes one thread, and none of those that wait outranks it. -/
theorem Inv.signals {a : Act T} (h : Inv s) (hmeets : Meets s a) (hs : Signals s a s') :
    Wakes s s' := by
  obtain ⟨hstep, hne, ⟨t, rfl⟩ | ⟨t, rfl⟩⟩ := hs
  · simp only [Cond.step, h.fault, Bool.false_eq_true, if_false] at hstep
    split at hstep
    · next hp =>
      cases hstep
      have hfits := h.fits t
      rw [hp] at hfits
      have hp' : s.condSignal.place t = .holding := (h.condSignal_place hmeets hfits.1).trans hp
      have hfits' := (h.condSignal hmeets).fits t
      rw [hp'] at hfits'
      exact (h.wakes hmeets hne).setPlace hfits.1 (by rw [hp']; decide) hfits'.2 (by decide)
    · cases hstep
  · simp only [Cond.step, h.fault, Bool.false_eq_true, if_false, if_neg hne] at hstep
    split at hstep
    · cases hstep
      exact h.wakes hmeets hne
    · cases hstep

/-- A run of given steps; `none` if one of them cannot be taken. -/
def runs (s : St T) : List (Act T) → Option (St T)
  | [] => some s
  | a :: rest => (step s a).bind (runs · rest)

theorem steps_of_runs {R : St T → St T → Prop} {as : List (Act T)}
    (hR : ∀ a ∈ as, ∀ s s', step s a = some s' → R s s') (h : runs s as = some s') :
    Relation.ReflTransGen R s s' := by
  induction as generalizing s with
  | nil =>
      cases h
      exact .refl
  | cons a rest ih =>
      obtain ⟨m, hm, hrest⟩ := Option.bind_eq_some_iff.mp h
      exact .head (hR a (List.mem_cons_self ..) _ _ hm)
        (ih (fun b hb => hR b (List.mem_cons_of_mem _ hb)) hrest)

/-- In every state of a run in which signals come only when the waiting threads are at
their semaphores, all is right, and each signal frees the thread of highest priority. -/
theorem cond_signals_right (priority : T → Int) {s : St T}
    (hrun : Relation.ReflTransGen GoodStep (St.init priority) s) :
    Right s ∧ ∀ a s', Meets s a → Signals s a s' → Wakes s s' := by
  have h : Inv s := Threads.invariant_of_step hrun (Inv.init priority)
    fun _ _ h ⟨_, hmeets, hstep⟩ => h.step hmeets hstep
  exact ⟨h.right, fun _ _ hmeets hs => h.signals hmeets hs⟩

/-- Two threads wait and are blocked, the second of a higher priority; a third has the lock. -/
def twoWait : List (Act (Fin 3)) :=
  [.lock 0, .wait 0, .release 0, .down 0, .lock 1, .wait 1, .release 1, .down 1, .lock 2]

/-- A signal wakes the second. -/
theorem cond_signals_right_two : ∃ s s' : St (Fin 3),
    runs (St.init fun t => if t = 1 then 40 else 31) twoWait = some s ∧ s.waiters = [0, 1] ∧
    step s (.signal 2) = some s' ∧ s'.waiters = [0] ∧ s'.place 0 = .blocked ∧ s'.place 1 = .woken ∧
    Right s ∧ Wakes s s' := by
  obtain ⟨s, hs, hw, hblocked, s', hsignal, hleft, h0, h1⟩ : ∃ s,
      runs (St.init fun t => if t = 1 then 40 else 31) twoWait = some s ∧ s.waiters = [0, 1] ∧
      (∀ w ∈ s.waiters, s.place w = .blocked) ∧ ∃ s', step s (.signal 2) = some s' ∧
      s'.waiters = [0] ∧ s'.place 0 = .blocked ∧ s'.place 1 = .woken :=
    ⟨_, rfl, rfl, by decide, _, rfl, rfl, rfl, rfl⟩
  have hrun : Relation.ReflTransGen GoodStep (St.init fun t => if t = 1 then 40 else 31) s := by
    refine steps_of_runs (fun a ha s s' hstep => ⟨a, ?_, hstep⟩) hs
    -- none of these steps is a signal
    simp only [twoWait, List.mem_cons, List.not_mem_nil, or_false] at ha
    rcases ha with rfl | rfl | rfl | rfl | rfl | rfl | rfl | rfl | rfl <;> trivial
  obtain ⟨hright, hsignals⟩ := cond_signals_right _ hrun
  refine ⟨s, s', hs, hw, hsignal, hleft, h0, h1, hright,
    hsignals (.signal 2) s' (.inr hblocked) ⟨hsignal, ?_, .inl ⟨2, rfl⟩⟩⟩
  rw [hw]
  decide

/-- Two threads wait, the second has not come to `sema_down`, and a third signals. -/
def earlySignal : List (Act (Fin 3)) :=
  [.lock 0, .wait 0, .release 0, .down 0, .lock 1, .wait 1, .release 1, .lock 2, .signal 2]

/-- `list_front` finds an empty list. -/
theorem cond_signal_fails :
    ¬ ∀ (T : Type) [DecidableEq T] (priority : T → Int) (s : St T),
      Relation.ReflTransGen Step (St.init priority) s →
        Right s ∧ ∀ a s', Signals s a s' → Wakes s s' := by
  intro hall
  obtain ⟨s, hrun, hfault⟩ :
      ∃ s, runs (St.init fun _ => 31) earlySignal = some s ∧ s.fault = true := ⟨_, rfl, rfl⟩
  have hsafe := (hall (Fin 3) _ s (steps_of_runs (fun a _ _ _ h => ⟨a, h⟩) hrun)).1.safe
  rw [hfault] at hsafe
  cases hsafe

end Cond

end CS162.Kernel
