/-
# `CS162.Kernel.DonationRuns` — priority donation over whole runs

Threads that create threads, acquire, try, release and set their priority; the
bookkeeping of each call is one step.  A call of `lock_acquire` that has to wait is two:
one up to the semaphore's wait list, and, each time the thread has been woken, one more
that tests the semaphore again.  Which thread goes next is left open.

`Donated` is what donation is for.  It is kept by every step that meets `Meets`.  The
functions of `CS162.Kernel.Priority` lose it in four ways: a release that leaves other
locks never lowers the effective priority; neither does a lowered base priority while a
lock is held; `lock_try_acquire` takes over the `lock_priority` of an earlier holder; and
a thread that takes a free lock takes no account of those that wait for it.
-/
import CS162.Lib.Threads
import CS162.Kernel.Priority

namespace CS162.Kernel

namespace DonationRuns

/-- Where a thread is with respect to locks. -/
inductive Status where
  | absent
  | ready
  | blocked (l : Nat)
  | woken (l : Nat)
  deriving DecidableEq

structure St where
  books : Books
  status : Nat → Status
  value : Nat → Nat
  waiters : Nat → List Nat
  next : Nat

inductive Act where
  | create (t : Nat) (priority : Int)
  | acquire (t l : Nat)
  | retry (t : Nat)
  | tryAcquire (t l : Nat)
  | release (t l : Nat)
  | setPriority (t : Nat) (newPriority : Int)

/-- The lock inside `allocate_tid`, which nobody else can name. -/
def tidLock : Nat := 0

/-- The first thread. -/
def mainThread : Nat := 1

/-- The wait loop of `sema_down`, once, and the rest of `lock_acquire`. -/
def semaDown (s : St) (t l : Nat) : St :=
  if s.value l = 0 then
    { s with
      waiters := Function.update s.waiters l (s.waiters l ++ [t])
      status := Function.update s.status t (.blocked l) }
  else
    { s with
      value := Function.update s.value l (s.value l - 1)
      books := s.books.acquired t l
      status := Function.update s.status t .ready }

/-- `list_max` with `compare_thread`, `thread_unblock`, and the increment. -/
def semaUp (s : St) (l : Nat) : St :=
  let s' := { s with value := Function.update s.value l (s.value l + 1) }
  match (s.waiters l).argmax s.books.effectivePriority with
  | none => s'
  | some w => { s' with
      waiters := Function.update s.waiters l ((s.waiters l).erase w)
      status := Function.update s.status w (.woken l) }

def lockAcquire (s : St) (t l : Nat) : Option St :=
  if s.status t = .ready ∧ s.books.holder l ≠ some t then
    (s.books.request s.next t l).map fun B => semaDown { s with books := B } t l
  else none

def lockRelease (s : St) (t l : Nat) : Option St :=
  if s.status t = .ready ∧ s.books.holder l = some t then
    some (semaUp { s with books := s.books.released t l } l)
  else none

def lockTryAcquire (s : St) (t l : Nat) : Option St :=
  if s.status t = .ready ∧ s.books.holder l ≠ some t then
    if s.value l > 0 then
      some { s with
        value := Function.update s.value l (s.value l - 1)
        books := s.books.tryAcquired t l }
    else some s
  else none

/-- `allocate_tid`. -/
def allocateTid (s : St) (t : Nat) : Option St := do
  let s ← lockAcquire s t tidLock
  lockRelease s t tidLock

def threadCreate (s : St) (t : Nat) (priority : Int) : Option St :=
  if s.status t = .ready ∧ priMin ≤ priority ∧ priority ≤ priMax then
    (allocateTid { s with books := s.books.initThread s.next priority } t).map fun s =>
      { s with status := Function.update s.status s.next .ready, next := s.next + 1 }
  else none

def step (s : St) : Act → Option St
  | .create t priority => threadCreate s t priority
  | .acquire t l => if l = tidLock then none else lockAcquire s t l
  | .retry t =>
      match s.status t with
      | .woken l => some (semaDown s t l)
      | _ => none
  | .tryAcquire t l => if l = tidLock then none else lockTryAcquire s t l
  | .release t l => if l = tidLock then none else lockRelease s t l
  | .setPriority t newPriority =>
      if s.status t = .ready then
        some { s with books := s.books.threadSetPriority t newPriority }
      else none

/-- One thread, and locks that have been through `lock_init`. -/
def St.init : St where
  books :=
    { priority := fun t => if t = mainThread then priDefault else 0
      effectivePriority := fun t => if t = mainThread then priDefault else 0
      acquiredLockList := fun _ => []
      waitingLock := fun _ => none
      holder := fun _ => none
      lockPriority := fun _ => -1 }
  status t := if t = mainThread then .ready else .absent
  value _ := 1
  waiters _ := []
  next := 2

/-! ## What donation is for -/

/-- Every thread has the largest of its own priority and those of the threads that are
blocked on a lock it holds. -/
def Donated (s : St) : Prop :=
  ∀ t, IsGreatest {x | x = s.books.priority t ∨ ∃ l w, s.books.holder l = some t ∧
    w ∈ s.waiters l ∧ x = s.books.effectivePriority w} (s.books.effectivePriority t)

/-- No thread is on its way to a lock that has gone to
another.  So it is when no call is in progress. -/
def Settled (s : St) : Prop := ∀ w l, s.status w = .woken l → s.books.holder l = none

/-- Those that wait for `l` do not outrank `t`. -/
def Outranks (s : St) (t l : Nat) : Prop :=
  ∀ w, w ≠ t → s.books.waitingLock w = some l →
    s.books.effectivePriority w ≤ s.books.effectivePriority t

/-- When a step does what it should. -/
def Meets (s : St) : Act → Prop
  | .create _ _ => True
  | .acquire t l => s.books.holder l = none → Outranks s t l
  | .retry t => ∀ l, s.status t = .woken l → s.books.holder l = none → Outranks s t l
  | .tryAcquire t l => s.books.holder l = none →
      s.books.lockPriority l ≤ s.books.effectivePriority t ∧ Outranks s t l
  | .release t l => (∀ l', s.books.holder l' = some t → l' = l) ∨
      ∀ w, s.books.waitingLock w = some l → s.books.effectivePriority w ≤ s.books.priority t ∨
        ∃ l' w', l' ≠ l ∧ s.books.holder l' = some t ∧ s.books.waitingLock w' = some l' ∧
          s.books.effectivePriority w ≤ s.books.effectivePriority w'
  | .setPriority t newPriority => (∀ l, s.books.holder l ≠ some t) ∨
      s.books.priority t ≤ newPriority ∨
        ∃ l w, s.books.holder l = some t ∧ s.books.waitingLock w = some l ∧
          s.books.priority t ≤ s.books.effectivePriority w

/-! ## The invariant -/

structure Inv (s : St) : Prop where
  books : s.books.Ok
  value : ∀ l, s.value l = if s.books.holder l = none then 1 else 0
  waiting : ∀ t l, s.books.waitingLock t = some l ↔ s.status t = .blocked l ∨ s.status t = .woken l
  waiters : ∀ t l, t ∈ s.waiters l ↔ s.status t = .blocked l
  nodup : ∀ l, (s.waiters l).Nodup
  absent : ∀ t, s.next ≤ t → s.status t = .absent
  holder : ∀ l t, s.books.holder l = some t → t < s.next
  tidHolder : s.books.holder tidLock = none
  tidWaiting : ∀ t, s.books.waitingLock t ≠ some tidLock

variable {s s' : St} {t l : Nat}

theorem Inv.lt_next (h : Inv s) (ht : s.status t ≠ .absent) : t < s.next := by
  by_contra hge
  exact ht (h.absent t (Nat.le_of_not_lt hge))

theorem Inv.waiting_none (h : Inv s) (ht : s.status t = .ready ∨ s.status t = .absent) :
    s.books.waitingLock t = none := by
  cases hw : s.books.waitingLock t with
  | none => rfl
  | some l =>
      have := (h.waiting t l).mp hw
      rcases ht with ht | ht <;> rw [ht] at this <;> rcases this with h | h <;> cases h

/-- The invariant is `Donated` where all is settled. -/
theorem Inv.donated (h : Inv s) (hs : Settled s) : Donated s := by
  intro t
  have hset : {x | x = s.books.priority t ∨ ∃ l w, s.books.holder l = some t ∧
      w ∈ s.waiters l ∧ x = s.books.effectivePriority w}
      = Donation.sources s.books.Donates s.books.priority s.books.effectivePriority t := by
    ext x
    refine or_congr_right ⟨?_, ?_⟩
    · rintro ⟨l, w, hl, hw, hx⟩
      exact ⟨w, ⟨l, (h.waiting w l).mpr (.inl ((h.waiters w l).mp hw)), hl⟩, hx⟩
    · rintro ⟨w, ⟨l, hw, hl⟩, hx⟩
      refine ⟨l, w, hl, (h.waiters w l).mpr ?_, hx⟩
      refine ((h.waiting w l).mp hw).resolve_right fun hwoken => ?_
      rw [hs w l hwoken] at hl
      cases hl
  rw [hset]
  exact h.books.stable t

/-! ## Steps -/

/-- A thread joins the wait list. -/
theorem Inv.block {B : Books} (h : Inv s) (hB : B.Ok) (hholder : B.holder = s.books.holder)
    (hwait : B.waitingLock = Function.update s.books.waitingLock t (some l)) (hl : l ≠ tidLock)
    (hlt : t < s.next) (ht : s.status t = .ready ∨ s.status t = .woken l) :
    Inv { s with
      books := B
      waiters := Function.update s.waiters l (s.waiters l ++ [t])
      status := Function.update s.status t (.blocked l) } := by
  have hnot : ∀ l', t ∉ s.waiters l' := by
    intro l' hc
    have hb := (h.waiters t l').mp hc
    rcases ht with ht | ht <;> rw [ht] at hb <;> cases hb
  refine ⟨hB, ?_, ?_, ?_, ?_, ?_, ?_, ?_, ?_⟩
  · intro l'
    simp only [hholder]
    exact h.value l'
  · intro t' l'
    simp only [hwait]
    by_cases htt : t' = t
    · subst htt
      simp
    · simp only [Function.update_of_ne htt]
      exact h.waiting t' l'
  · intro t' l'
    by_cases htt : t' = t
    · subst htt
      by_cases hll : l' = l
      · subst hll
        simp
      · simp [hll, hnot l', Ne.symm hll]
    · by_cases hll : l' = l
      · subst hll
        simp [htt, h.waiters]
      · simp [htt, hll, h.waiters]
  · intro l'
    by_cases hll : l' = l
    · subst hll
      simp only [Function.update_self]
      refine List.Nodup.append (h.nodup l') (List.nodup_singleton t) ?_
      rw [List.disjoint_singleton]
      exact hnot l'
    · simp only [Function.update_of_ne hll]
      exact h.nodup l'
  · intro t' ht'
    have htt : t' ≠ t := Nat.ne_of_gt (Nat.lt_of_lt_of_le hlt ht')
    simp only [Function.update_of_ne htt]
    exact h.absent t' ht'
  · intro l' t' ht'
    exact h.holder l' t' (by rw [← hholder]; exact ht')
  · simp only [hholder]
    exact h.tidHolder
  · intro t'
    simp only [hwait]
    by_cases htt : t' = t
    · subst htt
      simp [hl]
    · simp only [Function.update_of_ne htt]
      exact h.tidWaiting t'

/-- A thread gets a lock. -/
theorem Inv.grant {B : Books} (h : Inv s) (hB : B.Ok) (hfree : s.books.holder l = none)
    (hholder : B.holder = Function.update s.books.holder l (some t))
    (hwait : B.waitingLock = Function.update s.books.waitingLock t none) (hl : l ≠ tidLock)
    (hlt : t < s.next) (ht : s.status t = .ready ∨ s.status t = .woken l) :
    Inv { s with
      value := Function.update s.value l (s.value l - 1)
      books := B
      status := Function.update s.status t .ready } := by
  refine ⟨hB, ?_, ?_, ?_, h.nodup, ?_, ?_, ?_, ?_⟩
  · intro l'
    simp only [hholder]
    by_cases hll : l' = l
    · subst hll
      simp [h.value, hfree]
    · simp only [Function.update_of_ne hll]
      exact h.value l'
  · intro t' l'
    simp only [hwait]
    by_cases htt : t' = t
    · subst htt
      simp
    · simp only [Function.update_of_ne htt]
      exact h.waiting t' l'
  · intro t' l'
    by_cases htt : t' = t
    · subst htt
      have hnot : t' ∉ s.waiters l' := by
        intro hc
        have hb := (h.waiters t' l').mp hc
        rcases ht with ht | ht <;> rw [ht] at hb <;> cases hb
      simp [hnot]
    · simp only [Function.update_of_ne htt]
      exact h.waiters t' l'
  · intro t' ht'
    have htt : t' ≠ t := Nat.ne_of_gt (Nat.lt_of_lt_of_le hlt ht')
    simp only [Function.update_of_ne htt]
    exact h.absent t' ht'
  · intro l' t' ht'
    simp only [hholder] at ht'
    by_cases hll : l' = l
    · subst hll
      rw [Function.update_self] at ht'
      cases ht'
      exact hlt
    · rw [Function.update_of_ne hll] at ht'
      exact h.holder l' t' ht'
  · simp only [hholder, Function.update_of_ne (Ne.symm hl)]
    exact h.tidHolder
  · intro t'
    simp only [hwait]
    by_cases htt : t' = t
    · subst htt
      simp
    · simp only [Function.update_of_ne htt]
      exact h.tidWaiting t'

/-- A lock is given up, and one of those that wait is woken. -/
theorem Inv.semaUp {B : Books} (h : Inv s) (hB : B.Ok) (hhold : s.books.holder l = some t)
    (hholder : B.holder = Function.update s.books.holder l none)
    (hwait : B.waitingLock = s.books.waitingLock) : Inv (semaUp { s with books := B } l) := by
  have hvalue : ∀ l', Function.update s.value l (s.value l + 1) l' = if B.holder l' = none then 1
      else 0 := by
    intro l'
    rw [hholder]
    by_cases hll : l' = l
    · subst hll
      simp [h.value, hhold]
    · simp only [Function.update_of_ne hll]
      exact h.value l'
  have hlive : ∀ l' t', B.holder l' = some t' → t' < s.next := by
    intro l' t' ht'
    rw [hholder] at ht'
    by_cases hll : l' = l
    · subst hll
      rw [Function.update_self] at ht'
      cases ht'
    · rw [Function.update_of_ne hll] at ht'
      exact h.holder l' t' ht'
  have htid : B.holder tidLock = none := by
    rw [hholder]
    by_cases hll : tidLock = l
    · rw [hll, Function.update_self]
    · rw [Function.update_of_ne hll]
      exact h.tidHolder
  have htw : ∀ t', B.waitingLock t' ≠ some tidLock := by
    intro t'
    rw [hwait]
    exact h.tidWaiting t'
  unfold DonationRuns.semaUp
  split
  · refine ⟨hB, hvalue, fun t' l' => ?_, h.waiters, h.nodup, h.absent, hlive, htid, htw⟩
    simp only [hwait]
    exact h.waiting t' l'
  · next w hmax =>
    have hw := (h.waiters w l).mp (List.argmax_mem hmax)
    refine ⟨hB, hvalue, ?_, ?_, ?_, ?_, hlive, htid, htw⟩
    · intro t' l'
      simp only [hwait]
      by_cases htt : t' = w
      · subst htt
        rw [h.waiting, hw]
        simp
      · simp only [Function.update_of_ne htt]
        exact h.waiting t' l'
    · intro t' l'
      by_cases htt : t' = w
      · subst htt
        by_cases hll : l' = l
        · subst hll
          simp [(h.nodup l').mem_erase_iff]
        · simp [hll, h.waiters, hw, Ne.symm hll]
      · by_cases hll : l' = l
        · subst hll
          simp [htt, List.mem_erase_of_ne htt, h.waiters]
        · simp [htt, hll, h.waiters]
    · intro l'
      by_cases hll : l' = l
      · subst hll
        simp only [Function.update_self]
        exact (h.nodup l').erase w
      · simp only [Function.update_of_ne hll]
        exact h.nodup l'
    · intro t' ht'
      have htt : t' ≠ w := by
        rintro rfl
        have habs := h.absent t' ht'
        rw [hw] at habs
        cases habs
      simp only [Function.update_of_ne htt]
      exact h.absent t' ht'

/-- `lock_acquire` of a lock that is held donates along the chain of holders before it blocks. -/
theorem Inv.lockAcquire (h : Inv s) (hl : l ≠ tidLock)
    (hmeets : s.books.holder l = none → Outranks s t l) (hstep : lockAcquire s t l = some s') :
    Inv s' := by
  unfold DonationRuns.lockAcquire at hstep
  split at hstep
  · next hg =>
    obtain ⟨ht, hnot⟩ := hg
    have hlt : t < s.next := h.lt_next (by rw [ht]; decide)
    have hnone := h.waiting_none (.inl ht)
    obtain ⟨B, hreq, rfl⟩ := Option.map_eq_some_iff.mp hstep
    cases hholder : s.books.holder l with
    | none =>
        simp only [Books.request, hholder] at hreq
        cases hreq
        have hval : s.value l ≠ 0 := by
          rw [h.value, if_pos hholder]
          decide
        simp only [semaDown, if_neg hval]
        have hok := h.books.acquired hholder (.inl hnone) (hmeets hholder)
        refine h.grant hok hholder ?_ ?_ hl hlt (.inl ht)
        · rw [Books.acquired_eq]
        · rw [Books.acquired_eq]
    | some x =>
        have hval : s.value l = 0 := by
          rw [h.value, if_neg (by rw [hholder]; simp)]
        obtain ⟨hok, hr⟩ := h.books.request hnone hholder hreq
        simp only [semaDown, if_pos hval]
        refine h.block hok ?_ ?_ hl hlt (.inl ht)
        · rw [hr.frame]
          rfl
        · rw [hr.frame]
          rfl
  · cases hstep

/-- `lock_acquire` comes to the semaphore unless it closes a circle of waiting threads. -/
theorem Inv.lockAcquire_returns (h : Inv s) (ht : s.status t = .ready)
    (hnot : s.books.holder l ≠ some t)
    (hacyclic : ∀ x, ¬ Relation.TransGen (s.books.setWaiting t (some l)).Donates x x) :
    ∃ s', DonationRuns.lockAcquire s t l = some s' := by
  have hreq : ∃ B, s.books.request s.next t l = some B := by
    unfold Books.request
    split
    · exact ⟨_, rfl⟩
    · refine Books.propagateBroadcast_returns (S := Finset.range s.next) (fun x hx => ?_)
        (fun x _ => hacyclic x) (Nat.le_of_eq (Finset.card_range _))
      rw [Finset.mem_range]
      cases hx with
      | refl => exact h.lt_next (by rw [ht]; decide)
      | tail _ hd =>
          obtain ⟨l', -, hl'⟩ := hd
          exact h.holder l' x hl'
  obtain ⟨B, hB⟩ := hreq
  exact ⟨_, by rw [DonationRuns.lockAcquire, if_pos ⟨ht, hnot⟩, hB]; rfl⟩

/-- A thread that was woken finds the lock free and takes
it, or blocks again with its donation in place. -/
theorem Inv.retry (h : Inv s) (ht : s.status t = .woken l)
    (hmeets : s.books.holder l = none → Outranks s t l) : Inv (semaDown s t l) := by
  have hlt : t < s.next := h.lt_next (by rw [ht]; simp)
  have hwait : s.books.waitingLock t = some l := (h.waiting t l).mpr (.inr ht)
  have hl : l ≠ tidLock := by
    rintro rfl
    exact h.tidWaiting t hwait
  cases hholder : s.books.holder l with
  | none =>
      have hval : s.value l ≠ 0 := by
        rw [h.value, if_pos hholder]
        decide
      simp only [semaDown, if_neg hval]
      refine h.grant (h.books.acquired hholder (.inr hwait) (hmeets hholder)) hholder ?_ ?_ hl hlt
        (.inr ht)
      · rw [Books.acquired_eq]
      · rw [Books.acquired_eq]
  | some x =>
      have hval : s.value l = 0 := by
        rw [h.value, if_neg (by rw [hholder]; simp)]
      simp only [semaDown, if_pos hval]
      refine h.block h.books rfl ?_ hl hlt (.inr ht)
      rw [← hwait, Function.update_eq_self]

/-- `lock_try_acquire` donates nothing, and takes the lock only if it is free. -/
theorem Inv.lockTryAcquire (h : Inv s) (hl : l ≠ tidLock)
    (hmeets : s.books.holder l = none →
      s.books.lockPriority l ≤ s.books.effectivePriority t ∧ Outranks s t l)
    (hstep : lockTryAcquire s t l = some s') : Inv s' := by
  unfold DonationRuns.lockTryAcquire at hstep
  split at hstep
  · next hg =>
    obtain ⟨ht, hnot⟩ := hg
    have hlt : t < s.next := h.lt_next (by rw [ht]; decide)
    have hnone := h.waiting_none (.inl ht)
    split at hstep
    · next hpos =>
      cases hstep
      have hfree : s.books.holder l = none := by
        by_contra hc
        rw [h.value, if_neg hc] at hpos
        exact absurd hpos (by decide)
      obtain ⟨hlp, htop⟩ := hmeets hfree
      have hok := h.books.tryAcquired hfree hnone hlp fun w hw => by
        refine htop w ?_ hw
        rintro rfl
        rw [hnone] at hw
        cases hw
      have hInv := h.grant hok hfree rfl ?_ hl hlt (.inl ht)
      · rwa [← ht, Function.update_eq_self] at hInv
      · rw [← hnone, Function.update_eq_self]
        rfl
    · cases hstep
      exact h
  · cases hstep

theorem Inv.lockRelease (h : Inv s)
    (hmeets : Meets s (.release t l)) (hstep : lockRelease s t l = some s') : Inv s' := by
  unfold DonationRuns.lockRelease at hstep
  split at hstep
  · next hg =>
    obtain ⟨ht, hhold⟩ := hg
    cases hstep
    refine h.semaUp (h.books.released hhold (h.waiting_none (.inl ht)) hmeets) hhold ?_ ?_
    · rw [Books.released_eq h.books]
    · rw [Books.released_eq h.books]
  · cases hstep

/-- The lock of `allocate_tid` is free, and nobody waits for it. -/
theorem Inv.allocateTid (h : Inv s) (ht : s.status t = .ready)
    (hstep : allocateTid s t = some s') : Inv s' := by
  have hnone := h.waiting_none (.inl ht)
  have htid := h.tidHolder
  have hval : s.value tidLock = 1 := by rw [h.value, if_pos htid]
  have hok := h.books.acquired htid (.inl hnone) fun w _ hw => absurd hw (h.tidWaiting w)
  have hacq : DonationRuns.lockAcquire s t tidLock = some
      { s with
        value := Function.update s.value tidLock 0
        books := s.books.acquired t tidLock
        status := s.status } := by
    have hup : Function.update s.status t .ready = s.status := by rw [← ht, Function.update_eq_self]
    simp [DonationRuns.lockAcquire, ht, htid, Books.request, semaDown, hval, hup]
  have hheld : (s.books.acquired t tidLock).holder tidLock = some t := by
    simp [Books.acquired_eq]
  have hempty : s.waiters tidLock = [] := by
    refine List.eq_nil_iff_forall_not_mem.mpr fun w hw => ?_
    exact h.tidWaiting w ((h.waiting w tidLock).mpr (.inl ((h.waiters w tidLock).mp hw)))
  simp only [DonationRuns.allocateTid, hacq, Option.bind_eq_bind, Option.bind_some,
    DonationRuns.lockRelease, ht, hheld, and_self, if_true, DonationRuns.semaUp, hempty,
    List.argmax_nil] at hstep
  cases hstep
  have hbooks : ((s.books.acquired t tidLock).released t tidLock).holder = s.books.holder := by
    rw [Books.released_eq hok, Books.acquired_eq]
    simp only [Function.update_idem]
    rw [← htid, Function.update_eq_self]
  have hwait : ((s.books.acquired t tidLock).released t tidLock).waitingLock = s.books.waitingLock := by
    rw [Books.released_eq hok, Books.acquired_eq]
    simp only
    rw [← hnone, Function.update_eq_self]
  have hvalue : Function.update (Function.update s.value tidLock 0) tidLock 1 = s.value := by
    rw [Function.update_idem, ← hval, Function.update_eq_self]
  refine ⟨?_, ?_, ?_, h.waiters, h.nodup, h.absent, ?_, ?_, ?_⟩
  · refine hok.released hheld ?_ (.inr fun w hw => ?_)
    · simp [Books.acquired_eq]
    · rw [Books.acquired_eq] at hw
      by_cases hwt : w = t
      · subst hwt
        simp at hw
      · simp only [Function.update_of_ne hwt] at hw
        exact absurd hw (h.tidWaiting w)
  · intro l'
    simp only [hbooks, Function.update_self, Nat.zero_add, hvalue]
    exact h.value l'
  · intro t' l'
    simp only [hwait]
    exact h.waiting t' l'
  · intro l' t' ht'
    exact h.holder l' t' (by rw [← hbooks]; exact ht')
  · simp only [hbooks]
    exact htid
  · intro t'
    simp only [hwait]
    exact h.tidWaiting t'

/-- `thread_create` takes the lock of `allocate_tid` and gives it back. -/
theorem Inv.threadCreate {p : Int} (h : Inv s) (hstep : threadCreate s t p = some s') : Inv s' := by
  unfold DonationRuns.threadCreate at hstep
  split at hstep
  · next hg =>
    obtain ⟨s₁, h₁, rfl⟩ := Option.map_eq_some_iff.mp hstep
    have habs := h.absent s.next (Nat.le_refl _)
    have hnone := h.waiting_none (.inr habs)
    have hfresh : ∀ l, s.books.holder l ≠ some s.next := fun l hl =>
      Nat.lt_irrefl _ (h.holder l s.next hl)
    have hwait : (s.books.initThread s.next p).waitingLock = s.books.waitingLock := by
      show Function.update s.books.waitingLock s.next none = _
      rw [← hnone, Function.update_eq_self]
    have h₀ : Inv { s with books := s.books.initThread s.next p } := by
      refine ⟨h.books.initThread hnone hfresh, h.value, ?_, h.waiters, h.nodup, h.absent, h.holder,
        h.tidHolder, ?_⟩
      · intro t' l'
        simp only [hwait]
        exact h.waiting t' l'
      · intro t'
        simp only [hwait]
        exact h.tidWaiting t'
    have hInv := h₀.allocateTid hg.1 h₁
    have habs₁ : s₁.status s₁.next = .absent := hInv.absent _ (Nat.le_refl _)
    refine ⟨hInv.books, hInv.value, ?_, ?_, hInv.nodup, ?_, ?_, hInv.tidHolder, hInv.tidWaiting⟩
    · intro t' l'
      by_cases htt : t' = s₁.next
      · subst htt
        rw [hInv.waiting, habs₁]
        simp
      · simp only [Function.update_of_ne htt]
        exact hInv.waiting t' l'
    · intro t' l'
      by_cases htt : t' = s₁.next
      · subst htt
        rw [hInv.waiters, habs₁]
        simp
      · simp only [Function.update_of_ne htt]
        exact hInv.waiters t' l'
    · intro t' ht'
      replace ht' : s₁.next + 1 ≤ t' := ht'
      have htt : t' ≠ s₁.next := Nat.ne_of_gt ht'
      simp only [Function.update_of_ne htt]
      exact hInv.absent t' (Nat.le_of_succ_le ht')
    · intro l' t' ht'
      exact Nat.lt_succ_of_lt (hInv.holder l' t' ht')
  · cases hstep

/-- `thread_set_priority` writes priorities only. -/
theorem threadSetPriority_frame (B : Books) (t : Nat) (p : Int) :
    (B.threadSetPriority t p).holder = B.holder ∧
      (B.threadSetPriority t p).waitingLock = B.waitingLock := by
  unfold Books.threadSetPriority
  split <;> exact ⟨rfl, rfl⟩

/-- `thread_set_priority` changes the caller's own priority; the condition says when the effective one
may follow it. -/
theorem Inv.setPriority {p : Int} (h : Inv s) (ht : s.status t = .ready)
    (hmeets : Meets s (.setPriority t p)) :
    Inv { s with books := s.books.threadSetPriority t p } := by
  obtain ⟨hholder, hwait⟩ := threadSetPriority_frame s.books t p
  have hlow : (∀ l, s.books.holder l ≠ some t) ∨ s.books.priority t ≤ p ∨
      ∃ w, s.books.Donates w t ∧ s.books.priority t ≤ s.books.effectivePriority w := by
    refine hmeets.imp id fun hm => hm.imp id ?_
    rintro ⟨l, w, hl, hw, hle⟩
    exact ⟨w, ⟨l, hw, hl⟩, hle⟩
  refine ⟨h.books.threadSetPriority (h.waiting_none (.inl ht)) hlow, ?_, ?_, h.waiters, h.nodup,
    h.absent, ?_, ?_, ?_⟩
  · intro l'
    simp only [hholder]
    exact h.value l'
  · intro t' l'
    simp only [hwait]
    exact h.waiting t' l'
  · intro l' t' ht'
    exact h.holder l' t' (by rw [← hholder]; exact ht')
  · simp only [hholder]
    exact h.tidHolder
  · intro t'
    simp only [hwait]
    exact h.tidWaiting t'

/-- Each step that meets the condition keeps the invariant. -/
theorem Inv.step {a : Act} (h : Inv s) (hmeets : Meets s a) (hstep : step s a = some s') :
    Inv s' := by
  cases a with
  | create t p => exact h.threadCreate hstep
  | acquire t l =>
      simp only [DonationRuns.step] at hstep
      split at hstep
      · cases hstep
      · next hl => exact h.lockAcquire hl hmeets hstep
  | retry t =>
      simp only [DonationRuns.step] at hstep
      split at hstep
      · next l ht =>
        cases hstep
        exact h.retry ht (hmeets l ht)
      · cases hstep
  | tryAcquire t l =>
      simp only [DonationRuns.step] at hstep
      split at hstep
      · cases hstep
      · next hl => exact h.lockTryAcquire hl hmeets hstep
  | release t l =>
      simp only [DonationRuns.step] at hstep
      split at hstep
      · cases hstep
      · exact h.lockRelease hmeets hstep
  | setPriority t p =>
      simp only [DonationRuns.step] at hstep
      split at hstep
      · next ht =>
        cases hstep
        exact h.setPriority ht hmeets
      · cases hstep

/-- At the start there is one thread, and no lock is held. -/
theorem Inv.init : Inv St.init := by
  refine ⟨⟨?_, fun l t ht => ?_, fun l t => ?_, fun t => List.nodup_nil⟩, fun l => rfl,
    fun t l => ?_, fun t l => ?_, fun l => List.nodup_nil, fun t ht => ?_, fun l t ht => ?_, rfl,
    fun t ht => ?_⟩
  · intro t
    refine ⟨.inl rfl, ?_⟩
    rintro x (rfl | ⟨w, ⟨l, hl, -⟩, -⟩)
    · exact le_refl _
    · cases hl
  · cases ht
  · exact ⟨fun hc => by (cases hc), fun hc => by (cases hc)⟩
  · refine ⟨fun hc => by (cases hc), fun hc => ?_⟩
    by_cases hm : t = mainThread <;> simp [St.init, hm] at hc
  · refine ⟨fun hc => by (cases hc), fun hc => ?_⟩
    by_cases hm : t = mainThread <;> simp [St.init, hm] at hc
  · have hm : t ≠ mainThread := by
      rintro rfl
      exact absurd ht (by decide)
    simp [St.init, hm]
  · cases ht
  · cases ht

/-! ## Runs -/

/-- A step of a run. -/
def Step (s s' : St) : Prop := ∃ a, step s a = some s'

/-- A step that meets the condition. -/
def GoodStep (s s' : St) : Prop := ∃ a, Meets s a ∧ step s a = some s'

/-- Donation is exact in runs whose steps meet the condition: whenever no thread is on its way to a lock
that has gone to another, the effective priority of each is the greatest of its own and of those of the
threads that wait for its locks. -/
theorem donated_of_run {s : St} (hrun : Relation.ReflTransGen GoodStep St.init s)
    (hs : Settled s) : Donated s := by
  have hInv : Inv s := Threads.invariant_of_step hrun Inv.init fun s s' h hstep => by
    obtain ⟨a, hmeets, hstep⟩ := hstep
    exact h.step hmeets hstep
  exact hInv.donated hs

/-! ## Two runs -/

/-- The steps of a list, one after the other, if all are possible. -/
def runs (s : St) : List Act → Option St
  | [] => some s
  | a :: rest => (step s a).bind fun s' => runs s' rest

theorem step_of_runs {as : List Act} {s : St} (h : runs s as = some s') :
    Relation.ReflTransGen Step s s' := by
  induction as generalizing s with
  | nil =>
      cases h
      exact .refl
  | cons a rest ih =>
      obtain ⟨s₁, h₁, h₂⟩ := Option.bind_eq_some_iff.mp h
      exact .head ⟨a, h₁⟩ (ih h₂)

/-- The first thread holds a lock that a thread of higher priority waits for. -/
theorem donated_of_run_small : ∃ s, Relation.ReflTransGen GoodStep St.init s ∧ Settled s ∧
    s.books.effectivePriority mainThread = 32 ∧ Donated s := by
  obtain ⟨s₁, s₂, s₃, h₁, h₂, h₃, hheld, hstatus, heff⟩ : ∃ s₁ s₂ s₃,
      step St.init (.acquire 1 1) = some s₁ ∧ step s₁ (.create 1 32) = some s₂ ∧
        step s₂ (.acquire 2 1) = some s₃ ∧ s₂.books.holder 1 = some 1 ∧
        s₃.status = Function.update (Function.update (Function.update (Function.update
          St.init.status 1 .ready) 1 .ready) 2 .ready) 2 (.blocked 1) ∧
        s₃.books.effectivePriority mainThread = 32 :=
    ⟨_, _, _, rfl, rfl, rfl, rfl, rfl, rfl⟩
  have hrun : Relation.ReflTransGen GoodStep St.init s₃ := by
    refine .tail (.tail (.single ⟨_, ?_, h₁⟩) ⟨.create 1 32, trivial, h₂⟩) ⟨_, ?_, h₃⟩
    · intro _ w _ hw
      cases hw
    · intro hfree
      rw [hheld] at hfree
      cases hfree
  have hs : Settled s₃ := by
    intro w l hw
    rw [hstatus] at hw
    simp only [Function.update_apply, St.init] at hw
    split_ifs at hw
  exact ⟨s₃, hrun, hs, heff, donated_of_run hrun hs⟩

/-- The run of the test `priority-donate-multiple`: the first thread holds two locks, and
releases the one that a thread of priority 33 waits for.  It keeps that priority. -/
theorem donated_fails :
    ¬ ∀ s, Relation.ReflTransGen Step St.init s → Settled s → Donated s := by
  intro h
  obtain ⟨s, hs, hstatus, hwaiters, hmain, hpri, htwo⟩ : ∃ s,
      runs St.init [.acquire 1 1, .acquire 1 2, .create 1 32, .acquire 2 1, .create 1 33,
        .acquire 3 2, .release 1 2, .retry 3] = some s ∧
      s.status = Function.update (Function.update (Function.update (Function.update (Function.update
        (Function.update (Function.update (Function.update (Function.update (Function.update
        St.init.status 1 .ready) 1 .ready) 1 .ready) 2 .ready) 2 (.blocked 1)) 1 .ready) 3 .ready)
        3 (.blocked 2)) 3 (.woken 2)) 3 .ready ∧
      s.waiters = Function.update (Function.update (Function.update (fun _ => []) 1 [2]) 2 [3]) 2 [] ∧
      s.books.effectivePriority 1 = 33 ∧ s.books.priority 1 = 31 ∧
      s.books.effectivePriority 2 = 32 :=
    ⟨_, rfl, rfl, rfl, rfl, rfl, rfl⟩
  have hsettled : Settled s := by
    intro w l hw
    rw [hstatus] at hw
    simp only [Function.update_apply, St.init] at hw
    split_ifs at hw
  have hdon := (h s (step_of_runs hs) hsettled 1).1
  rw [hmain] at hdon
  rcases hdon with hc | ⟨l, w, -, hw, hc⟩
  · rw [hpri] at hc
    exact absurd hc (by decide)
  · rw [hwaiters] at hw
    simp only [Function.update_apply] at hw
    split_ifs at hw
    · cases hw
    · rw [List.mem_singleton.mp hw, htwo] at hc
      exact absurd hc (by decide)
    · cases hw

end DonationRuns

end CS162.Kernel
