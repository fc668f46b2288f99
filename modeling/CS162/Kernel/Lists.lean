/-
# `CS162.Kernel.Lists` — one `elem` for the run queue and all wait lists

A thread's status says which list its `elem` is in.  `Lists s r` is that, together with
what the program counters say, in a state in which `r` runs; inside `schedule` nobody
does.  Each function of `CS162.Kernel.Sched` keeps it.
-/
import CS162.Lib.Threads
import CS162.Kernel.Sched

namespace CS162.Kernel

namespace Sched

/-- The semaphore whose loop the thread is in. -/
def Pc.waits : Pc → Option SemaId
  | .semaDown k => some (.user k)
  | .lockDown l _ => some (.lock l)
  | .user | .start | .idle | .lockRequested _ _ | .lockAcquired _ _ | .tidRelease _ | .unlock _ _
  | .returning _ | .unblockNew _ | .maybeYield _ | .asleep | .exited => none

/-- The thread that is being created and has not been unblocked. -/
def Pc.pending : Pc → Option Nat
  | .lockRequested _ c | .lockDown _ c | .lockAcquired _ c | .unlock _ c | .returning c => c
  | .tidRelease n | .unblockNew n => some n
  | .user | .start | .idle | .semaDown _ | .maybeYield _ | .asleep | .exited => none

/-- The invariant, with the thread that runs as an argument: between
`thread_block` and the end of `schedule` there is none.  A thread in a
wait list is blocked, at a place where that semaphore is waited for. -/
structure Lists (s : St) (r : Option Nat) : Prop where
  fault : s.fault = false
  running : ∀ t, s.status t = .running ↔ r = some t
  ready : ∀ t, t ∈ s.readyList ↔ s.status t = .ready ∧ t ≠ idleThread
  nodup : s.readyList.Nodup
  waiters : ∀ k t, t ∈ (s.sema k).waiters → s.status t = .blocked ∧ (s.pc t).waits = some k
  nodupWaiters : ∀ k, (s.sema k).waiters.Nodup
  sleepers : ∀ e ∈ s.sleeping, s.status e.2 = .blocked ∧ s.pc e.2 = .asleep
  nodupSleepers : (s.sleeping.map Prod.snd).Nodup
  pending : ∀ t n, (s.pc t).pending = some n →
    s.status n = .blocked ∧ s.pc n = .start ∧ s.parent n = t
  absent : ∀ t, s.next ≤ t → s.status t = .absent
  idlePc : s.pc idleThread = .idle
  idleStatus : s.status idleThread ≠ .absent ∧ s.status idleThread ≠ .dying

/-- What is kept between steps. -/
def Inv (s : St) : Prop := Lists s (some s.current)

variable {s : St} {r : Option Nat} {t : Nat} {k : SemaId}

namespace Lists

/-! ## Parts of a step -/

/-- Nothing here depends on priorities or the clock. -/
theorem congr {s' : St} (h : Lists s r) (hfault : s'.fault = s.fault) (hstatus : s'.status = s.status)
    (hready : s'.readyList = s.readyList) (hpc : s'.pc = s.pc) (hsema : s'.sema = s.sema)
    (hsleep : s'.sleeping = s.sleeping) (hnext : s'.next = s.next) (hparent : s'.parent = s.parent) :
    Lists s' r := by
  obtain ⟨books, status, pc, current, readyList, sema, sleeping, ticks, threadTicks, next, parent,
    fault⟩ := s'
  cases hfault
  cases hstatus
  cases hready
  cases hpc
  cases hsema
  cases hsleep
  cases hnext
  cases hparent
  exact ⟨h.fault, h.running, h.ready, h.nodup, h.waiters, h.nodupWaiters, h.sleepers,
    h.nodupSleepers, h.pending, h.absent, h.idlePc, h.idleStatus⟩

theorem setBooks (h : Lists s r) (B : Books) : Lists (s.setBooks B) r :=
  h.congr rfl rfl rfl rfl rfl rfl rfl rfl

/-- A wait list gets no new members. -/
theorem setSema (h : Lists s r) {S : Sema Nat} (hsub : ∀ t ∈ S.waiters, t ∈ (s.sema k).waiters)
    (hnodup : S.waiters.Nodup) : Lists (s.setSema k S) r := by
  refine ⟨h.fault, h.running, h.ready, h.nodup, ?_, ?_, h.sleepers, h.nodupSleepers, h.pending,
    h.absent, h.idlePc, h.idleStatus⟩
  · intro k' t ht
    replace ht : t ∈ (Function.update s.sema k S k').waiters := ht
    by_cases hk : k' = k
    · subst hk
      rw [Function.update_self] at ht
      exact h.waiters k' t (hsub t ht)
    · rw [Function.update_of_ne hk] at ht
      exact h.waiters k' t ht
  · intro k'
    show (Function.update s.sema k S k').waiters.Nodup
    by_cases hk : k' = k
    · subst hk
      rw [Function.update_self]
      exact hnodup
    · rw [Function.update_of_ne hk]
      exact h.nodupWaiters k'

/-- The running thread continues elsewhere. -/
theorem goto (h : Lists s (some s.current)) {p : Pc} (hidle : s.pc s.current ≠ .idle)
    (hp : ∀ n, p.pending = some n →
      s.status n = .blocked ∧ s.pc n = .start ∧ s.parent n = s.current) :
    Lists (s.goto p) (some s.current) := by
  have hrun := (h.running s.current).mpr rfl
  have hne : ∀ t, s.status t = .blocked → t ≠ s.current := by
    rintro t ht rfl
    rw [hrun] at ht
    cases ht
  have hpc : ∀ t, t ≠ s.current → (s.goto p).pc t = s.pc t := fun t ht => Function.update_of_ne ht ..
  have hcur : (s.goto p).pc s.current = p := Function.update_self ..
  refine ⟨h.fault, h.running, h.ready, h.nodup, ?_, h.nodupWaiters, ?_, h.nodupSleepers, ?_, h.absent,
    ?_, h.idleStatus⟩
  · intro k' t ht
    obtain ⟨h1, h2⟩ := h.waiters k' t ht
    rw [hpc t (hne t h1)]
    exact ⟨h1, h2⟩
  · intro e he
    obtain ⟨h1, h2⟩ := h.sleepers e he
    rw [hpc e.2 (hne e.2 h1)]
    exact ⟨h1, h2⟩
  · intro t n hn
    have hold : s.status n = .blocked ∧ s.pc n = .start ∧ s.parent n = t := by
      by_cases ht : t = s.current
      · subst ht
        rw [hcur] at hn
        exact hp n hn
      · rw [hpc t ht] at hn
        exact h.pending t n hn
    obtain ⟨h1, h2, h3⟩ := hold
    rw [hpc n (hne n h1)]
    exact ⟨h1, h2, h3⟩
  · rw [hpc idleThread ?_]
    · exact h.idlePc
    · intro hc
      rw [← hc, h.idlePc] at hidle
      exact hidle rfl

/-- In the middle of a call, or at its end. -/
theorem goOn (h : Lists s (some s.current)) {p : Pc} (hidle : s.pc s.current ≠ .idle)
    (hp : ∀ n, p.pending = some n → (s.pc s.current).pending = some n) :
    Lists (s.goto p) (some s.current) :=
  h.goto hidle fun n hn => h.pending s.current n (hp n hn)

/-- In no wait list, and not being created. -/
structure Unlisted (s : St) (t : Nat) : Prop where
  waiters : ∀ k, t ∉ (s.sema k).waiters
  sleeping : t ∉ s.sleeping.map Prod.snd
  pending : ∀ u, (s.pc u).pending ≠ some t

/-- A thread that is not blocked is not. -/
theorem unlisted (h : Lists s r) (ht : s.status t ≠ .blocked) : Unlisted s t where
  waiters k hc := ht (h.waiters k t hc).1
  sleeping hc := by
    obtain ⟨e, he, rfl⟩ := List.mem_map.mp hc
    exact ht (h.sleepers e he).1
  pending u hc := ht (h.pending u t hc).1

/-- The idle thread is not. -/
theorem unlisted_idle (h : Lists s r) : Unlisted s idleThread where
  waiters k hc := by
    have := (h.waiters k idleThread hc).2
    rw [h.idlePc] at this
    cases this
  sleeping hc := by
    obtain ⟨e, he, heq⟩ := List.mem_map.mp hc
    have := (h.sleepers e he).2
    rw [heq, h.idlePc] at this
    cases this
  pending u hc := by
    have := (h.pending u idleThread hc).2.1
    rw [h.idlePc] at this
    cases this

/-- One thread changes its status, and the run queue with it. -/
theorem restatus {q : Option Nat} {x : Status} {l : List Nat} (h : Lists s r) (hout : Unlisted s t)
    (hlive : s.status t ≠ .absent) (hst : x ≠ .absent) (hidle : t = idleThread → x ≠ .dying)
    (hself : q = some t ↔ x = .running) (hothers : ∀ u, u ≠ t → (q = some u ↔ r = some u))
    (hmem : t ∈ l ↔ x = .ready ∧ t ≠ idleThread)
    (hmems : ∀ u, u ≠ t → (u ∈ l ↔ u ∈ s.readyList)) (hnodup : l.Nodup) :
    Lists { s.setStatus t x with readyList := l } q := by
  have hs : ∀ u, u ≠ t → Function.update s.status t x u = s.status u :=
    fun u hu => Function.update_of_ne hu ..
  have ht : Function.update s.status t x t = x := Function.update_self ..
  refine ⟨h.fault, ?_, ?_, hnodup, ?_, h.nodupWaiters, ?_, h.nodupSleepers, ?_, ?_, h.idlePc, ?_⟩
  · intro u
    show Function.update s.status t x u = .running ↔ q = some u
    by_cases hu : u = t
    · rw [hu, ht, hself]
    · rw [hs u hu, hothers u hu, h.running]
  · intro u
    show u ∈ l ↔ Function.update s.status t x u = .ready ∧ u ≠ idleThread
    by_cases hu : u = t
    · rw [hu, ht, hmem]
    · rw [hs u hu, hmems u hu, h.ready]
  · intro k u hu
    show Function.update s.status t x u = .blocked ∧ (s.pc u).waits = some k
    rw [hs u fun hc => hout.waiters k (hc ▸ hu)]
    exact h.waiters k u hu
  · intro e he
    show Function.update s.status t x e.2 = .blocked ∧ s.pc e.2 = .asleep
    rw [hs e.2 fun hc => hout.sleeping (hc ▸ List.mem_map_of_mem he)]
    exact h.sleepers e he
  · intro u n hn
    show Function.update s.status t x n = .blocked ∧ s.pc n = .start ∧ s.parent n = u
    rw [hs n fun hc => hout.pending u (hc ▸ hn)]
    exact h.pending u n hn
  · intro u hu
    have habs := h.absent u hu
    show Function.update s.status t x u = .absent
    rw [hs u fun hc => hlive (hc ▸ habs)]
    exact habs
  · show Function.update s.status t x idleThread ≠ .absent ∧
      Function.update s.status t x idleThread ≠ .dying
    by_cases hi : idleThread = t
    · rw [hi, ht]
      exact ⟨hst, hidle hi.symm⟩
    · rw [hs idleThread hi]
      exact h.idleStatus

theorem mem_snoc_iff {l : List Nat} {u : Nat} (hu : u ≠ t) : u ∈ l ++ [t] ↔ u ∈ l := by
  simp [hu]

/-- The end of the run queue gets a thread that is not in it. -/
theorem nodup_snoc (h : Lists s r) (ht : s.status t ≠ .ready) : (s.readyList ++ [t]).Nodup := by
  refine List.Nodup.append h.nodup (List.nodup_singleton t) ?_
  rw [List.disjoint_singleton, h.ready]
  exact fun hc => ht hc.1

/-- A blocked thread that is in no list becomes ready. -/
theorem threadUnblock (h : Lists s r) (hb : s.status t = .blocked) (hout : Unlisted s t)
    (hidle : t ≠ idleThread) : Lists (s.threadUnblock t) r := by
  unfold St.threadUnblock
  rw [if_pos hb]
  refine h.restatus hout (by rw [hb]; decide) (by decide) (fun _ => by decide) ?_ (fun _ _ => Iff.rfl) ?_
    (fun u hu => mem_snoc_iff hu) (h.nodup_snoc (by rw [hb]; decide))
  · rw [← h.running, hb]
    simp
  · simp [hidle]

/-- The running thread is switched away from. -/
theorem stop {x : Status} {l : List Nat} (h : Lists s (some s.current)) (hst : x ≠ .running)
    (habs : x ≠ .absent) (hidle : s.current = idleThread → x ≠ .dying)
    (hmem : s.current ∈ l ↔ x = .ready ∧ s.current ≠ idleThread)
    (hmems : ∀ u, u ≠ s.current → (u ∈ l ↔ u ∈ s.readyList)) (hnodup : l.Nodup) :
    Lists { s.setStatus s.current x with readyList := l } none := by
  have hrun := (h.running s.current).mpr rfl
  refine h.restatus (h.unlisted (by rw [hrun]; decide)) (by rw [hrun]; decide) habs hidle ?_ ?_ hmem
    hmems hnodup
  · simp [hst]
  · intro u hu
    simp [Ne.symm hu]

theorem block (h : Lists s (some s.current)) : Lists (s.setStatus s.current .blocked) none := by
  have hrun := (h.running s.current).mpr rfl
  refine (h.stop (x := .blocked) (l := s.readyList) (by decide) (by decide) (fun _ => by decide) ?_
    (fun _ _ => Iff.rfl) h.nodup).congr rfl rfl rfl rfl rfl rfl rfl rfl
  rw [h.ready, hrun]
  simp

/-- `schedule` switches to a ready thread, or to the idle thread. -/
theorem schedule (h : Lists s none) : Inv s.schedule := by
  have hn : s.status s.nextThreadToRun = .ready ∨ s.nextThreadToRun = idleThread := by
    unfold St.nextThreadToRun
    cases hmax : s.readyList.argmax s.books.effectivePriority with
    | none => exact .inr rfl
    | some t => exact .inl ((h.ready t).mp (List.argmax_mem hmax)).1
  unfold Inv St.schedule
  generalize s.nextThreadToRun = n at hn ⊢
  have hout : Unlisted s n := by
    rcases hn with hr | rfl
    · exact h.unlisted (by rw [hr]; decide)
    · exact h.unlisted_idle
  have hlive : s.status n ≠ .absent := by
    rcases hn with hr | rfl
    · rw [hr]
      decide
    · exact h.idleStatus.1
  refine (h.restatus (q := some n) (x := .running) (l := s.readyList.erase n) hout hlive (by decide)
    (fun _ => by decide) (by simp) (fun u hu => by simp [Ne.symm hu]) ?_
    (fun u hu => List.mem_erase_of_ne hu) (h.nodup.erase n)).congr rfl rfl rfl rfl rfl rfl rfl rfl
  simp [h.nodup.mem_erase_iff]

/-- `thread_yield`. -/
theorem threadYield (h : Inv s) : Inv s.threadYield := by
  have hrun := (h.running s.current).mpr rfl
  refine Lists.schedule (s := { s.setStatus s.current .ready with
    readyList := if s.current = idleThread then s.readyList else s.readyList ++ [s.current] }) ?_
  by_cases hi : s.current = idleThread
  · rw [if_pos hi]
    refine h.stop (by decide) (by decide) (fun _ => by decide) ?_ (fun _ _ => Iff.rfl) h.nodup
    rw [h.ready, hrun]
    simp [hi]
  · rw [if_neg hi]
    refine h.stop (by decide) (by decide) (fun _ => by decide) ?_ (fun u hu => mem_snoc_iff hu)
      (h.nodup_snoc (by rw [hrun]; decide))
    simp [hi]

theorem threadBlock (h : Inv s) : Inv s.threadBlock := h.block.schedule

/-- The dying thread is in no list, and never comes back. -/
theorem threadExit (h : Inv s) (hpc : s.pc s.current = .user) : Inv s.threadExit := by
  have hg : Lists (s.goto .exited) (some s.current) :=
    h.goOn (by rw [hpc]; decide) (fun n hn => by cases hn)
  have hrun := (h.running s.current).mpr rfl
  refine Lists.schedule (Lists.congr (Lists.stop (x := .dying) (l := s.readyList) hg (by decide)
    (by decide) ?_ ?_ (fun _ _ => Iff.rfl) h.nodup) rfl rfl rfl rfl rfl rfl rfl rfl)
  · intro hi
    replace hi : s.current = idleThread := hi
    rw [hi, h.idlePc] at hpc
    cases hpc
  · show s.current ∈ s.readyList ↔ _
    rw [h.ready, hrun]
    simp

/-! ## Semaphores -/

/-- A thread that has been blocked is put into the wait list of the semaphore it tests. -/
theorem join (h : Lists s r) (hb : s.status t = .blocked) (hpc : (s.pc t).waits = some k)
    (hnot : t ∉ (s.sema k).waiters) : Lists (s.setSema k ((s.sema k).wait t)) r := by
  refine ⟨h.fault, h.running, h.ready, h.nodup, ?_, ?_, h.sleepers, h.nodupSleepers, h.pending,
    h.absent, h.idlePc, h.idleStatus⟩
  · intro k' u hu
    replace hu : u ∈ (Function.update s.sema k ((s.sema k).wait t) k').waiters := hu
    show s.status u = .blocked ∧ (s.pc u).waits = some k'
    by_cases hk : k' = k
    · subst hk
      rw [Function.update_self] at hu
      rcases List.mem_append.mp hu with hold | hnew
      · exact h.waiters k' u hold
      · rw [List.mem_singleton.mp hnew]
        exact ⟨hb, hpc⟩
    · rw [Function.update_of_ne hk] at hu
      exact h.waiters k' u hu
  · intro k'
    show (Function.update s.sema k ((s.sema k).wait t) k').waiters.Nodup
    by_cases hk : k' = k
    · subst hk
      rw [Function.update_self]
      refine List.Nodup.append (h.nodupWaiters k') (List.nodup_singleton t) ?_
      rw [List.disjoint_singleton]
      exact hnot
    · rw [Function.update_of_ne hk]
      exact h.nodupWaiters k'

/-- The loop of `sema_down`, once: the caller takes a unit and goes
on, or joins the waiters and blocks. -/
theorem semaDown {here after : Pc} (h : Inv s) (hidle : s.pc s.current ≠ .idle)
    (hwaits : here.waits = some k)
    (hhere : ∀ n, here.pending = some n → (s.pc s.current).pending = some n)
    (hafter : ∀ n, after.pending = some n → (s.pc s.current).pending = some n) :
    Inv (s.semaDown k here after) := by
  unfold St.semaDown Sema.tryDown
  split
  · next S hS =>
    split at hS
    · cases hS
      have hset : Inv (s.setSema k { s.sema k with value := (s.sema k).value - 1 }) :=
        Lists.setSema h (fun _ ht => ht) (h.nodupWaiters k)
      exact Lists.goOn hset hidle hafter
    · cases hS
  · have hrun := (h.running s.current).mpr rfl
    have hnot : s.current ∉ (s.sema k).waiters := (h.unlisted (by rw [hrun]; decide)).waiters k
    have hg : Lists (s.goto here) (some s.current) := h.goOn hidle hhere
    have hpc : (s.goto here).pc s.current = here := Function.update_self ..
    have hjoin := (Lists.block (s := s.goto here) hg).join (t := s.current) (k := k)
      (Function.update_self ..) ((congrArg Pc.waits hpc).trans hwaits) hnot
    exact Lists.schedule (hjoin.congr rfl rfl rfl rfl rfl rfl rfl rfl)

theorem current_threadUnblock (s : St) (t : Nat) : (s.threadUnblock t).current = s.current := by
  unfold St.threadUnblock
  split <;> rfl

/-- `sema_up` takes a thread off one wait list, and it was in no other. -/
theorem wakeFirst (h : Inv s) : Lists (s.wakeFirst k) (some s.current) := by
  unfold St.wakeFirst
  split
  · next w hw =>
    have hmem := Sema.first_mem hw
    obtain ⟨hb, hpc⟩ := h.waiters k w hmem
    have hset : Lists (s.setSema k ((s.sema k).up (some w))) (some s.current) :=
      h.setSema (fun u hu => List.mem_of_mem_erase hu) ((h.nodupWaiters k).erase w)
    refine hset.threadUnblock hb ⟨?_, ?_, ?_⟩ ?_
    · intro k' hc
      replace hc : w ∈ (Function.update s.sema k ((s.sema k).up (some w)) k').waiters := hc
      by_cases hk : k' = k
      · subst hk
        rw [Function.update_self] at hc
        exact ((h.nodupWaiters k').mem_erase_iff.mp hc).1 rfl
      · rw [Function.update_of_ne hk] at hc
        have hother := (h.waiters k' w hc).2
        rw [hpc] at hother
        exact hk (Option.some.inj hother).symm
    · intro hc
      obtain ⟨e, he, heq⟩ := List.mem_map.mp hc
      have has := (h.sleepers e he).2
      rw [heq] at has
      rw [has] at hpc
      cases hpc
    · intro u hc
      have hst := (h.pending u w hc).2.1
      rw [hst] at hpc
      cases hpc
    · rintro rfl
      rw [h.idlePc] at hpc
      cases hpc
  · exact h.setSema (fun _ ht => ht) (h.nodupWaiters k)

theorem current_wakeFirst (s : St) (k : SemaId) : (s.wakeFirst k).current = s.current := by
  unfold St.wakeFirst
  split
  · exact current_threadUnblock _ _
  · rfl

theorem pc_threadUnblock (s : St) (t : Nat) : (s.threadUnblock t).pc = s.pc := by
  unfold St.threadUnblock
  split <;> rfl

theorem pc_wakeFirst (s : St) (k : SemaId) : (s.wakeFirst k).pc = s.pc := by
  unfold St.wakeFirst
  split
  · exact pc_threadUnblock _ _
  · rfl

theorem semaUp {c : Option Nat} (h : Inv s) (hidle : s.pc s.current ≠ .idle)
    (hc : ∀ n, c = some n → (s.pc s.current).pending = some n) : Inv (s.semaUp k c) := by
  have hw : Inv (s.wakeFirst k) := by
    unfold Inv
    rw [current_wakeFirst]
    exact wakeFirst h
  refine Lists.threadYield (s := (s.wakeFirst k).goto (.returning c)) ?_
  refine Lists.goOn hw ?_ fun n hn => ?_
  · rw [current_wakeFirst, pc_wakeFirst]
    exact hidle
  · rw [current_wakeFirst, pc_wakeFirst]
    exact hc n hn

/-! ## Locks -/

theorem lockAcquire {l : Nat} {c : Option Nat} {s' : St} (h : Inv s) (hidle : s.pc s.current ≠ .idle)
    (hc : ∀ n, c = some n → s.status n = .blocked ∧ s.pc n = .start ∧ s.parent n = s.current)
    (hstep : s.lockAcquire l c = some s') : Inv s' := by
  unfold St.lockAcquire at hstep
  split at hstep
  · cases hstep
  · obtain ⟨B, -, rfl⟩ := Option.map_eq_some_iff.mp hstep
    exact Lists.goto (s := s.setBooks B) (Lists.setBooks h B) hidle hc

theorem unlock {l : Nat} {c : Option Nat} (h : Inv s) (hidle : s.pc s.current ≠ .idle)
    (hc : ∀ n, c = some n → (s.pc s.current).pending = some n) : Inv (s.unlock l c) :=
  semaUp (s := s.setBooks _) (Lists.setBooks h _) hidle hc

/-- `lock_release` changes the books of donation first, and a thread with other locks yields before it
gives this one back. -/
theorem lockRelease {l : Nat} {c : Option Nat} {s' : St} (h : Inv s) (hidle : s.pc s.current ≠ .idle)
    (hc : ∀ n, c = some n → (s.pc s.current).pending = some n)
    (hstep : s.lockRelease l c = some s') : Inv s' := by
  unfold St.lockRelease at hstep
  split at hstep
  · have hB : Inv (s.setBooks (s.books.removeLock s.current l)) := Lists.setBooks h _
    simp only at hstep
    split at hstep
    · cases hstep
      exact unlock hB hidle hc
    · cases hstep
      exact threadYield (s := (s.setBooks _).goto _) (Lists.goOn hB hidle hc)
  · cases hstep

/-! ## `thread_create` and the timer -/

/-- The new thread is blocked, in no list, and known to its creator only, which goes on to the lock of
`allocate_tid`. -/
theorem threadCreate {p : Int} {s' : St} (h : Inv s) (hpc : s.pc s.current = .user)
    (hstep : s.threadCreate p = some s') : Inv s' := by
  have habs := h.absent s.next (Nat.le_refl _)
  have hrun := (h.running s.current).mpr rfl
  have hcur : s.current ≠ s.next := by
    intro hc
    rw [hc, habs] at hrun
    cases hrun
  have hst : ∀ t, t ≠ s.next → Function.update s.status s.next .blocked t = s.status t :=
    fun t ht => Function.update_of_ne ht ..
  have hpcs : ∀ t, t ≠ s.next → Function.update s.pc s.next .start t = s.pc t :=
    fun t ht => Function.update_of_ne ht ..
  have hold : ∀ t, s.status t ≠ .absent → t ≠ s.next := by
    rintro t ht rfl
    exact ht habs
  unfold St.threadCreate at hstep
  split at hstep
  · refine lockAcquire ?_ ?_ ?_ hstep
    · -- the new thread is in no list
      refine ⟨h.fault, ?_, ?_, h.nodup, ?_, h.nodupWaiters, ?_, h.nodupSleepers, ?_, ?_, ?_, ?_⟩
      · intro t
        show Function.update s.status s.next .blocked t = .running ↔ some s.current = some t
        by_cases ht : t = s.next
        · subst ht
          simp [hcur]
        · rw [hst t ht]
          exact h.running t
      · intro t
        show t ∈ s.readyList ↔ Function.update s.status s.next .blocked t = .ready ∧ t ≠ idleThread
        by_cases ht : t = s.next
        · subst ht
          rw [h.ready, habs]
          simp
        · rw [hst t ht]
          exact h.ready t
      · intro k t ht
        obtain ⟨h1, h2⟩ := h.waiters k t ht
        have hne := hold t (by rw [h1]; decide)
        show Function.update s.status s.next .blocked t = .blocked ∧
          (Function.update s.pc s.next .start t).waits = some k
        rw [hst t hne, hpcs t hne]
        exact ⟨h1, h2⟩
      · intro e he
        obtain ⟨h1, h2⟩ := h.sleepers e he
        have hne := hold e.2 (by rw [h1]; decide)
        show Function.update s.status s.next .blocked e.2 = .blocked ∧
          Function.update s.pc s.next .start e.2 = .asleep
        rw [hst e.2 hne, hpcs e.2 hne]
        exact ⟨h1, h2⟩
      · intro t n hn
        replace hn : (Function.update s.pc s.next .start t).pending = some n := hn
        by_cases ht : t = s.next
        · rw [ht, Function.update_self] at hn
          cases hn
        · rw [hpcs t ht] at hn
          obtain ⟨h1, h2, h3⟩ := h.pending t n hn
          have hne := hold n (by rw [h1]; decide)
          show Function.update s.status s.next .blocked n = .blocked ∧
            Function.update s.pc s.next .start n = .start ∧
              Function.update s.parent s.next s.current n = t
          rw [hst n hne, hpcs n hne, Function.update_of_ne hne]
          exact ⟨h1, h2, h3⟩
      · intro t ht
        replace ht : s.next + 1 ≤ t := ht
        show Function.update s.status s.next .blocked t = .absent
        rw [hst t (Nat.ne_of_gt ht)]
        exact h.absent t (Nat.le_of_succ_le ht)
      · show Function.update s.pc s.next .start idleThread = .idle
        rw [hpcs idleThread (hold idleThread h.idleStatus.1)]
        exact h.idlePc
      · show Function.update s.status s.next .blocked idleThread ≠ .absent ∧
          Function.update s.status s.next .blocked idleThread ≠ .dying
        rw [hst idleThread (hold idleThread h.idleStatus.1)]
        exact h.idleStatus
    · show Function.update s.pc s.next .start s.current ≠ .idle
      rw [hpcs s.current hcur, hpc]
      decide
    · rintro n ⟨⟩
      exact ⟨Function.update_self .., Function.update_self .., Function.update_self ..⟩
  · cases hstep

/-- The creator unblocks the new thread. -/
theorem unblockNew {n : Nat} (h : Inv s) (hpc : s.pc s.current = .unblockNew n) :
    Inv ((s.threadUnblock n).goto (.maybeYield n)) := by
  have hpend : (s.pc s.current).pending = some n := by rw [hpc]; rfl
  obtain ⟨hb, hstart, hparent⟩ := h.pending s.current n hpend
  have hidle : s.pc s.current ≠ .idle := by rw [hpc]; simp
  -- first the creator moves on: then nobody creates the thread any more
  have hg : Lists (s.goto (.maybeYield n)) (some s.current) := h.goOn hidle fun m hm => by cases hm
  have hn : n ≠ s.current := by
    rintro rfl
    rw [(h.running s.current).mpr rfl] at hb
    cases hb
  have hout : Unlisted (s.goto (.maybeYield n)) n := by
    refine ⟨fun k hc => ?_, fun hc => ?_, fun u hc => ?_⟩
    · have := (h.waiters k n hc).2
      rw [hstart] at this
      cases this
    · obtain ⟨e, he, heq⟩ := List.mem_map.mp hc
      have := (h.sleepers e he).2
      rw [heq, hstart] at this
      cases this
    · replace hc : (Function.update s.pc s.current (.maybeYield n) u).pending = some n := hc
      by_cases hu : u = s.current
      · rw [hu, Function.update_self] at hc
        cases hc
      · rw [Function.update_of_ne hu] at hc
        exact hu ((h.pending u n hc).2.2.symm.trans hparent)
  have hni : n ≠ idleThread := by
    rintro rfl
    rw [h.idlePc] at hstart
    cases hstart
  have hun := hg.threadUnblock hb hout hni
  have hsame : (s.goto (.maybeYield n)).threadUnblock n = (s.threadUnblock n).goto (.maybeYield n) := by
    have hb' : (s.goto (.maybeYield n)).status n = .blocked := hb
    unfold St.threadUnblock
    rw [if_pos hb, if_pos hb']
    rfl
  unfold Inv
  rw [← hsame, current_threadUnblock]
  exact hun

theorem insertSleeper_perm (x : Int × Nat) (l : List (Int × Nat)) :
    (St.insertSleeper x l).Perm (x :: l) := by
  induction l with
  | nil => exact .refl _
  | cons e rest ih =>
      simp only [St.insertSleeper]
      split
      · exact .refl _
      · exact (ih.cons e).trans (.swap x e rest)

/-- The caller goes into the sleep list, sorted by its time, and blocks. -/
theorem timerSleep {n : Int} (h : Inv s) (hpc : s.pc s.current = .user) : Inv (s.timerSleep n) := by
  have hrun := (h.running s.current).mpr rfl
  have hout := h.unlisted (t := s.current) (by rw [hrun]; decide)
  have hg : Lists (s.goto .asleep) (some s.current) :=
    h.goOn (by rw [hpc]; decide) (fun m hm => by cases hm)
  have hb := Lists.block (s := s.goto .asleep) hg
  have hperm := insertSleeper_perm (s.ticks + n, s.current) s.sleeping
  refine Lists.schedule (s := _) ?_
  refine ⟨hb.fault, hb.running, hb.ready, hb.nodup, hb.waiters, hb.nodupWaiters, ?_, ?_, hb.pending,
    hb.absent, hb.idlePc, hb.idleStatus⟩
  · intro e he
    rcases List.mem_cons.mp (hperm.mem_iff.mp he) with rfl | hold
    · exact ⟨Function.update_self .., Function.update_self ..⟩
    · exact hb.sleepers e hold
  · refine (hperm.map Prod.snd).nodup_iff.mpr (List.nodup_cons.mpr ⟨?_, h.nodupSleepers⟩)
    exact hout.sleeping

theorem current_wakeSleepers (s : St) (l : List (Int × Nat)) :
    (s.wakeSleepers l).current = s.current := by
  induction l generalizing s with
  | nil => rfl
  | cons e rest ih =>
      unfold St.wakeSleepers
      split
      · rw [ih, current_threadUnblock]
      · rfl

/-- The loop of `timer_interrupt` over the entries that are left. -/
theorem wakeSleepers {l : List (Int × Nat)} (h : Lists { s with sleeping := l } r) :
    Lists (s.wakeSleepers l) r := by
  induction l generalizing s with
  | nil => exact h
  | cons e rest ih =>
      unfold St.wakeSleepers
      split
      · obtain ⟨hb, hpc⟩ := h.sleepers e List.mem_cons_self
        replace hb : s.status e.2 = .blocked := hb
        replace hpc : s.pc e.2 = .asleep := hpc
        obtain ⟨hnot, hnodup⟩ := List.nodup_cons.mp h.nodupSleepers
        have hrest : Lists { s with sleeping := rest } r :=
          ⟨h.fault, h.running, h.ready, h.nodup, h.waiters, h.nodupWaiters,
            fun e' he' => h.sleepers e' (List.mem_cons_of_mem e he'), hnodup, h.pending, h.absent,
            h.idlePc, h.idleStatus⟩
        have hout : Unlisted { s with sleeping := rest } e.2 := by
          refine ⟨fun k hc => ?_, hnot, fun u hc => ?_⟩
          · have hw : (s.pc e.2).waits = some k := (h.waiters k e.2 hc).2
            rw [hpc] at hw
            cases hw
          · have hst : s.pc e.2 = .start := (h.pending u e.2 hc).2.1
            rw [hpc] at hst
            cases hst
        have hni : e.2 ≠ idleThread := by
          intro hc
          have hi : s.pc idleThread = .idle := h.idlePc
          rw [← hc, hpc] at hi
          cases hi
        have hun := hrest.threadUnblock hb hout hni
        refine ih ?_
        have hsame : ({ s with sleeping := rest } : St).threadUnblock e.2
            = { s.threadUnblock e.2 with sleeping := rest } := by
          have hb' : ({ s with sleeping := rest } : St).status e.2 = .blocked := hb
          unfold St.threadUnblock
          rw [if_pos hb, if_pos hb']
          rfl
        rw [← hsame]
        exact hun
      · exact h

/-- The sleepers whose time has come are unblocked; at the
end of its time slice the running thread yields. -/
theorem timerInterrupt (h : Inv s) : Inv s.timerInterrupt := by
  have hw : Inv (St.wakeSleepers
      { s with ticks := s.ticks + 1, threadTicks := s.threadTicks + 1 } s.sleeping) := by
    unfold Inv
    rw [current_wakeSleepers]
    exact wakeSleepers (h.congr rfl rfl rfl rfl rfl rfl rfl rfl)
  unfold St.timerInterrupt
  simp only
  split
  · exact threadYield hw
  · exact hw

end Lists

/-! ## Steps and runs -/

/-- A thread that is not in a call makes one. -/
theorem Inv.call {c : Call} {s' : St} (h : Inv s) (hpc : s.pc s.current = .user)
    (hstep : s.call c = some s') : Inv s' := by
  have hidle : s.pc s.current ≠ .idle := by rw [hpc]; decide
  cases c with
  | create p => exact Lists.threadCreate h hpc hstep
  | yield =>
      cases hstep
      exact Lists.threadYield (Lists.goOn h hidle fun n hn => by cases hn)
  | semaDown k =>
      cases hstep
      exact Lists.semaDown h hidle rfl (fun n hn => by cases hn) (fun n hn => by cases hn)
  | semaUp k =>
      cases hstep
      exact Lists.semaUp h hidle fun n hn => by cases hn
  | lockAcquire l =>
      simp only [St.call] at hstep
      split at hstep
      · cases hstep
      · exact Lists.lockAcquire h hidle (fun n hn => by cases hn) hstep
  | lockRelease l =>
      simp only [St.call] at hstep
      split at hstep
      · cases hstep
      · exact Lists.lockRelease h hidle (fun n hn => by cases hn) hstep
  | setPriority p =>
      cases hstep
      have hB : Inv (s.setBooks (s.books.threadSetPriority s.current p)) := Lists.setBooks h _
      unfold St.threadSetPriority
      simp only
      split
      · exact Lists.threadYield (Lists.goOn hB hidle fun n hn => by cases hn)
      · exact hB
  | sleep n =>
      cases hstep
      exact Lists.timerSleep h hpc
  | exit =>
      cases hstep
      exact Lists.threadExit h hpc

/-- A thread that is in a call goes on, from whatever place it has come to. -/
theorem Inv.go {s' : St} (h : Inv s) (hstep : s.go = some s') : Inv s' := by
  unfold St.go at hstep
  cases hpc : s.pc s.current with
  | user | exited =>
      rw [hpc] at hstep
      cases hstep
  | start | asleep =>
      rw [hpc] at hstep
      cases hstep
      exact Lists.goOn h (by rw [hpc]; decide) fun n hn => by cases hn
  | idle =>
      rw [hpc] at hstep
      cases hstep
      exact Lists.threadBlock h
  | semaDown k =>
      rw [hpc] at hstep
      cases hstep
      exact Lists.semaDown h (by rw [hpc]; simp) rfl (fun n hn => by cases hn) (fun n hn => by cases hn)
  | lockRequested l c | lockDown l c =>
      rw [hpc] at hstep
      cases hstep
      exact Lists.semaDown h (by rw [hpc]; simp) rfl (fun n hn => by rw [hpc]; exact hn)
        (fun n hn => by rw [hpc]; exact hn)
  | lockAcquired l c =>
      rw [hpc] at hstep
      cases hstep
      have hB : Inv (s.setBooks (s.books.acquired s.current l)) := Lists.setBooks h _
      refine Lists.goOn hB (by show s.pc s.current ≠ _; rw [hpc]; simp) fun n hn => ?_
      show (s.pc s.current).pending = some n
      rw [hpc]
      cases c with
      | none => cases hn
      | some m => exact hn
  | tidRelease n =>
      rw [hpc] at hstep
      exact Lists.lockRelease h (by rw [hpc]; simp) (fun m hm => by rw [hpc]; exact hm) hstep
  | unlock l c =>
      rw [hpc] at hstep
      cases hstep
      exact Lists.unlock h (by rw [hpc]; simp) fun m hm => by rw [hpc]; exact hm
  | returning c =>
      rw [hpc] at hstep
      cases c with
      | none =>
          cases hstep
          exact Lists.goOn h (by rw [hpc]; simp) fun n hn => by cases hn
      | some n =>
          cases hstep
          exact Lists.goOn h (by rw [hpc]; simp) fun m hm => by rw [hpc]; exact hm
  | unblockNew n =>
      rw [hpc] at hstep
      cases hstep
      exact Lists.unblockNew h hpc
  | maybeYield n =>
      rw [hpc] at hstep
      have hg : ∀ p : Pc, p.pending = none → Inv (s.goto p) := fun p hp =>
        Lists.goOn h (by rw [hpc]; simp) fun m hm => by rw [hp] at hm; cases hm
      simp only at hstep
      split at hstep
      · cases hstep
        exact Lists.threadYield (hg _ rfl)
      · cases hstep
        exact hg _ rfl

theorem Inv.step {a : Act} {s' : St} (h : Inv s) (hstep : step s a = some s') : Inv s' := by
  cases a with
  | call c =>
      simp only [Sched.step] at hstep
      split at hstep
      · next hpc => exact h.call hpc hstep
      · cases hstep
  | go => exact h.go hstep
  | tick =>
      simp only [Sched.step] at hstep
      split at hstep
      · cases hstep
        exact Lists.timerInterrupt h
      · cases hstep

/-- The main thread runs, and no thread is in a list. -/
theorem Inv.init (values : Nat → UInt32) : Inv (St.init values) := by
  have hmain : ∀ t, (St.init values).status t = .running ↔ t = mainThread := by
    intro t
    by_cases hm : t = mainThread
    · simp [St.init, hm]
    · by_cases hi : t = idleThread <;> simp [St.init, hm, hi]
  have hwait : ∀ k, ((St.init values).sema k).waiters = [] := by
    intro k
    cases k <;> rfl
  refine ⟨rfl, ?_, ?_, List.nodup_nil, ?_, ?_, ?_, List.nodup_nil, ?_, ?_, rfl,
    ⟨fun hc => by (cases hc), fun hc => by (cases hc)⟩⟩
  · intro t
    rw [hmain]
    constructor
    · rintro rfl
      rfl
    · intro hc
      exact (Option.some.inj hc).symm
  · intro t
    constructor
    · intro hc
      cases hc
    · rintro ⟨hr, hi⟩
      by_cases hm : t = mainThread <;> simp [St.init, hm, hi] at hr
  · intro k t ht
    rw [hwait k] at ht
    cases ht
  · intro k
    rw [hwait k]
    exact List.nodup_nil
  · intro e he
    cases he
  · intro t n hn
    by_cases hi : t = idleThread <;> simp [St.init, hi, Pc.pending] at hn
  · intro t ht
    replace ht : 3 ≤ t := ht
    have hm : t ≠ mainThread := fun hc => absurd (hc ▸ ht) (by decide)
    have hi : t ≠ idleThread := fun hc => absurd (hc ▸ ht) (by decide)
    simp [St.init, hm, hi]

def Step (s s' : St) : Prop := ∃ a, step s a = some s'

theorem Inv.of_run {values : Nat → UInt32} {s : St}
    (hrun : Relation.ReflTransGen Step (St.init values) s) : Inv s :=
  Threads.invariant_of_step hrun (Inv.init values) fun _ _ h ⟨_, hstep⟩ => h.step hstep

/-- Its `elem` is in no wait list, and no sleeper is this thread. -/
def Unlinked (s : St) (t : Nat) : Prop :=
  (∀ k, t ∉ (s.sema k).waiters) ∧ t ∉ s.sleeping.map Prod.snd

/-- The status of every thread and the lists agree. -/
structure Agrees (s : St) : Prop where
  one : ∃ t, s.status t = .running ∧ ∀ u, s.status u = .running → u = t
  running : ∀ t, t ≠ idleThread → s.status t = .running ∨ s.status t = .dying →
    t ∉ s.readyList ∧ Unlinked s t
  ready : ∀ t, t ≠ idleThread → s.status t = .ready → s.readyList.count t = 1 ∧ Unlinked s t
  blocked : ∀ t, t ≠ idleThread → s.status t = .blocked → t ∉ s.readyList ∧
    (Unlinked s t ∨
      (∃ k, (s.sema k).waiters.count t = 1 ∧ (∀ k', k' ≠ k → t ∉ (s.sema k').waiters) ∧
        t ∉ s.sleeping.map Prod.snd) ∨
      ((∀ k, t ∉ (s.sema k).waiters) ∧ (s.sleeping.map Prod.snd).count t = 1))
  /-- no assertion of `thread_unblock` has failed -/
  unblock : s.fault = false

/-- What the invariant says of the places of the threads is here said of their status. -/
theorem Inv.agrees (h : Inv s) : Agrees s := by
  have hout : ∀ t, s.status t ≠ .blocked → Unlinked s t := fun t ht =>
    ⟨(Lists.unlisted h ht).waiters, (Lists.unlisted h ht).sleeping⟩
  refine ⟨⟨s.current, (h.running s.current).mpr rfl, fun u hu => ?_⟩, ?_, ?_, ?_, h.fault⟩
  · exact (Option.some.inj ((h.running u).mp hu)).symm
  · intro t hi ht
    refine ⟨fun hc => ?_, hout t ?_⟩
    · have hr := ((h.ready t).mp hc).1
      rcases ht with ht | ht <;> rw [ht] at hr <;> cases hr
    · rcases ht with ht | ht <;> rw [ht] <;> decide
  · intro t hi ht
    exact ⟨List.count_eq_one_of_mem h.nodup ((h.ready t).mpr ⟨ht, hi⟩), hout t (by rw [ht]; decide)⟩
  · intro t hi ht
    refine ⟨fun hc => ?_, ?_⟩
    · have hr := ((h.ready t).mp hc).1
      rw [ht] at hr
      cases hr
    · by_cases hw : ∃ k, t ∈ (s.sema k).waiters
      · obtain ⟨k, hk⟩ := hw
        have hpc := (h.waiters k t hk).2
        refine .inr (.inl ⟨k, List.count_eq_one_of_mem (h.nodupWaiters k) hk, ?_, ?_⟩)
        · intro k' hne hk'
          have hpc' := (h.waiters k' t hk').2
          rw [hpc] at hpc'
          exact hne (Option.some.inj hpc').symm
        · intro hs
          obtain ⟨e, he, rfl⟩ := List.mem_map.mp hs
          rw [(h.sleepers e he).2] at hpc
          cases hpc
      · have hno : ∀ k, t ∉ (s.sema k).waiters := fun k hk => hw ⟨k, hk⟩
        by_cases hs : t ∈ s.sleeping.map Prod.snd
        · exact .inr (.inr ⟨hno, List.count_eq_one_of_mem h.nodupSleepers hs⟩)
        · exact .inl ⟨hno, hs⟩

/-- In every state of every run, with interrupts at any moment, a thread is in the list that its status
says, once, and in no other. -/
theorem lists_agree (values : Nat → UInt32) {s : St}
    (hrun : Relation.ReflTransGen Step (St.init values) s) : Agrees s := (Inv.of_run hrun).agrees

/-- The steps of a list, one after the other, if all are possible. -/
def runs (s : St) : List Act → Option St
  | [] => some s
  | a :: rest => (step s a).bind fun s' => runs s' rest

theorem steps_of_runs {R : St → St → Prop} {as : List Act} {s s' : St}
    (hR : ∀ a ∈ as, ∀ s s', step s a = some s' → R s s') (h : runs s as = some s') :
    Relation.ReflTransGen R s s' := by
  induction as generalizing s with
  | nil =>
      cases h
      exact .refl
  | cons a rest ih =>
      obtain ⟨s₁, h₁, h₂⟩ := Option.bind_eq_some_iff.mp h
      exact .head (hR a List.mem_cons_self s s₁ h₁)
        (ih (fun b hb => hR b (List.mem_cons_of_mem _ hb)) h₂)

theorem step_of_runs {as : List Act} {s s' : St} (h : runs s as = some s') :
    Relation.ReflTransGen Step s s' :=
  steps_of_runs (fun a _ _ _ hstep => ⟨a, hstep⟩) h

/-- A thread of priority 40 is created, runs at once, and goes to sleep. -/
def createAndSleep : List Act :=
  [.call (.create 40), .go, .go, .go, .go, .go, .go, .go, .call (.sleep 1), .go]

theorem lists_agree_sleeper : ∃ s, Relation.ReflTransGen Step (St.init fun _ => 0) s ∧
    s.status 3 = .blocked ∧ s.sleeping = [(1, 3)] ∧ s.current = mainThread ∧ Agrees s := by
  obtain ⟨s, hs, h1, h2, h3⟩ : ∃ s, runs (St.init fun _ => 0) createAndSleep = some s ∧
      s.status 3 = .blocked ∧ s.sleeping = [(1, 3)] ∧ s.current = mainThread :=
    ⟨_, rfl, rfl, rfl, rfl⟩
  exact ⟨s, step_of_runs hs, h1, h2, h3, lists_agree (fun _ => 0) (step_of_runs hs)⟩

end Sched

end CS162.Kernel
