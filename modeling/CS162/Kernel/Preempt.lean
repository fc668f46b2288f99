/-
# `CS162.Kernel.Preempt` — the running thread outranks the run queue

`Top s`: no thread in the run queue has a higher effective priority than the running
one.  Whatever ends in `schedule` establishes it (`schedule_top`).  The other functions
keep it: donation raises others to the running thread's priority and no higher, and
`thread_create` yields to a new thread that outranks it, though interrupts are on
between the two.

The timer interrupt does not.  It makes sleepers ready, and the running thread goes on
unless its time slice is over.  `Meets` is the condition on an interrupt under which
that is right.
-/
import CS162.Kernel.Lists

namespace CS162.Kernel

namespace Sched

def Top (s : St) : Prop := ∀ t ∈ s.readyList, s.eff t ≤ s.eff s.current

/-- Between `thread_unblock` and the comparison in `thread_create`, the new thread apart. -/
def Front (s : St) : Prop :=
  Top s ∨ ∃ n, s.pc s.current = .maybeYield n ∧
    ∀ t ∈ s.readyList, t ≠ n → s.eff t ≤ s.eff s.current

/-- The running thread is not inside a call. -/
def Returned (s : St) : Prop := s.pc s.current = .user ∨ s.pc s.current = .idle

/-- A timer interrupt that does not end the time slice comes when neither a thread in the
run queue nor a sleeper whose time has come outranks the running thread. -/
def Meets (s : St) : Act → Prop
  | .call _ | .go => True
  | .tick => s.sliceEnds = true ∨
      Top s ∧ ∀ e ∈ s.sleeping, e.1 ≤ s.ticks + 1 → s.eff e.2 ≤ s.eff s.current

variable {s s' : St} {t : Nat}

theorem Front.top (h : Front s) (hpc : ∀ n, s.pc s.current ≠ .maybeYield n) : Top s := by
  rcases h with h | ⟨n, hn, -⟩
  · exact h
  · exact absurd hn (hpc n)

/-! ## What ends in `schedule` -/

theorem schedule_top (s : St) : Top s.schedule := by
  intro t ht
  have ht : t ∈ s.readyList.erase s.nextThreadToRun := ht
  have hmem := List.mem_of_mem_erase ht
  show s.eff t ≤ s.eff s.nextThreadToRun
  unfold St.nextThreadToRun
  cases hmax : s.readyList.argmax s.books.effectivePriority with
  | none =>
      rw [List.argmax_eq_none.mp hmax] at hmem
      cases hmem
  | some n => exact List.le_of_mem_argmax hmem hmax

theorem threadYield_top (s : St) : Top s.threadYield := schedule_top _

theorem threadBlock_top (s : St) : Top s.threadBlock := schedule_top _

theorem semaUp_top (s : St) (k : SemaId) (c : Option Nat) : Top (s.semaUp k c) := threadYield_top _

theorem lockRelease_top {l : Nat} {c : Option Nat} (h : s.lockRelease l c = some s') : Top s' := by
  unfold St.lockRelease at h
  split at h
  · simp only at h
    split at h
    · cases h
      exact semaUp_top _ _ _
    · cases h
      exact threadYield_top _
  · cases h

/-! ## What goes on -/

theorem semaDown_top {k : SemaId} {here after : Pc} (h : Top s) : Top (s.semaDown k here after) := by
  unfold St.semaDown
  split
  · exact h
  · exact threadBlock_top _

/-- Donation raises nobody above the donor. -/
theorem request_le {B B' : Books} {fuel l : Nat} (h : B.request fuel t l = some B') :
    (∀ x, B'.effectivePriority x ≤ max (B.effectivePriority t) (B.effectivePriority x)) ∧
      B.effectivePriority t ≤ B'.effectivePriority t := by
  unfold Books.request at h
  split at h
  · cases h
    exact ⟨fun x => le_max_right _ _, le_refl _⟩
  · have hr := Books.propagateBroadcast_raised h
    refine ⟨fun x => ?_, ?_⟩
    · by_cases hx : Relation.ReflTransGen (B.setWaiting t (some l)).Donates t x
      · exact (hr.reached x hx).le
      · rw [hr.others x hx]
        exact le_max_right _ _
    · rw [hr.reached t .refl]
      exact le_max_left _ _

theorem lockAcquire_top {l : Nat} {c : Option Nat} (h : Top s) (hstep : s.lockAcquire l c = some s') :
    Top s' := by
  unfold St.lockAcquire at hstep
  split at hstep
  · cases hstep
  · obtain ⟨B, hB, rfl⟩ := Option.map_eq_some_iff.mp hstep
    obtain ⟨hle, hcur⟩ := request_le hB
    intro t ht
    calc B.effectivePriority t ≤ max (s.books.effectivePriority s.current)
          (s.books.effectivePriority t) := hle t
      _ ≤ s.books.effectivePriority s.current := max_le (le_refl _) (h t ht)
      _ ≤ B.effectivePriority s.current := hcur

/-- The new thread is not in the run queue yet. -/
theorem threadCreate_top {p : Int} (hInv : Inv s) (h : Top s) (hstep : s.threadCreate p = some s') :
    Top s' := by
  have habs := hInv.absent s.next (Nat.le_refl _)
  have hcur : s.current ≠ s.next := by
    intro hc
    have hrun := (hInv.running s.current).mpr rfl
    rw [hc, habs] at hrun
    cases hrun
  unfold St.threadCreate at hstep
  split at hstep
  · refine lockAcquire_top ?_ hstep
    intro t ht
    replace ht : t ∈ s.readyList := ht
    have htn : t ≠ s.next := by
      rintro rfl
      have hr := ((hInv.ready s.next).mp ht).1
      rw [habs] at hr
      cases hr
    show Function.update s.books.effectivePriority s.next p t
      ≤ Function.update s.books.effectivePriority s.next p s.current
    rw [Function.update_of_ne htn, Function.update_of_ne hcur]
    exact h t ht
  · cases hstep

/-- A thread that lowers its priority yields if it is outranked then. -/
theorem threadSetPriority_top {p : Int} (h : Top s) : Top (s.threadSetPriority p) := by
  unfold St.threadSetPriority
  simp only
  split
  · exact threadYield_top _
  · next hset =>
    intro t ht
    have heff :
        (s.books.threadSetPriority s.current p).effectivePriority = s.books.effectivePriority := by
      unfold Books.threadSetPriority
      rw [if_neg hset]
      rfl
    show (s.books.threadSetPriority s.current p).effectivePriority t
      ≤ (s.books.threadSetPriority s.current p).effectivePriority s.current
    rw [heff]
    exact h t ht

/-- The timer makes ready those whose time has come. -/
theorem mem_wakeSleepers {l : List (Int × Nat)} (ht : t ∈ (s.wakeSleepers l).readyList) :
    t ∈ s.readyList ∨ ∃ e ∈ l, e.1 ≤ s.ticks ∧ e.2 = t := by
  induction l generalizing s with
  | nil => exact .inl ht
  | cons e rest ih =>
      unfold St.wakeSleepers at ht
      split at ht
      · next hdue =>
        have hticks : (s.threadUnblock e.2).ticks = s.ticks := by
          unfold St.threadUnblock
          split <;> rfl
        rcases ih ht with hmem | ⟨e', he', hle, heq⟩
        · unfold St.threadUnblock at hmem
          split at hmem
          · rcases List.mem_append.mp hmem with hold | hnew
            · exact .inl hold
            · exact .inr ⟨e, List.mem_cons_self, hdue, (List.mem_singleton.mp hnew).symm⟩
          · exact .inl hmem
        · rw [hticks] at hle
          exact .inr ⟨e', List.mem_cons_of_mem e he', hle, heq⟩
      · exact .inl ht

theorem books_wakeSleepers (s : St) (l : List (Int × Nat)) :
    (s.wakeSleepers l).books = s.books := by
  induction l generalizing s with
  | nil => rfl
  | cons e rest ih =>
      unfold St.wakeSleepers
      split
      · rw [ih]
        unfold St.threadUnblock
        split <;> rfl
      · rfl

/-- A tick either ends the time slice, and the running thread yields, or meets the condition. -/
theorem timerInterrupt_top (hmeets : Meets s .tick) : Top s.timerInterrupt := by
  unfold St.timerInterrupt
  simp only
  split
  · exact threadYield_top _
  · next hslice =>
    rcases hmeets with hc | ⟨htop, hdue⟩
    · exact absurd hc hslice
    · intro t ht
      unfold St.eff
      rw [Lists.current_wakeSleepers, books_wakeSleepers]
      rcases mem_wakeSleepers ht with hold | ⟨e, he, hle, rfl⟩
      · exact htop t hold
      · exact hdue e he hle

/-! ## Steps and runs -/

/-- A call that returns at once leaves the running thread on top. -/
theorem call_top {c : Call} (hInv : Inv s) (h : Top s) (hstep : s.call c = some s') : Top s' := by
  cases c with
  | create p => exact threadCreate_top hInv h hstep
  | yield =>
      cases hstep
      exact threadYield_top _
  | semaDown k =>
      cases hstep
      exact semaDown_top h
  | semaUp k =>
      cases hstep
      exact semaUp_top _ _ _
  | lockAcquire l =>
      simp only [St.call] at hstep
      split at hstep
      · cases hstep
      · exact lockAcquire_top h hstep
  | lockRelease l =>
      simp only [St.call] at hstep
      split at hstep
      · cases hstep
      · exact lockRelease_top hstep
  | setPriority p =>
      cases hstep
      exact threadSetPriority_top h
  | sleep n =>
      cases hstep
      exact threadBlock_top _
  | exit =>
      cases hstep
      exact schedule_top _

/-- A thread that goes on in a call may be outranked, but then it is about to yield. -/
theorem go_front (h : Front s) (hstep : s.go = some s') : Front s' := by
  unfold St.go at hstep
  cases hpc : s.pc s.current with
  | user | exited =>
      rw [hpc] at hstep
      cases hstep
  | start | asleep =>
      rw [hpc] at hstep
      cases hstep
      exact .inl (h.top fun n => by rw [hpc]; simp)
  | idle =>
      rw [hpc] at hstep
      cases hstep
      exact .inl (threadBlock_top _)
  | semaDown k =>
      rw [hpc] at hstep
      cases hstep
      exact .inl (semaDown_top (h.top fun n => by rw [hpc]; simp))
  | lockRequested l c | lockDown l c =>
      rw [hpc] at hstep
      cases hstep
      exact .inl (semaDown_top (h.top fun n => by rw [hpc]; simp))
  | lockAcquired l c =>
      rw [hpc] at hstep
      cases hstep
      have htop := h.top fun n => by rw [hpc]; simp
      refine .inl fun t ht => ?_
      show (s.books.acquired s.current l).effectivePriority t
        ≤ (s.books.acquired s.current l).effectivePriority s.current
      rw [Books.acquired_eq]
      exact htop t ht
  | tidRelease n =>
      rw [hpc] at hstep
      exact .inl (lockRelease_top hstep)
  | unlock l c =>
      rw [hpc] at hstep
      cases hstep
      exact .inl (semaUp_top _ _ _)
  | returning c =>
      rw [hpc] at hstep
      have htop := h.top fun n => by rw [hpc]; simp
      cases c with
      | none =>
          cases hstep
          exact .inl htop
      | some n =>
          cases hstep
          exact .inl htop
  | unblockNew n =>
      rw [hpc] at hstep
      cases hstep
      have htop := h.top fun n => by rw [hpc]; simp
      refine .inr ⟨n, Function.update_self .., fun t ht htn => ?_⟩
      replace ht : t ∈ (s.threadUnblock n).readyList := ht
      show (s.threadUnblock n).eff t ≤ (s.threadUnblock n).eff (s.threadUnblock n).current
      unfold St.threadUnblock at ht ⊢
      split at ht
      · next hb =>
        rw [if_pos hb]
        rcases List.mem_append.mp ht with hold | hnew
        · exact htop t hold
        · exact absurd (List.mem_singleton.mp hnew) htn
      · next hb =>
        rw [if_neg hb]
        exact htop t ht
  | maybeYield n =>
      rw [hpc] at hstep
      simp only at hstep
      split at hstep
      · cases hstep
        exact .inl (threadYield_top _)
      · next hle =>
        cases hstep
        -- the new thread does not outrank its creator, nor does any other
        refine .inl fun t ht => ?_
        rcases h with htop | ⟨m, hm, hothers⟩
        · exact htop t ht
        · rw [hpc] at hm
          cases hm
          by_cases htn : t = n
          · rw [htn]
            exact le_of_not_gt hle
          · exact hothers t ht htn

/-- Each step that meets the condition keeps this, and after a tick the running thread is on top. -/
theorem step_front {a : Act} (hInv : Inv s) (h : Front s) (hmeets : Meets s a)
    (hstep : step s a = some s') : Front s' ∧ (a = .tick → Top s') := by
  cases a with
  | call c =>
      simp only [step] at hstep
      split at hstep
      · next hpc =>
        have htop := h.top fun n => by rw [hpc]; simp
        exact ⟨.inl (call_top hInv htop hstep), fun hc => by cases hc⟩
      · cases hstep
  | go => exact ⟨go_front h hstep, fun hc => by cases hc⟩
  | tick =>
      simp only [step] at hstep
      split at hstep
      · cases hstep
        exact ⟨.inl (timerInterrupt_top hmeets), fun _ => timerInterrupt_top hmeets⟩
      · cases hstep

/-- A step that meets the condition. -/
def GoodStep (s s' : St) : Prop := ∃ a, Meets s a ∧ step s a = some s'

theorem front_of_run {values : Nat → UInt32}
    (hrun : Relation.ReflTransGen GoodStep (St.init values) s) : Inv s ∧ Front s := by
  refine Threads.invariant_of_step (I := fun s => Inv s ∧ Front s) hrun
    ⟨Inv.init values, .inl fun t ht => by cases ht⟩ ?_
  rintro s s' ⟨hInv, h⟩ ⟨a, hmeets, hstep⟩
  exact ⟨hInv.step hstep, (step_front hInv h hmeets hstep).1⟩

/-- In runs whose timer interrupts meet the condition, when a call has returned or an interrupt has been
handled, no thread in the run queue outranks the one that runs. -/
theorem preempts (values : Nat → UInt32) {s s' : St} {a : Act}
    (hrun : Relation.ReflTransGen GoodStep (St.init values) s) (hmeets : Meets s a)
    (hstep : step s a = some s') (hdone : a = .tick ∨ Returned s') : Top s' := by
  obtain ⟨hInv, h⟩ := front_of_run hrun
  obtain ⟨hfront, htick⟩ := step_front hInv h hmeets hstep
  rcases hdone with ha | hret | hret
  · exact htick ha
  · exact hfront.top fun n => by rw [hret]; simp
  · exact hfront.top fun n => by rw [hret]; simp

/-- A thread of priority 40 is created and preempts the first thread, sleeps for one tick, and is woken
by the interrupt when the first thread has the priority 50. -/
theorem preempts_sleeper : ∃ s s', Relation.ReflTransGen GoodStep (St.init fun _ => 0) s ∧
    step s .tick = some s' ∧ s.sliceEnds = false ∧ s.sleeping = [(1, 3)] ∧ s'.readyList = [3] ∧
      s'.eff 3 = 40 ∧ s'.current = mainThread ∧ Top s' := by
  obtain ⟨s, s', hs, hs', hslice, hready, hsleeping, hmain, h3, hready', h3', hcur⟩ : ∃ s s',
      runs (St.init fun _ => 0) (createAndSleep ++ [.call (.setPriority 50), .go]) = some s ∧
        step s .tick = some s' ∧ s.sliceEnds = false ∧ s.readyList = [] ∧ s.sleeping = [(1, 3)] ∧
          s.eff s.current = 50 ∧ s.eff 3 = 40 ∧ s'.readyList = [3] ∧ s'.eff 3 = 40 ∧
            s'.current = mainThread :=
    ⟨_, _, rfl, rfl, rfl, rfl, rfl, rfl, rfl, rfl, rfl, rfl⟩
  have hrun : Relation.ReflTransGen GoodStep (St.init fun _ => 0) s := by
    refine steps_of_runs (fun a ha s s' hstep => ⟨a, ?_, hstep⟩) hs
    cases a with
    | call | go => trivial
    | tick => exact absurd ha (by unfold createAndSleep; simp)
  have hmeets : Meets s .tick := by
    refine .inr ⟨fun t ht => ?_, fun e he _ => ?_⟩
    · rw [hready] at ht
      cases ht
    · rw [hsleeping] at he
      rw [List.mem_singleton.mp he, hmain, h3]
      decide
  exact ⟨s, s', hrun, hs', hslice, hsleeping, hready', h3', hcur,
    preempts (fun _ => 0) hrun hmeets hs' (.inl rfl)⟩

/-- A thread of priority 40 sleeps for one tick.  The interrupt that wakes it goes back to
the first thread, of priority 31. -/
theorem preempts_fails : ¬ ∀ s a s', Relation.ReflTransGen Step (St.init fun _ => 0) s →
    step s a = some s' → (a = .tick ∨ Returned s') → Top s' := by
  intro h
  obtain ⟨s, s', hs, hs', hready, h3, hcur⟩ : ∃ s s',
      runs (St.init fun _ => 0) createAndSleep = some s ∧ step s .tick = some s' ∧
        s'.readyList = [3] ∧ s'.eff 3 = 40 ∧ s'.eff s'.current = 31 :=
    ⟨_, _, rfl, rfl, rfl, rfl, rfl⟩
  have htop := h s .tick s' (step_of_runs hs) hs' (.inl rfl) 3 (by rw [hready]; exact List.mem_cons_self)
  rw [h3, hcur] at htop
  exact absurd htop (by decide)

end Sched

end CS162.Kernel
