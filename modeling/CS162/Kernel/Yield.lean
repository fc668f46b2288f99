/-
# `CS162.Kernel.Yield` — round robin

Runs of the kernel in which threads only yield, of their own accord or because their time
slice is over.  The candidates for the processor are the threads in `ready_list` and, at the
end, the running one, which is put there when it yields; the idle thread is no candidate and
runs only when there is none.  A call of `thread_yield` is a turn of this queue in the sense
of `RoundRobin` (`St.threadYield_turn`), though `list_max` and `list_remove` take the next
thread from anywhere in `ready_list`.
-/
import CS162.Lib.RoundRobin
import CS162.Kernel.Lists

namespace CS162.Kernel

namespace Sched

/-- Those who may run next if the running thread yields, in the order of `ready_list`. -/
def St.candidates (s : St) : List Nat :=
  if s.current = idleThread then s.readyList else s.readyList ++ [s.current]

/-- What `ready_list` is between two steps. -/
structure Queued (s : St) : Prop where
  nodup : s.readyList.Nodup
  running : s.current ∉ s.readyList
  idle : idleThread ∉ s.readyList

/-- No thread in the queue of sleepers is due at the next timer interrupt. -/
def NoneDue (s : St) : Prop := ∀ e ∈ s.sleeping, s.ticks + 1 < e.1

/-- A call of `thread_yield`, or a timer interrupt that ends the time slice. -/
inductive Dispatch (s s' : St) : Prop where
  | yield : step s (.call .yield) = some s' → Dispatch s s'
  | slice : step s .tick = some s' → s.sliceEnds = true → NoneDue s → Dispatch s s'

/-- The way back out of `thread_yield`, or a timer interrupt within the time slice. -/
inductive Quiet (s s' : St) : Prop where
  | go : s.pc s.current = .start ∨ s.pc s.current = .asleep ∨ s.pc s.current = .returning none →
      step s .go = some s' → Quiet s s'
  | tick : step s .tick = some s' → s.sliceEnds = false → NoneDue s → Quiet s s'

/-- A run in which threads only yield.  The trace has a thread for each time one was
dispatched, and the state in which that happened. -/
inductive YieldRun : St → List (St × Nat) → St → Prop where
  | nil (s : St) : YieldRun s [] s
  | quiet {s s' s'' : St} {tr : List (St × Nat)} : Quiet s s' → YieldRun s' tr s'' → YieldRun s tr s''
  | dispatch {s s' s'' : St} {tr : List (St × Nat)} : Dispatch s s' → YieldRun s' tr s'' →
      YieldRun s ((s, s'.current) :: tr) s''

variable {s s' s₀ : St} {tr : List (St × Nat)} {a b x : Nat}

/-! ## A step is a turn -/

theorem Queued.idle_candidates (h : Queued s) : idleThread ∉ s.candidates := by
  unfold St.candidates
  split
  · exact h.idle
  · next hne =>
      exact fun hc => (List.mem_append.mp hc).elim h.idle fun hm => hne (List.mem_singleton.mp hm).symm

theorem Queued.nodup_candidates (h : Queued s) : s.candidates.Nodup := by
  unfold St.candidates
  split
  · exact h.nodup
  · refine h.nodup.append (List.nodup_singleton _) ?_
    rw [List.disjoint_singleton]
    exact h.running

theorem mem_candidates : a ∈ s.candidates → a = s.current ∨ a ∈ s.readyList := by
  unfold St.candidates
  split
  · exact .inr
  · intro ha
    exact (List.mem_append.mp ha).symm.imp_left List.mem_singleton.mp

theorem St.nextThreadToRun_eq (s : St) :
    s.nextThreadToRun = (s.readyList.argmax s.books.effectivePriority).getD idleThread := by
  unfold St.nextThreadToRun
  cases s.readyList.argmax s.books.effectivePriority <;> rfl

/-- `thread_yield` puts the running thread at the end and takes the first of the highest. -/
theorem St.threadYield_turn (h : Queued s) :
    s.candidates = [] ∧ s.threadYield.candidates = [] ∧ s.threadYield.current = idleThread ∧
      s.threadYield.readyList = [] ∨
    RoundRobin.Turn s.eff s.candidates s.threadYield.current s.threadYield.candidates ∧
      s.threadYield.readyList = s.candidates.erase s.threadYield.current := by
  have hready : s.threadYield.readyList = s.candidates.erase s.threadYield.current := rfl
  have hcurrent : s.threadYield.current =
      (s.candidates.argmax s.books.effectivePriority).getD idleThread :=
    St.nextThreadToRun_eq { s with readyList := s.candidates }
  cases hmax : s.candidates.argmax s.books.effectivePriority with
  | none =>
      have hnil := List.argmax_eq_none.mp hmax
      rw [hmax, Option.getD_none] at hcurrent
      rw [hnil] at hready
      refine .inl ⟨hnil, ?_, hcurrent, hready⟩
      unfold St.candidates
      rw [if_pos hcurrent]
      exact hready
  | some t =>
      rw [hmax, Option.getD_some] at hcurrent
      have hne : t ≠ idleThread := by
        rintro rfl
        exact h.idle_candidates (List.argmax_mem hmax)
      refine .inr ⟨⟨hcurrent ▸ hmax, ?_⟩, hready⟩
      rw [St.candidates, hcurrent, if_neg hne, hready, hcurrent]

/-- Nobody is woken. -/
theorem wakeSleepers_none {u : St} {l : List (Int × Nat)} (h : ∀ e ∈ l, u.ticks < e.1) :
    St.wakeSleepers u l = { u with sleeping := l } := by
  cases l with
  | nil => rfl
  | cons e l =>
      obtain ⟨wakeTime, t⟩ := e
      have hlt : ¬ wakeTime ≤ u.ticks := not_le.mpr (h _ (List.mem_cons_self ..))
      simp only [St.wakeSleepers, if_neg hlt]

theorem step_yield (h : step s (.call .yield) = some s') :
    s' = (s.goto (.returning none)).threadYield := by
  simp only [step] at h
  split at h
  · exact (Option.some.inj h).symm
  · cases h

theorem step_tick (h : step s .tick = some s') : s' = s.timerInterrupt := by
  simp only [step] at h
  split at h
  · exact (Option.some.inj h).symm
  · cases h

theorem NoneDue.timerInterrupt (h : NoneDue s) : s.timerInterrupt =
    if s.sliceEnds then St.threadYield { s with ticks := s.ticks + 1, threadTicks := s.threadTicks + 1 }
    else { s with ticks := s.ticks + 1, threadTicks := s.threadTicks + 1 } := by
  have hsame := wakeSleepers_none
    (u := { s with ticks := s.ticks + 1, threadTicks := s.threadTicks + 1 }) h
  simp only [St.timerInterrupt, hsame]

theorem Dispatch.yields (h : Dispatch s s') : s'.readyList = s.threadYield.readyList ∧
    s'.current = s.threadYield.current ∧ s'.books = s.books := by
  cases h with
  | yield hstep =>
      obtain rfl := step_yield hstep
      exact ⟨rfl, rfl, rfl⟩
  | slice hstep hends hdue =>
      obtain rfl := step_tick hstep
      rw [hdue.timerInterrupt, hends]
      exact ⟨rfl, rfl, rfl⟩

theorem Quiet.same (h : Quiet s s') : s'.readyList = s.readyList ∧ s'.current = s.current ∧
    s'.books = s.books := by
  cases h with
  | go hpc hstep =>
      simp only [step, St.go] at hstep
      rcases hpc with hpc | hpc | hpc <;>
      · rw [hpc] at hstep
        cases hstep
        exact ⟨rfl, rfl, rfl⟩
  | tick hstep hends hdue =>
      obtain rfl := step_tick hstep
      rw [hdue.timerInterrupt, hends]
      exact ⟨rfl, rfl, rfl⟩

theorem candidates_congr (hready : s'.readyList = s.readyList) (hcur : s'.current = s.current) :
    s'.candidates = s.candidates := by
  unfold St.candidates
  rw [hready, hcur]

theorem Queued.congr (h : Queued s) (hready : s'.readyList = s.readyList)
    (hcur : s'.current = s.current) :
    Queued s' := by
  refine ⟨?_, ?_, ?_⟩
  · rw [hready]
    exact h.nodup
  · rw [hready, hcur]
    exact h.running
  · rw [hready]
    exact h.idle

theorem Queued.threadYield (h : Queued s) : Queued s.threadYield := by
  rcases St.threadYield_turn h with ⟨-, -, -, hnil⟩ | ⟨-, hready⟩
  · refine ⟨?_, ?_, ?_⟩ <;> rw [hnil]
    · exact List.nodup_nil
    · exact List.not_mem_nil
    · exact List.not_mem_nil
  · refine ⟨?_, ?_, ?_⟩ <;> rw [hready]
    · exact h.nodup_candidates.erase _
    · exact h.nodup_candidates.not_mem_erase
    · exact fun hc => h.idle_candidates (List.mem_of_mem_erase hc)

/-! ## Runs are turns -/

theorem YieldRun.queued (h : YieldRun s₀ tr s) (h₀ : Queued s₀) : Queued s := by
  induction h with
  | nil s => exact h₀
  | quiet hstep _ ih =>
      obtain ⟨hready, hcur, -⟩ := hstep.same
      exact ih (h₀.congr hready hcur)
  | dispatch hstep _ ih =>
      obtain ⟨hready, hcur, -⟩ := hstep.yields
      exact ih (h₀.threadYield.congr hready hcur)

theorem YieldRun.books (h : YieldRun s₀ tr s) : s.books = s₀.books := by
  induction h with
  | nil s => rfl
  | quiet hstep _ ih => exact ih.trans hstep.same.2.2
  | dispatch hstep _ ih => exact ih.trans hstep.yields.2.2

/-- Without a candidate only the idle thread is dispatched. -/
theorem YieldRun.idle (h : YieldRun s₀ tr s) (h₀ : Queued s₀) (hnil : s₀.candidates = []) :
    s.candidates = [] ∧ ∀ y ∈ tr, y.2 = idleThread := by
  induction h with
  | nil s => exact ⟨hnil, fun y hy => by cases hy⟩
  | quiet hstep _ ih =>
      obtain ⟨hready, hcur, -⟩ := hstep.same
      exact ih (h₀.congr hready hcur) ((candidates_congr hready hcur).trans hnil)
  | dispatch hstep _ ih =>
      obtain ⟨hready, hcur, -⟩ := hstep.yields
      rcases St.threadYield_turn h₀ with ⟨-, hnil', hidle, -⟩ | ⟨hturn, -⟩
      · obtain ⟨h₁, h₂⟩ := ih (h₀.threadYield.congr hready hcur)
          ((candidates_congr hready hcur).trans hnil')
        refine ⟨h₁, fun y hy => ?_⟩
        rcases List.mem_cons.mp hy with rfl | hy
        · exact hcur.trans hidle
        · exact h₂ y hy
      · have hmem := hturn.mem
        rw [hnil] at hmem
        cases hmem

/-- With candidates every dispatch is a turn. -/
theorem YieldRun.turns (h : YieldRun s₀ tr s) (h₀ : Queued s₀) (hne : s₀.candidates ≠ []) :
    RoundRobin.Turns s₀.eff s₀.candidates (tr.map Prod.snd) s.candidates := by
  induction h with
  | nil s => exact .nil _
  | @quiet s₀ s₁ s₂ tr hstep _ ih =>
      obtain ⟨hready, hcur, hbooks⟩ := hstep.same
      have hsame := candidates_congr hready hcur
      have hrest := ih (h₀.congr hready hcur) (hsame ▸ hne)
      unfold St.eff at hrest ⊢
      rw [hsame, hbooks] at hrest
      exact hrest
  | @dispatch s₀ s₁ s₂ tr hstep _ ih =>
      obtain ⟨hready, hcur, hbooks⟩ := hstep.yields
      have hsame := candidates_congr hready hcur
      rcases St.threadYield_turn h₀ with ⟨hnil, -⟩ | ⟨hturn, -⟩
      · exact absurd hnil hne
      · rw [← hsame, ← hcur] at hturn
        have hne' : s₁.candidates ≠ [] := by
          rw [hturn.2]
          simp
        have hrest := ih (h₀.threadYield.congr hready hcur) hne'
        unfold St.eff at hrest
        rw [hbooks] at hrest
        exact .cons hturn hrest

/-- The thread that is dispatched has the highest priority. -/
theorem Dispatch.highest (h : Dispatch s s') (h₀ : Queued s)
    (hx : x = s.current ∨ x ∈ s.readyList)
    (hidle : x = idleThread → ∀ y ∈ s.readyList, s.eff x ≤ s.eff y) :
    s.eff x ≤ s.eff s'.current := by
  obtain ⟨-, hcur, -⟩ := h.yields
  rw [hcur]
  have hmem : x = s.current → x = idleThread ∨ x ∈ s.candidates := by
    rintro rfl
    unfold St.candidates
    split
    · next hc => exact .inl hc
    · exact .inr (by simp)
  have hready : ∀ y ∈ s.readyList, y ∈ s.candidates := by
    intro y hy
    unfold St.candidates
    split
    · exact hy
    · exact List.mem_append_left _ hy
  rcases St.threadYield_turn h₀ with ⟨hnil, -, hnext, -⟩ | ⟨hturn, -⟩
  · have hxi : x = idleThread := by
      rcases hx with rfl | hx
      · rcases hmem rfl with hi | hc
        · exact hi
        · rw [hnil] at hc
          cases hc
      · have hc := hready x hx
        rw [hnil] at hc
        cases hc
    rw [hnext, hxi]
  · rcases hx.imp_left hmem with (hi | hc) | hr
    · rcases mem_candidates hturn.mem with hself | hother
      · -- the idle thread is no candidate
        have hidle' : s.current ≠ idleThread := fun he =>
          h₀.idle_candidates (by rw [← he, ← hself]; exact hturn.mem)
        rcases hx with rfl | hx
        · exact absurd hi hidle'
        · exact absurd (hi ▸ hx) h₀.idle
      · exact hidle hi _ hother
    · exact hturn.highest hc
    · exact hturn.highest (hready x hr)

/-- What is said of a run: the highest priority runs, equals take turns, and no thread is
lost or doubled. -/
structure InTurn (s₀ : St) (tr : List (St × Nat)) (s : St) : Prop where
  highest : ∀ u x, (u, x) ∈ tr → ∀ y, y = u.current ∨ y ∈ u.readyList →
    (y = idleThread → ∀ z ∈ u.readyList, u.eff y ≤ u.eff z) → u.eff y ≤ u.eff x
  inOrder : ∀ a b, [a, b].Sublist s₀.candidates → s₀.eff a = s₀.eff b → b ∈ tr.map Prod.snd →
    ∃ l₁ l₂, tr.map Prod.snd = l₁ ++ a :: l₂ ∧ b ∉ l₁
  once : ∀ a b l₁ l₂ l₃, tr.map Prod.snd = l₁ ++ a :: (l₂ ++ a :: l₃) → b ∈ s₀.candidates → b ≠ a →
    s₀.eff b = s₀.eff a → b ∈ l₂
  same : s.candidates.Perm s₀.candidates
  queued : Queued s

/-- Nobody who could have been dispatched had a higher priority. -/
theorem YieldRun.highest (h : YieldRun s₀ tr s) (h₀ : Queued s₀) {u : St} (hu : (u, x) ∈ tr)
    (ha : a = u.current ∨ a ∈ u.readyList)
    (hidle : a = idleThread → ∀ y ∈ u.readyList, u.eff a ≤ u.eff y) :
    u.eff a ≤ u.eff x := by
  induction h with
  | nil s => cases hu
  | quiet hstep _ ih =>
      obtain ⟨hready, hcur, -⟩ := hstep.same
      exact ih (h₀.congr hready hcur) hu
  | dispatch hstep _ ih =>
      rcases List.mem_cons.mp hu with heq | hu
      · cases heq
        exact hstep.highest h₀ ha hidle
      · obtain ⟨hready, hcur, -⟩ := hstep.yields
        exact ih (h₀.threadYield.congr hready hcur) hu

/-- Round robin among equals.  Every state of the run is the start of one, so what is said of
the order holds from each of them on; a thread that yields goes behind those that are ready. -/
theorem round_robin (h₀ : Queued s₀) (h : YieldRun s₀ tr s) : InTurn s₀ tr s := by
  refine ⟨fun u x hu y hy hidle => h.highest h₀ hu hy hidle, fun a b hab hrank hb => ?_,
    fun a b l₁ l₂ l₃ htr hb hba hrank => ?_, ?_, h.queued h₀⟩
  · have hne : s₀.candidates ≠ [] := by
      rintro hnil
      rw [hnil] at hab
      cases hab
    exact (h.turns h₀ hne).before h₀.nodup_candidates hab hrank hb
  · have hturns := h.turns h₀ (List.ne_nil_of_mem hb)
    rw [htr] at hturns
    exact hturns.fair h₀.nodup_candidates hb hba hrank
  · by_cases hne : s₀.candidates = []
    · rw [(h.idle h₀ hne).1, hne]
    · exact (h.turns h₀ hne).perm

/-- The first thread runs and another one is ready, with the same priority. -/
def twoEquals : St :=
  { St.init (fun _ => 0) with
    books := { (St.init fun _ => 0).books with effectivePriority := fun _ => priDefault }
    readyList := [3] }

theorem twoEquals_queued : Queued twoEquals :=
  ⟨List.nodup_singleton 3, by decide, by decide⟩

theorem round_robin_small : ∃ tr s, YieldRun twoEquals tr s ∧ tr.map Prod.snd = [3, mainThread, 3] ∧
    InTurn twoEquals tr s := by
  have hrun : YieldRun twoEquals _ _ :=
    .dispatch (.yield rfl) (.dispatch (.yield rfl) (.quiet (.go (.inr (.inr rfl)) rfl)
      (.dispatch (.yield rfl) (.nil _))))
  exact ⟨_, _, hrun, rfl, round_robin twoEquals_queued hrun⟩

end Sched

end CS162.Kernel
