/-
# `CS162.Userprog.WaitRuns` — what `process_wait` returns over a whole run

`log` is the history of the calls of `process_wait` that have returned.  `LogInv` ties
it to the protocol: a child that a process has loaded is either still to be waited for
(`Phase.keeps`) or has been waited for, and never both.  All but three kinds of step
leave that alone (`Quiet`): a child is added, a call returns an exit code, or a call
returns `-1`.

`Contract` is what a state of a run should satisfy.  It holds in every run whose steps
all meet `Meets`; `contract_fails` is a run in which a process exits with a child it
has not waited for.
-/
import CS162.Lib.Threads
import CS162.Userprog.WaitProtocol

namespace CS162.Userprog

/-! ## The history -/

/-- Some call of `p` for its child `w` has returned. -/
def Called (s : St) (p w : Nat) : Prop :=
  ∃ e ∈ s.log, e.caller = p ∧ e.tid = w ∧ e.kid = true

/-- The call `e` is the first one of its caller for a child, `before` being the earlier ones. -/
def First (before : List WaitCall) (e : WaitCall) : Prop :=
  e.kid = true ∧ ∀ e' ∈ before, ¬ (e'.caller = e.caller ∧ e'.tid = e.tid ∧ e'.kid = true)

/-- What the calls should have returned: the first one for a child its exit code, every
other one `-1`. -/
def Answers (log : List WaitCall) (code : Nat → Int) : Prop :=
  ∀ before e after, log = before ++ e :: after →
    (First before e → e.result = code e.tid.toNat) ∧ (¬ First before e → e.result = -1)

/-- The parent has not yet put the child into its list. -/
def Phase.early : Phase → Bool
  | .starting | .checking | .pushing => true
  | .listed | .taking | .freeing | .gone => false

structure LogInv (s : St) : Prop where
  kids : ∀ p, ∀ w ∈ s.kids p, Child s p w ∧
    (((s.procs p).phase w).keeps = true ∨ Called s p w)
  early : ∀ p w, ((s.procs p).phase w).early = true → w ∉ s.kids p
  keeps : ∀ p w, ((s.procs p).phase w).keeps = true → w ∈ s.kids p ∧ ¬ Called s p w
  called : ∀ e ∈ s.log, e.kid = true → ∃ w : Nat, e.tid = w ∧ w ∈ s.kids e.caller ∧
    (s.procs w).progress.finished = true
  answers : Answers s.log s.code

variable {s s' : St} {p w : Nat} {P : Proc}

theorem Answers.code {log : List WaitCall} {code code' : Nat → Int} (h : Answers log code)
    (hcode : ∀ e ∈ log, e.kid = true → code' e.tid.toNat = code e.tid.toNat) : Answers log code' := by
  intro before e after heq
  obtain ⟨h1, h2⟩ := h before e after heq
  refine ⟨fun hfirst => ?_, h2⟩
  rw [h1 hfirst, hcode e (by rw [heq]; simp) hfirst.1]

/-- One more call has returned. -/
theorem Answers.snoc {log : List WaitCall} {code : Nat → Int} {e : WaitCall} (h : Answers log code)
    (hfirst : First log e → e.result = code e.tid.toNat) (hlater : ¬ First log e → e.result = -1) :
    Answers (log ++ [e]) code := by
  intro before e' after heq
  cases after using List.reverseRecOn with
  | nil =>
      obtain ⟨rfl, he⟩ := List.append_inj' heq rfl
      cases he
      exact ⟨hfirst, hlater⟩
  | append_singleton rest last _ =>
      rw [← List.cons_append, ← List.append_assoc] at heq
      exact h before e' rest (List.append_inj' heq rfl).1

/-! ## Quiet steps -/

/-- A step that neither adds a child nor returns from a call. -/
structure Quiet (s s' : St) : Prop where
  log : s'.log = s.log
  kids : s'.kids = s.kids
  keeps : ∀ p w, ((s'.procs p).phase w).keeps = ((s.procs p).phase w).keeps
  early : ∀ p w, ((s'.procs p).phase w).early = true →
    ((s.procs p).phase w).early = true ∨ s.next ≤ w
  finished : ∀ w, (s.procs w).progress.finished = true → (s'.procs w).progress.finished = true
  code : ∀ w, (s.procs w).progress.finished = true → s'.code w = s.code w
  child : ∀ p w, Child s p w → Child s' p w

/-- Such a step keeps the invariant: the calls that have
returned are those from before, and so are the children. -/
theorem LogInv.quiet (h : LogInv s) (hq : Quiet s s') : LogInv s' := by
  have hcalled : ∀ p w, Called s' p w ↔ Called s p w := by
    intro p w
    unfold Called
    rw [hq.log]
  refine ⟨?_, ?_, ?_, ?_, ?_⟩
  · intro p w hw
    rw [hq.kids] at hw
    rw [hq.keeps, hcalled]
    exact ⟨hq.child p w (h.kids p w hw).1, (h.kids p w hw).2⟩
  · intro p w hw hc
    rw [hq.kids] at hc
    cases hq.early p w hw with
    | inl hold => exact h.early p w hold hc
    | inr hge => exact absurd (h.kids p w hc).1.lt (Nat.not_lt.mpr hge)
  · intro p w hw
    rw [hq.keeps] at hw
    rw [hq.kids, hcalled]
    exact h.keeps p w hw
  · intro e he hkid
    rw [hq.log] at he
    obtain ⟨w, ht, hw, hfin⟩ := h.called e he hkid
    exact ⟨w, ht, by rw [hq.kids]; exact hw, hq.finished w hfin⟩
  · rw [hq.log]
    refine h.answers.code fun e he hkid => ?_
    obtain ⟨w, ht, -, hfin⟩ := h.called e he hkid
    rw [ht]
    exact hq.code w hfin

/-- One process moves, and nothing happens to its list of children that matters. -/
theorem Quiet.move (hprocs : s'.procs = Function.update s.procs p P) (hlog : s'.log = s.log)
    (hkids : s'.kids = s.kids) (hcode : s'.code = s.code) (hnext : s'.next = s.next)
    (hparent : s'.parent = s.parent)
    (hphase : ∀ w, (P.phase w).keeps = ((s.procs p).phase w).keeps ∧
      ((P.phase w).early = true → ((s.procs p).phase w).early = true))
    (hfin : (s.procs p).progress.finished = true → P.progress.finished = true) : Quiet s s' := by
  refine ⟨hlog, hkids, ?_, ?_, ?_, fun w _ => by rw [hcode], ?_⟩
  · intro q w
    rw [hprocs]
    by_cases hq : q = p
    · subst hq
      rw [Function.update_self]
      exact (hphase w).1
    · rw [Function.update_of_ne hq]
  · intro q w hw
    rw [hprocs] at hw
    refine .inl ?_
    by_cases hq : q = p
    · subst hq
      rw [Function.update_self] at hw
      exact (hphase w).2 hw
    · rwa [Function.update_of_ne hq] at hw
  · intro w hw
    rw [hprocs]
    by_cases hq : w = p
    · subst hq
      rw [Function.update_self]
      exact hfin hw
    · rwa [Function.update_of_ne hq]
  · intro q w hw
    exact ⟨by rw [hparent]; exact hw.parent, hw.two, by rw [hnext]; exact hw.lt⟩

theorem Quiet.crash (s : St) : Quiet s s.crash :=
  ⟨rfl, rfl, fun _ _ => rfl, fun _ _ h => .inl h, fun _ h => h, fun _ _ => rfl,
    fun _ _ h => ⟨h.parent, h.two, h.lt⟩⟩

theorem use_cases {k : WaitStatus → Option St} (hstep : s.use w k = some s') :
    s' = s.crash ∨ k (s.ws w) = some s' := by
  unfold St.use at hstep
  split at hstep
  · exact .inr hstep
  · exact .inl (Option.some.inj hstep).symm

section Step

variable {pc pc' : Pc} {a a' : Option Nat} {b b' : List Nat}

/-- A process moves on with a struct at hand. -/
theorem Quiet.moveWs {W : WaitStatus} (hP : s.procs p = ⟨pc, a, b⟩)
    (hphase : ∀ w', ((Proc.phase ⟨pc', a', b'⟩ w').keeps = (Proc.phase ⟨pc, a, b⟩ w').keeps) ∧
      ((Proc.phase ⟨pc', a', b'⟩ w').early = true → (Proc.phase ⟨pc, a, b⟩ w').early = true))
    (hfin : (Proc.progress ⟨pc, a, b⟩).finished = true →
      (Proc.progress ⟨pc', a', b'⟩).finished = true) :
    Quiet s ((s.setProc p ⟨pc', a', b'⟩).setWs w W) :=
  Quiet.move rfl rfl rfl rfl rfl rfl (fun w' => by rw [hP]; exact hphase w')
    (fun h => by rw [hP] at h; exact hfin h)

theorem Quiet.movePc (hP : s.procs p = ⟨pc, a, b⟩)
    (hphase : ∀ w', ((Proc.phase ⟨pc', a', b'⟩ w').keeps = (Proc.phase ⟨pc, a, b⟩ w').keeps) ∧
      ((Proc.phase ⟨pc', a', b'⟩ w').early = true → (Proc.phase ⟨pc, a, b⟩ w').early = true))
    (hfin : (Proc.progress ⟨pc, a, b⟩).finished = true →
      (Proc.progress ⟨pc', a', b'⟩).finished = true) : Quiet s (s.setProc p ⟨pc', a', b'⟩) := by
  have h := Quiet.moveWs (w := p) (W := s.ws p) hP hphase hfin
  exact setWs_self (s.setProc p ⟨pc', a', b'⟩) p ▸ h

/-- In every state that can be reached, the steps of a call but two are quiet. -/
theorem Quiet.advance (h : Inv s) (hP : s.procs p = ⟨pc, a, b⟩) (hpush : ∀ w, pc ≠ .execPush w)
    (hfree : ∀ w status, pc ≠ .waitFree w status) (hstep : advance s p = some s') : Quiet s s' := by
  have hok := h.procs p
  rw [hP] at hok
  cases pc with
  | execDown w =>
      simp only [Userprog.advance, hP, St.setPc] at hstep
      rcases use_cases hstep with rfl | hstep
      · exact Quiet.crash s
      · split at hstep
        · cases hstep
        · cases hstep
          refine Quiet.moveWs hP (fun w' => ?_) id
          by_cases hw : w = w' <;> simp [Proc.phase, Pc.phase, hw, Phase.keeps, Phase.early]
  | execCheck w =>
      have hnot : w ∉ b := hok.pc.2
      simp only [Userprog.advance, hP, St.setPc, free_procs] at hstep
      rcases use_cases hstep with rfl | hstep
      · exact Quiet.crash s
      · split at hstep
        · cases hstep
          refine Quiet.movePc hP (fun w' => ?_) id
          by_cases hw : w = w' <;> simp [Proc.phase, Pc.phase, hw, Phase.keeps, Phase.early]
        · cases hstep
          refine Quiet.moveWs hP (fun w' => ?_) id
          by_cases hw : w = w'
          · subst hw
            simp [Proc.phase, Pc.phase, Phase.keeps, hnot, Phase.early]
          · simp [Proc.phase, Pc.phase, hw]
  | execPush w => exact absurd rfl (hpush w)
  | failUp w =>
      simp only [Userprog.advance, hP, St.setPc] at hstep
      rcases use_cases hstep with rfl | hstep
      · exact Quiet.crash s
      · cases hstep
        refine Quiet.moveWs hP (fun w' => ?_) (fun hc => by cases hc)
        cases a <;> exact ⟨rfl, id⟩
  | okUp w =>
      simp only [Userprog.advance, hP, St.setPc] at hstep
      rcases use_cases hstep with rfl | hstep
      · exact Quiet.crash s
      · cases hstep
        exact Quiet.moveWs hP (fun w' => ⟨rfl, id⟩) id
  | waitDown w =>
      have hmem : w ∈ b := hok.pc
      simp only [Userprog.advance, hP, St.setPc] at hstep
      rcases use_cases hstep with rfl | hstep
      · exact Quiet.crash s
      · split at hstep
        · cases hstep
        · cases hstep
          refine Quiet.moveWs hP (fun w' => ?_) id
          by_cases hw : w = w'
          · subst hw
            simp [Proc.phase, Pc.phase, hmem, Phase.keeps, Phase.early]
          · simp [Proc.phase, Pc.phase, hw]
  | waitTake w =>
      simp only [Userprog.advance, hP] at hstep
      rcases use_cases hstep with rfl | hstep
      · exact Quiet.crash s
      · cases hstep
        refine Quiet.movePc hP (fun w' => ?_) id
        by_cases hw : w = w'
        · subst hw
          simp [Proc.phase, Pc.phase, Phase.keeps, Phase.early]
        · simp [Proc.phase, Pc.phase, hw, List.mem_erase_of_ne (Ne.symm hw)]
  | waitFree w status => exact absurd rfl (hfree w status)
  | exitLock w =>
      simp only [Userprog.advance, hP, lockAcquire, St.setPc] at hstep
      rcases use_cases hstep with rfl | hstep
      · exact Quiet.crash s
      · split at hstep
        · cases hstep
          exact Quiet.moveWs hP (fun w' => ⟨rfl, id⟩) id
        · split at hstep
          · cases hstep
            exact Quiet.crash s
          · cases hstep
  | exitDec w =>
      have hproc : ∀ W, (s.setWs w W).procs p = ⟨.exitDec w, a, b⟩ := fun _ => hP
      simp only [Userprog.advance, hP, decrement, St.setPc, free_procs, hproc] at hstep
      rcases use_cases hstep with rfl | hstep
      · exact Quiet.crash s
      · split at hstep
        · cases hstep
          refine Quiet.move rfl rfl rfl rfl rfl rfl (fun w' => by rw [hP]; exact ⟨rfl, id⟩) ?_
          rw [hP]
          exact fun hc => by cases hc
        · cases hstep
          exact Quiet.moveWs hP (fun w' => ⟨rfl, id⟩) id
  | exitRelease w =>
      simp only [Userprog.advance, hP, St.setPc] at hstep
      rcases use_cases hstep with rfl | hstep
      · exact Quiet.crash s
      · cases hstep
        exact Quiet.moveWs hP (fun w' => ⟨rfl, id⟩) id
  | exitUp w =>
      simp only [Userprog.advance, hP, St.setPc] at hstep
      rcases use_cases hstep with rfl | hstep
      · exact Quiet.crash s
      · cases hstep
        exact Quiet.moveWs hP (fun w' => ⟨rfl, id⟩) (fun hc => by cases hc)
  | loopLock rest =>
      obtain ⟨rfl, -⟩ := hok.pc
      simp only [Userprog.advance, hP, St.setPc] at hstep
      cases hstep
      exact Quiet.movePc hP (fun w' => ⟨rfl, id⟩) id
  | loopDec rest => exact hok.pc.elim
  | loopRelease rest => exact hok.pc.elim
  | absent | user | loading w | dead =>
      simp only [Userprog.advance, hP] at hstep
      cases hstep

/-- `process_execute` is such a step: the new child is listed only at its end. -/
theorem Quiet.exec (h : Inv s) (hP : s.procs p = ⟨.user, a, b⟩) :
    Quiet s (processExecute s p true) := by
  have hlt : p < s.next := h.lt_next (by rw [hP]; simp)
  have hpn : p ≠ s.next := Nat.ne_of_lt hlt
  have hprocs : (processExecute s p true).procs
      = Function.update (Function.update s.procs s.next ⟨.loading s.next, none, []⟩) p
        ⟨.execDown s.next, a, b⟩ := by
    simp [processExecute, St.setPc, St.setProc, St.setWs, Function.update_of_ne hpn, hP]
  have hnew := h.absent s.next (Nat.le_refl _)
  have hnot : s.next ∉ b := by
    intro hc
    have hok := h.procs p
    rw [hP] at hok
    exact Nat.lt_irrefl _ (hok.children _ hc).lt
  refine ⟨rfl, rfl, ?_, ?_, ?_, fun _ _ => rfl, ?_⟩
  · intro q w
    rw [hprocs]
    by_cases hq : q = p
    · subst hq
      rw [Function.update_self, hP]
      by_cases hw : s.next = w
      · subst hw
        simp [Proc.phase, Pc.phase, Phase.keeps, hnot]
      · simp [Proc.phase, Pc.phase, hw]
    · rw [Function.update_of_ne hq]
      by_cases hqn : q = s.next
      · subst hqn
        rw [Function.update_self, hnew]
        rfl
      · rw [Function.update_of_ne hqn]
  · intro q w hw
    rw [hprocs] at hw
    by_cases hq : q = p
    · subst hq
      rw [Function.update_self] at hw
      rw [hP]
      by_cases hwn : s.next = w
      · exact .inr (Nat.le_of_eq hwn)
      · simp only [Proc.phase, Pc.phase, if_neg hwn] at hw ⊢
        exact .inl hw
    · rw [Function.update_of_ne hq] at hw
      by_cases hqn : q = s.next
      · subst hqn
        rw [Function.update_self] at hw
        cases hw
      · rw [Function.update_of_ne hqn] at hw
        exact .inl hw
  · intro w hw
    rw [hprocs]
    by_cases hq : w = p
    · subst hq
      rw [hP] at hw
      cases hw
    · rw [Function.update_of_ne hq]
      by_cases hwn : w = s.next
      · subst hwn
        rw [hnew] at hw
        cases hw
      · rwa [Function.update_of_ne hwn]
  · intro q w hw
    refine ⟨?_, hw.two, Nat.lt_succ_of_lt hw.lt⟩
    show Function.update s.parent s.next p w = q
    rw [Function.update_of_ne (Nat.ne_of_lt hw.lt)]
    exact hw.parent

theorem Quiet.startProcess {success : Bool} (hP : s.procs p = ⟨.loading w, a, b⟩)
    (hstep : startProcess s p w success = some s') : Quiet s s' := by
  simp only [Userprog.startProcess, hP, St.setPc] at hstep
  rcases use_cases hstep with rfl | hstep
  · exact Quiet.crash s
  · split at hstep
    · cases hstep
      exact Quiet.moveWs hP (fun w' => ⟨rfl, id⟩) (fun hc => by cases hc)
    · cases hstep
      exact Quiet.moveWs hP (fun w' => ⟨rfl, id⟩) id

/-- A process leaves. -/
theorem Quiet.leave (hP : s.procs p = ⟨.user, a, b⟩) :
    Quiet s (s.setPc p (processExit (s.procs p))) := by
  unfold St.setPc
  rw [hP]
  cases a with
  | none => exact Quiet.movePc hP (fun w' => ⟨rfl, id⟩) (fun hc => by cases hc)
  | some w => exact Quiet.movePc hP (fun w' => ⟨rfl, id⟩) id

/-- What `exit` stores is not yet anybody's answer. -/
theorem Quiet.record {status : Int} {W : WaitStatus} (hq : Quiet s s')
    (hfin : (s.procs p).progress.finished = false) :
    Quiet s { s'.setWs w W with code := Function.update s.code p status } := by
  refine ⟨hq.log, hq.kids, hq.keeps, hq.early, hq.finished, ?_, ?_⟩
  · intro w' hw'
    refine Function.update_of_ne ?_ _ _
    rintro rfl
    rw [hfin] at hw'
    cases hw'
  · intro q w' hw'
    have := hq.child q w' hw'
    exact ⟨this.parent, this.two, this.lt⟩

/-! ## The three steps that are not quiet -/

/-- A parent moves with one child; its phases with the others stay. -/
theorem phase_update {Q : Proc} (hphase : ∀ w', w' ≠ w → Q.phase w' = (s.procs p).phase w')
    (q w' : Nat) (hne : ¬ (q = p ∧ w' = w)) :
    (Function.update s.procs p Q q).phase w' = (s.procs q).phase w' := by
  by_cases hq : q = p
  · subst hq
    rw [Function.update_self]
    exact hphase w' fun hw' => hne ⟨rfl, hw'⟩
  · rw [Function.update_of_ne hq]

/-- A process that was not done moves; who was done is done. -/
theorem finished_update {Q : Proc} (hP : (s.procs p).progress.finished = false) (w' : Nat)
    (hw' : (s.procs w').progress.finished = true) :
    (Function.update s.procs p Q w').progress.finished = true := by
  have hne : w' ≠ p := by
    rintro rfl
    rw [hP] at hw'
    cases hw'
  rw [Function.update_of_ne hne]
  exact hw'

theorem called_snoc {e : WaitCall} (hlog : s'.log = s.log ++ [e]) :
    Called s' p w ↔ Called s p w ∨ (e.caller = p ∧ e.tid = w ∧ e.kid = true) := by
  unfold Called
  rw [hlog]
  constructor
  · rintro ⟨e', he', heq⟩
    rcases List.mem_append.mp he' with hold | hnew
    · exact .inl ⟨e', hold, heq⟩
    · rw [List.mem_singleton.mp hnew] at heq
      exact .inr heq
  · rintro (⟨e', he', heq⟩ | heq)
    · exact ⟨e', List.mem_append_left _ he', heq⟩
    · exact ⟨e, List.mem_append_right _ List.mem_cons_self, heq⟩

/-- The child is listed: from now on it may be waited for, once. -/
theorem LogInv.execPush (hl : LogInv s) (h : Inv s) (hP : s.procs p = ⟨.execPush w, a, b⟩)
    (hstep : advance s p = some s') : LogInv s' := by
  have hok := h.procs p
  rw [hP] at hok
  obtain ⟨hw, -⟩ := hok.pc
  have hph : (s.procs p).phase w = .pushing := by simp [hP, Proc.phase, Pc.phase]
  have hnew : w ∉ s.kids p := hl.early p w (by rw [hph]; rfl)
  have hnc : ¬ Called s p w := by
    rintro ⟨e, he, rfl, ht, hk⟩
    obtain ⟨w', ht', hw', -⟩ := hl.called e he hk
    rw [ht] at ht'
    rw [← Int.ofNat.inj ht'] at hw'
    exact hnew hw'
  simp only [advance, hP] at hstep
  rcases use_cases hstep with rfl | hstep
  · exact hl.quiet (Quiet.crash s)
  · cases hstep
    have hself : Function.update s.procs p ⟨.user, a, w :: b⟩ p = ⟨.user, a, w :: b⟩ :=
      Function.update_self ..
    have hlisted : Proc.phase ⟨.user, a, w :: b⟩ w = .listed := by simp [Proc.phase, Pc.phase]
    have hphase := phase_update (s := s) (p := p) (w := w) (Q := ⟨.user, a, w :: b⟩) fun w' hne => by
      rw [hP]
      simp [Proc.phase, Pc.phase, hne, Ne.symm hne]
    have hkids : ∀ q w', w' ∈ Function.update s.kids p (w :: s.kids p) q ↔
        w' ∈ s.kids q ∨ (q = p ∧ w' = w) := by
      intro q w'
      by_cases hq : q = p
      · subst hq
        rw [Function.update_self, List.mem_cons, or_comm]
        simp
      · rw [Function.update_of_ne hq]
        simp [hq]
    refine ⟨?_, ?_, ?_, ?_, hl.answers⟩
    · intro q w' hw'
      by_cases heq : q = p ∧ w' = w
      · obtain ⟨rfl, rfl⟩ := heq
        refine ⟨⟨hw.parent, hw.two, hw.lt⟩, .inl ?_⟩
        show (Proc.phase (Function.update s.procs q _ q) w').keeps = true
        rw [hself, hlisted]
        rfl
      · obtain ⟨hc, hor⟩ := hl.kids q w' (((hkids q w').mp hw').resolve_right heq)
        rw [← hphase q w' heq] at hor
        exact ⟨⟨hc.parent, hc.two, hc.lt⟩, hor⟩
    · intro q w' hw' hc
      replace hw' : ((Function.update s.procs p ⟨.user, a, w :: b⟩ q).phase w').early = true := hw'
      by_cases heq : q = p ∧ w' = w
      · obtain ⟨rfl, rfl⟩ := heq
        rw [hself, hlisted] at hw'
        cases hw'
      · rw [hphase q w' heq] at hw'
        exact hl.early q w' hw' (((hkids q w').mp hc).resolve_right heq)
    · intro q w' hw'
      replace hw' : ((Function.update s.procs p ⟨.user, a, w :: b⟩ q).phase w').keeps = true := hw'
      by_cases heq : q = p ∧ w' = w
      · exact ⟨(hkids q w').mpr (.inr heq), by rw [heq.1, heq.2]; exact hnc⟩
      · rw [hphase q w' heq] at hw'
        exact ⟨(hkids q w').mpr (.inl (hl.keeps q w' hw').1), (hl.keeps q w' hw').2⟩
    · intro e he hk
      obtain ⟨w', ht, hw', hfin⟩ := hl.called e he hk
      exact ⟨w', ht, (hkids e.caller w').mpr (.inl hw'), finished_update (by rw [hP]; rfl) w' hfin⟩

/-- A call returns an exit code. -/
theorem LogInv.waitFree {status : Int} (hl : LogInv s) (h : Inv s)
    (hP : s.procs p = ⟨.waitFree w status, a, b⟩) (hstep : advance s p = some s') : LogInv s' := by
  have hok := h.procs p
  rw [hP] at hok
  obtain ⟨hw, hch, hstatus⟩ := hok.pc
  have hwb : w ∉ b := hch
  have hpair := h.pair hw
  have hph : (s.procs p).phase w = .freeing := by simp [hP, Proc.phase, Pc.phase]
  rw [hph] at hpair
  have hsema := hpair.sema (by decide)
  have hfinw : (s.procs w).progress.finished = true := by
    refine finished_of_two ?_
    simp only [Phase.downs] at hsema
    omega
  obtain ⟨hkid, hnc⟩ := hl.keeps p w (by rw [hph]; rfl)
  simp only [advance, hP, use_eq (hpair.there (by decide)), St.setPc, free_procs] at hstep
  cases hstep
  have hself : Function.update s.procs p ⟨.user, a, b⟩ p = ⟨.user, a, b⟩ := Function.update_self ..
  have hgone : Proc.phase ⟨.user, a, b⟩ w = .gone := by simp [Proc.phase, Pc.phase, hwb]
  have hphase := phase_update (s := s) (p := p) (w := w) (Q := ⟨.user, a, b⟩) fun w' hne => by
    rw [hP]
    simp [Proc.phase, Pc.phase, Ne.symm hne]
  have hfin := finished_update (s := s) (p := p) (Q := ⟨.user, a, b⟩) (by rw [hP]; rfl)
  refine ⟨?_, ?_, ?_, ?_, ?_⟩
  · intro q w' hw'
    obtain ⟨hc, hor⟩ := hl.kids q w' hw'
    refine ⟨⟨hc.parent, hc.two, hc.lt⟩, ?_⟩
    rw [called_snoc (s := s) (e := ⟨p, w, true, status⟩) rfl]
    by_cases heq : q = p ∧ w' = w
    · obtain ⟨rfl, rfl⟩ := heq
      exact .inr (.inr ⟨rfl, rfl, rfl⟩)
    · rw [← hphase q w' heq] at hor
      exact hor.imp id .inl
  · intro q w' hw'
    replace hw' : ((Function.update s.procs p ⟨.user, a, b⟩ q).phase w').early = true := hw'
    by_cases heq : q = p ∧ w' = w
    · obtain ⟨rfl, rfl⟩ := heq
      rw [hself, hgone] at hw'
      cases hw'
    · rw [hphase q w' heq] at hw'
      exact hl.early q w' hw'
  · intro q w' hw'
    replace hw' : ((Function.update s.procs p ⟨.user, a, b⟩ q).phase w').keeps = true := hw'
    rw [called_snoc (s := s) (e := ⟨p, w, true, status⟩) rfl]
    by_cases heq : q = p ∧ w' = w
    · obtain ⟨rfl, rfl⟩ := heq
      rw [hself, hgone] at hw'
      cases hw'
    · rw [hphase q w' heq] at hw'
      obtain ⟨h1, h2⟩ := hl.keeps q w' hw'
      refine ⟨h1, ?_⟩
      rintro (hc | ⟨hq, ht, -⟩)
      · exact h2 hc
      · exact heq ⟨hq.symm, (Int.ofNat.inj ht).symm⟩
  · intro e he hk
    rcases List.mem_append.mp he with hold | hnew
    · obtain ⟨w', ht, hw', hf⟩ := hl.called e hold hk
      exact ⟨w', ht, hw', hfin w' hf⟩
    · rw [List.mem_singleton.mp hnew]
      exact ⟨w, rfl, hkid, hfin w hfinw⟩
  · refine hl.answers.snoc (fun _ => hstatus) fun hnot => ?_
    exact absurd ⟨rfl, fun e' he' heq => hnc ⟨e', he', heq⟩⟩ hnot

/-- A call returns at once. -/
theorem LogInv.notFound {tid : Int} (hl : LogInv s) (hP : s.procs p = ⟨.user, a, b⟩)
    (hnot : ∀ w ∈ b, (w : Int) ≠ tid) :
    LogInv { s with log := s.log ++ [⟨p, tid, s.isKid p tid, -1⟩] } := by
  -- a child that is not in the list any more has been waited for
  have hdone : ∀ w : Nat, s.isKid p tid = true → tid = (w : Int) → w ∈ s.kids p ∧ Called s p w := by
    intro w hkid ht
    obtain ⟨w', hw', heq⟩ := List.any_eq_true.mp hkid
    have heq : (w' : Int) = tid := of_decide_eq_true heq
    rw [ht] at heq
    rw [Int.ofNat.inj heq] at hw'
    refine ⟨hw', (hl.kids p w hw').2.resolve_left ?_⟩
    have hb : w ∉ b := fun hc => hnot w hc ht.symm
    rw [hP]
    simp [Proc.phase, Pc.phase, hb, Phase.keeps]
  refine ⟨?_, hl.early, ?_, ?_, ?_⟩
  · intro q w hw
    obtain ⟨hc, hor⟩ := hl.kids q w hw
    refine ⟨⟨hc.parent, hc.two, hc.lt⟩, ?_⟩
    rw [called_snoc (s := s) (e := ⟨p, tid, s.isKid p tid, -1⟩) rfl]
    exact hor.imp id .inl
  · intro q w hw
    rw [called_snoc (s := s) (e := ⟨p, tid, s.isKid p tid, -1⟩) rfl]
    refine ⟨(hl.keeps q w hw).1, ?_⟩
    rintro (hc | ⟨hq, ht, hk⟩)
    · exact (hl.keeps q w hw).2 hc
    · have hq : p = q := hq
      subst hq
      exact (hl.keeps p w hw).2 (hdone w hk ht).2
  · intro e he hk
    rcases List.mem_append.mp he with hold | hnew
    · exact hl.called e hold hk
    · rw [List.mem_singleton.mp hnew] at hk ⊢
      obtain ⟨w, -, heq⟩ := List.any_eq_true.mp hk
      have heq : (w : Int) = tid := of_decide_eq_true heq
      obtain ⟨hw, e', he', rfl, ht, hk'⟩ := hdone w hk heq.symm
      obtain ⟨w', ht', -, hfin⟩ := hl.called e' he' hk'
      rw [ht] at ht'
      cases Int.ofNat.inj ht'
      exact ⟨w, heq.symm, hw, hfin⟩
  · refine hl.answers.snoc (fun hfirst => ?_) (fun _ => rfl)
    obtain ⟨w, -, heq⟩ := List.any_eq_true.mp hfirst.1
    have heq : (w : Int) = tid := of_decide_eq_true heq
    obtain ⟨-, e', he', hcall, ht, hk'⟩ := hdone w hfirst.1 heq.symm
    exact absurd ⟨hcall, ht.trans heq, hk'⟩ (hfirst.2 e' he')

end Step

/-- One step of a run. -/
theorem LogInv.step {a : Act} (hl : LogInv s) (h : Inv s) (hmeets : Meets s a)
    (hstep : step s a = some s') : LogInv s' := by
  unfold Userprog.step at hstep
  rw [h.fault] at hstep
  cases a with
  | exec p created =>
      cases hmeets
      simp only [Bool.false_eq_true, if_false] at hstep
      split at hstep
      · next hpc =>
        cases hstep
        exact hl.quiet (Quiet.exec h (proc_eq hpc))
      · cases hstep
  | load p success =>
      simp only [Bool.false_eq_true, if_false] at hstep
      split at hstep
      · next hpc => exact hl.quiet (Quiet.startProcess (proc_eq hpc) hstep)
      · cases hstep
  | wait p tid =>
      simp only [Bool.false_eq_true, if_false] at hstep
      split at hstep
      · next hpc =>
        cases hstep
        rcases h.wait_cases tid (proc_eq hpc) with ⟨w, hw, -, heq⟩ | ⟨hnot, heq⟩
        · rw [heq]
          exact hl.quiet (Quiet.movePc (proc_eq hpc) (fun w' => ⟨rfl, id⟩) id)
        · rw [heq]
          exact hl.notFound (proc_eq hpc) hnot
      · cases hstep
  | exit p status =>
      simp only [Bool.false_eq_true, if_false] at hstep
      split at hstep
      · next w hpc hw =>
        have hfin : (s.procs p).progress.finished = false := by
          rw [proc_eq hpc]
          rfl
        rcases use_cases hstep with rfl | hstep
        · exact hl.quiet (Quiet.crash s)
        · cases hstep
          exact hl.quiet ((Quiet.leave (proc_eq hpc)).record hfin)
      · cases hstep
  | kill p =>
      simp only [Bool.false_eq_true, if_false] at hstep
      split at hstep
      · next hpc =>
        cases hstep
        exact hl.quiet (Quiet.leave (proc_eq hpc))
      · cases hstep
  | go p =>
      have hgo : advance s p = some s' := hstep
      cases hP : (s.procs p).pc with
      | execPush w => exact hl.execPush h (proc_eq hP) hgo
      | waitFree w status => exact hl.waitFree h (proc_eq hP) hgo
      | _ =>
          refine hl.quiet (Quiet.advance h (proc_eq hP) (fun _ hc => ?_) (fun _ _ hc => ?_) hgo)
          · cases hc
          · cases hc

/-- The log is empty at the start. -/
theorem LogInv.init : LogInv St.init where
  kids _ _ hw := by cases hw
  early _ _ _ hc := by cases hc
  keeps p w hw := by
    by_cases hp : p = mainThread
    · subst hp
      cases hw
    · have hP : St.init.procs p = ⟨.absent, none, []⟩ := by simp [St.init, hp]
      rw [hP] at hw
      cases hw
  called _ he := by cases he
  answers before e after heq := by
    cases before <;> cases heq

/-! ## The contract -/

/-- A call of `process_wait` that is at the semaphore needs three steps to return. -/
def Returns (s : St) (p w : Nat) : Prop :=
  ∃ s₁ s₂ s₃, step s (.go p) = some s₁ ∧ step s₁ (.go p) = some s₂ ∧ step s₂ (.go p) = some s₃ ∧
    (s₃.procs p).pc = .user ∧ s₃.log = s.log ++ [⟨p, w, true, s.code w⟩]

/-- What should hold of every state of a run. -/
structure Contract (s : St) : Prop where
  /-- no struct is touched after it was freed -/
  safe : s.fault = false
  /-- or freed twice -/
  once : ∀ w, 2 ≤ w → w < s.next → (s.ws w).frees ≤ 1
  /-- it is freed when parent and child are no more -/
  reclaimed : ∀ w, 2 ≤ w → w < s.next → (s.procs (s.parent w)).pc = .dead →
    (s.procs w).pc = .dead ∨ (s.procs w).pc = .absent → (s.ws w).frees = 1
  /-- the calls of `process_wait` that have returned have returned the right value -/
  answers : Answers s.log s.code
  /-- a call for a child that has exited returns -/
  returns : ∀ p w, (s.procs p).pc = .waitDown w → (s.procs w).pc = .dead → Returns s p w

/-- Parents have no business with the structs of their children any more. -/
theorem Inv.dead (h : Inv s) (h2 : 2 ≤ w) (hlt : w < s.next)
    (hdead : (s.procs (s.parent w)).pc = .dead) : (s.ws w).frees = 1 := by
  have hpc := (h.procs (s.parent w)).pc
  unfold PcOk at hpc
  rw [hdead] at hpc
  have hgone : (s.procs (s.parent w)).phase w = .gone := by
    rw [proc_eq hdead, hpc]
    rfl
  exact ((h.pairs w h2 hlt).gone hgone).1

theorem Inv.once (h : Inv s) (h2 : 2 ≤ w) (hlt : w < s.next) : (s.ws w).frees ≤ 1 := by
  have hpair := h.pairs w h2 hlt
  by_cases hgone : (s.procs (s.parent w)).phase w = .gone
  · exact Nat.le_of_eq (hpair.gone hgone).1
  · rw [hpair.there hgone]
    exact Nat.zero_le 1

section Call

variable {a : Option Nat} {b : List Nat} (hfault : s.fault = false) (hthere : (s.ws w).frees = 0)

include hfault hthere

theorem step_waitDown (hP : s.procs p = ⟨.waitDown w, a, b⟩) (hpos : (s.ws w).sema ≠ 0) :
    step s (.go p) = some ((s.setProc p ⟨.waitTake w, a, b⟩).setWs w
      { s.ws w with sema := (s.ws w).sema - 1 }) := by
  simp [step, hfault, advance, hP, use_eq hthere, hpos, St.setPc]

theorem step_waitTake (hP : s.procs p = ⟨.waitTake w, a, b⟩) :
    step s (.go p) = some (s.setProc p ⟨.waitFree w (s.ws w).exitCode, a, b.erase w⟩) := by
  simp [step, hfault, advance, hP, use_eq hthere]

theorem step_waitFree {v : Int} (hP : s.procs p = ⟨.waitFree w v, a, b⟩) :
    step s (.go p) = some { (s.free w).setProc p ⟨.user, a, b⟩ with
      log := s.log ++ [⟨p, w, true, v⟩] } := by
  simp [step, hfault, advance, hP, use_eq hthere, St.setPc]

end Call

/-- The semaphore is up when the child has exited. -/
theorem Inv.returns (h : Inv s) (hpc : (s.procs p).pc = .waitDown w)
    (hdead : (s.procs w).pc = .dead) : Returns s p w := by
  have hok := h.procs p
  have hP := proc_eq hpc
  generalize (s.procs p).waitStatus = a at hP
  generalize (s.procs p).children = b at hP
  rw [hP] at hok
  have hwb : w ∈ b := hok.pc
  have hpair := h.pair (hok.children w hwb)
  have hph : (s.procs p).phase w = .listed := by simp [hP, Proc.phase, Pc.phase, hwb]
  rw [hph] at hpair
  have hthere := hpair.there (by decide)
  have hatt := hpair.attached rfl
  have hsema := hpair.sema (by decide)
  have hprog : (s.procs w).progress.ups = 2 := by
    rw [proc_eq hdead] at hatt ⊢
    cases hws : (s.procs w).waitStatus with
    | none =>
        rw [hws] at hatt
        cases hatt
    | some _ => rfl
  have hpos : (s.ws w).sema ≠ 0 := by
    simp only [Phase.downs] at hsema
    omega
  have hcode := hpair.code (by decide)
  refine ⟨_, _, _, step_waitDown h.fault hthere hP hpos,
    step_waitTake (w := w) (a := a) (b := b) ?_ ?_ ?_,
    step_waitFree (w := w) (a := a) (b := b.erase w) (v := s.code w) ?_ ?_ ?_, ?_, rfl⟩
  · exact h.fault
  · simp [St.setWs, hthere]
  · simp [St.setWs, St.setProc]
  · exact h.fault
  · simp [St.setWs, St.setProc, hthere]
  · simp [St.setWs, St.setProc, hcode]
  · simp [St.setProc]

theorem Inv.contract (h : Inv s) (hl : LogInv s) : Contract s where
  safe := h.fault
  once _ h2 hlt := h.once h2 hlt
  reclaimed _ h2 hlt hdead _ := h.dead h2 hlt hdead
  answers := hl.answers
  returns _ _ hpc hdead := h.returns hpc hdead

/-- A step of a run. -/
def Step (s s' : St) : Prop := ∃ a, step s a = some s'

/-- A step that meets the condition. -/
def GoodStep (s s' : St) : Prop := ∃ a, Meets s a ∧ step s a = some s'

/-- In a run in which threads can be created and nobody exits with a child it has not
waited for, every state keeps the contract. -/
theorem wait_contract {s : St} (hrun : Relation.ReflTransGen GoodStep St.init s) : Contract s := by
  have hInv : Inv s ∧ LogInv s := by
    refine Threads.invariant_of_step (I := fun s => Inv s ∧ LogInv s) hrun ⟨Inv.init, LogInv.init⟩ ?_
    rintro s s' ⟨h, hl⟩ ⟨a, hmeets, hstep⟩
    exact ⟨h.step hmeets hstep, hl.step h hmeets hstep⟩
  exact hInv.1.contract hInv.2

/-! ## Two runs -/

instance (s : St) : (a : Act) → Decidable (Meets s a)
  | .exec _ created => inferInstanceAs (Decidable (created = true))
  | .exit p _ | .kill p => inferInstanceAs (Decidable ((s.procs p).children = []))
  | .load _ _ | .wait _ _ | .go _ => inferInstanceAs (Decidable True)

/-- The steps of a list, one after the other, if all are possible and pass the test. -/
def runs (test : St → Act → Bool) (s : St) : List Act → Option St
  | [] => some s
  | a :: rest => if test s a then (step s a).bind fun s' => runs test s' rest else none

/-- A list of acts, each of which passes a test, as steps. -/
theorem steps_of_runs {test : St → Act → Bool} {R : St → St → Prop}
    (hR : ∀ s a s', test s a = true → step s a = some s' → R s s') {as : List Act} {s : St}
    (h : runs test s as = some s') : Relation.ReflTransGen R s s' := by
  induction as generalizing s with
  | nil =>
      cases h
      exact .refl
  | cons a rest ih =>
      simp only [runs] at h
      split at h
      · next ht =>
        obtain ⟨s₁, h₁, h₂⟩ := Option.bind_eq_some_iff.mp h
        exact .head (hR s a s₁ ht h₁) (ih h₂)
      · cases h

/-- `p` executes a program, which loads as `w`. -/
def execActs (p w : Nat) : List Act :=
  [.exec p true, .load w true, .go w, .go p, .go p, .go p]

/-- The first thread waits twice for its child, which exits with code 7 in between. -/
theorem wait_contract_small : ∃ s, Relation.ReflTransGen GoodStep St.init s ∧
    s.log = [⟨1, 2, true, 7⟩, ⟨1, 2, true, -1⟩] ∧ Contract s := by
  have hlog : (runs (fun s a => decide (Meets s a)) St.init (execActs 1 2 ++
      [.wait 1 2, .exit 2 7, .go 2, .go 2, .go 2, .go 2, .go 2, .go 1, .go 1, .go 1, .wait 1 2])).map
        St.log = some [⟨1, 2, true, 7⟩, ⟨1, 2, true, -1⟩] := by
    decide +kernel
  obtain ⟨s, hs, hlog⟩ := Option.map_eq_some_iff.mp hlog
  have hrun : Relation.ReflTransGen GoodStep St.init s :=
    steps_of_runs (fun _ a _ ht h => ⟨a, of_decide_eq_true ht, h⟩) hs
  exact ⟨s, hrun, hlog, wait_contract hrun⟩

/-- A process exits with a child it has not waited for.  Its loop over the children frees
its own struct, which its parent then looks at. -/
theorem contract_fails : ¬ ∀ s, Relation.ReflTransGen Step St.init s → Contract s := by
  intro h
  have hfault : (runs (fun _ _ => true) St.init (execActs 1 2 ++ execActs 2 3 ++
      [.exit 2 0, .go 2, .go 2, .go 2, .go 2, .go 2, .go 2, .go 2, .wait 1 2])).map St.fault
        = some true := by
    decide +kernel
  obtain ⟨s, hs, hfault⟩ := Option.map_eq_some_iff.mp hfault
  have hsafe := (h s (steps_of_runs (fun _ a _ _ h => ⟨a, h⟩) hs)).safe
  rw [hsafe] at hfault
  cases hfault

end CS162.Userprog
