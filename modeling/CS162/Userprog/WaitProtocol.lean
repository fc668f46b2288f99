/-
# `CS162.Userprog.WaitProtocol` — who may still touch a `struct wait_status`

A struct is shared by a parent and a child.  `Proc.phase` is what the parent's
program counter and list say about it, `Proc.progress` what the child's program
counter says; `Pair` relates the two through the semaphore: it is up once for
loading and once for exiting, and the parent has taken down as many of these as its
phase says.  So when the parent is past the second `sema_down` the child is past its
last access, and the struct is the parent's alone.

That argument needs that nobody else touches the struct.  `process_exit` does: its
loop over the children's structs locks and decrements the exiting process's own
struct, once for each child that was not waited for.  And a struct whose thread could
not be created is never freed.  `Meets` is the condition on a step that keeps both
out: `thread_create` succeeds, and a process that exits has no child left.
-/
import CS162.Userprog.Wait

namespace CS162.Userprog

/-! ## Views of a struct -/

/-- How far a parent is with a struct. -/
inductive Phase where
  | starting
  | checking
  | pushing
  | listed
  | taking
  | freeing
  | gone
  deriving DecidableEq

def Pc.phase (w : Nat) : Pc → Phase
  | .execDown w' => if w' = w then .starting else .gone
  | .execCheck w' => if w' = w then .checking else .gone
  | .execPush w' => if w' = w then .pushing else .gone
  | .waitTake w' => if w' = w then .taking else .gone
  | .waitFree w' _ => if w' = w then .freeing else .gone
  | .absent | .user | .loading _ | .failUp _ | .okUp _ | .waitDown _ | .exitLock _ | .exitDec _
  | .exitRelease _ | .exitUp _ | .loopLock _ | .loopDec _ | .loopRelease _ | .dead => .gone

def Proc.phase (P : Proc) (w : Nat) : Phase :=
  if P.pc.phase w = .gone then (if w ∈ P.children then .listed else .gone) else P.pc.phase w

/-- How often the parent has taken the semaphore down. -/
def Phase.downs : Phase → Nat
  | .starting | .gone => 0
  | .checking | .pushing | .listed => 1
  | .taking | .freeing => 2

/-- The child is known to have been loaded. -/
def Phase.attached : Phase → Bool
  | .pushing | .listed | .taking | .freeing => true
  | .starting | .checking | .gone => false

/-- The child can be waited for. -/
def Phase.keeps : Phase → Bool
  | .listed | .taking | .freeing => true
  | .starting | .checking | .pushing | .gone => false

/-- How far a child is with its own struct. -/
structure Progress where
  ups : Nat
  refs : Int
  locked : Bool
  attached : Bool
  finished : Bool
  deriving DecidableEq

def Proc.progress (P : Proc) : Progress :=
  match P.pc with
  | .loading _ | .failUp _ | .okUp _ => ⟨0, 2, false, P.waitStatus.isSome, false⟩
  | .absent | .user | .execDown _ | .execCheck _ | .execPush _ | .waitDown _ | .waitTake _
  | .waitFree _ _ | .exitLock _ => ⟨1, 2, false, P.waitStatus.isSome, false⟩
  | .exitDec _ => ⟨1, 2, true, P.waitStatus.isSome, false⟩
  | .exitRelease _ => ⟨1, 1, true, P.waitStatus.isSome, false⟩
  | .exitUp _ => ⟨1, 1, false, P.waitStatus.isSome, false⟩
  | .loopLock _ | .loopDec _ | .loopRelease _ | .dead =>
      if P.waitStatus.isSome then ⟨2, 1, false, true, true⟩ else ⟨1, 2, false, false, true⟩

/-- The struct `w` between its parent's phase and its child's progress. -/
structure Pair (w : Nat) (ph : Phase) (c : Progress) (W : WaitStatus) (code : Int) : Prop where
  gone : ph = .gone → W.frees = 1 ∧ c.finished = true
  there : ph ≠ .gone → W.frees = 0
  sema : ph ≠ .gone → W.sema + ph.downs = c.ups
  refs : ph ≠ .gone → W.refCnt = c.refs
  lock : ph ≠ .gone → W.lock = if c.locked then some w else none
  loaded : ph ≠ .gone → W.loaded = c.attached
  code : ph ≠ .gone → W.exitCode = code
  attached : ph.attached = true → c.attached = true
  named : ph.keeps = true → W.childTid = w

/-! ## The invariant -/

/-- `w` is the name of a child of `p`. -/
structure Child (s : St) (p w : Nat) : Prop where
  parent : s.parent w = p
  two : 2 ≤ w
  lt : w < s.next

/-- What has to be so for a process at this place in the code: which relationship it is about to use,
and whether that is in its list. -/
def PcOk (s : St) (p : Nat) (P : Proc) : Prop :=
  match P.pc with
  | .absent | .user => True
  | .execDown w | .execCheck w | .execPush w => Child s p w ∧ w ∉ P.children
  | .waitFree w status => Child s p w ∧ w ∉ P.children ∧ status = s.code w
  | .loading w | .failUp w => w = p ∧ 2 ≤ p ∧ P.waitStatus = none ∧ P.children = []
  | .okUp w => w = p ∧ P.waitStatus = some p ∧ P.children = []
  | .waitDown w | .waitTake w => w ∈ P.children
  | .exitLock w | .exitDec w | .exitRelease w | .exitUp w =>
      w = p ∧ P.waitStatus = some p ∧ P.children = []
  | .loopLock rest => rest = [] ∧ P.children = []
  | .loopDec _ | .loopRelease _ => False
  | .dead => P.children = []

/-- The places of a process that has no struct: before it is loaded, and when it
could not be. -/
def Pc.bare : Pc → Bool
  | .loading _ | .failUp _ | .loopLock _ | .dead => true
  | .absent | .user | .execDown _ | .execCheck _ | .execPush _ | .okUp _ | .waitDown _ | .waitTake _
  | .waitFree _ _ | .exitLock _ | .exitDec _ | .exitRelease _ | .exitUp _ | .loopDec _
  | .loopRelease _ => false

structure ProcOk (s : St) (p : Nat) (P : Proc) : Prop where
  pc : PcOk s p P
  bare : 2 ≤ p → p < s.next → P.waitStatus = none → P.pc.bare = true
  nodup : P.children.Nodup
  children : ∀ w ∈ P.children, Child s p w
  own : ∀ w, P.waitStatus = some w → w = p ∧ 2 ≤ p

structure Inv (s : St) : Prop where
  fault : s.fault = false
  two : 2 ≤ s.next
  absent : ∀ p, s.next ≤ p → s.procs p = ⟨.absent, none, []⟩
  fresh : ∀ p, s.next ≤ p → s.code p = -1
  older : ∀ w, 2 ≤ w → w < s.next → s.parent w < w
  procs : ∀ p, ProcOk s p (s.procs p)
  pairs : ∀ w, 2 ≤ w → w < s.next →
    Pair w ((s.procs (s.parent w)).phase w) (s.procs w).progress (s.ws w) (s.code w)

variable {s s' : St} {p w : Nat} {P : Proc} {W : WaitStatus}

/-- Names stay names of children, and no exit code that is being returned changes. -/
theorem ProcOk.mono (h : ProcOk s p P) (hc : ∀ w, Child s p w → Child s' p w)
    (hlt : p < s'.next → p < s.next)
    (hcode : ∀ w status, P.pc = .waitFree w status → s'.code w = s.code w) : ProcOk s' p P := by
  refine ⟨?_, fun h2 hp => h.bare h2 (hlt hp), h.nodup, fun w hw => hc w (h.children w hw), h.own⟩
  have hpc := h.pc
  unfold PcOk at hpc ⊢
  cases hP : P.pc with
  | execDown w | execCheck w | execPush w =>
      rw [hP] at hpc
      exact ⟨hc w hpc.1, hpc.2⟩
  | waitFree w status =>
      rw [hP] at hpc
      exact ⟨hc w hpc.1, hpc.2.1, by rw [hcode w status hP]; exact hpc.2.2⟩
  | _ =>
      rw [hP] at hpc
      exact hpc

theorem ProcOk.congr (h : ProcOk s p P) (hnext : s'.next = s.next) (hparent : s'.parent = s.parent)
    (hcode : s'.code = s.code) : ProcOk s' p P := by
  refine h.mono (fun w hw => ?_) (fun hlt => by rw [← hnext]; exact hlt) (fun w _ _ => by rw [hcode])
  exact ⟨by rw [hparent]; exact hw.parent, hw.two, by rw [hnext]; exact hw.lt⟩

namespace Inv

variable (h : Inv s)

include h

/-- A process that does something exists. -/
theorem lt_next (hpc : (s.procs p).pc ≠ .absent) : p < s.next := by
  by_contra hge
  rw [h.absent p (by omega)] at hpc
  exact hpc rfl

/-- A parent is not its own child. -/
theorem ne_child (hw : Child s p w) : w ≠ p := by
  have := h.older w hw.two hw.lt
  rw [hw.parent] at this
  omega

theorem pair (hw : Child s p w) :
    Pair w ((s.procs p).phase w) (s.procs w).progress (s.ws w) (s.code w) := by
  have := h.pairs w hw.two hw.lt
  rwa [hw.parent] at this

/-- One process moves, and one struct changes. -/
theorem move (hp : p < s.next) (hP : ProcOk s p P)
    (hphase : ∀ w', w' ≠ w → P.phase w' = (s.procs p).phase w')
    (hprog : p ≠ w → P.progress = (s.procs p).progress)
    (hpair : 2 ≤ w → w < s.next → Pair w ((Function.update s.procs p P (s.parent w)).phase w)
      (Function.update s.procs p P w).progress W (s.code w)) :
    Inv ((s.setProc p P).setWs w W) := by
  refine ⟨h.fault, h.two, ?_, h.fresh, h.older, ?_, ?_⟩
  · intro q hq
    have hne : q ≠ p := by
      rintro rfl
      exact absurd hq (Nat.not_le.mpr hp)
    show Function.update s.procs p P q = _
    rw [Function.update_of_ne hne]
    exact h.absent q hq
  · intro q
    by_cases hq : q = p
    · subst hq
      show ProcOk _ q (Function.update s.procs q P q)
      rw [Function.update_self]
      exact hP.congr rfl rfl rfl
    · show ProcOk _ q (Function.update s.procs p P q)
      rw [Function.update_of_ne hq]
      exact (h.procs q).congr rfl rfl rfl
  · intro w' h2 hlt
    show Pair w' ((Function.update s.procs p P (s.parent w')).phase w')
      (Function.update s.procs p P w').progress (Function.update s.ws w W w') (s.code w')
    by_cases hw : w' = w
    · subst hw
      rw [Function.update_self]
      exact hpair h2 hlt
    · have hold := h.pairs w' h2 hlt
      have e1 : (Function.update s.procs p P (s.parent w')).phase w'
          = (s.procs (s.parent w')).phase w' := by
        by_cases hq : s.parent w' = p
        · rw [hq, Function.update_self]
          exact hphase w' hw
        · rw [Function.update_of_ne hq]
      have e2 : (Function.update s.procs p P w').progress = (s.procs w').progress := by
        by_cases hq : w' = p
        · subst hq
          rw [Function.update_self]
          exact hprog hw
        · rw [Function.update_of_ne hq]
      rw [e1, e2, Function.update_of_ne hw]
      exact hold

/-- A process moves with its own struct. -/
theorem own (h2 : 2 ≤ p) (hp : p < s.next) (hP : ProcOk s p P)
    (hphase : ∀ w', w' ≠ p → P.phase w' = (s.procs p).phase w')
    (hpair : Pair p ((s.procs (s.parent p)).phase p) P.progress W (s.code p)) :
    Inv ((s.setProc p P).setWs p W) := by
  refine h.move hp hP hphase (fun hne => absurd rfl hne) fun _ _ => ?_
  have hne : s.parent p ≠ p := Nat.ne_of_lt (h.older p h2 hp)
  rw [Function.update_self, Function.update_of_ne hne]
  exact hpair

/-- A process moves with the struct of a child. -/
theorem child (hp : p < s.next) (hw : Child s p w) (hP : ProcOk s p P)
    (hphase : ∀ w', w' ≠ w → P.phase w' = (s.procs p).phase w')
    (hprog : P.progress = (s.procs p).progress)
    (hpair : Pair w (P.phase w) (s.procs w).progress W (s.code w)) :
    Inv ((s.setProc p P).setWs w W) := by
  refine h.move hp hP hphase (fun _ => hprog) fun _ _ => ?_
  rw [hw.parent, Function.update_self, Function.update_of_ne (h.ne_child hw)]
  exact hpair

end Inv

theorem setWs_self (s : St) (w : Nat) : s.setWs w (s.ws w) = s := by
  unfold St.setWs
  rw [Function.update_eq_self]

@[simp] theorem free_procs (s : St) (w : Nat) : (s.free w).procs = s.procs := rfl

/-- The invariant is not about `log` and `kids`. -/
theorem Inv.congr (h : Inv s) (hprocs : s'.procs = s.procs) (hws : s'.ws = s.ws)
    (hnext : s'.next = s.next) (hfault : s'.fault = s.fault) (hcode : s'.code = s.code)
    (hparent : s'.parent = s.parent) : Inv s' := by
  refine ⟨by rw [hfault]; exact h.fault, by rw [hnext]; exact h.two, ?_, ?_, ?_, ?_, ?_⟩
  · intro q hq
    rw [hnext] at hq
    rw [hprocs]
    exact h.absent q hq
  · intro q hq
    rw [hnext] at hq
    rw [hcode]
    exact h.fresh q hq
  · intro w h2 hlt
    rw [hnext] at hlt
    rw [hparent]
    exact h.older w h2 hlt
  · intro q
    rw [hprocs]
    exact (h.procs q).congr hnext hparent hcode
  · intro w h2 hlt
    rw [hnext] at hlt
    rw [hprocs, hws, hcode, hparent]
    exact h.pairs w h2 hlt

/-- A process moves, and no struct changes. -/
theorem Inv.alone (h : Inv s) (hp : p < s.next) (hP : ProcOk s p P)
    (hphase : ∀ w', P.phase w' = (s.procs p).phase w')
    (hprog : P.progress = (s.procs p).progress) : Inv (s.setProc p P) := by
  have hmove : Inv ((s.setProc p P).setWs p (s.ws p)) := by
    refine h.move hp hP (fun w' _ => hphase w') (fun _ => hprog) fun h2 hlt => ?_
    have hne : s.parent p ≠ p := Nat.ne_of_lt (h.older p h2 hlt)
    rw [Function.update_self, Function.update_of_ne hne, hprog]
    exact h.pairs p h2 hlt
  have hws : (s.setProc p P).ws p = s.ws p := rfl
  rw [← hws, setWs_self] at hmove
  exact hmove

/-! ## Steps -/

/-- Following a pointer that can be followed. -/
theorem use_eq {k : WaitStatus → Option St} (hw : (s.ws w).frees = 0) :
    s.use w k = k (s.ws w) := if_pos hw

/-- A child that the semaphore says is done is done. -/
theorem finished_of_two {P : Proc} (hu : 2 ≤ P.progress.ups) : P.progress.finished = true := by
  unfold Proc.progress at hu ⊢
  cases hP : P.pc <;> rw [hP] at hu <;> simp only at hu ⊢ <;> (try omega) <;> split <;> rfl

/-- So is one that was not loaded and has said so. -/
theorem finished_of_failed {P : Proc} (hbare : P.waitStatus = none → P.pc.bare = true)
    (hu : 1 ≤ P.progress.ups) (ha : P.progress.attached = false) : P.progress.finished = true := by
  obtain ⟨pc, ws, ch⟩ := P
  cases ws with
  | none =>
      have hb := hbare rfl
      cases pc with
      | loading w => exact absurd hu (by simp [Proc.progress])
      | failUp w => exact absurd hu (by simp [Proc.progress])
      | loopLock rest => rfl
      | dead => rfl
      | _ => cases hb
  | some w => cases pc <;> cases ha

namespace Pair

variable {ph ph' : Phase} {c c' : Progress} {code code' : Int} (h : Pair w ph c W code)

include h

/-- The parent goes on. -/
theorem parent (hne : ph ≠ .gone) (hne' : ph' ≠ .gone) {n t : Nat} (hsema : n + ph'.downs = c.ups)
    (hatt : ph'.attached = true → c.attached = true) (hname : ph'.keeps = true → t = w) :
    Pair w ph' c { W with sema := n, childTid := t } code where
  gone hc := absurd hc hne'
  there _ := h.there hne
  sema _ := hsema
  refs _ := h.refs hne
  lock _ := h.lock hne
  loaded _ := h.loaded hne
  code _ := h.code hne
  attached := hatt
  named := hname

/-- The parent frees the struct. -/
theorem free (hne : ph ≠ .gone) (hfin : c.finished = true) :
    Pair w .gone c { W with frees := W.frees + 1 } code where
  gone _ := ⟨by show W.frees + 1 = 1; rw [h.there hne], hfin⟩
  there hc := absurd rfl hc
  sema hc := absurd rfl hc
  refs hc := absurd rfl hc
  lock hc := absurd rfl hc
  loaded hc := absurd rfl hc
  code hc := absurd rfl hc
  attached hc := by cases hc
  named hc := by cases hc

/-- A child that is not done keeps the struct alive. -/
theorem ne_gone (hfin : c.finished = false) : ph ≠ .gone := by
  rintro rfl
  rw [(h.gone rfl).2] at hfin
  cases hfin

/-- The child goes on. -/
theorem child (hfin : c.finished = false) {W' : WaitStatus} (hfrees : W'.frees = W.frees)
    (hname : W'.childTid = W.childTid) (hsema : W'.sema + c.ups = W.sema + c'.ups)
    (hrefs : W'.refCnt = c'.refs) (hlock : W'.lock = if c'.locked then some w else none)
    (hloaded : W'.loaded = c'.attached) (hcode : W'.exitCode = code')
    (hatt : c.attached = true → c'.attached = true) : Pair w ph c' W' code' where
  gone hc := absurd hc (h.ne_gone hfin)
  there hc := hfrees.trans (h.there hc)
  sema hc := by
    have := h.sema hc
    omega
  refs _ := hrefs
  lock _ := hlock
  loaded _ := hloaded
  code _ := hcode
  attached hc := hatt (h.attached hc)
  named hc := hname.trans (h.named hc)

end Pair

theorem proc_eq {pc : Pc} (hpc : (s.procs p).pc = pc) :
    s.procs p = ⟨pc, (s.procs p).waitStatus, (s.procs p).children⟩ := by
  rw [← hpc]

/-! ### The parent's steps -/

section Parent

variable {pc : Pc} {a : Option Nat} {b : List Nat}

/-- A process in the middle of a call moves with the struct of a child. -/
theorem Inv.caller (h : Inv s) (hP : s.procs p = ⟨pc, a, b⟩) (hbare : pc.bare = false)
    (habsent : pc ≠ .absent) (hw : Child s p w) {pc' : Pc} {b' : List Nat}
    (hpc : PcOk s p ⟨pc', a, b'⟩) (hnodup : b'.Nodup) (hch : ∀ w ∈ b', Child s p w)
    (hphase : ∀ w', w' ≠ w → Proc.phase ⟨pc', a, b'⟩ w' = Proc.phase ⟨pc, a, b⟩ w')
    (hprog : Proc.progress ⟨pc', a, b'⟩ = Proc.progress ⟨pc, a, b⟩)
    (hpair : Pair w (Proc.phase ⟨pc', a, b'⟩ w) (s.procs w).progress W (s.code w)) :
    Inv ((s.setProc p ⟨pc', a, b'⟩).setWs w W) := by
  have hok := h.procs p
  rw [hP] at hok
  refine h.child (h.lt_next (by rw [hP]; exact habsent)) hw ⟨hpc, fun h2 h3 hn => ?_, hnodup, hch,
    hok.own⟩ (fun w' hne => by rw [hP]; exact hphase w' hne) (by rw [hP]; exact hprog) hpair
  have hb := hok.bare h2 h3 hn
  rw [show (Proc.mk pc a b).pc = pc from rfl, hbare] at hb
  cases hb

/-- `process_execute` comes past `sema_down`: the child has reported whether it could be loaded. -/
theorem Inv.execDown (h : Inv s) (hP : s.procs p = ⟨.execDown w, a, b⟩)
    (hstep : advance s p = some s') : Inv s' := by
  have hok := h.procs p
  rw [hP] at hok
  obtain ⟨hw, hch⟩ := hok.pc
  have hpair := h.pair hw
  have hph : (s.procs p).phase w = .starting := by simp [hP, Proc.phase, Pc.phase]
  rw [hph] at hpair
  have hsema := hpair.sema (by decide)
  simp only [advance, hP, use_eq (hpair.there (by decide)), St.setPc] at hstep
  split at hstep
  · cases hstep
  · next hpos =>
    cases hstep
    have hph' : Proc.phase ⟨.execCheck w, a, b⟩ w = .checking := by simp [Proc.phase, Pc.phase]
    refine h.caller hP rfl (by simp) hw ⟨hw, hch⟩ hok.nodup hok.children (fun w' hne => ?_) rfl ?_
    · simp [Proc.phase, Pc.phase, hne.symm]
    · rw [hph']
      refine hpair.parent (by decide) (by decide) ?_ (fun hc => by cases hc) (fun hc => by cases hc)
      simp only [Phase.downs] at hsema ⊢
      omega

/-- It looks at the report; the struct of a child that could not be loaded is freed. -/
theorem Inv.execCheck (h : Inv s) (hP : s.procs p = ⟨.execCheck w, a, b⟩)
    (hstep : advance s p = some s') : Inv s' := by
  have hok := h.procs p
  rw [hP] at hok
  obtain ⟨hw, hch⟩ := hok.pc
  have hwb : w ∉ b := hch
  have hpair := h.pair hw
  have hph : (s.procs p).phase w = .checking := by simp [hP, Proc.phase, Pc.phase]
  rw [hph] at hpair
  have hloaded := hpair.loaded (by decide)
  have hsema := hpair.sema (by decide)
  simp only [advance, hP, use_eq (hpair.there (by decide)), St.setPc, free_procs] at hstep
  split at hstep
  · next hl =>
    cases hstep
    have hph' : Proc.phase ⟨.execPush w, a, b⟩ w = .pushing := by simp [Proc.phase, Pc.phase]
    have hInv : Inv ((s.setProc p ⟨.execPush w, a, b⟩).setWs w (s.ws w)) := by
      refine h.caller hP rfl (by simp) hw ⟨hw, hch⟩ hok.nodup hok.children (fun w' hne => ?_) rfl ?_
      · simp [Proc.phase, Pc.phase, hne.symm]
      · rw [hph']
        exact hpair.parent (by decide) (by decide) hsema (fun _ => hloaded.symm.trans hl)
          (fun hc => by cases hc)
    exact setWs_self (s.setProc p ⟨.execPush w, a, b⟩) w ▸ hInv
  · next hl =>
    cases hstep
    have hph' : Proc.phase ⟨.user, a, b⟩ w = .gone := by simp [Proc.phase, Pc.phase, hwb]
    -- nobody else knows the struct of a child that was not loaded
    have hfin : (s.procs w).progress.finished = true := by
      refine finished_of_failed (fun hn => (h.procs w).bare hw.two hw.lt hn) ?_ ?_
      · simp only [Phase.downs] at hsema
        omega
      · rw [← hloaded]
        simpa using hl
    refine h.caller hP rfl (by simp) hw trivial hok.nodup hok.children (fun w' hne => ?_) rfl ?_
    · simp [Proc.phase, Pc.phase, hne.symm]
    · rw [hph']
      exact hpair.free (by decide) hfin

/-- The struct of one that could be comes to the front of the list of children. -/
theorem Inv.execPush (h : Inv s) (hP : s.procs p = ⟨.execPush w, a, b⟩)
    (hstep : advance s p = some s') : Inv s' := by
  have hok := h.procs p
  rw [hP] at hok
  obtain ⟨hw, hch⟩ := hok.pc
  have hwb : w ∉ b := hch
  have hpair := h.pair hw
  have hph : (s.procs p).phase w = .pushing := by simp [hP, Proc.phase, Pc.phase]
  rw [hph] at hpair
  simp only [advance, hP, use_eq (hpair.there (by decide))] at hstep
  cases hstep
  have hph' : Proc.phase ⟨.user, a, w :: b⟩ w = .listed := by simp [Proc.phase, Pc.phase]
  have hInv : Inv ((s.setProc p ⟨.user, a, w :: b⟩).setWs w { s.ws w with childTid := w }) := by
    refine h.caller hP rfl (by simp) hw trivial (List.nodup_cons.mpr ⟨hwb, hok.nodup⟩)
      (fun w' hw' => ?_) (fun w' hne => ?_) rfl ?_
    · rcases List.mem_cons.mp hw' with rfl | hw'
      · exact hw
      · exact hok.children w' hw'
    · simp [Proc.phase, Pc.phase, hne, hne.symm]
    · rw [hph']
      exact hpair.parent (by decide) (by decide) (hpair.sema (by decide)) (fun _ => hpair.attached rfl)
        (fun _ => rfl)
  exact hInv.congr rfl rfl rfl rfl rfl rfl

/-- `process_wait` comes past `sema_down`: the child has exited. -/
theorem Inv.waitDown (h : Inv s) (hP : s.procs p = ⟨.waitDown w, a, b⟩)
    (hstep : advance s p = some s') : Inv s' := by
  have hok := h.procs p
  rw [hP] at hok
  have hwb : w ∈ b := hok.pc
  have hw := hok.children w hwb
  have hpair := h.pair hw
  have hph : (s.procs p).phase w = .listed := by simp [hP, Proc.phase, Pc.phase, hwb]
  rw [hph] at hpair
  have hsema := hpair.sema (by decide)
  simp only [advance, hP, use_eq (hpair.there (by decide)), St.setPc] at hstep
  split at hstep
  · cases hstep
  · next hpos =>
    cases hstep
    have hph' : Proc.phase ⟨.waitTake w, a, b⟩ w = .taking := by simp [Proc.phase, Pc.phase]
    refine h.caller hP rfl (by simp) hw hwb hok.nodup hok.children (fun w' hne => ?_) rfl ?_
    · simp [Proc.phase, Pc.phase, hne.symm]
    · rw [hph']
      refine hpair.parent (by decide) (by decide) ?_ (fun _ => hpair.attached rfl)
        (fun _ => hpair.named rfl)
      simp only [Phase.downs] at hsema ⊢
      omega

/-- The struct is taken out of the list, so that a second call does not find it. -/
theorem Inv.waitTake (h : Inv s) (hP : s.procs p = ⟨.waitTake w, a, b⟩)
    (hstep : advance s p = some s') : Inv s' := by
  have hok := h.procs p
  rw [hP] at hok
  have hwb : w ∈ b := hok.pc
  have hw := hok.children w hwb
  have hpair := h.pair hw
  have hph : (s.procs p).phase w = .taking := by simp [hP, Proc.phase, Pc.phase]
  rw [hph] at hpair
  simp only [advance, hP, use_eq (hpair.there (by decide))] at hstep
  cases hstep
  have hnot : w ∉ b.erase w := fun hc => (List.Nodup.mem_erase_iff hok.nodup).mp hc |>.1 rfl
  have hph' : Proc.phase ⟨.waitFree w (s.ws w).exitCode, a, b.erase w⟩ w = .freeing := by
    simp [Proc.phase, Pc.phase]
  have hInv : Inv ((s.setProc p ⟨.waitFree w (s.ws w).exitCode, a, b.erase w⟩).setWs w (s.ws w)) := by
    refine h.caller hP rfl (by simp) hw ⟨hw, hnot, hpair.code (by decide)⟩
      (hok.nodup.erase w) (fun w' hw' => hok.children w' (List.mem_of_mem_erase hw'))
      (fun w' hne => ?_) rfl ?_
    · simp [Proc.phase, Pc.phase, hne.symm, List.mem_erase_of_ne hne]
    · rw [hph']
      exact hpair.parent (by decide) (by decide) (hpair.sema (by decide)) (fun _ => hpair.attached rfl)
        (fun _ => hpair.named rfl)
  exact setWs_self (s.setProc p ⟨.waitFree w (s.ws w).exitCode, a, b.erase w⟩) w ▸ hInv

/-- It is freed, and nobody else has a use for it: the child is past its last one. -/
theorem Inv.waitFree {status : Int} (h : Inv s) (hP : s.procs p = ⟨.waitFree w status, a, b⟩)
    (hstep : advance s p = some s') : Inv s' := by
  have hok := h.procs p
  rw [hP] at hok
  obtain ⟨hw, hch, -⟩ := hok.pc
  have hwb : w ∉ b := hch
  have hpair := h.pair hw
  have hph : (s.procs p).phase w = .freeing := by simp [hP, Proc.phase, Pc.phase]
  rw [hph] at hpair
  have hsema := hpair.sema (by decide)
  simp only [advance, hP, use_eq (hpair.there (by decide)), St.setPc, free_procs] at hstep
  cases hstep
  have hph' : Proc.phase ⟨.user, a, b⟩ w = .gone := by simp [Proc.phase, Pc.phase, hwb]
  have hInv : Inv ((s.setProc p ⟨.user, a, b⟩).setWs w
      { s.ws w with frees := (s.ws w).frees + 1 }) := by
    refine h.caller hP rfl (by simp) hw trivial hok.nodup hok.children (fun w' hne => ?_) rfl ?_
    · simp [Proc.phase, Pc.phase, hne.symm]
    · rw [hph']
      refine hpair.free (by decide) (finished_of_two ?_)
      simp only [Phase.downs] at hsema
      omega
  exact hInv.congr rfl rfl rfl rfl rfl rfl

end Parent

/-! ### The child's steps -/

section Own

variable {pc pc' : Pc} {a a' : Option Nat} {b : List Nat}

/-- A process moves with its own struct. -/
theorem Inv.self (h : Inv s) (hP : s.procs p = ⟨pc, a, b⟩) (h2 : 2 ≤ p) (habsent : pc ≠ .absent)
    (hok : ProcOk s p ⟨pc', a', b⟩)
    (hphase : ∀ w', Proc.phase ⟨pc', a', b⟩ w' = Proc.phase ⟨pc, a, b⟩ w')
    (hpair : ∀ ph, Pair p ph (Proc.progress ⟨pc, a, b⟩) (s.ws p) (s.code p) →
      Pair p ph (Proc.progress ⟨pc', a', b⟩) W (s.code p)) :
    Inv ((s.setProc p ⟨pc', a', b⟩).setWs p W) := by
  have hlt : p < s.next := h.lt_next (by rw [hP]; exact habsent)
  have hold := h.pairs p h2 hlt
  rw [hP] at hold
  exact h.own h2 hlt hok (fun w' _ => by rw [hP]; exact hphase w') (hpair _ hold)

/-- The struct of a process that is not done can be followed. -/
theorem Inv.own_there (h : Inv s) (hP : s.procs p = ⟨pc, a, b⟩) (h2 : 2 ≤ p) (habsent : pc ≠ .absent)
    (hfin : (Proc.progress ⟨pc, a, b⟩).finished = false) :
    ∃ ph, ph ≠ .gone ∧ Pair p ph (Proc.progress ⟨pc, a, b⟩) (s.ws p) (s.code p) := by
  have hlt : p < s.next := h.lt_next (by rw [hP]; exact habsent)
  have hold := h.pairs p h2 hlt
  rw [hP] at hold
  exact ⟨_, hold.ne_gone hfin, hold⟩

/-- A childless process that has its struct. -/
theorem ProcOk.owner (h2 : 2 ≤ p) (hpc : PcOk s p ⟨pc', some p, []⟩) :
    ProcOk s p ⟨pc', some p, []⟩ where
  pc := hpc
  bare _ _ hn := by cases hn
  nodup := List.nodup_nil
  children _ hc := by cases hc
  own w' hw' := by
    cases hw'
    exact ⟨rfl, h2⟩

/-- And one that has none. -/
theorem ProcOk.bareOk (hbare : pc'.bare = true) (hpc : PcOk s p ⟨pc', none, []⟩) :
    ProcOk s p ⟨pc', none, []⟩ where
  pc := hpc
  bare _ _ _ := hbare
  nodup := List.nodup_nil
  children _ hc := by cases hc
  own w' hw' := by cases hw'

/-- `load` is done: the child takes the struct for its own if
it has succeeded, and goes on to report. -/
theorem Inv.startProcess {success : Bool} (h : Inv s) (hP : s.procs p = ⟨.loading w, a, b⟩)
    (hstep : startProcess s p w success = some s') : Inv s' := by
  have hok := h.procs p
  rw [hP] at hok
  obtain ⟨rfl, h2, ha, hb⟩ := hok.pc
  have ha' : a = none := ha
  have hb' : b = [] := hb
  subst ha'
  subst hb'
  obtain ⟨ph, hne, hold⟩ := h.own_there hP h2 (by simp) rfl
  simp only [Userprog.startProcess, hP, use_eq (hold.there hne), St.setPc] at hstep
  split at hstep
  · cases hstep
    refine h.self hP h2 (by simp) (ProcOk.owner h2 ⟨rfl, rfl, rfl⟩) (fun w' => rfl)
      fun ph' hp' => ?_
    exact hp'.child rfl rfl rfl rfl (hold.refs hne) (hold.lock hne) rfl (hold.code hne)
      (fun _ => rfl)
  · cases hstep
    refine h.self hP h2 (by simp) (ProcOk.bareOk rfl ⟨rfl, h2, rfl, rfl⟩) (fun w' => rfl)
      fun ph' hp' => ?_
    exact hp'.child rfl rfl rfl rfl (hold.refs hne) (hold.lock hne) rfl (hold.code hne)
      (fun hc => by cases hc)

/-- A child that could not be loaded reports it, and goes straight to the end of `process_exit`. -/
theorem Inv.failUp (h : Inv s) (hP : s.procs p = ⟨.failUp w, a, b⟩)
    (hstep : advance s p = some s') : Inv s' := by
  have hok := h.procs p
  rw [hP] at hok
  obtain ⟨rfl, h2, ha, hb⟩ := hok.pc
  have ha' : a = none := ha
  have hb' : b = [] := hb
  subst ha'
  subst hb'
  obtain ⟨ph, hne, hold⟩ := h.own_there hP h2 (by simp) rfl
  simp only [advance, hP, use_eq (hold.there hne), St.setPc, processExit] at hstep
  cases hstep
  refine h.self hP h2 (by simp) (ProcOk.bareOk rfl ⟨rfl, rfl⟩) (fun w' => rfl) fun ph' hp' => ?_
  exact hp'.child rfl rfl rfl rfl (hold.refs hne) (hold.lock hne) (hold.loaded hne) (hold.code hne)
    (fun hc => by cases hc)

/-- A child that could be loaded reports it and runs its program. -/
theorem Inv.okUp (h : Inv s) (hP : s.procs p = ⟨.okUp w, a, b⟩)
    (hstep : advance s p = some s') : Inv s' := by
  have hok := h.procs p
  rw [hP] at hok
  obtain ⟨rfl, ha, hb⟩ := hok.pc
  have ha' : a = some w := ha
  have hb' : b = [] := hb
  subst ha'
  subst hb'
  have h2 := (hok.own w rfl).2
  obtain ⟨ph, hne, hold⟩ := h.own_there hP h2 (by simp) rfl
  simp only [advance, hP, use_eq (hold.there hne), St.setPc] at hstep
  cases hstep
  refine h.self hP h2 (by simp) (ProcOk.owner h2 trivial) (fun w' => rfl) fun ph' hp' => ?_
  exact hp'.child rfl rfl rfl rfl (hold.refs hne) (hold.lock hne) (hold.loaded hne) (hold.code hne)
    (fun _ => rfl)

/-- What a process on its way out is. -/
theorem Inv.exiting (h : Inv s) (hP : s.procs p = ⟨pc, a, b⟩)
    (hpc : PcOk s p ⟨pc, a, b⟩ → w = p ∧ a = some p ∧ b = []) :
    w = p ∧ a = some p ∧ b = [] ∧ 2 ≤ p := by
  have hok := h.procs p
  rw [hP] at hok
  obtain ⟨hw, ha, hb⟩ := hpc hok.pc
  exact ⟨hw, ha, hb, (hok.own p ha).2⟩

theorem Inv.exitLock (h : Inv s) (hP : s.procs p = ⟨.exitLock w, a, b⟩)
    (hstep : advance s p = some s') : Inv s' := by
  obtain ⟨rfl, rfl, rfl, h2⟩ := h.exiting hP (fun hpc => hpc)
  obtain ⟨ph, hne, hold⟩ := h.own_there hP h2 (by simp) rfl
  have hlock : (s.ws w).lock = none := hold.lock hne
  simp only [advance, hP, lockAcquire, use_eq (hold.there hne), hlock, St.setPc] at hstep
  cases hstep
  refine h.self hP h2 (by simp) (ProcOk.owner h2 ⟨rfl, rfl, rfl⟩) (fun w' => rfl) fun ph' hp' => ?_
  exact hp'.child rfl rfl rfl rfl (hold.refs hne) rfl (hold.loaded hne) (hold.code hne)
    (fun _ => rfl)

theorem Inv.exitDec (h : Inv s) (hP : s.procs p = ⟨.exitDec w, a, b⟩)
    (hstep : advance s p = some s') : Inv s' := by
  obtain ⟨rfl, rfl, rfl, h2⟩ := h.exiting hP (fun hpc => hpc)
  obtain ⟨ph, hne, hold⟩ := h.own_there hP h2 (by simp) rfl
  have hrefs : (s.ws w).refCnt = 2 := hold.refs hne
  simp only [advance, hP, decrement, use_eq (hold.there hne), hrefs, St.setPc] at hstep
  rw [if_neg (by decide)] at hstep
  cases hstep
  have hproc : (s.setWs w { s.ws w with refCnt := 2 - 1 }).procs w = ⟨.exitDec w, some w, []⟩ := hP
  rw [hproc]
  refine h.self hP h2 (by simp) (ProcOk.owner h2 ⟨rfl, rfl, rfl⟩) (fun w' => rfl) fun ph' hp' => ?_
  exact hp'.child rfl rfl rfl rfl rfl (hold.lock hne) (hold.loaded hne) (hold.code hne)
    (fun _ => rfl)

theorem Inv.exitRelease (h : Inv s) (hP : s.procs p = ⟨.exitRelease w, a, b⟩)
    (hstep : advance s p = some s') : Inv s' := by
  obtain ⟨rfl, rfl, rfl, h2⟩ := h.exiting hP (fun hpc => hpc)
  obtain ⟨ph, hne, hold⟩ := h.own_there hP h2 (by simp) rfl
  simp only [advance, hP, use_eq (hold.there hne), St.setPc] at hstep
  cases hstep
  refine h.self hP h2 (by simp) (ProcOk.owner h2 ⟨rfl, rfl, rfl⟩) (fun w' => rfl) fun ph' hp' => ?_
  exact hp'.child rfl rfl rfl rfl (hold.refs hne) rfl (hold.loaded hne) (hold.code hne)
    (fun _ => rfl)

theorem Inv.exitUp (h : Inv s) (hP : s.procs p = ⟨.exitUp w, a, b⟩)
    (hstep : advance s p = some s') : Inv s' := by
  obtain ⟨rfl, rfl, rfl, h2⟩ := h.exiting hP (fun hpc => hpc)
  obtain ⟨ph, hne, hold⟩ := h.own_there hP h2 (by simp) rfl
  simp only [advance, hP, use_eq (hold.there hne), St.setPc] at hstep
  cases hstep
  refine h.self hP h2 (by simp) (ProcOk.owner h2 ⟨rfl, rfl⟩) (fun w' => rfl) fun ph' hp' => ?_
  exact hp'.child rfl rfl rfl rfl (hold.refs hne) (hold.lock hne) (hold.loaded hne) (hold.code hne)
    (fun _ => rfl)

theorem Inv.loopLock {rest : List Nat} (h : Inv s) (hP : s.procs p = ⟨.loopLock rest, a, b⟩)
    (hstep : advance s p = some s') : Inv s' := by
  have hok := h.procs p
  rw [hP] at hok
  obtain ⟨rfl, hb⟩ := hok.pc
  have hlt : p < s.next := h.lt_next (by rw [hP]; simp)
  simp only [advance, hP, St.setPc] at hstep
  cases hstep
  exact h.alone hlt ⟨hb, fun _ _ _ => rfl, hok.nodup, hok.children, hok.own⟩
    (fun w' => by rw [hP]; rfl) (by rw [hP]; rfl)

/-- A childless process leaves: with its struct first, if it has one. -/
theorem Inv.kill (h : Inv s) (hP : s.procs p = ⟨.user, a, []⟩) :
    Inv (s.setProc p ⟨processExit ⟨.user, a, []⟩, a, []⟩) := by
  have hok := h.procs p
  rw [hP] at hok
  have hlt : p < s.next := h.lt_next (by rw [hP]; simp)
  cases a with
  | some w =>
      obtain ⟨rfl, h2⟩ := hok.own w rfl
      exact h.alone hlt (ProcOk.owner h2 ⟨rfl, rfl, rfl⟩) (fun w' => by rw [hP]; rfl) (by rw [hP]; rfl)
  | none =>
      -- only the first thread of the kernel has none
      have h2 : ¬ 2 ≤ p := by
        intro h2
        have := hok.bare h2 hlt rfl
        cases this
      have hInv : Inv ((s.setProc p ⟨.loopLock [], none, []⟩).setWs p (s.ws p)) :=
        h.move hlt (ProcOk.bareOk rfl ⟨rfl, rfl⟩) (fun w' _ => by rw [hP]; rfl)
          (fun hne => absurd rfl hne) (fun hc => absurd hc h2)
      exact setWs_self (s.setProc p ⟨.loopLock [], none, []⟩) p ▸ hInv

/-- `exit` leaves its argument in the struct. -/
theorem Inv.record (h : Inv s) (hP : s.procs p = ⟨.user, some p, b⟩) (status : Int) :
    Inv { s.setWs p { s.ws p with exitCode := status } with
      code := Function.update s.code p status } := by
  have hok := h.procs p
  rw [hP] at hok
  have h2 := (hok.own p rfl).2
  have hlt : p < s.next := h.lt_next (by rw [hP]; simp)
  obtain ⟨ph, hne, hold⟩ := h.own_there hP h2 (by simp) rfl
  refine ⟨h.fault, h.two, h.absent, ?_, h.older, ?_, ?_⟩
  · intro q hq
    have hqp : q ≠ p := Nat.ne_of_gt (Nat.lt_of_lt_of_le hlt hq)
    show Function.update s.code p status q = -1
    rw [Function.update_of_ne hqp]
    exact h.fresh q hq
  · intro q
    refine (h.procs q).mono (fun w hw => ⟨hw.parent, hw.two, hw.lt⟩) (fun hq => hq) ?_
    intro w st hw
    refine Function.update_of_ne ?_ _ _
    rintro rfl
    -- the parent would be past the child's last access
    have hq := (h.procs q).pc
    unfold PcOk at hq
    rw [hw] at hq
    have hpair := h.pair hq.1
    have hph : (s.procs q).phase w = .freeing := by simp [Proc.phase, Pc.phase, hw]
    have hsema := hpair.sema (by rw [hph]; decide)
    rw [hph, hP] at hsema
    simp only [Phase.downs, Proc.progress] at hsema
    omega
  · intro w hw2 hwlt
    show Pair w ((s.procs (s.parent w)).phase w) (s.procs w).progress
      (Function.update s.ws p _ w) (Function.update s.code p status w)
    by_cases hwp : w = p
    · subst hwp
      rw [Function.update_self, Function.update_self]
      have hpair := h.pairs w hw2 hwlt
      rw [hP] at hpair ⊢
      exact hpair.child rfl rfl rfl rfl (hold.refs hne) (hold.lock hne) (hold.loaded hne) rfl
        (fun _ => rfl)
    · rw [Function.update_of_ne hwp, Function.update_of_ne hwp]
      exact h.pairs w hw2 hwlt

end Own

/-! ### Calls -/

/-- What the loop of `process_wait` finds among structs that are there. -/
theorem findChild_spec {l : List Nat} (tid : Int)
    (hl : ∀ w ∈ l, (s.ws w).frees = 0 ∧ (s.ws w).childTid = w) :
    (∃ w ∈ l, (w : Int) = tid ∧ findChild s tid l = some (some w)) ∨
      (∀ w ∈ l, (w : Int) ≠ tid) ∧ findChild s tid l = some none := by
  induction l with
  | nil => exact .inr ⟨fun w hw => by (cases hw), rfl⟩
  | cons w rest ih =>
      obtain ⟨hf, ht⟩ := hl w List.mem_cons_self
      by_cases heq : (w : Int) = tid
      · exact .inl ⟨w, List.mem_cons_self, heq, by simp [findChild, hf, ht, heq]⟩
      · have hrec : findChild s tid (w :: rest) = findChild s tid rest := by
          simp [findChild, hf, ht, heq]
        rcases ih (fun w' hw' => hl w' (List.mem_cons_of_mem w hw')) with ⟨w', hw', h1, h2⟩ | ⟨h1, h2⟩
        · exact .inl ⟨w', List.mem_cons_of_mem w hw', h1, hrec.trans h2⟩
        · refine .inr ⟨fun w' hw' => ?_, hrec.trans h2⟩
          cases hw' with
          | head => exact heq
          | tail _ hw' => exact h1 w' hw'

section Calls

variable {a : Option Nat} {b : List Nat} {tid : Int}

/-- The struct of a child in the list is there, under the child's name. -/
theorem Inv.listed (h : Inv s) (hP : s.procs p = ⟨.user, a, b⟩) (hw : w ∈ b) :
    (s.ws w).frees = 0 ∧ (s.ws w).childTid = w := by
  have hok := h.procs p
  rw [hP] at hok
  have hpair := h.pair (hok.children w hw)
  have hph : (s.procs p).phase w = .listed := by simp [hP, Proc.phase, Pc.phase, hw]
  rw [hph] at hpair
  exact ⟨hpair.there (by decide), hpair.named rfl⟩

/-- A call of `process_wait` goes on to the semaphore, or returns `-1`. -/
theorem Inv.wait_cases (h : Inv s) (tid : Int) (hP : s.procs p = ⟨.user, a, b⟩) :
    (∃ w ∈ b, (w : Int) = tid ∧ processWait s p tid = s.setProc p ⟨.waitDown w, a, b⟩) ∨
      (∀ w ∈ b, (w : Int) ≠ tid) ∧
        processWait s p tid = { s with log := s.log ++ [⟨p, tid, s.isKid p tid, -1⟩] } := by
  rcases findChild_spec (s := s) (l := b) tid (fun w hw => h.listed hP hw) with
    ⟨w, hw, ht, hf⟩ | ⟨hnot, hf⟩
  · exact .inl ⟨w, hw, ht, by simp [processWait, St.setPc, hP, hf]⟩
  · exact .inr ⟨hnot, by simp [processWait, hP, hf]⟩

theorem Inv.wait (h : Inv s) (hP : s.procs p = ⟨.user, a, b⟩) : Inv (processWait s p tid) := by
  have hok := h.procs p
  rw [hP] at hok
  have hlt : p < s.next := h.lt_next (by rw [hP]; simp)
  rcases h.wait_cases tid hP with ⟨w, hw, -, heq⟩ | ⟨-, heq⟩
  · rw [heq]
    refine h.alone hlt ⟨hw, fun h2 hlt hn => ?_, hok.nodup, hok.children, hok.own⟩
      (fun w' => by rw [hP]; rfl) (by rw [hP]; rfl)
    cases hok.bare h2 hlt hn
  · rw [heq]
    exact h.congr rfl rfl rfl rfl rfl rfl

/-- `process_execute` makes a process and a struct that nobody else knows of. -/
theorem Inv.exec (h : Inv s) (hP : s.procs p = ⟨.user, a, b⟩) : Inv (processExecute s p true) := by
  have hok := h.procs p
  rw [hP] at hok
  have hlt : p < s.next := h.lt_next (by rw [hP]; simp)
  have hnot : s.next ∉ b := fun hc => Nat.lt_irrefl _ (hok.children _ hc).lt
  have hpn : p ≠ s.next := Nat.ne_of_lt hlt
  have hprocs : (processExecute s p true).procs
      = Function.update (Function.update s.procs s.next ⟨.loading s.next, none, []⟩) p
        ⟨.execDown s.next, a, b⟩ := by
    simp [processExecute, St.setPc, St.setProc, St.setWs, Function.update_of_ne hpn, hP]
  have hchild : ∀ q w, Child s q w → Child (processExecute s p true) q w := by
    intro q w hw
    refine ⟨?_, hw.two, Nat.lt_succ_of_lt hw.lt⟩
    show Function.update s.parent s.next p w = q
    rw [Function.update_of_ne (Nat.ne_of_lt hw.lt)]
    exact hw.parent
  have hnew : Child (processExecute s p true) p s.next :=
    ⟨Function.update_self .., h.two, Nat.lt_succ_self _⟩
  refine ⟨h.fault, Nat.le_succ_of_le h.two, ?_, ?_, ?_, ?_, ?_⟩
  · intro q hq
    have hq' : s.next + 1 ≤ q := hq
    rw [hprocs, Function.update_of_ne (by omega), Function.update_of_ne (by omega)]
    exact h.absent q (by omega)
  · intro q hq
    exact h.fresh q (Nat.le_of_succ_le hq)
  · intro w h2 hw
    show Function.update s.parent s.next p w < w
    by_cases hwn : w = s.next
    · subst hwn
      rw [Function.update_self]
      exact hlt
    · rw [Function.update_of_ne hwn]
      exact h.older w h2 (Nat.lt_of_le_of_ne (Nat.le_of_lt_succ hw) hwn)
  · intro q
    rw [hprocs]
    by_cases hqp : q = p
    · subst hqp
      rw [Function.update_self]
      refine ⟨⟨hnew, hnot⟩, fun h2 _ hn => ?_, hok.nodup, fun w hw => hchild q w (hok.children w hw),
        hok.own⟩
      cases hok.bare h2 hlt hn
    · rw [Function.update_of_ne hqp]
      by_cases hqn : q = s.next
      · subst hqn
        rw [Function.update_self]
        exact ProcOk.bareOk rfl ⟨rfl, h.two, rfl, rfl⟩
      · rw [Function.update_of_ne hqn]
        exact (h.procs q).mono (hchild q)
          (fun hq => Nat.lt_of_le_of_ne (Nat.le_of_lt_succ hq) hqn) (fun _ _ _ => rfl)
  · intro w h2 hw
    rw [hprocs]
    show Pair w (Proc.phase (Function.update (Function.update s.procs s.next _) p _
      (Function.update s.parent s.next p w)) w) (Proc.progress (Function.update
      (Function.update s.procs s.next _) p _ w)) (Function.update s.ws s.next WaitStatus.init w)
      (s.code w)
    by_cases hwn : w = s.next
    · subst hwn
      have hph : Proc.phase ⟨.execDown s.next, a, b⟩ s.next = .starting := by
        simp [Proc.phase, Pc.phase]
      rw [Function.update_self, Function.update_self, Function.update_of_ne (Ne.symm hpn),
        Function.update_self, Function.update_self, hph, h.fresh _ (Nat.le_refl _)]
      exact ⟨fun hc => by (cases hc), fun _ => rfl, fun _ => rfl, fun _ => rfl, fun _ => rfl,
        fun _ => rfl, fun _ => rfl, fun hc => by (cases hc), fun hc => by (cases hc)⟩
    · have hw' : w < s.next := Nat.lt_of_le_of_ne (Nat.le_of_lt_succ hw) hwn
      have hold := h.pairs w h2 hw'
      have hpar : s.parent w ≠ s.next := Nat.ne_of_lt (Nat.lt_trans (h.older w h2 hw') hw')
      rw [Function.update_of_ne hwn, Function.update_of_ne hwn]
      have e1 : (Function.update (Function.update s.procs s.next ⟨.loading s.next, none, []⟩) p
          ⟨.execDown s.next, a, b⟩ (s.parent w)).phase w = (s.procs (s.parent w)).phase w := by
        by_cases hq : s.parent w = p
        · rw [hq, Function.update_self, hP]
          simp [Proc.phase, Pc.phase, Ne.symm hwn]
        · rw [Function.update_of_ne hq, Function.update_of_ne hpar]
      have e2 : (Function.update (Function.update s.procs s.next ⟨.loading s.next, none, []⟩) p
          ⟨.execDown s.next, a, b⟩ w).progress = (s.procs w).progress := by
        by_cases hq : w = p
        · subst hq
          rw [Function.update_self, hP]
          rfl
        · rw [Function.update_of_ne hq, Function.update_of_ne hwn]
      rw [e1, e2]
      exact hold

end Calls

/-! ## Runs -/

/-- What a step must not do. -/
def Meets (s : St) : Act → Prop
  | .exec _ created => created = true
  | .exit p _ | .kill p => (s.procs p).children = []
  | .load _ _ | .wait _ _ | .go _ => True

/-- Each place in the code has its own lemma; here they are put together. -/
theorem Inv.advance (h : Inv s) (hstep : advance s p = some s') : Inv s' := by
  have hpc : PcOk s p (s.procs p) := (h.procs p).pc
  cases hP : (s.procs p).pc with
  | execDown w => exact h.execDown (proc_eq hP) hstep
  | execCheck w => exact h.execCheck (proc_eq hP) hstep
  | execPush w => exact h.execPush (proc_eq hP) hstep
  | failUp w => exact h.failUp (proc_eq hP) hstep
  | okUp w => exact h.okUp (proc_eq hP) hstep
  | waitDown w => exact h.waitDown (proc_eq hP) hstep
  | waitTake w => exact h.waitTake (proc_eq hP) hstep
  | waitFree w status => exact h.waitFree (proc_eq hP) hstep
  | exitLock w => exact h.exitLock (proc_eq hP) hstep
  | exitDec w => exact h.exitDec (proc_eq hP) hstep
  | exitRelease w => exact h.exitRelease (proc_eq hP) hstep
  | exitUp w => exact h.exitUp (proc_eq hP) hstep
  | loopLock rest => exact h.loopLock (proc_eq hP) hstep
  | loopDec rest | loopRelease rest =>
      unfold PcOk at hpc
      rw [hP] at hpc
      exact hpc.elim
  | absent | user | loading w | dead =>
      simp only [Userprog.advance, hP] at hstep
      cases hstep

/-- One step of a run. -/
theorem Inv.step {a : Act} (h : Inv s) (hmeets : Meets s a) (hstep : step s a = some s') :
    Inv s' := by
  unfold Userprog.step at hstep
  rw [h.fault] at hstep
  cases a with
  | exec p created =>
      cases hmeets
      simp only [Bool.false_eq_true, if_false] at hstep
      split at hstep
      · next hpc =>
        cases hstep
        exact h.exec (proc_eq hpc)
      · cases hstep
  | load p success =>
      simp only [Bool.false_eq_true, if_false] at hstep
      split at hstep
      · next hpc => exact h.startProcess (proc_eq hpc) hstep
      · cases hstep
  | wait p tid =>
      simp only [Bool.false_eq_true, if_false] at hstep
      split at hstep
      · next hpc =>
        cases hstep
        exact h.wait (proc_eq hpc)
      · cases hstep
  | exit p status =>
      simp only [Bool.false_eq_true, if_false] at hstep
      split at hstep
      · next w hpc hw =>
        have hP : s.procs p = ⟨.user, some w, []⟩ := by rw [proc_eq hpc, hw, hmeets]
        have hok := h.procs p
        rw [hP] at hok
        obtain ⟨rfl, h2⟩ := hok.own w rfl
        obtain ⟨ph, hne, hold⟩ := h.own_there hP h2 (by simp) rfl
        rw [use_eq (hold.there hne)] at hstep
        cases hstep
        have := (h.record hP status).kill (p := w) (a := some w) hP
        unfold St.setPc
        rw [hP]
        exact this
      · cases hstep
  | kill p =>
      simp only [Bool.false_eq_true, if_false] at hstep
      split at hstep
      · next hpc =>
        cases hstep
        have hP : s.procs p = ⟨.user, (s.procs p).waitStatus, []⟩ := by rw [proc_eq hpc, hmeets]
        unfold St.setPc
        rw [hP]
        exact h.kill hP
      · cases hstep
  | go p =>
      exact h.advance hstep

/-- At the start there is one process, and nobody has a child. -/
theorem Inv.init : Inv St.init where
  fault := rfl
  two := Nat.le_refl 2
  absent p hp := by
    have : p ≠ mainThread := by
      rintro rfl
      exact absurd hp (by decide)
    simp [St.init, this]
  fresh _ _ := rfl
  older w h2 hlt := absurd hlt (Nat.not_lt.mpr h2)
  procs p := by
    by_cases hp : p = mainThread
    · subst hp
      refine ⟨trivial, fun h2 => absurd h2 (by decide), List.nodup_nil, fun w hw => ?_, fun w hw => ?_⟩
      · cases hw
      · cases hw
    · have hP : St.init.procs p = ⟨.absent, none, []⟩ := by simp [St.init, hp]
      rw [hP]
      refine ⟨trivial, fun h2 hlt => absurd hlt (Nat.not_lt.mpr h2), List.nodup_nil, fun w hw => ?_,
        fun w hw => ?_⟩
      · cases hw
      · cases hw
  pairs w h2 hlt := absurd hlt (Nat.not_lt.mpr h2)

end CS162.Userprog
