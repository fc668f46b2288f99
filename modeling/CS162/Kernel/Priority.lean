/-
# `CS162.Kernel.Priority` — the books of priority donation

The fields of `struct thread` and `struct lock` that `threads/synch.c` and
`threads/thread.c` keep for priority donation, and the functions that write them.
`propagate_broadcast` calls itself for the holder of the lock a thread waits for; it
gets fuel here, and runs out only where the call would not return
(`propagateBroadcast_returns`).

`Books.Ok` is the invariant: the effective priorities are what donation makes of the
base priorities (`Donation.Stable`), the cached `lock_priority` of a lock that is held
is not above its holder, and the two records of who holds what agree.
-/
import Mathlib.Data.Finset.Card
import Mathlib.Data.List.MinMax
import Mathlib.Logic.Function.Basic
import CS162.Lib.Donation

namespace CS162.Kernel

/-- A field of every `struct thread` or `struct lock`. -/
structure Books where
  priority : Nat → Int
  effectivePriority : Nat → Int
  acquiredLockList : Nat → List Nat
  waitingLock : Nat → Option Nat
  holder : Nat → Option Nat
  lockPriority : Nat → Int

def priMin : Int := 0
def priDefault : Int := 31
def priMax : Int := 63

namespace Books

def setPriority (B : Books) (t : Nat) (p : Int) : Books :=
  { B with priority := Function.update B.priority t p }

def setEffective (B : Books) (t : Nat) (p : Int) : Books :=
  { B with effectivePriority := Function.update B.effectivePriority t p }

def setAcquired (B : Books) (t : Nat) (ls : List Nat) : Books :=
  { B with acquiredLockList := Function.update B.acquiredLockList t ls }

def setWaiting (B : Books) (t : Nat) (l : Option Nat) : Books :=
  { B with waitingLock := Function.update B.waitingLock t l }

def setHolder (B : Books) (l : Nat) (t : Option Nat) : Books :=
  { B with holder := Function.update B.holder l t }

def setLockPriority (B : Books) (l : Nat) (p : Int) : Books :=
  { B with lockPriority := Function.update B.lockPriority l p }

/-- `init_thread`. -/
def initThread (B : Books) (t : Nat) (priority : Int) : Books :=
  (((B.setPriority t priority).setEffective t priority).setAcquired t []).setWaiting t none

def propagateBroadcast : Nat → Books → Int → Nat → Option Books
  | 0, _, _, _ => none
  | fuel + 1, B, moving, t =>
      let B := B.setEffective t (max moving (B.effectivePriority t))
      match B.waitingLock t with
      | none => some B
      | some l =>
          let B := B.setLockPriority l (max (B.lockPriority l) moving)
          match B.holder l with
          | none => some B
          | some h => propagateBroadcast fuel B moving h

/-- `lock_acquire` before `sema_down`. -/
def request (fuel : Nat) (B : Books) (t l : Nat) : Option Books :=
  match B.holder l with
  | none => some B
  | some _ => propagateBroadcast fuel (B.setWaiting t (some l)) (B.effectivePriority t) t

/-- `lock_acquire` after `sema_down`. -/
def acquired (B : Books) (t l : Nat) : Books :=
  let B := B.setWaiting t none
  let B := B.setLockPriority l (B.effectivePriority t)
  let B := B.setAcquired t (B.acquiredLockList t ++ [l])
  let B := if B.lockPriority l > B.effectivePriority t then B.setPriority t (B.lockPriority l) else B
  B.setHolder l (some t)

/-- `lock_try_acquire` after `sema_try_down`. -/
def tryAcquired (B : Books) (t l : Nat) : Books :=
  (B.setHolder l (some t)).setAcquired t (B.acquiredLockList t ++ [l])

/-- `list_max` with `compare_lock`, and what comes of it. -/
def updateThreadEffectivePriority (B : Books) (t : Nat) : Books :=
  match (B.acquiredLockList t).argmax B.lockPriority with
  | none => B.setEffective t (B.priority t)
  | some l => B.setEffective t (max (B.effectivePriority t) (B.lockPriority l))

def removeLock (B : Books) (t l : Nat) : Books :=
  updateThreadEffectivePriority (B.setAcquired t ((B.acquiredLockList t).erase l)) t

/-- `lock_release` before `sema_up`. -/
def released (B : Books) (t l : Nat) : Books := (B.removeLock t l).setHolder l none

/-- The condition of `thread_set_priority`, under which it also yields. -/
def setsEffective (B : Books) (t : Nat) (newPriority : Int) : Bool :=
  newPriority > B.effectivePriority t || (B.acquiredLockList t).isEmpty

def threadSetPriority (B : Books) (t : Nat) (newPriority : Int) : Books :=
  let B' := B.setPriority t newPriority
  if B.setsEffective t newPriority then B'.setEffective t newPriority else B'

/-! ## The invariant -/

/-- `w` waits for a lock that `t` holds. -/
def Donates (B : Books) (w t : Nat) : Prop :=
  ∃ l, B.waitingLock w = some l ∧ B.holder l = some t

structure Ok (B : Books) : Prop where
  stable : Donation.Stable B.Donates B.priority B.effectivePriority
  cached : ∀ l t, B.holder l = some t → B.lockPriority l ≤ B.effectivePriority t
  held : ∀ l t, l ∈ B.acquiredLockList t ↔ B.holder l = some t
  nodup : ∀ t, (B.acquiredLockList t).Nodup

variable {B B' : Books} {t l : Nat}

/-! ## `propagate_broadcast` -/

/-- What is written: the effective priority of everybody who is reached, and the cached
priority of the locks on the way. -/
structure Raised (B : Books) (moving : Int) (t : Nat) (B' : Books) : Prop where
  frame : B' = ⟨B.priority, B'.effectivePriority, B.acquiredLockList, B.waitingLock, B.holder,
    B'.lockPriority⟩
  reached : ∀ x, Relation.ReflTransGen B.Donates t x →
    B'.effectivePriority x = max moving (B.effectivePriority x)
  others : ∀ x, ¬ Relation.ReflTransGen B.Donates t x →
    B'.effectivePriority x = B.effectivePriority x
  locks : ∀ l, B'.lockPriority l = B.lockPriority l ∨
    B'.lockPriority l = max (B.lockPriority l) moving ∧
      ∃ x, Relation.ReflTransGen B.Donates t x ∧ B.waitingLock x = some l

/-- Who a thread reaches: itself, and whom the holder of its lock reaches. -/
theorem reaches_iff {h x : Nat} (hl : B.waitingLock t = some l) (hh : B.holder l = some h) :
    Relation.ReflTransGen B.Donates t x ↔ x = t ∨ Relation.ReflTransGen B.Donates h x := by
  constructor
  · intro hr
    cases hr.cases_head with
    | inl heq => exact .inl heq.symm
    | inr hstep =>
        obtain ⟨y, ⟨l', hl', hy⟩, hrest⟩ := hstep
        rw [hl] at hl'
        cases hl'
        rw [hh] at hy
        cases hy
        exact .inr hrest
  · rintro (rfl | hr)
    · exact .refl
    · exact .head ⟨l, hl, hh⟩ hr

theorem reaches_none {x : Nat} (hnone : ∀ y, ¬ B.Donates t y) :
    Relation.ReflTransGen B.Donates t x ↔ x = t := by
  constructor
  · intro hr
    cases hr.cases_head with
    | inl heq => exact heq.symm
    | inr hstep =>
        obtain ⟨y, hy, -⟩ := hstep
        exact absurd hy (hnone y)
  · rintro rfl
    exact .refl

/-- `propagate_broadcast` raises everybody on the chain, and nobody else.  By induction on the fuel: the
rest of the chain is that of the next holder. -/
theorem propagateBroadcast_raised {fuel : Nat} {moving : Int}
    (h : propagateBroadcast fuel B moving t = some B') : Raised B moving t B' := by
  induction fuel generalizing B t with
  | zero => cases h
  | succ fuel ih =>
      simp only [propagateBroadcast] at h
      split at h
      · next hl =>
        -- the thread waits for nobody
        cases h
        replace hl : B.waitingLock t = none := hl
        have hr : ∀ x, Relation.ReflTransGen B.Donates t x ↔ x = t :=
          fun x => reaches_none fun y hy => by
            obtain ⟨l, hl', -⟩ := hy
            rw [hl] at hl'
            cases hl'
        refine ⟨rfl, fun x hx => ?_, fun x hx => ?_, fun l => .inl rfl⟩
        · rw [(hr x).mp hx]
          exact Function.update_self ..
        · exact Function.update_of_ne (fun heq => hx ((hr x).mpr heq)) ..
      · next l hl =>
        replace hl : B.waitingLock t = some l := hl
        split at h
        · next hh =>
          -- the lock has no holder
          cases h
          replace hh : B.holder l = none := hh
          have hr : ∀ x, Relation.ReflTransGen B.Donates t x ↔ x = t :=
            fun x => reaches_none fun y hy => by
              obtain ⟨l', hl', hh'⟩ := hy
              rw [hl] at hl'
              cases hl'
              rw [hh] at hh'
              cases hh'
          refine ⟨rfl, fun x hx => ?_, fun x hx => ?_, fun l' => ?_⟩
          · rw [(hr x).mp hx]
            exact Function.update_self ..
          · exact Function.update_of_ne (fun heq => hx ((hr x).mpr heq)) ..
          · by_cases heq : l' = l
            · subst heq
              exact .inr ⟨Function.update_self .., t, .refl, hl⟩
            · exact .inl (Function.update_of_ne heq ..)
        · next h' hh =>
          have hrec := ih h
          have hr : ∀ x, Relation.ReflTransGen B.Donates t x ↔
              x = t ∨ Relation.ReflTransGen B.Donates h' x := fun x => reaches_iff hl hh
          refine ⟨hrec.frame, fun x hx => ?_, fun x hx => ?_, fun l' => ?_⟩
          · by_cases hx' : Relation.ReflTransGen B.Donates h' x
            · rw [hrec.reached x hx']
              by_cases hxt : x = t
              · subst hxt
                show max moving (Function.update B.effectivePriority x _ x) = _
                rw [Function.update_self, ← max_assoc, max_self]
              · show max moving (Function.update B.effectivePriority t _ x) = _
                rw [Function.update_of_ne hxt]
            · have hxt := ((hr x).mp hx).resolve_right hx'
              subst hxt
              rw [hrec.others x hx']
              exact Function.update_self ..
          · have hx' : ¬ Relation.ReflTransGen B.Donates h' x := fun hc => hx ((hr x).mpr (.inr hc))
            rw [hrec.others x hx']
            exact Function.update_of_ne (fun heq => hx ((hr x).mpr (.inl heq))) ..
          · have hlocks : B'.lockPriority l' = Function.update B.lockPriority l _ l' ∨
                B'.lockPriority l' = max (Function.update B.lockPriority l _ l') moving ∧
                  ∃ x, Relation.ReflTransGen B.Donates h' x ∧ B.waitingLock x = some l' :=
              hrec.locks l'
            by_cases heq : l' = l
            · subst heq
              rw [Function.update_self, max_assoc, max_self] at hlocks
              exact .inr ⟨hlocks.elim id fun hc => hc.1, t, .refl, hl⟩
            · rw [Function.update_of_ne heq] at hlocks
              refine hlocks.imp id ?_
              rintro ⟨hlp, x, hx, hw⟩
              exact ⟨hlp, x, (hr x).mpr (.inr hx), hw⟩

/-- With enough fuel there is an answer, unless the thread is reached from the holder of
the lock it waits for: then `propagate_broadcast` would call itself for ever. -/
theorem propagateBroadcast_returns {fuel : Nat} {moving : Int} {S : Finset Nat}
    (hS : ∀ x, Relation.ReflTransGen B.Donates t x → x ∈ S)
    (hacyclic : ∀ x, Relation.ReflTransGen B.Donates t x → ¬ Relation.TransGen B.Donates x x)
    (hfuel : S.card ≤ fuel) : ∃ B', propagateBroadcast fuel B moving t = some B' := by
  induction fuel generalizing B t S with
  | zero => exact absurd (Finset.card_pos.mpr ⟨t, hS t .refl⟩) (Nat.not_lt.mpr hfuel)
  | succ fuel ih =>
      simp only [propagateBroadcast]
      split
      · exact ⟨_, rfl⟩
      · next l hl =>
        replace hl : B.waitingLock t = some l := hl
        split
        · exact ⟨_, rfl⟩
        · next h hh =>
          replace hh : B.holder l = some h := hh
          have hstep : B.Donates t h := ⟨l, hl, hh⟩
          -- the thread itself is not reached any more
          refine ih (S := S.erase t) (fun x hx => ?_) (fun x hx => hacyclic x (.head hstep hx)) ?_
          · refine Finset.mem_erase.mpr ⟨?_, hS x (.head hstep hx)⟩
            rintro rfl
            exact hacyclic x .refl (.head' hstep hx)
          · rw [Finset.card_erase_of_mem (hS t .refl)]
            omega

/-! ## The bookkeeping keeps the invariant -/

section Keeps

/-- A thread that waits for a lock that is held gives its priority to the holder, and on. -/
theorem Ok.request {fuel h : Nat} (hB : B.Ok) (hnone : B.waitingLock t = none)
    (hh : B.holder l = some h) (hreq : B.request fuel t l = some B') :
    B'.Ok ∧ Raised (B.setWaiting t (some l)) (B.effectivePriority t) t B' := by
  simp only [Books.request, hh] at hreq
  have hr := propagateBroadcast_raised hreq
  refine ⟨?_, hr⟩
  have hwait : B'.waitingLock = (B.setWaiting t (some l)).waitingLock := by rw [hr.frame]
  have hholder : B'.holder = B.holder := by rw [hr.frame]; rfl
  have hpri : B'.priority = B.priority := by rw [hr.frame]; rfl
  have hacq : B'.acquiredLockList = B.acquiredLockList := by rw [hr.frame]; rfl
  have hD : ∀ w x, (B.setWaiting t (some l)).Donates w x ↔ B.Donates w x ∨ (w = t ∧ x = h) := by
    intro w x
    by_cases hw : w = t
    · subst hw
      simp [Donates, setWaiting, hnone, hh, eq_comm]
    · simp [Donates, setWaiting, hw]
  have hD' : B'.Donates = (B.setWaiting t (some l)).Donates := by
    unfold Donates
    rw [hwait, hholder]
    rfl
  refine ⟨?_, ?_, ?_, ?_⟩
  · rw [hpri, hD']
    exact hB.stable.raise hD hr.reached hr.others
  · intro l' t' ht'
    rw [hholder] at ht'
    have hold := hB.cached l' t' ht'
    have hge : B.effectivePriority t' ≤ B'.effectivePriority t' := by
      by_cases hx : Relation.ReflTransGen (B.setWaiting t (some l)).Donates t t'
      · rw [hr.reached t' hx]
        exact le_max_right _ _
      · exact (hr.others t' hx).ge
    cases hr.locks l' with
    | inl heq => exact (le_of_eq heq).trans (hold.trans hge)
    | inr hraise =>
        obtain ⟨heq, x, hx, hw⟩ := hraise
        have hreach : Relation.ReflTransGen (B.setWaiting t (some l)).Donates t t' :=
          hx.tail ⟨l', hw, ht'⟩
        rw [heq, hr.reached t' hreach, max_comm]
        exact max_le_max (le_refl _) hold
  · intro l' t'
    rw [hacq, hholder]
    exact hB.held l' t'
  · intro t'
    rw [hacq]
    exact hB.nodup t'

/-- A free lock goes to `t`: the holders change, and the lists with them. -/
theorem held_setHolder (hB : B.Ok) (hfree : B.holder l = none) (l' t' : Nat) :
    l' ∈ Function.update B.acquiredLockList t (B.acquiredLockList t ++ [l]) t' ↔
      Function.update B.holder l (some t) l' = some t' := by
  by_cases hl : l' = l
  · subst hl
    rw [Function.update_self]
    by_cases ht : t' = t
    · subst ht
      simp
    · rw [Function.update_of_ne ht, hB.held, hfree]
      simp [Ne.symm ht]
  · rw [Function.update_of_ne hl]
    by_cases ht : t' = t
    · subst ht
      simp [hl, hB.held]
    · rw [Function.update_of_ne ht]
      exact hB.held l' t'

theorem nodup_setAcquired (hB : B.Ok) (hfree : B.holder l = none) (t' : Nat) :
    (Function.update B.acquiredLockList t (B.acquiredLockList t ++ [l]) t').Nodup := by
  by_cases ht : t' = t
  · subst ht
    rw [Function.update_self]
    refine List.Nodup.append (hB.nodup t') (List.nodup_singleton l) ?_
    rw [List.disjoint_singleton]
    intro hc
    rw [hB.held, hfree] at hc
    cases hc
  · rw [Function.update_of_ne ht]
    exact hB.nodup t'

/-- A free lock goes to `t`, which outranks all that wait for it. -/
theorem Ok.grant (hB : B.Ok) (hfree : B.holder l = none)
    (hwait : B.waitingLock t = none ∨ B.waitingLock t = some l)
    (htop : ∀ w, w ≠ t → B.waitingLock w = some l → B.effectivePriority w ≤ B.effectivePriority t)
    (hpri : B'.priority = B.priority) (heff : B'.effectivePriority = B.effectivePriority)
    (hholder : B'.holder = Function.update B.holder l (some t))
    (hw : B'.waitingLock = Function.update B.waitingLock t none)
    (hacq : B'.acquiredLockList
      = Function.update B.acquiredLockList t (B.acquiredLockList t ++ [l]))
    (hlp : B'.lockPriority l ≤ B.effectivePriority t)
    (hlps : ∀ l', l' ≠ l → B'.lockPriority l' = B.lockPriority l') : B'.Ok := by
  have hsink : ∀ x, ¬ B'.Donates t x := by
    rintro x ⟨l', hl', -⟩
    rw [hw, Function.update_self] at hl'
    cases hl'
  have hold : ∀ x, ¬ B.Donates t x := by
    rintro x ⟨l', hl', hx⟩
    cases hwait with
    | inl hnone =>
        rw [hnone] at hl'
        cases hl'
    | inr hsome =>
        rw [hsome] at hl'
        cases hl'
        rw [hfree] at hx
        cases hx
  have hgives : ∀ w x, B'.Donates w x ↔
      B.Donates w x ∨ (w ≠ t ∧ B.waitingLock w = some l ∧ x = t) := by
    intro w x
    by_cases hwt : w = t
    · subst hwt
      simp [hsink x, hold x]
    · simp only [Donates, hw, hholder, Function.update_of_ne hwt]
      constructor
      · rintro ⟨l', hl', hx⟩
        by_cases hll : l' = l
        · subst hll
          rw [Function.update_self] at hx
          cases hx
          exact .inr ⟨hwt, hl', rfl⟩
        · rw [Function.update_of_ne hll] at hx
          exact .inl ⟨l', hl', hx⟩
      · rintro (⟨l', hl', hx⟩ | ⟨-, hl', rfl⟩)
        · have hll : l' ≠ l := by
            rintro rfl
            rw [hfree] at hx
            cases hx
          exact ⟨l', hl', by rw [Function.update_of_ne hll]; exact hx⟩
        · exact ⟨l, hl', Function.update_self ..⟩
  refine ⟨?_, ?_, ?_, ?_⟩
  · refine hB.stable.update (t := t) hsink (fun w x hx => ?_) (fun x _ => by rw [hpri])
      (fun x _ => by rw [heff]) ?_
    · rw [hgives]
      simp [hx]
    · rw [hpri, heff]
      constructor
      · cases (hB.stable t).1 with
        | inl heq => exact .inl heq
        | inr hg =>
            obtain ⟨w, hw, heq⟩ := hg
            exact .inr ⟨w, (hgives w t).mpr (.inl hw), heq⟩
      · rintro x (rfl | ⟨w, hw, rfl⟩)
        · exact hB.stable.own_le t
        · cases (hgives w t).mp hw with
          | inl hw => exact hB.stable.le_of_gives hw
          | inr hw => exact htop w hw.1 hw.2.1
  · intro l' t' ht'
    rw [hholder] at ht'
    rw [heff]
    by_cases hll : l' = l
    · subst hll
      rw [Function.update_self] at ht'
      cases ht'
      exact hlp
    · rw [Function.update_of_ne hll] at ht'
      rw [hlps l' hll]
      exact hB.cached l' t' ht'
  · intro l' t'
    rw [hacq, hholder]
    exact held_setHolder hB hfree l' t'
  · intro t'
    rw [hacq]
    exact nodup_setAcquired hB hfree t'

/-- The lock's priority has just been set to the thread's. -/
theorem acquired_eq (B : Books) (t l : Nat) :
    B.acquired t l = { B with
      waitingLock := Function.update B.waitingLock t none
      lockPriority := Function.update B.lockPriority l (B.effectivePriority t)
      acquiredLockList := Function.update B.acquiredLockList t (B.acquiredLockList t ++ [l])
      holder := Function.update B.holder l (some t) } := by
  simp [acquired, setWaiting, setLockPriority, setAcquired, setHolder]

theorem Ok.acquired (hB : B.Ok) (hfree : B.holder l = none)
    (hwait : B.waitingLock t = none ∨ B.waitingLock t = some l)
    (htop : ∀ w, w ≠ t → B.waitingLock w = some l → B.effectivePriority w ≤ B.effectivePriority t) :
    (B.acquired t l).Ok := by
  rw [acquired_eq]
  exact hB.grant hfree hwait htop rfl rfl rfl rfl rfl (le_of_eq (Function.update_self ..))
    (fun l' hl' => Function.update_of_ne hl' ..)

/-- `lock_try_acquire` does not write `lock_priority`. -/
theorem Ok.tryAcquired (hB : B.Ok) (hfree : B.holder l = none) (hwait : B.waitingLock t = none)
    (hlp : B.lockPriority l ≤ B.effectivePriority t)
    (htop : ∀ w, B.waitingLock w = some l → B.effectivePriority w ≤ B.effectivePriority t) :
    (B.tryAcquired t l).Ok := by
  refine hB.grant hfree (.inl hwait) (fun w _ => htop w) rfl rfl rfl ?_ rfl hlp (fun l' _ => rfl)
  rw [← hwait, Function.update_eq_self]
  rfl

theorem updateThreadEffectivePriority_eq (hnil : B.acquiredLockList t = []) :
    B.updateThreadEffectivePriority t = B.setEffective t (B.priority t) := by
  simp [updateThreadEffectivePriority, hnil]

/-- While locks remain nothing is lowered. -/
theorem updateThreadEffectivePriority_cons (hne : B.acquiredLockList t ≠ [])
    (hcached : ∀ l ∈ B.acquiredLockList t, B.lockPriority l ≤ B.effectivePriority t) :
    B.updateThreadEffectivePriority t = B := by
  unfold updateThreadEffectivePriority
  cases hmax : (B.acquiredLockList t).argmax B.lockPriority with
  | none => exact absurd (List.argmax_eq_none.mp hmax) hne
  | some l =>
      have hle := hcached l (List.argmax_mem hmax)
      simp only [max_eq_left hle, setEffective, Function.update_eq_self]

/-- What remains when `t` gives up `l`. -/
theorem released_eq (hB : B.Ok) (t l : Nat) :
    B.released t l = { B with
      effectivePriority := Function.update B.effectivePriority t
        (if (B.acquiredLockList t).erase l = [] then B.priority t else B.effectivePriority t)
      acquiredLockList := Function.update B.acquiredLockList t ((B.acquiredLockList t).erase l)
      holder := Function.update B.holder l none } := by
  by_cases hnil : (B.acquiredLockList t).erase l = []
  · have hlist : (B.setAcquired t ((B.acquiredLockList t).erase l)).acquiredLockList t = [] := by
      simp [setAcquired, hnil]
    rw [released, removeLock, updateThreadEffectivePriority_eq hlist, if_pos hnil]
    rfl
  · have hlist : (B.setAcquired t ((B.acquiredLockList t).erase l)).acquiredLockList t
        = (B.acquiredLockList t).erase l := by
      simp [setAcquired]
    rw [released, removeLock, updateThreadEffectivePriority_cons, if_neg hnil,
      Function.update_eq_self]
    · rfl
    · rw [hlist]
      exact hnil
    · rw [hlist]
      intro l' hl'
      exact hB.cached l' t ((hB.held l' t).mp (List.mem_of_mem_erase hl'))

/-- Which is right if nobody gave the thread more through `l` than it has without. -/
theorem Ok.released (hB : B.Ok) (hhold : B.holder l = some t) (hwait : B.waitingLock t = none)
    (hrest : (∀ l', B.holder l' = some t → l' = l) ∨
      ∀ w, B.waitingLock w = some l → B.effectivePriority w ≤ B.priority t ∨
        ∃ l' w', l' ≠ l ∧ B.holder l' = some t ∧ B.waitingLock w' = some l' ∧
          B.effectivePriority w ≤ B.effectivePriority w') : (B.released t l).Ok := by
  rw [released_eq hB]
  have hmem : ∀ l', l' ∈ (B.acquiredLockList t).erase l ↔ l' ≠ l ∧ B.holder l' = some t := by
    intro l'
    rw [(hB.nodup t).mem_erase_iff, hB.held]
  have hholder : ∀ l' x, Function.update B.holder l none l' = some x ↔
      l' ≠ l ∧ B.holder l' = some x := by
    intro l' x
    by_cases hll : l' = l
    · subst hll
      simp
    · simp [hll]
  refine ⟨?_, ?_, ?_, ?_⟩
  · refine hB.stable.update (t := t) ?_ ?_ (fun x _ => rfl) (fun x hx => Function.update_of_ne hx ..) ?_
    · rintro x ⟨l', hl', -⟩
      replace hl' : B.waitingLock t = some l' := hl'
      rw [hwait] at hl'
      cases hl'
    · intro w x hx
      constructor
      · rintro ⟨l', hl', hh⟩
        exact ⟨l', hl', ((hholder l' x).mp hh).2⟩
      · rintro ⟨l', hl', hh⟩
        refine ⟨l', hl', (hholder l' x).mpr ⟨?_, hh⟩⟩
        rintro rfl
        rw [hhold] at hh
        exact hx (Option.some.inj hh).symm
    · simp only [Function.update_self]
      by_cases hnil : (B.acquiredLockList t).erase l = []
      · rw [if_pos hnil]
        refine ⟨.inl rfl, ?_⟩
        rintro x (rfl | ⟨w, ⟨l', hl', hh⟩, rfl⟩)
        · exact le_refl _
        · have : l' ∈ (B.acquiredLockList t).erase l := (hmem l').mpr ((hholder l' t).mp hh)
          rw [hnil] at this
          cases this
      · rw [if_neg hnil, Function.update_eq_self]
        constructor
        · cases (hB.stable t).1 with
          | inl heq => exact .inl heq
          | inr hg =>
              obtain ⟨w, ⟨l', hl', hh⟩, heq⟩ := hg
              by_cases hll : l' = l
              · subst hll
                -- the thread keeps its priority for another reason
                cases hrest with
                | inl honly =>
                    refine absurd (List.eq_nil_iff_forall_not_mem.mpr fun l'' hc => ?_) hnil
                    obtain ⟨h1, h2⟩ := (hmem l'').mp hc
                    exact h1 (honly l'' h2)
                | inr hcov =>
                    cases hcov w hl' with
                    | inl hle => exact .inl (le_antisymm (heq ▸ hle) (hB.stable.own_le t))
                    | inr hex =>
                        obtain ⟨l'', w', hne', hh', hw', hle⟩ := hex
                        refine .inr ⟨w', ⟨l'', hw', (hholder l'' t).mpr ⟨hne', hh'⟩⟩, ?_⟩
                        exact le_antisymm (heq ▸ hle) (hB.stable.le_of_gives ⟨l'', hw', hh'⟩)
              · exact .inr ⟨w, ⟨l', hl', (hholder l' t).mpr ⟨hll, hh⟩⟩, heq⟩
        · rintro x (rfl | ⟨w, ⟨l', hl', hh⟩, rfl⟩)
          · exact hB.stable.own_le t
          · exact hB.stable.le_of_gives ⟨l', hl', ((hholder l' t).mp hh).2⟩
  · intro l' t' ht'
    obtain ⟨hll, hh⟩ := (hholder l' t').mp ht'
    show B.lockPriority l' ≤ Function.update B.effectivePriority t _ t'
    by_cases ht : t' = t
    · subst ht
      have hne : (B.acquiredLockList t').erase l ≠ [] :=
        List.ne_nil_of_mem ((hmem l').mpr ⟨hll, hh⟩)
      rw [Function.update_self, if_neg hne]
      exact hB.cached l' t' hh
    · rw [Function.update_of_ne ht]
      exact hB.cached l' t' hh
  · intro l' t'
    show l' ∈ Function.update B.acquiredLockList t _ t' ↔ Function.update B.holder l none l' = some t'
    rw [hholder]
    by_cases ht : t' = t
    · subst ht
      rw [Function.update_self]
      exact hmem l'
    · rw [Function.update_of_ne ht, hB.held]
      refine ⟨fun hh => ⟨?_, hh⟩, fun hh => hh.2⟩
      rintro rfl
      rw [hhold] at hh
      exact ht (Option.some.inj hh).symm
  · intro t'
    show (Function.update B.acquiredLockList t _ t').Nodup
    by_cases ht : t' = t
    · subst ht
      rw [Function.update_self]
      exact (hB.nodup t').erase l
    · rw [Function.update_of_ne ht]
      exact hB.nodup t'

/-- `thread_set_priority` lowers the effective priority of a thread without locks only. -/
theorem Ok.threadSetPriority {p : Int} (hB : B.Ok) (hwait : B.waitingLock t = none)
    (hlow : (∀ l, B.holder l ≠ some t) ∨ B.priority t ≤ p ∨
      ∃ w, B.Donates w t ∧ B.priority t ≤ B.effectivePriority w) :
    (B.threadSetPriority t p).Ok := by
  have hsink : ∀ x, ¬ B.Donates t x := by
    rintro x ⟨l', hl', -⟩
    rw [hwait] at hl'
    cases hl'
  have hempty : (B.acquiredLockList t).isEmpty = true ↔ ∀ l, B.holder l ≠ some t := by
    rw [List.isEmpty_iff, List.eq_nil_iff_forall_not_mem]
    exact forall_congr' fun l => not_congr (hB.held l t)
  unfold Books.threadSetPriority
  cases hset : B.setsEffective t p with
  | true =>
      rw [if_pos rfl]
      simp only [setsEffective, Bool.or_eq_true, decide_eq_true_eq] at hset
      refine ⟨?_, ?_, hB.held, hB.nodup⟩
      · refine hB.stable.update (t := t) hsink (fun w x _ => Iff.rfl)
          (fun x hx => Function.update_of_ne hx ..) (fun x hx => Function.update_of_ne hx ..) ?_
        refine ⟨.inl (by simp [setPriority, setEffective]), ?_⟩
        rintro x (rfl | ⟨w, hw, rfl⟩)
        · simp [setPriority, setEffective]
        · have hw : B.Donates w t := hw
          have hwt : w ≠ t := by
            rintro rfl
            exact hsink w hw
          show Function.update B.effectivePriority t p w ≤ Function.update B.effectivePriority t p t
          rw [Function.update_self, Function.update_of_ne hwt]
          cases hset with
          | inl hlt => exact (hB.stable.le_of_gives hw).trans (le_of_lt hlt)
          | inr hnil =>
              obtain ⟨l, -, hl⟩ := hw
              exact absurd hl (hempty.mp hnil l)
      · intro l t' ht'
        replace ht' : B.holder l = some t' := ht'
        show B.lockPriority l ≤ Function.update B.effectivePriority t p t'
        by_cases htt : t' = t
        · subst htt
          rw [Function.update_self]
          cases hset with
          | inl hlt => exact (hB.cached l t' ht').trans (le_of_lt hlt)
          | inr hnil => exact absurd ht' (hempty.mp hnil l)
        · rw [Function.update_of_ne htt]
          exact hB.cached l t' ht'
  | false =>
      rw [if_neg Bool.false_ne_true]
      simp only [setsEffective, Bool.or_eq_false_iff, decide_eq_false_iff_not] at hset
      obtain ⟨hle, hne⟩ := hset
      replace hle : p ≤ B.effectivePriority t := le_of_not_gt hle
      refine ⟨?_, hB.cached, hB.held, hB.nodup⟩
      refine hB.stable.update (t := t) hsink (fun w x _ => Iff.rfl)
        (fun x hx => Function.update_of_ne hx ..) (fun x _ => rfl) ?_
      constructor
      · cases (hB.stable t).1 with
        | inr hg => exact .inr hg
        | inl heq =>
            -- the old base priority was the effective one
            cases hlow with
            | inl hfree =>
                rw [hempty.mpr hfree] at hne
                cases hne
            | inr hlow =>
                cases hlow with
                | inl hge =>
                    refine .inl ?_
                    show B.effectivePriority t = Function.update B.priority t p t
                    rw [Function.update_self]
                    exact le_antisymm (heq.le.trans hge) hle
                | inr hw =>
                    obtain ⟨w, hw, hge⟩ := hw
                    exact .inr ⟨w, hw, le_antisymm (heq.le.trans hge) (hB.stable.le_of_gives hw)⟩
      · rintro x (rfl | ⟨w, hw, rfl⟩)
        · show Function.update B.priority t p t ≤ B.effectivePriority t
          rw [Function.update_self]
          exact hle
        · exact hB.stable.le_of_gives hw

/-- A new thread holds nothing and waits for nothing. -/
theorem Ok.initThread {p : Int} (hB : B.Ok) (hwait : B.waitingLock t = none)
    (hhold : ∀ l, B.holder l ≠ some t) : (B.initThread t p).Ok := by
  have hsink : ∀ x, ¬ (B.initThread t p).Donates t x := by
    rintro x ⟨l', hl', -⟩
    simp only [Books.initThread, setWaiting, Function.update_self] at hl'
    cases hl'
  have hnone : ∀ w, ¬ (B.initThread t p).Donates w t := by
    rintro w ⟨l', -, hl'⟩
    exact hhold l' hl'
  refine ⟨?_, ?_, ?_, ?_⟩
  · refine hB.stable.update (t := t) hsink (fun w x hx => ?_) (fun x hx => Function.update_of_ne hx ..)
      (fun x hx => Function.update_of_ne hx ..) ?_
    · show (∃ l, Function.update B.waitingLock t none w = some l ∧ B.holder l = some x) ↔ _
      rw [← hwait, Function.update_eq_self]
      rfl
    · refine ⟨.inl ?_, ?_⟩
      · simp [Books.initThread, setPriority, setEffective, setAcquired, setWaiting]
      · rintro x (rfl | ⟨w, hw, -⟩)
        · simp [Books.initThread, setPriority, setEffective, setAcquired, setWaiting]
        · exact absurd hw (hnone w)
  · intro l t' ht'
    replace ht' : B.holder l = some t' := ht'
    have htt : t' ≠ t := by
      rintro rfl
      exact hhold l ht'
    show B.lockPriority l ≤ Function.update B.effectivePriority t p t'
    rw [Function.update_of_ne htt]
    exact hB.cached l t' ht'
  · intro l t'
    show l ∈ Function.update B.acquiredLockList t [] t' ↔ B.holder l = some t'
    by_cases htt : t' = t
    · subst htt
      simp [hhold l]
    · rw [Function.update_of_ne htt]
      exact hB.held l t'
  · intro t'
    show (Function.update B.acquiredLockList t [] t').Nodup
    by_cases htt : t' = t
    · subst htt
      simp
    · rw [Function.update_of_ne htt]
      exact hB.nodup t'

end Keeps

end Books

end CS162.Kernel
