/-
# `CS162.Kernel.Chain` — donation along a chain

`propagate_broadcast` follows the lock that a thread waits for to its holder, and on.
`Broadcast` says all that it writes: the effective priority of the threads on the chain and
the cached priority of the locks on it.  Where no thread waits for itself the chain ends
(`propagateBroadcast_returns`), and with more fuel than threads there is one answer
(`chained_donation`).  So a thread that blocks in `lock_acquire` outranks nobody it waits for.
-/
import CS162.Kernel.Sched

namespace CS162.Kernel

namespace Books

variable {B B' : Books} {moving p : Int} {t l : Nat} {fuel fuel' : Nat} {threads : Finset Nat}

/-- No thread waits for itself. -/
def Acyclic (B : Books) : Prop := ∀ x, ¬ Relation.TransGen B.Donates x x

/-- Every lock that is held is held by one of these. -/
def HeldBy (B : Books) (threads : Finset Nat) : Prop := ∀ l h, B.holder l = some h → h ∈ threads

/-- The lock is waited for by a thread on the chain of `t`. -/
def OnChain (B : Books) (t l : Nat) : Prop :=
  ∃ x, Relation.ReflTransGen B.Donates t x ∧ B.waitingLock x = some l

/-- What `propagate_broadcast` writes. -/
structure Broadcast (B : Books) (moving : Int) (t : Nat) (B' : Books) : Prop where
  frame : B' = ⟨B.priority, B'.effectivePriority, B.acquiredLockList, B.waitingLock, B.holder,
    B'.lockPriority⟩
  threads : ∀ x, Relation.ReflTransGen B.Donates t x →
    B'.effectivePriority x = max (B.effectivePriority x) moving
  otherThreads : ∀ x, ¬ Relation.ReflTransGen B.Donates t x →
    B'.effectivePriority x = B.effectivePriority x
  locks : ∀ l, B.OnChain t l → B'.lockPriority l = max (B.lockPriority l) moving
  otherLocks : ∀ l, ¬ B.OnChain t l → B'.lockPriority l = B.lockPriority l

/-- More fuel makes no difference. -/
theorem propagateBroadcast_mono (h : propagateBroadcast fuel B moving t = some B')
    (hle : fuel ≤ fuel') : propagateBroadcast fuel' B moving t = some B' := by
  induction fuel generalizing B t fuel' with
  | zero => cases h
  | succ fuel ih =>
      obtain ⟨k, rfl⟩ := Nat.exists_eq_add_of_le' (Nat.le_trans (Nat.succ_le_succ (Nat.zero_le fuel)) hle)
      simp only [propagateBroadcast] at h ⊢
      split at h
      · exact h
      · split at h
        · exact h
        · exact ih h (Nat.le_of_succ_le_succ hle)

/-- The locks on the chain are written, one by one. -/
theorem propagateBroadcast_onChain (h : propagateBroadcast fuel B moving t = some B')
    (hl : B.OnChain t l) : B'.lockPriority l = max (B.lockPriority l) moving := by
  induction fuel generalizing B t with
  | zero => cases h
  | succ fuel ih =>
      obtain ⟨x, hx, hw⟩ := hl
      simp only [propagateBroadcast] at h
      split at h
      · next hnone =>
        replace hnone : B.waitingLock t = none := hnone
        -- nobody but the thread itself is on the chain
        have hxt : x = t := by
          refine (reaches_none fun y hy => ?_).mp hx
          obtain ⟨l', hl', -⟩ := hy
          rw [hnone] at hl'
          cases hl'
        rw [hxt, hnone] at hw
        cases hw
      · next l₁ hl₁ =>
        replace hl₁ : B.waitingLock t = some l₁ := hl₁
        split at h
        · next hh =>
          replace hh : B.holder l₁ = none := hh
          have hxt : x = t := by
            refine (reaches_none fun y hy => ?_).mp hx
            obtain ⟨l', hl', hy'⟩ := hy
            rw [hl₁] at hl'
            cases hl'
            rw [hh] at hy'
            cases hy'
          rw [hxt, hl₁] at hw
          cases hw
          cases h
          exact Function.update_self ..
        · next h' hh =>
          let B₁ := (B.setEffective t (max moving (B.effectivePriority t))).setLockPriority l₁
            (max (B.lockPriority l₁) moving)
          have hrec : propagateBroadcast fuel B₁ moving h' = some B' := h
          have hself : B₁.lockPriority l₁ = max (B.lockPriority l₁) moving := Function.update_self ..
          by_cases hrest : B₁.OnChain h' l
          · rw [ih hrec hrest]
            by_cases hll : l = l₁
            · rw [hll, hself, max_assoc, max_self]
            · have hother : B₁.lockPriority l = B.lockPriority l := Function.update_of_ne hll ..
              rw [hother]
          · -- then it is the lock of the thread itself
            have hxt : x = t := by
              refine ((reaches_iff hl₁ hh).mp hx).resolve_right fun hx' => hrest ⟨x, hx', hw⟩
            rw [hxt, hl₁] at hw
            obtain rfl : l₁ = l := Option.some.inj hw
            have hkeep : B'.lockPriority l₁ = B₁.lockPriority l₁ :=
              ((propagateBroadcast_raised hrec).locks l₁).resolve_right fun hc => hrest hc.2
            rw [hkeep, hself]

theorem propagateBroadcast_broadcast (h : propagateBroadcast fuel B moving t = some B') :
    Broadcast B moving t B' := by
  have hr := propagateBroadcast_raised h
  refine ⟨hr.frame, fun x hx => ?_, hr.others, fun l hl => propagateBroadcast_onChain h hl,
    fun l hl => ?_⟩
  · rw [hr.reached x hx, max_comm]
  · exact (hr.locks l).resolve_right fun hc => hl hc.2

/-- Whom the thread reaches is in the set of threads. -/
theorem HeldBy.reaches (hB : B.HeldBy threads) (ht : t ∈ threads) {x : Nat}
    (hx : Relation.ReflTransGen B.Donates t x) : x ∈ threads := by
  induction hx with
  | refl => exact ht
  | tail _ hstep _ =>
      obtain ⟨l, -, hh⟩ := hstep
      exact hB l _ hh

theorem propagateBroadcast_ends (hB : B.HeldBy threads) (hacyclic : B.Acyclic) (ht : t ∈ threads)
    (moving : Int) : ∃ B', (∀ fuel, threads.card ≤ fuel → propagateBroadcast fuel B moving t = some B') ∧
      Broadcast B moving t B' := by
  obtain ⟨B', h⟩ : ∃ B', propagateBroadcast threads.card B moving t = some B' :=
    propagateBroadcast_returns (fun x hx => hB.reaches ht hx) (fun x _ => hacyclic x) (Nat.le_refl _)
  exact ⟨B', fun fuel hfuel => propagateBroadcast_mono h hfuel, propagateBroadcast_broadcast h⟩

/-- Nobody whom the thread waits for has less than it gave. -/
theorem Broadcast.outranked (h : Broadcast B (B.effectivePriority t) t B') {x : Nat}
    (hx : Relation.TransGen B'.Donates t x) : B'.effectivePriority t ≤ B'.effectivePriority x := by
  have hD : B'.Donates = B.Donates := by
    rw [h.frame]
    rfl
  rw [hD] at hx
  rw [h.threads t .refl, h.threads x hx.to_reflTransGen, max_self]
  exact le_max_right _ _

theorem request_broadcast {h : Nat} (hh : B.holder l = some h) (hreq : B.request fuel t l = some B') :
    Broadcast (B.setWaiting t (some l)) ((B.setWaiting t (some l)).effectivePriority t) t B' := by
  simp only [request, hh] at hreq
  exact propagateBroadcast_broadcast hreq

end Books

namespace Sched

/-- The loop of `sema_down` leaves the books alone. -/
theorem semaDown_books (s : St) (k : SemaId) (here after : Pc) : (s.semaDown k here after).books =
    s.books := by
  unfold St.semaDown
  split <;> rfl

/-- From `lock_acquire` to the thread's going to sleep, or to its having the lock. -/
theorem lockAcquire_outranked {s s' : St} {l : Nat} {c : Option Nat} (h : s.lockAcquire l c = some s')
    (hheld : s.books.holder l ≠ none) (here after : Pc) {x : Nat}
    (hx : Relation.TransGen (s'.semaDown (.lock l) here after).books.Donates s.current x) :
    (s'.semaDown (.lock l) here after).eff s.current ≤ (s'.semaDown (.lock l) here after).eff x := by
  unfold St.eff
  rw [semaDown_books] at hx ⊢
  unfold St.lockAcquire at h
  split at h
  · cases h
  · obtain ⟨B, hreq, rfl⟩ := Option.map_eq_some_iff.mp h
    obtain ⟨u, hu⟩ := Option.ne_none_iff_exists'.mp hheld
    exact (Books.request_broadcast hu hreq).outranked hx

end Sched

/-- Chained donation: what is written, that the recursion ends, and who is outranked by a
thread that has blocked. -/
theorem chained_donation (B : Books) (threads : Finset Nat) (hB : B.HeldBy threads) :
    (∀ t ∈ threads, B.Acyclic → ∀ p, ∃ B',
      (∀ fuel, threads.card ≤ fuel → Books.propagateBroadcast fuel B p t = some B') ∧
      B.Broadcast p t B') ∧
    (∀ t ∈ threads, ∀ l h, B.holder l = some h → (B.setWaiting t (some l)).Acyclic → ∃ B',
      (∀ fuel, threads.card ≤ fuel → B.request fuel t l = some B') ∧
        ∀ x, Relation.TransGen B'.Donates t x → B'.effectivePriority t ≤ B'.effectivePriority x) ∧
    ∀ s s' l c here after x, Sched.St.books s = B → s.lockAcquire l c = some s' → B.holder l ≠ none →
      Relation.TransGen (s'.semaDown (.lock l) here after).books.Donates s.current x →
      (s'.semaDown (.lock l) here after).eff s.current ≤ (s'.semaDown (.lock l) here after).eff x := by
  refine ⟨fun t ht hacyclic p => Books.propagateBroadcast_ends hB hacyclic ht p,
    fun t ht l h hh hacyclic => ?_, ?_⟩
  · obtain ⟨B', hall, hb⟩ := Books.propagateBroadcast_ends (B := B.setWaiting t (some l)) hB hacyclic ht
      (B.effectivePriority t)
    refine ⟨B', fun fuel hfuel => ?_, fun x hx => Books.Broadcast.outranked hb hx⟩
    simp only [Books.request, hh]
    exact hall fuel hfuel
  · rintro s s' l c here after x rfl h hheld hx
    exact Sched.lockAcquire_outranked h hheld here after hx

/-- Thread 3 waits for a lock of thread 2, which waits for one of thread 1. -/
def chainBooks : Books where
  priority t := t
  effectivePriority t := t
  acquiredLockList t := if t = 1 then [1] else if t = 2 then [2] else []
  waitingLock t := if t = 3 then some 2 else if t = 2 then some 1 else none
  holder l := if l = 1 then some 1 else if l = 2 then some 2 else none
  lockPriority _ := -1

theorem chainBooks_heldBy : chainBooks.HeldBy {1, 2, 3} := by
  intro l h hh
  unfold chainBooks at hh
  dsimp only at hh
  split at hh
  · cases hh
    decide
  · split at hh
    · cases hh
      decide
    · cases hh

theorem chainBooks_donates {w x : Nat} (h : chainBooks.Donates w x) : x < w := by
  obtain ⟨l, hw, hl⟩ := h
  unfold chainBooks at hw hl
  dsimp only at hw hl
  split at hw
  · cases hw
    cases hl
    omega
  · split at hw
    · cases hw
      cases hl
      omega
    · cases hw

theorem chainBooks_acyclic : chainBooks.Acyclic := by
  have hlt : ∀ {w x}, Relation.TransGen chainBooks.Donates w x → x < w := by
    intro w x h
    induction h with
    | single h => exact chainBooks_donates h
    | tail _ h ih => exact (chainBooks_donates h).trans ih
  exact fun x hx => Nat.lt_irrefl x (hlt hx)

theorem chained_donation_small : ∃ B', Books.propagateBroadcast 3 chainBooks 40 3 = some B' ∧
    B'.effectivePriority 1 = 40 ∧ B'.lockPriority 1 = 40 := by
  obtain ⟨B', hall, hb⟩ := (chained_donation chainBooks {1, 2, 3} chainBooks_heldBy).1 3 (by decide)
    chainBooks_acyclic 40
  have h₂ : Relation.ReflTransGen chainBooks.Donates 3 2 := .single ⟨2, rfl, rfl⟩
  refine ⟨B', hall 3 (by decide), ?_, ?_⟩
  · rw [hb.threads 1 (h₂.tail ⟨1, rfl, rfl⟩)]
    rfl
  · rw [hb.locks 1 ⟨2, h₂, rfl⟩]
    rfl

end CS162.Kernel
