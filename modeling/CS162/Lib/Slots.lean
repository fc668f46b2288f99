/-
# `Slots` — a finite map kept in numbered slots, and a cursor that reads it

Each slot is empty or holds a key and a value.  An entry is put into some empty slot and
stays there until its key is dropped; which empty slot is taken is left open.  A cursor
reads the slots in order: a read goes to the first entry at or behind it whose key is
visible, and moves the cursor behind that entry.

Two facts about every run of such steps.  The table is the finite map of the history: a key
has the value of the last `put` or `drop` that was about it (`Run.has_iff`).  And the
listing is complete under modification: an entry that stays is read exactly once before the
cursor is told that there is nothing more (`Run.once`), a key is read twice only if it was
dropped and put again in between (`Run.again`).
-/
import Mathlib.Logic.Function.Basic
import Mathlib.Data.List.Induction

namespace CS162.Slots

/-- What each slot holds. -/
abbrev Table (κ ν : Type) := Nat → Option (κ × ν)

variable {κ ν : Type}

namespace Table

/-- The key `k` has the value `a`. -/
def Has (t : Table κ ν) (k : κ) (a : ν) : Prop := ∃ j, t j = some (k, a)

/-- The key is there. -/
def Present (t : Table κ ν) (k : κ) : Prop := ∃ a, t.Has k a

/-- No key is in two slots. -/
def Distinct (t : Table κ ν) : Prop :=
  ∀ i j k a b, t i = some (k, a) → t j = some (k, b) → i = j

end Table

/-- A table and a cursor. -/
structure State (κ ν : Type) where
  table : Table κ ν
  cursor : Nat

inductive Event (κ ν : Type) where
  | put (k : κ) (a : ν)
  | drop (k : κ)
  | read (k : κ)
  /-- A read that finds nothing. -/
  | stop
  | idle
deriving DecidableEq

/-- The event puts or drops the key. -/
def Event.about [DecidableEq κ] (k : κ) : Event κ ν → Bool
  | put k' _ | drop k' => decide (k' = k)
  | read _ | stop | idle => false

/-- The last event about a key. -/
def lastAbout [DecidableEq κ] (k : κ) (h : List (Event κ ν)) : Option (Event κ ν) :=
  (h.filter (Event.about k)).getLast?

section Steps

variable (Visible : κ → Prop)

/-- No visible key in slot `i`. -/
def Hidden (t : Table κ ν) (i : Nat) : Prop := ∀ k a, t i = some (k, a) → ¬ Visible k

inductive Step : State κ ν → Event κ ν → State κ ν → Prop where
  | put {t : Table κ ν} {p j : Nat} {k : κ} {a : ν} : ¬ t.Present k → t j = none →
      Step ⟨t, p⟩ (.put k a) ⟨Function.update t j (some (k, a)), p⟩
  | drop {t : Table κ ν} {p j : Nat} {k : κ} {a : ν} : t j = some (k, a) →
      Step ⟨t, p⟩ (.drop k) ⟨Function.update t j none, p⟩
  | read {t : Table κ ν} {p j : Nat} {k : κ} {a : ν} : p ≤ j → t j = some (k, a) → Visible k →
      (∀ i, p ≤ i → i < j → Hidden Visible t i) → Step ⟨t, p⟩ (.read k) ⟨t, j + 1⟩
  | stop {t : Table κ ν} {p : Nat} : (∀ i, p ≤ i → Hidden Visible t i) → Step ⟨t, p⟩ .stop ⟨t, p⟩
  | idle {s : State κ ν} : Step s .idle s

/-- A run, with the states that its events were met in. -/
inductive Run (s₀ : State κ ν) : List (State κ ν × Event κ ν) → State κ ν → Prop where
  | nil : Run s₀ [] s₀
  | snoc {tr : List (State κ ν × Event κ ν)} {s s' : State κ ν} {e : Event κ ν} :
      Run s₀ tr s → Step Visible s e s' → Run s₀ (tr ++ [(s, e)]) s'

end Steps

variable {Visible : κ → Prop} {s s' s₀ : State κ ν} {e : Event κ ν} {t : Table κ ν}
  {tr : List (State κ ν × Event κ ν)} {k : κ} {a : ν} {j : Nat}

/-! ## One step -/

theorem Table.Distinct.drop (h : t.Distinct) (hj : t j = some (k, a)) :
    ¬ Table.Present (Function.update t j none) k := by
  rintro ⟨b, i, hi⟩
  by_cases hij : i = j
  · rw [hij, Function.update_self] at hi
    cases hi
  · rw [Function.update_of_ne hij] at hi
    exact hij (h i j k b a hi hj)

/-- No step gives a name twice. -/
theorem Step.distinct (h : Step Visible s e s') (hd : s.table.Distinct) : s'.table.Distinct := by
  cases h with
  | @put t p j k a hnew hfree =>
      intro i₁ i₂ k' a₁ a₂ h₁ h₂
      change Function.update t j (some (k, a)) i₁ = _ at h₁
      change Function.update t j (some (k, a)) i₂ = _ at h₂
      by_cases hj₁ : i₁ = j
      · by_cases hj₂ : i₂ = j
        · rw [hj₁, hj₂]
        · rw [hj₁, Function.update_self] at h₁
          rw [Function.update_of_ne hj₂] at h₂
          cases h₁
          exact absurd ⟨a₂, i₂, h₂⟩ hnew
      · rw [Function.update_of_ne hj₁] at h₁
        by_cases hj₂ : i₂ = j
        · rw [hj₂, Function.update_self] at h₂
          cases h₂
          exact absurd ⟨a₁, i₁, h₁⟩ hnew
        · rw [Function.update_of_ne hj₂] at h₂
          exact hd i₁ i₂ k' a₁ a₂ h₁ h₂
  | @drop t p j k a hj =>
      intro i₁ i₂ k' a₁ a₂ h₁ h₂
      change Function.update t j none i₁ = _ at h₁
      change Function.update t j none i₂ = _ at h₂
      by_cases hj₁ : i₁ = j
      · rw [hj₁, Function.update_self] at h₁
        cases h₁
      · by_cases hj₂ : i₂ = j
        · rw [hj₂, Function.update_self] at h₂
          cases h₂
        · rw [Function.update_of_ne hj₁] at h₁
          rw [Function.update_of_ne hj₂] at h₂
          exact hd i₁ i₂ k' a₁ a₂ h₁ h₂
  | read => exact hd
  | stop => exact hd
  | idle => exact hd

/-- An entry stays in its slot until its key is dropped. -/
theorem Step.stays (h : Step Visible s e s') (hd : s.table.Distinct) (hj : s.table j = some (k, a))
    (he : e ≠ .drop k) : s'.table j = some (k, a) := by
  cases h with
  | @put t p i k' b hnew hfree =>
      have hij : j ≠ i := by
        rintro rfl
        cases hj.symm.trans hfree
      exact (Function.update_of_ne hij _ t).trans hj
  | @drop t p i k' b hi =>
      have hij : j ≠ i := by
        rintro rfl
        cases hj.symm.trans hi
        exact he rfl
      exact (Function.update_of_ne hij _ t).trans hj
  | read => exact hj
  | stop => exact hj
  | idle => exact hj

/-- After a `drop` the key is not there. -/
theorem Step.absent (h : Step Visible s (.drop k) s') (hd : s.table.Distinct) :
    ¬ s'.table.Present k := by
  cases h with
  | drop hj => exact hd.drop hj

/-- A key comes by a `put` alone. -/
theorem Step.comes (h : Step Visible s e s') (habs : ¬ s.table.Present k) (hp : s'.table.Present k) :
    ∃ a, e = .put k a := by
  obtain ⟨b, i, hi⟩ := hp
  cases h with
  | @put t p j k' a hnew hfree =>
      change Function.update t j (some (k', a)) i = _ at hi
      by_cases hij : i = j
      · rw [hij, Function.update_self] at hi
        cases hi
        exact ⟨_, rfl⟩
      · rw [Function.update_of_ne hij] at hi
        exact absurd ⟨b, i, hi⟩ habs
  | @drop t p j k' a hj =>
      change Function.update t j none i = _ at hi
      by_cases hij : i = j
      · rw [hij, Function.update_self] at hi
        cases hi
      · rw [Function.update_of_ne hij] at hi
        exact absurd ⟨b, i, hi⟩ habs
  | read => exact absurd ⟨b, i, hi⟩ habs
  | stop => exact absurd ⟨b, i, hi⟩ habs
  | idle => exact absurd ⟨b, i, hi⟩ habs

/-- A read finds a visible key. -/
theorem Step.read_present (h : Step Visible s (.read k) s') : Visible k ∧ s.table.Present k := by
  cases h with
  | read _ hj hv _ => exact ⟨hv, _, _, hj⟩

/-- A read that finds nothing. -/
theorem Step.stop_hidden (h : Step Visible s .stop s') :
    ∀ i, s.cursor ≤ i → Hidden Visible s.table i := by
  cases h with
  | stop hnone => exact hnone

/-- The cursor does not go back. -/
theorem Step.cursor_le (h : Step Visible s e s') : s.cursor ≤ s'.cursor := by
  cases h with
  | put => exact Nat.le_refl _
  | drop => exact Nat.le_refl _
  | read hpj => exact Nat.le_succ_of_le hpj
  | stop => exact Nat.le_refl _
  | idle => exact Nat.le_refl _

/-! ## Runs -/

theorem Run.distinct (h : Run Visible s₀ tr s) (hd : s₀.table.Distinct) : s.table.Distinct := by
  induction h with
  | nil => exact hd
  | snoc _ hstep ih => exact hstep.distinct ih

theorem Run.eq_of_nil (h : Run Visible s₀ [] s) : s = s₀ := by
  generalize htr : [] = tr at h
  cases h with
  | nil => rfl
  | snoc => exact absurd htr.symm (List.append_ne_nil_of_right_ne_nil _ (List.cons_ne_nil _ _))

/-- A run in two parts. -/
theorem Run.split {tr₁ tr₂ : List (State κ ν × Event κ ν)} (h : Run Visible s₀ (tr₁ ++ tr₂) s) :
    ∃ s₁, Run Visible s₀ tr₁ s₁ ∧ Run Visible s₁ tr₂ s := by
  generalize htr : tr₁ ++ tr₂ = tr at h
  induction h generalizing tr₂ with
  | nil =>
      obtain ⟨rfl, rfl⟩ := List.append_eq_nil_iff.mp htr
      exact ⟨_, .nil, .nil⟩
  | @snoc tr s s' e hrun hstep ih =>
      rcases List.eq_nil_or_concat tr₂ with rfl | ⟨tr₂, x, rfl⟩
      · rw [List.append_nil] at htr
        subst htr
        exact ⟨_, .snoc hrun hstep, .nil⟩
      · rw [List.concat_eq_append, ← List.append_assoc] at htr
        obtain ⟨rfl, hx⟩ := List.append_inj' htr rfl
        cases hx
        obtain ⟨s₁, h₁, h₂⟩ := ih rfl
        refine ⟨s₁, h₁, ?_⟩
        rw [List.concat_eq_append]
        exact h₂.snoc hstep

theorem Run.last {x : State κ ν × Event κ ν} (h : Run Visible s₀ (tr ++ [x]) s) :
    Run Visible s₀ tr x.1 ∧ Step Visible x.1 x.2 s := by
  generalize htr : tr ++ [x] = tr' at h
  cases h with
  | nil => exact absurd htr (List.append_ne_nil_of_right_ne_nil _ (List.cons_ne_nil _ _))
  | snoc hrun hstep =>
      obtain ⟨rfl, hx⟩ := List.append_inj' htr rfl
      cases hx
      exact ⟨hrun, hstep⟩

/-- The first event is met in the state the run starts in. -/
theorem Run.head {x : State κ ν × Event κ ν} (h : Run Visible s₀ (x :: tr) s) : x.1 = s₀ := by
  obtain ⟨s₁, hx, -⟩ := (show Run Visible s₀ ([x] ++ tr) s from h).split
  have hlast : Run Visible s₀ ([] ++ [x]) s₁ := hx
  exact hlast.last.1.eq_of_nil

/-- The part of a run before an event, the event, and the part behind. -/
theorem Run.around {tr₁ tr₂ : List (State κ ν × Event κ ν)} {x : State κ ν × Event κ ν}
    (h : Run Visible s₀ (tr₁ ++ x :: tr₂) s) :
    Run Visible s₀ tr₁ x.1 ∧ ∃ s', Step Visible x.1 x.2 s' ∧ Run Visible s' tr₂ s := by
  rw [List.append_cons] at h
  obtain ⟨s₂, h₁, h₂⟩ := h.split
  obtain ⟨h₁, hstep⟩ := h₁.last
  exact ⟨h₁, s₂, hstep, h₂⟩

theorem Run.cursor_le (h : Run Visible s₀ tr s) : s₀.cursor ≤ s.cursor := by
  induction h with
  | nil => exact Nat.le_refl _
  | snoc _ hstep ih => exact Nat.le_trans ih hstep.cursor_le

/-- An entry stays in its slot while its key is not dropped. -/
theorem Run.stays (h : Run Visible s₀ tr s) (hd : s₀.table.Distinct) (hj : s₀.table j = some (k, a))
    (hnone : ∀ x ∈ tr, x.2 ≠ .drop k) : s.table j = some (k, a) := by
  induction h with
  | nil => exact hj
  | @snoc tr s s' e hrun hstep ih =>
      refine hstep.stays (hrun.distinct hd) (ih fun x hx => hnone x (List.mem_append_left _ hx)) ?_
      exact hnone (s, e) (List.mem_append_right _ (List.mem_singleton_self _))

/-- A key that was not there was put. -/
theorem Run.comes (h : Run Visible s₀ tr s) (habs : ¬ s₀.table.Present k) (hp : s.table.Present k) :
    ∃ x ∈ tr, ∃ a, x.2 = .put k a := by
  induction h with
  | nil => exact absurd hp habs
  | @snoc tr s s' e hrun hstep ih =>
      by_cases hs : s.table.Present k
      · obtain ⟨x, hx, hput⟩ := ih hs
        exact ⟨x, List.mem_append_left _ hx, hput⟩
      · exact ⟨(s, e), List.mem_append_right _ (List.mem_singleton_self _), hstep.comes hs hp⟩

/-! ## The finite map -/

section Map

variable [DecidableEq κ]

theorem lastAbout_snoc (h : List (Event κ ν)) (e : Event κ ν) :
    lastAbout k (h ++ [e]) = if e.about k = true then some e else lastAbout k h := by
  unfold lastAbout
  rw [List.filter_append]
  cases he : e.about k with
  | true => simp [he]
  | false => simp [he]

/-- What a step does to the value of one key. -/
theorem Step.has_iff (h : Step Visible s e s') (hd : s.table.Distinct) :
    s'.table.Has k a ↔ if e.about k = true then e = .put k a else s.table.Has k a := by
  split
  · next hk =>
    cases h with
    | @put t p j k' b hnew hfree =>
        obtain rfl : k' = k := of_decide_eq_true hk
        constructor
        · rintro ⟨i, hi⟩
          change Function.update t j (some (k', b)) i = _ at hi
          by_cases hij : i = j
          · rw [hij, Function.update_self] at hi
            cases hi
            rfl
          · rw [Function.update_of_ne hij] at hi
            exact absurd ⟨a, i, hi⟩ hnew
        · intro he
          cases he
          exact ⟨j, Function.update_self ..⟩
    | @drop t p j k' b hj =>
        obtain rfl : k' = k := of_decide_eq_true hk
        refine iff_of_false (fun hhas => hd.drop hj ⟨a, hhas⟩) ?_
        intro he
        cases he
    | read => cases hk
    | stop => cases hk
    | idle => cases hk
  · next hk =>
    constructor
    · intro hhas
      by_contra hnot
      obtain ⟨j, hj⟩ := hhas
      -- the slot held something else before, so it was filled by a `put` of `k`
      cases h with
      | @put t p i k' b hnew hfree =>
          change Function.update t i (some (k', b)) j = _ at hj
          by_cases hij : j = i
          · rw [hij, Function.update_self] at hj
            cases hj
            exact hk (decide_eq_true rfl)
          · rw [Function.update_of_ne hij] at hj
            exact hnot ⟨j, hj⟩
      | @drop t p i k' b hi =>
          change Function.update t i none j = _ at hj
          by_cases hij : j = i
          · rw [hij, Function.update_self] at hj
            cases hj
          · rw [Function.update_of_ne hij] at hj
            exact hnot ⟨j, hj⟩
      | read => exact hnot ⟨j, hj⟩
      | stop => exact hnot ⟨j, hj⟩
      | idle => exact hnot ⟨j, hj⟩
    · rintro ⟨j, hj⟩
      refine ⟨j, h.stays hd hj ?_⟩
      rintro rfl
      exact hk (decide_eq_true rfl)

/-- A key has the value `a` exactly if the last event about it put `a`. -/
theorem Run.has_iff (h : Run Visible s₀ tr s) (hempty : ∀ j, s₀.table j = none) :
    s.table.Has k a ↔ lastAbout k (tr.map Prod.snd) = some (.put k a) := by
  have hd₀ : s₀.table.Distinct := fun i j k a b hi => absurd hi (by rw [hempty]; simp)
  induction h with
  | nil =>
      refine iff_of_false ?_ (by simp [lastAbout])
      rintro ⟨j, hj⟩
      rw [hempty j] at hj
      cases hj
  | @snoc tr s s' e hrun hstep ih =>
      rw [hstep.has_iff (hrun.distinct hd₀), List.map_append, List.map_singleton, lastAbout_snoc]
      split
      · exact Option.some_inj.symm
      · exact ih

end Map

/-! ## The listing -/

/-- What is read is there, and visible. -/
theorem Run.read_present (h : Run Visible s₀ tr s) (hr : (s', .read k) ∈ tr) :
    Visible k ∧ s'.table.Present k := by
  obtain ⟨tr₁, tr₂, rfl⟩ := List.append_of_mem hr
  obtain ⟨-, s₂, hstep, -⟩ := h.around
  exact hstep.read_present

/-- A key that stays in slot `j` has been read once if the cursor is behind that slot, and
not at all before. -/
theorem Run.reads (h : Run Visible s₀ tr s) (hd : s₀.table.Distinct) (hv : Visible k)
    (hj : s₀.table j = some (k, a)) (hle : s₀.cursor ≤ j) (hstay : ∀ x ∈ tr, x.2 ≠ .drop k) :
    s.cursor ≤ j ∧ (∀ x ∈ tr, x.2 ≠ .read k) ∨ j < s.cursor ∧ ∃ tr₁ s' tr₂,
      tr = tr₁ ++ (s', .read k) :: tr₂ ∧ (∀ x ∈ tr₁, x.2 ≠ .read k) ∧ ∀ x ∈ tr₂, x.2 ≠ .read k := by
  induction h with
  | nil => exact .inl ⟨hle, fun x hx => absurd hx List.not_mem_nil⟩
  | @snoc tr s s' e hrun hstep ih =>
      have hds := hrun.distinct hd
      have hstay' : ∀ x ∈ tr, x.2 ≠ .drop k := fun x hx => hstay x (List.mem_append_left _ hx)
      have hjs := hrun.stays hd hj hstay'
      have hread := ih hstay'
      by_cases he : e = .read k
      · -- a read of `k` goes to its slot
        subst he
        cases hstep with
        | @read t p i k b hpi hi _ _ =>
            obtain rfl : i = j := hds i j k b a hi hjs
            rcases hread with ⟨-, hnone⟩ | ⟨hlt, -⟩
            · refine .inr ⟨Nat.lt_succ_self _, tr, _, [], rfl, hnone, ?_⟩
              exact fun x hx => absurd hx List.not_mem_nil
            · exact absurd hpi (Nat.not_le.mpr hlt)
      · have hnot : ∀ x ∈ [(s, e)], x.2 ≠ Event.read k := by
          intro x hx
          rw [List.mem_singleton.mp hx]
          exact he
        rcases hread with ⟨hcur, hnone⟩ | ⟨hlt, tr₁, s₁, tr₂, rfl, h₁, h₂⟩
        · refine .inl ⟨?_, fun x hx => (List.mem_append.mp hx).elim (hnone x) (hnot x)⟩
          cases hstep with
          | put => exact hcur
          | drop => exact hcur
          | @read t p i k' b hpi hi _ hskip =>
              -- a read of another key does not pass over the slot of `k`
              refine Nat.lt_of_not_le fun hji => ?_
              rcases Nat.lt_or_eq_of_le hji with hlt | rfl
              · exact hskip j hcur hlt k a hjs hv
              · cases hi.symm.trans hjs
                exact he rfl
          | stop => exact hcur
          | idle => exact hcur
        · refine .inr ⟨Nat.lt_of_lt_of_le hlt hstep.cursor_le, tr₁, s₁, tr₂ ++ [(s, e)], ?_, h₁, ?_⟩
          · rw [List.append_assoc]
            rfl
          · exact fun x hx => (List.mem_append.mp hx).elim (h₂ x) (hnot x)

/-- Between states that all have the key it is not dropped. -/
theorem Run.kept (h : Run Visible s₀ tr s) (hd : s₀.table.Distinct) (hs : s.table.Present k)
    (hall : ∀ x ∈ tr, x.1.table.Present k) : ∀ x ∈ tr, x.2 ≠ .drop k := by
  intro x hx he
  obtain ⟨tr₁, tr₂, rfl⟩ := List.append_of_mem hx
  obtain ⟨h₁, s₂, hstep, h₂⟩ := h.around
  rw [he] at hstep
  have habs := hstep.absent (h₁.distinct hd)
  -- the next state is one of those that have it
  cases tr₂ with
  | nil =>
      rw [h₂.eq_of_nil] at hs
      exact habs hs
  | cons y tr₂ =>
      have hy := hall y (List.mem_append_right _ (List.mem_cons_of_mem _ List.mem_cons_self))
      rw [h₂.head] at hy
      exact habs hy

/-- A key that is there from before the first read until a read finds nothing is read
exactly once in between. -/
theorem Run.once {pre mid post : List (State κ ν × Event κ ν)}
    (h : Run Visible s₀ (pre ++ mid ++ (s', .stop) :: post) s) (hd : s₀.table.Distinct)
    (hstart : s₀.cursor = 0) (hpre : ∀ x ∈ pre, ∀ k', x.2 ≠ .read k') (hv : Visible k)
    (hall : ∀ x ∈ mid, x.1.table.Present k) (hs : s'.table.Present k) :
    ∃ tr₁ s₁ tr₂, mid = tr₁ ++ (s₁, .read k) :: tr₂ ∧ (∀ x ∈ tr₁, x.2 ≠ .read k) ∧
      ∀ x ∈ tr₂, x.2 ≠ .read k := by
  obtain ⟨hrun, s₂, hstop, -⟩ := h.around
  obtain ⟨s₁, h₁, h₂⟩ := hrun.split
  have hd₁ := h₁.distinct hd
  -- nothing has been read before `mid`
  have hzero : s₁.cursor = 0 := by
    clear h hrun h₂ hd₁ hstop
    induction h₁ with
    | nil => exact hstart
    | @snoc tr s s' e hrun hstep ih =>
        have h0 := ih fun x hx => hpre x (List.mem_append_left _ hx)
        have hne : ∀ k', e ≠ .read k' :=
          hpre (s, e) (List.mem_append_right _ (List.mem_singleton_self _))
        cases hstep with
        | put => exact h0
        | drop => exact h0
        | read => exact absurd rfl (hne _)
        | stop => exact h0
        | idle => exact h0
  have hfirst : s₁.table.Present k := by
    cases mid with
    | nil => exact h₂.eq_of_nil ▸ hs
    | cons y mid => exact h₂.head ▸ hall y List.mem_cons_self
  obtain ⟨a, j, hj⟩ := hfirst
  have hkept := h₂.kept hd₁ hs hall
  have hjs := h₂.stays hd₁ hj hkept
  rcases h₂.reads hd₁ hv hj (hzero ▸ Nat.zero_le j) hkept with ⟨hcur, -⟩ | ⟨-, hone⟩
  · cases hstop with
    | stop hnone => exact absurd hv (hnone j hcur k a hjs)
  · exact hone

/-- Between two reads of one key the key is dropped and put again. -/
theorem Run.again {pre mid post : List (State κ ν × Event κ ν)} {s₁ s₂ : State κ ν}
    (h : Run Visible s₀ (pre ++ (s₁, .read k) :: (mid ++ (s₂, .read k) :: post)) s)
    (hd : s₀.table.Distinct) : ∃ m₁ x₁ m₂ x₂ m₃ a,
      mid = m₁ ++ (x₁, .drop k) :: (m₂ ++ (x₂, .put k a) :: m₃) := by
  obtain ⟨h₁, s', hread, h₂⟩ := h.around
  obtain ⟨hmid, s'', hread₂, -⟩ := h₂.around
  dsimp only at h₁ hread hmid hread₂
  have hd₁ := h₁.distinct hd
  have hd' := hread.distinct hd₁
  have hdrop : ∃ x ∈ mid, x.2 = .drop k := by
    by_contra hnone
    cases hread with
    | @read t p j k a hpj hj hv hskip =>
        -- then `k` is still in slot `j`, and the cursor is behind it
        have hstill := hmid.stays hd' hj fun x hx he => hnone ⟨x, hx, he⟩
        have hcur := hmid.cursor_le
        have hds := hmid.distinct hd'
        cases hread₂ with
        | @read t₂ p₂ i _ b hpi hi _ _ =>
            obtain rfl : i = j := hds i j k b a hi hstill
            exact absurd (Nat.le_trans hcur hpi) (Nat.not_succ_le_self i)
  obtain ⟨⟨x₁, e⟩, hx, he⟩ := hdrop
  obtain rfl : e = .drop k := he
  obtain ⟨m₁, rest, rfl⟩ := List.append_of_mem hx
  obtain ⟨hm₁, y, hstep, hrest⟩ := hmid.around
  have hthere : s₂.table.Present k := by
    cases hread₂ with
    | read _ hi _ _ => exact ⟨_, _, hi⟩
  obtain ⟨⟨x₂, e⟩, hx₂, b, he⟩ := hrest.comes (hstep.absent (hm₁.distinct hd')) hthere
  obtain rfl : e = .put k b := he
  obtain ⟨m₂, m₃, rfl⟩ := List.append_of_mem hx₂
  exact ⟨m₁, x₁, m₂, x₂, m₃, b, rfl⟩

end CS162.Slots
