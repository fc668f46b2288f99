/-
# `CS162.Lib.Donation` — values that pass along a relation

`v t` is the largest of `t`'s own value `b t` and of the values of those that give
theirs to `t`.  `Stable` says so for every `t`.  Two ways to keep it: change one element
that gives to nobody (`Stable.update`), or let one that gave to nobody give to another,
and raise all that this one reaches (`Stable.raise`).
-/
import Mathlib.Data.Int.Order.Basic
import Mathlib.Logic.Relation
import Mathlib.Order.Bounds.Basic
import Mathlib.Order.MinMax

namespace Donation

/-- The order of the integers, as data that computes: `List.argmax` by an integer is a
computable function with it. -/
instance intPreorder : Preorder Int := Int.instLinearOrder.toPartialOrder.toPreorder

variable {T P : Type*} [LinearOrder P] {R R' : T → T → Prop} {b b' v v' : T → P} {t : T}

/-- What `t` may have its value from. -/
def sources (R : T → T → Prop) (b v : T → P) (t : T) : Set P :=
  {x | x = b t ∨ ∃ w, R w t ∧ x = v w}

/-- Every value is the largest of its sources. -/
def Stable (R : T → T → Prop) (b v : T → P) : Prop := ∀ t, IsGreatest (sources R b v t) (v t)

namespace Stable

variable (h : Stable R b v)

include h

theorem own_le (t : T) : b t ≤ v t := (h t).2 (.inl rfl)

theorem le_of_gives {w : T} (hw : R w t) : v w ≤ v t := (h t).2 (.inr ⟨w, hw, rfl⟩)

/-- What happens to an element that gives to nobody is seen by nobody else. -/
theorem update (hsink : ∀ x, ¬ R' t x) (hR : ∀ w x, x ≠ t → (R' w x ↔ R w x))
    (hb : ∀ x, x ≠ t → b' x = b x) (hv : ∀ x, x ≠ t → v' x = v x)
    (ht : IsGreatest (sources R' b' v' t) (v' t)) : Stable R' b' v' := by
  intro x
  by_cases hx : x = t
  · subst hx
    exact ht
  · have hsame : sources R' b' v' x = sources R b v x := by
      ext y
      simp only [sources, Set.mem_ofPred_eq, hb x hx]
      refine or_congr_right (exists_congr fun w => ?_)
      rw [hR w x hx]
      refine and_congr_right fun hw => ?_
      have hwt : w ≠ t := by
        rintro rfl
        exact hsink x ((hR w x hx).mpr hw)
      rw [hv w hwt]
    rw [hsame, hv x hx]
    exact h x

/-- `t` begins to give to `u`; what `t` reaches is raised to its value. -/
theorem raise {u : T} (hR : ∀ w x, R' w x ↔ R w x ∨ (w = t ∧ x = u))
    (hraised : ∀ x, Relation.ReflTransGen R' t x → v' x = max (v t) (v x))
    (hsame : ∀ x, ¬ Relation.ReflTransGen R' t x → v' x = v x) : Stable R' b v' := by
  have hge : ∀ x, v x ≤ v' x := by
    intro x
    by_cases hx : Relation.ReflTransGen R' t x
    · rw [hraised x hx]
      exact le_max_right _ _
    · exact (hsame x hx).ge
  have hself : v' t = v t := by
    rw [hraised t .refl, max_self]
  intro x
  constructor
  · by_cases hx : Relation.ReflTransGen R' t x
    · cases le_or_gt (v t) (v x) with
      | inl hle =>
          -- the old value, from the old source
          have hval : v' x = v x := (hraised x hx).trans (max_eq_right hle)
          rw [hval]
          cases (h x).1 with
          | inl heq => exact .inl heq
          | inr hw =>
              obtain ⟨w, hw, heq⟩ := hw
              refine .inr ⟨w, (hR w x).mpr (.inl hw), ?_⟩
              by_cases hwr : Relation.ReflTransGen R' t w
              · rw [hraised w hwr, ← heq, max_eq_right hle]
              · rw [hsame w hwr, heq]
      | inr hlt =>
          -- the value of `t`, through the element before `x`
          have hval : v' x = v t := (hraised x hx).trans (max_eq_left hlt.le)
          rw [hval]
          cases hx with
          | refl => exact absurd hlt (lt_irrefl _)
          | tail hw hwx =>
              refine .inr ⟨_, hwx, ?_⟩
              rw [hraised _ hw]
              cases (hR _ x).mp hwx with
              | inl hold => exact (max_eq_left ((h.le_of_gives hold).trans hlt.le)).symm
              | inr hnew => rw [hnew.1, max_self]
    · rw [hsame x hx]
      cases (h x).1 with
      | inl heq => exact .inl heq
      | inr hw =>
          obtain ⟨w, hw, heq⟩ := hw
          have hwx := (hR w x).mpr (.inl hw)
          refine .inr ⟨w, hwx, ?_⟩
          rw [heq, hsame w fun hc => hx (hc.tail hwx)]
  · rintro y (rfl | ⟨w, hw, rfl⟩)
    · exact (h.own_le x).trans (hge x)
    · by_cases hwr : Relation.ReflTransGen R' t w
      · rw [hraised x (hwr.tail hw)]
        cases (hR w x).mp hw with
        | inl hold =>
            rw [hraised w hwr]
            exact max_le_max (le_refl _) (h.le_of_gives hold)
        | inr hnew =>
            rw [hnew.1, hself]
            exact le_max_left _ _
      · rw [hsame w hwr]
        cases (hR w x).mp hw with
        | inl hold => exact (h.le_of_gives hold).trans (hge x)
        | inr hnew => exact absurd (hnew.1 ▸ .refl) hwr

end Stable

end Donation
