/-
# `RoundRobin` — a queue that is served by rank

A turn takes the first of the highest ranked elements out of a queue and puts it back at the
end.  Nothing is said about the queue's being sorted.  Still elements of one rank are served
in the order in which they stand (`Turns.before`), and none is served twice before another
of its rank has been served in between (`Turns.fair`).
-/
import Mathlib.Data.List.MinMax

namespace RoundRobin

variable {α P : Type*} [DecidableEq α] [LinearOrder P] {rank : α → P} {q q' q'' tr : List α} {a b x : α}

/-- The first of the highest ranked elements goes to the end. -/
def Turn (rank : α → P) (q : List α) (x : α) (q' : List α) : Prop :=
  q.argmax rank = some x ∧ q' = q.erase x ++ [x]

/-- Turn after turn, with the elements that were taken. -/
inductive Turns (rank : α → P) : List α → List α → List α → Prop where
  | nil (q : List α) : Turns rank q [] q
  | cons {x : α} {q q' q'' tr : List α} : Turn rank q x q' → Turns rank q' tr q'' →
      Turns rank q (x :: tr) q''

namespace Turn

theorem mem (h : Turn rank q x q') : x ∈ q := List.argmax_mem h.1

theorem highest (h : Turn rank q x q') (ha : a ∈ q) : rank a ≤ rank x := List.le_of_mem_argmax ha h.1

theorem perm (h : Turn rank q x q') : q'.Perm q := by
  rw [h.2]
  exact (List.perm_append_comm.trans (List.perm_cons_erase h.mem).symm)

/-- Of two elements of one rank the later one is not taken. -/
theorem before (h : Turn rank q x q') (hq : q.Nodup) (hab : [a, b].Sublist q) (hrank : rank a = rank b) :
    x = a ∨ x ≠ b ∧ [a, b].Sublist q' := by
  by_cases hxa : x = a
  · exact .inl hxa
  have hxb : x ≠ b := by
    rintro rfl
    obtain ⟨r₁, r₂, rfl, ha, hx⟩ := List.cons_sublist_iff.mp hab
    rw [List.singleton_sublist] at hx
    have hnot : x ∉ r₁ := fun hc => (List.nodup_append.mp hq).2.2 x hc x hx rfl
    have hfirst := (List.mem_argmax_iff.mp h.1).2.2 a (List.mem_append_left r₂ ha) hrank.ge
    rw [List.idxOf_append_of_mem ha, List.idxOf_append_of_notMem hnot] at hfirst
    have hlt := List.idxOf_lt_length_iff.mpr ha
    omega
  have hrest : [a, b].Sublist (q.erase x) := by
    have herase := hab.erase x
    rw [List.erase_of_not_mem (by simp [hxa, hxb])] at herase
    exact herase
  rw [h.2]
  exact .inr ⟨hxb, hrest.trans (List.sublist_append_left ..)⟩

/-- The element that was taken stands behind all others. -/
theorem last (h : Turn rank q x q') (hb : b ∈ q) (hbx : b ≠ x) : [b, x].Sublist q' := by
  rw [h.2]
  have hmem : b ∈ q.erase x := (List.mem_erase_of_ne hbx).mpr hb
  exact (List.singleton_sublist.mpr hmem).append (List.Sublist.refl [x])

end Turn

namespace Turns

theorem perm (h : Turns rank q tr q') : q'.Perm q := by
  induction h with
  | nil q => exact .refl q
  | cons hturn _ ih => exact ih.trans hturn.perm

theorem nodup (h : Turns rank q tr q') (hq : q.Nodup) : q'.Nodup := h.perm.nodup_iff.mpr hq

theorem split {l₁ l₂ : List α} (h : Turns rank q (l₁ ++ l₂) q'') :
    ∃ q', Turns rank q l₁ q' ∧ Turns rank q' l₂ q'' := by
  induction l₁ generalizing q with
  | nil => exact ⟨q, .nil q, h⟩
  | cons x l₁ ih =>
      cases h with
      | cons hturn hrest =>
          obtain ⟨q', h₁, h₂⟩ := ih hrest
          exact ⟨q', .cons hturn h₁, h₂⟩

/-- What stands before another of the same rank is taken before it. -/
theorem before (h : Turns rank q tr q') (hq : q.Nodup) (hab : [a, b].Sublist q) (hrank : rank a = rank b)
    (hb : b ∈ tr) : ∃ l₁ l₂, tr = l₁ ++ a :: l₂ ∧ b ∉ l₁ := by
  induction h with
  | nil q => cases hb
  | @cons x q q₁ q₂ tr hturn hrest ih =>
      rcases hturn.before hq hab hrank with rfl | ⟨hxb, hab₁⟩
      · exact ⟨[], tr, rfl, List.not_mem_nil⟩
      · have hb' : b ∈ tr := (List.mem_cons.mp hb).resolve_left (Ne.symm hxb)
        obtain ⟨l₁, l₂, rfl, hnot⟩ := ih (hturn.perm.nodup_iff.mpr hq) hab₁ hb'
        exact ⟨x :: l₁, l₂, rfl, List.not_mem_cons_of_ne_of_not_mem (Ne.symm hxb) hnot⟩

/-- Between two turns of one element all others of its rank have theirs. -/
theorem fair {l₁ l₂ l₃ : List α} (h : Turns rank q (l₁ ++ a :: (l₂ ++ a :: l₃)) q') (hq : q.Nodup)
    (hb : b ∈ q) (hba : b ≠ a) (hrank : rank b = rank a) : b ∈ l₂ := by
  obtain ⟨q₁, h₁, hrest⟩ := h.split
  cases hrest with
  | @cons _ _ q₂ _ _ hturn hrest =>
      have hb₁ : b ∈ q₁ := h₁.perm.mem_iff.mpr hb
      have hq₂ : q₂.Nodup := hturn.perm.nodup_iff.mpr (h₁.nodup hq)
      obtain ⟨m₁, m₂, hm, hnot⟩ := hrest.before hq₂ (hturn.last hb₁ hba) hrank (by simp)
      rcases List.append_eq_append_iff.mp hm with ⟨c, rfl, hc⟩ | ⟨c, rfl, hc⟩
      · -- `a` would come before `b`
        cases c with
        | nil => exact absurd (List.cons.inj hc).1.symm hba
        | cons y c =>
            rw [(List.cons.inj hc).1] at hnot
            simp at hnot
      · cases c with
        | nil => exact absurd (List.cons.inj hc).1 hba
        | cons y c =>
            rw [(List.cons.inj hc).1]
            simp

end Turns

end RoundRobin
