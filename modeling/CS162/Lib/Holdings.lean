/-
# `CS162.Lib.Holdings` — blocks that are handed out

An allocator that hands out blocks of units, each a set, keeps account of the units that are in use.
`Holdings used live` says that its account is right: the units in use are those of the blocks that are
out, and no unit is in two of them.  A block that is taken must not have been in use; one that is given
back leaves exactly its units.

What is out may also be listed owner by owner, as a `flatMap` over the owners: `List.flatMap_gain` is for
one of them getting more.
-/
import Mathlib.Data.List.Nodup
import Mathlib.Data.List.Pairwise
import Mathlib.Data.Set.Lattice
import Mathlib.Order.CompletePartialOrder

variable {ι : Type} {used used' s t : Set ι} {live live' : List (Set ι)}

structure Holdings (used : Set ι) (live : List (Set ι)) : Prop where
  apart : live.Pairwise Disjoint
  used_iff : ∀ k, k ∈ used ↔ ∃ s ∈ live, k ∈ s

namespace Holdings

theorem nil : Holdings (∅ : Set ι) [] :=
  ⟨.nil, fun k => iff_of_false (Set.notMem_empty k) fun ⟨_, h, _⟩ => List.not_mem_nil h⟩

theorem sub (h : Holdings used live) (hs : s ∈ live) : s ⊆ used := fun k hk => (h.used_iff k).mpr
    ⟨s, hs, hk⟩

/-- The order does not matter. -/
theorem perm (h : Holdings used live) (hp : live.Perm live') : Holdings used live' := by
  refine ⟨(hp.pairwise_iff fun hd => Disjoint.symm hd).mp h.apart, fun k => ?_⟩
  rw [h.used_iff]
  exact exists_congr fun s => and_congr_left fun _ => hp.mem_iff

theorem take (h : Holdings used live) (hs : Disjoint s used) (hu : ∀ k, k ∈ used' ↔ k ∈ used ∨ k ∈ s) :
    Holdings used' (s :: live) := by
  refine ⟨List.pairwise_cons.mpr ⟨fun t ht => hs.mono_right (h.sub ht), h.apart⟩, fun k => ?_⟩
  rw [hu, h.used_iff]
  simp only [List.mem_cons, exists_eq_or_imp]
  exact or_comm

theorem give (h : Holdings used (s :: live)) (hu : ∀ k, k ∈ used' ↔ k ∈ used ∧ k ∉ s) :
    Holdings used' live := by
  obtain ⟨hs, hrest⟩ := List.pairwise_cons.mp h.apart
  refine ⟨hrest, fun k => ?_⟩
  rw [hu, h.used_iff]
  simp only [List.mem_cons, exists_eq_or_imp]
  constructor
  · rintro ⟨hk | hk, hno⟩
    · exact absurd hk hno
    · exact hk
  · rintro ⟨t, ht, hk⟩
    exact ⟨.inr ⟨t, ht, hk⟩, fun hks => Set.disjoint_left.mp (hs t ht) hks hk⟩

theorem disjoint (h : Holdings used (s :: live)) (ht : t ∈ live) : Disjoint s t :=
  (List.pairwise_cons.mp h.apart).1 t ht

end Holdings

/-! ## Owners -/

section Owners

variable {α β : Type} {f g : α → List β} {x : α} {ys : List β} {l : List α}

theorem List.flatMap_gain (hnodup : l.Nodup) (hx : x ∈ l) (hgain : (g x).Perm (ys ++ f x))
    (hsame : ∀ z ∈ l, z ≠ x → g z = f z) : (l.flatMap g).Perm (ys ++ l.flatMap f) := by
  induction l with
  | nil => exact absurd hx List.not_mem_nil
  | cons z l ih =>
      obtain ⟨hz, hnodup⟩ := List.nodup_cons.mp hnodup
      rw [List.flatMap_cons, List.flatMap_cons]
      rcases List.mem_cons.mp hx with rfl | hx
      · have hrest : l.flatMap g = l.flatMap f := List.flatMap_congr fun y hy =>
          hsame y (List.mem_cons_of_mem x hy) fun hyx => hz (hyx ▸ hy)
        rw [hrest, ← List.append_assoc]
        exact hgain.append_right _
      · have hne : z ≠ x := fun hzx => hz (hzx ▸ hx)
        rw [hsame z (List.mem_cons_self ..) hne]
        have hrest := ih hnodup hx fun y hy => hsame y (List.mem_cons_of_mem z hy)
        refine (hrest.append_left (f z)).trans ?_
        rw [← List.append_assoc, ← List.append_assoc]
        exact List.perm_append_comm.append_right _

/-- Everything has one owner. -/
theorem List.owner_unique {a b : α} {z : β} (h : (l.flatMap f).Nodup) (ha : a ∈ l) (hb : b ∈ l)
    (hza : z ∈ f a)
    (hzb : z ∈ f b) : a = b := by
  induction l with
  | nil => exact absurd ha List.not_mem_nil
  | cons x l ih =>
      rw [List.flatMap_cons] at h
      obtain ⟨-, hrest, hdisj⟩ := List.nodup_append.mp h
      rcases List.mem_cons.mp ha with rfl | ha' <;> rcases List.mem_cons.mp hb with rfl | hb'
      · rfl
      · exact absurd rfl (hdisj z hza z (List.mem_flatMap.mpr ⟨b, hb', hzb⟩))
      · exact absurd rfl (hdisj z hzb z (List.mem_flatMap.mpr ⟨a, ha', hza⟩))
      · exact ih hrest ha' hb'

/-- What is not empty lists its owners once. -/
theorem List.nodup_owners (h : (l.flatMap f).Nodup) (hne : ∀ z ∈ l, f z ≠ []) : l.Nodup := by
  refine (List.nodup_flatMap.mp h).2.imp_of_mem fun {a b} ha hb hd hab => ?_
  obtain ⟨y, ys, hy⟩ := List.exists_cons_of_ne_nil (hne a ha)
  have hmem : y ∈ f a := by
    rw [hy]
    exact List.mem_cons_self ..
  exact hd hmem (hab ▸ hmem)

end Owners
