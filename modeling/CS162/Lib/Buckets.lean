/-
# `CS162.Lib.Buckets` — elements spread over buckets

A list of buckets, each a list.  `push` puts an element into one of them, `erase` takes it out of
whichever it is in, and `spread` deals the elements of one list of buckets out to new ones.  What
matters of the buckets together is their `flatten`, up to order, and that each element is in the
bucket that belongs to it (`Placed`).
-/
import Mathlib.Data.List.Nodup

namespace Buckets

variable {α : Type} {bs : List (List α)} {i : Nat} {e : α} {idx : α → Nat}

/-- To the front of bucket `i`. -/
def push (bs : List (List α)) (i : Nat) (e : α) : List (List α) := bs.modify i (e :: ·)

/-- Each element is in its own bucket. -/
def Placed (idx : α → Nat) (bs : List (List α)) : Prop :=
  ∀ (i : Nat) (b : List α), bs[i]? = some b → ∀ e ∈ b, idx e = i

theorem length_push : (push bs i e).length = bs.length := List.length_modify ..

theorem push_perm (hi : i < bs.length) : (push bs i e).flatten.Perm (e :: bs.flatten) := by
  have hsplit : bs.flatten = (bs.take i).flatten ++ (bs[i] ++ (bs.drop (i + 1)).flatten) := by
    conv_lhs => rw [← List.take_append_drop i bs]
    rw [List.flatten_append, List.drop_eq_getElem_cons hi, List.flatten_cons]
  rw [push, List.modify_eq_take_cons_drop hi, List.flatten_append, List.flatten_cons, hsplit,
    List.cons_append]
  exact List.perm_middle

theorem Placed.push (h : Placed idx bs) (hi : idx e = i) : Placed idx (push bs i e) := by
  intro j b hb x hx
  simp only [Buckets.push, List.getElem?_modify] at hb
  obtain ⟨b', hb', rfl⟩ := Option.map_eq_some_iff.mp hb
  split at hx
  · next hij =>
      rcases List.mem_cons.mp hx with rfl | hx
      · exact hi.trans hij
      · exact h j b' hb' x hx
  · exact h j b' hb' x hx

theorem Placed.mem (h : Placed idx bs) (he : e ∈ bs.flatten) : e ∈ bs.getD (idx e) [] := by
  obtain ⟨b, hb, heb⟩ := List.mem_flatten.mp he
  obtain ⟨i, hi⟩ := List.mem_iff_getElem?.mp hb
  rw [h i b hi e heb, List.getD_eq_getElem?_getD, hi]
  exact heb

theorem mem_of_getD (he : e ∈ bs.getD i []) : e ∈ bs.flatten := by
  rw [List.getD_eq_getElem?_getD] at he
  cases hb : bs[i]? with
  | none => simp [hb] at he
  | some b => exact List.mem_flatten.mpr ⟨b, List.mem_of_getElem? hb, by simpa [hb] using he⟩

/-! ## Taking out -/

variable [DecidableEq α]

def erase (bs : List (List α)) (e : α) : List (List α) := bs.map (·.erase e)

theorem flatten_erase (h : bs.flatten.Nodup) : (erase bs e).flatten = bs.flatten.erase e := by
  have heach : ∀ b ∈ bs, b.erase e = b.filter (· != e) := fun b hb =>
    ((List.nodup_flatten.mp h).1 b hb).erase_eq_filter e
  rw [h.erase_eq_filter, erase, List.filter_flatten, List.map_congr_left heach]

theorem Placed.erase (h : Placed idx bs) : Placed idx (erase bs e) := by
  intro i b hb x hx
  simp only [Buckets.erase, List.getElem?_map] at hb
  obtain ⟨b', hb', rfl⟩ := Option.map_eq_some_iff.mp hb
  exact h i b' hb' x (List.mem_of_mem_erase hx)

/-! ## Dealing out -/

omit [DecidableEq α]

/-- The elements, bucket by bucket, each to the front of its bucket among `n` new ones. -/
def spread (idx : α → Nat) (n : Nat) (bs : List (List α)) : List (List α) :=
  bs.foldl (fun new b => b.foldl (fun new e => push new (idx e) e) new) (List.replicate n [])

theorem deal_spec {l : List α} {new : List (List α)} (hl : ∀ e ∈ l, idx e < new.length)
    (h : Placed idx new) :
    (l.foldl (fun new e => push new (idx e) e) new).length = new.length ∧
      (l.foldl (fun new e => push new (idx e) e) new).flatten.Perm (l ++ new.flatten) ∧
      Placed idx (l.foldl (fun new e => push new (idx e) e) new) := by
  induction l generalizing new with
  | nil => exact ⟨rfl, .refl _, h⟩
  | cons e rest ih =>
      obtain ⟨he, hrest⟩ := List.forall_mem_cons.mp hl
      obtain ⟨hlen, hperm, hplaced⟩ := @ih (push new (idx e) e)
        (by rw [length_push]; exact hrest) (h.push rfl)
      refine ⟨hlen.trans length_push, hperm.trans ?_, hplaced⟩
      exact ((push_perm he).append_left rest).trans List.perm_middle

theorem spread_spec {n : Nat} (hidx : ∀ e ∈ bs.flatten, idx e < n) :
    (spread idx n bs).length = n ∧ (spread idx n bs).flatten.Perm bs.flatten ∧
      Placed idx (spread idx n bs) := by
  have hplaced : Placed idx (List.replicate n ([] : List α)) := by
    intro i b hb x hx
    rw [List.eq_of_mem_replicate (List.mem_of_getElem? hb)] at hx
    cases hx
  have hspec := deal_spec (l := bs.flatten) (by rwa [List.length_replicate]) hplaced
  rw [List.foldl_flatten, List.length_replicate, List.flatten_replicate_nil, List.append_nil] at hspec
  exact hspec

end Buckets
