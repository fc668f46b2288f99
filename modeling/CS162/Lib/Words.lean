/-
# `Words` — the words of a text

A word is a maximal part of a text without separators: what is left of the pieces between
separators once the empty ones are gone.  `words_sep` and `words_cons` take a text apart from
its front, as a program that reads it does.  Nothing here names a program.
-/
import Mathlib.Algebra.GroupWithZero.Nat
import Mathlib.Tactic.Common

namespace Words

variable {α : Type} {p : α → Bool} {c : α} {l w : List α}

def words (p : α → Bool) (l : List α) : List (List α) := (l.splitOnP p).filter (!·.isEmpty)

theorem words_nil : words p [] = [] := rfl

/-- Separators at the front belong to no word. -/
theorem words_sep (hc : p c = true) : words p (c :: l) = words p l := by
  unfold words
  rw [List.splitOnP_cons_eq_if_modifyHead, if_pos hc]
  rfl

theorem words_single (hw : ∀ c ∈ w, p c = false) (hne : w ≠ []) : words p w = [w] := by
  unfold words
  rw [List.splitOnP_eq_singleton hw]
  exact List.filter_cons_of_pos (by simpa using hne)

/-- A word ends where the first separator is. -/
theorem words_cons (hw : ∀ c ∈ w, p c = false) (hne : w ≠ []) (hc : p c = true) :
    words p (w ++ c :: l) = w :: words p l := by
  unfold words
  rw [List.splitOnP_append_cons_of_forall_mem hw c hc]
  exact List.filter_cons_of_pos (by simpa using hne)

/-- A text with more than separators in it has words. -/
theorem words_ne_nil (h : ∃ c ∈ l, p c = false) : words p l ≠ [] := by
  induction l with
  | nil =>
      obtain ⟨c, hc, -⟩ := h
      exact absurd hc List.not_mem_nil
  | cons c l ih =>
      by_cases hc : p c = true
      · obtain ⟨d, hd, hsep⟩ := h
        rw [words_sep hc]
        refine ih ⟨d, (List.mem_cons.mp hd).resolve_left fun heq => ?_, hsep⟩
        rw [heq, hc] at hsep
        cases hsep
      · obtain ⟨w, ws, hws⟩ := List.exists_cons_of_ne_nil (List.splitOnP_ne_nil p l)
        unfold words
        rw [List.splitOnP_cons_eq_if_modifyHead, if_neg hc, hws, List.modifyHead_cons,
          List.filter_cons_of_pos rfl]
        exact List.cons_ne_nil _ _

/-! ## Reading words element by element -/

/-- Whether a reader that was inside a word, or not, ends inside one. -/
def inside (p : α → Bool) (b : Bool) (l : List α) : Bool := l.foldl (fun _ c => !p c) b

/-- The words that a reader sees the end of. -/
def closed (p : α → Bool) : Bool → List α → Nat
  | _, [] => 0
  | b, c :: l => if p c then closed p false l + b.toNat else closed p true l

theorem inside_cons (b : Bool) : inside p b (c :: l) = inside p (!p c) l := rfl

theorem inside_concat (b : Bool) : inside p b (l ++ [c]) = !p c := by
  unfold inside
  rw [List.foldl_append]
  rfl

/-- The end of the text ends no word. -/
theorem closed_concat (b : Bool) (hc : p c = false) : closed p b (l ++ [c]) = closed p b l := by
  induction l generalizing b with
  | nil => exact if_neg (by rw [hc]; exact Bool.false_ne_true)
  | cons d l ih => rw [List.cons_append, closed, closed, ih, ih]

theorem closed_map {β : Type} (f : β → α) (b : Bool) (l : List β) :
    closed p b (l.map f) = closed (p ∘ f) b l ∧ inside p b (l.map f) = inside (p ∘ f) b l := by
  induction l generalizing b with
  | nil => exact ⟨rfl, rfl⟩
  | cons c l ih =>
      rw [List.map_cons, closed, closed, inside_cons, inside_cons, (ih false).1, (ih true).1, (ih _).2]
      exact ⟨rfl, rfl⟩

/-- Separators count only where they occur. -/
theorem closed_congr {q : α → Bool} (h : ∀ c ∈ l, p c = q c) (b : Bool) :
    closed p b l = closed q b l ∧ inside p b l = inside q b l := by
  induction l generalizing b with
  | nil => exact ⟨rfl, rfl⟩
  | cons c l ih =>
      have hl : ∀ c ∈ l, p c = q c := fun c hc => h c (List.mem_cons_of_mem _ hc)
      rw [closed, closed, inside_cons, inside_cons, (ih hl false).1, (ih hl true).1, (ih hl _).2,
        h c List.mem_cons_self]
      exact ⟨rfl, rfl⟩

/-- Each word that ends has a separator after it. -/
theorem closed_le (b : Bool) : closed p b l + (inside p b l).toNat ≤ l.length + b.toNat := by
  induction l generalizing b with
  | nil => exact Nat.le_refl (0 + b.toNat)
  | cons c l ih =>
      rw [closed, inside_cons, List.length_cons]
      cases hc : p c with
      | true =>
          have h : closed p false l + (inside p false l).toNat ≤ l.length + 0 := ih false
          rw [if_pos rfl, Bool.not_true]
          omega
      | false =>
          have h : closed p true l + (inside p true l).toNat ≤ l.length + 1 := ih true
          rw [if_neg Bool.false_ne_true, Bool.not_false]
          omega

/-- A word goes on. -/
theorem length_words_cons {x : α} (hx : p x = false) (hc : p c = false) :
    (words p (x :: c :: l)).length = (words p (c :: l)).length := by
  obtain ⟨w, ws, hws⟩ := List.exists_cons_of_ne_nil (List.splitOnP_ne_nil p l)
  unfold words
  rw [List.splitOnP_cons_eq_if_modifyHead, if_neg (by rw [hx]; exact Bool.false_ne_true),
    List.splitOnP_cons_eq_if_modifyHead, if_neg (by rw [hc]; exact Bool.false_ne_true), hws,
    List.modifyHead_cons, List.modifyHead_cons, List.filter_cons_of_pos rfl, List.filter_cons_of_pos rfl]
  rfl

/-- The words are those that end, and the one that the text ends in; `x` stands for the word that
a reader is inside of. -/
theorem length_words (b : Bool) {x : α} (hx : p x = false) :
    (words p (if b then x :: l else l)).length = closed p b l + (inside p b l).toNat := by
  induction l generalizing b x with
  | nil =>
      cases b with
      | false => rfl
      | true =>
          rw [if_pos rfl, words_single (by simpa using hx) (List.cons_ne_nil x [])]
          rfl
  | cons c l ih =>
      rw [closed, inside_cons]
      cases hc : p c with
      | true =>
          have h : (words p l).length = closed p false l + (inside p false l).toNat := ih false hx
          rw [if_pos rfl, Bool.not_true]
          cases b with
          | false =>
              rw [if_neg Bool.false_ne_true, words_sep hc, h]
              rfl
          | true =>
              have hw : ∀ d ∈ [x], p d = false := by simpa using hx
              rw [if_pos rfl, ← List.singleton_append, words_cons hw (List.cons_ne_nil x []) hc,
                List.length_cons, h, Bool.toNat_true]
              omega
      | false =>
          have h : (words p (c :: l)).length = closed p true l + (inside p true l).toNat := ih true hc
          rw [if_neg Bool.false_ne_true, Bool.not_false, ← h]
          cases b with
          | false => rfl
          | true => exact length_words_cons hx hc

/-! ## The room that words take up -/

/-- The elements that words take up with one more for the end of each. -/
def space (ws : List (List α)) : Nat := (ws.map fun w => w.length + 1).sum

theorem space_nil : space ([] : List (List α)) = 0 := rfl

theorem space_cons (w : List α) (ws : List (List α)) : space (w :: ws) = w.length + 1 + space ws := by
  unfold space
  rw [List.map_cons, List.sum_cons]

theorem space_append (ws ws' : List (List α)) : space (ws ++ ws') = space ws + space ws' := by
  unfold space
  rw [List.map_append, List.sum_append]

theorem length_le_space (ws : List (List α)) : ws.length ≤ space ws := by
  induction ws with
  | nil => exact Nat.le_refl 0
  | cons w ws ih =>
      rw [space_cons, List.length_cons]
      omega

theorem space_take_succ {ws : List (List α)} {i : Nat} (h : i < ws.length) :
    space (ws.take (i + 1)) = space (ws.take i) + (ws[i].length + 1) := by
  rw [List.take_succ_eq_append_getElem h, space_append, space_cons, space_nil]

theorem space_take_le (ws : List (List α)) (i : Nat) : space (ws.take i) ≤ space ws := by
  conv_rhs => rw [← List.take_append_drop i ws, space_append]
  exact Nat.le_add_right ..

theorem space_take_mono (ws : List (List α)) {i j : Nat} (h : i ≤ j) :
    space (ws.take i) ≤ space (ws.take j) := by
  have htake : (ws.take j).take i = ws.take i := by rw [List.take_take, Nat.min_eq_left h]
  rw [← htake]
  exact space_take_le ..

theorem space_splitOnP (l : List α) : space (l.splitOnP p) = l.length + 1 := by
  induction l with
  | nil => rfl
  | cons c l ih =>
      rw [List.splitOnP_cons_eq_if_modifyHead, List.length_cons, ← ih]
      obtain ⟨w, ws, hws⟩ := List.exists_cons_of_ne_nil (List.splitOnP_ne_nil p l)
      split_ifs with hc
      · rw [space_cons, List.length_nil]
        omega
      · rw [hws, List.modifyHead_cons, space_cons, space_cons, List.length_cons]
        omega

theorem space_filter_le (q : List α → Bool) (ws : List (List α)) : space (ws.filter q) ≤ space ws := by
  induction ws with
  | nil => exact Nat.le_refl _
  | cons w ws ih =>
      rw [space_cons, List.filter_cons]
      split_ifs
      · rw [space_cons]
        omega
      · omega

/-- The words of a text fit where the text with its end does. -/
theorem space_words_le (p : α → Bool) (l : List α) : space (words p l) ≤ l.length + 1 :=
  Nat.le_trans (space_filter_le _ _) (Nat.le_of_eq (space_splitOnP l))

end Words
