/-
# `CS162.Lib.NaturalMerge` — natural merge sort

A `pass` goes through the list, cuts it into runs that are in order, and merges each two neighbours; the
sort makes passes until one has put out a single run.  `less` is a strict weak order on the elements
in question, and nothing is assumed of others.

Each merge is a number of exchanges of neighbours of which the second is less (`Moves`).  So the result is
a permutation, and what is not to be exchanged keeps its order.  The number of `descents` is less after a
pass that has put out more than one run (`Passed.descents_lt`), and after any other there is none.
-/
import Mathlib.Data.List.Chain
import Mathlib.Data.List.Sort
import Mathlib.Logic.Relation

namespace NaturalMerge

open Relation

variable {α : Type} {less : α → α → Bool} {S : Set α} {a b c x y : α} {l l' l₁ l₂ p q : List α}

/-! ## The order -/

/-- Neither is less. -/
def Tied (less : α → α → Bool) (a b : α) : Prop := less a b = false ∧ less b a = false

/-- `less` is a strict weak order on the elements of `S`. -/
structure StrictWeakOn (less : α → α → Bool) (S : Set α) : Prop where
  irrefl : ∀ a ∈ S, less a a = false
  trans : ∀ a ∈ S, ∀ b ∈ S, ∀ c ∈ S, less a b = true → less b c = true → less a c = true
  tied : ∀ a ∈ S, ∀ b ∈ S, ∀ c ∈ S, Tied less a b → Tied less b c → Tied less a c

namespace StrictWeakOn

variable (h : StrictWeakOn less S)

include h

theorem asymm (ha : a ∈ S) (hb : b ∈ S) (hab : less a b = true) : less b a = false := by
  rw [← Bool.not_eq_true]
  intro hba
  have haa := h.trans a ha b hb a ha hab hba
  rw [h.irrefl a ha] at haa
  cases haa

/-- What is less than one is less than all that are not less than it. -/
theorem less_of_less_of_not (ha : a ∈ S) (hb : b ∈ S) (hc : c ∈ S) (hab : less a b = true)
    (hcb : less c b = false) : less a c = true := by
  cases hac : less a c with
  | true => rfl
  | false =>
      cases hca : less c a with
      | true =>
          rw [h.trans c hc a ha b hb hca hab] at hcb
          cases hcb
      | false =>
          cases hbc : less b c with
          | true =>
              rw [h.trans a ha b hb c hc hab hbc] at hac
              cases hac
          | false =>
              have hfalse := (h.tied a ha c hc b hb ⟨hac, hca⟩ ⟨hcb, hbc⟩).1
              rw [hab] at hfalse
              cases hfalse

theorem not_trans (ha : a ∈ S) (hb : b ∈ S) (hc : c ∈ S) (hba : less b a = false)
    (hcb : less c b = false) :
    less c a = false := by
  rw [← Bool.not_eq_true]
  intro hca
  rw [h.less_of_less_of_not hc ha hb hca hba] at hcb
  cases hcb

end StrictWeakOn

/-- The order by a key. -/
theorem strictWeakOn_key (key : α → Nat) (S : Set α) :
    StrictWeakOn (fun a b => decide (key a < key b)) S where
  irrefl a _ := decide_eq_false (Nat.lt_irrefl _)
  trans a _ b _ c _ hab hbc := by
    rw [decide_eq_true_iff] at hab hbc ⊢
    exact Nat.lt_trans hab hbc
  tied a _ b _ c _ hab hbc := by
    simp only [Tied, decide_eq_false_iff_not] at hab hbc ⊢
    omega

/-- No element is less than the one before it. -/
def Ordered (less : α → α → Bool) (l : List α) : Prop := l.IsChain fun a b => less b a = false

/-- In a list in order no element is less than one before it, not only than its neighbour. -/
theorem Ordered.pairwise (h : StrictWeakOn less S) :
    ∀ {l : List α}, (∀ x ∈ l, x ∈ S) → Ordered less l → l.Pairwise fun a b => less b a = false
  | [], _, _ => .nil
  | [a], _, _ => List.pairwise_singleton _ a
  | a :: b :: l, hl, hord => by
      obtain ⟨hab, hrest⟩ := List.isChain_cons_cons.mp hord
      have ih := Ordered.pairwise h (fun x hx => hl x (List.mem_cons_of_mem a hx)) hrest
      have ha := hl a List.mem_cons_self
      have hb := hl b (List.mem_cons_of_mem a List.mem_cons_self)
      refine List.pairwise_cons.mpr ⟨fun x hx => ?_, ih⟩
      rcases List.mem_cons.mp hx with rfl | hx'
      · exact hab
      · exact h.not_trans ha hb (hl x (List.mem_cons_of_mem a hx)) hab
          ((List.pairwise_cons.mp ih).1 x hx')

/-! ## Exchanges -/

/-- Two neighbours of which the second is less change places. -/
inductive Exchange (less : α → α → Bool) : List α → List α → Prop
  | mk (p q : List α) {a b : α} (h : less b a = true) :
      Exchange less (p ++ a :: b :: q) (p ++ b :: a :: q)

/-- Any number of exchanges. -/
def Moves (less : α → α → Bool) : List α → List α → Prop := ReflTransGen (Exchange less)

theorem Exchange.perm (h : Exchange less l l') : l'.Perm l := by
  obtain ⟨p, q, -⟩ := h
  exact (List.Perm.swap _ _ _).append_left p

/-- Elements that are in order do not change places. -/
theorem Exchange.sublist (h : Exchange less l l') (hyx : less y x = false) (hsub : [x, y].Sublist l) :
    [x, y].Sublist l' := by
  obtain @⟨p, q, a, b, hba⟩ := h
  obtain ⟨s₁, s₂, he, hs₁, hs₂⟩ := List.sublist_append_iff.mp hsub
  -- where the two are split between `p` and the rest
  have hrest : s₂.Sublist (b :: a :: q) := by
    rcases List.sublist_cons_iff.mp hs₂ with hs | ⟨r, rfl, hs⟩
    · rcases List.sublist_cons_iff.mp hs with hq | ⟨r, rfl, hq⟩
      · exact (hq.cons a).cons b
      · exact (hq.cons a).cons_cons b
    · rcases List.sublist_cons_iff.mp hs with hq | ⟨r', rfl, hq⟩
      · exact (hq.cons_cons a).cons b
      · -- both are exchanged, and are the two
        have hlen := congrArg List.length he
        simp only [List.length_append, List.length_cons, List.length_nil] at hlen
        obtain rfl : s₁ = [] := List.eq_nil_of_length_eq_zero (by omega)
        obtain ⟨rfl, rfl, -⟩ : x = a ∧ y = b ∧ [] = r' := by simpa using he
        rw [hyx] at hba
        cases hba
  rw [he]
  exact hs₁.append hrest

namespace Moves

theorem refl (l : List α) : Moves less l l := ReflTransGen.refl

theorem trans {l₃ : List α} (h : Moves less l₁ l₂) (h' : Moves less l₂ l₃) : Moves less l₁ l₃ :=
  ReflTransGen.trans h h'

theorem perm (h : Moves less l l') : l'.Perm l := by
  induction h with
  | refl => exact .refl l
  | tail _ hstep ih => exact hstep.perm.trans ih

theorem sublist (h : Moves less l l') (hyx : less y x = false) (hsub : [x, y].Sublist l) :
    [x, y].Sublist l' := by
  induction h with
  | refl => exact hsub
  | tail _ hstep ih => exact hstep.sublist hyx ih

theorem append (h : Moves less l l') (p q : List α) : Moves less (p ++ l ++ q) (p ++ l' ++ q) := by
  induction h with
  | refl => exact refl _
  | tail _ hstep ih =>
      obtain ⟨p', q', hba⟩ := hstep
      refine ih.tail ?_
      have hmk := Exchange.mk (p ++ p') (q' ++ q) hba
      simpa only [List.append_assoc, List.cons_append] using hmk

theorem cons (h : Moves less l l') (a : α) : Moves less (a :: l) (a :: l') := by
  have happ := h.append [a] []
  rw [List.append_nil, List.append_nil] at happ
  exact happ

/-- An element moves over all that it is less than. -/
theorem across (q : List α) : ∀ {l : List α}, (∀ x ∈ l, less b x = true) →
    Moves less (l ++ b :: q) (b :: (l ++ q))
  | [], _ => refl _
  | a :: l, hall => by
      have ih := across q fun x hx => hall x (List.mem_cons_of_mem a hx)
      exact (ih.cons a).tail (Exchange.mk [] (l ++ q) (hall a List.mem_cons_self))

end Moves

/-! ## Merging -/

/-- What is taken from the first list. -/
def notLess (less : α → α → Bool) (a b : α) : Bool := !less b a

theorem head?_merge : ∀ {l₁ l₂ : List α}, x ∈ (l₁.merge l₂ (notLess less)).head? →
    x ∈ l₁.head? ∨ x ∈ l₂.head?
  | [], _, hx => .inr (by simpa only [List.nil_merge] using hx)
  | a :: l₁, [], hx => .inl (by simpa only [List.merge_right] using hx)
  | a :: l₁, b :: l₂, hx => by
      rw [List.cons_merge_cons] at hx
      split at hx
      · exact .inl hx
      · exact .inr hx

/-- The merge of two lists in order is in order. -/
theorem ordered_merge (h : StrictWeakOn less S) : ∀ {l₁ l₂ : List α},
    (∀ x ∈ l₁, x ∈ S) → (∀ x ∈ l₂, x ∈ S) → Ordered less l₁ → Ordered less l₂ →
    Ordered less (l₁.merge l₂ (notLess less))
  | [], l₂, _, _, _, h₂ => by rwa [List.nil_merge]
  | a :: l₁, [], _, _, h₁, _ => by rwa [List.merge_right]
  | a :: l₁, b :: l₂, hl₁, hl₂, h₁, h₂ => by
      have hl₁' := fun x hx => hl₁ x (List.mem_cons_of_mem a hx)
      have hl₂' := fun x hx => hl₂ x (List.mem_cons_of_mem b hx)
      obtain ⟨ha, h₁'⟩ := List.isChain_cons.mp h₁
      obtain ⟨hb, h₂'⟩ := List.isChain_cons.mp h₂
      rw [List.cons_merge_cons]
      cases hba : less b a with
      | false =>
          rw [if_pos (by rw [notLess, hba]; rfl)]
          refine List.isChain_cons.mpr ⟨fun x hx => ?_, ordered_merge h hl₁' hl₂ h₁' h₂⟩
          rcases head?_merge hx with hx | hx
          · exact ha x hx
          · obtain rfl : b = x := by simpa using hx
            exact hba
      | true =>
          rw [if_neg (by rw [notLess, hba]; exact Bool.false_ne_true)]
          refine List.isChain_cons.mpr ⟨fun x hx => ?_, ordered_merge h hl₁ hl₂' h₁ h₂'⟩
          rcases head?_merge hx with hx | hx
          · obtain rfl : a = x := by simpa using hx
            exact h.asymm (hl₂ b List.mem_cons_self) (hl₁ a List.mem_cons_self) hba
          · exact hb x hx

/-- And elements of which neither is less than the other come out in the order they had. -/
theorem moves_merge (h : StrictWeakOn less S) : ∀ {l₁ l₂ : List α},
    (∀ x ∈ l₁, x ∈ S) → (∀ x ∈ l₂, x ∈ S) → Ordered less l₁ →
    Moves less (l₁ ++ l₂) (l₁.merge l₂ (notLess less))
  | [], l₂, _, _, _ => by
      rw [List.nil_merge]
      exact .refl l₂
  | a :: l₁, [], _, _, _ => by
      rw [List.merge_right, List.append_nil]
      exact .refl _
  | a :: l₁, b :: l₂, hl₁, hl₂, h₁ => by
      rw [List.cons_merge_cons]
      cases hba : less b a with
      | false =>
          rw [if_pos (by rw [notLess, hba]; rfl)]
          exact (moves_merge h (fun x hx => hl₁ x (List.mem_cons_of_mem a hx)) hl₂
            (List.isChain_cons.mp h₁).2).cons a
      | true =>
          rw [if_neg (by rw [notLess, hba]; exact Bool.false_ne_true)]
          have hb := hl₂ b List.mem_cons_self
          have ha := hl₁ a List.mem_cons_self
          refine Moves.trans (Moves.across l₂ fun x hx => ?_)
            ((moves_merge h hl₁ (fun x hx => hl₂ x (List.mem_cons_of_mem b hx)) h₁).cons b)
          rcases List.mem_cons.mp hx with rfl | hx'
          · exact hba
          · exact h.less_of_less_of_not hb ha (hl₁ x hx) hba
              ((List.pairwise_cons.mp (h₁.pairwise h hl₁)).1 x hx')

/-! ## Runs -/

variable (less)

/-- How often an element is less than the one before it. -/
def descents (less : α → α → Bool) : List α → Nat
  | [] | [_] => 0
  | a :: b :: l => (if less b a then 1 else 0) + descents less (b :: l)

/-- The first run and the rest. -/
def splitRun (less : α → α → Bool) : List α → List α × List α
  | [] => ([], [])
  | [a] => ([a], [])
  | a :: b :: l =>
      if less b a then ([a], b :: l)
      else (a :: (splitRun less (b :: l)).1, (splitRun less (b :: l)).2)

theorem splitRun_append : ∀ l : List α, (splitRun less l).1 ++ (splitRun less l).2 = l
  | [] => rfl
  | [_] => rfl
  | a :: b :: l => by
      have ih := splitRun_append (b :: l)
      unfold splitRun
      split
      · rfl
      · exact congrArg (a :: ·) ih

theorem head?_splitRun : ∀ l : List α, (splitRun less l).1.head? = l.head?
  | [] => rfl
  | [_] => rfl
  | a :: b :: l => by
      unfold splitRun
      split <;> rfl

theorem splitRun_ne_nil (hl : l ≠ []) : (splitRun less l).1 ≠ [] := by
  intro hnil
  have hhead := head?_splitRun less l
  rw [hnil] at hhead
  exact hl (List.head?_eq_none_iff.mp hhead.symm)

/-- The run in front is in order. -/
theorem ordered_splitRun : ∀ l : List α, Ordered less (splitRun less l).1
  | [] => .nil
  | [a] => .singleton a
  | a :: b :: l => by
      have ih := ordered_splitRun (b :: l)
      have hhead := head?_splitRun less (b :: l)
      unfold splitRun
      split
      · exact .singleton a
      · next hba =>
        refine List.isChain_cons.mpr ⟨fun x hx => ?_, ih⟩
        rw [hhead] at hx
        obtain rfl : b = x := by simpa using hx
        simpa using hba

/-- A run ends at a descent, or with the list. -/
theorem descents_splitRun : ∀ l : List α, descents less l =
    (if (splitRun less l).2 = [] then 0 else 1) + descents less (splitRun less l).2
  | [] => rfl
  | [_] => rfl
  | a :: b :: l => by
      have ih := descents_splitRun (b :: l)
      rw [descents, splitRun]
      split
      · rw [if_neg (List.cons_ne_nil b l)]
      · rw [ih, Nat.zero_add]

theorem length_splitRun_lt (hl : l ≠ []) : (splitRun less l).2.length < l.length := by
  have happ := congrArg List.length (splitRun_append less l)
  have hpos := List.length_pos_iff.mpr (splitRun_ne_nil less hl)
  rw [List.length_append] at happ
  omega

variable {less}

theorem ordered_of_descents : ∀ {l : List α}, descents less l = 0 → Ordered less l
  | [], _ => .nil
  | [a], _ => .singleton a
  | a :: b :: l, h => by
      unfold descents at h
      cases hba : less b a with
      | true =>
          rw [hba, if_pos rfl] at h
          omega
      | false =>
          rw [hba, if_neg Bool.false_ne_true, Nat.zero_add] at h
          exact List.isChain_cons_cons.mpr ⟨hba, ordered_of_descents h⟩

/-- Between an ordered list and what follows there is one descent at most. -/
theorem descents_append : ∀ {l : List α}, Ordered less l → ∀ l',
    descents less (l ++ l') ≤ 1 + descents less l'
  | [], _, l' => Nat.le_add_left _ _
  | [a], _, [] => Nat.zero_le _
  | [a], _, b :: l' => by
      show (if less b a then 1 else 0) + descents less (b :: l') ≤ _
      split <;> omega
  | a :: b :: l, h, l' => by
      obtain ⟨hba, hrest⟩ := List.isChain_cons_cons.mp h
      have ih := descents_append hrest l'
      show (if less b a then 1 else 0) + descents less (b :: l ++ l') ≤ _
      rw [hba, if_neg Bool.false_ne_true, Nat.zero_add]
      exact ih

theorem descents_le_length : ∀ l : List α, descents less l ≤ l.length
  | [] | [_] => Nat.zero_le _
  | a :: b :: l => by
      have ih := descents_le_length (b :: l)
      rw [descents, List.length_cons]
      split <;> omega

theorem descents_of_ordered : ∀ {l : List α}, Ordered less l → descents less l = 0
  | [], _ => rfl
  | [_], _ => rfl
  | a :: b :: l, h => by
      obtain ⟨hba, hrest⟩ := List.isChain_cons_cons.mp h
      unfold descents
      rw [hba, if_neg Bool.false_ne_true, Nat.zero_add, descents_of_ordered hrest]

/-! ## Passes -/

/-- A pass: the number of runs put out, and the list. -/
def pass (less : α → α → Bool) (l : List α) : Nat × List α :=
  if _hl : l = [] then (0, [])
  else if _hl₁ : (splitRun less l).2 = [] then (1, l)
  else
    ((pass less (splitRun less (splitRun less l).2).2).1 + 1,
      (splitRun less l).1.merge (splitRun less (splitRun less l).2).1 (notLess less) ++
        (pass less (splitRun less (splitRun less l).2).2).2)
termination_by l.length
decreasing_by
  all_goals exact (length_splitRun_lt less _hl₁).trans (length_splitRun_lt less _hl)

theorem pass_nil : pass less [] = (0, []) := by
  unfold pass
  rfl

/-- What a pass does. -/
structure Passed (less : α → α → Bool) (l : List α) (r : Nat × List α) : Prop where
  moves : Moves less l r.2
  runs : 2 * r.1 ≤ descents less l + 2
  descents : descents less r.2 ≤ r.1 - 1
  empty : r.1 = 0 → r.2 = []

/-- One pass merges the runs two by two, so that about half of them are left. -/
theorem passed (h : StrictWeakOn less S) {l : List α} (hl : ∀ x ∈ l, x ∈ S) :
    Passed less l (pass less l) := by
  fun_induction pass less l with
  | case1 => exact ⟨.refl _, Nat.le_add_left _ _, Nat.zero_le _, fun _ => rfl⟩
  | case2 l hne hnil =>
      have hzero := descents_splitRun less l
      rw [hnil, if_pos rfl] at hzero
      exact ⟨.refl l, Nat.le_add_left _ _, Nat.le_of_eq hzero,
        fun hfalse => absurd hfalse Nat.one_ne_zero⟩
  | case3 l hne hne₁ ih =>
      set l₁ := (splitRun less l).1 with hl₁
      set l₂ := (splitRun less (splitRun less l).2).1 with hl₂
      set rest := (splitRun less (splitRun less l).2).2 with hrest
      have happ : l₁ ++ l₂ ++ rest = l := by
        rw [List.append_assoc, hl₂, hrest, splitRun_append, hl₁, splitRun_append]
      have hmem : (∀ x ∈ l₁, x ∈ S) ∧ (∀ x ∈ l₂, x ∈ S) ∧ ∀ x ∈ rest, x ∈ S := by
        rw [← happ] at hl
        simp only [List.mem_append] at hl
        exact ⟨fun x hx => hl x (.inl (.inl hx)), fun x hx => hl x (.inl (.inr hx)),
          fun x hx => hl x (.inr hx)⟩
      have ho₁ : Ordered less l₁ := ordered_splitRun less l
      have ho₂ : Ordered less l₂ := ordered_splitRun less _
      have hord := ordered_merge h hmem.1 hmem.2.1 ho₁ ho₂
      have ih := ih hmem.2.2
      have hruns : descents less l = 1 + ((if rest = [] then 0 else 1) + descents less rest) := by
        rw [descents_splitRun less l, if_neg hne₁, descents_splitRun less (splitRun less l).2]
      refine ⟨?_, ?_, ?_, fun hfalse => absurd hfalse (Nat.succ_ne_zero _)⟩
      · have hmerge := (moves_merge h hmem.1 hmem.2.1 ho₁).append [] rest
        have hpass := ih.moves.append (l₁.merge l₂ (notLess less)) []
        rw [List.nil_append, List.nil_append, happ] at hmerge
        rw [List.append_nil, List.append_nil] at hpass
        exact hmerge.trans hpass
      · by_cases hnil : rest = []
        · rw [hnil, pass_nil]
          omega
        · have hle := ih.runs
          rw [if_neg hnil] at hruns
          omega
      · show descents less (_ ++ _) ≤ (pass less rest).1
        rcases Nat.eq_zero_or_pos (pass less rest).1 with hzero | hpos
        · rw [ih.empty hzero, List.append_nil, descents_of_ordered hord]
          exact Nat.zero_le _
        · have hle := descents_append hord (pass less rest).2
          have hdesc := ih.descents
          omega

/-- A pass that puts out one run at most has the list in order. -/
theorem Passed.ordered {r : Nat × List α} (h : Passed less l r) (hr : r.1 ≤ 1) : Ordered less r.2 := by
  have hle := h.descents
  exact ordered_of_descents (by omega)

/-- Any other leaves fewer descents than there were. -/
theorem Passed.descents_lt {r : Nat × List α} (h : Passed less l r) (hr : 1 < r.1) :
    NaturalMerge.descents less r.2 < NaturalMerge.descents less l := by
  have hle := h.descents
  have hruns := h.runs
  omega

end NaturalMerge
