/-
# `CS162.Lib.LinkedList` — doubly linked lists

A list has two header elements, a head before its first element and a tail behind its last.  `Holds`
says that the links between the two are those of a list of elements; nothing is said of other elements.
The links of a segment depend on its own elements only, less the first `prev` and the last `next`
(`chain_congr`), so that two neighbouring segments change places with six pointers (`Holds.exchange`).
-/
import Mathlib.Data.List.Chain
import Mathlib.Data.List.Nodup
import Mathlib.Logic.Function.Basic

namespace LinkedList

/-- The two links of each element. -/
structure Links (α : Type) where
  prev : α → Option α
  next : α → Option α

variable {α : Type} {l l' : Links α} {a b y z s t q head tail : α} {p xs L A B R P Q : List α}

section Update

variable [DecidableEq α]

def Links.setPrev (l : Links α) (a : α) (v : Option α) : Links α :=
  { l with prev := Function.update l.prev a v }

def Links.setNext (l : Links α) (a : α) (v : Option α) : Links α :=
  { l with next := Function.update l.next a v }

end Update

/-- Each is the other's neighbour. -/
def Linked (l : Links α) (a b : α) : Prop := l.next a = some b ∧ l.prev b = some a

/-- What a segment depends on. -/
theorem chain_congr : ∀ {p : List α}, p.Nodup → p.IsChain (Linked l) →
    (∀ x ∈ p, x ∉ p.getLast? → l'.next x = l.next x) → (∀ x ∈ p, x ∉ p.head? → l'.prev x = l.prev x) →
    p.IsChain (Linked l')
  | [], _, _, _, _ => .nil
  | [a], _, _, _, _ => .singleton a
  | a :: b :: p, hnodup, hchain, hnext, hprev => by
      obtain ⟨⟨hab, hba⟩, hrest⟩ := List.isChain_cons_cons.mp hchain
      obtain ⟨hnot, hnodup'⟩ := List.nodup_cons.mp hnodup
      have hne : ∀ x ∈ b :: p, x ≠ a := fun x hx hxa => hnot (hxa ▸ hx)
      have hb : b ∈ b :: p := List.mem_cons_self
      refine List.isChain_cons_cons.mpr ⟨⟨?_, ?_⟩, chain_congr hnodup' hrest
        (fun x hx hlast => ?_) fun x hx _ => ?_⟩
      · refine (hnext a List.mem_cons_self fun hlast => ?_).trans hab
        rw [List.getLast?_cons_cons] at hlast
        exact hnot (List.mem_of_getLast? hlast)
      · refine (hprev b (List.mem_cons_of_mem a hb) fun hhead => ?_).trans hba
        exact hne b hb (Option.some.inj hhead).symm
      · refine hnext x (List.mem_cons_of_mem a hx) fun hlast' => hlast ?_
        rwa [List.getLast?_cons_cons] at hlast'
      · refine hprev x (List.mem_cons_of_mem a hx) fun hhead => ?_
        exact hne x hx (Option.some.inj hhead).symm

/-- Chains are joined by a link from the last to the first. -/
theorem chain_join (hL : L.IsChain (Linked l)) (hR : R.IsChain (Linked l)) (hy : y ∈ L.getLast?)
    (hq : q ∈ R.head?) (hyq : Linked l y q) : (L ++ R).IsChain (Linked l) := by
  refine hL.append hR ?_
  rw [Option.mem_def.mp hy, Option.mem_def.mp hq]
  intro x hx x' hx'
  obtain rfl : y = x := Option.some.inj hx
  obtain rfl : q = x' := Option.some.inj hx'
  exact hyq

/-- The six pointers written when `a … z` and `s … t`, between `y` and `q`, change places. -/
def Links.exchange [DecidableEq α] (l : Links α) (y a z s t q : α) : Links α :=
  (((((l.setNext z (some q)).setPrev q (some z)).setPrev s (some y)).setNext t (some a)).setNext y
    (some s)).setPrev a (some t)

section Exchange

variable [DecidableEq α]

theorem next_exchange {x : α} (hz : x ≠ z) (ht : x ≠ t) (hy : x ≠ y) :
    (l.exchange y a z s t q).next x = l.next x := by
  show Function.update (Function.update (Function.update l.next z (some q)) t (some a)) y (some s) x = _
  rw [Function.update_of_ne hy, Function.update_of_ne ht, Function.update_of_ne hz]

theorem prev_exchange {x : α} (hq : x ≠ q) (hs : x ≠ s) (ha : x ≠ a) :
    (l.exchange y a z s t q).prev x = l.prev x := by
  show Function.update (Function.update (Function.update l.prev q (some z)) s (some y)) a (some t) x = _
  rw [Function.update_of_ne ha, Function.update_of_ne hs, Function.update_of_ne hq]

/-- Two neighbouring segments of a chain change places. -/
theorem chain_exchange (hnodup : (L ++ (A ++ (B ++ R))).Nodup)
    (hchain : (L ++ (A ++ (B ++ R))).IsChain (Linked l)) (hy : y ∈ L.getLast?) (ha : a ∈ A.head?)
    (hz : z ∈ A.getLast?) (hs : s ∈ B.head?) (ht : t ∈ B.getLast?) (hq : q ∈ R.head?) :
    (L ++ (B ++ (A ++ R))).IsChain (Linked (l.exchange y a z s t q)) := by
  obtain ⟨hL, hABR, hneL⟩ := List.nodup_append.mp hnodup
  obtain ⟨hA, hBR, hneA⟩ := List.nodup_append.mp hABR
  obtain ⟨hB, hR, hneB⟩ := List.nodup_append.mp hBR
  simp only [List.mem_append] at hneL hneA
  obtain ⟨hcL, hcABR, -⟩ := List.isChain_append.mp hchain
  obtain ⟨hcA, hcBR, -⟩ := List.isChain_append.mp hcABR
  obtain ⟨hcB, hcR, -⟩ := List.isChain_append.mp hcBR
  have hyL := List.mem_of_getLast? hy
  have haA := List.mem_of_head? ha
  have hzA := List.mem_of_getLast? hz
  have hsB := List.mem_of_head? hs
  have htB := List.mem_of_getLast? ht
  have hqR := List.mem_of_head? hq
  have hbefore : L.IsChain (Linked (l.exchange y a z s t q)) := by
    refine chain_congr hL hcL (fun x hx hlast => ?_) fun x hx _ => ?_
    · refine next_exchange (hneL x hx z (.inl hzA)) (hneL x hx t (.inr (.inl htB))) fun hxy => ?_
      exact hlast (hxy ▸ hy)
    · exact prev_exchange (hneL x hx q (.inr (.inr hqR))) (hneL x hx s (.inr (.inl hsB)))
        (hneL x hx a (.inl haA))
  have hmoved : B.IsChain (Linked (l.exchange y a z s t q)) := by
    refine chain_congr hB hcB (fun x hx hlast => ?_) fun x hx hhead => ?_
    · refine next_exchange (hneA z hzA x (.inl hx)).symm (fun hxt => ?_)
        (hneL y hyL x (.inr (.inl hx))).symm
      exact hlast (hxt ▸ ht)
    · refine prev_exchange (hneB x hx q hqR) (fun hxs => ?_) (hneA a haA x (.inl hx)).symm
      exact hhead (hxs ▸ hs)
  have hpassed : A.IsChain (Linked (l.exchange y a z s t q)) := by
    refine chain_congr hA hcA (fun x hx hlast => ?_) fun x hx hhead => ?_
    · refine next_exchange (fun hxz => ?_) (hneA x hx t (.inl htB)) (hneL y hyL x (.inl hx)).symm
      exact hlast (hxz ▸ hz)
    · refine prev_exchange (hneA x hx q (.inr hqR)) (hneA x hx s (.inl hsB)) fun hxa => ?_
      exact hhead (hxa ▸ ha)
  have hafter : R.IsChain (Linked (l.exchange y a z s t q)) := by
    refine chain_congr hR hcR (fun x hx _ => ?_) fun x hx hhead => ?_
    · exact next_exchange (hneA z hzA x (.inr hx)).symm (hneB t htB x hx).symm
        (hneL y hyL x (.inr (.inr hx))).symm
    · refine prev_exchange (fun hxq => ?_) (hneB s hsB x hx).symm (hneA a haA x (.inr hx)).symm
      exact hhead (hxq ▸ hq)
  have hys : Linked (l.exchange y a z s t q) y s :=
    ⟨Function.update_self .., (Function.update_of_ne (hneA a haA s (.inl hsB)).symm ..).trans
      (Function.update_self ..)⟩
  have hta : Linked (l.exchange y a z s t q) t a :=
    ⟨(Function.update_of_ne (hneL y hyL t (.inr (.inl htB))).symm ..).trans (Function.update_self ..),
      Function.update_self ..⟩
  have hzq : Linked (l.exchange y a z s t q) z q :=
    ⟨(Function.update_of_ne (hneL y hyL z (.inl hzA)).symm ..).trans
        ((Function.update_of_ne (hneA z hzA t (.inl htB)) ..).trans (Function.update_self ..)),
      (Function.update_of_ne (hneA a haA q (.inr hqR)).symm ..).trans
        ((Function.update_of_ne (hneB s hsB q hqR).symm ..).trans (Function.update_self ..))⟩
  exact chain_join hbefore (chain_join hmoved (chain_join hpassed hafter hz hq hzq) ht
    (List.mem_head?_append_of_mem_head? ha) hta) hy (List.mem_head?_append_of_mem_head? hs) hys

end Exchange

/-! ## Lists -/

/-- The links from `head` to `tail` are those of `xs`. -/
structure Holds (l : Links α) (head tail : α) (xs : List α) : Prop where
  nodup : (head :: (xs ++ [tail])).Nodup
  linked : (head :: (xs ++ [tail])).IsChain (Linked l)
  first : l.prev head = none
  last : l.next tail = none

theorem getLastD_mem_getLast? (c : α) (C : List α) : C.getLastD c ∈ (c :: C).getLast? := by
  rw [List.getLast?_cons, List.getLastD_eq_getLast?]
  rfl

theorem headD_mem_head? (Q : List α) (tail : α) : Q.headD tail ∈ (Q ++ [tail]).head? := by
  cases Q with
  | nil => rfl
  | cons q Q => rfl

namespace Holds

/-- What is before an element and what is behind it. -/
theorem linked_of (h : Holds l head tail (P ++ Q)) : Linked l (P.getLastD head) (Q.headD tail) := by
  have hlinked := h.linked
  rw [List.append_assoc, ← List.cons_append] at hlinked
  exact (List.isChain_append.mp hlinked).2.2 _ (getLastD_mem_getLast? head P) _ (headD_mem_head? Q tail)

theorem next_eq (h : Holds l head tail (P ++ a :: Q)) : l.next a = some (Q.headD tail) := by
  rw [List.append_cons] at h
  have hlinked := h.linked_of.1
  rwa [List.getLastD_concat] at hlinked

theorem prev_eq (h : Holds l head tail (P ++ a :: Q)) : l.prev a = some (P.getLastD head) := h.linked_of.2

theorem next_head (h : Holds l head tail xs) : l.next head = some (xs.headD tail) :=
  (show Holds l head tail ([] ++ xs) from h).linked_of.1

/-- An element is not where the list goes on behind it. -/
theorem headD_ne (h : Holds l head tail (P ++ a :: (A ++ Q))) : a ≠ Q.headD tail := by
  have hnodup := (List.nodup_cons.mp h.nodup).2
  rw [List.append_assoc, List.cons_append, List.append_assoc] at hnodup
  have hnot := (List.nodup_cons.mp (List.nodup_append.mp hnodup).2.1).1
  intro heq
  exact hnot (heq ▸ List.mem_append_right A (List.mem_of_head? (headD_mem_head? Q tail)))

theorem prev_headD (h : Holds l head tail (P ++ Q)) : l.prev (Q.headD tail) = some (P.getLastD head) :=
  h.linked_of.2

/-- `a :: A` and `b :: B` change places. -/
theorem exchange [DecidableEq α] (h : Holds l head tail (P ++ (a :: A ++ (b :: B ++ Q)))) :
    Holds (l.exchange (P.getLastD head) a (A.getLastD a) b (B.getLastD b) (Q.headD tail)) head tail
      (P ++ (b :: B ++ (a :: A ++ Q))) := by
  have hcut : ∀ A B : List α, head :: (P ++ (A ++ (B ++ Q)) ++ [tail]) =
      (head :: P) ++ (A ++ (B ++ (Q ++ [tail]))) := by
    intro A B
    simp only [List.append_assoc, List.cons_append]
  have hnodup := h.nodup
  have hlinked := h.linked
  rw [hcut] at hnodup hlinked
  constructor
  · rw [hcut]
    have hperm := List.perm_append_comm_assoc (a :: A) (b :: B) (Q ++ [tail])
    exact hnodup.perm (hperm.append_left (head :: P))
  · rw [hcut]
    exact chain_exchange hnodup hlinked (getLastD_mem_getLast? head P) rfl (getLastD_mem_getLast? a A)
      rfl (getLastD_mem_getLast? b B) (headD_mem_head? Q tail)
  · -- the head is none of the elements whose `prev` is written
    have hne := (List.nodup_cons.mp h.nodup).1
    refine (prev_exchange (fun heq => hne ?_) (fun heq => hne ?_) fun heq => hne ?_).trans h.first
    · rw [heq]
      have hmem := List.mem_of_head? (headD_mem_head? Q tail)
      simp only [List.mem_append] at hmem ⊢
      tauto
    · rw [heq]
      simp
    · rw [heq]
      simp
  · -- nor the tail one of those whose `next` is
    have hcons : (head :: (P ++ (a :: A ++ (b :: B ++ Q))) ++ [tail]).Nodup := h.nodup
    have hne : ∀ x ∈ head :: (P ++ (a :: A ++ (b :: B ++ Q))), tail ≠ x := fun x hx =>
      ((List.nodup_append.mp hcons).2.2 x hx tail (List.mem_singleton_self tail)).symm
    have hy : P.getLastD head ∈ head :: P := List.getLastD_mem_cons
    have hz : A.getLastD a ∈ a :: A := List.getLastD_mem_cons
    have ht : B.getLastD b ∈ b :: B := List.getLastD_mem_cons
    refine (next_exchange (hne _ ?_) (hne _ ?_) (hne _ ?_)).trans h.last
    · simp only [List.mem_cons, List.mem_append] at hz ⊢
      tauto
    · simp only [List.mem_cons, List.mem_append] at ht ⊢
      tauto
    · simp only [List.mem_cons, List.mem_append] at hy ⊢
      tauto

end Holds

end LinkedList
