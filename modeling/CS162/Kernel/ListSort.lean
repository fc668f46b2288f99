/-
# `CS162.Kernel.ListSort` — `list_sort`

The sort of lib/kernel/list.c on the links themselves, with the assertions of the functions it calls.  A
pass merges each two neighbouring runs in place: `inplace_merge` moves one element after the other of the
second run in front of a greater one of the first.  Passes are made until one puts out a single run.

What the list holds is said by `Holds`, and where a pointer into it points by the elements from there on
(`place`).  The passes are those of `NaturalMerge.pass` on the elements (`passLoop_ok`), from which the
order, the stability and the end of the outer loop follow.

`less` is not null, and does not look at the links.  There are no more runs than elements in memory, so
`output_run_cnt` does not overflow and is a `Nat`.
-/
import CS162.Lib.LinkedList
import CS162.Lib.NaturalMerge

namespace CS162.Kernel.ListSort

open LinkedList NaturalMerge

variable {α : Type}

/-! ## The functions -/

/-- How the kernel may stop, or not: an assertion fails, a null pointer is followed, or the loop
has not ended yet. -/
inductive Stop
  | assert
  | null
  | spin
  deriving DecidableEq, Repr

abbrev ListM (α : Type) := EStateM Stop (Links α)

def assert (c : Bool) : ListM α Unit := if c then pure () else throw .assert

/-- Follows a pointer. -/
def deref : Option α → ListM α α
  | none => throw .null
  | some a => pure a

def prev (elem : Option α) : ListM α (Option α) := do
  let a ← deref elem
  let l ← get
  pure (l.prev a)

def next (elem : Option α) : ListM α (Option α) := do
  let a ← deref elem
  let l ← get
  pure (l.next a)

def setPrev [DecidableEq α] (elem v : Option α) : ListM α Unit := do
  let a ← deref elem
  modify fun l => l.setPrev a v

def setNext [DecidableEq α] (elem v : Option α) : ListM α Unit := do
  let a ← deref elem
  modify fun l => l.setNext a v

def isHead (l : Links α) : Option α → Bool
  | none => false
  | some a => (l.prev a).isNone && (l.next a).isSome

def isInterior (l : Links α) : Option α → Bool
  | none => false
  | some a => (l.prev a).isSome && (l.next a).isSome

def isTail (l : Links α) : Option α → Bool
  | none => false
  | some a => (l.prev a).isSome && (l.next a).isNone

/-- `struct list`: the addresses of its two header elements. -/
structure KList (α : Type) where
  head : α
  tail : α

def listBegin (list : KList α) : ListM α (Option α) := next (some list.head)

def listEnd (list : KList α) : Option α := some list.tail

def listNext (elem : Option α) : ListM α (Option α) := do
  let l ← get
  assert (isHead l elem || isInterior l elem)
  next elem

def listPrev (elem : Option α) : ListM α (Option α) := do
  let l ← get
  assert (isInterior l elem || isTail l elem)
  prev elem

/-- `less (a, b, aux)`. -/
def callLess (less : α → α → Bool) (a b : Option α) : ListM α Bool := do
  let a ← deref a
  let b ← deref b
  pure (less a b)

section

variable [DecidableEq α]

def listSplice (before first last : Option α) : ListM α Unit := do
  let l ← get
  assert (isInterior l before || isTail l before)
  if first = last then pure ()
  else
    let last ← listPrev last
    let l ← get
    assert (isInterior l first)
    assert (isInterior l last)
    -- remove `first` … `last` from its list
    setNext (← prev first) (← next last)
    setPrev (← next last) (← prev first)
    -- and put it in front of `before`
    setPrev first (← prev before)
    setNext last before
    setNext (← prev before) first
    setPrev before last

/-- The loop of `is_sorted`. -/
def isSortedLoop (less : α → α → Bool) (b : Option α) : Nat → Option α → ListM α Bool
  | 0, _ => throw .spin
  | n + 1, a => do
      let a ← listNext a
      if a = b then pure true
      else
        let p ← listPrev a
        let descends ← callLess less a p
        if descends then pure false else isSortedLoop less b n a

def isSorted (less : α → α → Bool) (n : Nat) (a b : Option α) : ListM α Bool :=
  if a = b then pure true else isSortedLoop less b n a

/-- The loop of `find_end_of_run`. -/
def findEndOfRunLoop (less : α → α → Bool) (b : Option α) : Nat → Option α → ListM α (Option α)
  | 0, _ => throw .spin
  | n + 1, a => do
      let a ← listNext a
      if a = b then pure a
      else
        let p ← listPrev a
        let descends ← callLess less a p
        if descends then pure a else findEndOfRunLoop less b n a

def findEndOfRun (less : α → α → Bool) (n : Nat) (a b : Option α) : ListM α (Option α) := do
  assert a.isSome
  assert b.isSome
  assert (decide (a ≠ b))
  findEndOfRunLoop less b n a

/-- The loop of `inplace_merge`. -/
def mergeLoop (less : α → α → Bool) (b1 : Option α) : Nat → Option α → Option α → ListM α Unit
  | 0, _, _ => throw .spin
  | n + 1, a0, a1b0 =>
      if a0 ≠ a1b0 ∧ a1b0 ≠ b1 then do
        let descends ← callLess less a1b0 a0
        if !descends then
          let a0 ← listNext a0
          mergeLoop less b1 n a0 a1b0
        else
          let a1b0 ← listNext a1b0
          let p ← listPrev a1b0
          listSplice a0 p a1b0
          mergeLoop less b1 n a0 a1b0
      else pure ()

def inplaceMerge (less : α → α → Bool) (n : Nat) (a0 a1b0 b1 : Option α) : ListM α Unit := do
  assert a0.isSome
  assert a1b0.isSome
  assert b1.isSome
  assert (← isSorted less n a0 a1b0)
  assert (← isSorted less n a1b0 b1)
  mergeLoop less b1 n a0 a1b0

/-- One pass of `list_sort`, with `output_run_cnt`. -/
def passLoop (less : α → α → Bool) (list : KList α) (n : Nat) : Nat → Option α → Nat → ListM α Nat
  | 0, _, _ => throw .spin
  | k + 1, a0, outputRunCnt =>
      if a0 ≠ listEnd list then do
        let a1b0 ← findEndOfRun less n a0 (listEnd list)
        if a1b0 = listEnd list then pure (outputRunCnt + 1)
        else
          let b1 ← findEndOfRun less n a1b0 (listEnd list)
          inplaceMerge less n a0 a1b0 b1
          passLoop less list n k b1 (outputRunCnt + 1)
      else pure outputRunCnt

/-- The passes of `list_sort`. -/
def sortLoop (less : α → α → Bool) (list : KList α) (n : Nat) : Nat → ListM α Unit
  | 0 => throw .spin
  | k + 1 => do
      let a0 ← listBegin list
      let outputRunCnt ← passLoop less list n n a0 0
      if outputRunCnt > 1 then sortLoop less list n k else pure ()

/-- No loop goes round more than `n` times. -/
def listSort (list : KList α) (less : α → α → Bool) (n : Nat) : ListM α Unit := do
  sortLoop less list n n
  let a ← listBegin list
  assert (← isSorted less n a (listEnd list))

end

/-! ## Reading the list -/

/-- The pointer to where the elements go on with `Q`. -/
def place (list : KList α) (Q : List α) : Option α := some (Q.headD list.tail)

theorem place_cons (list : KList α) (a : α) (Q : List α) : place list (a :: Q) = some a := rfl

/-- The list is well-formed and has the elements `xs`. -/
def KList.Holds (list : KList α) (l : Links α) (xs : List α) : Prop :=
  LinkedList.Holds l list.head list.tail xs

section

variable {β γ : Type} {less : α → α → Bool} {list : KList α} {l l' : Links α}
  {a b : α} {A B P Q R xs : List α} {n : Nat}

theorem bind_ok {x : ListM α β} {f : β → ListM α γ} {v : β} (h : x.run l = .ok v l') :
    (x >>= f).run l = (f v).run l' := by
  show EStateM.bind x f l = f v l'
  unfold EStateM.bind
  rw [show x l = .ok v l' from h]

theorem get_ok : (get : ListM α (Links α)).run l = .ok l l := rfl

theorem assert_ok (c : Bool) (h : c = true) : (assert c).run l = .ok ⟨⟩ l := by
  rw [h]
  rfl

theorem prev_ok {v : Option α} (h : l.prev a = v) : (prev (some a)).run l = .ok v l :=
  congrArg (EStateM.Result.ok · l) h

theorem next_ok {v : Option α} (h : l.next a = v) : (next (some a)).run l = .ok v l :=
  congrArg (EStateM.Result.ok · l) h

theorem setPrev_ok [DecidableEq α] (a : α) (v : Option α) :
    (setPrev (some a) v).run l = .ok ⟨⟩ (l.setPrev a v) := rfl

theorem setNext_ok [DecidableEq α] (a : α) (v : Option α) :
    (setNext (some a) v).run l = .ok ⟨⟩ (l.setNext a v) := rfl

theorem callLess_ok (less : α → α → Bool) (a b : α) :
    (callLess less (some a) (some b)).run l = .ok (less a b) l := rfl

theorem listBegin_ok (h : list.Holds l xs) : (listBegin list).run l = .ok (place list xs) l :=
  next_ok h.next_head

theorem isInterior_of (h : list.Holds l (P ++ a :: Q)) : isInterior l (some a) = true := by
  simp only [isInterior, h.prev_eq, h.next_eq, Option.isSome_some, Bool.and_self]

theorem listNext_ok (h : list.Holds l (P ++ a :: Q)) :
    (listNext (some a)).run l = .ok (place list Q) l := by
  have hassert : (isHead l (some a) || isInterior l (some a)) = true := by
    rw [isInterior_of h, Bool.or_true]
  unfold listNext
  rw [bind_ok get_ok, bind_ok (assert_ok _ hassert)]
  exact next_ok h.next_eq

theorem listPrev_ok (h : list.Holds l (P ++ a :: Q)) :
    (listPrev (place list Q)).run l = .ok (some a) l := by
  have hprev : l.prev (Q.headD list.tail) = some a := by
    rw [List.append_cons] at h
    rw [h.prev_headD, List.getLastD_concat]
  have hassert : (isInterior l (place list Q) || isTail l (place list Q)) = true := by
    unfold isInterior isTail place
    simp only [hprev]
    cases l.next (Q.headD list.tail) <;> rfl
  unfold listPrev
  rw [bind_ok get_ok, bind_ok (assert_ok _ hassert)]
  exact prev_ok hprev

theorem place_ne (h : list.Holds l (P ++ a :: (A ++ Q))) : some a ≠ place list Q :=
  fun heq => h.headD_ne (Option.some.inj heq)

theorem place_ne_end (hQ : Q ≠ []) (h : list.Holds l (P ++ Q)) : place list Q ≠ listEnd list := by
  obtain ⟨a, Q, rfl⟩ := List.exists_cons_of_ne_nil hQ
  rw [← List.append_nil Q] at h
  exact place_ne (Q := []) h

theorem concat_getLastD (a : α) (A : List α) : a :: A = (a :: A).dropLast ++ [A.getLastD a] := by
  rw [← List.getLast_eq_getLastD (List.cons_ne_nil a A), List.dropLast_concat_getLast]

variable [DecidableEq α]

/-- The loop of `is_sorted` comes to the end of a list that is in order. -/
theorem isSortedLoop_ok (hn : R.length < n) (h : list.Holds l (P ++ a :: (R ++ Q)))
    (hord : Ordered less (a :: R)) :
    (isSortedLoop less (place list Q) n (some a)).run l = .ok true l := by
  induction R generalizing P a n with
  | nil =>
      obtain ⟨n, rfl⟩ : ∃ m, n = m + 1 := ⟨n - 1, by omega⟩
      unfold isSortedLoop
      rw [bind_ok (listNext_ok h), List.nil_append, if_pos rfl]
      rfl
  | cons b R ih =>
      obtain ⟨n, rfl⟩ : ∃ m, n = m + 1 := ⟨n - 1, by omega⟩
      obtain ⟨hba, hrest⟩ := List.isChain_cons_cons.mp hord
      have h' : list.Holds l (P ++ [a] ++ b :: (R ++ Q)) := by rwa [← List.append_cons]
      unfold isSortedLoop
      rw [bind_ok (listNext_ok h), List.cons_append, place_cons, if_neg (place_ne h')]
      rw [bind_ok (show (listPrev (some b)).run l = .ok (some a) l from listPrev_ok h)]
      rw [bind_ok (callLess_ok less b a), hba, if_neg Bool.false_ne_true]
      exact ih (Nat.lt_of_succ_lt_succ hn) h' hrest

theorem isSorted_ok (hn : R.length ≤ n) (h : list.Holds l (P ++ (R ++ Q))) (hord : Ordered less R) :
    (isSorted less n (place list (R ++ Q)) (place list Q)).run l = .ok true l := by
  unfold isSorted
  cases R with
  | nil =>
      rw [List.nil_append, if_pos rfl]
      rfl
  | cons a R =>
      rw [if_neg (show place list (a :: R ++ Q) ≠ place list Q from place_ne h)]
      exact isSortedLoop_ok hn h hord

/-- The loop of `find_end_of_run` stops where the first run ends. -/
theorem findEndOfRunLoop_ok (hn : R.length < n) (h : list.Holds l (P ++ a :: R)) :
    (findEndOfRunLoop less (listEnd list) n (some a)).run l =
      .ok (place list (splitRun less (a :: R)).2) l := by
  induction R generalizing P a n with
  | nil =>
      obtain ⟨n, rfl⟩ : ∃ m, n = m + 1 := ⟨n - 1, by omega⟩
      unfold findEndOfRunLoop
      rw [bind_ok (listNext_ok h), if_pos (show place list [] = listEnd list from rfl)]
      rfl
  | cons b R ih =>
      obtain ⟨n, rfl⟩ : ∃ m, n = m + 1 := ⟨n - 1, by omega⟩
      have h' : list.Holds l (P ++ [a] ++ b :: R) := by rwa [← List.append_cons]
      have hne := place_ne_end (List.cons_ne_nil b R) h'
      unfold findEndOfRunLoop
      rw [bind_ok (listNext_ok h), if_neg hne, bind_ok (listPrev_ok h), place_cons]
      rw [bind_ok (callLess_ok less b a), splitRun]
      split
      · rfl
      · exact ih (Nat.lt_of_succ_lt_succ hn) h'

theorem findEndOfRun_ok (hR : R ≠ []) (hn : R.length ≤ n) (h : list.Holds l (P ++ R)) :
    (findEndOfRun less n (place list R) (listEnd list)).run l =
      .ok (place list (splitRun less R).2) l := by
  obtain ⟨a, R, rfl⟩ := List.exists_cons_of_ne_nil hR
  have hne := place_ne_end hR h
  unfold findEndOfRun
  rw [bind_ok (assert_ok (place list (a :: R)).isSome rfl), bind_ok (assert_ok (listEnd list).isSome rfl),
    bind_ok (assert_ok _ (decide_eq_true hne))]
  exact findEndOfRunLoop_ok hn h

/-! ## Merging in place -/

/-- `b :: B` is moved in front of `a :: A`. -/
theorem listSplice_ok (h : list.Holds l (P ++ (a :: A ++ (b :: B ++ Q)))) :
    ∃ l', (listSplice (some a) (some b) (place list Q)).run l = .ok ⟨⟩ l' ∧
      list.Holds l' (P ++ (b :: B ++ (a :: A ++ Q))) := by
  refine ⟨_, ?_, h.exchange⟩
  -- the last elements of the two segments
  have hz : a :: A = (a :: A).dropLast ++ [A.getLastD a] := concat_getLastD a A
  have ht : b :: B = (b :: B).dropLast ++ [B.getLastD b] := concat_getLastD b B
  have hzt : list.Holds l
      (P ++ (a :: A).dropLast ++ A.getLastD a :: ((b :: B).dropLast ++ B.getLastD b :: Q)) := by
    rw [hz, ht] at h
    simpa only [List.append_assoc, List.cons_append, List.nil_append] using h
  have hb : list.Holds l (P ++ (a :: A) ++ b :: (B ++ Q)) := by rwa [List.append_assoc]
  have htQ : list.Holds l (P ++ (a :: A) ++ (b :: B).dropLast ++ B.getLastD b :: Q) := by
    rw [ht] at h
    simpa only [List.append_assoc, List.cons_append, List.nil_append] using h
  have haq : a ≠ Q.headD list.tail := by
    have h' : list.Holds l (P ++ a :: (A ++ b :: B ++ Q)) := by rwa [List.append_assoc]
    exact h'.headD_ne
  have hab : a ≠ b := h.headD_ne
  have htz : B.getLastD b ≠ A.getLastD a := hzt.headD_ne.symm
  have hprev : l.prev b = some (A.getLastD a) := by
    have hlast := hb.prev_eq
    rw [hz] at hlast
    rwa [← List.append_assoc, List.getLastD_concat] at hlast
  unfold listSplice
  rw [bind_ok get_ok, bind_ok (assert_ok _ (by rw [isInterior_of h, Bool.true_or])),
    if_neg (place_ne hb), bind_ok (listPrev_ok htQ), bind_ok get_ok,
    bind_ok (assert_ok _ (isInterior_of hb)), bind_ok (assert_ok _ (isInterior_of htQ)),
    -- `first->prev->next = last->next`
    bind_ok (prev_ok hprev), bind_ok (next_ok htQ.next_eq), bind_ok (setNext_ok _ _),
    -- `last->next->prev = first->prev`
    bind_ok (next_ok ((Function.update_of_ne htz ..).trans htQ.next_eq)),
    bind_ok (prev_ok (show (l.setNext _ _).prev b = _ from hprev)), bind_ok (setPrev_ok _ _),
    -- `first->prev = before->prev` and `last->next = before`
    bind_ok (prev_ok ((Function.update_of_ne haq ..).trans h.prev_eq)), bind_ok (setPrev_ok _ _),
    bind_ok (setNext_ok _ _),
    -- `before->prev->next = first`
    bind_ok (prev_ok ((Function.update_of_ne hab ..).trans
      ((Function.update_of_ne haq ..).trans h.prev_eq))), bind_ok (setNext_ok _ _)]
  exact setPrev_ok _ _

/-- What has been merged is in front of `a0`. -/
theorem mergeLoop_ok (hn : A.length + B.length < n) (h : list.Holds l (P ++ (A ++ (B ++ Q)))) :
    ∃ l', (mergeLoop less (place list Q) n (place list (A ++ (B ++ Q))) (place list (B ++ Q))).run l =
        .ok ⟨⟩ l' ∧
      list.Holds l' (P ++ (A.merge B (notLess less) ++ Q)) := by
  induction n generalizing l P A B with
  | zero => exact absurd hn (Nat.not_lt_zero _)
  | succ n ih =>
      unfold mergeLoop
      cases A with
      | nil =>
          rw [if_neg fun hand => hand.1 rfl, List.nil_merge]
          exact ⟨l, rfl, h⟩
      | cons a A =>
          cases B with
          | nil =>
              rw [if_neg fun hand => hand.2 rfl, List.merge_right]
              exact ⟨l, rfl, h⟩
          | cons b B =>
              simp only [List.length_cons] at hn
              have hb : list.Holds l (P ++ (a :: A) ++ b :: (B ++ Q)) := by rwa [List.append_assoc]
              have hne : place list (a :: A ++ (b :: B ++ Q)) ≠ place list (b :: B ++ Q) := place_ne h
              rw [if_pos ⟨hne, place_ne hb⟩, List.cons_merge_cons]
              simp only [List.cons_append, place_cons]
              rw [bind_ok (callLess_ok less b a), notLess]
              cases hba : less b a with
              | false =>
                  have htrue : (!false) = true := rfl
                  rw [if_pos htrue, if_pos htrue, bind_ok (listNext_ok h)]
                  have hih := ih (P := P ++ [a]) (A := A) (B := b :: B) (by rw [List.length_cons]; omega)
                    (by rwa [← List.append_cons])
                  rwa [← List.append_cons] at hih
              | true =>
                  have hfalse : ¬ (!true) = true := Bool.false_ne_true
                  rw [if_neg hfalse, if_neg hfalse, bind_ok (listNext_ok hb), bind_ok (listPrev_ok hb)]
                  obtain ⟨l', hsplice, h'⟩ := listSplice_ok (Q := B ++ Q) (B := []) h
                  rw [bind_ok hsplice]
                  have hih := ih (P := P ++ [b]) (A := a :: A) (B := B) (by rw [List.length_cons]; omega)
                    (by rwa [← List.append_cons])
                  rwa [← List.append_cons] at hih

/-- `inplace_merge` merges two runs that stand next to each
other; among equals those of the first come first. -/
theorem inplaceMerge_ok (P A B Q : List α) (hn : A.length + B.length < n)
    (h : list.Holds l (P ++ (A ++ (B ++ Q)))) (hA : Ordered less A) (hB : Ordered less B) :
    ∃ l', (inplaceMerge less n (place list (A ++ (B ++ Q))) (place list (B ++ Q)) (place list Q)).run l =
        .ok ⟨⟩ l' ∧
      list.Holds l' (P ++ (A.merge B (notLess less) ++ Q)) := by
  have hB' : list.Holds l (P ++ A ++ (B ++ Q)) := by rwa [List.append_assoc]
  unfold inplaceMerge
  rw [bind_ok (assert_ok (place list (A ++ (B ++ Q))).isSome rfl),
    bind_ok (assert_ok (place list (B ++ Q)).isSome rfl), bind_ok (assert_ok (place list Q).isSome rfl),
    bind_ok (isSorted_ok (by omega) h hA), bind_ok (assert_ok _ rfl),
    bind_ok (isSorted_ok (by omega) hB' hB), bind_ok (assert_ok _ rfl)]
  exact mergeLoop_ok hn h

/-! ## Sorting -/

/-- A pass is one of the elements. -/
theorem passLoop_ok (less : α → α → Bool) (P : List α) (cnt : Nat) {k : Nat} (hk : R.length < k)
    (hn : R.length < n) (h : list.Holds l (P ++ R)) :
    ∃ l', (passLoop less list n k (place list R) cnt).run l =
        .ok (cnt + (NaturalMerge.pass less R).1) l' ∧
      list.Holds l' (P ++ (NaturalMerge.pass less R).2) := by
  induction k generalizing l P R cnt with
  | zero => exact absurd hk (Nat.not_lt_zero _)
  | succ k ih =>
      unfold passLoop NaturalMerge.pass
      by_cases hR : R = []
      · rw [dif_pos hR, hR, if_neg fun hne => hne rfl]
        rw [hR] at h
        exact ⟨l, rfl, h⟩
      · rw [dif_neg hR, if_pos (place_ne_end hR h), bind_ok (findEndOfRun_ok hR hn.le h)]
        by_cases hrest : (splitRun less R).2 = []
        · rw [dif_pos hrest, hrest, if_pos (show place list [] = listEnd list from rfl)]
          exact ⟨l, rfl, h⟩
        · have hcut : (splitRun less R).1 ++ (splitRun less R).2 = R := splitRun_append less R
          have hcut' := splitRun_append less (splitRun less R).2
          have hR' : list.Holds l (P ++ (splitRun less R).1 ++ (splitRun less R).2) := by
            rwa [List.append_assoc, hcut]
          have hlt := length_splitRun_lt less hR
          have hlt' := length_splitRun_lt less hrest
          have hlen := congrArg List.length hcut
          have hlen' := congrArg List.length hcut'
          rw [List.length_append] at hlen hlen'
          rw [dif_neg hrest, if_neg (place_ne_end hrest hR'),
            bind_ok (findEndOfRun_ok hrest (by omega) hR')]
          obtain ⟨l', hmerge, h'⟩ := inplaceMerge_ok P (splitRun less R).1
            (splitRun less (splitRun less R).2).1 (splitRun less (splitRun less R).2).2
            (show _ < n by omega) (show list.Holds l _ by rwa [hcut', hcut])
            (ordered_splitRun less R) (ordered_splitRun less (splitRun less R).2)
          rw [hcut', hcut] at hmerge
          rw [bind_ok hmerge]
          rw [← List.append_assoc] at h'
          obtain ⟨l'', hloop, h''⟩ := ih _ (cnt + 1) (by omega) (by omega) h'
          refine ⟨l'', hloop.trans ?_, by rwa [← List.append_assoc]⟩
          rw [Nat.add_assoc, Nat.add_comm 1]

/-- The number of descents bounds that of the passes. -/
theorem sortLoop_ok {S : Set α} (hless : StrictWeakOn less S) (hxs : ∀ x ∈ xs, x ∈ S) {k : Nat}
    (hk : descents less xs < k) (hn : xs.length < n) (h : list.Holds l xs) :
    ∃ l' ys, (sortLoop less list n k).run l = .ok ⟨⟩ l' ∧ list.Holds l' ys ∧
      Moves less xs ys ∧ Ordered less ys := by
  induction k generalizing l xs with
  | zero => exact absurd hk (Nat.not_lt_zero _)
  | succ k ih =>
      obtain ⟨l', hloop, h'⟩ := passLoop_ok less [] 0 hn hn h
      have hpass := passed hless hxs
      rw [Nat.zero_add] at hloop
      unfold sortLoop
      rw [bind_ok (listBegin_ok h), bind_ok hloop]
      by_cases hcnt : (NaturalMerge.pass less xs).1 > 1
      · rw [if_pos hcnt]
        have hperm := hpass.moves.perm
        obtain ⟨l'', ys, hrest, h'', hmoves, hord⟩ := ih (fun x hx => hxs x (hperm.subset hx))
          (by have hlt := hpass.descents_lt hcnt; omega) (by rw [hperm.length_eq]; exact hn) h'
        exact ⟨l'', ys, hrest, h'', hpass.moves.trans hmoves, hord⟩
      · rw [if_neg hcnt]
        exact ⟨l', _, rfl, h', hpass.moves, hpass.ordered (Nat.le_of_not_lt hcnt)⟩

end

/-- `list_sort` sorts: whatever the list and the strict weak order on its elements, it returns with the
list well-formed, of the same elements, in order, and with elements of which neither is less in the
order they had. -/
theorem listSort_sorts [DecidableEq α] {list : KList α} {less : α → α → Bool} {l : Links α}
    {xs : List α} {n : Nat} (h : list.Holds l xs) (hless : StrictWeakOn less {x | x ∈ xs})
    (hn : xs.length < n) :
    ∃ l' ys, (listSort list less n).run l = .ok ⟨⟩ l' ∧ list.Holds l' ys ∧ ys.Perm xs ∧
      (ys.Pairwise fun a b => less b a = false) ∧
      ∀ x y, Tied less x y → [x, y].Sublist xs → [x, y].Sublist ys := by
  obtain ⟨l', ys, hrun, h', hmoves, hord⟩ := sortLoop_ok hless (fun x hx => hx)
    ((descents_le_length xs).trans_lt hn) hn h
  have hperm := hmoves.perm
  refine ⟨l', ys, ?_, h', hperm, hord.pairwise hless fun x hx => hperm.subset hx,
    fun x y htied hsub => hmoves.sublist htied.2 hsub⟩
  have hsorted : (isSorted less n (place list ys) (listEnd list)).run l' = .ok true l' := by
    have hnil : list.Holds l' ([] ++ (ys ++ [])) := by rwa [List.nil_append, List.append_nil]
    have hok := isSorted_ok (by rw [hperm.length_eq]; exact hn.le : ys.length ≤ n) hnil hord
    rw [List.append_nil] at hok
    exact hok
  unfold listSort
  rw [bind_ok hrun, bind_ok (listBegin_ok h'), bind_ok hsorted]
  exact assert_ok _ rfl

/-- Three elements, 1 to 3, between the headers 0 and 4. -/
def threeLinks : Links Nat where
  prev a := if a = 0 then none else some (a - 1)
  next a := if a = 4 then none else some (a + 1)

/-- The first is greater than the others, and these are equal. -/
def lessOfThree (a b : Nat) : Bool := decide ((if a = 1 then 1 else 0) < if b = 1 then 1 else 0)

theorem listSort_sorts_three : ∃ l' ys,
    (listSort ⟨0, 4⟩ lessOfThree 4).run threeLinks = .ok ⟨⟩ l' ∧ KList.Holds ⟨0, 4⟩ l' ys ∧
      ys.Perm [1, 2, 3] ∧
      (ys.Pairwise fun a b => lessOfThree b a = false) ∧
      ∀ x y, Tied lessOfThree x y → [x, y].Sublist [1, 2, 3] → [x, y].Sublist ys :=
  listSort_sorts (show KList.Holds ⟨0, 4⟩ threeLinks [1, 2, 3] from
    ⟨by decide, by simp [Linked, threeLinks], rfl, rfl⟩)
    (strictWeakOn_key (fun a => if a = 1 then 1 else 0) _) (by decide)

end CS162.Kernel.ListSort
