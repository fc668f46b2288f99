/-
# `CS162.Hw2.WqRuns` — the work queue is a queue

`Chain h p l` says that the items from `p` on are those of `l`, address and descriptor.
In a `Queue` the item at the head also points back to the last one, which is where
`DL_APPEND` finds the end.

`Inv` is about one such list.  The thread that holds the mutex may be between linking an
item in or out and counting it (`uncounted`); it alone touches the list, and the items that
are not in the list belong to one thread each.  So the descriptors in the list are those
pushed and not yet popped, in order, and an int counts them as long as they fit one.
-/
import CS162.Hw2.Wq

namespace CS162.Hw2

/-! ## The list -/

/-- The list at `p`. -/
def Chain (h : Heap) : Option Addr → List (Addr × Int32) → Prop
  | p, [] => p = none
  | p, e :: l => p = some e.1 ∧ ∃ i, h e.1 = some i ∧ i.clientSocketFd = e.2 ∧ Chain h i.next l

structure Queue (h : Heap) (head : Option Addr) (l : List (Addr × Int32)) : Prop where
  chain : Chain h head l
  nodup : (l.map Prod.fst).Nodup
  last : ∀ a i, head = some a → h a = some i → i.prev = l.getLast?.map Prod.fst

variable {h h' : Heap} {head p : Option Addr} {l l' : List (Addr × Int32)} {a b : Addr} {fd : Int32}
  {i : WqItem}

/-- There is one list at `p`. -/
theorem Chain.unique (hl : Chain h p l) (hl' : Chain h p l') : l = l' := by
  induction l generalizing p l' with
  | nil =>
      cases l' with
      | nil => rfl
      | cons e l' => exact absurd (hl.symm.trans hl'.1) nofun
  | cons e l ih =>
      cases l' with
      | nil => exact absurd (hl'.symm.trans hl.1) nofun
      | cons e' l' =>
          obtain ⟨hp, i, hi, hfd, hrest⟩ := hl
          obtain ⟨hp', i', hi', hfd', hrest'⟩ := hl'
          have haddr : e.1 = e'.1 := Option.some.inj (hp.symm.trans hp')
          have hitem : i = i' := Option.some.inj (hi.symm.trans (by rw [haddr, hi']))
          subst hitem
          rw [ih hrest hrest', Prod.ext haddr (hfd.symm.trans hfd')]

/-- Only descriptors and `next` count. -/
theorem Chain.congr (hl : Chain h p l)
    (hsame : ∀ e ∈ l, ∀ i, h e.1 = some i →
      ∃ i', h' e.1 = some i' ∧ i'.clientSocketFd = i.clientSocketFd ∧ i'.next = i.next) :
    Chain h' p l := by
  induction l generalizing p with
  | nil => exact hl
  | cons e l ih =>
      obtain ⟨hp, i, hi, hfd, hrest⟩ := hl
      obtain ⟨i', hi', hfd', hnext⟩ := hsame e (.head _) i hi
      refine ⟨hp, i', hi', hfd'.trans hfd, ?_⟩
      rw [hnext]
      exact ih hrest fun e he => hsame e (.tail _ he)

theorem Chain.live (hl : Chain h p l) : ∀ e ∈ l, ∃ i, h e.1 = some i ∧ i.clientSocketFd = e.2 := by
  induction l generalizing p with
  | nil => exact fun e he => nomatch he
  | cons e l ih =>
      obtain ⟨-, i, hi, hfd, hrest⟩ := hl
      intro e' he'
      cases he' with
      | head => exact ⟨i, hi, hfd⟩
      | tail _ he' => exact ih hrest e' he'

theorem Chain.notMem (hl : Chain h p l) (ha : h a = none) : a ∉ l.map Prod.fst := by
  intro hmem
  obtain ⟨e, he, rfl⟩ := List.mem_map.mp hmem
  obtain ⟨i, hi, -⟩ := hl.live e he
  exact absurd (ha.symm.trans hi) nofun

/-- `a` is put behind the last item `e`. -/
theorem Chain.snoc {e : Addr × Int32} (hl : Chain h p (l ++ [e]))
    (hnodup : ((l ++ [e]).map Prod.fst).Nodup)
    (hsame : ∀ x ∈ l ++ [e], ∀ i, h x.1 = some i → ∃ i', h' x.1 = some i' ∧
      i'.clientSocketFd = i.clientSocketFd ∧ i'.next = if x.1 = e.1 then some a else i.next)
    (hi : h' a = some i) (hfd : i.clientSocketFd = fd) (hnext : i.next = none) :
    Chain h' p (l ++ [e] ++ [(a, fd)]) := by
  induction l generalizing p with
  | nil =>
      obtain ⟨hp, j, hj, hfdj, -⟩ := hl
      obtain ⟨j', hj', hfd', hn⟩ := hsame e (.head _) j hj
      rw [if_pos rfl] at hn
      exact ⟨hp, j', hj', hfd'.trans hfdj, hn, i, hi, hfd, hnext⟩
  | cons x l ih =>
      obtain ⟨hp, j, hj, hfdj, hrest⟩ := hl
      obtain ⟨j', hj', hfd', hn⟩ := hsame x (.head _) j hj
      obtain ⟨hx, hnodup⟩ := List.nodup_cons.mp hnodup
      have hne : x.1 ≠ e.1 := fun hxe => hx (by rw [hxe]; simp)
      rw [if_neg hne] at hn
      refine ⟨hp, j', hj', hfd'.trans hfdj, ?_⟩
      rw [hn]
      exact ih hrest hnodup fun y hy => hsame y (.tail _ hy)

/-- Cells outside the list may change. -/
theorem Queue.frame (hq : Queue h head l) (hsame : ∀ e ∈ l, h' e.1 = h e.1) : Queue h' head l := by
  refine ⟨hq.chain.congr fun e he i hi => ⟨i, (hsame e he).trans hi, rfl, rfl⟩, hq.nodup,
    fun a i ha hi => ?_⟩
  cases l with
  | nil => exact absurd (hq.chain.symm.trans ha) nofun
  | cons e l =>
      have hea : e.1 = a := Option.some.inj (hq.chain.1.symm.trans ha)
      exact hq.last a i ha (by rw [← hea, ← hsame e (.head _), hea, hi])

theorem Queue.update (hq : Queue h head l) (ha : a ∉ l.map Prod.fst) (v : Option WqItem) :
    Queue (Function.update h a v) head l :=
  hq.frame fun e he => Function.update_of_ne
    (fun hea => ha (List.mem_map.mpr ⟨e, he, hea⟩)) _ _

namespace Heap

theorem assign_some {f : WqItem → WqItem} (hi : h a = some i) :
    h.assign (some a) f = some (Function.update h a (some (f i))) := by
  simp [assign, hi]

end Heap

/-- The first item, and its way to the last. -/
theorem Queue.first (hq : Queue h head l) (hne : l ≠ []) :
    ∃ b ib, head = some b ∧ b ∈ l.map Prod.fst ∧ h b = some ib ∧
      ib.prev = l.getLast?.map Prod.fst := by
  cases l with
  | nil => exact absurd rfl hne
  | cons e l =>
      obtain ⟨hp, i, hi, -⟩ := hq.chain
      exact ⟨e.1, i, hp, by simp, hi, hq.last _ _ hp hi⟩

/-- The heap after `DL_APPEND` to a list that is not empty: the item `a` behind `e`, and the
way back from the first item `b`. -/
structure Linked (h : Heap) (a b e : Addr) (i : WqItem) (h' : Heap) : Prop where
  item : h' a = some { i with prev := some e, next := none }
  next : ∀ x j, x ≠ a → h x = some j → ∃ j', h' x = some j' ∧ j'.clientSocketFd = j.clientSocketFd ∧
    j'.next = if x = e then some a else j.next
  back : ∀ j, h' b = some j → j.prev = some a
  rest : ∀ x, x ≠ a → x ≠ b → x ≠ e → h' x = h x

/-- `DL_APPEND` puts the item between the last one and the head. -/
theorem dlAppend_linked {e : Addr} {ib ie : WqItem} (hi : h a = some i) (hib : h b = some ib)
    (hprev : ib.prev = some e) (hie : h e = some ie) (hab : a ≠ b) (hae : a ≠ e) :
    ∃ h', h.dlAppend (some b) (some a) = some (h', some b) ∧ Linked h a b e i h' := by
  let h₁ : Heap := Function.update h a (some { i with prev := some e })
  have hb₁ : h₁ b = some ib := (Function.update_of_ne (Ne.symm hab) _ _).trans hib
  have he₁ : h₁ e = some ie := (Function.update_of_ne (Ne.symm hae) _ _).trans hie
  let h₂ : Heap := Function.update h₁ e (some { ie with next := some a })
  obtain ⟨jb, hb₂, hfd, hnext⟩ : ∃ jb, h₂ b = some jb ∧ jb.clientSocketFd = ib.clientSocketFd ∧
      jb.next = if b = e then some a else ib.next := by
    by_cases hbe : b = e
    · have hii : ib = ie := by
        rw [hbe, hie] at hib
        exact (Option.some.inj hib).symm
      exact ⟨{ ie with next := some a }, by rw [hbe]; exact Function.update_self .., by rw [hii],
        by rw [if_pos hbe]⟩
    · exact ⟨ib, (Function.update_of_ne hbe _ _).trans hb₁, rfl, by rw [if_neg hbe]⟩
  let h₃ : Heap := Function.update h₂ b (some { jb with prev := some a })
  have ha₃ : h₃ a = some { i with prev := some e } := by
    show Function.update (Function.update h₁ e _) b _ a = _
    rw [Function.update_of_ne hab, Function.update_of_ne hae]
    exact Function.update_self ..
  refine ⟨Function.update h₃ a (some { i with prev := some e, next := none }), ?_, ?_⟩
  · have e₁ : h.setPrev (some a) (some e) = some h₁ := Heap.assign_some hi
    have e₂ : h₁.setNext (some e) (some a) = some h₂ := Heap.assign_some he₁
    have e₃ : h₂.setPrev (some b) (some a) = some h₃ := Heap.assign_some hb₂
    have e₄ : h₃.setNext (some a) none = some _ := Heap.assign_some ha₃
    simp only [Heap.dlAppend, Heap.deref, Option.bind_eq_bind, Option.bind_some, hib, hprev, e₁, hb₁,
      e₂, e₃, e₄]
    rfl
  · refine ⟨Function.update_self .., fun x j hx hj => ?_, fun j hj => ?_, fun x hxa hxb hxe => ?_⟩
    · rw [Function.update_of_ne hx]
      by_cases hxb : x = b
      · subst hxb
        cases hib.symm.trans hj
        exact ⟨_, Function.update_self .., hfd, hnext⟩
      · have hxb' : h₃ x = h₂ x := Function.update_of_ne hxb _ _
        rw [hxb']
        by_cases hxe : x = e
        · subst hxe
          cases hie.symm.trans hj
          exact ⟨_, Function.update_self .., rfl, by rw [if_pos rfl]⟩
        · have hx₂ : h₂ x = h x :=
            (Function.update_of_ne hxe _ _).trans (Function.update_of_ne hx _ _)
          exact ⟨j, hx₂.trans hj, rfl, by rw [if_neg hxe]⟩
    · rw [Function.update_of_ne (Ne.symm hab)] at hj
      cases (Function.update_self ..).symm.trans hj
      rfl
    · rw [Function.update_of_ne hxa]
      exact (Function.update_of_ne hxb _ _).trans
        ((Function.update_of_ne hxe _ _).trans (Function.update_of_ne hxa _ _))

/-- `DL_APPEND` puts the item at the end and touches the list and the item alone. -/
theorem Queue.append (hq : Queue h head l) (ha : a ∉ l.map Prod.fst) (hi : h a = some i) :
    ∃ h' head', h.dlAppend head (some a) = some (h', head') ∧
      Queue h' head' (l ++ [(a, i.clientSocketFd)]) ∧
      ∀ x, x ≠ a → x ∉ l.map Prod.fst → h' x = h x := by
  rcases List.eq_nil_or_concat l with rfl | ⟨l₀, e, rfl⟩
  · cases hq.chain
    refine ⟨Function.update h a (some { i with prev := some a, next := none }), some a, ?_, ?_, ?_⟩
    · simp [Heap.dlAppend, Heap.setPrev, Heap.setNext, Heap.assign_some hi,
        Heap.assign_some (Function.update_self ..)]
    · refine ⟨⟨rfl, _, Function.update_self .., rfl, rfl⟩, by simp, fun b j hb hj => ?_⟩
      cases hb
      rw [Function.update_self] at hj
      cases hj
      rfl
    · exact fun x hx _ => Function.update_of_ne hx _ _
  · rw [List.concat_eq_append] at hq ha ⊢
    obtain ⟨b, ib, rfl, hb, hib, hprev⟩ := hq.first (by simp)
    rw [List.getLast?_append, List.getLast?_singleton] at hprev
    obtain ⟨ie, hie, -⟩ := hq.chain.live e (by simp)
    have he : e.1 ∈ (l₀ ++ [e]).map Prod.fst := by simp
    obtain ⟨h', happ, hl⟩ := dlAppend_linked hi hib hprev hie (fun hab => ha (hab ▸ hb))
      fun hae => ha (hae ▸ he)
    refine ⟨h', some b, happ, ⟨?_, ?_, fun x j hx hj => ?_⟩, fun x hxa hx =>
      hl.rest x hxa (fun hxb => hx (hxb ▸ hb)) fun hxe => hx (hxe ▸ he)⟩
    · refine hq.chain.snoc hq.nodup (fun x hx j hj => ?_) hl.item rfl rfl
      exact hl.next x.1 j (fun hxa => ha (List.mem_map.mpr ⟨x, hx, hxa⟩)) hj
    · rw [List.map_append, List.nodup_append]
      refine ⟨hq.nodup, by simp, fun x hx y hy => ?_⟩
      cases List.mem_singleton.mp hy
      intro hxa
      subst hxa
      exact ha hx
    · cases hx
      rw [hl.back j hj, List.getLast?_append, List.getLast?_singleton]
      rfl

/-- `DL_DELETE` of the head takes the first item out and touches the others alone. -/
theorem Queue.delete {e : Addr × Int32} (hq : Queue h head (e :: l)) :
    ∃ h' head', h.dlDelete head id = some (h', head') ∧ Queue h' head' l ∧
      ∀ x, x ∉ l.map Prod.fst → h' x = h x := by
  obtain ⟨hp, i, hi, -, hrest⟩ := hq.chain
  obtain ⟨he, hnodup⟩ := List.nodup_cons.mp hq.nodup
  have hlast := hq.last _ _ hp hi
  subst hp
  cases l with
  | nil =>
      refine ⟨h, none, ?_, ⟨rfl, .nil, nofun⟩, fun _ _ => rfl⟩
      simp [Heap.dlDelete, Heap.deref, hi, hlast]
  | cons x l =>
      obtain ⟨hnext, j, hj, hfd, htail⟩ := hrest
      have hxe : x.1 ≠ e.1 := fun h => he (by rw [← h]; simp)
      have hprev : i.prev = ((x :: l).getLast?).map Prod.fst := hlast
      have hne : i.prev ≠ some e.1 := by
        rw [hprev]
        intro heq
        obtain ⟨y, hy, hye⟩ := Option.map_eq_some_iff.mp heq
        exact he (List.mem_map.mpr ⟨y, List.mem_of_getLast? hy, hye⟩)
      have hsome : i.prev ≠ none := by
        rw [hprev]
        simp
      refine ⟨Function.update h x.1 (some { j with prev := i.prev }), some x.1, ?_, ?_, ?_⟩
      · simp [Heap.dlDelete, Heap.deref, hi, hne, hsome, hnext, Heap.setPrev, Heap.assign_some hj,
          Function.update_of_ne (Ne.symm hxe)]
      · refine ⟨?_, hnodup, fun a k ha hk => ?_⟩
        · refine Chain.congr ⟨rfl, j, hj, hfd, htail⟩ fun y _ k hk => ?_
          by_cases hyx : y.1 = x.1
          · rw [hyx, hj] at hk
            cases hk
            exact ⟨{ j with prev := i.prev }, by rw [hyx, Function.update_self], rfl, rfl⟩
          · exact ⟨k, by rw [Function.update_of_ne hyx, hk], rfl, rfl⟩
        · cases ha
          rw [Function.update_self] at hk
          cases hk
          exact hprev
      · intro y hy
        exact Function.update_of_ne (fun hyx => hy (by rw [hyx]; simp)) _ _

/-! ## The invariant -/

/-- With the mutex in hand. -/
def Pc.Holds : Pc → Prop
  | .popTest | .popTake | .popSize _ _ | .popDelete _ _ | .popFree _ _ | .popUnlock _
  | .pushAppend _ | .pushSize | .pushSignal | .pushUnlock => True
  | .idle | .popLock | .popWait | .popRelock | .pushCalloc _ | .pushSet _ _ | .pushLock _ => False

/-- An item that is not, or not any longer, in the list. -/
def Pc.owns : Pc → Option Addr
  | .popFree item _ | .pushSet item _ | .pushLock item | .pushAppend item => item
  | .idle | .popLock | .popTest | .popWait | .popRelock | .popTake | .popSize _ _ | .popDelete _ _
  | .popUnlock _ | .pushCalloc _ | .pushSize | .pushSignal | .pushUnlock => none

/-- Between the item and `size`. -/
def Pc.uncounted : Pc → Int32
  | .popDelete _ _ | .pushSize => 1
  | .idle | .popLock | .popTest | .popWait | .popRelock | .popTake | .popSize _ _ | .popFree _ _
  | .popUnlock _ | .pushCalloc _ | .pushSet _ _ | .pushLock _ | .pushAppend _ | .pushSignal
  | .pushUnlock => 0

/-- What a thread knows. -/
def Fits (h : Heap) (l : List (Addr × Int32)) : Pc → Prop
  | .popTake => l ≠ []
  | .popSize item fd | .popDelete item fd => ∃ a l', item = some a ∧ l = (a, fd) :: l'
  | .pushSet item _ => ∀ a, item = some a → h a ≠ none ∧ a ∉ l.map Prod.fst
  | .popFree item _ | .pushLock item | .pushAppend item =>
      ∃ a, item = some a ∧ h a ≠ none ∧ a ∉ l.map Prod.fst
  | .idle | .popLock | .popTest | .popWait | .popRelock | .popUnlock _ | .pushCalloc _ | .pushSize
  | .pushSignal | .pushUnlock => True

section

variable {T : Type}

def uncounted (mutex : Option T) (pc : T → Pc) : Int32 :=
  match mutex with
  | some t => (pc t).uncounted
  | none => 0

structure Inv (s : Wq T) (l : List (Addr × Int32)) : Prop where
  queue : Queue s.heap s.head l
  order : s.pushed = s.popped ++ l.map Prod.snd
  mutex : Threads.Holds s.mutex Pc.Holds s.pc
  size : s.size + uncounted s.mutex s.pc = Int32.ofNat l.length
  fits : ∀ t, Fits s.heap l (s.pc t)
  owners : ∀ t t' a, (s.pc t).owns = some a → (s.pc t').owns = some a → t = t'
  stopped : s.stopped = none ∨ s.stopped = some .calloc

theorem Fits.congr {q : Pc} (hf : Fits h l q) (hl : q.Holds → l' = l)
    (hown : ∀ a, q.owns = some a → a ∉ l.map Prod.fst → h' a = h a ∧ a ∉ l'.map Prod.fst) :
    Fits h' l' q := by
  cases q with
  | popTake =>
      cases hl trivial
      exact hf
  | popSize item fd =>
      cases hl trivial
      exact hf
  | popDelete item fd =>
      cases hl trivial
      exact hf
  | popFree item fd =>
      obtain ⟨a, rfl, hlive, hnot⟩ := hf
      obtain ⟨hsame, hnot'⟩ := hown a rfl hnot
      exact ⟨a, rfl, by rwa [hsame], hnot'⟩
  | pushLock item =>
      obtain ⟨a, rfl, hlive, hnot⟩ := hf
      obtain ⟨hsame, hnot'⟩ := hown a rfl hnot
      exact ⟨a, rfl, by rwa [hsame], hnot'⟩
  | pushAppend item =>
      obtain ⟨a, rfl, hlive, hnot⟩ := hf
      obtain ⟨hsame, hnot'⟩ := hown a rfl hnot
      exact ⟨a, rfl, by rwa [hsame], hnot'⟩
  | pushSet item fd =>
      intro a ha
      obtain ⟨hlive, hnot⟩ := hf a ha
      obtain ⟨hsame, hnot'⟩ := hown a ha hnot
      exact ⟨by rwa [hsame], hnot'⟩
  | idle => trivial
  | popLock => trivial
  | popTest => trivial
  | popWait => trivial
  | popRelock => trivial
  | popUnlock fd => trivial
  | pushCalloc fd => trivial
  | pushSize => trivial
  | pushSignal => trivial
  | pushUnlock => trivial

variable [DecidableEq T] {s s' : Wq T} {t : T} {q : Pc}

omit [DecidableEq T] in
theorem Fits.owned (hf : Fits h l q) (ha : q.owns = some a) : h a ≠ none ∧ a ∉ l.map Prod.fst := by
  cases q with
  | popFree item fd =>
      obtain ⟨b, rfl, hb⟩ := hf
      cases ha
      exact hb
  | pushLock item =>
      obtain ⟨b, rfl, hb⟩ := hf
      cases ha
      exact hb
  | pushAppend item =>
      obtain ⟨b, rfl, hb⟩ := hf
      cases ha
      exact hb
  | pushSet item fd => exact hf a ha
  | idle => cases ha
  | popLock => cases ha
  | popTest => cases ha
  | popWait => cases ha
  | popRelock => cases ha
  | popTake => cases ha
  | popSize item fd => cases ha
  | popDelete item fd => cases ha
  | popUnlock fd => cases ha
  | pushCalloc fd => cases ha
  | pushSize => cases ha
  | pushSignal => cases ha
  | pushUnlock => cases ha

theorem uncounted_goto (hm : s.mutex = some t) :
    uncounted s.mutex (Function.update s.pc t q) = q.uncounted := by
  rw [hm]
  show (Function.update s.pc t q t).uncounted = _
  rw [Function.update_self]

/-- One thread moves. -/
theorem Inv.move {heap : Heap} {size : Int32} {mutex : Option T} {pushed popped : List Int32}
    (hinv : Inv s l) (hqueue : Queue heap p l') (horder : pushed = popped ++ l'.map Prod.snd)
    (hmutex : Threads.Holds mutex Pc.Holds (Function.update s.pc t q))
    (hsize : size + uncounted mutex (Function.update s.pc t q) = Int32.ofNat l'.length)
    (hothers : ∀ u, u ≠ t → Fits heap l' (s.pc u)) (hfits : Fits heap l' q)
    (howns : ∀ a, q.owns = some a → ∀ u, u ≠ t → (s.pc u).owns ≠ some a) :
    Inv { s with
      heap := heap
      size := size
      head := p
      mutex := mutex
      pc := Function.update s.pc t q
      pushed := pushed
      popped := popped } l' := by
  refine ⟨hqueue, horder, hmutex, hsize, fun u => ?_, fun u u' a hu hu' => ?_, hinv.stopped⟩
  · show Fits heap l' (Function.update s.pc t q u)
    by_cases hut : u = t
    · subst hut
      rwa [Function.update_self]
    · rw [Function.update_of_ne hut]
      exact hothers u hut
  · replace hu : (Function.update s.pc t q u).owns = some a := hu
    replace hu' : (Function.update s.pc t q u').owns = some a := hu'
    by_cases hut : u = t
    · by_cases hut' : u' = t
      · rw [hut, hut']
      · rw [hut, Function.update_self] at hu
        rw [Function.update_of_ne hut'] at hu'
        exact absurd hu' (howns a hu u' hut')
    · rw [Function.update_of_ne hut] at hu
      by_cases hut' : u' = t
      · rw [hut', Function.update_self] at hu'
        exact absurd hu (howns a hu' u hut)
      · rw [Function.update_of_ne hut'] at hu'
        exact hinv.owners u u' a hu hu'

/-- Without the mutex a thread changes its own items, or takes a new one. -/
theorem Inv.outside {heap : Heap} (hinv : Inv s l) (hpc : ¬ (s.pc t).Holds) (hq : ¬ q.Holds)
    (hheap : ∀ a, heap a ≠ s.heap a → a ∉ l.map Prod.fst ∧ ∀ u, u ≠ t → (s.pc u).owns ≠ some a)
    (hfits : Fits heap l q) (howns : ∀ a, q.owns = some a → ∀ u, u ≠ t → (s.pc u).owns ≠ some a) :
    Inv { s with heap := heap, pc := Function.update s.pc t q } l := by
  refine hinv.move ?_ hinv.order (hinv.mutex.same (iff_of_false hpc hq)) ?_ (fun u hu => ?_) hfits howns
  · refine hinv.queue.frame fun e he => ?_
    by_contra hne
    exact (hheap e.1 hne).1 (List.mem_map_of_mem he)
  · rw [← hinv.size]
    congr 1
    cases hm : s.mutex with
    | none => rfl
    | some u =>
        have hut : u ≠ t := fun h => hpc (h ▸ (hinv.mutex u).mp hm)
        show (Function.update s.pc t q u).uncounted = _
        rw [Function.update_of_ne hut]
        rfl
  · refine (hinv.fits u).congr (fun _ => rfl) fun a ha hnot => ⟨?_, hnot⟩
    by_contra hne
    exact (hheap a hne).2 u hu ha

/-- With it, all may change. -/
theorem Inv.inside {heap : Heap} {size : Int32} {pushed popped : List Int32} {mutex : Option T}
    (hinv : Inv s l) (hpc : (s.pc t).Holds) (hqueue : Queue heap p l')
    (horder : pushed = popped ++ l'.map Prod.snd)
    (hmutex : Threads.Holds mutex Pc.Holds (Function.update s.pc t q))
    (hsize : size + uncounted mutex (Function.update s.pc t q) = Int32.ofNat l'.length)
    (hheap : ∀ a u, u ≠ t → (s.pc u).owns = some a → a ∉ l.map Prod.fst →
      heap a = s.heap a ∧ a ∉ l'.map Prod.fst)
    (hfits : Fits heap l' q) (howns : ∀ a, q.owns = some a → ∀ u, u ≠ t → (s.pc u).owns ≠ some a) :
    Inv { s with
      heap := heap
      size := size
      head := p
      mutex := mutex
      pc := Function.update s.pc t q
      pushed := pushed
      popped := popped } l' :=
  hinv.move hqueue horder hmutex hsize
    (fun u hu => (hinv.fits u).congr (fun hold => absurd (hinv.mutex.unique hpc hold) hu)
      fun a ha hnot => hheap a u hu ha hnot) hfits howns

/-- The holder keeps the mutex and the list. -/
theorem Inv.within {heap : Heap} (hinv : Inv s l) (hpc : (s.pc t).Holds) (hq : q.Holds)
    (hcount : q.uncounted = (s.pc t).uncounted)
    (hheap : ∀ a, heap a ≠ s.heap a → a ∉ l.map Prod.fst ∧ ∀ u, u ≠ t → (s.pc u).owns ≠ some a)
    (hfits : Fits heap l q) (howns : ∀ a, q.owns = some a → (s.pc t).owns = some a) :
    Inv { s with heap := heap, pc := Function.update s.pc t q } l := by
  have hm : s.mutex = some t := (hinv.mutex t).mpr hpc
  refine hinv.inside hpc (hinv.queue.frame fun e he => ?_) hinv.order
    (hinv.mutex.same (iff_of_true hpc hq)) ?_ (fun a u hu ha hnot => ⟨?_, hnot⟩) hfits
    fun a ha u hu hu' => hu (hinv.owners u t a hu' (howns a ha))
  · by_contra hne
    exact (hheap e.1 hne).1 (List.mem_map_of_mem he)
  · rw [← hinv.size, hm]
    show _ + (Function.update s.pc t q t).uncounted = _ + (s.pc t).uncounted
    rw [Function.update_self, hcount]
  · by_contra hne
    exact (hheap a hne).2 u hu ha

/-- The mutex is taken. -/
theorem Inv.lock (hinv : Inv s l) (hfree : s.mutex = none) (hq : q.Holds) (hcount : q.uncounted = 0)
    (hfits : Fits s.heap l q) (howns : ∀ a, q.owns = some a → (s.pc t).owns = some a) :
    Inv { s.goto t q with mutex := some t } l := by
  have hnone : Threads.Holds none Pc.Holds s.pc := hfree ▸ hinv.mutex
  refine hinv.move hinv.queue hinv.order (hnone.acquire hq) ?_ (fun u _ => hinv.fits u) hfits
    fun a ha u hu hu' => hu (hinv.owners u t a hu' (howns a ha))
  rw [← hinv.size, hfree]
  show _ + (Function.update s.pc t q t).uncounted = _ + 0
  rw [Function.update_self, hcount]
  rfl

/-- The mutex is given up. -/
theorem Inv.unlock (hinv : Inv s l) (hpc : (s.pc t).Holds) (hq : ¬ q.Holds)
    (hcount : (s.pc t).uncounted = 0) (hfits : Fits s.heap l q) (howns : q.owns = none) :
    Inv { s.goto t q with mutex := none } l := by
  have hm : s.mutex = some t := (hinv.mutex t).mpr hpc
  refine hinv.move hinv.queue hinv.order (hinv.mutex.release hpc hq) ?_ (fun u _ => hinv.fits u) hfits
    fun a ha => absurd (howns.symm.trans ha) nofun
  rw [← hinv.size, hm]
  show _ + 0 = _ + (s.pc t).uncounted
  rw [hcount]
  rfl

omit [DecidableEq T] in
theorem Inv.stop (hinv : Inv s l) : Inv (s.stop .calloc) l :=
  ⟨hinv.queue, hinv.order, hinv.mutex, hinv.size, hinv.fits, hinv.owners, .inr rfl⟩

/-! ## The steps -/

/-- What a step does to the queue: nothing, an item at the end, or the first one out. -/
def Moves (s s' : Wq T) (l l' : List (Addr × Int32)) : Prop :=
  l' = l ∧ s'.pushed = s.pushed ∧ s'.popped = s.popped ∨
  (∃ a fd, l' = l ++ [(a, fd)] ∧ s'.pushed = s.pushed ++ [fd] ∧ s'.popped = s.popped) ∨
  ∃ a fd, l = (a, fd) :: l' ∧ s'.pushed = s.pushed ∧ s'.popped = s.popped ++ [fd]

def Continues (s s' : Wq T) (l : List (Addr × Int32)) : Prop := ∃ l', Inv s' l' ∧ Moves s s' l l'

omit [DecidableEq T] in
theorem Continues.still (hinv : Inv s' l) (hpush : s'.pushed = s.pushed) (hpop : s'.popped = s.popped) :
    Continues s s' l :=
  ⟨l, hinv, .inl ⟨rfl, hpush, hpop⟩⟩

omit [DecidableEq T] in
/-- What the holder knows about `size`. -/
theorem Inv.size_of_holds (hinv : Inv s l) (hpc : (s.pc t).Holds) :
    s.size + (s.pc t).uncounted = Int32.ofNat l.length := by
  have hsize := hinv.size
  rw [(hinv.mutex t).mpr hpc] at hsize
  exact hsize

omit [DecidableEq T] in
theorem Inv.size_of_free (hinv : Inv s l) (hfree : s.mutex = none) : s.size = Int32.ofNat l.length := by
  rw [← hinv.size, hfree]
  exact (Int32.add_zero _).symm

/-- `while (wq->size < 1)`. -/
theorem Inv.popTest (hinv : Inv s l) (hpc : s.pc t = .popTest) (hstep : s.runThread t = some s') :
    Continues s s' l := by
  simp only [Wq.runThread, hpc] at hstep
  have hsize := hinv.size_of_holds (t := t) (by rw [hpc]; trivial)
  rw [hpc] at hsize
  replace hsize : s.size = Int32.ofNat l.length := by rw [← hsize]; exact (Int32.add_zero _).symm
  split at hstep
  · cases hstep
    exact .still (hinv.unlock (by rw [hpc]; trivial) id (by rw [hpc]; rfl) trivial rfl) rfl rfl
  · next hge =>
    cases hstep
    refine .still (hinv.within (by rw [hpc]; trivial) trivial (by rw [hpc]; rfl)
      (fun a hne => absurd rfl hne)
      ?_ nofun) rfl rfl
    rintro rfl
    rw [hsize] at hge
    exact hge (by decide)

/-- `wq_item = wq->head` and its descriptor. -/
theorem Inv.popTake (hinv : Inv s l) (hpc : s.pc t = .popTake) (hstep : s.runThread t = some s') :
    Continues s s' l := by
  have hne : l ≠ [] := by
    have := hinv.fits t
    rwa [hpc] at this
  cases l with
  | nil => exact absurd rfl hne
  | cons e l =>
      obtain ⟨hp, i, hi, hfd, -⟩ := hinv.queue.chain
      simp only [Wq.runThread, hpc, Heap.deref, hp, Option.bind_some, hi] at hstep
      cases hstep
      exact .still (hinv.within (by rw [hpc]; trivial) trivial (by rw [hpc]; rfl)
        (fun a hne => absurd rfl hne)
        ⟨e.1, l, hp ▸ rfl, by rw [hfd]⟩ nofun) rfl rfl

/-- `wq->size--`. -/
theorem Inv.popSize {item : Option Addr} {fd : Int32} (hinv : Inv s l) (hpc : s.pc t = .popSize item fd)
    (hstep : s.runThread t = some s') : Continues s s' l := by
  have hfits := hinv.fits t
  rw [hpc] at hfits
  have hhold : (s.pc t).Holds := by rw [hpc]; trivial
  have hsize := hinv.size_of_holds hhold
  simp only [Wq.runThread, hpc] at hstep
  cases hstep
  refine .still (hinv.inside hhold hinv.queue hinv.order (hinv.mutex.same (iff_of_true hhold trivial)) ?_
    (fun a u hu ha hnot => ⟨rfl, hnot⟩) hfits nofun) rfl rfl
  show s.size - 1 + uncounted s.mutex (Function.update s.pc t _) = _
  rw [uncounted_goto ((hinv.mutex t).mpr hhold), ← hsize, hpc]
  show s.size - 1 + 1 = s.size + 0
  rw [Int32.sub_add_cancel, Int32.add_zero]

/-- `DL_DELETE`: the item with the descriptor that `wq_pop` will return is the first. -/
theorem Inv.popDelete {item : Option Addr} {fd : Int32} (hinv : Inv s l)
    (hpc : s.pc t = .popDelete item fd) (hstep : s.runThread t = some s') : Continues s s' l := by
  have hfits := hinv.fits t
  rw [hpc] at hfits
  obtain ⟨a, l', rfl, rfl⟩ := hfits
  have hhold : (s.pc t).Holds := by rw [hpc]; trivial
  have hsize := hinv.size_of_holds hhold
  obtain ⟨h', head', hdel, hq, hrest⟩ := hinv.queue.delete
  obtain ⟨ha, -⟩ := List.nodup_cons.mp hinv.queue.nodup
  obtain ⟨i, hi, -⟩ := hinv.queue.chain.live _ (.head _)
  simp only [Wq.runThread, hpc, hdel] at hstep
  cases hstep
  have horder : s.pushed = s.popped ++ [fd] ++ l'.map Prod.snd := by
    rw [hinv.order, List.append_assoc]
    rfl
  refine ⟨l', ?_, .inr (.inr ⟨a, fd, rfl, rfl, rfl⟩)⟩
  refine hinv.inside hhold hq horder (hinv.mutex.same (iff_of_true hhold trivial)) ?_
    (fun b u hu hb hnot => ?_) ⟨a, rfl, ?_, ha⟩ fun b hb u hu hb' => ?_
  · show s.size + uncounted s.mutex (Function.update s.pc t _) = _
    rw [uncounted_goto ((hinv.mutex t).mpr hhold)]
    show s.size + 0 = _
    have hlen : Int32.ofNat ((a, fd) :: l').length = Int32.ofNat l'.length + 1 := Int32.ofNat_add ..
    rw [hpc, hlen] at hsize
    rw [Int32.add_zero]
    exact (Int32.add_left_inj 1).mp hsize
  · have hnot' : b ∉ l'.map Prod.fst := fun hmem => hnot (List.mem_cons_of_mem _ hmem)
    exact ⟨hrest b hnot', hnot'⟩
  · rw [hrest a ha, hi]
    nofun
  · cases hb
    exact ((hinv.fits u).owned hb').2 (.head _)

/-- `free (wq_item)`. -/
theorem Inv.popFree {item : Option Addr} {fd : Int32} (hinv : Inv s l)
    (hpc : s.pc t = .popFree item fd) (hstep : s.runThread t = some s') : Continues s s' l := by
  have hfits := hinv.fits t
  rw [hpc] at hfits
  obtain ⟨a, rfl, hlive, hnot⟩ := hfits
  simp only [Wq.runThread, hpc, if_neg hlive] at hstep
  cases hstep
  refine .still (hinv.within (by rw [hpc]; trivial) trivial (by rw [hpc]; rfl) (fun b hb => ?_) trivial
    nofun) rfl rfl
  have hba : b = a := by
    by_contra hne
    exact hb (Function.update_of_ne hne _ _)
  subst hba
  exact ⟨hnot, fun u hu hu' => hu (hinv.owners u t b hu' (by rw [hpc]; rfl))⟩

/-- `wq_item->client_socket_fd = client_socket_fd`. -/
theorem Inv.pushSet {item : Option Addr} {fd : Int32} (hinv : Inv s l)
    (hpc : s.pc t = .pushSet item fd) (hstep : s.runThread t = some s') : Continues s s' l := by
  have hfits := hinv.fits t
  rw [hpc] at hfits
  cases item with
  | none =>
      simp only [Wq.runThread, hpc, Heap.assign, Option.bind_eq_bind, Option.bind_none] at hstep
      cases hstep
      exact .still hinv.stop rfl rfl
  | some a =>
      obtain ⟨hlive, hnot⟩ := hfits a rfl
      obtain ⟨i, hi⟩ := Option.ne_none_iff_exists'.mp hlive
      simp only [Wq.runThread, hpc, Heap.assign_some hi] at hstep
      cases hstep
      refine .still (hinv.outside (by rw [hpc]; exact id) id (fun b hb => ?_)
        ⟨a, rfl, by rw [Function.update_self]; nofun, hnot⟩ fun b hb u hu hu' => ?_) rfl rfl
      · have hba : b = a := by
          by_contra hne
          exact hb (Function.update_of_ne hne _ _)
        subst hba
        exact ⟨hnot, fun u hu hu' => hu (hinv.owners u t b hu' (by rw [hpc]; rfl))⟩
      · exact hu (hinv.owners u t b hu' (by rw [hpc]; exact hb))

/-- `DL_APPEND`. -/
theorem Inv.pushAppend {item : Option Addr} (hinv : Inv s l) (hpc : s.pc t = .pushAppend item)
    (hstep : s.runThread t = some s') : Continues s s' l := by
  have hfits := hinv.fits t
  rw [hpc] at hfits
  obtain ⟨a, rfl, hlive, hnot⟩ := hfits
  obtain ⟨i, hi⟩ := Option.ne_none_iff_exists'.mp hlive
  have hhold : (s.pc t).Holds := by rw [hpc]; trivial
  have hsize := hinv.size_of_holds hhold
  obtain ⟨h', head', happ, hq, hrest⟩ := hinv.queue.append hnot hi
  simp only [Wq.runThread, hpc, happ, Heap.deref, Option.bind_some, hi] at hstep
  cases hstep
  have horder : s.pushed ++ [i.clientSocketFd] =
      s.popped ++ (l ++ [(a, i.clientSocketFd)]).map Prod.snd := by
    rw [hinv.order, List.append_assoc, List.map_append]
    rfl
  refine ⟨_, ?_, .inr (.inl ⟨a, i.clientSocketFd, rfl, rfl, rfl⟩)⟩
  refine hinv.inside hhold hq horder (hinv.mutex.same (iff_of_true hhold trivial)) ?_
    (fun b u hu hb hb' => ?_) trivial nofun
  · show s.size + uncounted s.mutex (Function.update s.pc t _) = _
    rw [uncounted_goto ((hinv.mutex t).mpr hhold), List.length_append]
    rw [hpc] at hsize
    replace hsize : s.size = Int32.ofNat l.length := by rw [← hsize]; exact (Int32.add_zero _).symm
    rw [hsize]
    exact (Int32.ofNat_add ..).symm
  · have hba : b ≠ a := fun hba => hu (hinv.owners u t b hb (by rw [hpc, hba]; rfl))
    exact ⟨hrest b hba hb', by simpa [hba] using hb'⟩

/-- `wq->size++`. -/
theorem Inv.pushSize (hinv : Inv s l) (hpc : s.pc t = .pushSize) (hstep : s.runThread t = some s') :
    Continues s s' l := by
  have hhold : (s.pc t).Holds := by rw [hpc]; trivial
  have hsize := hinv.size_of_holds hhold
  simp only [Wq.runThread, hpc] at hstep
  cases hstep
  refine .still (hinv.inside hhold hinv.queue hinv.order (hinv.mutex.same (iff_of_true hhold trivial)) ?_
    (fun a u hu ha hnot => ⟨rfl, hnot⟩) trivial nofun) rfl rfl
  show s.size + 1 + uncounted s.mutex (Function.update s.pc t _) = _
  rw [uncounted_goto ((hinv.mutex t).mpr hhold), ← hsize, hpc]
  exact Int32.add_zero _

/-- A statement that takes the mutex. -/
theorem Inv.takesLock (hinv : Inv s l) (hq : q.Holds) (hcount : q.uncounted = 0)
    (hfits : Fits s.heap l q) (howns : ∀ a, q.owns = some a → (s.pc t).owns = some a)
    (hstep : (if s.mutex = none then some { s.goto t q with mutex := some t } else none) = some s') :
    Continues s s' l := by
  split at hstep
  · next hfree =>
    cases hstep
    exact .still (hinv.lock hfree hq hcount hfits howns) rfl rfl
  · cases hstep

/-- A thread that runs on keeps the invariant, and takes or adds what its place says. -/
theorem Inv.runThread (hinv : Inv s l) (hstep : s.runThread t = some s') : Continues s s' l := by
  cases hpc : s.pc t with
  | popTest => exact hinv.popTest hpc hstep
  | popTake => exact hinv.popTake hpc hstep
  | popSize item fd => exact hinv.popSize hpc hstep
  | popDelete item fd => exact hinv.popDelete hpc hstep
  | popFree item fd => exact hinv.popFree hpc hstep
  | pushSet item fd => exact hinv.pushSet hpc hstep
  | pushAppend item => exact hinv.pushAppend hpc hstep
  | pushSize => exact hinv.pushSize hpc hstep
  | popLock =>
      simp only [Wq.runThread, hpc] at hstep
      exact hinv.takesLock (q := .popTest) trivial rfl trivial nofun hstep
  | popRelock =>
      simp only [Wq.runThread, hpc] at hstep
      exact hinv.takesLock (q := .popTest) trivial rfl trivial nofun hstep
  | pushLock item =>
      have hfits := hinv.fits t
      rw [hpc] at hfits
      simp only [Wq.runThread, hpc] at hstep
      exact hinv.takesLock (q := .pushAppend item) trivial rfl hfits (fun a ha => by rw [hpc]; exact ha)
        hstep
  | popUnlock fd =>
      simp only [Wq.runThread, hpc] at hstep
      cases hstep
      exact .still (hinv.unlock (by rw [hpc]; trivial) id (by rw [hpc]; rfl) trivial rfl) rfl rfl
  | pushUnlock =>
      simp only [Wq.runThread, hpc] at hstep
      cases hstep
      exact .still (hinv.unlock (by rw [hpc]; trivial) id (by rw [hpc]; rfl) trivial rfl) rfl rfl
  | idle =>
      simp only [Wq.runThread, hpc] at hstep
      cases hstep
  | popWait =>
      simp only [Wq.runThread, hpc] at hstep
      cases hstep
  | pushCalloc fd =>
      simp only [Wq.runThread, hpc] at hstep
      cases hstep
  | pushSignal =>
      simp only [Wq.runThread, hpc] at hstep
      cases hstep

/-- A thread without the mutex and without an item goes where it needs neither. -/
theorem Inv.goto (hinv : Inv s l) (hpc : ¬ (s.pc t).Holds) (hq : ¬ q.Holds) (hfits : Fits s.heap l q)
    (howns : q.owns = none) : Inv (s.goto t q) l :=
  hinv.outside hpc hq (fun _ hne => absurd rfl hne) hfits fun _ ha =>
    absurd (howns.symm.trans ha) nofun

/-- `calloc`. -/
theorem Inv.calloc {fd : Int32} (hinv : Inv s l) (hpc : s.pc t = .pushCalloc fd) (ha : s.heap a = none) :
    Inv { s.goto t (.pushSet a fd) with heap := Function.update s.heap a (some ⟨0, none, none⟩) } l := by
  have hnot : a ∉ l.map Prod.fst := hinv.queue.chain.notMem ha
  have hfree : ∀ u, (s.pc u).owns ≠ some a := fun u hu => ((hinv.fits u).owned hu).1 ha
  refine hinv.outside (by rw [hpc]; exact id) id (fun b hb => ?_) (fun b hb => ?_) fun b hb u _ => ?_
  · have hba : b = a := by
      by_contra hne
      exact hb (Function.update_of_ne hne _ _)
    subst hba
    exact ⟨hnot, fun u _ => hfree u⟩
  · cases hb
    exact ⟨by rw [Function.update_self]; nofun, hnot⟩
  · cases hb
    exact hfree u

/-- `pthread_cond_signal`. -/
theorem Inv.signal (hinv : Inv s l) (hpc : s.pc t = .pushSignal) : Inv (s.goto t .pushUnlock) l :=
  hinv.within (by rw [hpc]; trivial) trivial (by rw [hpc]; rfl)
    (fun _ hne => absurd rfl hne) trivial nofun

/-- Every step keeps the invariant, and moves the queue as a queue moves. -/
theorem Inv.step {a : Act T} (hinv : Inv s l) (hstep : s.step a = some s') : Continues s s' l := by
  have hstopped : s.stopped = none := by
    by_contra hne
    simp only [Wq.step, if_pos hne] at hstep
    cases hstep
  replace hstep := (if_neg (not_not.mpr hstopped)).symm.trans hstep
  cases a with
  | run t => exact hinv.runThread hstep
  | callPop t =>
      dsimp only at hstep
      split at hstep
      · next hpc =>
        cases hstep
        exact .still (hinv.goto (by rw [hpc]; exact id) id trivial rfl) rfl rfl
      · cases hstep
  | callPush t fd =>
      dsimp only at hstep
      split at hstep
      · next hpc =>
        cases hstep
        exact .still (hinv.goto (by rw [hpc]; exact id) id trivial rfl) rfl rfl
      · cases hstep
  | wake t =>
      dsimp only at hstep
      split at hstep
      · next hpc =>
        cases hstep
        exact .still (hinv.goto (by rw [hpc]; exact id) id trivial rfl) rfl rfl
      · cases hstep
  | calloc t item =>
      dsimp only at hstep
      split at hstep
      · next fd hpc =>
        cases hstep
        exact .still (hinv.goto (by rw [hpc]; exact id) id nofun rfl) rfl rfl
      · next fd a hpc =>
        split at hstep
        · next ha =>
          cases hstep
          exact .still (hinv.calloc hpc ha) rfl rfl
        · cases hstep
      · cases hstep
  | signal t woken =>
      dsimp only at hstep
      split at hstep
      · next hpc =>
        split at hstep
        · next w =>
          split at hstep
          · next hw =>
            cases hstep
            have hwt : t ≠ w := by
              rintro rfl
              exact absurd (hpc.symm.trans hw) nofun
            have h₁ : Inv (s.goto w .popRelock) l := hinv.goto (by rw [hw]; exact id) id trivial rfl
            exact .still (h₁.signal ((Function.update_of_ne hwt _ _).trans hpc)) rfl rfl
          · cases hstep
        · cases hstep
          exact .still (hinv.signal hpc) rfl rfl
      · cases hstep

/-! ## Runs -/

def Wq.Step (s s' : Wq T) : Prop := ∃ a, s.step a = some s'

omit [DecidableEq T] in
theorem Inv.init : Inv (wqInit : Wq T) [] where
  queue := ⟨rfl, .nil, nofun⟩
  order := rfl
  mutex _ := iff_of_false nofun id
  size := rfl
  fits _ := trivial
  owners _ _ _ h := nomatch h
  stopped := .inl rfl

theorem Inv.reach (hrun : Relation.ReflTransGen Wq.Step wqInit s) : ∃ l, Inv s l :=
  Threads.invariant_of_step (I := fun s => ∃ l, Inv s l) hrun ⟨[], Inv.init⟩
    fun _ _ ⟨_, hinv⟩ ⟨_, hstep⟩ => (hinv.step hstep).imp fun _ h => h.1

/-- A run of given steps; `none` if one of them cannot be taken. -/
def Wq.runs (s : Wq T) : List (Act T) → Option (Wq T)
  | [] => some s
  | a :: rest => (s.step a).bind (Wq.runs · rest)

theorem Wq.step_of_runs {as : List (Act T)} (h : s.runs as = some s') :
    Relation.ReflTransGen Wq.Step s s' := by
  induction as generalizing s with
  | nil =>
      cases h
      exact .refl
  | cons a rest ih =>
      obtain ⟨m, hm, hrest⟩ := Option.bind_eq_some_iff.mp h
      exact .head ⟨a, hm⟩ (ih hrest)

/-- In every reachable state: the descriptors popped are the first of those pushed, in
order, and the others are in the list; with the mutex free `size` counts the list, as far
as an `int` counts; and no access of `wq_pop` or `DL_APPEND` fails. -/
theorem work_queue_is_fifo (hrun : Relation.ReflTransGen Wq.Step wqInit s) :
    ∃ l, Chain s.heap s.head l ∧ s.pushed = s.popped ++ l.map Prod.snd ∧ s.popped <+: s.pushed ∧
      (s.mutex = none → s.size = Int32.ofNat l.length ∧
        (l.length < 2 ^ 31 → s.size.toInt = l.length)) ∧
      (s.stopped = none ∨ s.stopped = some .calloc) := by
  obtain ⟨l, hinv⟩ := Inv.reach hrun
  refine ⟨l, hinv.queue.chain, hinv.order, ⟨_, hinv.order.symm⟩, fun hfree => ?_, hinv.stopped⟩
  have hsize := hinv.size_of_free hfree
  refine ⟨hsize, fun hlt => ?_⟩
  rw [hsize, Int32.toInt_ofNat_of_lt hlt]

/-- One thread waits in `wq_pop`, is woken for nothing, and gets the first of two
descriptors that another pushes. -/
def popWaits : List (Act (Fin 2)) :=
  [.callPop 0, .run 0, .run 0, .wake 0, .run 0, .run 0,
    .callPush 1 7, .calloc 1 (some 100), .run 1, .run 1, .run 1, .run 1, .signal 1 (some 0), .run 1,
    .callPush 1 8, .calloc 1 (some 200), .run 1, .run 1, .run 1, .run 1, .signal 1 none, .run 1,
    .run 0, .run 0, .run 0, .run 0, .run 0, .run 0, .run 0]

theorem work_queue_is_fifo_two : ∃ (s : Wq (Fin 2)) (l : List (Addr × Int32)),
    s.popped = [7] ∧ Chain s.heap s.head l ∧ l.map Prod.snd = [8] ∧ s.size = 1 := by
  obtain ⟨s, hrun, hpop, hpush, hfree⟩ : ∃ s, (wqInit : Wq (Fin 2)).runs popWaits = some s ∧
      s.popped = [7] ∧ s.pushed = [7, 8] ∧ s.mutex = none := ⟨_, rfl, rfl, rfl, rfl⟩
  obtain ⟨l, hl, horder, -, hsize, -⟩ := work_queue_is_fifo (Wq.step_of_runs hrun)
  rw [hpop, hpush] at horder
  have hfds : l.map Prod.snd = [8] := (List.cons.inj horder).2.symm
  have hlen : l.length = 1 := by rw [← List.length_map (f := Prod.snd), hfds]; rfl
  exact ⟨s, l, hpop, hl, hfds, by rw [(hsize hfree).1, hlen]; rfl⟩

/-! ## When `size` does not fit -/

/-- A thread that is alone calls `wq_push`. -/
theorem Inv.push (hinv : Inv s l) (hstopped : s.stopped = none) (hfree : s.mutex = none)
    (hpc : s.pc t = .idle) (ha : s.heap a = none) (fd : Int32) :
    ∃ s', Relation.ReflTransGen Wq.Step s s' ∧ s'.stopped = none ∧ s'.mutex = none ∧ s'.pc t = .idle ∧
      s'.pushed = s.pushed ++ [fd] ∧ s'.popped = s.popped ∧
      ∀ x, x ≠ a → s.heap x = none → s'.heap x = none := by
  have hnot : a ∉ l.map Prod.fst := hinv.queue.chain.notMem ha
  let heap := Function.update s.heap a (some ⟨fd, none, none⟩)
  obtain ⟨h', head', happ, -, hrest⟩ :=
    (hinv.queue.update hnot (some ⟨fd, none, none⟩)).append hnot (Function.update_self ..)
  refine ⟨{ s with heap := h', head := head', size := s.size + 1, pushed := s.pushed ++ [fd] }, ?_,
    hstopped, hfree, hpc, rfl, rfl, fun x hx hnone => ?_⟩
  · let as : List (Act T) := [.callPush t fd, .calloc t a, .run t, .run t, .run t, .run t,
      .signal t none, .run t]
    have hpc' : Function.update s.pc t .idle = s.pc := by rw [← hpc, Function.update_eq_self]
    refine Wq.step_of_runs (?_ : s.runs as = _)
    simp [as, Wq.runs, Wq.step, Wq.runThread, Wq.goto, Heap.deref, Heap.assign, happ, hstopped, hpc,
      hfree, ha,
      hpc']
  · show h' x = none
    rw [hrest x hx (hinv.queue.chain.notMem hnone), Function.update_of_ne hx, hnone]

/-- `n` calls of `wq_push` and none of `wq_pop`. -/
theorem pushes (n : Nat) : ∃ s : Wq Unit, Relation.ReflTransGen Wq.Step wqInit s ∧ s.stopped = none ∧
    s.mutex = none ∧ s.pc () = .idle ∧ s.pushed.length = n ∧ s.popped = [] ∧
    ∀ x, n ≤ x → s.heap x = none := by
  induction n with
  | zero => exact ⟨wqInit, .refl, rfl, rfl, rfl, rfl, rfl, fun _ _ => rfl⟩
  | succ n ih =>
      obtain ⟨s, hrun, hstopped, hfree, hpc, hlen, hpop, hheap⟩ := ih
      obtain ⟨l, hinv⟩ := Inv.reach hrun
      obtain ⟨s', hrun', hstopped', hfree', hpc', hpush, hpop', hheap'⟩ :=
        hinv.push hstopped hfree hpc (hheap n le_rfl) 0
      refine ⟨s', hrun.trans hrun', hstopped', hfree', hpc', ?_, hpop'.trans hpop, fun x hx => ?_⟩
      · rw [hpush, List.length_append, hlen]
        rfl
      · exact hheap' x (Nat.ne_of_gt hx) (hheap x (Nat.le_of_succ_le hx))

/-- With `2 ^ 31` items in the list `size` is negative. -/
theorem size_wraps : ¬ ∀ (T : Type) [DecidableEq T] (s : Wq T),
    Relation.ReflTransGen Wq.Step wqInit s → s.mutex = none →
      ∀ l, Chain s.heap s.head l → s.size.toInt = l.length := by
  intro hall
  obtain ⟨s, hrun, -, hfree, -, hlen, hpop, -⟩ := pushes (2 ^ 31)
  obtain ⟨l, hinv⟩ := Inv.reach hrun
  have hl : l.length = 2 ^ 31 := by
    rw [← hlen, hinv.order, hpop, List.nil_append, List.length_map]
  have heq := hall Unit s hrun hfree l hinv.queue.chain
  rw [hinv.size_of_free hfree, hl] at heq
  exact absurd heq (by decide)

end

end CS162.Hw2
