/-
# `CS162.Userprog.Args` — the arguments of a process

`start_process` takes the command line apart with `strtok_r`, which writes into it, copies the
words to the top of the user's stack and puts the table of pointers to them below.  On the way
it collects the pointers in `argv[128]`, and with the null pointer at the end it reads one entry
more than there are words: `arguments_passed_iff` says that 127 words are right and more are
not.

Memory is bytes by address.  `load` is left open.
-/
import CS162.Lib.Mem
import CS162.Lib.Words

namespace CS162.Userprog

namespace Args

open Mem Words

/-- `PHYS_BASE`. -/
def physBase : Nat := 0xC0000000

/-- `PGSIZE`. -/
def pgSize : Nat := 4096

/-- The entries of `argv`. -/
def argvSize : Nat := 128

/-- Memory that is not there. -/
inductive Fault where
  /-- There is no end of a string within a page. -/
  | text
  /-- `load` is given a null pointer. -/
  | null
  /-- Not on the stack page. -/
  | stack
  /-- An index out of the bounds of `argv`. -/
  | argv
deriving DecidableEq

/-- The delimiter. -/
def isSpace (c : UInt8) : Bool := c == 32

/-! ## Strings -/

def strlen (m : Bytes) : Nat → Nat → Except Fault Nat
  | 0, _ => .error .text
  | n + 1, s => if m s = 0 then .ok 0 else (strlen m n (s + 1)).map (· + 1)

/-- The first loop of `strtok_r`. -/
def skipSpaces (m : Bytes) : Nat → Nat → Except Fault Nat
  | 0, _ => .error .text
  | n + 1, s => if isSpace (m s) then skipSpaces m n (s + 1) else .ok s

/-- The second loop of `strtok_r`. -/
def tokenEnd (m : Bytes) : Nat → Nat → Except Fault Nat
  | 0, _ => .error .text
  | n + 1, s => if isSpace (m s) || m s == 0 then .ok s else tokenEnd m n (s + 1)

/-- The token, the memory and `*save_ptr`. -/
def strtokR (m : Bytes) (s : Nat) : Except Fault (Option Nat × Bytes × Nat) := do
  let token ← skipSpaces m pgSize s
  if m token = 0 then return (none, m, token)
  let stop ← tokenEnd m pgSize token
  if m stop ≠ 0 then return (some token, Function.update m stop 0, stop + 1)
  return (some token, m, stop)

/-- A part of the stack page. -/
def onStack (a n : Nat) : Except Fault Unit :=
  if physBase - pgSize ≤ a ∧ a + n ≤ physBase then .ok () else .error .stack

def strlcpy (m : Bytes) (dst src size : Nat) : Except Fault Bytes := do
  let srcLen ← strlen m pgSize src
  if size = 0 then return m
  let dstLen := min srcLen (size - 1)
  onStack dst (dstLen + 1)
  return Function.update (copy m dst src dstLen) (dst + dstLen) 0

/-! ## `start_process` -/

/-- Its local variables, and the memory. -/
structure St where
  mem : Bytes
  sp : Nat
  argv : Nat → Nat
  argc : Nat

/-- One round of the loop. -/
def pushString (st : St) (tok : Nat) : Except Fault St := do
  let len := (← strlen st.mem pgSize tok) + 1
  let sp := st.sp - len
  let mem ← strlcpy st.mem sp tok len
  if argvSize ≤ st.argc then throw .argv
  return ⟨mem, sp, Function.update st.argv st.argc sp, st.argc + 1⟩

/-- The loop. -/
def pushStrings : Nat → St → Nat → Nat → Except Fault St
  | 0, _, _, _ => .error .text
  | n + 1, st, tok, save => do
      let st ← pushString st tok
      let (tok, mem, save) ← strtokR st.mem save
      match tok with
      | none => return { st with mem := mem }
      | some tok => pushStrings n { st with mem := mem } tok save

/-- The words of `argv` one after the other. -/
def storeWords (m : Bytes) (a : Nat) (argv : Nat → Nat) : Nat → Bytes
  | 0 => m
  | n + 1 => store (storeWords m a argv n) (a + 4 * n) 4 (argv n)

/-- `*--esp = v`. -/
def pushWord (m : Bytes) (esp v : Nat) : Except Fault (Nat × Bytes) := do
  onStack (esp - 4) 4
  return (esp - 4, store m (esp - 4) 4 v)

/-- What follows the loop. -/
def pushTable (st : St) : Except Fault (Nat × Bytes) := do
  let esp := st.sp / 4 * 4 - 4 * (st.argc + 1)
  if argvSize < st.argc + 1 then throw .argv
  onStack esp (4 * (st.argc + 1))
  let m := storeWords st.mem esp st.argv (st.argc + 1)
  let (esp, m) ← pushWord m esp esp
  let (esp, m) ← pushWord m esp st.argc
  pushWord m esp 0x314

/-- `start_process` if `load` succeeds: `esp` and the memory. -/
def startProcess (load : Bytes → Nat → Bytes) (m : Bytes) (fileName : Nat) :
    Except Fault (Nat × Bytes) := do
  let (tok, m, save) ← strtokR m fileName
  match tok with
  | none => throw .null
  | some tok =>
      let st ← pushStrings pgSize ⟨load m tok, physBase, fun _ => 0, 0⟩ tok save
      pushTable st

variable {m m' : Bytes} {s n tok save : Nat} {l w : List UInt8} {ws : List (List UInt8)} {σ σ' : St}

/-! ## Tokens -/

theorem strlen_spec (h : Text m s l) (hlen : l.length < n) : strlen m n s = .ok l.length := by
  induction l generalizing s n with
  | nil =>
      obtain ⟨n, rfl⟩ := Nat.exists_eq_succ_of_ne_zero (Nat.ne_zero_of_lt hlen)
      exact if_pos h
  | cons c l ih =>
      obtain ⟨n, rfl⟩ := Nat.exists_eq_succ_of_ne_zero (Nat.ne_zero_of_lt hlen)
      obtain ⟨hc, hne, hrest⟩ := h
      unfold strlen
      rw [if_neg (hc.symm ▸ hne), ih hrest (Nat.lt_of_succ_lt_succ hlen)]
      rfl

theorem isSpace_zero : isSpace 0 = false := rfl

/-- The loop over the separators in front of a token. -/
theorem skipSpaces_spec (h : Text m s l) (hlen : l.length < n) : ∃ p l', skipSpaces m n s = .ok p ∧
    Text m p l' ∧ words isSpace l = words isSpace l' ∧ (∀ c ∈ l'.head?, isSpace c = false) ∧ s ≤ p ∧
      p + l'.length = s + l.length := by
  induction l generalizing s n with
  | nil =>
      obtain ⟨n, rfl⟩ := Nat.exists_eq_succ_of_ne_zero (Nat.ne_zero_of_lt hlen)
      have hzero : m s = 0 := h
      refine ⟨s, [], if_neg ?_, h, rfl, fun c hc => absurd hc (Option.not_mem_none c), Nat.le_refl s, rfl⟩
      rw [hzero, isSpace_zero]
      exact Bool.false_ne_true
  | cons c l ih =>
      obtain ⟨n, rfl⟩ := Nat.exists_eq_succ_of_ne_zero (Nat.ne_zero_of_lt hlen)
      have hc : m s = c := h.1
      unfold skipSpaces
      rw [hc, List.length_cons]
      by_cases hspace : isSpace c = true
      · obtain ⟨p, l', hskip, htext, hwords, hhead, hle, hend⟩ := ih h.2.2 (Nat.lt_of_succ_lt_succ hlen)
        rw [if_pos hspace, words_sep hspace]
        exact ⟨p, l', hskip, htext, hwords, hhead, by omega, by omega⟩
      · rw [if_neg hspace]
        refine ⟨s, c :: l, rfl, h, rfl, fun d hd => ?_, Nat.le_refl s, rfl⟩
        rw [← Option.mem_some.mp hd]
        exact Bool.eq_false_iff.mpr hspace

/-- The loop to the end of a token. -/
theorem tokenEnd_spec (h : Text m s l) (hlen : l.length < n) : ∃ w l', l = w ++ l' ∧
    tokenEnd m n s = .ok (s + w.length) ∧ (∀ c ∈ w, isSpace c = false) ∧
      ∀ c ∈ l'.head?, isSpace c = true := by
  induction l generalizing s n with
  | nil =>
      obtain ⟨n, rfl⟩ := Nat.exists_eq_succ_of_ne_zero (Nat.ne_zero_of_lt hlen)
      have hzero : m s = 0 := h
      refine ⟨[], [], rfl, if_pos ?_, fun c hc => absurd hc List.not_mem_nil,
        fun c hc => absurd hc (Option.not_mem_none c)⟩
      rw [hzero]
      rfl
  | cons c l ih =>
      obtain ⟨n, rfl⟩ := Nat.exists_eq_succ_of_ne_zero (Nat.ne_zero_of_lt hlen)
      obtain ⟨hc, hne, hrest⟩ := h
      unfold tokenEnd
      rw [hc]
      by_cases hspace : isSpace c = true
      · refine ⟨[], c :: l, rfl, if_pos (by rw [hspace]; rfl), fun d hd => absurd hd List.not_mem_nil,
          fun d hd => ?_⟩
        rw [← Option.mem_some.mp hd]
        exact hspace
      · obtain ⟨w, l', rfl, hend, hw, hhead⟩ := ih hrest (Nat.lt_of_succ_lt_succ hlen)
        have hstay : ¬ (isSpace c || c == 0) = true := by
          rw [Bool.or_eq_true, not_or, beq_iff_eq]
          exact ⟨hspace, hne⟩
        refine ⟨c :: w, l', rfl, ?_, fun d hd => ?_, hhead⟩
        · rw [if_neg hstay, hend, List.length_cons, Nat.add_assoc, Nat.add_comm 1]
        · rcases List.mem_cons.mp hd with rfl | hd
          · exact Bool.eq_false_iff.mpr hspace
          · exact hw d hd

/-- The next word is cut off the text. -/
structure Token (m : Bytes) (s : Nat) (l : List UInt8) (tok : Nat) (m' : Bytes) (save : Nat)
    (w l' : List UInt8) : Prop where
  word : Text m' tok w
  rest : Text m' save l'
  words : words isSpace l = w :: words isSpace l'
  low : s ≤ tok
  high : tok + w.length ≤ s + l.length
  saveLow : s ≤ save
  saveHigh : save + l'.length ≤ s + l.length
  frame : ∀ a, a < s → m' a = m a

/-- `strtok_r` gives the first word, with a NUL behind it, and keeps the place behind that. -/
theorem strtokR_spec (h : Text m s l) (hlen : l.length < pgSize) :
    (words isSpace l = [] ∧ ∃ save, strtokR m s = .ok (none, m, save)) ∨
      ∃ tok m' save w l', strtokR m s = .ok (some tok, m', save) ∧ Token m s l tok m' save w l' := by
  obtain ⟨p, l₁, hskip, htext, hwords, hhead, hle, hend⟩ := skipSpaces_spec h hlen
  unfold strtokR
  rw [hskip]
  cases l₁ with
  | nil => exact .inl ⟨hwords, p, if_pos htext⟩
  | cons c l₁ =>
      have hfirst : m p ≠ 0 := htext.1.symm ▸ htext.2.1
      obtain ⟨w, l', hsplit, hstop, hw, hhead'⟩ :=
        tokenEnd_spec (n := pgSize) htext (by omega)
      have hwne : w ≠ [] := by
        rintro rfl
        have hl' : c :: l₁ = l' := hsplit
        have hspace := hhead' c (hl' ▸ rfl)
        rw [hhead c rfl] at hspace
        cases hspace
      rw [hsplit] at htext hwords hend
      rw [List.length_append] at hend
      right
      cases l' with
      | nil =>
          have hzero : m (p + w.length) = 0 := htext.append
          rw [List.append_nil] at htext hwords
          refine ⟨p, m, p + w.length, w, [], ?_, htext, hzero, ?_, hle, by omega, by omega,
            by omega, fun _ _ => rfl⟩
          · simp [hfirst, hstop, hzero, bind, Except.bind, pure, Except.pure]
          · rw [hwords, words_single hw hwne, words_nil]
      | cons d l' =>
          have hrest := htext.append
          have hd : m (p + w.length) ≠ 0 := hrest.1.symm ▸ hrest.2.1
          rw [List.length_cons] at hend
          refine ⟨p, Function.update m (p + w.length) 0, p + w.length + 1, w, l', ?_, htext.cut,
            hrest.2.2.congr fun x hx _ => Function.update_of_ne (by omega) .., ?_, hle, by omega,
            by omega, by omega, fun a ha => Function.update_of_ne (by omega) ..⟩
          · simp [hfirst, hstop, hd, bind, Except.bind, pure, Except.pure]
          · rw [hwords, words_cons hw hwne (hhead' d rfl)]

/-! ## The loop -/

/-- A word is on the stack. -/
structure PushedWord (σ σ₁ : St) (w : List UInt8) : Prop where
  sp : σ₁.sp + (w.length + 1) = σ.sp
  argc : σ₁.argc = σ.argc + 1
  argv : σ₁.argv = Function.update σ.argv σ.argc σ₁.sp
  word : Text σ₁.mem σ₁.sp w
  frame : ∀ a, σ.sp ≤ a → σ₁.mem a = σ.mem a

/-- A word is copied to the stack, NUL and all. -/
theorem pushString_spec (htok : Text σ.mem tok w) (hlen : w.length < pgSize) (hhigh : σ.sp ≤ physBase)
    (hroom : physBase - pgSize + (w.length + 1) ≤ σ.sp) :
    (σ.argc < argvSize → ∃ σ₁, pushString σ tok = .ok σ₁ ∧ PushedWord σ σ₁ w) ∧
      (argvSize ≤ σ.argc → pushString σ tok = .error .argv) := by
  obtain ⟨sp, hsp⟩ : ∃ sp, sp + (w.length + 1) = σ.sp := ⟨_, Nat.sub_add_cancel (by omega)⟩
  have hsub : σ.sp - (w.length + 1) = sp := by omega
  have hcopy : strlcpy σ.mem sp tok (w.length + 1) =
      .ok (Function.update (copy σ.mem sp tok w.length) (sp + w.length) 0) := by
    have hstack : onStack sp (w.length + 1) = .ok () := if_pos ⟨by omega, by omega⟩
    unfold strlcpy
    rw [strlen_spec htok hlen]
    simp [hstack, bind, Except.bind, pure, Except.pure]
  unfold pushString
  rw [strlen_spec htok hlen]
  constructor
  · intro hargc
    refine ⟨⟨Function.update (copy σ.mem sp tok w.length) (sp + w.length) 0, sp,
      Function.update σ.argv σ.argc sp, σ.argc + 1⟩, ?_, hsp, rfl, rfl, htok.copy, fun a ha => ?_⟩
    · simp only [bind, Except.bind, hsub, hcopy, if_neg (Nat.not_le_of_lt hargc), pure, Except.pure]
    · exact (Function.update_of_ne (by omega) ..).trans (copy_other (by omega))
  · intro hargc
    simp only [bind, Except.bind, hsub, hcopy, if_pos hargc, throw, throwThe, MonadExceptOf.throw]

theorem pushStrings_last {σ₁ : St} (hpush : pushString σ tok = .ok σ₁)
    (htok : strtokR σ₁.mem save = .ok (none, m, s)) :
    pushStrings (n + 1) σ tok save = .ok { σ₁ with mem := m } := by
  unfold pushStrings
  rw [hpush]
  simp only [bind, Except.bind, htok, pure, Except.pure]

theorem pushStrings_next {σ₁ : St} {tok' : Nat} (hpush : pushString σ tok = .ok σ₁)
    (htok : strtokR σ₁.mem save = .ok (some tok', m, s)) :
    pushStrings (n + 1) σ tok save = pushStrings n { σ₁ with mem := m } tok' s := by
  conv_lhs => unfold pushStrings
  rw [hpush]
  simp only [bind, Except.bind, htok]

theorem pushStrings_full (hpush : pushString σ tok = .error .argv) :
    pushStrings (n + 1) σ tok save = .error .argv := by
  unfold pushStrings
  rw [hpush]
  rfl

/-- Words have been pushed. -/
structure Pushed (σ σ' : St) (ws : List (List UInt8)) : Prop where
  argc : σ'.argc = σ.argc + ws.length
  sp : σ'.sp + space ws = σ.sp
  kept : ∀ i < σ.argc, σ'.argv i = σ.argv i
  rest : ∀ i, σ'.argc ≤ i → σ'.argv i = σ.argv i
  string : ∀ i (h : i < ws.length), Text σ'.mem (σ'.argv (σ.argc + i)) ws[i]
  place : ∀ i < ws.length, σ'.argv (σ.argc + i) + space (ws.take (i + 1)) = σ.sp
  frame : ∀ a, σ.sp ≤ a → a < physBase → σ'.mem a = σ.mem a

theorem Pushed.nil (σ : St) : Pushed σ σ [] :=
  ⟨rfl, rfl, fun _ _ => rfl, fun _ _ => rfl, fun _ h => absurd h (Nat.not_lt_zero _),
    fun _ h => absurd h (Nat.not_lt_zero _), fun _ _ _ => rfl⟩

/-- The words that were pushed before lie above, and a copy below leaves them as they are. -/
theorem Pushed.cons {σ₁ : St} {mem : Bytes} (hfirst : PushedWord σ σ₁ w) (hhigh : σ.sp ≤ physBase)
    (hmem : ∀ a < physBase, mem a = σ₁.mem a) (h : Pushed { σ₁ with mem := mem } σ' ws) :
    Pushed σ σ' (w :: ws) := by
  obtain ⟨hsp, hargc, hargv, hword, hframe⟩ := hfirst
  have hargc' : σ'.argc = σ₁.argc + ws.length := h.argc
  have hsp' : σ'.sp + space ws = σ₁.sp := h.sp
  have hkept : ∀ i < σ₁.argc, σ'.argv i = σ₁.argv i := h.kept
  have hrest : ∀ i, σ'.argc ≤ i → σ'.argv i = σ₁.argv i := h.rest
  have hentry : σ'.argv σ.argc = σ₁.sp := by
    rw [hkept _ (by omega), hargv, Function.update_self]
  have hold : ∀ a, σ₁.sp ≤ a → a < physBase → σ'.mem a = σ₁.mem a := fun a ha ha' =>
    (h.frame a ha ha').trans (hmem a ha')
  have hshift : ∀ i, σ.argc + (i + 1) = σ₁.argc + i := fun i => by omega
  refine ⟨?_, ?_, fun i hi => ?_, fun i hi => ?_, fun i hi => ?_, fun i hi => ?_, fun a ha ha' => ?_⟩
  · rw [hargc', hargc, List.length_cons]
    omega
  · rw [space_cons]
    omega
  · rw [hkept i (by omega), hargv, Function.update_of_ne (by omega)]
  · rw [hrest i hi, hargv, Function.update_of_ne (by omega)]
  · cases i with
    | zero =>
        show Text σ'.mem (σ'.argv σ.argc) w
        rw [hentry]
        exact hword.congr fun x hx hx' => hold x hx (by omega)
    | succ i =>
        rw [hshift i]
        exact h.string i (Nat.lt_of_succ_lt_succ hi)
  · rw [List.take_succ_cons, space_cons]
    cases i with
    | zero =>
        rw [Nat.add_zero, hentry, List.take_zero, space_nil]
        omega
    | succ i =>
        have hplace : σ'.argv (σ₁.argc + i) + space (ws.take (i + 1)) = σ₁.sp :=
          h.place i (Nat.lt_of_succ_lt_succ hi)
        rw [hshift i]
        omega
  · exact (hold a (by omega) ha').trans (hframe a ha)

/-- By the words that are left. -/
theorem pushStrings_spec (n : Nat) (hword : Text σ.mem tok w) (hrest : Text σ.mem save l)
    (htok : physBase ≤ tok) (hsave : physBase ≤ save) (hwlen : w.length < pgSize)
    (hlen : l.length < pgSize) (hn : (words isSpace l).length < n) (hhigh : σ.sp ≤ physBase)
    (hroom : physBase - pgSize + space (w :: words isSpace l) ≤ σ.sp) :
    (σ.argc + (words isSpace l).length < argvSize → ∃ σ', pushStrings n σ tok save = .ok σ' ∧
      Pushed σ σ' (w :: words isSpace l)) ∧
        (argvSize ≤ σ.argc + (words isSpace l).length →
          pushStrings n σ tok save = .error .argv) := by
  induction n generalizing σ tok save w l with
  | zero => exact absurd hn (Nat.not_lt_zero _)
  | succ n ih =>
      rw [space_cons] at hroom
      obtain ⟨hpush, hfull⟩ := pushString_spec hword hwlen hhigh (by omega)
      by_cases hargc : σ.argc < argvSize
      · obtain ⟨σ₁, hok, hfirst⟩ := hpush hargc
        have hrest₁ : Text σ₁.mem save l := hrest.congr fun x hx _ => hfirst.frame x (by omega)
        rcases strtokR_spec hrest₁ hlen with ⟨hnone, s, heq⟩ | ⟨tok', mem, s, w', l', heq, htoken⟩
        · rw [hnone]
          exact ⟨fun _ => ⟨_, pushStrings_last hok heq,
              Pushed.cons hfirst hhigh (fun _ _ => rfl) (.nil σ₁)⟩,
            fun hover => absurd hargc (Nat.not_lt_of_le hover)⟩
        · have hwords := htoken.words
          have hsp := hfirst.sp
          have hlow := htoken.low
          have hhigh' := htoken.high
          have hsaveLow := htoken.saveLow
          have hsaveHigh := htoken.saveHigh
          rw [hwords, space_cons] at hroom
          rw [hwords, List.length_cons] at hn
          obtain ⟨hrun, hover⟩ := ih (σ := { σ₁ with mem := mem }) htoken.word htoken.rest
            (Nat.le_trans hsave htoken.low) (Nat.le_trans hsave htoken.saveLow)
            (by omega) (by omega) (by omega)
            (by simp only; omega) (by rw [space_cons]; simp only; omega)
          have hargc₁ := hfirst.argc
          rw [pushStrings_next hok heq, hwords, List.length_cons]
          constructor
          · intro hfit
            obtain ⟨σ', hσ', hpushed⟩ := hrun (by simp only; omega)
            exact ⟨σ', hσ', Pushed.cons hfirst hhigh
              (fun a ha => htoken.frame a (Nat.lt_of_lt_of_le ha hsave)) hpushed⟩
          · intro hmany
            exact hover (by simp only; omega)
      · exact ⟨fun hfit => absurd hfit (by omega), fun _ => pushStrings_full (hfull (by omega))⟩

/-! ## The table -/

/-- The pointer to the table. -/
def argvOf (m : Bytes) (esp : Nat) : Nat := load m (esp + 8) 4

/-- An entry of the table. -/
def arg (m : Bytes) (esp i : Nat) : Nat := load m (argvOf m esp + 4 * i) 4

/-- The stack as a program finds it: a return address at `esp`, then how many words there are and
where the table is. -/
structure Built (ws : List (List UInt8)) (esp : Nat) (m : Bytes) : Prop where
  low : physBase - pgSize ≤ esp
  aligned : esp % 4 = 0
  argc : load m (esp + 4) 4 = ws.length
  tableAligned : argvOf m esp % 4 = 0
  table : esp + 12 ≤ argvOf m esp
  null : arg m esp ws.length = 0
  string : ∀ i (h : i < ws.length), Text m (arg m esp i) ws[i]
  above : ∀ i < ws.length, argvOf m esp + 4 * (ws.length + 1) ≤ arg m esp i
  inside : ∀ i (h : i < ws.length), arg m esp i + (ws[i].length + 1) ≤ physBase
  apart : ∀ i j, i < j → ∀ h : j < ws.length, arg m esp j + (ws[j].length + 1) ≤ arg m esp i

theorem storeWords_other {a x : Nat} {argv : Nat → Nat} (hx : x < a ∨ a + 4 * n ≤ x) :
    storeWords m a argv n x = m x := by
  induction n with
  | zero => rfl
  | succ n ih => exact (store_other (by omega)).trans (ih (by omega))

theorem load_storeWords {a i : Nat} {argv : Nat → Nat} (hargv : ∀ i < n, argv i < 2 ^ 32) (hi : i < n) :
    load (storeWords m a argv n) (a + 4 * i) 4 = argv i := by
  induction n with
  | zero => exact absurd hi (Nat.not_lt_zero i)
  | succ n ih =>
      unfold storeWords
      rcases Nat.lt_succ_iff_lt_or_eq.mp hi with hlt | rfl
      · rw [load_store_other (.inl (by omega))]
        exact ih (fun i hi => hargv i (Nat.lt_succ_of_lt hi)) hlt
      · exact load_store (hargv i hi)

theorem pushWord_ok {a v : Nat} (hlow : physBase - pgSize ≤ a) (hhigh : a + 4 ≤ physBase) :
    pushWord m (a + 4) v = .ok (a, store m a 4 v) := by
  have hstack : onStack a 4 = .ok () := if_pos ⟨hlow, hhigh⟩
  unfold pushWord
  rw [Nat.add_sub_cancel, hstack]
  rfl

/-- The table is put below the words and the three words below the table. -/
theorem pushTable_spec {m₀ : Bytes} (h : Pushed ⟨m₀, physBase, fun _ => 0, 0⟩ σ ws)
    (hcount : ws.length < argvSize) (hspace : space ws ≤ 1024) :
    ∃ esp m', pushTable σ = .ok (esp, m') ∧ Built ws esp m' := by
  have hargc : σ.argc = ws.length := h.argc.trans (Nat.zero_add _)
  have hsp : σ.sp + space ws = physBase := h.sp
  have hplace : ∀ i < ws.length, σ.argv i + space (ws.take (i + 1)) = physBase := fun i hi => by
    have hplace := h.place i hi
    rwa [Nat.zero_add] at hplace
  have hnull : σ.argv ws.length = 0 := h.rest _ (Nat.le_of_eq hargc)
  have hbase : physBase = 3221225472 := rfl
  have hpage : pgSize = 4096 := rfl
  have hcount' : ws.length < 128 := hcount
  obtain ⟨esp, htable⟩ : ∃ esp, σ.sp / 4 * 4 - 4 * (σ.argc + 1) = esp + 4 + 4 + 4 :=
    ⟨σ.sp / 4 * 4 - 4 * (σ.argc + 1) - 12, by omega⟩
  have htop : esp + 12 + 4 * (ws.length + 1) ≤ σ.sp := by omega
  have hlow : physBase - pgSize ≤ esp := by omega
  have hentry : ∀ i < ws.length + 1, σ.argv i < 2 ^ 32 := fun i hi => by
    rcases Nat.lt_succ_iff_lt_or_eq.mp hi with hlt | rfl
    · have hi := hplace i hlt
      omega
    · omega
  obtain ⟨m₁, hm₁⟩ : ∃ m₁, m₁ = storeWords σ.mem (esp + 4 + 4 + 4) σ.argv (ws.length + 1) := ⟨_, rfl⟩
  obtain ⟨m', hm'⟩ : ∃ m', m' = store (store (store m₁ (esp + 4 + 4) 4 (esp + 4 + 4 + 4)) (esp + 4) 4
    ws.length) esp 4 0x314 := ⟨_, rfl⟩
  have hrun : pushTable σ = .ok (esp, m') := by
    have hstack : onStack (esp + 4 + 4 + 4) (4 * (ws.length + 1)) = .ok () := if_pos ⟨by omega, by omega⟩
    unfold pushTable
    rw [htable, hargc]
    simp only [bind, Except.bind, if_neg (Nat.not_lt_of_le (Nat.succ_le_of_lt hcount)), hstack, ← hm₁,
      pushWord_ok (Nat.le_trans hlow (by omega : esp ≤ esp + 4 + 4)) (by omega :
          esp + 4 + 4 + 4 ≤ physBase),
      pushWord_ok (Nat.le_trans hlow (by omega : esp ≤ esp + 4)) (by omega : esp + 4 + 4 ≤ physBase),
      pushWord_ok hlow (by omega : esp + 4 ≤ physBase), hm']
  have hptr : argvOf m' esp = esp + 12 := by
    unfold argvOf
    rw [hm', load_store_other (.inr (by omega)), load_store_other (.inr (by omega))]
    exact load_store (by omega)
  have harg : ∀ i < ws.length + 1, arg m' esp i = σ.argv i := fun i hi => by
    unfold arg
    rw [hptr, hm', load_store_other (.inr (by omega)), load_store_other (.inr (by omega)),
      load_store_other (.inr (by omega)), hm₁]
    exact load_storeWords hentry hi
  have hargw : ∀ i < ws.length, arg m' esp i + space (ws.take (i + 1)) = physBase := fun i hi => by
    rw [harg i (Nat.lt_succ_of_lt hi)]
    exact hplace i hi
  have hkept : ∀ x, σ.sp ≤ x → m' x = σ.mem x := fun x hx => by
    rw [hm', store_other (.inr (by omega)), store_other (.inr (by omega)),
      store_other (.inr (by omega)), hm₁]
    exact storeWords_other (.inr (by omega))
  refine ⟨esp, m', hrun, hlow, by omega, ?_, ?_, ?_, ?_, fun i hi => ?_, fun i hi => ?_, fun i hi => ?_,
    fun i j hij hj => ?_⟩
  · rw [hm', load_store_other (.inr (by omega))]
    exact load_store (by omega)
  · rw [hptr]
    omega
  · exact Nat.le_of_eq hptr.symm
  · rw [harg _ (Nat.lt_succ_self _)]
    exact hnull
  · have hstring := h.string i hi
    rw [Nat.zero_add] at hstring
    have hat := hargw i hi
    have htake := space_take_le ws (i + 1)
    rw [harg i (Nat.lt_succ_of_lt hi)] at hat ⊢
    exact hstring.congr fun x hx _ => hkept x (by omega)
  · have hat := hargw i hi
    have htake := space_take_le ws (i + 1)
    rw [hptr]
    omega
  · have hat := hargw i hi
    rw [space_take_succ hi] at hat
    omega
  · have hat := hargw i (Nat.lt_trans hij hj)
    have hat' := hargw j hj
    have hmono := space_take_mono ws (by omega : i + 1 ≤ j)
    rw [space_take_succ hj] at hat'
    omega

theorem pushTable_full (h : argvSize ≤ σ.argc) : pushTable σ = .error .argv :=
  if_pos (Nat.lt_succ_of_le h)

/-! ## The command line -/

/-- `start_process` on a command line with a word in it. -/
theorem startProcess_spec {load : Bytes → Nat → Bytes} (htext : Text m s l) (hkernel : physBase ≤ s)
    (hlen : l.length ≤ 1023) (hword : words isSpace l ≠ [])
    (hload : ∀ m tok a, s ≤ a → a < s + pgSize → load m tok a = m a) :
    ((words isSpace l).length < argvSize → ∃ esp m', startProcess load m s = .ok (esp, m') ∧
      Built (words isSpace l) esp m') ∧
        (argvSize ≤ (words isSpace l).length → startProcess load m s = .error .argv) := by
  have hlen' : l.length < pgSize := Nat.lt_of_le_of_lt hlen (by decide)
  rcases strtokR_spec htext hlen' with ⟨hnone, -⟩ | ⟨tok, m₁, save, w, l', heq, htoken⟩
  · exact absurd hnone hword
  have hwords := htoken.words
  have hlow := htoken.low
  have hhigh := htoken.high
  have hsaveLow := htoken.saveLow
  have hsaveHigh := htoken.saveHigh
  have hspace := space_words_le isSpace l
  have hcount := length_le_space (words isSpace l)
  have hbase : physBase = 3221225472 := rfl
  have hpage : pgSize = 4096 := rfl
  rw [hwords] at hspace hcount ⊢
  rw [List.length_cons] at hcount
  obtain ⟨hfit, hmany⟩ := pushStrings_spec (σ := ⟨load m₁ tok, physBase, fun _ => 0, 0⟩) pgSize
    (htoken.word.congr fun x _ _ => hload m₁ tok x (by omega) (by omega))
    (htoken.rest.congr fun x _ _ => hload m₁ tok x (by omega) (by omega)) (Nat.le_trans hkernel hlow)
    (Nat.le_trans hkernel hsaveLow) (by omega) (by omega) (by omega) (Nat.le_refl _)
    (by simp only; omega)
  have hrun : startProcess load m s =
      (pushStrings pgSize ⟨load m₁ tok, physBase, fun _ => 0, 0⟩ tok save).bind pushTable := by
    unfold startProcess
    simp only [bind, Except.bind, heq]
  rw [hrun]
  constructor
  · intro hcount
    obtain ⟨σ, hσ, hpushed⟩ := hfit (by simp only; rw [List.length_cons] at hcount; omega)
    obtain ⟨esp, m', htable, hbuilt⟩ := pushTable_spec hpushed hcount (by omega)
    exact ⟨esp, m', by rw [hσ]; exact htable, hbuilt⟩
  · intro hcount
    rcases Nat.lt_or_ge (words isSpace l').length argvSize with hlast | hmore
    · obtain ⟨σ, hσ, hpushed⟩ := hfit (by simp only; omega)
      have hargc : σ.argc = (w :: words isSpace l').length := hpushed.argc.trans (Nat.zero_add _)
      rw [hσ]
      exact pushTable_full (by omega)
    · rw [hmany (by simp only; omega)]
      rfl

/-- Arguments are passed right exactly if there are at most 127 of them. -/
theorem arguments_passed_iff (load : Bytes → Nat → Bytes) (htext : Text m s l) (hkernel : physBase ≤ s)
    (hlen : l.length ≤ 1023) (hword : ∃ c ∈ l, isSpace c = false)
    (hload : ∀ m tok a, s ≤ a → a < s + pgSize → load m tok a = m a) :
    (∃ esp m', startProcess load m s = .ok (esp, m') ∧ Built (words isSpace l) esp m') ↔
      (words isSpace l).length ≤ 127 := by
  obtain ⟨hright, hwrong⟩ := startProcess_spec htext hkernel hlen (words_ne_nil hword) hload
  constructor
  · rintro ⟨esp, m', hrun, -⟩
    by_contra hmany
    rw [hwrong (Nat.lt_of_not_le hmany)] at hrun
    cases hrun
  · intro hfew
    exact hright (Nat.lt_succ_of_le hfew)

/-- A command line in the kernel's memory. -/
theorem text_at (l : List UInt8) (hne : ∀ c ∈ l, c ≠ 0) :
    Text (fun a => l.getD (a - 0xC0100000) 0) 0xC0100000 l :=
  text_of_get (fun _ _ => congrArg (l.getD · 0) (Nat.add_sub_cancel_left ..)) hne

/-- "ls  -a", with two spaces. -/
theorem arguments_passed_two : ∃ m esp m',
    startProcess (fun m _ => m) m 0xC0100000 = .ok (esp, m') ∧ Built [[108, 115], [45, 97]] esp m' := by
  have htext := text_at [108, 115, 32, 32, 45, 97] (by simp)
  obtain ⟨esp, m', hrun, hbuilt⟩ := (arguments_passed_iff (fun m _ => m) htext (by decide)
    (by decide) ⟨108, List.mem_cons_self, rfl⟩ fun _ _ _ _ _ => rfl).mpr (by decide)
  exact ⟨_, esp, m', hrun, hbuilt⟩

/-- So many words of one letter. -/
theorem words_replicate (n : Nat) :
    words isSpace (List.replicate n [97, 32]).flatten = List.replicate n [97] := by
  induction n with
  | zero => rfl
  | succ n ih =>
      rw [List.replicate_succ, List.replicate_succ, List.flatten_cons, ← ih]
      have hletter : ∀ c ∈ [(97 : UInt8)], isSpace c = false := fun c hc => by
        rw [List.mem_singleton.mp hc]
        rfl
      exact words_cons hletter (List.cons_ne_nil _ _) rfl

/-- With 128 words, `argv[128]` is read. -/
theorem arguments_overflow : ∃ m l, Text m 0xC0100000 l ∧ l.length ≤ 1023 ∧
    (words isSpace l).length = 128 ∧ startProcess (fun m _ => m) m 0xC0100000 = .error .argv := by
  have hcount : (words isSpace (List.replicate 128 [97, 32]).flatten).length = 128 := by
    rw [words_replicate, List.length_replicate]
  have hlen : (List.replicate 128 [(97 : UInt8), 32]).flatten.length ≤ 1023 := by
    rw [List.length_flatten, List.map_replicate, List.sum_replicate_nat]
    decide
  have htext := text_at (List.replicate 128 [97, 32]).flatten fun c hc => by
    obtain ⟨w, hw, hc⟩ := List.mem_flatten.mp hc
    have hletters : ∀ c ∈ [(97 : UInt8), 32], c ≠ 0 := by simp
    exact hletters c ((List.mem_replicate.mp hw).2 ▸ hc)
  have hne : words isSpace (List.replicate 128 [97, 32]).flatten ≠ [] := fun h => by
    rw [h] at hcount
    cases hcount
  exact ⟨_, _, htext, hlen, hcount, (startProcess_spec htext (by decide) hlen hne
    fun _ _ _ _ _ => rfl).2 (Nat.le_of_eq hcount.symm)⟩

end Args

end CS162.Userprog
