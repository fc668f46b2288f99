/-
# `CS162.Hw1.Tokenizer` — `tokenizer.c`

The tokenizer of the shell.  A line is the bytes before its NUL.  `token` is the static buffer, with
whatever earlier calls left in it; a read beyond the line or a write beyond the buffer is a `fault`.
The index `i` is an `unsigned int` and the length of the line a `size_t`, so a line of `2 ^ 32` bytes
or more is never left.

On shorter lines the loop computes `lex`, a function of the rest of the line and the word so far
(`tokenize_eq_lex`).  Quoting is then undone piece by piece (`Written.lex`).
-/
import Mathlib.Algebra.Group.Nat.Defs
import Mathlib.Data.List.TakeWhile
import Mathlib.Logic.Function.Basic

namespace CS162.Hw1

/-! ## The model -/

/-- `isspace`. -/
def isspace (c : UInt8) : Bool := c = 32 || 9 ≤ c && c ≤ 13

/-- A single quote. -/
def squote : UInt8 := 39

/-- A double quote. -/
def dquote : UInt8 := 34

/-- A backslash. -/
def backslash : UInt8 := 92

/-- `MODE_NORMAL`, `MODE_SQUOTE` and `MODE_DQUOTE`. -/
inductive Mode where
  | normal
  | squote
  | dquote
deriving DecidableEq

/-- How a call ends, if it does. -/
inductive Outcome where
  | abort
  | fault
  | tokens (words : List (List UInt8))
deriving DecidableEq

/-- The variables of `tokenize`. -/
structure St where
  i : UInt32
  mode : Mode
  token : Nat → UInt8
  n : Nat
  words : List (List UInt8)

/-- `n_max`, the size of the static buffer. -/
def nMax : Nat := 4096

/-- `token[n++] = c`. -/
def put (s : St) (c : UInt8) : Except Outcome St :=
  if s.n < nMax then .ok { s with token := Function.update s.token s.n c, n := s.n + 1 }
  else .error .fault

/-- `line[i]`. -/
def lineAt (line : List UInt8) (i : UInt32) : Except Outcome UInt8 :=
  match (line)[i.toNat]? with
  | some c => .ok c
  | none => .error .fault

/-- A backslash, the same in each mode: `if (i + 1 < line_length) token[n++] = line[++i]`. -/
def escape (line : List UInt8) (s : St) : Except Outcome St :=
  if (s.i + 1).toNat < line.length then do
    let c ← lineAt line (s.i + 1)
    put { s with i := s.i + 1 } c
  else .ok s

/-- `copy_word`: it ends the word in the buffer, and `strncpy` stops at the first NUL. -/
def copyWord (source : Nat → UInt8) (n : Nat) : Except Outcome ((Nat → UInt8) × List UInt8) :=
  if n < nMax then
    let source := Function.update source n 0
    .ok (source, ((List.range (n + 1)).map source).takeWhile (· ≠ 0))
  else .error .fault

/-- `if (n > 0)` push the word. -/
def pushWord (s : St) : Except Outcome St :=
  if 0 < s.n then do
    let (token, word) ← copyWord s.token s.n
    .ok { s with token := token, words := s.words ++ [word], n := 0 }
  else .ok s

/-- The branches of the loop. -/
def branch (line : List UInt8) (s : St) (c : UInt8) : Except Outcome St :=
  match s.mode with
  | .normal =>
      if c = squote then .ok { s with mode := .squote }
      else if c = dquote then .ok { s with mode := .dquote }
      else if c = backslash then escape line s
      else if isspace c then pushWord s
      else put s c
  | .squote =>
      if c = squote then .ok { s with mode := .normal }
      else if c = backslash then escape line s
      else put s c
  | .dquote =>
      if c = dquote then .ok { s with mode := .normal }
      else if c = backslash then escape line s
      else put s c

/-- The body of the loop. -/
def body (line : List UInt8) (s : St) : Except Outcome St := do
  let c ← lineAt line s.i
  let s ← branch line s c
  if nMax ≤ s.n + 1 then .error .abort else .ok { s with i := s.i + 1 }

/-- The loop, for so many rounds; `none` when it goes on. -/
def tokenizeLoop (line : List UInt8) : Nat → St → Option Outcome
  | 0, _ => none
  | rounds + 1, s =>
      if s.i.toNat < line.length then
        match body line s with
        | .ok s => tokenizeLoop line rounds s
        | .error o => some o
      else
        match pushWord s with
        | .ok s => some (.tokens s.words)
        | .error o => some o

/-- `tokenize`. -/
def tokenize (token : Nat → UInt8) (line : List UInt8) (rounds : Nat) : Option Outcome :=
  tokenizeLoop line rounds ⟨0, .normal, token, 0, []⟩

/-- The call ends so. -/
def Ends (token : Nat → UInt8) (line : List UInt8) (o : Outcome) : Prop :=
  ∃ rounds, tokenize token line rounds = some o

/-! ## A function of the rest of the line -/

/-- The mode after a quote, where `c` is one for the mode. -/
def toggle : Mode → UInt8 → Option Mode
  | .normal, c => if c = squote then some .squote else if c = dquote then some .dquote else none
  | .squote, c => if c = squote then some .normal else none
  | .dquote, c => if c = dquote then some .normal else none

/-- A word so far as a list of words. -/
def flush (acc : List UInt8) : List (List UInt8) := if acc = [] then [] else [acc]

/-- The words, for the mode, the word so far and the rest of the line; `none` for an abort. -/
def lex : Mode → List UInt8 → List UInt8 → Option (List (List UInt8))
  | _, acc, [] => some (flush acc)
  | m, acc, c :: rest =>
      match toggle m c with
      | some m => lex m acc rest
      | none =>
          if c = backslash then
            match rest with
            | [] => lex m acc []
            | d :: rest => if nMax ≤ acc.length + 2 then none else lex m (acc ++ [d]) rest
          else if m = .normal ∧ isspace c then
            (flush acc ++ ·) <$> lex m [] rest
          else if nMax ≤ acc.length + 2 then none
          else lex m (acc ++ [c]) rest

section

variable {acc rest : List UInt8} {m m' : Mode} {c d : UInt8}

theorem lex_toggle (h : toggle m c = some m') : lex m acc (c :: rest) = lex m' acc rest := by
  rw [lex.eq_def]
  dsimp only
  rw [h]

theorem lex_escape (h : toggle m backslash = none) : lex m acc (backslash :: d :: rest) =
    if nMax ≤ acc.length + 2 then none else lex m (acc ++ [d]) rest := by
  rw [lex.eq_def]
  dsimp only
  rw [h]
  exact if_pos rfl

/-- A backslash at the end of the line is dropped. -/
theorem lex_escape_nil (h : toggle m backslash = none) : lex m acc [backslash] = lex m acc [] := by
  rw [lex.eq_def]
  dsimp only
  rw [h]
  exact if_pos rfl

theorem lex_space (h : toggle m c = none) (hc : c ≠ backslash) (hspace : m = .normal ∧ isspace c) :
    lex m acc (c :: rest) = (flush acc ++ ·) <$> lex m [] rest := by
  rw [lex.eq_def]
  dsimp only
  rw [h]
  dsimp only
  rw [if_neg hc, if_pos hspace]

/-- A plain character is appended to the word, if there is room for it and the NUL. -/
theorem lex_put (h : toggle m c = none) (hc : c ≠ backslash) (hspace : ¬ (m = .normal ∧ isspace c)) :
    lex m acc (c :: rest) = if nMax ≤ acc.length + 2 then none else lex m (acc ++ [c]) rest := by
  rw [lex.eq_def]
  dsimp only
  rw [h]
  dsimp only
  rw [if_neg hc, if_neg hspace]

end

/-! ## The loop computes it -/

section

variable {line acc rest : List UInt8} {s s' : St} {m m' : Mode} {c d : UInt8}

theorem branch_toggle (h : toggle s.mode c = some m') : branch line s c = .ok { s with mode := m' } := by
  unfold toggle at h
  unfold branch
  cases hm : s.mode <;> rw [hm] at h <;> dsimp only at h ⊢ <;> grind

theorem branch_escape (h : toggle s.mode c = none) (hc : c = backslash) :
    branch line s c = escape line s := by
  unfold toggle at h
  unfold branch
  cases hm : s.mode <;> rw [hm] at h <;> dsimp only at h ⊢ <;> grind

theorem branch_space (h : toggle s.mode c = none) (hc : c ≠ backslash)
    (hspace : s.mode = .normal ∧ isspace c) : branch line s c = pushWord s := by
  unfold toggle at h
  unfold branch
  rw [hspace.1] at h ⊢
  dsimp only at h ⊢
  grind

theorem branch_put (h : toggle s.mode c = none) (hc : c ≠ backslash)
    (hspace : ¬ (s.mode = .normal ∧ isspace c)) : branch line s c = put s c := by
  unfold toggle at h
  unfold branch
  cases hm : s.mode <;> rw [hm] at h hspace <;> dsimp only at h ⊢ <;> grind

/-- The loop is in mode `m`, has `acc` of a word in the buffer, and `rest` is what is left of the line. -/
structure At (line : List UInt8) (s : St) (m : Mode) (acc rest : List UInt8) : Prop where
  left : line.drop s.i.toNat = rest
  mode : s.mode = m
  word : (List.range s.n).map s.token = acc
  clean : 0 ∉ acc
  room : s.n + 1 < nMax

theorem At.length (h : At line s m acc rest) : s.n = acc.length := by
  rw [← h.word, List.length_map, List.length_range]

theorem At.lt (h : At line s m acc (c :: rest)) : s.i.toNat < line.length := by
  by_contra hge
  have hrest := h.left
  rw [List.drop_eq_nil_of_le (Nat.le_of_not_lt hge)] at hrest
  cases hrest

theorem lineAt_drop {i : UInt32} (h : line.drop i.toNat = c :: rest) : lineAt line i = .ok c := by
  have hget : (line)[i.toNat]? = some c := by
    have hdrop : (line.drop i.toNat)[0]? = (line)[i.toNat + 0]? := List.getElem?_drop
    rw [h, Nat.add_zero] at hdrop
    exact hdrop.symm
  unfold lineAt
  rw [hget]

/-- The index goes up by one, as the line is not too long. -/
theorem drop_succ {i : UInt32} (hlen : line.length < 2 ^ 32) (h : line.drop i.toNat = c :: rest) :
    (i + 1).toNat = i.toNat + 1 ∧ line.drop (i + 1).toNat = rest ∧
      (i.toNat + 1 < line.length ↔ rest ≠ []) := by
  have hlt : i.toNat < line.length := by
    by_contra hge
    rw [List.drop_eq_nil_of_le (Nat.le_of_not_lt hge)] at h
    cases h
  have hsucc : (i + 1).toNat = i.toNat + 1 := by
    rw [UInt32.toNat_add]
    exact Nat.mod_eq_of_lt (Nat.lt_of_le_of_lt hlt hlen)
  have hrest : line.drop (i.toNat + 1) = rest := by
    rw [← List.drop_drop, h]
    rfl
  refine ⟨hsucc, hsucc ▸ hrest, ?_⟩
  rw [← hrest, ← List.length_pos_iff, List.length_drop]
  omega

/-- A character is put into the buffer. -/
theorem At.put (h : At line s m acc rest) (c : UInt8) :
    ∃ s', Hw1.put s c = .ok s' ∧ s'.i = s.i ∧ s'.mode = m ∧ s'.words = s.words ∧
      (List.range s'.n).map s'.token = acc ++ [c] ∧ s'.n = acc.length + 1 := by
  have hroom := h.room
  refine ⟨{ s with token := Function.update s.token s.n c, n := s.n + 1 }, if_pos (by omega), rfl, h.mode,
    rfl, ?_, by rw [← h.length]⟩
  dsimp only
  rw [List.range_succ, List.map_append, List.map_singleton, Function.update_self, ← h.word]
  congr 1
  refine List.map_congr_left fun k hk => Function.update_of_ne ?_ _ _
  exact Nat.ne_of_lt (List.mem_range.mp hk)

/-- A word that is pushed is the word so far. -/
theorem At.pushWord (h : At line s m acc rest) :
    ∃ s', Hw1.pushWord s = .ok s' ∧ s'.i = s.i ∧ s'.mode = m ∧ s'.n = 0 ∧
      s'.words = s.words ++ flush acc := by
  unfold Hw1.pushWord flush
  have hlen := h.length
  have hroom := h.room
  by_cases hn : 0 < s.n
  · have hword :
        ((List.range (s.n + 1)).map (Function.update s.token s.n 0)).takeWhile (· ≠ 0) = acc := by
      have hkeep : (List.range s.n).map (Function.update s.token s.n 0) = acc := by
        rw [← h.word]
        refine List.map_congr_left fun k hk => Function.update_of_ne ?_ _ _
        exact Nat.ne_of_lt (List.mem_range.mp hk)
      rw [List.range_succ, List.map_append, hkeep, List.map_singleton, Function.update_self,
        List.takeWhile_append_of_pos, List.takeWhile_cons_of_neg (by simp), List.append_nil]
      intro c hc
      exact decide_eq_true fun hzero => h.clean (hzero ▸ hc)
    have hne : acc ≠ [] := by
      rintro rfl
      rw [List.length_nil] at hlen
      omega
    have hcopy : copyWord s.token s.n = .ok (Function.update s.token s.n 0, acc) := by
      unfold copyWord
      rw [if_pos (by omega)]
      dsimp only
      rw [hword]
    rw [if_pos hn, if_neg hne, hcopy]
    exact ⟨_, rfl, rfl, h.mode, rfl, rfl⟩
  · have hnil : acc = [] := List.eq_nil_of_length_eq_zero (by omega)
    rw [if_neg hn, if_pos hnil]
    exact ⟨s, rfl, rfl, h.mode, by omega, (List.append_nil _).symm⟩

/-- One round, once its branch is known. -/
theorem At.body (h : At line s m acc (c :: rest)) (hb : branch line s c = .ok s') :
    Hw1.body line s = if nMax ≤ s'.n + 1 then .error .abort else .ok { s' with i := s'.i + 1 } := by
  unfold Hw1.body
  rw [lineAt_drop h.left]
  simp only [Bind.bind, Except.bind, hb]

/-- How the call ends, from what `lex` gives. -/
def ending (words : List (List UInt8)) (r : Option (List (List UInt8))) : Outcome :=
  r.elim .abort fun ws => .tokens (words ++ ws)

/-- The next round. -/
theorem At.next {acc' rest' : List UInt8} {k : Nat} (h : At line s m acc (c :: rest))
    (hb : branch line s c = .ok s') (hleft : line.drop (s'.i + 1).toNat = rest') (hmode : s'.mode = m')
    (hword : (List.range s'.n).map s'.token = acc') (hclean : 0 ∉ acc') (hroom : s'.n + 1 < nMax) :
    tokenizeLoop line (k + 1) s = tokenizeLoop line k { s' with i := s'.i + 1 } ∧
      At line { s' with i := s'.i + 1 } m' acc' rest' := by
  refine ⟨?_, hleft, hmode, hword, hclean, hroom⟩
  rw [tokenizeLoop, if_pos h.lt, h.body hb, if_neg (Nat.not_le.mpr hroom)]

/-- The word has become too long. -/
theorem At.abort {k : Nat} (h : At line s m acc (c :: rest)) (hb : branch line s c = .ok s')
    (hfull : nMax ≤ s'.n + 1) : tokenizeLoop line (k + 1) s = some .abort := by
  rw [tokenizeLoop, if_pos h.lt, h.body hb, if_pos hfull]

/-- A character after a backslash is put into the buffer. -/
theorem At.escape (hlen : line.length < 2 ^ 32) (h : At line s m acc (c :: d :: rest)) :
    ∃ s', Hw1.escape line s = .ok s' ∧ line.drop (s'.i + 1).toNat = rest ∧ s'.mode = m ∧
      s'.words = s.words ∧ (List.range s'.n).map s'.token = acc ++ [d] ∧ s'.n = acc.length + 1 := by
  obtain ⟨hsucc, hdrop, hmore⟩ := drop_succ hlen h.left
  have hat : At line { s with i := s.i + 1 } m acc (d :: rest) := ⟨hdrop, h.mode, h.word, h.clean, h.room⟩
  obtain ⟨s', hput, hi, hmode, hwords, hword, hn⟩ := hat.put d
  refine ⟨s', ?_, ?_, hmode, hwords, hword, hn⟩
  · unfold Hw1.escape
    rw [if_pos (hsucc ▸ hmore.mpr (List.cons_ne_nil _ _)), lineAt_drop hdrop]
    exact hput
  · rw [hi]
    exact (drop_succ hlen hdrop).2.1

/-- A character of the line keeps the word free of NUL. -/
theorem At.clean_snoc (h : At line s m acc rest) (hclean : 0 ∉ line) (hd : d ∈ rest) :
    0 ∉ acc ++ [d] := by
  intro hzero
  rcases List.mem_append.mp hzero with hzero | hzero
  · exact h.clean hzero
  · rw [List.mem_singleton.mp hzero] at hclean
    rw [← h.left] at hd
    exact hclean (List.mem_of_mem_drop hd)

/-- On a line that is not too long the loop ends as `lex` says. -/
theorem loop_eq_lex (hlen : line.length < 2 ^ 32) (hclean : 0 ∉ line) {rounds : Nat}
    (h : At line s m acc rest) (hrounds : rest.length < rounds) :
    tokenizeLoop line rounds s = some (ending s.words (lex m acc rest)) := by
  induction m, acc, rest using lex.induct generalizing s rounds with
  | case1 m acc =>
      obtain ⟨k, rfl⟩ := Nat.exists_eq_add_of_lt hrounds
      have hge : ¬ s.i.toNat < line.length := Nat.not_lt.mpr (List.drop_eq_nil_iff.mp h.left)
      obtain ⟨s', hpush, -, -, -, hwords⟩ := h.pushWord
      rw [tokenizeLoop, if_neg hge, hpush, lex]
      dsimp only
      rw [hwords]
      rfl
  | case2 m acc c rest m' htoggle ih =>
      obtain ⟨k, rfl⟩ := Nat.exists_eq_add_of_lt hrounds
      obtain ⟨-, hdrop, -⟩ := drop_succ hlen h.left
      have hb : branch line s c = .ok { s with mode := m' } := branch_toggle (h.mode ▸ htoggle)
      obtain ⟨hloop, hat⟩ := h.next hb hdrop rfl h.word h.clean h.room
      rw [hloop, lex_toggle htoggle]
      exact ih hat (by rw [List.length_cons]; omega)
  | case3 m acc htoggle ih =>
      obtain ⟨k, rfl⟩ := Nat.exists_eq_add_of_lt hrounds
      obtain ⟨hsucc, hdrop, hmore⟩ := drop_succ hlen h.left
      have hlast : ¬ (s.i + 1).toNat < line.length := fun hlt => hmore.mp (hsucc ▸ hlt) rfl
      have hb : branch line s backslash = .ok s :=
        (branch_escape (h.mode ▸ htoggle) rfl).trans (if_neg hlast)
      obtain ⟨hloop, hat⟩ := h.next hb hdrop h.mode h.word h.clean h.room
      rw [hloop, lex_escape_nil htoggle]
      exact ih hat (by rw [List.length_singleton, List.length_nil]; omega)
  | case4 m acc d rest hfull htoggle =>
      obtain ⟨k, rfl⟩ := Nat.exists_eq_add_of_lt hrounds
      obtain ⟨s', hesc, -, -, -, -, hn⟩ := h.escape hlen
      have hb : branch line s backslash = .ok s' := (branch_escape (h.mode ▸ htoggle) rfl).trans hesc
      rw [h.abort hb (by omega), lex_escape htoggle, if_pos hfull]
      rfl
  | case5 m acc d rest hfull htoggle ih =>
      obtain ⟨k, rfl⟩ := Nat.exists_eq_add_of_lt hrounds
      obtain ⟨s', hesc, hdrop, hmode, hwords, hword, hn⟩ := h.escape hlen
      have hb : branch line s backslash = .ok s' := (branch_escape (h.mode ▸ htoggle) rfl).trans hesc
      have hd : d ∈ backslash :: d :: rest := List.mem_cons_of_mem _ List.mem_cons_self
      obtain ⟨hloop, hat⟩ := h.next hb hdrop hmode hword (h.clean_snoc hclean hd) (by omega)
      rw [hloop, lex_escape htoggle, if_neg hfull, ← hwords]
      exact ih hat (by simp only [List.length_cons]; omega)
  | case6 m acc c rest htoggle hc hspace ih =>
      obtain ⟨k, rfl⟩ := Nat.exists_eq_add_of_lt hrounds
      obtain ⟨s', hpush, hi, hmode, hn, hwords⟩ := h.pushWord
      obtain ⟨-, hdrop, -⟩ := drop_succ hlen h.left
      have hb : branch line s c = .ok s' :=
        (branch_space (h.mode ▸ htoggle) hc (h.mode ▸ hspace)).trans hpush
      have hword : (List.range s'.n).map s'.token = [] := by rw [hn]; rfl
      obtain ⟨hloop, hat⟩ := h.next hb (hi ▸ hdrop) hmode hword List.not_mem_nil (by rw [hn]; decide)
      rw [hloop, lex_space htoggle hc hspace, ih hat (by rw [List.length_cons]; omega)]
      dsimp only
      rw [hwords]
      cases lex m [] rest with
      | none => rfl
      | some ws => exact congrArg (fun l => some (Outcome.tokens l)) (List.append_assoc ..)
  | case7 m acc c rest htoggle hc hspace hfull =>
      obtain ⟨k, rfl⟩ := Nat.exists_eq_add_of_lt hrounds
      obtain ⟨s', hput, -, -, -, -, hn⟩ := h.put c
      have hb : branch line s c = .ok s' :=
        (branch_put (h.mode ▸ htoggle) hc (h.mode ▸ hspace)).trans hput
      rw [h.abort hb (by omega), lex_put htoggle hc hspace, if_pos hfull]
      rfl
  | case8 m acc c rest htoggle hc hspace hfull ih =>
      obtain ⟨k, rfl⟩ := Nat.exists_eq_add_of_lt hrounds
      obtain ⟨s', hput, hi, hmode, hwords, hword, hn⟩ := h.put c
      obtain ⟨-, hdrop, -⟩ := drop_succ hlen h.left
      have hb : branch line s c = .ok s' :=
        (branch_put (h.mode ▸ htoggle) hc (h.mode ▸ hspace)).trans hput
      obtain ⟨hloop, hat⟩ := h.next hb (hi ▸ hdrop) hmode hword
        (h.clean_snoc hclean List.mem_cons_self) (by omega)
      rw [hloop, lex_put htoggle hc hspace, if_neg hfull, ← hwords]
      exact ih hat (by rw [List.length_cons]; omega)

/-- A call on a line that is not too long ends as `lex` says, whatever is in the buffer. -/
theorem tokenize_eq_lex (hlen : line.length < 2 ^ 32) (hclean : 0 ∉ line) (token : Nat → UInt8)
    {rounds : Nat}
    (hrounds : line.length < rounds) :
    tokenize token line rounds = some (ending [] (lex .normal [] line)) :=
  loop_eq_lex hlen hclean ⟨rfl, rfl, rfl, List.not_mem_nil, (by decide : 0 + 1 < nMax)⟩ hrounds

theorem put_error {o : Outcome} (h : put s c = .error o) : o = .fault := by
  unfold put at h
  split at h
  · cases h
  · cases h
    rfl

theorem lineAt_error {i : UInt32} {o : Outcome} (h : lineAt line i = .error o) : o = .fault := by
  unfold lineAt at h
  split at h
  · cases h
  · cases h
    rfl

theorem escape_error {o : Outcome} (h : escape line s = .error o) : o = .fault := by
  unfold escape at h
  split at h
  · cases hc : lineAt line (s.i + 1) with
    | ok c =>
        rw [hc] at h
        exact put_error h
    | error o' =>
        rw [hc] at h
        cases h
        exact lineAt_error hc
  · cases h

theorem pushWord_error {o : Outcome} (h : pushWord s = .error o) : o = .fault := by
  unfold pushWord copyWord at h
  split at h
  · split at h
    · cases h
    · cases h
      rfl
  · cases h

theorem branch_error {o : Outcome} (h : branch line s c = .error o) : o = .fault := by
  cases htoggle : toggle s.mode c with
  | some m =>
      rw [branch_toggle htoggle] at h
      cases h
  | none =>
      by_cases hc : c = backslash
      · rw [branch_escape htoggle hc] at h
        exact escape_error h
      · by_cases hspace : s.mode = .normal ∧ isspace c
        · rw [branch_space htoggle hc hspace] at h
          exact pushWord_error h
        · rw [branch_put htoggle hc hspace] at h
          exact put_error h

/-- A round does not end the loop with words. -/
theorem body_error {o : Outcome} (h : body line s = .error o) : o = .abort ∨ o = .fault := by
  unfold body at h
  cases hc : lineAt line s.i with
  | error o' =>
      rw [hc] at h
      cases h
      exact .inr (lineAt_error hc)
  | ok c =>
      rw [hc] at h
      simp only [Bind.bind, Except.bind] at h
      cases hb : branch line s c with
      | error o' =>
          rw [hb] at h
          cases h
          exact .inr (branch_error hb)
      | ok s' =>
          rw [hb] at h
          dsimp only at h
          split at h
          · cases h
            exact .inl rfl
          · cases h

/-- On a longer line the loop never gives words. -/
theorem tokenize_long (hlen : 2 ^ 32 ≤ line.length) (token : Nat → UInt8) (rounds : Nat)
    (ws : List (List UInt8)) : tokenize token line rounds ≠ some (.tokens ws) := by
  unfold tokenize
  generalize (⟨0, .normal, token, 0, []⟩ : St) = s
  induction rounds generalizing s with
  | zero => exact fun h => nomatch h
  | succ k ih =>
      have hlt : s.i.toNat < line.length := s.i.toNat_lt.trans_le hlen
      rw [tokenizeLoop, if_pos hlt]
      cases hb : body line s with
      | ok s' => exact ih s'
      | error o =>
          rintro h
          obtain rfl := Option.some.inj h
          rcases body_error hb with h | h <;> cases h

end

/-! ## Quoting -/

/-- `l` writes `w` with a backslash before every `special` character, and maybe before others. -/
inductive Escaped (special : UInt8 → Bool) : List UInt8 → List UInt8 → Prop
  | nil : Escaped special [] []
  | plain {c : UInt8} {w l : List UInt8} : special c = false → Escaped special w l →
      Escaped special (c :: w) (c :: l)
  | escaped {c : UInt8} {w l : List UInt8} : Escaped special w l →
      Escaped special (c :: w) (backslash :: c :: l)

/-- Written without quotes: every quote, backslash and white-space character is escaped. -/
def plainSpecial (c : UInt8) : Bool := c = squote || c = dquote || c = backslash || isspace c

/-- Between single quotes: every single quote and backslash is escaped. -/
def squoteSpecial (c : UInt8) : Bool := c = squote || c = backslash

/-- Between double quotes: every double quote and backslash is escaped. -/
def dquoteSpecial (c : UInt8) : Bool := c = dquote || c = backslash

/-- The ways to write a word: pieces, one after another. -/
inductive Written : List UInt8 → List UInt8 → Prop
  | nil : Written [] []
  | plain {w l w' l' : List UInt8} : Escaped plainSpecial w l → Written w' l' →
      Written (w ++ w') (l ++ l')
  | squote {w l w' l' : List UInt8} : Escaped squoteSpecial w l → Written w' l' →
      Written (w ++ w') (squote :: l ++ squote :: l')
  | dquote {w l w' l' : List UInt8} : Escaped dquoteSpecial w l → Written w' l' →
      Written (w ++ w') (dquote :: l ++ dquote :: l')

/-- White space. -/
def Blank (l : List UInt8) : Prop := ∀ c ∈ l, isspace c = true

/-- What follows a word: more words, each after some white space. -/
inductive Tail : List (List UInt8) → List UInt8 → Prop
  | stop {sp : List UInt8} : Blank sp → Tail [] sp
  | word {sp w t l : List UInt8} {ws : List (List UInt8)} : Blank sp → sp ≠ [] → Written w t → Tail ws l →
      Tail (w :: ws) (sp ++ (t ++ l))

/-- The ways to write a line of words. -/
inductive Line : List (List UInt8) → List UInt8 → Prop
  | blank {sp : List UInt8} : Blank sp → Line [] sp
  | words {sp w t l : List UInt8} {ws : List (List UInt8)} : Blank sp → Written w t → Tail ws l →
      Line (w :: ws) (sp ++ (t ++ l))

/-- The words that a line can have: not empty, free of NUL and shorter than the buffer. -/
def Words (ws : List (List UInt8)) : Prop := ∀ w ∈ ws, w ≠ [] ∧ 0 ∉ w ∧ w.length ≤ 4094

section

variable {acc rest w l : List UInt8} {ws : List (List UInt8)} {m : Mode} {c : UInt8}
  {special : UInt8 → Bool}

/-- The special characters of a mode. -/
def Covers (m : Mode) (special : UInt8 → Bool) : Prop :=
  ∀ c, special c = false → toggle m c = none ∧ c ≠ backslash ∧ ¬ (m = .normal ∧ isspace c)

theorem toggle_squote : toggle .normal squote = some .squote := rfl

theorem toggle_dquote : toggle .normal dquote = some .dquote := rfl

theorem toggle_squote_end : toggle .squote squote = some .normal := rfl

theorem toggle_dquote_end : toggle .dquote dquote = some .normal := rfl

theorem toggle_backslash (m : Mode) : toggle m backslash = none := by cases m <;> rfl

/-- What was escaped is read as it was before. -/
theorem Escaped.lex (hcov : Covers m special) (h : Escaped special w l)
    (hlen : (acc ++ w).length ≤ 4094) :
    lex m acc (l ++ rest) = Hw1.lex m (acc ++ w) rest := by
  induction h generalizing acc with
  | nil => rw [List.append_nil, List.nil_append]
  | @plain c w l hc _ ih =>
      obtain ⟨htoggle, hne, hspace⟩ := hcov c hc
      have hroom : ¬ nMax ≤ acc.length + 2 := by
        rw [List.length_append, List.length_cons] at hlen
        unfold nMax
        omega
      rw [List.cons_append, lex_put htoggle hne hspace, if_neg hroom,
        ih (by rw [List.append_assoc]; exact hlen), List.append_assoc, List.singleton_append]
  | @escaped c w l _ ih =>
      have hroom : ¬ nMax ≤ acc.length + 2 := by
        rw [List.length_append, List.length_cons] at hlen
        unfold nMax
        omega
      rw [List.cons_append, List.cons_append, lex_escape (toggle_backslash m), if_neg hroom,
        ih (by rw [List.append_assoc]; exact hlen), List.append_assoc, List.singleton_append]

theorem covers_plain : Covers .normal plainSpecial := by
  intro c hc
  simp only [plainSpecial, Bool.or_eq_false_iff, decide_eq_false_iff_not] at hc
  obtain ⟨⟨⟨hsq, hdq⟩, hbs⟩, hsp⟩ := hc
  refine ⟨?_, hbs, fun h => absurd h.2 (by rw [hsp]; exact Bool.false_ne_true)⟩
  rw [toggle, if_neg hsq, if_neg hdq]

theorem covers_squote : Covers .squote squoteSpecial := by
  intro c hc
  simp only [squoteSpecial, Bool.or_eq_false_iff, decide_eq_false_iff_not] at hc
  exact ⟨if_neg hc.1, hc.2, fun h => nomatch h.1⟩

theorem covers_dquote : Covers .dquote dquoteSpecial := by
  intro c hc
  simp only [dquoteSpecial, Bool.or_eq_false_iff, decide_eq_false_iff_not] at hc
  exact ⟨if_neg hc.1, hc.2, fun h => nomatch h.1⟩

/-- A written word is read back, and the mode is the normal one again. -/
theorem Written.lex (h : Written w l) (hlen : (acc ++ w).length ≤ 4094) :
    lex .normal acc (l ++ rest) = Hw1.lex .normal (acc ++ w) rest := by
  induction h generalizing acc with
  | nil => rw [List.append_nil, List.nil_append]
  | @plain w l w' l' hw _ ih =>
      rw [← List.append_assoc, List.length_append] at hlen
      rw [List.append_assoc, hw.lex covers_plain (by omega), ih (by rw [List.length_append]; exact hlen),
        List.append_assoc]
  | @squote w l w' l' hw _ ih =>
      rw [← List.append_assoc, List.length_append] at hlen
      rw [List.cons_append, List.cons_append, List.append_assoc, lex_toggle toggle_squote,
        hw.lex covers_squote (by omega), List.cons_append, lex_toggle toggle_squote_end,
        ih (by rw [List.length_append]; exact hlen), List.append_assoc]
  | @dquote w l w' l' hw _ ih =>
      rw [← List.append_assoc, List.length_append] at hlen
      rw [List.cons_append, List.cons_append, List.append_assoc, lex_toggle toggle_dquote,
        hw.lex covers_dquote (by omega), List.cons_append, lex_toggle toggle_dquote_end,
        ih (by rw [List.length_append]; exact hlen), List.append_assoc]

theorem space_toggle (hc : isspace c = true) : toggle .normal c = none ∧ c ≠ backslash := by
  have hsq : c ≠ squote := by
    rintro rfl
    exact absurd hc (by decide)
  have hdq : c ≠ dquote := by
    rintro rfl
    exact absurd hc (by decide)
  refine ⟨by rw [toggle, if_neg hsq, if_neg hdq], ?_⟩
  rintro rfl
  exact absurd hc (by decide)

/-- White space before a word. -/
theorem Blank.lex_start (h : Blank l) : lex .normal [] (l ++ rest) = lex .normal [] rest := by
  induction l with
  | nil => rfl
  | cons c l ih =>
      have hc := h c List.mem_cons_self
      obtain ⟨htoggle, hne⟩ := space_toggle hc
      rw [List.cons_append, lex_space htoggle hne ⟨rfl, hc⟩,
        ih fun d hd => h d (List.mem_cons_of_mem _ hd)]
      cases lex .normal [] rest <;> rfl

/-- White space after a word. -/
theorem Blank.lex_stop (h : Blank l) (hl : l ≠ []) (hacc : acc ≠ []) :
    lex .normal acc (l ++ rest) = (acc :: ·) <$> lex .normal [] rest := by
  cases l with
  | nil => exact absurd rfl hl
  | cons c l =>
      have hc := h c List.mem_cons_self
      obtain ⟨htoggle, hne⟩ := space_toggle hc
      have hrest : Blank l := fun d hd => h d (List.mem_cons_of_mem _ hd)
      rw [List.cons_append, lex_space htoggle hne ⟨rfl, hc⟩, hrest.lex_start, flush, if_neg hacc]
      rfl

/-- The word that was begun ends where the next one starts,
and those that follow are read again as they were written. -/
theorem Tail.lex (h : Tail ws l) (hws : Words ws) (hacc : acc ≠ []) :
    lex .normal acc l = some (acc :: ws) := by
  induction h generalizing acc with
  | @stop sp hsp =>
      cases sp with
      | nil => rw [Hw1.lex, flush, if_neg hacc]
      | cons c sp =>
          have hstop : Hw1.lex .normal acc (c :: sp ++ []) = (acc :: ·) <$> Hw1.lex .normal [] [] :=
            hsp.lex_stop (List.cons_ne_nil c sp) hacc
          rw [← List.append_nil (c :: sp), hstop]
          rfl
  | @word sp w t l ws hsp hne ht _ ih =>
      obtain ⟨hw, -, hlen⟩ := hws w List.mem_cons_self
      have hlen' : ([] ++ w).length ≤ 4094 := hlen
      rw [hsp.lex_stop hne hacc, ht.lex hlen', List.nil_append,
        ih (fun v hv => hws v (List.mem_cons_of_mem _ hv)) hw]
      rfl

theorem Line.lex (h : Line ws l) (hws : Words ws) : lex .normal [] l = some ws := by
  cases h with
  | blank hsp =>
      have hstart : Hw1.lex .normal [] (l ++ []) = Hw1.lex .normal [] [] := hsp.lex_start
      rw [← List.append_nil l, hstart]
      rfl
  | @words sp w t l ws hsp ht htail =>
      obtain ⟨hw, -, hlen⟩ := hws w List.mem_cons_self
      have hlen' : ([] ++ w).length ≤ 4094 := hlen
      rw [hsp.lex_start, ht.lex hlen', List.nil_append,
        htail.lex (fun v hv => hws v (List.mem_cons_of_mem _ hv)) hw]

/-! ## No NUL comes in -/

theorem Escaped.clean (h : Escaped special w l) (hw : 0 ∉ w) : 0 ∉ l := by
  induction h with
  | nil => exact hw
  | plain _ _ ih =>
      rw [List.mem_cons, not_or] at hw ⊢
      exact ⟨hw.1, ih hw.2⟩
  | escaped _ ih =>
      rw [List.mem_cons, not_or] at hw
      rw [List.mem_cons, List.mem_cons, not_or, not_or]
      exact ⟨by decide, hw.1, ih hw.2⟩

theorem Written.clean (h : Written w l) (hw : 0 ∉ w) : 0 ∉ l := by
  induction h with
  | nil => exact hw
  | plain hpiece _ ih =>
      rw [List.mem_append, not_or] at hw ⊢
      exact ⟨hpiece.clean hw.1, ih hw.2⟩
  | squote hpiece _ ih =>
      rw [List.mem_append, not_or] at hw
      rw [List.mem_append, not_or, List.mem_cons, List.mem_cons, not_or, not_or]
      exact ⟨⟨by decide, hpiece.clean hw.1⟩, by decide, ih hw.2⟩
  | dquote hpiece _ ih =>
      rw [List.mem_append, not_or] at hw
      rw [List.mem_append, not_or, List.mem_cons, List.mem_cons, not_or, not_or]
      exact ⟨⟨by decide, hpiece.clean hw.1⟩, by decide, ih hw.2⟩

theorem Blank.clean (h : Blank l) : 0 ∉ l := fun hzero => absurd (h 0 hzero) (by decide)

theorem Tail.clean (h : Tail ws l) (hws : Words ws) : 0 ∉ l := by
  induction h with
  | stop hsp => exact hsp.clean
  | @word sp w t l ws hsp _ ht _ ih =>
      rw [List.mem_append, List.mem_append, not_or, not_or]
      exact ⟨hsp.clean, ht.clean (hws w List.mem_cons_self).2.1,
        ih fun v hv => hws v (List.mem_cons_of_mem _ hv)⟩

theorem Line.clean (h : Line ws l) (hws : Words ws) : 0 ∉ l := by
  cases h with
  | blank hsp => exact hsp.clean
  | @words sp w t l ws hsp ht htail =>
      rw [List.mem_append, List.mem_append, not_or, not_or]
      exact ⟨hsp.clean, ht.clean (hws w List.mem_cons_self).2.1,
        htail.clean fun v hv => hws v (List.mem_cons_of_mem _ hv)⟩

end

/-- Tokenizing undoes quoting, on lines of fewer than `2 ^ 32` bytes and on no others. -/
theorem tokenize_line_iff (token : Nat → UInt8) {ws : List (List UInt8)} {line : List UInt8}
    (hline : Line ws line) (hws : Words ws) : Ends token line (.tokens ws) ↔ line.length < 2 ^ 32 := by
  constructor
  · rintro ⟨rounds, h⟩
    exact Nat.lt_of_not_le fun hlong => tokenize_long hlong token rounds ws h
  · intro hlen
    refine ⟨line.length + 1, ?_⟩
    rw [tokenize_eq_lex hlen (hline.clean hws) token (Nat.lt_succ_self _), hline.lex hws]
    rfl

/-- The line ` a\ 'b c'"d\""` and, after a tab and a space, `\e`: the words are `a b cd"` and `e`. -/
theorem tokenize_line_iff_quoted : Ends (fun _ => 0)
    [32, 97, 92, 32, 39, 98, 32, 99, 39, 34, 100, 92, 34, 34, 9, 32, 92, 101]
    (.tokens [[97, 32, 98, 32, 99, 100, 34], [101]]) :=
  have hfirst : Written ([97, 32] ++ ([98, 32, 99] ++ ([100, 34] ++ [])))
      ([97, 92, 32] ++ (39 :: [98, 32, 99] ++ 39 :: (34 :: [100, 92, 34] ++ 34 :: []))) :=
    .plain (.plain rfl (.escaped .nil)) (.squote (.plain rfl (.plain rfl (.plain rfl .nil)))
      (.dquote (.plain rfl (.escaped .nil)) .nil))
  have hsecond : Written ([101] ++ []) ([92, 101] ++ []) := .plain (.escaped .nil) .nil
  have hspace : Blank [32] := List.forall_mem_singleton.mpr rfl
  have htab : Blank [9, 32] := List.forall_mem_cons.mpr ⟨rfl, hspace⟩
  have hnone : Blank [] := List.forall_mem_nil _
  have hline : Line [[97, 32, 98, 32, 99, 100, 34], [101]] _ :=
    .words hspace hfirst (.word htab (List.cons_ne_nil _ _) hsecond (.stop hnone))
  (tokenize_line_iff (fun _ => 0) hline (by unfold Words; decide)).mpr (by decide)

/-- A line of `2 ^ 32` spaces has no words, and the loop goes on. -/
theorem tokenize_spaces : ¬ ∀ (token : Nat → UInt8) (ws : List (List UInt8)) (line : List UInt8),
    Line ws line → Words ws → Ends token line (.tokens ws) := by
  intro hall
  have hblank : Blank (List.replicate (2 ^ 32) 32) := by
    intro c hc
    rw [List.eq_of_mem_replicate hc]
    rfl
  obtain ⟨rounds, h⟩ := hall (fun _ => 0) [] _ (.blank hblank) fun _ hw => nomatch hw
  exact tokenize_long (by rw [List.length_replicate]) _ rounds _ h

end CS162.Hw1
