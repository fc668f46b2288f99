/-
# `CS162.Hw1.TokenBuffer` — the tokenizer's buffer

`unquote` takes the quotes and escapes out of a line; a word is what is then between two separators.
The tokenizer aborts where a word would reach 4095 characters (`lex_none_iff`), and so stays in its
buffer.

On a line of `2 ^ 32` bytes or more the index wraps, and the loop reads the first `2 ^ 32` bytes again
and again (`wrapped`): it ends only where a word of that becomes too long (`ends_long`).
-/
import Mathlib.Data.UInt
import CS162.Hw1.Tokenizer

namespace CS162.Hw1

/-! ## Words without quotes and escapes -/

/-- The line without quotes and escapes: the characters of words, and `none` for a separator. -/
def unquote : Mode → List UInt8 → List (Option UInt8)
  | _, [] => []
  | m, c :: rest =>
      match toggle m c with
      | some m => unquote m rest
      | none =>
          if c = backslash then
            match rest with
            | [] => []
            | d :: rest => some d :: unquote m rest
          else if m = .normal ∧ isspace c then none :: unquote m rest
          else some c :: unquote m rest

/-- Some word would reach 4095 characters. -/
def Overlong (line : List UInt8) : Prop :=
  ∃ w ∈ (unquote .normal line).splitOn none, 4095 ≤ w.length

section

variable {acc rest : List UInt8} {m m' : Mode} {c d : UInt8} {ws : List (List UInt8)}

theorem unquote_toggle (h : toggle m c = some m') : unquote m (c :: rest) = unquote m' rest := by
  rw [unquote.eq_def]
  dsimp only
  rw [h]

theorem unquote_escape (h : toggle m backslash = none) :
    unquote m (backslash :: d :: rest) = some d :: unquote m rest := by
  rw [unquote.eq_def]
  dsimp only
  rw [h]
  exact if_pos rfl

theorem unquote_escape_nil (h : toggle m backslash = none) : unquote m [backslash] = [] := by
  rw [unquote.eq_def]
  dsimp only
  rw [h]
  exact if_pos rfl

theorem unquote_space (h : toggle m c = none) (hc : c ≠ backslash) (hspace : m = .normal ∧ isspace c) :
    unquote m (c :: rest) = none :: unquote m rest := by
  rw [unquote.eq_def]
  dsimp only
  rw [h]
  dsimp only
  rw [if_neg hc, if_pos hspace]

theorem unquote_put (h : toggle m c = none) (hc : c ≠ backslash)
    (hspace : ¬ (m = .normal ∧ isspace c)) : unquote m (c :: rest) = some c :: unquote m rest := by
  rw [unquote.eq_def]
  dsimp only
  rw [h]
  dsimp only
  rw [if_neg hc, if_neg hspace]

/-- The words, the first of them with `acc` before it. -/
def runs (acc : List UInt8) (u : List (Option UInt8)) : List (List (Option UInt8)) :=
  (u.splitOn none).modifyHead (acc.map some ++ ·)

theorem runs_nil (u : List (Option UInt8)) : runs [] u = u.splitOn none := by
  unfold runs
  cases u.splitOn none with
  | nil => rfl
  | cons w ws => rfl

theorem runs_some (acc : List UInt8) (c : UInt8) (u : List (Option UInt8)) :
    runs acc (some c :: u) = runs (acc ++ [c]) u := by
  unfold runs
  rw [List.splitOn_cons_eq_if_modifyHead, if_neg (by simp), List.modifyHead_modifyHead]
  congr 1
  funext w
  simp

theorem runs_none (acc : List UInt8) (u : List (Option UInt8)) :
    runs acc (none :: u) = acc.map some :: runs [] u := by
  rw [runs_nil]
  unfold runs
  rw [List.splitOn_cons_eq_if_modifyHead, if_pos (by decide)]
  simp

/-- The first word has `acc` in it. -/
theorem exists_long_run (hacc : 4095 ≤ acc.length) (u : List (Option UInt8)) :
    ∃ w ∈ runs acc u, 4095 ≤ w.length := by
  unfold runs
  cases hu : u.splitOn none with
  | nil => exact absurd hu (List.splitOnP_ne_nil _ _)
  | cons w ws =>
      refine ⟨acc.map some ++ w, List.mem_cons_self .., ?_⟩
      rw [List.length_append, List.length_map]
      omega

/-- A line that is at its end. -/
theorem no_long_run (hacc : acc.length ≤ 4094) : ¬ ∃ w ∈ runs acc [], 4095 ≤ w.length := by
  rintro ⟨w, hw, hlong⟩
  have hnil : runs acc [] = [acc.map some] := by simp [runs]
  rw [hnil] at hw
  rw [List.mem_singleton.mp hw, List.length_map] at hlong
  omega

/-- `lex` gives up exactly where a word would reach 4095 characters. -/
theorem lex_none_iff (hacc : acc.length ≤ 4094) :
    lex m acc rest = none ↔ ∃ w ∈ runs acc (unquote m rest), 4095 ≤ w.length := by
  induction m, acc, rest using lex.induct with
  | case1 m acc =>
      rw [lex, unquote]
      exact iff_of_false (Option.some_ne_none _) (no_long_run hacc)
  | case2 m acc c rest m' htoggle ih =>
      rw [lex_toggle htoggle, unquote_toggle htoggle]
      exact ih hacc
  | case3 m acc htoggle ih =>
      rw [lex_escape_nil htoggle, unquote_escape_nil htoggle]
      exact ih hacc
  | case4 m acc d rest hfull htoggle =>
      rw [lex_escape htoggle, if_pos hfull, unquote_escape htoggle, runs_some]
      refine iff_of_true rfl (exists_long_run ?_ _)
      rw [List.length_append, List.length_singleton]
      exact Nat.le_of_succ_le_succ hfull
  | case5 m acc d rest hfull htoggle ih =>
      rw [lex_escape htoggle, if_neg hfull, unquote_escape htoggle, runs_some]
      refine ih ?_
      rw [List.length_append, List.length_singleton]
      unfold nMax at hfull
      omega
  | case6 m acc c rest htoggle hc hspace ih =>
      rw [lex_space htoggle hc hspace, unquote_space htoggle hc hspace, runs_none]
      have hih := ih (Nat.zero_le _)
      simp only [List.mem_cons, exists_eq_or_imp, List.length_map]
      rw [← hih, or_iff_right (by omega)]
      exact Option.map_eq_none_iff
  | case7 m acc c rest htoggle hc hspace hfull =>
      rw [lex_put htoggle hc hspace, if_pos hfull, unquote_put htoggle hc hspace, runs_some]
      refine iff_of_true rfl (exists_long_run ?_ _)
      rw [List.length_append, List.length_singleton]
      exact Nat.le_of_succ_le_succ hfull
  | case8 m acc c rest htoggle hc hspace hfull ih =>
      rw [lex_put htoggle hc hspace, if_neg hfull, unquote_put htoggle hc hspace, runs_some]
      refine ih ?_
      rw [List.length_append, List.length_singleton]
      unfold nMax at hfull
      omega

theorem lex_none_iff_overlong (line : List UInt8) : lex .normal [] line = none ↔ Overlong line := by
  unfold Overlong
  rw [← runs_nil]
  exact lex_none_iff (Nat.zero_le _)

/-- A word so far is not empty, where there is one. -/
theorem flush_nonempty {w : List UInt8} (h : w ∈ flush acc) : w ≠ [] := by
  unfold flush at h
  split at h
  · cases h
  · next hne => exact List.mem_singleton.mp h ▸ hne

/-- No word is empty. -/
theorem lex_nonempty (h : lex m acc rest = some ws) {w : List UInt8} (hw : w ∈ ws) : w ≠ [] := by
  induction m, acc, rest using lex.induct generalizing ws with
  | case1 m acc =>
      rw [lex] at h
      exact flush_nonempty (Option.some.inj h ▸ hw)
  | case2 m acc c rest m' htoggle ih => exact ih (lex_toggle htoggle ▸ h) hw
  | case3 m acc htoggle ih => exact ih (lex_escape_nil htoggle ▸ h) hw
  | case4 m acc d rest hfull htoggle =>
      rw [lex_escape htoggle, if_pos hfull] at h
      cases h
  | case5 m acc d rest hfull htoggle ih =>
      rw [lex_escape htoggle, if_neg hfull] at h
      exact ih h hw
  | case6 m acc c rest htoggle hc hspace ih =>
      rw [lex_space htoggle hc hspace] at h
      obtain ⟨ws', hws', rfl⟩ := Option.map_eq_some_iff.mp h
      rcases List.mem_append.mp hw with hw | hw
      · exact flush_nonempty hw
      · exact ih hws' hw
  | case7 m acc c rest htoggle hc hspace hfull =>
      rw [lex_put htoggle hc hspace, if_pos hfull] at h
      cases h
  | case8 m acc c rest htoggle hc hspace hfull ih =>
      rw [lex_put htoggle hc hspace, if_neg hfull] at h
      exact ih h hw

end

/-! ## Lines that are not too long -/

section

variable {token : Nat → UInt8} {line : List UInt8} {o o' : Outcome} {s : St}

/-- More fuel does not change the outcome. -/
theorem tokenizeLoop_more {k : Nat} (j : Nat) (h : tokenizeLoop line k s = some o) :
    tokenizeLoop line (k + j) s = some o := by
  induction k generalizing s with
  | zero => cases h
  | succ k ih =>
      rw [Nat.succ_add, tokenizeLoop]
      rw [tokenizeLoop] at h
      split at h
      · next hlt =>
        rw [if_pos hlt]
        split at h
        · exact ih h
        · exact h
      · next hge =>
        rw [if_neg hge]
        exact h

/-- A call ends in one way. -/
theorem Ends.unique (h : Ends token line o) (h' : Ends token line o') : o = o' := by
  obtain ⟨k, hk⟩ := h
  obtain ⟨j, hj⟩ := h'
  have hk' := tokenizeLoop_more j hk
  have hj' := tokenizeLoop_more k hj
  rw [Nat.add_comm] at hj'
  exact Option.some.inj (hk'.symm.trans hj')

theorem ends_short (hlen : line.length < 2 ^ 32) (hclean : 0 ∉ line) :
    Ends token line o ↔ o = ending [] (lex .normal [] line) := by
  have hends : Ends token line (ending [] (lex .normal [] line)) :=
    ⟨_, tokenize_eq_lex hlen hclean token (Nat.lt_succ_self _)⟩
  constructor
  · exact fun h => h.unique hends
  · rintro rfl
    exact hends

end

/-! ## Lines that are too long -/

/-- What the loop reads next, from index `i` on: the index wraps. -/
def ahead (line : List UInt8) (i : UInt32) : Nat → List UInt8
  | 0 => []
  | len + 1 => line.getD i.toNat 0 :: ahead line (i + 1) len

/-- The first `2 ^ 32` bytes of a line, again and again. -/
def wrapped (line : List UInt8) (len : Nat) : List UInt8 :=
  (List.range len).map fun k => line.getD (k % 2 ^ 32) 0

section

variable {token : Nat → UInt8} {line acc : List UInt8} {o : Outcome} {s s' : St} {m m' : Mode} {c : UInt8}

theorem ahead_eq_map (line : List UInt8) (i : UInt32) (len : Nat) :
    ahead line i len = (List.range len).map fun k => line.getD (i + UInt32.ofNat k).toNat 0 := by
  induction len generalizing i with
  | zero => rfl
  | succ len ih =>
      rw [ahead, ih, List.range_succ_eq_map, List.map_cons, List.map_map]
      congr 1
      · simp
      · refine List.map_congr_left fun k _ => ?_
        have hk : i + 1 + UInt32.ofNat k = i + UInt32.ofNat (k + 1) := by
          rw [UInt32.add_assoc, UInt32.ofNat_add, UInt32.add_comm 1]
          rfl
        rw [hk]
        rfl

theorem ahead_zero (line : List UInt8) (len : Nat) : ahead line 0 len = wrapped line len := by
  rw [ahead_eq_map, wrapped]
  refine List.map_congr_left fun k _ => ?_
  rw [UInt32.zero_add, UInt32.toNat_ofNat']

/-- There is always a byte to read. -/
theorem drop_long (hlen : 2 ^ 32 ≤ line.length) (i : UInt32) :
    ∃ rest, line.drop i.toNat = line.getD i.toNat 0 :: rest := by
  have hlt : i.toNat < line.length := i.toNat_lt.trans_le hlen
  refine ⟨line.drop (i.toNat + 1), ?_⟩
  rw [List.drop_eq_getElem_cons hlt, List.getD_eq_getElem?_getD, List.getElem?_eq_getElem hlt]
  rfl

theorem getD_clean (hlen : 2 ^ 32 ≤ line.length) (hclean : 0 ∉ line) (i : UInt32) :
    0 ∉ acc → 0 ∉ acc ++ [line.getD i.toNat 0] := by
  obtain ⟨rest, hrest⟩ := drop_long hlen i
  have hmem : line.getD i.toNat 0 ∈ line := List.mem_of_mem_drop (hrest ▸ List.mem_cons_self)
  intro hacc hzero
  rcases List.mem_append.mp hzero with hzero | hzero
  · exact hacc hzero
  · exact hclean (List.mem_singleton.mp hzero ▸ hmem)

/-- One round on such a line, and what `lex` does with what is ahead: either both give up, or both go
on, one or two bytes further. -/
inductive Round (line : List UInt8) (s : St) (m : Mode) (acc : List UInt8) : Prop where
  | abort : (∀ k, tokenizeLoop line (k + 1) s = some .abort) →
      (∀ len, lex m acc (ahead line s.i (len + 2)) = none) → Round line s m acc
  | next {s' : St} {m' : Mode} {acc' : List UInt8} (used : Nat) : used = 1 ∨ used = 2 →
      (∀ k, tokenizeLoop line (k + 1) s = tokenizeLoop line k s') →
      At line s' m' acc' (line.drop s'.i.toNat) →
      (∀ len, len < used → lex m acc (ahead line s.i len) ≠ none) →
      (∀ len, lex m acc (ahead line s.i (len + used)) = none ↔
        lex m' acc' (ahead line s'.i len) = none) → Round line s m acc

theorem lex_nil_ne (m : Mode) (acc : List UInt8) : lex m acc [] ≠ none := by
  rw [lex]
  exact Option.some_ne_none _

/-- A character goes into the buffer. -/
theorem At.round_put {rest : List UInt8} {d : UInt8} {used : Nat} (h : At line s m acc (c :: rest))
    (hb : branch line s c = .ok s') (hmode : s'.mode = m)
    (hword : (List.range s'.n).map s'.token = acc ++ [d]) (hn : s'.n = acc.length + 1)
    (hclean : 0 ∉ acc ++ [d]) (hused : used = 1 ∨ used = 2)
    (hless : ∀ len, len < used → lex m acc (ahead line s.i len) ≠ none)
    (hlex : ∀ len, lex m acc (ahead line s.i (len + used)) =
      if nMax ≤ acc.length + 2 then none else lex m (acc ++ [d]) (ahead line (s'.i + 1) len)) :
    Round line s m acc := by
  by_cases hfull : nMax ≤ acc.length + 2
  · refine .abort (fun k => h.abort hb (by omega)) fun len => ?_
    have hsplit : len + 2 = (len + 2 - used) + used := by omega
    rw [hsplit, hlex, if_pos hfull]
  · refine .next used hused (fun k => (h.next hb rfl hmode hword hclean (by omega)).1)
      (h.next (k := 0) hb rfl hmode hword hclean (by omega)).2 hless fun len => ?_
    rw [hlex, if_neg hfull]

/-- On a line of 2^32 characters or more every round is of one of these two kinds. -/
theorem At.round (hlen : 2 ^ 32 ≤ line.length) (hclean : 0 ∉ line)
    (h : At line s m acc (line.drop s.i.toNat)) : Round line s m acc := by
  obtain ⟨rest, hrest⟩ := drop_long hlen s.i
  rw [hrest] at h
  have hstep : ∀ len, ahead line s.i (len + 1) = line.getD s.i.toNat 0 :: ahead line (s.i + 1) len :=
    fun _ => rfl
  generalize line.getD s.i.toNat 0 = c at h hstep hrest
  have hless : ∀ len, len < 1 → lex m acc (ahead line s.i len) ≠ none := by
    intro len hlt
    rw [Nat.lt_one_iff.mp hlt]
    exact lex_nil_ne m acc
  cases htoggle : toggle m c with
  | some m' =>
      have hb : branch line s c = .ok { s with mode := m' } := branch_toggle (h.mode ▸ htoggle)
      refine .next 1 (.inl rfl) (fun k => (h.next hb rfl rfl h.word h.clean h.room).1)
        (h.next (k := 0) hb rfl rfl h.word h.clean h.room).2 hless fun len => ?_
      rw [hstep, lex_toggle htoggle]
  | none =>
      by_cases hc : c = backslash
      · subst hc
        obtain ⟨rest', hrest'⟩ := drop_long hlen (s.i + 1)
        have hat : At line { s with i := s.i + 1 } m acc (line.drop (s.i + 1).toNat) :=
          ⟨rfl, h.mode, h.word, h.clean, h.room⟩
        obtain ⟨s', hput, hi, hmode, -, hword, hn⟩ := hat.put (line.getD (s.i + 1).toNat 0)
        have hb : branch line s backslash = .ok s' := by
          rw [branch_escape (h.mode ▸ htoggle) rfl, Hw1.escape, if_pos ((s.i + 1).toNat_lt.trans_le hlen),
            lineAt_drop hrest']
          exact hput
        have hclean' := getD_clean hlen hclean (s.i + 1) h.clean
        refine h.round_put hb hmode hword hn hclean' (.inr rfl) ?_ fun len => ?_
        · intro len hlt
          have hcases : len = 0 ∨ len = 1 := by omega
          rcases hcases with rfl | rfl
          · exact lex_nil_ne m acc
          · rw [hstep 0, ahead, lex_escape_nil htoggle]
            exact lex_nil_ne m acc
        · rw [hstep (len + 1), ahead, lex_escape htoggle, hi]
      · by_cases hspace : m = .normal ∧ isspace c
        · obtain ⟨s', hpush, hi, hmode, hn, -⟩ := h.pushWord
          have hb : branch line s c = .ok s' :=
            (branch_space (h.mode ▸ htoggle) hc (h.mode ▸ hspace)).trans hpush
          have hword : (List.range s'.n).map s'.token = [] := by rw [hn]; rfl
          have hroom : s'.n + 1 < nMax := by rw [hn]; decide
          refine .next 1 (.inl rfl) (fun k => (h.next hb rfl hmode hword List.not_mem_nil hroom).1)
            (h.next (k := 0) hb rfl hmode hword List.not_mem_nil hroom).2 hless fun len => ?_
          rw [hstep, lex_space htoggle hc hspace, hi]
          exact Option.map_eq_none_iff
        · obtain ⟨s', hput, hi, hmode, -, hword, hn⟩ := h.put c
          have hb : branch line s c = .ok s' :=
            (branch_put (h.mode ▸ htoggle) hc (h.mode ▸ hspace)).trans hput
          have hclean' : 0 ∉ acc ++ [c] := h.clean_snoc hclean List.mem_cons_self
          refine h.round_put hb hmode hword hn hclean' (.inl rfl) hless fun len => ?_
          rw [hstep, lex_put htoggle hc hspace, hi]

/-- The loop aborts where `lex` does. -/
theorem loop_abort (hlen : 2 ^ 32 ≤ line.length) (hclean : 0 ∉ line) :
    ∀ {len : Nat} {s : St} {m : Mode} {acc : List UInt8}, At line s m acc (line.drop s.i.toNat) →
      lex m acc (ahead line s.i len) = none → ∃ k, tokenizeLoop line k s = some .abort := by
  intro len
  induction len using Nat.strongRecOn with
  | ind len ih =>
      intro s m acc h hlex
      cases h.round hlen hclean with
      | abort hloop _ => exact ⟨1, hloop 0⟩
      | next used hused hloop hat hless hiff =>
          have hle : used ≤ len := by
            by_contra hlt
            exact hless len (Nat.lt_of_not_le hlt) hlex
          obtain ⟨rest, rfl⟩ := Nat.exists_eq_add_of_le' hle
          obtain ⟨k, hk⟩ := ih rest (by omega) hat ((hiff rest).mp hlex)
          exact ⟨k + 1, (hloop k).trans hk⟩

/-- It goes on where `lex` does. -/
theorem loop_goes_on (hlen : 2 ^ 32 ≤ line.length) (hclean : 0 ∉ line) :
    ∀ (k : Nat) {s : St} {m : Mode} {acc : List UInt8}, At line s m acc (line.drop s.i.toNat) →
      (∀ len, lex m acc (ahead line s.i len) ≠ none) → tokenizeLoop line k s = none := by
  intro k
  induction k with
  | zero => exact fun _ _ => rfl
  | succ k ih =>
      intro s m acc h hlex
      cases h.round hlen hclean with
      | abort _ hnone => exact absurd (hnone 0) (hlex _)
      | next used _ hloop hat _ hiff =>
          rw [hloop]
          exact ih hat fun len hnone => hlex _ ((hiff len).mpr hnone)

/-- On a line that is too long a call can only abort. -/
theorem ends_long (hlen : 2 ^ 32 ≤ line.length) (hclean : 0 ∉ line) :
    Ends token line o ↔ o = .abort ∧ ∃ len, Overlong (wrapped line len) := by
  have hstart : At line ⟨0, .normal, token, 0, []⟩ .normal [] (line.drop (0 : UInt32).toNat) :=
    ⟨rfl, rfl, rfl, List.not_mem_nil, (by decide : 0 + 1 < nMax)⟩
  have hover : ∀ len, Overlong (wrapped line len) ↔ lex .normal [] (ahead line 0 len) = none := by
    intro len
    rw [ahead_zero, lex_none_iff_overlong]
  have habort : (∃ len, Overlong (wrapped line len)) → Ends token line .abort := by
    rintro ⟨len, hl⟩
    exact loop_abort hlen hclean hstart ((hover len).mp hl)
  constructor
  · intro h
    by_cases hex : ∃ len, Overlong (wrapped line len)
    · exact ⟨h.unique (habort hex), hex⟩
    · obtain ⟨k, hk⟩ := h
      have hnone : tokenize token line k = none :=
        loop_goes_on hlen hclean k hstart fun len hl => hex ⟨len, (hover len).mpr hl⟩
      cases hnone.symm.trans hk
  · rintro ⟨rfl, hex⟩
    exact habort hex

end

/-! ## Safety -/

/-- What the tokenizer is to do with a line, whatever earlier calls left in its buffer. -/
structure Safe (token : Nat → UInt8) (line : List UInt8) : Prop where
  ends : Ends token line .abort ∨ ∃ ws, Ends token line (.tokens ws)
  inside : ¬ Ends token line .fault
  aborts : Ends token line .abort ↔ Overlong line
  nonempty : ∀ ws, Ends token line (.tokens ws) → ∀ w ∈ ws, w ≠ []

/-- The tokenizer is safe on the lines that are not too long, and on the others that it aborts for a
word that is there. -/
theorem tokenize_safe_iff (token : Nat → UInt8) {line : List UInt8} (hclean : 0 ∉ line) :
    Safe token line ↔
      line.length < 2 ^ 32 ∨ Overlong line ∧ ∃ len, Overlong (wrapped line len) := by
  by_cases hlen : line.length < 2 ^ 32
  · refine iff_of_true ?_ (.inl hlen)
    have hends : ∀ o, Ends token line o ↔ o = ending [] (lex .normal [] line) :=
      fun _ => ends_short hlen hclean
    cases hl : lex .normal [] line with
    | none =>
        have hover := (lex_none_iff_overlong line).mp hl
        rw [hl] at hends
        have habort := (hends .abort).mpr rfl
        refine ⟨.inl habort, fun h => ?_, iff_of_true habort hover, fun ws h => ?_⟩
        · cases (hends _).mp h
        · cases (hends _).mp h
    | some ws =>
        have hover : ¬ Overlong line := by
          rw [← lex_none_iff_overlong, hl]
          exact Option.some_ne_none _
        rw [hl] at hends
        refine ⟨.inr ⟨ws, (hends _).mpr rfl⟩, fun h => ?_, iff_of_false (fun h => ?_) hover,
          fun ws' h => ?_⟩
        · cases (hends _).mp h
        · cases (hends _).mp h
        · cases (hends _).mp h
          exact fun w hw => lex_nonempty hl hw
  · have hends : ∀ o, Ends token line o ↔ o = .abort ∧ ∃ len, Overlong (wrapped line len) :=
      fun _ => ends_long (Nat.le_of_not_lt hlen) hclean
    rw [or_iff_right hlen]
    constructor
    · intro h
      rcases h.ends with habort | ⟨ws, hws⟩
      · exact ⟨h.aborts.mp habort, ((hends _).mp habort).2⟩
      · cases ((hends _).mp hws).1
    · rintro ⟨hover, hex⟩
      have habort := (hends .abort).mpr ⟨rfl, hex⟩
      refine ⟨.inl habort, fun h => ?_, iff_of_true habort hover, fun ws h => ?_⟩
      · cases ((hends _).mp h).1
      · cases ((hends _).mp h).1

/-- A line that is one word and has nothing to escape. -/
theorem overlong_word {w : List UInt8} (hw : ∀ c ∈ w, plainSpecial c = false) :
    Overlong w ↔ 4095 ≤ w.length := by
  have hunquote : ∀ l : List UInt8, (∀ c ∈ l, plainSpecial c = false) →
      unquote .normal l = l.map some := by
    intro l hl
    induction l with
    | nil => rfl
    | cons c l ih =>
        obtain ⟨htoggle, hne, hspace⟩ := covers_plain c (hl c List.mem_cons_self)
        rw [unquote_put htoggle hne hspace, ih fun d hd => hl d (List.mem_cons_of_mem _ hd),
          List.map_cons]
  have hsplit : (w.map some).splitOn none = [w.map some] :=
    List.splitOnP_eq_singleton fun x hx => by
      obtain ⟨c, -, rfl⟩ := List.mem_map.mp hx
      rfl
  unfold Overlong
  rw [hunquote w hw, hsplit]
  simp

/-- A word of 4094 characters is tokenized, and at one of 4095 the call aborts. -/
theorem tokenize_safe_full :
    (Safe (fun _ => 0) (List.replicate 4094 97) ∧
      ∃ ws, Ends (fun _ => 0) (List.replicate 4094 97) (.tokens ws)) ∧
    Safe (fun _ => 0) (List.replicate 4095 97) ∧ Ends (fun _ => 0) (List.replicate 4095 97) .abort := by
  have hover : ∀ k, Overlong (List.replicate k 97) ↔ 4095 ≤ k := by
    intro k
    rw [overlong_word, List.length_replicate]
    intro c hc
    rw [List.eq_of_mem_replicate hc]
    rfl
  have hsafe : ∀ k < 2 ^ 32, Safe (fun _ => 0) (List.replicate k 97) := by
    intro k hk
    have hclean : (0 : UInt8) ∉ List.replicate k 97 := by
      intro hc
      exact absurd (List.eq_of_mem_replicate hc) (by decide)
    exact (tokenize_safe_iff (fun _ => 0) hclean).mpr (.inl (by rwa [List.length_replicate]))
  have hfull := hsafe 4094 (by decide)
  have hlong := hsafe 4095 (by decide)
  refine ⟨⟨hfull, hfull.ends.resolve_left ?_⟩, hlong, hlong.aborts.mpr ((hover _).mpr le_rfl)⟩
  rw [hfull.aborts, hover]
  decide

/-- On a line of `2 ^ 32` spaces the tokenizer neither aborts nor returns. -/
theorem tokenize_unsafe : ¬ ∀ (token : Nat → UInt8) (line : List UInt8), 0 ∉ line → Safe token line := by
  intro hall
  have hblank : Blank (List.replicate (2 ^ 32) 32) := by
    intro c hc
    rw [List.eq_of_mem_replicate hc]
    rfl
  have hlen : 2 ^ 32 ≤ (List.replicate (2 ^ 32) (32 : UInt8)).length := List.length_replicate.ge
  have hsafe := hall (fun _ => 0) _ hblank.clean
  rcases hsafe.ends with habort | ⟨ws, k, hk⟩
  · have hlex := (lex_none_iff_overlong _).mpr (hsafe.aborts.mp habort)
    have hwords : lex .normal [] (List.replicate (2 ^ 32) 32) = some [] :=
      (Line.blank hblank).lex fun _ hw => nomatch hw
    cases hwords.symm.trans hlex
  · exact tokenize_long hlen _ k ws hk

end CS162.Hw1
