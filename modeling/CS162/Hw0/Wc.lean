/-
# `CS162.Hw0.Wc` — `wc.c`

The two scanners count in `int`s that wrap, and treat the end of input as one more character, -1.
It is no white space, so both are inside a word when they end, and both count one: `count_file`
has counted the words before and is right only when the input ends in a word, `count_stdin` has
started from -1 and is right only when it does not.  `count_stdin` keeps its character in a
`char`, so the byte 255 ends it.
-/
import Mathlib.Data.List.TakeWhile
import CS162.Lib.Words

namespace CS162.Hw0

open Words

/-! ## The model -/

/-- `struct counter`. -/
structure Counter where
  lines : Int32
  words : Int32
  characters : Int32
deriving DecidableEq

/-- The variables of a scanner. -/
structure Scan where
  out : Counter
  wordBool : Bool

/-- `EOF`. -/
def eof : Int := -1

/-- The body of both loops, which differ in what ends a word. -/
def scanChar (space : Int → Bool) (s : Scan) (tempChar : Int) : Scan :=
  let out := { s.out with characters := s.out.characters + 1 }
  let out := if tempChar = 10 then { out with lines := out.lines + 1 } else out
  if s.wordBool ∧ space tempChar then ⟨{ out with words := out.words + 1 }, false⟩
  else if ¬ s.wordBool ∧ ¬ space tempChar then ⟨out, true⟩
  else ⟨out, s.wordBool⟩

/-- After both loops. -/
def finish (s : Scan) : Counter :=
  if s.wordBool then { s.out with words := s.out.words + 1 } else s.out

/-- What ends a word for `count_file`. -/
def fileSpace (c : Int) : Bool := c = 32 || c = 10 || c = 9

/-- What ends a word for `count_stdin`. -/
def stdinSpace (c : Int) : Bool := c = 32 || c = 10 || c = 9 || c = 13 || c = 0

/-- The loop of `count_file`: `feof` holds once `fgetc` has met the end. -/
def countFileLoop (s : Scan) : List UInt8 → Scan
  | [] => scanChar fileSpace s eof
  | c :: rest => countFileLoop (scanChar fileSpace s c.toNat) rest

/-- `count_file`; there may be no such file. -/
def countFile : Option (List UInt8) → Counter
  | none => ⟨0, 0, 0⟩
  | some bytes => finish (countFileLoop ⟨⟨0, 0, -1⟩, false⟩ bytes)

/-- The loop of `count_stdin`, with a signed `char`. -/
def countStdinLoop (s : Scan) : List UInt8 → Scan
  | [] => scanChar stdinSpace s eof
  | c :: rest =>
      let tempChar := c.toInt8.toInt
      let s := scanChar stdinSpace s tempChar
      if tempChar = eof then s else countStdinLoop s rest

/-- `count_stdin`. -/
def countStdin (bytes : List UInt8) : Counter :=
  finish (countStdinLoop ⟨⟨0, -1, -1⟩, false⟩ bytes)

/-! ## What to count -/

/-- Space, newline and tab. -/
def blank (c : UInt8) : Bool := c = 32 || c = 10 || c = 9

/-- The counters are the numbers of lines, words and bytes. -/
def Reports (r : Counter) (bytes : List UInt8) : Prop :=
  r.lines.toInt = bytes.count 10 ∧ r.words.toInt = (words blank bytes).length ∧
    r.characters.toInt = bytes.length

/-- The last byte is in a word. -/
def EndsInWord (bytes : List UInt8) : Prop := ∃ c, bytes.getLast? = some c ∧ blank c = false

/-! ## The loop -/

section

variable {space : Int → Bool} {s : Scan} {bytes : List UInt8}

/-- One character. -/
theorem scanChar_eq (c : Int) : scanChar space s c =
    ⟨⟨s.out.lines + Int32.ofNat (if c = 10 then 1 else 0),
      s.out.words + Int32.ofNat (if space c then s.wordBool.toNat else 0),
      s.out.characters + Int32.ofNat 1⟩, !space c⟩ := by
  obtain ⟨⟨lines, ws, characters⟩, wordBool⟩ := s
  unfold scanChar
  cases hb : wordBool <;> cases hs : space c <;> by_cases hc : c = 10 <;> simp [hc]

/-- A run of the loop, on the characters that it reads. -/
theorem scan_eq (cs : List Int) : cs.foldl (scanChar space) s =
    ⟨⟨s.out.lines + Int32.ofNat (cs.count 10), s.out.words + Int32.ofNat (closed space s.wordBool cs),
      s.out.characters + Int32.ofNat cs.length⟩, inside space s.wordBool cs⟩ := by
  induction cs generalizing s with
  | nil =>
      simp [closed, inside]
  | cons c cs ih =>
      have hlines : cs.count 10 + (if c = 10 then 1 else 0) = (c :: cs).count 10 := by
        rw [List.count_cons]
        simp only [beq_iff_eq]
      have hwords : (if space c then s.wordBool.toNat else 0) + closed space (!space c) cs =
          closed space s.wordBool (c :: cs) := by
        rw [closed]
        cases hs : space c with
        | true =>
            rw [if_pos rfl, if_pos rfl]
            exact Nat.add_comm ..
        | false =>
            rw [if_neg Bool.false_ne_true, if_neg Bool.false_ne_true]
            exact Nat.zero_add _
      rw [List.foldl_cons, ih, scanChar_eq]
      dsimp only
      rw [Int32.add_assoc, Int32.add_assoc, Int32.add_assoc, ← Int32.ofNat_add, ← Int32.ofNat_add,
        ← Int32.ofNat_add, hwords, Nat.add_comm _ (cs.count 10), hlines, Nat.add_comm 1]
      rfl

/-- The characters that `count_file` reads. -/
theorem countFileLoop_eq : countFileLoop s bytes =
    (bytes.map (fun c => (c.toNat : Int)) ++ [eof]).foldl (scanChar fileSpace) s := by
  induction bytes generalizing s with
  | nil => rfl
  | cons c bytes ih => exact ih

/-- The characters that `count_stdin` reads. -/
theorem countStdinLoop_eq : countStdinLoop s bytes =
    ((bytes.takeWhile (· ≠ 255)).map (fun c => c.toInt8.toInt) ++ [eof]).foldl
      (scanChar stdinSpace) s := by
  induction bytes generalizing s with
  | nil => rfl
  | cons c bytes ih =>
      rw [countStdinLoop]
      by_cases hc : c = 255
      · subst hc
        rfl
      · have hne : c.toInt8.toInt ≠ eof := by
          intro heq
          have h : c.toInt8 = (255 : UInt8).toInt8 := Int8.toInt_inj.mp (heq.trans (by decide))
          exact hc (congrArg Int8.toUInt8 h)
        rw [if_neg hne, List.takeWhile_cons_of_pos (by simpa using hc), ih]
        rfl

/-- What a scanner reports of the bytes before the end, from the words it starts with. -/
theorem finish_eq {f : UInt8 → Int} {q : UInt8 → Bool} (hf : ∀ c, f c = 10 ↔ c = 10)
    (hend : space eof = false) (hq : ∀ c ∈ bytes, space (f c) = q c) (start : Int32) :
    finish ((bytes.map f ++ [eof]).foldl (scanChar space) ⟨⟨0, start, -1⟩, false⟩) =
      ⟨Int32.ofNat (bytes.count 10), start + Int32.ofNat (closed q false bytes) + 1,
        Int32.ofNat bytes.length⟩ := by
  have hcount : (bytes.map f ++ [eof]).count 10 = bytes.count 10 := by
    have hmap : (bytes.map f).count 10 = bytes.count 10 := by
      unfold List.count
      rw [List.countP_map]
      exact List.countP_congr fun c _ => by simp only [Function.comp_apply, beq_iff_eq, hf]
    rw [List.count_append, hmap]
    rfl
  have hwords : closed space false (bytes.map f ++ [eof]) = closed q false bytes := by
    rw [closed_concat _ hend, (closed_map _ _ _).1]
    exact (closed_congr hq false).1
  have hchars : -1 + Int32.ofNat (bytes.length + 1) = Int32.ofNat bytes.length := by
    rw [Int32.ofNat_add, Int32.add_comm, Int32.add_assoc]
    exact Int32.add_zero _
  rw [scan_eq]
  dsimp only
  rw [hcount, hwords, inside_concat, hend, List.length_append, List.length_map, List.length_singleton,
    hchars, Int32.zero_add]
  rfl

/-- The counts of a file. -/
theorem countFile_eq : countFile (some bytes) =
    ⟨Int32.ofNat (bytes.count 10), Int32.ofNat (closed blank false bytes + 1),
      Int32.ofNat bytes.length⟩ := by
  have hcast : ∀ c d : UInt8, (c.toNat : Int) = d.toNat ↔ c = d := fun c d =>
    ⟨fun h => UInt8.toNat_inj.mp (Int.ofNat_inj.mp h), fun h => h ▸ rfl⟩
  have hq : ∀ c ∈ bytes, fileSpace c.toNat = blank c := by
    intro c _
    have h32 : (c.toNat : Int) = 32 ↔ c = 32 := hcast c 32
    have h10 : (c.toNat : Int) = 10 ↔ c = 10 := hcast c 10
    have h9 : (c.toNat : Int) = 9 ↔ c = 9 := hcast c 9
    simp only [fileSpace, blank, h32, h10, h9]
  show finish (countFileLoop _ bytes) = _
  rw [countFileLoop_eq, finish_eq (q := blank) (fun c => hcast c 10) rfl hq, Int32.zero_add,
    Int32.ofNat_add]
  rfl

/-- The counts of the standard input, up to the byte that is taken for its end. -/
theorem countStdin_eq (hcr : 13 ∉ bytes) (hnul : 0 ∉ bytes) : countStdin bytes =
    ⟨Int32.ofNat ((bytes.takeWhile (· ≠ 255)).count 10),
      Int32.ofNat (closed blank false (bytes.takeWhile (· ≠ 255))),
      Int32.ofNat (bytes.takeWhile (· ≠ 255)).length⟩ := by
  have hcast : ∀ c d : UInt8, c.toInt8.toInt = d.toInt8.toInt ↔ c = d := fun c d =>
    ⟨fun h => congrArg Int8.toUInt8 (Int8.toInt_inj.mp h), fun h => h ▸ rfl⟩
  have hq : ∀ c ∈ bytes.takeWhile (· ≠ 255), stdinSpace c.toInt8.toInt = blank c := by
    intro c hc
    have hmem := List.takeWhile_subset _ hc
    have h32 : c.toInt8.toInt = 32 ↔ c = 32 := hcast c 32
    have h10 : c.toInt8.toInt = 10 ↔ c = 10 := hcast c 10
    have h9 : c.toInt8.toInt = 9 ↔ c = 9 := hcast c 9
    have h13 : c.toInt8.toInt = 13 ↔ c = 13 := hcast c 13
    have h0 : c.toInt8.toInt = 0 ↔ c = 0 := hcast c 0
    have hne13 : c ≠ 13 := fun h => hcr (h ▸ hmem)
    have hne0 : c ≠ 0 := fun h => hnul (h ▸ hmem)
    simp only [stdinSpace, blank, h32, h10, h9, h13, h0, hne13, hne0, decide_false, Bool.or_false]
  have hstart (n : Nat) : -1 + Int32.ofNat n + 1 = Int32.ofNat n := by
    rw [Int32.add_comm (-1), Int32.add_assoc]
    exact Int32.add_zero _
  unfold countStdin
  rw [countStdinLoop_eq, finish_eq (q := blank) (fun c => hcast c 10) rfl hq, hstart]

/-! ## When the reports are right -/

theorem toInt_ofNat (n : Nat) : (Int32.ofNat n).toInt = (n : Int).bmod (2 ^ 32) := Int32.toInt_ofNat'

theorem toInt_ofNat_iff (n : Nat) : (Int32.ofNat n).toInt = n ↔ n < 2 ^ 31 := by
  rw [toInt_ofNat, Int.bmod_eq_iff (by decide)]
  omega

theorem endsInWord_iff : EndsInWord bytes ↔ inside blank false bytes = true := by
  unfold EndsInWord
  rcases List.eq_nil_or_concat bytes with rfl | ⟨l, c, rfl⟩
  · simp [inside]
  · rw [List.concat_eq_append, inside_concat, List.getLast?_concat]
    simp

/-- `count_file` is right where the input ends in a word. -/
theorem countFile_iff :
    Reports (countFile (some bytes)) bytes ↔ bytes.length < 2 ^ 31 ∧ EndsInWord bytes := by
  have hwords : (words blank bytes).length =
      closed blank false bytes + (inside blank false bytes).toNat :=
    length_words false (x := 0) rfl
  have hle : closed blank false bytes + (inside blank false bytes).toNat ≤ bytes.length := closed_le false
  have hcount : bytes.count 10 ≤ bytes.length := List.count_le_length
  unfold Reports
  rw [countFile_eq, endsInWord_iff, hwords]
  dsimp only
  rw [toInt_ofNat_iff, toInt_ofNat_iff]
  cases hin : inside blank false bytes with
  | true =>
      rw [hin, Bool.toNat_true] at hle
      rw [Bool.toNat_true, toInt_ofNat_iff]
      constructor
      · rintro ⟨-, -, hlen⟩
        exact ⟨hlen, rfl⟩
      · rintro ⟨hlen, -⟩
        exact ⟨by omega, by omega, hlen⟩
  | false =>
      -- one word too many
      refine iff_of_false ?_ (fun h => absurd h.2 Bool.false_ne_true)
      rintro ⟨-, h, -⟩
      rw [toInt_ofNat, Int.bmod_eq_iff (by decide), Bool.toNat_false] at h
      omega

/-- `count_stdin` is right where the input does not end in a word and has no byte 255. -/
theorem countStdin_iff (hcr : 13 ∉ bytes) (hnul : 0 ∉ bytes) :
    Reports (countStdin bytes) bytes ↔ bytes.length < 2 ^ 31 ∧ ¬ EndsInWord bytes ∧ 255 ∉ bytes := by
  have hwords : (words blank bytes).length =
      closed blank false bytes + (inside blank false bytes).toNat :=
    length_words false (x := 0) rfl
  have hle : closed blank false bytes + (inside blank false bytes).toNat ≤ bytes.length := closed_le false
  have hcount : bytes.count 10 ≤ bytes.length := List.count_le_length
  unfold Reports
  rw [countStdin_eq hcr hnul, endsInWord_iff, hwords]
  dsimp only
  by_cases hall : 255 ∈ bytes
  · -- the bytes from 255 on are not counted
    refine iff_of_false ?_ (fun h => h.2.2 hall)
    rintro ⟨-, -, h⟩
    have hinitial : bytes.takeWhile (· ≠ 255) <+: bytes := List.takeWhile_prefix _
    have hshort : (bytes.takeWhile (· ≠ 255)).length < bytes.length := by
      refine Nat.lt_of_le_of_ne hinitial.length_le fun heq => ?_
      have hself := List.takeWhile_eq_self_iff.mp (hinitial.eq_of_length heq) 255 hall
      exact absurd hself (by decide)
    rw [toInt_ofNat, Int.bmod_eq_iff (by decide)] at h
    omega
  · have htake : bytes.takeWhile (· ≠ 255) = bytes :=
      List.takeWhile_eq_self_iff.mpr fun c hc => decide_eq_true fun h => hall (h ▸ hc)
    rw [htake, toInt_ofNat_iff, toInt_ofNat_iff]
    cases hin : inside blank false bytes with
    | true =>
        refine iff_of_false ?_ (fun h => h.2.1 rfl)
        rintro ⟨-, h, -⟩
        rw [toInt_ofNat, Int.bmod_eq_iff (by decide), Bool.toNat_true] at h
        omega
    | false =>
        rw [Bool.toNat_false, Nat.add_zero, toInt_ofNat_iff]
        constructor
        · rintro ⟨-, -, hlen⟩
          exact ⟨hlen, Bool.false_ne_true, hall⟩
        · rintro ⟨hlen, -⟩
          exact ⟨by omega, by omega, hlen⟩

/-- `wc` is right on an input that ends in a word and has a carriage return or a NUL, and on no
other: where neither is there, the two scanners do not agree. -/
theorem wc_right_iff (bytes : List UInt8) :
    (Reports (countFile (some bytes)) bytes ↔ bytes.length < 2 ^ 31 ∧ EndsInWord bytes) ∧
    (13 ∉ bytes → 0 ∉ bytes →
      (Reports (countStdin bytes) bytes ↔ bytes.length < 2 ^ 31 ∧ ¬ EndsInWord bytes ∧ 255 ∉ bytes)) ∧
    ((Reports (countFile (some bytes)) bytes ∧
        (13 ∉ bytes → 0 ∉ bytes → Reports (countStdin bytes) bytes)) ↔
      bytes.length < 2 ^ 31 ∧ EndsInWord bytes ∧ (13 ∈ bytes ∨ 0 ∈ bytes)) := by
  refine ⟨countFile_iff, countStdin_iff, ?_⟩
  constructor
  · rintro ⟨hfile, hstdin⟩
    obtain ⟨hlen, hends⟩ := countFile_iff.mp hfile
    refine ⟨hlen, hends, ?_⟩
    by_contra hnone
    rw [not_or] at hnone
    exact ((countStdin_iff hnone.1 hnone.2).mp (hstdin hnone.1 hnone.2)).2.1 hends
  · rintro ⟨hlen, hends, hspecial⟩
    refine ⟨countFile_iff.mpr ⟨hlen, hends⟩, fun hcr hnul => ?_⟩
    rcases hspecial with h | h
    · exact absurd h hcr
    · exact absurd h hnul

/-- The empty file has no words, and `count_file` reports one. -/
theorem countFile_empty : ¬ Reports (countFile (some [])) [] := by
  intro h
  exact absurd h.2.1 (by decide)

end

end CS162.Hw0
