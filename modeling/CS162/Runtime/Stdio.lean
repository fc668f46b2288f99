/-
# `CS162.Runtime.Stdio` — the integer conversions of `lib/stdio.c`

`vprintf` reads its format and writes numbers; the arguments are integers, of which a conversion
takes as many bits as its type has on the 32-bit machine.  `none` means that the format stops short,
that an argument is missing or that the conversion is one of strings (`%c`, `%s`), which are left out.

`formatInteger_octal`: a number written by `%07o` or its like fills the width, in octal digits that
read as the number.
-/
import Mathlib.Algebra.Group.Int.Defs
import Mathlib.Algebra.Group.Nat.Defs
import Mathlib.Tactic.Common

namespace CS162.Runtime

/-! ## The model -/

/-- The type of an argument in `struct printf_conversion`. -/
inductive ArgType
  | char | short | int | intmax | long | longlong | ptrdifft | sizet
  deriving DecidableEq

def ArgType.bits : ArgType → Nat
  | .char => 8
  | .short => 16
  | .int | .long | .ptrdifft | .sizet => 32
  | .intmax | .longlong => 64

/-- `struct printf_conversion`, with a field for each flag. -/
structure PrintfConversion where
  minus : Bool := false
  plus : Bool := false
  space : Bool := false
  pound : Bool := false
  zero : Bool := false
  group : Bool := false
  width : Int := 0
  precision : Int := -1
  type : ArgType := .int

/-- `struct integer_base`. -/
structure IntegerBase where
  base : Nat
  digits : List UInt8
  x : UInt8
  group : Nat

def digits : List UInt8 := [48, 49, 50, 51, 52, 53, 54, 55, 56, 57]

def baseD : IntegerBase := ⟨10, digits, 0, 3⟩
def baseO : IntegerBase := ⟨8, digits.take 8, 0, 3⟩
def baseSmallX : IntegerBase := ⟨16, digits ++ [97, 98, 99, 100, 101, 102], 120, 4⟩
def baseLargeX : IntegerBase := ⟨16, digits ++ [65, 66, 67, 68, 69, 70], 88, 4⟩

/-- The flag that a character stands for. -/
def flag (c : PrintfConversion) (ch : UInt8) : Option PrintfConversion :=
  if ch = 45 then some { c with minus := true }
  else if ch = 43 then some { c with plus := true }
  else if ch = 32 then some { c with space := true }
  else if ch = 35 then some { c with pound := true }
  else if ch = 48 then some { c with zero := true }
  else if ch = 39 then some { c with group := true }
  else none

def parseFlags (c : PrintfConversion) : List UInt8 → PrintfConversion × List UInt8
  | [] => (c, [])
  | ch :: format =>
      match flag c ch with
      | some c => parseFlags c format
      | none => (c, ch :: format)

def parseNumber (n : Int) : List UInt8 → Int × List UInt8
  | [] => (n, [])
  | ch :: format =>
      if 48 ≤ ch ∧ ch ≤ 57 then parseNumber (n * 10 + ch.toNat - 48) format else (n, ch :: format)

/-- A width or a precision; `*` takes it from the arguments. -/
def parseField (format : List UInt8) (args : List Int) : Option (Int × List UInt8 × List Int) :=
  if format.head? = some 42 then
    args.head?.map fun n => (n, format.tail, args.tail)
  else
    let (n, format) := parseNumber 0 format
    some (n, format, args)

def parseType (format : List UInt8) : ArgType × List UInt8 :=
  if format.head? = some 104 then
    if format.tail.head? = some 104 then (.char, format.drop 2) else (.short, format.tail)
  else if format.head? = some 106 then (.intmax, format.tail)
  else if format.head? = some 108 then
    if format.tail.head? = some 108 then (.longlong, format.drop 2) else (.long, format.tail)
  else if format.head? = some 116 then (.ptrdifft, format.tail)
  else if format.head? = some 122 then (.sizet, format.tail)
  else (.int, format)

/-- `parse_conversion`: what it says, the format after it and the arguments that are left. -/
def parseConversion (format : List UInt8) (args : List Int) :
    Option (PrintfConversion × List UInt8 × List Int) := do
  let (c, format) := parseFlags {} format
  let c := { c with zero := c.zero && !c.minus, space := c.space && !c.plus }
  let (width, format, args) ← parseField format args
  -- a negative width does not take the flag `0` away
  let c := if width < 0 then { c with width := -width, minus := true } else { c with width := width }
  let (precision, format, args) ←
    if format.head? = some 46 then parseField format.tail args else some (-1, format, args)
  let c := if precision < 0 then c else { c with precision := precision, zero := false }
  let (type, format) := parseType format
  return ({ c with type := type }, format, args)

/-- `sizeof buf` in `format_integer`. -/
def bufSize : Nat := 64

/-- The digit loop of `format_integer`: what it puts into `buf`, the low digit first. -/
def digitLoop (b : IntegerBase) (group : Bool) : Nat → Nat → Nat → List UInt8
  | 0, _, _ => []
  | room + 1, value, digitCnt =>
      if value = 0 then []
      else
        (if group ∧ 0 < digitCnt ∧ digitCnt % b.group = 0 then [44] else []) ++
          b.digits.getD (value % b.base) 0 :: digitLoop b group room (value / b.base) (digitCnt + 1)

/-- `format_integer`. -/
def formatInteger (value : Nat) (isSigned negative : Bool) (b : IntegerBase) (c : PrintfConversion) :
    List UInt8 :=
  let sign : UInt8 :=
    if !isSigned then 0
    else if c.plus then if negative then 45 else 43
    else if c.space then if negative then 45 else 32
    else if negative then 45 else 0
  let x := if c.pound ∧ value ≠ 0 then b.x else 0
  let buf := digitLoop b c.group bufSize value 0
  let precision := if c.precision < 0 then 1 else c.precision.toNat
  let buf := buf.rightpad (min precision (bufSize - 1)) 48
  let buf := if c.pound ∧ b.base = 8 ∧ buf.getLast? ≠ some 48 then buf ++ [48] else buf
  let used : Int := buf.length + (if x ≠ 0 then 2 else 0) + (if sign ≠ 0 then 1 else 0)
  let padCnt := (c.width - used).toNat
  (if c.minus ∨ c.zero then [] else List.replicate padCnt 32) ++
    (if sign ≠ 0 then [sign] else []) ++
    (if x ≠ 0 then [48, x] else []) ++
    (if c.zero then List.replicate padCnt 48 else []) ++
    buf.reverse ++
    (if c.minus then List.replicate padCnt 32 else [])

/-- The base of `%o`, `%u`, `%x` and `%X`. -/
def unsignedBase (conv : UInt8) : IntegerBase :=
  if conv = 111 then baseO
  else if conv = 117 then baseD
  else if conv = 120 then baseSmallX
  else baseLargeX

/-- An integer conversion of `__vprintf`. -/
def convertInteger (c : PrintfConversion) (conv : UInt8) (arg : Int) : List UInt8 :=
  if conv = 100 ∨ conv = 105 then
    let value := arg.bmod (2 ^ c.type.bits)
    formatInteger value.natAbs true (value < 0) baseD c
  else if conv = 112 then
    formatInteger (arg % 2 ^ 32).toNat false false baseSmallX
      { pound := true, width := c.width, precision := c.precision }
  else
    formatInteger (arg % 2 ^ c.type.bits).toNat false false (unsignedBase conv) c

/-- `<<no %`. -/
def refusal : List UInt8 := [60, 60, 110, 111, 32, 37]

/-- What comes after the letter: ` in kernel>>` or ` conversion>>`. -/
def refusalOf (conv : UInt8) : List UInt8 :=
  if conv ∈ [102, 101, 69, 103, 71, 110] then
    [32, 105, 110, 32, 107, 101, 114, 110, 101, 108, 62, 62]
  else [32, 99, 111, 110, 118, 101, 114, 115, 105, 111, 110, 62, 62]

/-- The switch of `__vprintf`: what is written and the arguments that are left. -/
def convert (c : PrintfConversion) (conv : UInt8) (args : List Int) : Option (List UInt8 × List Int) :=
  if conv ∈ [100, 105, 111, 117, 120, 88, 112] then
    args.head?.map fun arg => (convertInteger c conv arg, args.tail)
  else if conv ∈ [99, 115] then none
  else some (refusal ++ conv :: refusalOf conv, args)

/-- `__vprintf`; every turn takes a character of the format at least. -/
def vprintfLoop : Nat → List UInt8 → List Int → Option (List UInt8)
  | _, [], _ => some []
  | 0, _ :: _, _ => none
  | n + 1, ch :: format, args =>
      if ch ≠ 37 then (vprintfLoop n format args).map (ch :: ·)
      else if format.head? = some 37 then (vprintfLoop n format.tail args).map (37 :: ·)
      else do
        let (c, format, args) ← parseConversion format args
        let (out, args) ← convert c (← format.head?) args
        let rest ← vprintfLoop n format.tail args
        return out ++ rest

def vprintf (format : List UInt8) (args : List Int) : Option (List UInt8) :=
  vprintfLoop format.length format args

/-- `snprintf`: what is in the buffer then. -/
def snprintf (size : Nat) (format : List UInt8) (args : List Int) : Option (List UInt8) :=
  (vprintf format args).map fun out => if 0 < size then out.take (size - 1) ++ [0] else []

/-- `strlcpy`: what it puts into the destination. -/
def strlcpy (src : List UInt8) (size : Nat) : List UInt8 :=
  if 0 < size then src.take (size - 1) ++ [0] else []

/-! ## Octal numbers -/

/-- A number with one more octal digit. -/
def readOctal (value : Nat) (c : UInt8) : Nat := value * 8 + (c.toNat - 48)

/-- A string of octal digits that reads as `n`, as wide as told. -/
structure Octal (width n : Nat) (l : List UInt8) : Prop where
  length : l.length = width
  digits : ∀ c ∈ l, 48 ≤ c ∧ c ≤ 55
  value : l.foldl readOctal 0 = n

theorem baseO_digit {d : Nat} (hd : d < 8) :
    48 ≤ baseO.digits.getD d 0 ∧ baseO.digits.getD d 0 ≤ 55 ∧ (baseO.digits.getD d 0).toNat - 48 = d := by
  revert d
  decide

/-- What the digit loop leaves in `buf` reads, from its end, as the number. -/
theorem digitLoop_octal {room value digitCnt : Nat} (hroom : value < 8 ^ room) :
    (∀ c ∈ digitLoop baseO false room value digitCnt, 48 ≤ c ∧ c ≤ 55) ∧
      (digitLoop baseO false room value digitCnt).foldr (fun c v => readOctal v c) 0 = value ∧
      ∀ width, value < 8 ^ width → (digitLoop baseO false room value digitCnt).length ≤ width := by
  induction room generalizing value digitCnt with
  | zero =>
      have hzero : value = 0 := by simpa using hroom
      exact ⟨(fun c hc => nomatch hc), hzero.symm, fun _ _ => Nat.zero_le _⟩
  | succ room ih =>
      rw [digitLoop]
      by_cases hzero : value = 0
      · rw [if_pos hzero]
        exact ⟨(fun c hc => nomatch hc), hzero.symm, fun _ _ => Nat.zero_le _⟩
      · obtain ⟨hmem, hvalue, hlength⟩ := @ih (value / 8) (digitCnt + 1)
          (by rw [Nat.pow_succ] at hroom; omega)
        obtain ⟨hlow, hhigh, hdigit⟩ := baseO_digit (Nat.mod_lt value (by decide : 8 > 0))
        rw [if_neg hzero, if_neg (fun h => Bool.false_ne_true h.1), List.nil_append]
        refine ⟨?_, ?_, fun width hwidth => ?_⟩
        · intro c hc
          obtain rfl | hc := List.mem_cons.mp hc
          · exact ⟨hlow, hhigh⟩
          · exact hmem c hc
        · rw [List.foldr_cons]
          exact (congrArg₂ (· * 8 + ·) hvalue hdigit).trans (Nat.div_add_mod' value 8)
        · cases width with
          | zero => exact absurd (by simpa using hwidth) hzero
          | succ width =>
              have hle := hlength width (by rw [Nat.pow_succ] at hwidth; omega)
              rw [List.length_cons]
              exact Nat.succ_le_succ hle

theorem readOctal_zeros (l : List UInt8) (k : Nat) :
    (List.replicate k 48 ++ l).foldl readOctal 0 =
      l.foldl readOctal 0 := by
  induction k with
  | zero => rfl
  | succ k ih => exact ih

/-- `%07o` and its like. -/
theorem formatInteger_octal {width value : Nat} (hpos : 0 < width) (hfits : value < 8 ^ width)
    (hroom : value < 8 ^ bufSize) :
    Octal width value (formatInteger value false false baseO { zero := true, width := width }) := by
  obtain ⟨hmem, hvalue, hlength⟩ := @digitLoop_octal bufSize value 0 hroom
  have hle := hlength width hfits
  generalize hbuf : digitLoop baseO false bufSize value 0 = buf at hmem hvalue hle
  have hout : formatInteger value false false baseO { zero := true, width := width } =
      List.replicate (width - max 1 buf.length) 48 ++
        (List.replicate (1 - buf.length) 48 ++ buf.reverse) := by
    have hpad : ((width : Int) - (buf.length + (1 - buf.length : Nat))).toNat =
        width - max 1 buf.length := by
      omega
    simp only [bufSize] at hbuf
    simp [formatInteger, bufSize, hbuf, List.rightpad, hpad]
  rw [hout]
  refine ⟨?_, fun c hc => ?_, ?_⟩
  · simp only [List.length_append, List.length_replicate, List.length_reverse]
    omega
  · simp only [List.mem_append, List.mem_replicate, List.mem_reverse] at hc
    obtain ⟨-, rfl⟩ | ⟨-, rfl⟩ | hc := hc
    · decide
    · decide
    · exact hmem c hc
  · rw [readOctal_zeros, readOctal_zeros, List.foldl_reverse]
    exact hvalue

/-- `snprintf` of an octal number into a field it fills. -/
theorem snprintf_octal {format : List UInt8} {width n : Nat} (hhead : format.head? ≠ some 37)
    (hformat : parseConversion format [(n : Int)] =
      some ({ zero := true, width := width }, [111], [(n : Int)]))
    (hpos : 0 < width) (hfits : n < 8 ^ width) (hint : n < 2 ^ 32) :
    ∃ l, Octal width n l ∧ snprintf (width + 1) (37 :: format) [(n : Int)] = some (l ++ [0]) := by
  have hroom : n < 8 ^ bufSize := Nat.lt_trans hint (by decide)
  have hl := formatInteger_octal hpos hfits hroom
  have harg : ((n : Int) % 4294967296).toNat = n := by omega
  refine ⟨_, hl, ?_⟩
  have hout : vprintf (37 :: format) [(n : Int)] =
      some (formatInteger n false false baseO { zero := true, width := width }) := by
    unfold vprintf
    rw [List.length_cons, vprintfLoop, if_neg (fun h => h rfl), if_neg hhead, hformat]
    simp [convert, convertInteger, unsignedBase, ArgType.bits, harg, vprintfLoop]
  rw [snprintf, hout, Option.map_some, if_pos (Nat.succ_pos width), Nat.add_sub_cancel,
    List.take_of_length_le (Nat.le_of_eq hl.length)]

end CS162.Runtime
