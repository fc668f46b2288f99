/-
# `CS162.Runtime.Ustar` — `lib/ustar.c`, archive headers

A header is a block of 512 bytes, made by writing its fields one after the other and read field by
field.  A file name is a string without its null byte.  `ustarMakeHeader` has the line it prints as
its error; `ustarParseHeader` has the message it returns.

Fields that are apart keep what was written to each, the checksum looks at no byte of its own field
and octal numbers read back, so what is parsed is what was made (`ustar_round_trip`).  Names are
stripped on both sides, which changes nothing the second time (`strip_of_safe`).
-/
import CS162.Lib.Bytes
import CS162.Runtime.Stdio
import Mathlib.Data.List.Basic

namespace CS162.Runtime

open Bytes

/-! ## The model -/

/-- A header. -/
abbrev Header := Block 512

/-- A field of `struct ustar_header`. -/
structure Field where
  off : Nat
  len : Nat

def nameField : Field := ⟨0, 100⟩
def modeField : Field := ⟨100, 8⟩
def uidField : Field := ⟨108, 8⟩
def gidField : Field := ⟨116, 8⟩
def sizeField : Field := ⟨124, 12⟩
def mtimeField : Field := ⟨136, 12⟩
def chksumField : Field := ⟨148, 8⟩
def typeflagField : Field := ⟨156, 1⟩
def magicField : Field := ⟨257, 6⟩
def versionField : Field := ⟨263, 2⟩
def unameField : Field := ⟨265, 32⟩
def gnameField : Field := ⟨297, 32⟩
def prefixField : Field := ⟨345, 155⟩

/-- What a field holds. -/
def read (h : Header) (f : Field) : List UInt8 := h.slice f.off f.len

/-- Fields written one after the other. -/
def write (h : Header) (fields : List (Field × List UInt8)) : Header :=
  fields.foldl (fun h w => h.splice w.1.off w.2) h

/-- `enum ustar_type`, of the types that have files. -/
inductive UstarType
  | regular | directory
  deriving DecidableEq

def UstarType.byte : UstarType → UInt8
  | .regular => 48
  | .directory => 53

def UstarType.ofByte (b : UInt8) : Option UstarType :=
  if b = 48 then some .regular else if b = 53 then some .directory else none

/-- What byte `i` adds to the checksum; the field `chksum` counts as spaces. -/
def chksumByte (h : Header) (i : Nat) : UInt32 :=
  if chksumField.off ≤ i ∧ i < chksumField.off + chksumField.len then 32 else (h.get i).toUInt32

/-- `calculate_chksum`. -/
def calculateChksum (h : Header) : UInt32 :=
  (List.range 512).foldl (fun chksum i => chksum + chksumByte h i) 0

/-- What the loop of `strip_antisocial_prefixes` is for. -/
def antisocial (fileName : List UInt8) : Bool :=
  [47].isPrefixOf fileName || [46, 47].isPrefixOf fileName || [46, 46, 47].isPrefixOf fileName

/-- The loop; every turn leaves a shorter name. -/
def stripLoop : Nat → List UInt8 → List UInt8
  | 0, fileName => fileName
  | n + 1, fileName =>
      if antisocial fileName then stripLoop n (fileName.dropWhile (· ≠ 47)).tail else fileName

/-- `strip_antisocial_prefixes`. -/
def stripAntisocialPrefixes (fileName : List UInt8) : List UInt8 :=
  let fileName := stripLoop fileName.length fileName
  if fileName = [] ∨ fileName = [46, 46] then [46] else fileName

/-- `: file name too long` and the end of the line. -/
def tooLong : List UInt8 :=
  [58, 32, 102, 105, 108, 101, 32, 110, 97, 109, 101, 32, 116, 111, 111, 32, 108, 111, 110, 103, 10]

/-- The assignments of `ustar_make_header` to all fields but the checksum. -/
def ustarFields (fileName mode size mtime : List UInt8) (type : UstarType) :
    List (Field × List UInt8) :=
  let zeros := [48, 48, 48, 48, 48, 48, 48]
  let root := [114, 111, 111, 116]
  [(nameField, strlcpy fileName nameField.len),
    (modeField, mode),
    (uidField, strlcpy zeros uidField.len),
    (gidField, strlcpy zeros gidField.len),
    (sizeField, size),
    (mtimeField, mtime),
    (typeflagField, [type.byte]),
    (magicField, strlcpy [117, 115, 116, 97, 114] magicField.len),
    (versionField, [48, 48]),
    (gnameField, strlcpy root gnameField.len),
    (unameField, strlcpy root unameField.len)]

/-- `ustar_make_header`; its formats are `%07o` and `%011o`. -/
def ustarMakeHeader (fileName : List UInt8) (type : UstarType) (size : Int32) :
    Option (Except (List UInt8) Header) :=
  let fileName := stripAntisocialPrefixes fileName
  if 99 < fileName.length then some (.error (fileName ++ tooLong))
  else do
    let mode ← snprintf modeField.len [37, 48, 55, 111] [if type = .regular then 0o644 else 0o755]
    let sizeText ← snprintf sizeField.len [37, 48, 49, 49, 111] [size.toInt]
    -- `sizeof h->size`, for the field `mtime` too
    let mtime ← snprintf sizeField.len [37, 48, 49, 49, 111] [1136102400]
    let h := write (Block.fill 0) (ustarFields fileName mode sizeText mtime type)
    let chksum ← snprintf chksumField.len [37, 48, 55, 111] [(calculateChksum h).toNat]
    return .ok (write h [(chksumField, chksum)])

/-- The loop of `parse_octal_field`, at an offset. -/
def parseOctalLoop (ofs : Nat) (value : UInt32) : List UInt8 → Option UInt32
  | [] => none
  | c :: s =>
      if 48 ≤ c ∧ c ≤ 55 then
        if 0xFFFFFFFF / 8 < value then none
        else parseOctalLoop (ofs + 1) ((c - 48).toUInt32 + value * 8) s
      else if c = 32 ∨ c = 0 then if 0 < ofs then some value else none
      else none

/-- `parse_octal_field`. -/
def parseOctalField (s : List UInt8) : Option UInt32 := parseOctalLoop 0 0 s

/-- `is_all_zeros`. -/
def isAllZeros (block : List UInt8) : Bool := block.all (· == 0)

/-- What a header is for. -/
inductive Parsed
  | eof
  | entry (fileName : List UInt8) (type : UstarType) (size : Int32)

/-- `ustar_parse_header`. -/
def ustarParseHeader (h : Header) : Except String Parsed :=
  let fileName := (read h nameField).takeWhile (· ≠ 0)
  if isAllZeros (h.slice 0 512) then .ok .eof
  else if read h magicField ≠ [117, 115, 116, 97, 114, 0] then .error "not a ustar archive"
  else if read h versionField ≠ [48, 48] then .error "invalid ustar version"
  else
    match parseOctalField (read h chksumField) with
    | none => .error "corrupt chksum field"
    | some chksum =>
        if chksum ≠ calculateChksum h then .error "checksum mismatch"
        else if h.get (nameField.off + 99) ≠ 0 ∨ h.get prefixField.off ≠ 0 then
          .error "file name too long"
        else
          match UstarType.ofByte (h.get typeflagField.off) with
          | none => .error "unimplemented file type"
          | some .directory => .ok (.entry (stripAntisocialPrefixes fileName) .directory 0)
          | some .regular =>
              match parseOctalField (read h sizeField) with
              | none => .error "corrupt file size field"
              | some size =>
                  if 0x7FFFFFFF < size then .error "file too large"
                  else .ok (.entry (stripAntisocialPrefixes fileName) .regular size.toInt32)

/-! ## Names -/

/-- A name that leads nowhere else. -/
structure Safe (fileName : List UInt8) : Prop where
  notRoot : ¬ [47] <+: fileName
  notHere : ¬ [46, 47] <+: fileName
  notAbove : ¬ [46, 46, 47] <+: fileName
  notParent : fileName ≠ [46, 46]
  notEmpty : fileName ≠ []

theorem antisocial_iff {s : List UInt8} :
    antisocial s = true ↔ [47] <+: s ∨ [46, 47] <+: s ∨ [46, 46, 47] <+: s := by
  unfold antisocial
  rw [Bool.or_eq_true, Bool.or_eq_true, List.isPrefixOf_iff_prefix, List.isPrefixOf_iff_prefix,
    List.isPrefixOf_iff_prefix, or_assoc]

/-- After enough turns nothing antisocial is left. -/
theorem stripLoop_done {n : Nat} {s : List UInt8} (hn : s.length ≤ n) :
    antisocial (stripLoop n s) = false := by
  induction n generalizing s with
  | zero =>
      obtain rfl := List.eq_nil_of_length_eq_zero (Nat.le_zero.mp hn)
      rfl
  | succ n ih =>
      rw [stripLoop]
      by_cases hs : antisocial s = true
      · rw [if_pos hs]
        refine ih ?_
        have hle := (List.dropWhile_suffix (l := s) (· ≠ 47)).length_le
        rw [List.length_tail]
        omega
      · rw [if_neg hs]
        exact Bool.eq_false_iff.mpr hs

theorem stripLoop_suffix (n : Nat) (s : List UInt8) : stripLoop n s <:+ s := by
  induction n generalizing s with
  | zero => exact List.suffix_rfl
  | succ n ih =>
      rw [stripLoop]
      split
      · exact (ih _).trans ((List.tail_suffix _).trans (List.dropWhile_suffix _))
      · exact List.suffix_rfl

theorem strip_eq (s : List UInt8) : stripAntisocialPrefixes s =
    if stripLoop s.length s = [] ∨ stripLoop s.length s = [46, 46] then [46]
    else stripLoop s.length s := rfl

theorem strip_safe (s : List UInt8) : Safe (stripAntisocialPrefixes s) := by
  have hdone := stripLoop_done (Nat.le_refl s.length)
  rw [strip_eq]
  split
  · exact ⟨by decide, by decide, by decide, by decide, by decide⟩
  · rename_i hgood
    have hsocial := (not_congr antisocial_iff).mp (Bool.eq_false_iff.mp hdone)
    exact ⟨fun h => hsocial (.inl h), fun h => hsocial (.inr (.inl h)), fun h => hsocial (.inr (.inr h)),
      fun h => hgood (.inr h), fun h => hgood (.inl h)⟩

/-- Names are stripped once. -/
theorem strip_of_safe {s : List UInt8} (hs : Safe s) : stripAntisocialPrefixes s = s := by
  have hsocial : ¬ antisocial s = true := fun h =>
    (antisocial_iff.mp h).elim hs.notRoot fun h => h.elim hs.notHere hs.notAbove
  have hloop : stripLoop s.length s = s := by
    cases hn : s.length with
    | zero => rfl
    | succ n => rw [stripLoop, if_neg hsocial]
  rw [strip_eq, hloop, if_neg (fun h => h.elim hs.notEmpty hs.notParent)]

theorem strip_string {s : List UInt8} (hs : 0 ∉ s) : 0 ∉ stripAntisocialPrefixes s := by
  rw [strip_eq]
  split
  · decide
  · exact fun h => hs ((stripLoop_suffix s.length s).subset h)

/-! ## Octal fields -/

theorem le_foldl_readOctal (l : List UInt8) (v : Nat) : v ≤ l.foldl readOctal v := by
  induction l generalizing v with
  | nil => exact Nat.le_refl v
  | cons c l ih =>
      refine Nat.le_trans ?_ (ih (readOctal v c))
      unfold readOctal
      omega

/-- Digits up to a null byte are read, as long as their value fits. -/
theorem parseOctalLoop_digits {l rest : List UInt8} {ofs : Nat} {value : UInt32}
    (hdigits : ∀ c ∈ l, 48 ≤ c ∧ c ≤ 55) (hfits : l.foldl readOctal value.toNat < 2 ^ 32)
    (hofs : 0 < ofs + l.length) :
    ∃ r, parseOctalLoop ofs value (l ++ 0 :: rest) = some r ∧
      r.toNat = l.foldl readOctal value.toNat := by
  induction l generalizing ofs value with
  | nil =>
      refine ⟨value, ?_, rfl⟩
      rw [List.nil_append, parseOctalLoop, if_neg (by decide), if_pos (.inr rfl),
        if_pos (show 0 < ofs from hofs)]
  | cons c l ih =>
      have hc := hdigits c List.mem_cons_self
      have hc' : 48 ≤ c.toNat ∧ c.toNat ≤ 55 := hc
      have hnext := Nat.lt_of_le_of_lt (le_foldl_readOctal l (readOctal value.toNat c)) hfits
      unfold readOctal at hnext
      have hvalue : ((c - 48).toUInt32 + value * 8).toNat = readOctal value.toNat c := by
        have hsub : (c - 48).toNat = c.toNat - 48 := UInt8.toNat_sub_of_le _ _ hc.1
        have hmul : (value * 8).toNat = value.toNat * 8 % 2 ^ 32 := UInt32.toNat_mul value 8
        rw [UInt32.toNat_add, UInt8.toNat_toUInt32, hsub, hmul, readOctal]
        omega
      have hroom : ¬ 0xFFFFFFFF / 8 < value := by
        rw [UInt32.lt_iff_toNat_lt]
        have heq : (0xFFFFFFFF / 8 : UInt32).toNat = 536870911 := by decide
        omega
      obtain ⟨r, hr, hrvalue⟩ := @ih (ofs + 1) ((c - 48).toUInt32 + value * 8)
        (fun d hd => hdigits d (List.mem_cons_of_mem c hd)) (by rw [hvalue]; exact hfits)
        (by omega)
      rw [hvalue] at hrvalue
      refine ⟨r, ?_, hrvalue⟩
      rw [List.cons_append, parseOctalLoop, if_pos hc, if_neg hroom]
      exact hr

theorem parseOctalField_octal {l rest : List UInt8} {width n : Nat} (hl : Octal width n l)
    (hpos : 0 < width) (hfits : n < 2 ^ 32) :
    ∃ r, parseOctalField (l ++ 0 :: rest) = some r ∧ r.toNat = n := by
  have hvalue : l.foldl readOctal (0 : UInt32).toNat = n := hl.value
  have hofs : 0 < 0 + l.length := by rw [hl.length]; omega
  rw [← hvalue] at hfits ⊢
  exact parseOctalLoop_digits hl.digits hfits hofs

/-! ## Fields -/

/-- Fields with no byte in common. -/
abbrev Field.Apart (f g : Field) : Prop := f.off + f.len ≤ g.off ∨ g.off + g.len ≤ f.off

variable {h : Header} {f : Field} {fields : List (Field × List UInt8)} {buf : List UInt8} {k : Nat}

theorem get_write_apart (hapart : ∀ w ∈ fields, f.Apart w.1) (hlen : ∀ w ∈ fields, w.2.length ≤ w.1.len)
    (hinside : f.off + f.len ≤ 512) (hk : k < f.len) :
    (write h fields).get (f.off + k) = h.get (f.off + k) := by
  induction fields generalizing h with
  | nil => rfl
  | cons w fields ih =>
      have hstep : (h.splice w.1.off w.2).get (f.off + k) = h.get (f.off + k) := by
        have hw := hapart w List.mem_cons_self
        have hwlen := hlen w List.mem_cons_self
        rw [Block.get_splice h (by omega), if_neg (by omega)]
      rw [← hstep]
      exact ih (fun v hv => hapart v (List.mem_cons_of_mem w hv))
        (fun v hv => hlen v (List.mem_cons_of_mem w hv))

/-- A field that is apart from the others holds what was written to it. -/
theorem get_write (hapart : (fields.map Prod.fst).Pairwise Field.Apart)
    (hlen : ∀ w ∈ fields, w.2.length ≤ w.1.len) (hmem : (f, buf) ∈ fields)
    (hinside : f.off + f.len ≤ 512) (hk : k < f.len) :
    (write h fields).get (f.off + k) = if k < buf.length then buf.getD k 0 else h.get (f.off + k) := by
  obtain ⟨before, after, rfl⟩ := List.append_of_mem hmem
  rw [List.map_append, List.map_cons, List.pairwise_append, List.pairwise_cons] at hapart
  obtain ⟨-, ⟨hafter, -⟩, hbefore⟩ := hapart
  have happend : write h (before ++ (f, buf) :: after) =
      write ((write h before).splice f.off buf) after := List.foldl_append
  rw [happend, get_write_apart (f := f) (fun w hw => hafter w.1 (List.mem_map_of_mem hw))
    (fun w hw => hlen w (List.mem_append_right _ (List.mem_cons_of_mem _ hw))) hinside hk,
    Block.get_splice _ (by omega)]
  by_cases hkbuf : k < buf.length
  · rw [if_pos ⟨Nat.le_add_right _ _, by omega⟩, if_pos hkbuf, Nat.add_sub_cancel_left]
  · rw [if_neg (by omega), if_neg hkbuf]
    refine get_write_apart (fun w hw => ?_) (fun w hw => hlen w (List.mem_append_left _ hw)) hinside hk
    exact (hbefore w.1 (List.mem_map_of_mem hw) f List.mem_cons_self).symm

/-- Of a header filled with zeros. -/
theorem read_write (hapart : (fields.map Prod.fst).Pairwise Field.Apart)
    (hlen : ∀ w ∈ fields, w.2.length ≤ w.1.len) (hmem : (f, buf) ∈ fields)
    (hinside : f.off + f.len ≤ 512) :
    read (write (Block.fill 0) fields) f = buf.rightpad f.len 0 := by
  have hfill : buf.length ≤ f.len := hlen _ hmem
  have hlength : (buf.rightpad f.len 0).length = f.len := by
    rw [List.length_rightpad]
    omega
  refine List.ext_getElem ((Block.length_slice _ _ _).trans hlength.symm) fun k hk _ => ?_
  rw [read, Block.length_slice] at hk
  have hget := get_write (h := Block.fill 0) hapart hlen hmem hinside hk
  have hleft : (read (write (Block.fill 0) fields) f)[k]? =
      some ((write (Block.fill 0) fields).get (f.off + k)) := Block.getElem?_slice _ hk
  rw [List.getElem?_eq_some_iff] at hleft
  obtain ⟨_, hleft⟩ := hleft
  rw [hleft, hget]
  simp only [List.rightpad, List.getElem_append, List.getElem_replicate]
  by_cases hkbuf : k < buf.length
  · rw [if_pos hkbuf, dif_pos hkbuf]
    rw [List.getD_eq_getElem?_getD, List.getElem?_eq_getElem hkbuf]
    rfl
  · rw [if_neg hkbuf, dif_neg hkbuf]
    exact Block.get_fill (by omega)

theorem read_write_full (hapart : (fields.map Prod.fst).Pairwise Field.Apart)
    (hlen : ∀ w ∈ fields, w.2.length ≤ w.1.len) (hmem : (f, buf) ∈ fields)
    (hinside : f.off + f.len ≤ 512) (hfull : f.len ≤ buf.length) :
    read (write (Block.fill 0) fields) f = buf := by
  rw [read_write hapart hlen hmem hinside, List.rightpad, Nat.sub_eq_zero_of_le hfull]
  exact List.append_nil buf

/-! ## Checksums -/

theorem calculateChksum_congr {a b : Header}
    (hab : ∀ i < 512, ¬ (chksumField.off ≤ i ∧ i < chksumField.off + chksumField.len) →
      a.get i = b.get i) :
    calculateChksum a = calculateChksum b := by
  refine List.foldl_ext _ _ _ fun chksum i hi => congrArg (chksum + ·) ?_
  unfold chksumByte
  by_cases hfield : chksumField.off ≤ i ∧ i < chksumField.off + chksumField.len
  · rw [if_pos hfield, if_pos hfield]
  · rw [if_neg hfield, if_neg hfield, hab i (List.mem_range.mp hi) hfield]

theorem chksumByte_le (h : Header) (i : Nat) : (chksumByte h i).toNat ≤ 255 := by
  unfold chksumByte
  split
  · decide
  · exact Nat.le_of_lt_succ (h.get i).toNat_lt

/-- The sum is too small to overflow. -/
theorem foldl_chksumByte_le (h : Header) {l : List Nat} {chksum : UInt32}
    (hroom : chksum.toNat + 255 * l.length < 2 ^ 32) :
    (l.foldl (fun chksum i => chksum + chksumByte h i) chksum).toNat ≤
      chksum.toNat + 255 * l.length := by
  induction l generalizing chksum with
  | nil => exact Nat.le_refl _
  | cons i l ih =>
      have hbyte := chksumByte_le h i
      have hadd := UInt32.toNat_add chksum (chksumByte h i)
      rw [List.length_cons] at hroom ⊢
      have hle := @ih (chksum + chksumByte h i) (by omega)
      rw [List.foldl_cons]
      omega

/-- A checksum takes six octal digits. -/
theorem calculateChksum_lt (h : Header) : (calculateChksum h).toNat < 8 ^ 6 := by
  have hle := @foldl_chksumByte_le h (List.range 512) 0 (by rw [List.length_range]; decide)
  rw [List.length_range] at hle
  exact Nat.lt_of_le_of_lt hle (by decide)

/-! ## Round trip -/

/-- What `ustar_make_header` leaves in the fields that are parsed. -/
structure Made (fileName : List UInt8) (type : UstarType) (size : Nat) (h : Header) : Prop where
  name : read h nameField = (fileName ++ [0]).rightpad 100 0
  size : ∃ l, Octal 11 size l ∧ read h sizeField = l ++ [0]
  chksum : ∃ l, Octal 7 (calculateChksum h).toNat l ∧ read h chksumField = l ++ [0]
  typeflag : read h typeflagField = [type.byte]
  magic : read h magicField = [117, 115, 116, 97, 114, 0]
  version : read h versionField = [48, 48]
  noPrefix : h.get prefixField.off = 0

/-- All assignments, with the checksum last. -/
def headerFields (fileName mode size mtime chksum : List UInt8) (type : UstarType) :
    List (Field × List UInt8) :=
  ustarFields fileName mode size mtime type ++ [(chksumField, chksum)]

section

variable {fileName mode sizeText mtime chksum : List UInt8} {type : UstarType} {size : Nat}

/-- The names of the fields. -/
def fieldsMade : List Field :=
  [nameField, modeField, uidField, gidField, sizeField, mtimeField, typeflagField, magicField,
    versionField, gnameField, unameField, chksumField]

theorem headerFields_fst :
    (headerFields fileName mode sizeText mtime chksum type).map Prod.fst = fieldsMade := rfl

theorem fieldsMade_apart : fieldsMade.Pairwise Field.Apart := by decide

theorem prefix_apart : ∀ g ∈ fieldsMade, prefixField.Apart g := by decide

theorem headerFields_length (hmode : mode.length = 8)
    (hsize : sizeText.length = 12) (hmtime : mtime.length = 12) (hchksum : chksum.length = 8) :
    ∀ w ∈ headerFields fileName mode sizeText mtime chksum type, w.2.length ≤ w.1.len := by
  have hstrlcpy : (strlcpy fileName nameField.len).length ≤ nameField.len := by
    rw [strlcpy, if_pos (by decide), List.length_append, List.length_take]
    exact Nat.succ_le_succ (Nat.min_le_left _ _)
  simp only [headerFields, ustarFields, List.cons_append, List.nil_append, List.forall_mem_cons]
  exact ⟨hstrlcpy, Nat.le_of_eq hmode, by decide, by decide, Nat.le_of_eq hsize, Nat.le_of_eq hmtime,
    Nat.le_refl 1, by decide, by decide, by decide, by decide, Nat.le_of_eq hchksum,
    fun w hw => nomatch hw⟩

end

theorem ustarMakeHeader_long {fileName : List UInt8} (type : UstarType) (size : Int32)
    (hlong : 99 < (stripAntisocialPrefixes fileName).length) :
    ustarMakeHeader fileName type size = some (.error (stripAntisocialPrefixes fileName ++ tooLong)) :=
  if_pos hlong

/-- `%07o` in a field of 8 bytes. -/
theorem snprintf_seven {n : Nat} (hn : n < 8 ^ 7) :
    ∃ l, Octal 7 n l ∧ snprintf 8 [37, 48, 55, 111] [(n : Int)] = some (l ++ [0]) :=
  snprintf_octal (by decide) rfl (by decide) hn (Nat.lt_trans hn (by decide))

/-- `%011o` in a field of 12 bytes. -/
theorem snprintf_eleven {n : Nat} (hn : n < 2 ^ 32) :
    ∃ l, Octal 11 n l ∧ snprintf 12 [37, 48, 49, 49, 111] [(n : Int)] = some (l ++ [0]) :=
  snprintf_octal (by decide) rfl (by decide) (Nat.lt_trans hn (by decide)) hn

section

variable {fileName mode sizeText mtime chksum : List UInt8} {type : UstarType} {size : Nat}

/-- The checksum is the one of the header without it. -/
theorem calculateChksum_write (h : Header) (hchksum : chksum.length = chksumField.len) :
    calculateChksum (write h [(chksumField, chksum)]) = calculateChksum h := by
  refine calculateChksum_congr fun i hi hfield => ?_
  have hget : (write h [(chksumField, chksum)]).get i =
      if chksumField.off ≤ i ∧ i < chksumField.off + chksum.length then
        chksum.getD (i - chksumField.off) 0
      else h.get i := Block.get_splice h hi
  rw [hget, hchksum, if_neg hfield]

/-- The fields of the header, each of which is read as it was written. -/
theorem made_of_fields (hname : fileName.length ≤ 99) (hmode : mode.length = 7)
    (hsize : Octal 11 size sizeText) (hmtime : mtime.length = 11)
    (hchksum : Octal 7 (calculateChksum (write (Block.fill 0) (ustarFields fileName (mode ++ [0])
      (sizeText ++ [0]) (mtime ++ [0]) type))).toNat chksum) :
    Made fileName type size (write (Block.fill 0) (headerFields fileName (mode ++ [0]) (sizeText ++ [0])
      (mtime ++ [0]) (chksum ++ [0]) type)) := by
  have hchksumLength : (chksum ++ [0]).length = chksumField.len := by
    rw [List.length_append, hchksum.length]
    rfl
  have hsum := calculateChksum_write (write (Block.fill 0) (ustarFields fileName (mode ++ [0])
    (sizeText ++ [0]) (mtime ++ [0]) type)) hchksumLength
  have happend : write (write (Block.fill 0) (ustarFields fileName (mode ++ [0]) (sizeText ++ [0])
      (mtime ++ [0]) type)) [(chksumField, chksum ++ [0])] =
      write (Block.fill 0) (headerFields fileName (mode ++ [0]) (sizeText ++ [0]) (mtime ++ [0])
        (chksum ++ [0]) type) := List.foldl_append.symm
  rw [happend] at hsum
  have hlen := @headerFields_length fileName (mode ++ [0]) (sizeText ++ [0]) (mtime ++ [0])
    (chksum ++ [0]) type (by rw [List.length_append, hmode]; rfl)
    (by rw [List.length_append, hsize.length]; rfl) (by rw [List.length_append, hmtime]; rfl)
    hchksumLength
  generalize hfields : headerFields fileName (mode ++ [0]) (sizeText ++ [0]) (mtime ++ [0])
    (chksum ++ [0]) type = fields at hlen hsum
  have hfst : fields.map Prod.fst = fieldsMade := by rw [← hfields, headerFields_fst]
  have happart : (fields.map Prod.fst).Pairwise Field.Apart := by
    rw [hfst]
    exact fieldsMade_apart
  refine ⟨?_, ⟨sizeText, hsize, ?_⟩, ⟨chksum, ?_, ?_⟩, ?_, ?_, ?_, ?_⟩
  · have hcopy : strlcpy fileName nameField.len = fileName ++ [0] := by
      rw [strlcpy, if_pos (by decide)]
      exact congrArg (· ++ [0]) (List.take_of_length_le hname)
    rw [← hcopy]
    refine read_write happart hlen ?_ (by decide)
    exact hfields ▸ List.mem_cons_self
  · refine read_write_full happart hlen ?_ (by decide) ?_
    · exact hfields ▸ @List.mem_of_getElem? _ _ 4 _ rfl
    · rw [List.length_append, hsize.length]
      decide
  · rw [hsum]
    exact hchksum
  · refine read_write_full happart hlen ?_ (by decide) (Nat.le_of_eq hchksumLength.symm)
    exact hfields ▸ @List.mem_of_getElem? _ _ 11 _ rfl
  · exact read_write_full happart hlen (hfields ▸ @List.mem_of_getElem? _ _ 6 _ rfl) (by decide)
      (Nat.le_refl 1)
  · exact read_write_full happart hlen (hfields ▸ @List.mem_of_getElem? _ _ 7 _ rfl) (by decide)
      (by decide)
  · exact read_write_full happart hlen (hfields ▸ @List.mem_of_getElem? _ _ 8 _ rfl) (by decide)
      (by decide)
  · have hget := @get_write_apart (Block.fill 0) prefixField fields 0
      (fun w hw => prefix_apart w.1 (hfst ▸ List.mem_map_of_mem hw)) hlen (by decide) (by decide)
    exact hget.trans (Block.get_fill (by decide))

end

theorem ustarMakeHeader_made {fileName : List UInt8} (type : UstarType) {size : Int32}
    (hshort : (stripAntisocialPrefixes fileName).length ≤ 99) (hsize : 0 ≤ size) :
    ∃ h, ustarMakeHeader fileName type size = some (.ok h) ∧
      Made (stripAntisocialPrefixes fileName) type size.toNatClampNeg h := by
  obtain ⟨mode, hmode, hmodeEq⟩ : ∃ l, l.length = 7 ∧ snprintf modeField.len [37, 48, 55, 111]
      [if type = .regular then 0o644 else 0o755] = some (l ++ [0]) := by
    cases type with
    | regular => exact ⟨[48, 48, 48, 48, 54, 52, 52], rfl, by decide⟩
    | directory => exact ⟨[48, 48, 48, 48, 55, 53, 53], rfl, by decide⟩
  obtain ⟨sizeText, hsizeText, hsizeEq⟩ :=
    snprintf_eleven (Nat.lt_trans size.toNatClampNeg_lt (by decide))
  rw [Int32.cast_toNatClampNeg _ hsize] at hsizeEq
  obtain ⟨mtime, hmtime, hmtimeEq⟩ := @snprintf_eleven 1136102400 (by decide)
  obtain ⟨chksum, hchksum, hchksumEq⟩ := snprintf_seven (Nat.lt_trans (calculateChksum_lt
    (write (Block.fill 0) (ustarFields (stripAntisocialPrefixes fileName) (mode ++ [0]) (sizeText ++ [0])
      (mtime ++ [0]) type))) (by decide))
  refine ⟨_, ?_, made_of_fields hshort hmode hsizeText hmtime.length hchksum⟩
  have happend : write (Block.fill 0) (headerFields (stripAntisocialPrefixes fileName) (mode ++ [0])
      (sizeText ++ [0]) (mtime ++ [0]) (chksum ++ [0]) type) =
      write (write (Block.fill 0) (ustarFields (stripAntisocialPrefixes fileName) (mode ++ [0])
        (sizeText ++ [0]) (mtime ++ [0]) type)) [(chksumField, chksum ++ [0])] := List.foldl_append
  rw [happend]
  have hsizeEq' : snprintf sizeField.len [37, 48, 49, 49, 111] [size.toInt] =
      some (sizeText ++ [0]) := hsizeEq
  have hmtimeEq' : snprintf sizeField.len [37, 48, 49, 49, 111] [1136102400] =
      some (mtime ++ [0]) := hmtimeEq
  unfold ustarMakeHeader
  simp only [if_neg (Nat.not_lt.mpr hshort), hmodeEq, hsizeEq', hmtimeEq', Option.bind_eq_bind,
    Option.bind_some]
  exact congrArg (Option.bind · _) hchksumEq

theorem takeWhile_string {s rest : List UInt8} (hs : 0 ∉ s) :
    (s ++ 0 :: rest).takeWhile (· ≠ 0) = s := by
  have hpos : ∀ c ∈ s, decide (c ≠ 0) = true := fun c hc => decide_eq_true fun h => hs (by rwa [h] at hc)
  rw [List.takeWhile_append_of_pos hpos]
  exact List.append_nil s

theorem get_of_read {h : Header} {f : Field} {buf : List UInt8} {k : Nat} (hread : read h f = buf)
    (hk : k < f.len) : h.get (f.off + k) = buf.getD k 0 := by
  rw [List.getD_eq_getElem?_getD, ← hread, read, Block.getElem?_slice h hk]
  rfl

/-- A header that was made is one of its file. -/
theorem ustarParseHeader_made {fileName : List UInt8} {type : UstarType} {size : Int32} {h : Header}
    (hmade : Made fileName type size.toNatClampNeg h) (hsafe : Safe fileName) (hstring : 0 ∉ fileName)
    (hshort : fileName.length ≤ 99) (hsize : 0 ≤ size) :
    ustarParseHeader h = .ok (.entry fileName type (if type = .directory then 0 else size)) := by
  obtain ⟨sum, hsum, hsumRead⟩ := hmade.chksum
  obtain ⟨digits, hdigits, hdigitsRead⟩ := hmade.size
  have hzero : isAllZeros (h.slice 0 512) = false := by
    refine List.all_eq_false.mpr ⟨117, ?_, by decide⟩
    refine @List.mem_of_getElem? _ _ magicField.off _ ?_
    rw [Block.getElem?_slice h (by decide), Nat.zero_add]
    exact congrArg some (get_of_read hmade.magic (by decide : 0 < magicField.len))
  have hname : (read h nameField).takeWhile (· ≠ 0) = fileName := by
    rw [hmade.name, List.rightpad, List.append_assoc]
    exact takeWhile_string hstring
  obtain ⟨chksum, hchksum, hchksumEq⟩ := @parseOctalField_octal sum [] 7 _ hsum (by decide)
    (Nat.lt_trans (calculateChksum_lt h) (by decide))
  rw [UInt32.toNat_inj.mp hchksumEq] at hchksum
  obtain ⟨sizeUl, hsizeUl, hsizeEq⟩ := @parseOctalField_octal digits [] 11 _ hdigits (by decide)
    (Nat.lt_trans size.toNatClampNeg_lt (by decide))
  rw [← Int32.toNat_toUInt32_of_le hsize] at hsizeEq
  rw [UInt32.toNat_inj.mp hsizeEq] at hsizeUl
  have hmax : ¬ 0x7FFFFFFF < size.toUInt32 := by
    rw [UInt32.lt_iff_toNat_lt, Int32.toNat_toUInt32_of_le hsize]
    exact Nat.not_lt.mpr (Nat.le_of_lt_succ size.toNatClampNeg_lt)
  have hlast : h.get (nameField.off + 99) = 0 := by
    rw [get_of_read hmade.name (by decide), List.getD_eq_getElem?_getD, List.rightpad,
      List.append_assoc, List.getElem?_append_right hshort, List.singleton_append, ← List.replicate_succ,
      List.getElem?_replicate]
    split
    · rfl
    · rfl
  have htype : h.get typeflagField.off = type.byte :=
    get_of_read hmade.typeflag (by decide : 0 < typeflagField.len)
  have hstrip := strip_of_safe hsafe
  unfold ustarParseHeader
  simp only [hzero, hmade.magic, hmade.version, hname, hsumRead, hchksum, hlast, hmade.noPrefix, htype,
    hstrip, hdigitsRead, hsizeUl]
  rw [if_neg Bool.false_ne_true, if_neg (fun h => h rfl), if_neg (fun h => h rfl),
    if_neg (fun h => h rfl), if_neg (fun h => h.elim (· rfl) (· rfl))]
  cases type with
  | regular => exact if_neg hmax
  | directory => rfl

/-- What is parsed has a safe name. -/
theorem ustarParseHeader_safe {h : Header} {fileName : List UInt8} {type : UstarType} {size : Int32}
    (hparse : ustarParseHeader h = .ok (.entry fileName type size)) : Safe fileName := by
  have hstrip : ∃ s, fileName = stripAntisocialPrefixes s := by
    unfold ustarParseHeader at hparse
    split at hparse
    · cases hparse
    split at hparse
    · cases hparse
    split at hparse
    · cases hparse
    split at hparse
    · cases hparse
    split at hparse
    · cases hparse
    split at hparse
    · cases hparse
    split at hparse
    · cases hparse
    · cases hparse
      exact ⟨_, rfl⟩
    · split at hparse
      · cases hparse
      · split at hparse
        · cases hparse
        · cases hparse
          exact ⟨_, rfl⟩
  obtain ⟨s, rfl⟩ := hstrip
  exact strip_safe s

/-- What is made is parsed as it was made, but for the size of a directory, and only a name that is
too long is refused. -/
theorem ustar_round_trip {fileName : List UInt8} (type : UstarType) {size : Int32}
    (hstring : 0 ∉ fileName) (hsize : 0 ≤ size) :
    ((stripAntisocialPrefixes fileName).length ≤ 99 →
        ∃ h, ustarMakeHeader fileName type size = some (.ok h) ∧
          ustarParseHeader h = .ok (.entry (stripAntisocialPrefixes fileName) type
            (if type = .directory then 0 else size))) ∧
      (∀ h parsed type' size', ustarParseHeader h = .ok (.entry parsed type' size') → Safe parsed) ∧
      ((∃ line, ustarMakeHeader fileName type size = some (.error line)) ↔
        99 < (stripAntisocialPrefixes fileName).length) := by
  refine ⟨fun hshort => ?_, fun h parsed type' size' => ustarParseHeader_safe, fun hfails => ?_,
    fun hlong => ?_⟩
  · obtain ⟨h, hmake, hmade⟩ := ustarMakeHeader_made type hshort hsize
    exact ⟨h, hmake, ustarParseHeader_made hmade (strip_safe fileName) (strip_string hstring) hshort
      hsize⟩
  · by_contra hshort
    obtain ⟨line, hline⟩ := hfails
    obtain ⟨h, hmake, -⟩ := ustarMakeHeader_made type (Nat.le_of_not_lt hshort) hsize
    rw [hmake] at hline
    cases hline
  · exact ⟨_, ustarMakeHeader_long type size hlong⟩

theorem ustar_round_trip_a : ∃ h, ustarMakeHeader [46, 46, 47, 97] .regular 5 = some (.ok h) ∧
    ustarParseHeader h = .ok (.entry [97] .regular 5) :=
  (ustar_round_trip .regular (by decide) (by decide)).1 (by decide)

end CS162.Runtime
