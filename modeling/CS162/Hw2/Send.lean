/-
# `CS162.Hw2.Send` — `send_file_to_fd` in `hw2/httpserver.c`

The file is sent as the reads cut it into chunks and the writes take parts of them.  What the calls
return is given: a `write` is ready for so many bytes or fails, and `Reads` says which results `read`
can have on a file.

`send_file_to_fd` sends the whole buffer after every `read`.  So the body is the file, and as long
as announced, only where every `read` fills the buffer and the size is an `int` (`serve_exact_iff`).
-/
import Mathlib.Data.List.Basic
import Mathlib.Tactic.Ring

namespace CS162.Hw2

/-! ## The model -/

/-- `http_send_data`: what is sent, and the writes that are left.  It is still waiting for a `write`
where the result is `none`. -/
def httpSendData : List Int → List UInt8 → Option (List UInt8 × List Int)
  | writes, [] => some ([], writes)
  | [], _ :: _ => none
  | bytesSent :: writes, c :: data =>
      if bytesSent < 0 then some ([], writes)
      else do
        let (out, writes) ← httpSendData writes ((c :: data).drop bytesSent.toNat)
        return ((c :: data).take bytesSent.toNat ++ out, writes)

/-- `sizeof(temp_buff)` in `send_file_to_fd`. -/
def buffSize : Nat := 100000

/-- The loop of `send_file_to_fd`, on what is in the buffer and what is left of the file. -/
def sendFileLoop : List Int → List Int → List UInt8 → List UInt8 → Option (List UInt8)
  | [], _, _, _ => none
  | r :: reads, writes, buff, file =>
      if 0 < r then do
        let buff := file.take r.toNat ++ buff.drop r.toNat
        let (out, writes) ← httpSendData writes buff
        let rest ← sendFileLoop reads writes buff (file.drop r.toNat)
        return out ++ rest
      else some []

/-- `send_file_to_fd`; the buffer holds what was on the stack. -/
def sendFileToFd (reads writes : List Int) (stack file : List UInt8) : Option (List UInt8) :=
  sendFileLoop reads writes stack file

/-- `file_size`, which is what the header `Content-Length` says. -/
def fileSize (stSize : Nat) : Int32 := Int32.ofNat stSize

/-- The ways to read a file to its end. -/
inductive Reads : List Int → List UInt8 → Prop
  | eof : Reads [0] []
  | chunk {r : Nat} {reads : List Int} {file : List UInt8} : 0 < r → r ≤ buffSize → r ≤ file.length →
      Reads reads (file.drop r) → Reads (r :: reads) file

/-! ## What is sent -/

section

variable {reads writes : List Int} {data file buff : List UInt8}

/-- When no `write` fails, all is sent. -/
theorem httpSendData_all (hwrites : ∀ w ∈ writes, 0 < w) (henough : data.length ≤ writes.length) :
    ∃ left, httpSendData writes data = some (data, left) ∧ (∀ w ∈ left, 0 < w) ∧
      writes.length ≤ left.length + data.length := by
  induction writes generalizing data with
  | nil =>
      obtain rfl := List.eq_nil_of_length_eq_zero (Nat.le_zero.mp henough)
      exact ⟨[], by rw [httpSendData], (fun w hw => nomatch hw), Nat.le_refl 0⟩
  | cons w writes ih =>
      cases data with
      | nil => exact ⟨w :: writes, by rw [httpSendData], hwrites, Nat.le_refl _⟩
      | cons c data =>
          have hw := hwrites w List.mem_cons_self
          have hlen := List.length_drop (i := w.toNat) (l := c :: data)
          rw [List.length_cons] at hlen henough
          rw [List.length_cons] at henough
          have hshort : ((c :: data).drop w.toNat).length ≤ writes.length := by omega
          obtain ⟨left, hsend, hleft, hcount⟩ :=
            ih (fun v hv => hwrites v (List.mem_cons_of_mem _ hv)) hshort
          refine ⟨left, ?_, hleft, ?_⟩
          · rw [httpSendData, if_neg (by omega), hsend]
            show some ((c :: data).take w.toNat ++ (c :: data).drop w.toNat, left) = _
            rw [List.take_append_drop]
          · rw [List.length_cons, List.length_cons]
            omega

/-- A call that has returned and whose writes did not fail has sent all. -/
theorem httpSendData_eq {out : List UInt8} {left : List Int} (hwrites : ∀ w ∈ writes, 0 ≤ w)
    (hsend : httpSendData writes data = some (out, left)) : out = data := by
  induction writes generalizing data out left with
  | nil =>
      cases data with
      | nil =>
          rw [httpSendData] at hsend
          exact (congrArg Prod.fst (Option.some.inj hsend)).symm
      | cons c data => exact nomatch hsend
  | cons w writes ih =>
      cases data with
      | nil =>
          rw [httpSendData] at hsend
          exact (congrArg Prod.fst (Option.some.inj hsend)).symm
      | cons c data =>
          have hw := hwrites w List.mem_cons_self
          rw [httpSendData, if_neg (by omega), Option.bind_eq_bind, Option.bind_eq_some_iff] at hsend
          obtain ⟨⟨out', left'⟩, hrest, heq⟩ := hsend
          have hout := ih (fun v hv => hwrites v (List.mem_cons_of_mem _ hv)) hrest
          obtain ⟨rfl, -⟩ := Prod.mk.inj (Option.some.inj heq)
          rw [hout, List.take_append_drop]

/-- The file goes out in whole buffers, and is what goes out where the reads fill them. -/
theorem sendFileLoop_spec (hreads : Reads reads file) (hbuff : buff.length = buffSize)
    (hwrites : ∀ w ∈ writes, 0 < w) (henough : buffSize * reads.length ≤ writes.length) :
    ∃ out, sendFileLoop reads writes buff file = some out ∧ file.length ≤ out.length ∧
      ((∀ r ∈ reads, r = 0 ∨ r = buffSize) → out = file) ∧
      (out.length = file.length → ∀ r ∈ reads, r = 0 ∨ r = buffSize) := by
  induction hreads generalizing writes buff with
  | eof =>
      refine ⟨[], rfl, Nat.le_refl 0, fun _ => rfl, fun _ r hr => .inl (List.mem_singleton.mp hr)⟩
  | @chunk r reads file hpos hle hlen _ ih =>
      have hnew : (file.take r ++ buff.drop r).length = buffSize := by
        rw [List.length_append, List.length_take, List.length_drop]
        omega
      have hmul : buffSize * ((r : Int) :: reads).length = buffSize * reads.length + buffSize := by
        rw [List.length_cons, Nat.mul_succ]
      have hroom : (file.take r ++ buff.drop r).length ≤ writes.length := by omega
      obtain ⟨left, hsend, hleft, hcount⟩ := httpSendData_all hwrites hroom
      obtain ⟨out, hout, hge, hfull, hexact⟩ := ih hnew hleft (by omega)
      have hdrop := List.length_drop (i := r) (l := file)
      refine ⟨file.take r ++ buff.drop r ++ out, ?_, ?_, fun hall => ?_, fun heq => ?_⟩
      · rw [sendFileLoop, if_pos (by omega)]
        show (httpSendData writes (file.take r ++ buff.drop r)).bind _ = _
        rw [hsend]
        show (sendFileLoop reads left (file.take r ++ buff.drop r) (file.drop r)).bind _ = _
        rw [hout]
        rfl
      · rw [List.length_append, hnew]
        omega
      · have hr : r = buffSize := by
          rcases hall r List.mem_cons_self with h | h <;> omega
        rw [hfull fun v hv => hall v (List.mem_cons_of_mem _ hv), List.drop_eq_nil_of_le (by omega),
          List.append_nil, List.take_append_drop]
      · rw [List.length_append, hnew] at heq
        intro v hv
        rcases List.mem_cons.mp hv with rfl | hv
        · exact .inr (by omega)
        · exact hexact (by omega) v hv

end

/-- The body is the file and as long as announced if and only if every `read` fills the buffer and
the size is an `int`. -/
theorem serve_exact_iff {reads writes : List Int} {stack file : List UInt8} (hreads : Reads reads file)
    (hstack : stack.length = buffSize) (hwrites : ∀ w ∈ writes, 0 < w)
    (henough : buffSize * reads.length ≤ writes.length) :
    ∃ out, sendFileToFd reads writes stack file = some out ∧
      ((out = file ∧ (out.length : Int) = (fileSize file.length).toInt) ↔
        (∀ r ∈ reads, r = 0 ∨ r = buffSize) ∧ file.length < 2 ^ 31) := by
  obtain ⟨out, hout, -, hfull, hexact⟩ := sendFileLoop_spec hreads hstack hwrites henough
  have hsize : (fileSize file.length).toInt = (file.length : Int).bmod (2 ^ 32) := Int32.toInt_ofNat'
  refine ⟨out, hout, ?_⟩
  rw [hsize]
  constructor
  · rintro ⟨rfl, hlen⟩
    have hbmod := hlen.symm
    rw [Int.bmod_eq_iff (by decide)] at hbmod
    exact ⟨hexact rfl, by omega⟩
  · rintro ⟨hall, hlen⟩
    obtain rfl := hfull hall
    exact ⟨rfl, (Int.bmod_eq_of_le (by omega) (by omega)).symm⟩

/-- With writes of at most 700 bytes, a file of 100000 bytes goes out as it is, and one of 100001
bytes does not: the second `read` has one byte. -/
theorem serve_exact_iff_buffer :
    (∃ out, sendFileToFd [100000, 0] (List.replicate 300000 700) (List.replicate 100000 0)
        (List.replicate 100000 7) = some out ∧
      out = List.replicate 100000 7 ∧ (out.length : Int) = (fileSize 100000).toInt) ∧
    ∃ out, sendFileToFd [100000, 1, 0] (List.replicate 300000 700) (List.replicate 100000 0)
        (List.replicate 100001 7) = some out ∧
      ¬ (out = List.replicate 100001 7 ∧ (out.length : Int) = (fileSize 100001).toInt) := by
  have hwrites : ∀ w ∈ List.replicate 300000 (700 : Int), 0 < w := by
    intro w hw
    rw [List.eq_of_mem_replicate hw]
    decide
  have hstack : (List.replicate 100000 (0 : UInt8)).length = buffSize := List.length_replicate
  have hfull : Reads [(100000 : Nat), 0] (List.replicate 100000 7) := by
    refine .chunk (by decide) (by decide) List.length_replicate.ge ?_
    rw [List.drop_replicate]
    exact .eof
  have hmore : Reads [(100000 : Nat), (1 : Nat), 0] (List.replicate 100001 7) := by
    refine .chunk (by decide) (by decide) (by rw [List.length_replicate]; decide) ?_
    rw [List.drop_replicate]
    exact .chunk (by decide) (by decide) (by decide) .eof
  constructor
  · obtain ⟨out, hout, hiff⟩ :=
      serve_exact_iff hfull hstack hwrites (by rw [List.length_replicate]; decide)
    rw [List.length_replicate] at hiff
    exact ⟨out, hout, hiff.mpr ⟨by decide, by decide⟩⟩
  · obtain ⟨out, hout, hiff⟩ :=
      serve_exact_iff hmore hstack hwrites (by rw [List.length_replicate]; decide)
    rw [List.length_replicate] at hiff
    refine ⟨out, hout, fun h => absurd ((hiff.mp h).1 1 ?_) (by decide)⟩
    exact List.mem_cons_of_mem _ List.mem_cons_self

/-- A file of one byte goes out as the whole buffer. -/
theorem serve_one_byte : ¬ ∀ (reads writes : List Int) (stack file : List UInt8), Reads reads file →
    stack.length = buffSize → (∀ w ∈ writes, 0 < w) → buffSize * reads.length ≤ writes.length →
      ∃ out, sendFileToFd reads writes stack file = some out ∧ out = file ∧
        (out.length : Int) = (fileSize file.length).toInt := by
  intro hall
  have hreads : Reads [(1 : Nat), 0] [65] := .chunk (by decide) (by decide) (by decide) .eof
  have hstack : (List.replicate buffSize (0 : UInt8)).length = buffSize := List.length_replicate
  have hwrites : ∀ w ∈ List.replicate (buffSize * 2) (1 : Int), 0 < w := by
    intro w hw
    rw [List.eq_of_mem_replicate hw]
    decide
  have henough : buffSize * ([(1 : Nat), 0] : List Int).length ≤
      (List.replicate (buffSize * 2) (1 : Int)).length := by
    rw [List.length_replicate]
    exact Nat.le_refl _
  obtain ⟨out, hout, heq, -⟩ := hall _ _ _ _ hreads hstack hwrites henough
  obtain ⟨out', hout', -, -, hexact⟩ := sendFileLoop_spec hreads hstack hwrites henough
  obtain rfl := Option.some.inj (hout.symm.trans hout')
  rcases hexact (congrArg List.length heq) 1 List.mem_cons_self with h | h
  · exact absurd h (by decide)
  · exact absurd h (by decide)

end CS162.Hw2
