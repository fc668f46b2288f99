/-
# `CS162.Hw2.Request` — `http_request_parse` in `hw2/libhttp.c`

`read` puts its bytes into `read_buffer` and the function a NUL after them.  A pointer into the
buffer is the part of it from there to that NUL; reading beyond, and more bytes than the buffer
has room for, is `none`.

Up to the first NUL the text is one of `IsRequest`, and then its method and path are returned,
or it is not, and NULL is (`httpRequestParse_iff`).
-/
import Mathlib.Data.List.TakeWhile

namespace CS162.Hw2

/-! ## The model -/

/-- `struct http_request`. -/
structure HttpRequest where
  method : List UInt8
  path : List UInt8
deriving DecidableEq

/-- `LIBHTTP_REQUEST_MAX_SIZE`. -/
def libhttpRequestMaxSize : Nat := 8192

/-- A loop `while (p (*read_end)) read_end++`. -/
def scanWhile (p : UInt8 → Bool) : List UInt8 → Option (List UInt8)
  | [] => none
  | c :: rest => if p c then scanWhile p rest else some (c :: rest)

/-- The `read_end - read_start` bytes from `read_start`. -/
def between (readStart readEnd : List UInt8) : List UInt8 :=
  readStart.take (readStart.length - readEnd.length)

/-- `[A-Z]`. -/
def isMethod (c : UInt8) : Bool := 65 ≤ c && c ≤ 90

/-- `[^ \\n]`, up to a NUL. -/
def isPath (c : UInt8) : Bool := c ≠ 0 && c ≠ 32 && c ≠ 10

/-- `.`, up to a NUL. -/
def isRest (c : UInt8) : Bool := c ≠ 0 && c ≠ 10

/-- `http_request_parse`, from the bytes that `read` gives: the request, or NULL. -/
def httpRequestParse (data : List UInt8) : Option (Option HttpRequest) :=
  if libhttpRequestMaxSize < data.length then none
  else do
    -- the method
    let readStart := data ++ [0]
    let readEnd ← scanWhile isMethod readStart
    let method := between readStart readEnd
    if method.length = 0 then return none
    -- a space
    let c ← readEnd.head?
    if c ≠ 32 then return none
    -- the path
    let readStart := readEnd.tail
    let readEnd ← scanWhile isPath readStart
    let path := between readStart readEnd
    if path.length = 0 then return none
    -- the rest of the line
    let readEnd ← scanWhile isRest readEnd
    let c ← readEnd.head?
    if c ≠ 10 then return none
    return some ⟨method, path⟩

/-! ## What is accepted -/

/-- A request line: a method, a space, a path and the rest, which begins with a space where there
is any, up to a newline; then anything. -/
def IsRequest (text : List UInt8) (r : HttpRequest) : Prop :=
  ∃ rest more, text = r.method ++ 32 :: (r.path ++ (rest ++ 10 :: more)) ∧
    r.method ≠ [] ∧ (∀ c ∈ r.method, 65 ≤ c ∧ c ≤ 90) ∧
    r.path ≠ [] ∧ (∀ c ∈ r.path, c ≠ 32 ∧ c ≠ 10) ∧
    10 ∉ rest ∧ ∀ c ∈ rest.head?, c = 32

section

variable {p : UInt8 → Bool} {text : List UInt8}

/-- A scan stops at the NUL at the latest. -/
theorem scanWhile_eq (hp : p 0 = false) (u junk : List UInt8) :
    scanWhile p (u ++ 0 :: junk) = some (u.dropWhile p ++ 0 :: junk) := by
  induction u with
  | nil =>
      rw [List.nil_append, scanWhile, if_neg (by rw [hp]; exact Bool.false_ne_true)]
      rfl
  | cons c u ih =>
      rw [List.cons_append, scanWhile]
      by_cases hc : p c = true
      · rw [if_pos hc, ih, List.dropWhile_cons_of_pos hc]
      · rw [if_neg hc, List.dropWhile_cons_of_neg hc]
        rfl

theorem between_eq (p : UInt8 → Bool) (u junk : List UInt8) :
    between (u ++ 0 :: junk) (u.dropWhile p ++ 0 :: junk) = u.takeWhile p := by
  have hlen := congrArg List.length (List.takeWhile_append_dropWhile (p := p) (l := u))
  rw [List.length_append] at hlen
  have hsize : (u ++ 0 :: junk).length - (u.dropWhile p ++ 0 :: junk).length =
      (u.takeWhile p).length := by
    rw [List.length_append, List.length_append]
    omega
  have hsplit : u ++ 0 :: junk = u.takeWhile p ++ (u.dropWhile p ++ 0 :: junk) := by
    rw [← List.append_assoc, List.takeWhile_append_dropWhile]
  unfold between
  rw [hsize, hsplit]
  exact List.take_left

/-- The text is what stands before the first NUL. -/
theorem text_split (data : List UInt8) : ∃ junk, data ++ [0] = data.takeWhile (· ≠ 0) ++ 0 :: junk := by
  induction data with
  | nil => exact ⟨[], rfl⟩
  | cons c data ih =>
      obtain ⟨junk, h⟩ := ih
      by_cases hc : c = 0
      · subst hc
        exact ⟨data ++ [0], rfl⟩
      · rw [List.takeWhile_cons_of_pos (by simpa using hc), List.cons_append, h]
        exact ⟨junk, rfl⟩

theorem takeWhile_all (p : UInt8 → Bool) (u : List UInt8) : ∀ c ∈ u.takeWhile p, p c = true :=
  fun _ hc => List.mem_takeWhile_imp hc

/-- Where a run of characters ends. -/
theorem run_eq {w : List UInt8} {c : UInt8} (hw : ∀ d ∈ w, p d = true) (hc : p c = false)
    (l : List UInt8) : (w ++ c :: l).takeWhile p = w ∧ (w ++ c :: l).dropWhile p = c :: l := by
  have hneg : ¬ p c = true := by rw [hc]; exact Bool.false_ne_true
  rw [List.takeWhile_append_of_pos hw, List.dropWhile_append_of_pos hw, List.takeWhile_cons_of_neg hneg,
    List.dropWhile_cons_of_neg hneg, List.append_nil]
  exact ⟨rfl, rfl⟩

/-- What the four stages find in a request. -/
structure Stages (text : List UInt8) (r : HttpRequest) (line more : List UInt8) : Prop where
  method : text.takeWhile isMethod = r.method
  space : text.dropWhile isMethod = 32 :: line
  path : line.takeWhile isPath = r.path
  newline : (line.dropWhile isPath).dropWhile isRest = 10 :: more

theorem isMethod_iff {c : UInt8} : isMethod c = true ↔ 65 ≤ c ∧ c ≤ 90 := by
  simp [isMethod]

theorem isPath_iff {c : UInt8} : isPath c = true ↔ c ≠ 0 ∧ c ≠ 32 ∧ c ≠ 10 := by
  simp [isPath, and_assoc]

theorem isRest_iff {c : UInt8} : isRest c = true ↔ c ≠ 0 ∧ c ≠ 10 := by
  simp [isRest]

/-- The requests are the texts that get through the stages. -/
theorem isRequest_iff {r : HttpRequest} (hclean : 0 ∉ text) :
    IsRequest text r ↔ r.method ≠ [] ∧ r.path ≠ [] ∧ ∃ line more, Stages text r line more := by
  constructor
  · rintro ⟨rest, more, htext, hm, hmethod, hp, hpath, hnl, hhead⟩
    have hzero : ∀ c, c ∈ r.method ++ 32 :: (r.path ++ (rest ++ 10 :: more)) → c ≠ 0 := by
      rintro c hc rfl
      rw [htext] at hclean
      exact hclean hc
    have hwm := run_eq (fun d hd => isMethod_iff.mpr (hmethod d hd)) (by decide : isMethod 32 = false)
      (r.path ++ (rest ++ 10 :: more))
    have hwp : ∀ d ∈ r.path, isPath d = true := fun d hd =>
      isPath_iff.mpr ⟨hzero d (by simp [hd]), hpath d hd⟩
    have hwr : ∀ d ∈ rest, isRest d = true := fun d hd =>
      isRest_iff.mpr ⟨hzero d (by simp [hd]), fun h => hnl (h ▸ hd)⟩
    -- what follows the path is a space or the newline
    obtain ⟨c, l, hl, hc⟩ : ∃ c l, rest ++ 10 :: more = c :: l ∧ isPath c = false := by
      cases rest with
      | nil => exact ⟨10, more, rfl, rfl⟩
      | cons c rest =>
          obtain rfl : c = 32 := hhead c rfl
          exact ⟨32, _, rfl, rfl⟩
    have hpathEq : (r.path ++ (rest ++ 10 :: more)).takeWhile isPath = r.path ∧
        (r.path ++ (rest ++ 10 :: more)).dropWhile isPath = rest ++ 10 :: more := by
      rw [hl]
      exact run_eq hwp hc l
    refine ⟨hm, hp, r.path ++ (rest ++ 10 :: more), more, htext ▸ hwm.1, htext ▸ hwm.2, hpathEq.1, ?_⟩
    rw [hpathEq.2]
    exact (run_eq hwr rfl more).2
  · rintro ⟨hm, hp, line, more, hmethod, hspace, hpath, hnewline⟩
    have htext : text = r.method ++ 32 :: line := by
      rw [← hmethod, ← hspace, List.takeWhile_append_dropWhile]
    have hline : line = r.path ++ line.dropWhile isPath := by
      rw [← hpath, List.takeWhile_append_dropWhile]
    have hrest : line.dropWhile isPath = (line.dropWhile isPath).takeWhile isRest ++ 10 :: more := by
      rw [← hnewline, List.takeWhile_append_dropWhile]
    refine ⟨(line.dropWhile isPath).takeWhile isRest, more, ?_, hm, ?_, hp, ?_, ?_, ?_⟩
    · rw [← hrest, ← hline]
      exact htext
    · rw [← hmethod]
      exact fun c hc => isMethod_iff.mp (takeWhile_all _ _ c hc)
    · rw [← hpath]
      exact fun c hc => (isPath_iff.mp (takeWhile_all _ _ c hc)).2
    · exact fun h10 => (isRest_iff.mp (takeWhile_all _ _ 10 h10)).2 rfl
    · intro c hc
      have hne : c ≠ 10 := (isRest_iff.mp (takeWhile_all _ _ c (List.mem_of_mem_head? hc))).2
      have hhead : (line.dropWhile isPath).head? = some c := by
        rw [hrest, List.head?_append, Option.mem_def.mp hc]
        rfl
      have hzero : c ≠ 0 := by
        rintro rfl
        refine hclean ?_
        rw [htext, hline]
        simp [List.mem_of_mem_head? hhead]
      have hstop : isPath c = false := by
        have hnot := List.head?_dropWhile_not isPath line
        rw [hhead] at hnot
        exact hnot
      by_contra h32
      rw [isPath_iff.mpr ⟨hzero, h32, hne⟩] at hstop
      cases hstop

/-- NULL, where some stage does not find what it looks for. -/
theorem reject_of (h : ∀ r line more, r.method ≠ [] → r.path ≠ [] → ¬ Stages text r line more) :
    ∃ result, (pure none : Option (Option HttpRequest)) = some result ∧
      ∀ r, result = some r ↔ r.method ≠ [] ∧ r.path ≠ [] ∧ ∃ line more, Stages text r line more := by
  refine ⟨none, rfl, fun r => iff_of_false (fun h => nomatch h) ?_⟩
  rintro ⟨hm, hp, line, more, hstages⟩
  exact h r line more hm hp hstages

/-- On the bytes of one `read`, the parser returns the request that the text is, and NULL where it is
none, and reads nothing beyond the NUL. -/
theorem httpRequestParse_iff {data : List UInt8} (hlen : data.length ≤ 8192) :
    ∃ result, httpRequestParse data = some result ∧
      ∀ r, result = some r ↔ IsRequest (data.takeWhile (· ≠ 0)) r := by
  obtain ⟨junk, hsplit⟩ := text_split data
  have hclean : 0 ∉ data.takeWhile (· ≠ 0) := fun h => absurd (takeWhile_all _ _ 0 h) (by decide)
  simp only [isRequest_iff hclean]
  unfold httpRequestParse
  rw [if_neg (Nat.not_lt.mpr (show data.length ≤ libhttpRequestMaxSize from hlen)), hsplit]
  generalize data.takeWhile (· ≠ 0) = text
  dsimp only [Option.bind_eq_bind]
  rw [scanWhile_eq rfl, Option.bind_some, between_eq]
  by_cases hm : text.takeWhile isMethod = []
  · rw [if_pos (by rw [hm]; rfl)]
    exact reject_of fun r line more hne _ hstages => hne (hstages.method ▸ hm)
  rw [if_neg (by rw [List.length_eq_zero_iff]; exact hm)]
  cases hd : text.dropWhile isMethod with
  | nil =>
      exact reject_of fun r line more _ _ hstages =>
        absurd (hd.symm.trans hstages.space) (List.cons_ne_nil _ _).symm
  | cons c line =>
      have hhead : (c :: line ++ 0 :: junk).head? = some c := rfl
      have htail : (c :: line ++ 0 :: junk).tail = line ++ 0 :: junk := rfl
      rw [hhead, htail, Option.bind_some]
      by_cases hc : c = 32
      · subst hc
        rw [if_neg (not_not.mpr rfl), scanWhile_eq rfl, Option.bind_some, between_eq]
        by_cases hp : line.takeWhile isPath = []
        · rw [if_pos (by rw [hp]; rfl)]
          refine reject_of fun r line' more _ hne hstages => hne ?_
          obtain rfl : line = line' := (List.cons.inj (hd.symm.trans hstages.space)).2
          exact hstages.path ▸ hp
        rw [if_neg (by rw [List.length_eq_zero_iff]; exact hp), scanWhile_eq rfl, Option.bind_some]
        cases hn : (line.dropWhile isPath).dropWhile isRest with
        | nil =>
            refine reject_of fun r line' more _ _ hstages => ?_
            obtain rfl : line = line' := (List.cons.inj (hd.symm.trans hstages.space)).2
            exact absurd (hn.symm.trans hstages.newline) (List.cons_ne_nil _ _).symm
        | cons c' more =>
            simp only [List.cons_append, List.head?_cons, Option.bind_some]
            by_cases hc' : c' = 10
            · subst hc'
              rw [if_neg (not_not.mpr rfl)]
              refine ⟨_, rfl, fun r => ⟨?_, ?_⟩⟩
              · intro hr
                obtain rfl := Option.some.inj hr
                exact ⟨hm, hp, line, more, rfl, hd, rfl, hn⟩
              · rintro ⟨-, -, line', more', hstages⟩
                obtain rfl : line = line' := (List.cons.inj (hd.symm.trans hstages.space)).2
                obtain ⟨method, path⟩ := r
                rw [hstages.method, hstages.path]
            · rw [if_pos hc']
              refine reject_of fun r line' more' _ _ hstages => ?_
              obtain rfl : line = line' := (List.cons.inj (hd.symm.trans hstages.space)).2
              exact hc' (List.cons.inj (hn.symm.trans hstages.newline)).1
      · rw [if_pos hc]
        exact reject_of fun r line' more _ _ hstages =>
          hc (List.cons.inj (hd.symm.trans hstages.space)).1

/-- `GET / HTTP`. -/
theorem httpRequestParse_iff_get : ∃ result,
    httpRequestParse [71, 69, 84, 32, 47, 32, 72, 84, 84, 80, 10] = some result ∧
      ∀ r, result = some r ↔ IsRequest [71, 69, 84, 32, 47, 32, 72, 84, 84, 80, 10] r :=
  have hlen : [71, 69, 84, 32, 47, 32, 72, 84, 84, 80, (10 : UInt8)].length ≤ 8192 := by decide
  httpRequestParse_iff hlen

end

end CS162.Hw2
