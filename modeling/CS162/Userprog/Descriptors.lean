/-
# `CS162.Userprog.Descriptors` — file descriptors

`thread_assign_fd`, `thread_get_file` and `thread_close_fd` on the memory around `fd_map`.
C does not check an index into `fd_map`, and `next_fd` is the word behind its 128: it is
`fd_map[128]`.  So when all of the 126 descriptors are in use, the next file is stored in
`next_fd`, and where the file after that is stored depends on its address.
`descriptors_unique_iff` says that this is all that can go wrong.
-/
import Mathlib.Algebra.Group.Nat.Defs
import Mathlib.Data.List.Basic
import Mathlib.Logic.Function.Basic

namespace CS162.Userprog

namespace Descriptors

/-- The memory by words, from `fd_map` of the running thread on.  There are 2^30. -/
structure Thread where
  word : Nat → UInt32

/-- Where `fd_map[fd]` is. -/
def slot (fd : Int32) : Nat := fd.toUInt32.toNat % 2 ^ 30

def nextFdSlot : Nat := 128

namespace Thread

variable (t : Thread)

def fdMap (fd : Int32) : UInt32 := t.word (slot fd)

def setFdMap (fd : Int32) (f : UInt32) : Thread := ⟨Function.update t.word (slot fd) f⟩

def nextFd : Int32 := (t.word nextFdSlot).toInt32

def setNextFd (fd : Int32) : Thread := ⟨Function.update t.word nextFdSlot fd.toUInt32⟩

/-- The loop, with so many descriptors left. -/
def scan : Nat → Int32
  | 0 => 128
  | n + 1 => if t.fdMap (.ofNat (127 - n)) ≠ 0 then scan n else .ofNat (127 - n)

/-- `thread_assign_fd`. -/
def assignFd (f : UInt32) : Int32 × Thread :=
  if t.nextFd < 128 then (t.nextFd, (t.setNextFd (t.nextFd + 1)).setFdMap t.nextFd f)
  else (t.scan 126, t.setFdMap (t.scan 126) f)

/-- `thread_get_file`. -/
def getFile (fd : Int32) : UInt32 := if fd < 2 ∨ 128 ≤ fd then 0 else t.fdMap fd

/-- `thread_close_fd`. -/
def closeFd (fd : Int32) : UInt32 × Thread :=
  if fd < 2 ∨ 128 ≤ fd then (0, t) else (t.fdMap fd, t.setFdMap fd 0)

end Thread

/-- What `init_thread` makes of the memory. -/
def initThread (word : Nat → UInt32) : Thread :=
  ⟨fun i => if i < 128 then 0 else if i = nextFdSlot then 2 else word i⟩

inductive Call where
  | assign (f : UInt32)
  | close (fd : Int32)

def call (t : Thread) : Call → Thread
  | .assign f => (t.assignFd f).2
  | .close fd => (t.closeFd fd).2

/-- A call that was made. -/
structure Entry where
  before : Thread
  call : Call
  after : Thread

inductive Run : List Entry → Thread → Prop where
  | nil (word : Nat → UInt32) : Run [] (initThread word)
  | snoc {t : Thread} {tr : List Entry} (c : Call) : Run tr t → Run (tr ++ [⟨t, c, call t c⟩]) (call t c)

/-! ## What is wanted -/

/-- All descriptors are in use, which is to say that they
are not null: `open` assigns no null pointer. -/
def Full (t : Thread) : Prop := ∀ fd : Int32, 2 ≤ fd → fd < 128 → t.getFile fd ≠ 0

/-- Nothing changed in the memory but what is behind the descriptor, and `next_fd`. -/
def SameBut (fd : Int32) (t t' : Thread) : Prop :=
  ∀ i, i ≠ slot fd → i ≠ nextFdSlot → t'.word i = t.word i

/-- A descriptor was assigned that had not been. -/
structure Assigned (t : Thread) (f : UInt32) (fd : Int32) (t' : Thread) : Prop where
  low : 2 ≤ fd
  high : fd < 128
  unused : t.getFile fd = 0
  file : t'.getFile fd = f
  rest : SameBut fd t t'

/-- The failure to assign one is reported. -/
structure Refused (t : Thread) (fd : Int32) (t' : Thread) : Prop where
  full : Full t
  error : fd < 0
  rest : ∀ i, i ≠ nextFdSlot → t'.word i = t.word i

structure Closed (t : Thread) (fd : Int32) (f : UInt32) (t' : Thread) : Prop where
  returned : f = t.getFile fd
  unused : t'.getFile fd = 0
  rest : SameBut fd t t'

def Entry.Right (y : Entry) : Prop :=
  match y.call with
  | .assign f => Assigned y.before f (y.before.assignFd f).1 y.after ∨
      Refused y.before (y.before.assignFd f).1 y.after
  | .close fd => Closed y.before fd (y.before.closeFd fd).1 y.after

/-- The file behind a descriptor after one more call. -/
def Entry.behind (fd : Int32) (f : UInt32) (y : Entry) : UInt32 :=
  match y.call with
  | .assign g => if fd = (y.before.assignFd g).1 then g else f
  | .close c => if fd = c then 0 else f

/-- The file that was assigned the descriptor last and has not been closed. -/
def behind (tr : List Entry) (fd : Int32) : UInt32 := tr.foldl (Entry.behind fd) 0

/-- A file is assigned a descriptor only if there is one. -/
def Entry.HasRoom (y : Entry) : Prop := ∀ f, y.call = .assign f → ¬ Full y.before

variable {t t' : Thread} {tr : List Entry} {fd : Int32} {f : UInt32} {i n : Nat}

/-! ## Slots -/

theorem toInt_two : (2 : Int32).toInt = 2 := rfl

theorem toInt_limit : (128 : Int32).toInt = 128 := rfl

theorem toInt_ofNat (hi : i ≤ 128) : (Int32.ofNat i).toInt = i :=
  Int32.toInt_ofNat_of_lt (by omega)

theorem slot_ofNat (hi : i ≤ 128) : slot (.ofNat i) = i := by
  have h : ∀ i < 129, slot (.ofNat i) = i := by decide
  exact h i (by omega)

theorem two_le_ofNat (hlow : 2 ≤ i) (hi : i ≤ 128) : (2 : Int32) ≤ .ofNat i := by
  rw [Int32.le_iff_toInt_le, toInt_ofNat hi, toInt_two]
  exact_mod_cast hlow

theorem ofNat_lt_iff (hi : i ≤ 128) : Int32.ofNat i < 128 ↔ i < 128 := by
  rw [Int32.lt_iff_toInt_lt, toInt_ofNat hi, toInt_limit]
  omega

/-- The descriptors are the numbers from 2 to 127. -/
theorem exists_ofNat (hlow : 2 ≤ fd) (hhigh : fd < 128) : ∃ i, 2 ≤ i ∧ i < 128 ∧ fd = .ofNat i := by
  rw [Int32.le_iff_toInt_le, toInt_two] at hlow
  rw [Int32.lt_iff_toInt_lt, toInt_limit] at hhigh
  refine ⟨fd.toInt.toNat, by omega, by omega, Int32.toInt_inj.mp ?_⟩
  rw [toInt_ofNat (by omega)]
  omega

theorem getFile_ofNat (hlow : 2 ≤ i) (hi : i < 128) : t.getFile (.ofNat i) = t.word i := by
  have hout : ¬ ((Int32.ofNat i) < 2 ∨ 128 ≤ Int32.ofNat i) := by
    rw [not_or, Int32.not_lt, Int32.not_le]
    exact ⟨two_le_ofNat hlow (Nat.le_of_lt hi), (ofNat_lt_iff (Nat.le_of_lt hi)).mpr hi⟩
  unfold Thread.getFile Thread.fdMap
  rw [if_neg hout, slot_ofNat (Nat.le_of_lt hi)]

theorem full_iff : Full t ↔ ∀ i, 2 ≤ i → i < 128 → t.word i ≠ 0 := by
  constructor
  · intro hfull i hlow hi
    rw [← getFile_ofNat hlow hi]
    exact hfull _ (two_le_ofNat hlow (Nat.le_of_lt hi)) ((ofNat_lt_iff (Nat.le_of_lt hi)).mpr hi)
  · intro h fd hlow hhigh
    obtain ⟨i, hi₂, hi, rfl⟩ := exists_ofNat hlow hhigh
    rw [getFile_ofNat hi₂ hi]
    exact h i hi₂ hi

theorem getFile_out (h : fd < 2 ∨ 128 ≤ fd) : t.getFile fd = 0 := if_pos h

/-- Every descriptor is one of the 126 or none. -/
theorem fd_cases (fd : Int32) : (∃ i, 2 ≤ i ∧ i < 128 ∧ fd = .ofNat i) ∨ fd < 2 ∨ 128 ≤ fd := by
  by_cases hlow : fd < 2
  · exact .inr (.inl hlow)
  · by_cases hhigh : 128 ≤ fd
    · exact .inr (.inr hhigh)
    · exact .inl (exists_ofNat (Int32.not_lt.mp hlow) (Int32.not_le.mp hhigh))

theorem ofNat_inj {j : Nat} (hi : i ≤ 128) (hj : j ≤ 128) (h : Int32.ofNat i = .ofNat j) : i = j := by
  rw [← slot_ofNat hi, ← slot_ofNat hj, h]

/-! ## Calls -/

/-- The loop stops at the first descriptor that is not in use. -/
theorem scan_spec (hn : n ≤ 126) (hused : ∀ i, 2 ≤ i → i < 128 - n → t.word i ≠ 0) :
    ∃ i, 2 ≤ i ∧ i ≤ 128 ∧ t.scan n = .ofNat i ∧ (∀ j, 2 ≤ j → j < i → t.word j ≠ 0) ∧
      (i < 128 → t.word i = 0) := by
  induction n with
  | zero => exact ⟨128, by omega, by omega, rfl, hused, fun h => absurd h (by omega)⟩
  | succ n ih =>
      have hword : t.fdMap (.ofNat (127 - n)) = t.word (127 - n) := by
        unfold Thread.fdMap
        rw [slot_ofNat (by omega)]
      unfold Thread.scan
      rw [hword]
      split_ifs with hzero
      · refine ih (by omega) fun i hlow hi => ?_
        by_cases hlast : i = 127 - n
        · rw [hlast]
          exact hzero
        · exact hused i hlow (by omega)
      · exact ⟨127 - n, by omega, by omega, rfl, fun j hlow hj => hused j hlow (by omega),
          fun _ => not_not.mp hzero⟩

/-- The descriptors from `next_fd` on have not been assigned yet. -/
def Inv (t : Thread) : Prop :=
  ∃ n, 2 ≤ n ∧ n ≤ 128 ∧ t.word nextFdSlot = .ofNat n ∧ ∀ i, n ≤ i → i < 128 → t.word i = 0

theorem inv_init (word : Nat → UInt32) : Inv (initThread word) :=
  ⟨2, by omega, by omega, rfl, fun _ _ hi => if_pos hi⟩

theorem nextFd_eq (h : t.word nextFdSlot = .ofNat n) : t.nextFd = .ofNat n := by
  unfold Thread.nextFd
  rw [h]
  rfl

/-- The descriptors are handed out in turn at first. -/
theorem assign_next (hnext : t.word nextFdSlot = .ofNat n) (hn : n < 128) : t.assignFd f =
    (.ofNat n, ⟨Function.update (Function.update t.word nextFdSlot (.ofNat (n + 1))) n f⟩) := by
  have hsucc : (Int32.ofNat n + 1).toUInt32 = .ofNat (n + 1) := (UInt32.ofNat_add n 1).symm
  unfold Thread.assignFd Thread.setFdMap Thread.setNextFd
  rw [nextFd_eq hnext, if_pos ((ofNat_lt_iff (Nat.le_of_lt hn)).mpr hn), hsucc,
    slot_ofNat (Nat.le_of_lt hn)]

theorem assign_scan (hnext : t.word nextFdSlot = .ofNat 128) (hscan : t.scan 126 = .ofNat i)
    (hi : i ≤ 128) : t.assignFd f = (.ofNat i, ⟨Function.update t.word i f⟩) := by
  unfold Thread.assignFd Thread.setFdMap
  rw [nextFd_eq hnext, if_neg (by decide), hscan, slot_ofNat hi]

/-- An assignment, and where it goes if no descriptor is left. -/
structure Assigns (t : Thread) (f : UInt32) (i : Nat) : Prop where
  low : 2 ≤ i
  high : i ≤ 128
  fd : (t.assignFd f).1 = .ofNat i
  unused : i < 128 → t.word i = 0
  full : i = 128 → Full t
  file : (t.assignFd f).2.word i = f
  rest : ∀ j, j ≠ i → j ≠ nextFdSlot → (t.assignFd f).2.word j = t.word j
  inv : i < 128 → Inv (t.assignFd f).2

theorem nextFdSlot_ne (hi : i < 128) : nextFdSlot ≠ i := by
  unfold nextFdSlot
  omega

/-- `thread_assign_fd` takes a slot that is free, or, when there is none, writes behind the array. -/
theorem assignFd_spec (h : Inv t) (f : UInt32) : ∃ i, Assigns t f i := by
  obtain ⟨n, hlow, hhigh, hnext, hfresh⟩ := h
  by_cases hn : n < 128
  · have hassign := assign_next (f := f) hnext hn
    have hrest : ∀ j, j ≠ n → j ≠ nextFdSlot → (t.assignFd f).2.word j = t.word j := fun j hj hj' => by
      rw [hassign]
      exact (Function.update_of_ne hj ..).trans (Function.update_of_ne hj' ..)
    have hfile : (t.assignFd f).2.word n = f := by
      rw [hassign]
      exact Function.update_self ..
    refine ⟨n, hlow, hhigh, by rw [hassign], fun _ => hfresh n (Nat.le_refl n) hn,
      fun heq => absurd heq (by omega), hfile, hrest, fun _ => ?_⟩
    refine ⟨n + 1, by omega, by omega, ?_, fun i hi hi' => ?_⟩
    · rw [hassign]
      exact (Function.update_of_ne (nextFdSlot_ne hn) ..).trans (Function.update_self ..)
    · rw [hrest i (by omega) (nextFdSlot_ne hi').symm]
      exact hfresh i (by omega) hi'
  · obtain rfl : n = 128 := by omega
    obtain ⟨i, hlow, hhigh, hscan, hused, hzero⟩ :=
      scan_spec (t := t) (n := 126) (by omega) fun i hlow hi => absurd hlow (by omega)
    have hassign := assign_scan (f := f) hnext hscan hhigh
    have hrest : ∀ j, j ≠ i → (t.assignFd f).2.word j = t.word j := fun j hj => by
      rw [hassign]
      exact Function.update_of_ne hj ..
    have hfile : (t.assignFd f).2.word i = f := by
      rw [hassign]
      exact Function.update_self ..
    refine ⟨i, hlow, hhigh, by rw [hassign], hzero, fun heq => full_iff.mpr (heq ▸ hused), hfile,
      fun j hj _ => hrest j hj, fun hi => ⟨128, by omega, by omega, ?_, fun _ _ _ => by omega⟩⟩
    rw [hrest nextFdSlot (nextFdSlot_ne hi)]
    exact hnext

theorem not_out (hlow : 2 ≤ i) (hi : i < 128) : ¬ (Int32.ofNat i < 2 ∨ 128 ≤ Int32.ofNat i) := by
  rw [not_or, Int32.not_lt, Int32.not_le]
  exact ⟨two_le_ofNat hlow (Nat.le_of_lt hi), (ofNat_lt_iff (Nat.le_of_lt hi)).mpr hi⟩

theorem closeFd_in (hlow : 2 ≤ i) (hi : i < 128) :
    t.closeFd (.ofNat i) = (t.word i, ⟨Function.update t.word i 0⟩) := by
  unfold Thread.closeFd Thread.setFdMap Thread.fdMap
  rw [if_neg (not_out hlow hi), slot_ofNat (Nat.le_of_lt hi)]

theorem closeFd_out (h : fd < 2 ∨ 128 ≤ fd) : t.closeFd fd = (0, t) := if_pos h

/-- A close is right whatever the descriptor is. -/
theorem closeFd_closed (t : Thread) (fd : Int32) : Closed t fd (t.closeFd fd).1 (t.closeFd fd).2 := by
  rcases fd_cases fd with ⟨i, hlow, hi, rfl⟩ | hout
  · rw [closeFd_in hlow hi]
    refine ⟨(getFile_ofNat hlow hi).symm, ?_, fun j hj _ => ?_⟩
    · rw [getFile_ofNat hlow hi]
      exact Function.update_self ..
    · rw [slot_ofNat (Nat.le_of_lt hi)] at hj
      exact Function.update_of_ne hj ..
  · rw [closeFd_out hout]
    exact ⟨(getFile_out hout).symm, getFile_out hout, fun _ _ _ => rfl⟩

theorem Inv.closeFd (h : Inv t) (fd : Int32) : Inv (t.closeFd fd).2 := by
  obtain ⟨n, hlow, hhigh, hnext, hfresh⟩ := h
  rcases fd_cases fd with ⟨i, hi₂, hi, rfl⟩ | hout
  · rw [closeFd_in hi₂ hi]
    refine ⟨n, hlow, hhigh, ?_, fun j hj hj' => ?_⟩
    · exact (Function.update_of_ne (nextFdSlot_ne hi) ..).trans hnext
    · by_cases hji : j = i
      · rw [hji]
        exact Function.update_self ..
      · exact (Function.update_of_ne hji ..).trans (hfresh j hj hj')
  · rw [closeFd_out hout]
    exact ⟨n, hlow, hhigh, hnext, hfresh⟩

/-- What a call leaves behind a descriptor. -/
theorem getFile_of_rest {u : Int32} (h : SameBut u t t') (hne : fd ≠ u) (hu : 2 ≤ u) (hu' : u < 128) :
    t'.getFile fd = t.getFile fd := by
  obtain ⟨k, hk₂, hk, rfl⟩ := exists_ofNat hu hu'
  rcases fd_cases fd with ⟨i, hi₂, hi, rfl⟩ | hout
  · rw [getFile_ofNat hi₂ hi, getFile_ofNat hi₂ hi]
    refine h i ?_ (nextFdSlot_ne hi).symm
    rw [slot_ofNat (Nat.le_of_lt hk)]
    exact fun he => hne (congrArg Int32.ofNat he)
  · rw [getFile_out hout, getFile_out hout]

/-! ## Runs -/

/-- With a descriptor left, an assignment is right and leaves the invariant. -/
theorem assign_right (h : Inv t) (hroom : ¬ Full t) :
    Assigned t f (t.assignFd f).1 (t.assignFd f).2 ∧ Inv (t.assignFd f).2 := by
  obtain ⟨i, hassigns⟩ := assignFd_spec h f
  have hlow := hassigns.low
  have hi : i < 128 := by
    have hne : i ≠ 128 := fun he => hroom (hassigns.full he)
    have hhigh := hassigns.high
    omega
  refine ⟨?_, hassigns.inv hi⟩
  rw [hassigns.fd]
  refine ⟨two_le_ofNat hlow (Nat.le_of_lt hi), (ofNat_lt_iff (Nat.le_of_lt hi)).mpr hi, ?_, ?_, ?_⟩
  · rw [getFile_ofNat hlow hi]
    exact hassigns.unused hi
  · rw [getFile_ofNat hlow hi]
    exact hassigns.file
  · intro j hj hj'
    rw [slot_ofNat (Nat.le_of_lt hi)] at hj
    exact hassigns.rest j hj hj'

/-- With none left, the file is stored in `next_fd`. -/
theorem assign_full (h : Inv t) (hfull : Full t) :
    (t.assignFd f).1 = 128 ∧ (t.assignFd f).2.nextFd = f.toInt32 := by
  obtain ⟨i, hassigns⟩ := assignFd_spec h f
  have hlow := hassigns.low
  have hhigh := hassigns.high
  obtain rfl : i = 128 := by
    by_contra hne
    have hi : i < 128 := by omega
    exact full_iff.mp hfull i hlow hi (hassigns.unused hi)
  exact ⟨hassigns.fd, congrArg UInt32.toInt32 hassigns.file⟩

/-- A call does what it should exactly when there is a slot
for its file; `thread_close_fd` needs none. -/
theorem call_right_iff {c : Call} (h : Inv t) :
    (⟨t, c, call t c⟩ : Entry).Right ↔ (⟨t, c, call t c⟩ : Entry).HasRoom := by
  cases c with
  | assign f =>
      constructor
      · rintro hright g - hfull
        obtain ⟨hfd, -⟩ := assign_full (f := f) h hfull
        rcases hright with hassigned | hrefused
        · have hhigh := hassigned.high
          rw [hfd] at hhigh
          exact absurd hhigh (by decide)
        · have herror := hrefused.error
          rw [hfd] at herror
          exact absurd herror (by decide)
      · intro hroom
        exact .inl (assign_right h (hroom f rfl)).1
  | close fd => exact iff_of_true (closeFd_closed t fd) fun _ h => Call.noConfusion h

theorem Inv.call {c : Call} (h : Inv t) (hroom : (⟨t, c, Descriptors.call t c⟩ : Entry).HasRoom) :
    Inv (Descriptors.call t c) := by
  cases c with
  | assign f => exact (assign_right h (hroom f rfl)).2
  | close fd => exact h.closeFd fd

theorem Run.inv (h : Run tr t) (hroom : ∀ y ∈ tr, y.HasRoom) : Inv t := by
  induction h with
  | nil word => exact inv_init word
  | snoc c hrun ih =>
      rw [List.forall_mem_append, List.forall_mem_singleton] at hroom
      exact (ih hroom.1).call hroom.2

theorem call_behind {c : Call} (h : Inv t) (hroom : (⟨t, c, call t c⟩ : Entry).HasRoom)
    (hfiles : ∀ fd, t.getFile fd = behind tr fd) (fd : Int32) :
    (call t c).getFile fd = (⟨t, c, call t c⟩ : Entry).behind fd (behind tr fd) := by
  cases c with
  | assign f =>
      have hassigned := (assign_right (f := f) h (hroom f rfl)).1
      have hnext : (⟨t, .assign f, call t (.assign f)⟩ : Entry).behind fd (behind tr fd) =
        if fd = (t.assignFd f).1 then f else behind tr fd := rfl
      rw [hnext, ← hfiles fd]
      split_ifs with hfd
      · rw [hfd]
        exact hassigned.file
      · exact getFile_of_rest hassigned.rest hfd hassigned.low hassigned.high
  | close c =>
      have hclosed := closeFd_closed t c
      have hnext : (⟨t, .close c, call t (.close c)⟩ : Entry).behind fd (behind tr fd) =
        if fd = c then 0 else behind tr fd := rfl
      rw [hnext, ← hfiles fd]
      split_ifs with hfd
      · rw [hfd]
        exact hclosed.unused
      · rcases fd_cases c with ⟨i, hi₂, hi, rfl⟩ | hout
        · exact getFile_of_rest hclosed.rest hfd (two_le_ofNat hi₂ (Nat.le_of_lt hi))
            ((ofNat_lt_iff (Nat.le_of_lt hi)).mpr hi)
        · exact congrArg (Thread.getFile · fd) (congrArg Prod.snd (closeFd_out hout))

/-- After any run in which no call overflows, a descriptor stands for the file that was last given it
and not closed since. -/
theorem Run.behind (h : Run tr t) (hroom : ∀ y ∈ tr, y.HasRoom) :
    ∀ fd, t.getFile fd = Descriptors.behind tr fd := by
  induction h with
  | nil word =>
      intro fd
      rcases fd_cases fd with ⟨i, hi₂, hi, rfl⟩ | hout
      · rw [getFile_ofNat hi₂ hi]
        exact if_pos hi
      · exact getFile_out hout
  | snoc c hrun ih =>
      rw [List.forall_mem_append, List.forall_mem_singleton] at hroom
      intro fd
      unfold Descriptors.behind
      rw [List.foldl_append]
      exact call_behind (hrun.inv hroom.1) hroom.2 (ih hroom.1) fd

/-- Descriptors are unique handles in the runs that never want more than there are. -/
theorem descriptors_unique_iff (h : Run tr t) :
    ((∀ y ∈ tr, y.Right) ∧ ∀ fd, t.getFile fd = behind tr fd) ↔ ∀ y ∈ tr, y.HasRoom := by
  have hright : (∀ y ∈ tr, y.Right) ↔ ∀ y ∈ tr, y.HasRoom := by
    induction h with
    | nil word =>
        exact iff_of_true (fun _ h => absurd h List.not_mem_nil) fun _ h => absurd h List.not_mem_nil
    | snoc c hrun ih =>
        rw [List.forall_mem_append, List.forall_mem_append, ih, List.forall_mem_singleton,
          List.forall_mem_singleton]
        exact and_congr_right fun hroom => call_right_iff (hrun.inv hroom)
  rw [hright]
  exact ⟨fun h => h.1, fun hroom => ⟨hroom, h.behind hroom⟩⟩

/-- So many files are assigned in a row. -/
theorem filled (f : UInt32) (k : Nat) (hk : k ≤ 126) : ∃ tr t, Run tr t ∧
    tr.length = k ∧ (∀ y ∈ tr, y.HasRoom) ∧ t.word nextFdSlot = .ofNat (2 + k) ∧
      (∀ i, 2 ≤ i → i < 2 + k → t.word i = f) ∧ ∀ i, 2 + k ≤ i → i < 128 → t.word i = 0 := by
  induction k with
  | zero =>
      exact ⟨[], _, .nil fun _ => 0, rfl, fun _ h => absurd h List.not_mem_nil, rfl,
        fun i hlow hi => absurd hlow (by omega), fun i _ hi => if_pos hi⟩
  | succ k ih =>
      obtain ⟨tr, t, hrun, hlen, hroom, hnext, hused, hfresh⟩ := ih (by omega)
      have hnotFull : ¬ Full t := fun hfull =>
        full_iff.mp hfull (2 + k) (by omega) (by omega) (hfresh _ (Nat.le_refl _) (by omega))
      have hword : (call t (.assign f)).word =
          Function.update (Function.update t.word nextFdSlot (.ofNat (2 + k + 1))) (2 + k) f :=
        congrArg (fun p => p.2.word) (assign_next (f := f) hnext (by omega))
      refine ⟨_, _, hrun.snoc (.assign f), by rw [List.length_append, hlen]; rfl, ?_, ?_, ?_, ?_⟩
      · rw [List.forall_mem_append, List.forall_mem_singleton]
        exact ⟨hroom, fun _ _ => hnotFull⟩
      · rw [hword, Function.update_of_ne (nextFdSlot_ne (by omega)), Function.update_self]
        rfl
      · intro i hlow hi
        by_cases hlast : i = 2 + k
        · rw [hword, hlast, Function.update_self]
        · rw [hword, Function.update_of_ne hlast, Function.update_of_ne (nextFdSlot_ne (by omega)).symm]
          exact hused i hlow (by omega)
      · intro i hlow hi
        rw [hword, Function.update_of_ne (by omega), Function.update_of_ne (nextFdSlot_ne hi).symm]
        exact hfresh i (by omega) hi

/-- Two files at the same time. -/
theorem descriptors_unique_two : ∃ tr t, Run tr t ∧ tr.length = 2 ∧
    (∀ y ∈ tr, y.Right) ∧ ∀ fd, t.getFile fd = behind tr fd := by
  obtain ⟨tr, t, hrun, hlen, hroom, -⟩ := filled 1 2 (by decide)
  exact ⟨tr, t, hrun, hlen, (descriptors_unique_iff hrun).mpr hroom⟩

/-- The 127th file in a row gets the descriptor 128 and becomes `next_fd`.  The one after it is
stored wherever that is. -/
theorem descriptors_overflow : ∃ tr t, Run tr t ∧ tr.length = 127 ∧ (∃ y ∈ tr, ¬ y.Right) ∧
    (∀ fd, t.getFile fd ≠ 0xC0200000) ∧ ∀ f, (t.assignFd f).1 = -1071644672 := by
  obtain ⟨tr, t, hrun, hlen, hroom, -, hused, -⟩ := filled 0xC0100000 126 (by decide)
  have hinv := hrun.inv hroom
  have hfull : Full t := full_iff.mpr fun i hlow hi => by
    rw [hused i hlow (by omega)]
    decide
  obtain ⟨hfd, hnextFd⟩ := assign_full (f := 0xC0200000) hinv hfull
  obtain ⟨i, hassigns⟩ := assignFd_spec hinv 0xC0200000
  have hlast : i = 128 := ofNat_inj hassigns.high (Nat.le_refl _) (hassigns.fd.symm.trans hfd)
  refine ⟨_, _, hrun.snoc (.assign 0xC0200000), by rw [List.length_append, hlen]; rfl,
    ⟨_, List.mem_concat_self, fun hright => ?_⟩, fun fd => ?_, fun f => ?_⟩
  · exact (call_right_iff hinv).mp hright _ rfl hfull
  · rcases fd_cases fd with ⟨k, hk₂, hk, rfl⟩ | hout
    · have hword : (call t (.assign 0xC0200000)).word k = 0xC0100000 :=
        (hassigns.rest k (by omega) (nextFdSlot_ne hk).symm).trans (hused k hk₂ (by omega))
      rw [getFile_ofNat hk₂ hk, hword]
      decide
    · rw [getFile_out hout]
      decide
  · have hnext : (call t (.assign 0xC0200000)).nextFd = -1071644672 := hnextFd
    unfold Thread.assignFd
    rw [hnext, if_pos (by decide)]

end Descriptors

end CS162.Userprog
