/-
# `CS162.Userprog.UserMem` — the check of a user's buffer

`validate_str_with_len` looks at the first byte of a buffer and at the last, and kills the
process if one of them is not mapped.  What is between them it does not look at, and the
address of the last byte is computed modulo 2^32.  `buffers_checked_iff` says when the kernel
may touch the whole buffer after that.
-/
import Mathlib.Data.Nat.Bitwise

namespace CS162.Userprog

namespace UserMem

/-- `PHYS_BASE`. -/
def physBase : UInt32 := 0xC0000000

def pgNo (v : UInt32) : UInt32 := v >>> 12

def pgOfs (v : UInt32) : UInt32 := v &&& 0xFFF

def ptNo (v : UInt32) : UInt32 := (v &&& 0x3FF000) >>> 12

def pdNo (v : UInt32) : UInt32 := v >>> 22

/-- `PTE_P`. -/
def pteP : UInt32 := 1

/-- `PTE_ADDR`. -/
def pteAddr : UInt32 := 0xFFFFF000

def ptov (p : UInt32) : UInt32 := p + physBase

/-- A page directory, and the kernel's memory by words, in which its tables are. -/
structure Tables where
  pd : UInt32
  mem : UInt32 → UInt32

namespace Tables

variable (m : Tables)

def pde (v : UInt32) : UInt32 := m.mem (m.pd + 4 * pdNo v)

/-- `lookup_page` without `create`. -/
def lookupPage (v : UInt32) : Option UInt32 :=
  if m.pde v = 0 then none else some (ptov (m.pde v &&& pteAddr) + 4 * ptNo v)

/-- `pagedir_get_page`. -/
def getPage (v : UInt32) : UInt32 :=
  match m.lookupPage v with
  | some pte => if m.mem pte &&& pteP ≠ 0 then ptov (m.mem pte &&& pteAddr) + pgOfs v else 0
  | none => 0

def isValidPtr (v : UInt32) : Bool := v ≠ 0 && v < physBase && m.getPage v ≠ 0

/-- Whether `validate_str_with_len` returns. -/
def validateStrWithLen (str : UInt32) (len : Int32) : Bool :=
  m.isValidPtr str && m.isValidPtr (str + len.toUInt32 - 1)

/-- The page of an address has an entry that is present. -/
def Mapped (v : UInt32) : Prop := ∃ pte, m.lookupPage v = some pte ∧ m.mem pte &&& pteP ≠ 0

end Tables

/-- What `pagedir_set_page` sees to, and `pde_get_pt` and `ptov` assert: page tables are present,
and they and the frames are in the memory of at most 1 GB that is mapped from `PHYS_BASE` on. -/
structure PageDir extends Tables where
  present : ∀ v < physBase, toTables.pde v ≠ 0 → toTables.pde v &&& pteP ≠ 0
  table : ∀ v < physBase, (toTables.pde v &&& pteAddr).toNat < 2 ^ 30
  ram : ∀ v < physBase, ∀ pte, toTables.lookupPage v = some pte →
    (toTables.mem pte &&& pteAddr).toNat < 2 ^ 30

/-- The whole buffer is below `PHYS_BASE` and mapped. -/
structure Within (m : PageDir) (buffer size : UInt32) : Prop where
  below : buffer.toNat + size.toNat ≤ physBase.toNat
  mapped : ∀ v : UInt32, buffer ≤ v → v.toNat < buffer.toNat + size.toNat → m.Mapped v

/-- There is nothing between the pages of the first byte and of the last that is not mapped. -/
structure Filled (m : PageDir) (buffer size : UInt32) : Prop where
  nowrap : buffer.toNat + size.toNat ≤ 2 ^ 32
  between : ∀ v, pgNo buffer < pgNo v → pgNo v < pgNo (buffer + size - 1) → m.Mapped v

variable {m : PageDir} {v w buffer size : UInt32}

/-! ## Addresses -/

theorem toNat_pgNo (v : UInt32) : (pgNo v).toNat = v.toNat / 4096 := by
  unfold pgNo
  rw [UInt32.toNat_shiftRight]
  exact Nat.shiftRight_eq_div_pow ..

theorem toNat_pdNo (v : UInt32) : (pdNo v).toNat = v.toNat / 4096 / 1024 := by
  unfold pdNo
  rw [UInt32.toNat_shiftRight, Nat.div_div_eq_div_mul]
  exact Nat.shiftRight_eq_div_pow ..

theorem toNat_ptNo (v : UInt32) : (ptNo v).toNat = v.toNat / 4096 % 1024 := by
  have hshift : v.toNat >>> 12 = v.toNat / 4096 := Nat.shiftRight_eq_div_pow ..
  unfold ptNo
  rw [UInt32.toNat_shiftRight, UInt32.toNat_and]
  have hmask : (v.toNat &&& 4190208) >>> 12 = v.toNat >>> 12 &&& 2 ^ 10 - 1 :=
    Nat.shiftRight_and_distrib
  exact hmask.trans (by rw [Nat.and_two_pow_sub_one_eq_mod, hshift])

theorem pgNo_inj (h : pgNo v = pgNo w) : pdNo v = pdNo w ∧ ptNo v = ptNo w := by
  have hpage : v.toNat / 4096 = w.toNat / 4096 := by
    rw [← toNat_pgNo, ← toNat_pgNo, h]
  refine ⟨UInt32.toNat_inj.mp ?_, UInt32.toNat_inj.mp ?_⟩
  · rw [toNat_pdNo, toNat_pdNo, hpage]
  · rw [toNat_ptNo, toNat_ptNo, hpage]

/-- A page is mapped as a whole. -/
theorem mapped_congr {m : Tables} (h : pgNo v = pgNo w) : m.Mapped v ↔ m.Mapped w := by
  obtain ⟨hpd, hpt⟩ := pgNo_inj h
  have hlookup : m.lookupPage v = m.lookupPage w := by
    unfold Tables.lookupPage Tables.pde
    rw [hpd, hpt]
  unfold Tables.Mapped
  rw [hlookup]

theorem pgNo_mono (h : v ≤ w) : pgNo v ≤ pgNo w := by
  rw [UInt32.le_iff_toNat_le, toNat_pgNo, toNat_pgNo]
  exact Nat.div_le_div_right h

/-! ## Pointers -/

/-- The kernel's address of a byte of a frame is not null. -/
theorem frame_ne_zero {p : UInt32} (hp : p.toNat < 2 ^ 30) (halign : p.toNat % 4096 = 0) (v : UInt32) :
    ptov p + pgOfs v ≠ 0 := by
  have hofs : (pgOfs v).toNat < 4096 := by
    unfold pgOfs
    rw [UInt32.toNat_and]
    exact Nat.lt_of_le_of_lt Nat.and_le_right (by decide)
  have hbase : physBase.toNat = 3221225472 := rfl
  have hsum : (ptov p + pgOfs v).toNat = p.toNat + 3221225472 + (pgOfs v).toNat := by
    unfold ptov
    rw [UInt32.toNat_add, UInt32.toNat_add, hbase]
    omega
  intro hzero
  rw [hzero] at hsum
  have hz : (0 : UInt32).toNat = 0 := rfl
  omega

theorem frame_aligned (x : UInt32) : (x &&& pteAddr).toNat % 4096 = 0 := by
  have hmod : (x &&& pteAddr) &&& 0xFFF = 0 := by
    rw [UInt32.and_assoc]
    have hzero : pteAddr &&& 0xFFF = 0 := by decide
    rw [hzero, UInt32.and_zero]
  have h := congrArg UInt32.toNat hmod
  rw [UInt32.toNat_and] at h
  exact (Nat.and_two_pow_sub_one_eq_mod _ 12).symm.trans h

theorem isValidPtr_iff : m.isValidPtr v = true ↔ v ≠ 0 ∧ v < physBase ∧ m.Mapped v := by
  have hpage : v < physBase → (m.getPage v ≠ 0 ↔ m.Mapped v) := by
    intro hv
    unfold Tables.getPage Tables.Mapped
    cases hlookup : m.lookupPage v with
    | none =>
        refine iff_of_false (fun h => h rfl) ?_
        rintro ⟨pte, hpte, -⟩
        cases hpte
    | some pte =>
        have hram := m.ram v hv pte hlookup
        simp only [Option.some.injEq, exists_eq_left']
        split_ifs with hpresent
        · exact iff_of_true (frame_ne_zero hram (frame_aligned _) v) hpresent
        · exact iff_of_false (fun h => h rfl) hpresent
  unfold Tables.isValidPtr
  simp only [Bool.and_eq_true, decide_eq_true_eq, and_assoc]
  exact and_congr_right fun _ => and_congr_right hpage

/-! ## Buffers -/

theorem validate_iff : m.validateStrWithLen buffer size.toInt32 = true ↔
    m.isValidPtr buffer = true ∧ m.isValidPtr (buffer + size - 1) = true := by
  unfold Tables.validateStrWithLen
  rw [Bool.and_eq_true, UInt32.toUInt32_toInt32]

/-- The address of the last byte. -/
theorem toNat_last (hsize : size ≠ 0) (hwrap : buffer.toNat + size.toNat ≤ 2 ^ 32) :
    (buffer + size - 1).toNat = buffer.toNat + size.toNat - 1 := by
  have hpos : size.toNat ≠ 0 := fun h => hsize (UInt32.toNat_inj.mp h)
  have hone : (1 : UInt32).toNat = 1 := rfl
  rw [UInt32.toNat_sub, UInt32.toNat_add, hone]
  omega

theorem Within.filled (h : Within m buffer size) (hsize : size ≠ 0) : Filled m buffer size := by
  have hbase : physBase.toNat = 3221225472 := rfl
  have hbelow := h.below
  have hwrap : buffer.toNat + size.toNat ≤ 2 ^ 32 := by omega
  have hlast := toNat_last hsize hwrap
  refine ⟨hwrap, fun v hfirst hbefore => ?_⟩
  rw [UInt32.lt_iff_toNat_lt, toNat_pgNo, toNat_pgNo] at hfirst hbefore
  refine h.mapped v ?_ ?_
  · rw [UInt32.le_iff_toNat_le]
    omega
  · omega

/-- The first page and the last are mapped, and those between them. -/
theorem Filled.within (h : Filled m buffer size) (hsize : size ≠ 0) (hfirst : m.isValidPtr buffer = true)
    (hlast : m.isValidPtr (buffer + size - 1) = true) : Within m buffer size := by
  obtain ⟨-, -, hmapped⟩ := isValidPtr_iff.mp hfirst
  obtain ⟨-, hbelow, hmapped'⟩ := isValidPtr_iff.mp hlast
  have hlastNat := toNat_last hsize h.nowrap
  rw [UInt32.lt_iff_toNat_lt, hlastNat] at hbelow
  refine ⟨by omega, fun v hlow hhigh => ?_⟩
  have hv : v ≤ buffer + size - 1 := by
    rw [UInt32.le_iff_toNat_le, hlastNat]
    omega
  rcases eq_or_ne (pgNo buffer) (pgNo v) with heq | hne
  · exact (mapped_congr heq).mp hmapped
  · rcases eq_or_ne (pgNo v) (pgNo (buffer + size - 1)) with heq' | hne'
    · exact (mapped_congr heq').mpr hmapped'
    · exact h.between v (UInt32.lt_of_le_of_ne (pgNo_mono hlow) hne)
        (UInt32.lt_of_le_of_ne (pgNo_mono hv) hne')

theorem within_empty (h : m.isValidPtr buffer = true) : Within m buffer 0 := by
  obtain ⟨-, hbelow, -⟩ := isValidPtr_iff.mp h
  rw [UInt32.lt_iff_toNat_lt] at hbelow
  have hzero : (0 : UInt32).toNat = 0 := rfl
  refine ⟨by omega, fun v hlow hhigh => ?_⟩
  rw [UInt32.le_iff_toNat_le] at hlow
  omega

/-- `SYS_READ` and `SYS_WRITE` are safe with a buffer that the check lets pass, exactly if
nothing is wrong between its first byte and its last. -/
theorem buffers_checked_iff (m : PageDir) (buffer size : UInt32) :
    (m.validateStrWithLen buffer size.toInt32 = true → Within m buffer size) ↔
      (m.isValidPtr buffer = true → m.isValidPtr (buffer + size - 1) = true → size ≠ 0 →
        Filled m buffer size) := by
  rw [validate_iff]
  constructor
  · intro hwithin hfirst hlast hsize
    exact (hwithin ⟨hfirst, hlast⟩).filled hsize
  · rintro hfilled ⟨hfirst, hlast⟩
    by_cases hsize : size = 0
    · rw [hsize]
      exact within_empty hfirst
    · exact (hfilled hfirst hlast hsize).within hsize hfirst hlast

/-- The pages 0x08048 and 0x0804A are mapped, and the one between them is not. -/
def gap : Tables where
  pd := 0xC0100000
  mem a :=
    if a = 0xC0100080 then 0x200007
    else if a = 0xC0200120 then 0x300007
    else if a = 0xC0200128 then 0x301007
    else 0

theorem gap_mem (a : UInt32) : gap.mem a = 0 ∨ gap.mem a &&& pteP ≠ 0 := by
  unfold gap
  dsimp only
  split_ifs <;> decide

theorem gap_low (a : UInt32) : (gap.mem a &&& pteAddr).toNat < 2 ^ 30 := by
  unfold gap
  dsimp only
  split_ifs <;> decide

def gapDir : PageDir where
  toTables := gap
  present _ _ := (gap_mem _).resolve_left
  table _ _ := gap_low _
  ram _ _ pte _ := gap_low pte

/-- The buffer passes, and its second page is not mapped. -/
theorem buffer_gap : gapDir.validateStrWithLen 0x08048000 0x3000 = true ∧
    ¬ Within gapDir 0x08048000 0x3000 := by
  have hpass : gap.validateStrWithLen 0x08048000 0x3000 = true := by decide
  refine ⟨hpass, fun h => ?_⟩
  obtain ⟨pte, hpte, hpresent⟩ := h.mapped 0x08049000 (by decide) (by decide)
  have hlookup : gap.lookupPage 0x08049000 = some 0xC0200124 := by decide
  obtain rfl : 0xC0200124 = pte := Option.some.inj (hlookup.symm.trans hpte)
  exact hpresent (by decide)

end UserMem

end CS162.Userprog
