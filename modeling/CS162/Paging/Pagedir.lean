/-
# `CS162.Paging.Pagedir` — `userprog/pagedir.c` and `paging_init`

Page directories and page tables, on the memory of `Machine`: a directory is a page of 1024 entries, of
which those below `PHYS_BASE` belong to its user and lead to page tables.  The rest is a copy of the
entries of `init_page_dir`, which `paging_init` makes.

The processor is here as well, as far as it has a part in this: it sets the accessed bit and the dirty
bit, and it caches translations (`access`, `forget`).  It is only when CR3 is loaded that it drops them.
-/
import CS162.Paging.Palloc

namespace CS162.Paging

open Userprog.UserMem

/-! ## Entries -/

/-- `PTE_W`. -/
def pteW : UInt32 := 2

/-- `PTE_U`. -/
def pteU : UInt32 := 4

/-- `PTE_A`. -/
def pteA : UInt32 := 0x20

/-- `PTE_D`. -/
def pteD : UInt32 := 0x40

/-- `vtop`. -/
def vtop (vaddr : UInt32) : KernelM UInt32 :=
  if physBase ≤ vaddr then return vaddr - physBase else throw .assertion

/-- `pde_create`. -/
def pdeCreate (pt : UInt32) : KernelM UInt32 := do
  if pgOfs pt ≠ 0 then throw .assertion
  else
    let paddr ← vtop pt
    return paddr ||| pteU ||| pteP ||| pteW

/-- `pde_get_pt`. -/
def pdeGetPt (pde : UInt32) : KernelM UInt32 := do
  if pde &&& pteP = 0 then throw .assertion else ptovChecked (pde &&& pteAddr)

/-- `pte_create_kernel`. -/
def pteCreateKernel (page : UInt32) (writable : Bool) : KernelM UInt32 := do
  if pgOfs page ≠ 0 then throw .assertion
  else
    let paddr ← vtop page
    return paddr ||| pteP ||| if writable then pteW else 0

/-- `pte_create_user`. -/
def pteCreateUser (page : UInt32) (writable : Bool) : KernelM UInt32 := do
  let pte ← pteCreateKernel page writable
  return pte ||| pteU

/-- `pte_get_page`. -/
def pteGetPage (pte : UInt32) : KernelM UInt32 := ptovChecked (pte &&& pteAddr)

/-! ## Directories -/

def load (a : UInt32) : KernelM UInt32 := do
  let m ← get
  return m.words a

def store (a w : UInt32) : KernelM Unit := modify fun m => { m with words := Function.update m.words a w }

/-- `memcpy` of a page, by words. -/
def copyPage (dst src : UInt32) : KernelM Unit := modify fun m =>
  { m with words := fun a => if a - dst < pgSize then m.words (src + (a - dst)) else m.words a }

/-- `pagedir_create`. -/
def pagedirCreate : KernelM (Option UInt32) := do
  match ← pallocGetPage ⟨false, false, false⟩ with
  | none => return none
  | some pd =>
      let m ← get
      copyPage pd m.initPageDir
      return some pd

/-- The end of `lookup_page`: `&pt[pt_no (vaddr)]`. -/
def entryOf (pde vaddr : UInt32) : KernelM (Option UInt32) := do
  let pt ← pdeGetPt (← load pde)
  return some (pt + 4 * ptNo vaddr)

/-- `lookup_page`. -/
def lookupPage (pd vaddr : UInt32) (create : Bool) : KernelM (Option UInt32) := do
  if pd = 0 ∨ create = true ∧ ¬ vaddr < physBase then throw .assertion
  else
    let pde := pd + 4 * pdNo vaddr
    if (← load pde) = 0 then
      if create then
        match ← pallocGetPage ⟨false, true, false⟩ with
        | none => return none
        | some pt =>
            store pde (← pdeCreate pt)
            entryOf pde vaddr
      else return none
    else entryOf pde vaddr

/-- `pagedir_activate`.  The translations that were cached are gone. -/
def pagedirActivate (pd : UInt32) : KernelM Unit := do
  let m ← get
  let paddr ← vtop (if pd = 0 then m.initPageDir else pd)
  modify fun m => { m with cr3 := paddr, tlb := fun _ => none }

/-- `active_pd`. -/
def activePd : KernelM UInt32 := do
  let m ← get
  ptovChecked m.cr3

/-- `invalidate_pagedir`. -/
def invalidatePagedir (pd : UInt32) : KernelM Unit := do
  if (← activePd) = pd then pagedirActivate pd else return ()

/-- `pagedir_set_page`. -/
def pagedirSetPage (pd upage kpage : UInt32) (writable : Bool) : KernelM Bool := do
  if pgOfs upage ≠ 0 ∨ pgOfs kpage ≠ 0 ∨ ¬ upage < physBase then throw .assertion
  else
    let paddr ← vtop kpage
    let m ← get
    if ¬ paddr >>> 12 < m.initRamPages ∨ pd = m.initPageDir then throw .assertion
    else
      match ← lookupPage pd upage true with
      | none => return false
      | some pte =>
          if (← load pte) &&& pteP ≠ 0 then throw .assertion
          else
            store pte (← pteCreateUser kpage writable)
            return true

/-- `pagedir_get_page`; the null pointer is `none`. -/
def pagedirGetPage (pd uaddr : UInt32) : KernelM (Option UInt32) := do
  if ¬ uaddr < physBase then throw .assertion
  else
    match ← lookupPage pd uaddr false with
    | none => return none
    | some pte =>
        let e ← load pte
        if e &&& pteP ≠ 0 then
          let page ← pteGetPage e
          return some (page + pgOfs uaddr)
        else return none

/-- `pagedir_clear_page`. -/
def pagedirClearPage (pd upage : UInt32) : KernelM Unit := do
  if pgOfs upage ≠ 0 ∨ ¬ upage < physBase then throw .assertion
  else
    match ← lookupPage pd upage false with
    | none => return ()
    | some pte =>
        let e ← load pte
        if e &&& pteP ≠ 0 then
          store pte (e &&& ~~~ pteP)
          invalidatePagedir pd
        else return ()

/-- `pagedir_is_dirty` and `pagedir_is_accessed`, each with its flag. -/
def hasFlag (flag pd vpage : UInt32) : KernelM Bool := do
  match ← lookupPage pd vpage false with
  | none => return false
  | some pte =>
      let e ← load pte
      return e &&& flag ≠ 0

/-- `pagedir_set_dirty` and `pagedir_set_accessed`, each with its flag. -/
def setFlag (flag pd vpage : UInt32) (value : Bool) : KernelM Unit := do
  match ← lookupPage pd vpage false with
  | none => return ()
  | some pte =>
      let e ← load pte
      if value then store pte (e ||| flag)
      else
        store pte (e &&& ~~~ flag)
        invalidatePagedir pd

/-- `pagedir_is_dirty`. -/
def pagedirIsDirty (pd vpage : UInt32) : KernelM Bool := hasFlag pteD pd vpage

/-- `pagedir_set_dirty`. -/
def pagedirSetDirty (pd vpage : UInt32) (dirty : Bool) : KernelM Unit := setFlag pteD pd vpage dirty

/-- `pagedir_is_accessed`. -/
def pagedirIsAccessed (pd vpage : UInt32) : KernelM Bool := hasFlag pteA pd vpage

/-- `pagedir_set_accessed`. -/
def pagedirSetAccessed (pd vpage : UInt32) (accessed : Bool) : KernelM Unit :=
    setFlag pteA pd vpage accessed

/-- The inner loop of `pagedir_destroy`. -/
@[irreducible] def freeFrames (pt : UInt32) : KernelM Unit :=
  (List.range 1024).forM fun j => do
    let e ← load (pt + 4 * UInt32.ofNat j)
    if e &&& pteP ≠ 0 then
      let page ← pteGetPage e
      pallocFreePage page
    else return ()

/-- One entry of the directory in `pagedir_destroy`. -/
def freeTable (pd : UInt32) (i : Nat) : KernelM Unit := do
  let pde ← load (pd + 4 * UInt32.ofNat i)
  if pde &&& pteP ≠ 0 then
    let pt ← pdeGetPt pde
    freeFrames pt
    pallocFreePage pt
  else return ()

/-- `pagedir_destroy`. -/
@[irreducible] def pagedirDestroy (pd : UInt32) : KernelM Unit := do
  let m ← get
  if pd = 0 then return ()
  else if pd = m.initPageDir then throw .assertion
  else
    (List.range (pdNo physBase).toNat).forM (freeTable pd)
    pallocFreePage pd

/-! ## The processor -/

/-- What the tables say of an address, when `pd` is active; 0 if nothing. -/
def Machine.walk (m : Machine) (pd v : UInt32) : UInt32 :=
  let pde := m.words (pd + 4 * pdNo v)
  if pde &&& pteP = 0 then 0 else m.words (ptov (pde &&& pteAddr) + 4 * ptNo v)

/-- The entry that the processor goes by: the cached one, if there is one. -/
def Machine.translate (m : Machine) (v : UInt32) : UInt32 := (m.tlb (pgNo v)).getD (m.walk (ptov m.cr3) v)

/-- A bit of the memory set by the processor. -/
def Machine.mark (m : Machine) (a bits : UInt32) : Machine :=
  { m with words := Function.update m.words a (m.words a ||| bits) }

/-- The address of the entry of the active directory, and what it says where the table is. -/
def Machine.pdeAt (m : Machine) (v : UInt32) : UInt32 := ptov m.cr3 + 4 * pdNo v

def Machine.pteAt (m : Machine) (v : UInt32) : UInt32 := ptov
    (m.words (m.pdeAt v) &&& pteAddr) + 4 * ptNo v

/-- What the processor does with a translation.  Where none is cached the tables are read, and it marks
what it has read; it sets the bits that the entry it goes by lacks, and keeps that entry. -/
def Machine.touch (m : Machine) (v bits : UInt32) : Machine :=
  let e := m.translate v
  let m₁ := if (m.tlb (pgNo v)).isSome then m else m.mark (m.pdeAt v) pteA
  let m₂ := if e &&& bits = bits then m₁ else m₁.mark (m.pteAt v) bits
  { m₂ with tlb := Function.update m.tlb (pgNo v) (some (e ||| bits)) }

/-- The bits that an access sets; `value` is what it writes. -/
def accessBits (value : Option UInt32) : UInt32 := if value.isSome then pteA ||| pteD else pteA

/-- An access by a user program (`user`), or by the kernel, which `CR0.WP` keeps from writing what is
read-only, too. -/
def Machine.access (m : Machine) (user : Bool) (v : UInt32) (value : Option UInt32) : Option Machine :=
  let e := m.translate v
  if e &&& pteP ≠ 0 ∧ (user = true → e &&& pteU ≠ 0) ∧ (value.isSome = true → e &&& pteW ≠ 0) then
    let m₁ := m.touch v (accessBits value)
    match value with
    | some w =>
        let frame := ptov (e &&& pteAddr)
        some { m₁ with words := Function.update m₁.words (frame + (pgOfs v &&& ~~~ 3)) w }
    | none => some m₁
  else none

/-- A cached translation may be dropped at any time. -/
def Machine.forget (m : Machine) (n : UInt32) : Machine := { m with tlb := Function.update m.tlb n none }

/-! ## The kernel's own entries -/

/-- The table for a page in `paging_init`: that of the last page, or a new one. -/
def kernelTable (pde pt : UInt32) : KernelM UInt32 := do
  if (← load pde) = 0 then
    match ← pallocGetPage ⟨true, true, false⟩ with
    | none => throw .outOfPages
    | some pt =>
        store pde (← pdeCreate pt)
        return pt
  else return pt

/-- One page of the loop in `paging_init`. -/
def mapKernelPage (inKernelText : UInt32 → Bool) (pd pt : UInt32) (page : Nat) : KernelM UInt32 := do
  let vaddr ← ptovChecked (UInt32.ofNat page * pgSize)
  let pt ← kernelTable (pd + 4 * pdNo vaddr) pt
  store (pt + 4 * ptNo vaddr) (← pteCreateKernel vaddr !inKernelText vaddr)
  return pt

/-- `paging_init`; where the text of the kernel is is up to the linker. -/
def pagingInit (inKernelText : UInt32 → Bool) : KernelM Unit := do
  match ← pallocGetPage ⟨true, true, false⟩ with
  | none => throw .outOfPages
  | some pd =>
      modify fun m => { m with initPageDir := pd }
      let m ← get
      let _ ← (List.range m.initRamPages.toNat).foldlM (mapKernelPage inKernelText pd) 0
      let paddr ← vtop pd
      modify fun m => { m with cr3 := paddr, tlb := fun _ => none }

end CS162.Paging
