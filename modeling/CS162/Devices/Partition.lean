/-
# `CS162.Devices.Partition` — `devices/partition.c`

`partition_scan` reads the partition table in sector 0 and then those of extended partitions, as the
tables say.  `block_read (block, 0, pt)` reads sector 0 for each of them, so that every extended
partition on the device looks like the whole device again.  What is read for which sector is recorded
in `Scan.tables`.

The recursion has a bound on its depth, and is `none` where it goes deeper.  It ends, and has read the
right tables, if and only if no table refers to another one on the device, or one of the same contents
whose references all lead beyond the end (`partition_scan_iff`).
-/
import CS162.Fs.Cache

namespace CS162.Devices

open Bytes Fs

/-! ## The model -/

/-- `struct partition_table_entry`, as far as it is used. -/
structure PartitionTableEntry where
  type : UInt8
  offset : UInt32
  size : UInt32
deriving DecidableEq

/-- Four bytes at `k`. -/
def word32 (pt : Sector) (k : Nat) : UInt32 :=
  Block.join (pt.get k) (pt.get (k + 1)) (pt.get (k + 2)) (pt.get (k + 3))

/-- `pt->partitions[i]`. -/
def entryAt (pt : Sector) (i : Nat) : PartitionTableEntry :=
  let k := 446 + 16 * i
  ⟨pt.get (k + 4), word32 pt (k + 8), word32 pt (k + 12)⟩

def partitions (pt : Sector) : List PartitionTableEntry := (List.range 4).map (entryAt pt)

/-- `pt->signature == 0xaa55`. -/
def signed (pt : Sector) : Bool := pt.get 510 = 0x55 && pt.get 511 = 0xaa

/-- `enum block_type`, those that a partition can have. -/
inductive BlockType where
  | kernel
  | filesys
  | scratch
  | swap
  | foreign

/-- `struct partition`, and what else is registered with it. -/
structure Partition where
  partNr : Nat
  type : BlockType
  start : UInt32
  size : UInt32

/-- What is printed. -/
inductive Message where
  | noPartitions
  | tablePastEnd (sector : UInt32)
  | badSignature
  | badExtendedTable (sector : UInt32)
  | extended (sector : UInt32)
  | startPastEnd (partNr : Nat) (start : UInt32)
  | endPastEnd (partNr : Nat) (last size : UInt32)

/-- `*part_nr`, the output, the partitions that were registered and the tables that were interpreted,
with the sectors that they were interpreted for. -/
structure Scan where
  partNr : Nat
  output : List Message
  registered : List Partition
  tables : List (UInt32 × Sector)

def Scan.printf (s : Scan) (m : Message) : Scan := { s with output := s.output ++ [m] }

def blockType (partType : UInt8) : BlockType :=
  if partType = 0x20 then .kernel
  else if partType = 0x21 then .filesys
  else if partType = 0x22 then .scratch
  else if partType = 0x23 then .swap
  else .foreign

/-- `found_partition`. -/
def foundPartition (block : BlockDev) (partType : UInt8) (start size : UInt32) (s : Scan) : Scan :=
  if block.size ≤ start then s.printf (.startPastEnd s.partNr start)
  else if start + size < start ∨ block.size < start + size then
    s.printf (.endPastEnd s.partNr (start + size) block.size)
  else { s with registered := s.registered ++ [⟨s.partNr, blockType partType, start, size⟩] }

def isExtended (type : UInt8) : Bool := type = 0x05 || type = 0x0f || type = 0x85 || type = 0xc5

/-- The body of the loop over the entries; `readTable` is the recursive call. -/
def readEntry (readTable : UInt32 → UInt32 → Scan → Option Scan) (block : BlockDev)
    (sector primaryExtendedSector : UInt32) (s : Scan) (e : PartitionTableEntry) : Option Scan :=
  if e.size = 0 ∨ e.type = 0 then some s
  else if isExtended e.type then
    if sector = 0 then readTable e.offset e.offset (s.printf (.extended sector))
    else readTable (e.offset + primaryExtendedSector) primaryExtendedSector (s.printf (.extended sector))
  else
    some (foundPartition block e.type (e.offset + sector) e.size { s with partNr := s.partNr + 1 })

/-- `read_partition_table`, with at most so many calls open. -/
def readPartitionTable (block : BlockDev) : Nat → UInt32 → UInt32 → Scan → Option Scan
  | 0, _, _, _ => none
  | depth + 1, sector, primaryExtendedSector, s =>
      if block.size ≤ sector then some (s.printf (.tablePastEnd sector))
      else
        -- not `sector`
        let pt := block.data 0
        let s := { s with tables := s.tables ++ [(sector, pt)] }
        if signed pt then
          (partitions pt).foldlM (readEntry (readPartitionTable block depth) block sector
            primaryExtendedSector) s
        else if primaryExtendedSector = 0 then some (s.printf .badSignature)
        else some (s.printf (.badExtendedTable sector))

/-- `partition_scan`. -/
def partitionScan (block : BlockDev) (depth : Nat) : Option Scan := do
  let s ← readPartitionTable block depth 0 0 ⟨0, [], [], []⟩
  return if s.partNr = 0 then s.printf .noPartitions else s

/-! ## What the scan should do -/

/-- Every table is the contents of the sector that it was read for. -/
def TablesRight (block : BlockDev) (s : Scan) : Prop := ∀ t ∈ s.tables, t.2 = block.data t.1

/-- The partition is on the device, and is where an entry of one of the tables says. -/
structure Inside (block : BlockDev) (tables : List (UInt32 × Sector)) (p : Partition) : Prop where
  fits : p.start.toNat + p.size.toNat ≤ block.size.toNat
  entry : ∃ t ∈ tables, ∃ e ∈ partitions t.2, p.start = e.offset + t.1 ∧ p.size = e.size

/-- The scan ends, and all of this is so. -/
def ScanRight (block : BlockDev) : Prop :=
  ∃ depth s, partitionScan block depth = some s ∧ TablesRight block s ∧
    ∀ p ∈ s.registered, Inside block s.tables p

/-- The entry is for an extended partition. -/
def PartitionTableEntry.Nested (e : PartitionTableEntry) : Prop :=
  e.size ≠ 0 ∧ e.type ≠ 0 ∧ isExtended e.type = true

instance (e : PartitionTableEntry) : Decidable e.Nested := by
  unfold PartitionTableEntry.Nested
  infer_instance

/-- Extended partitions begin beyond the end of the device; or in another sector with a copy of the
table in sector 0, and from there all of them do. -/
def Unnested (block : BlockDev) : Prop :=
  signed (block.data 0) = true → ∀ e ∈ partitions (block.data 0), e.Nested → e.offset < block.size →
    e.offset ≠ 0 ∧ block.data e.offset = block.data 0 ∧
      ∀ e' ∈ partitions (block.data 0), e'.Nested → block.size ≤ e'.offset + e.offset

/-! ## Loops that may fail -/

section Fold

variable {σ α : Type} {f : σ → α → Option σ} {P : σ → Prop} {l : List α} {a : α} {s s' : σ}

/-- A step that fails in every state. -/
theorem foldlM_none (ha : a ∈ l) (hf : ∀ s, f s a = none) : l.foldlM f s = none := by
  induction l generalizing s with
  | nil => cases ha
  | cons b l ih =>
      rw [List.foldlM_cons]
      rcases List.mem_cons.mp ha with rfl | ha
      · rw [hf s]
        rfl
      · cases f s b with
        | none => rfl
        | some s' => exact ih ha

/-- The invariant rule. -/
theorem foldlM_some (hf : ∀ a ∈ l, ∀ s s', P s → f s a = some s' → P s') (hs : P s)
    (h : l.foldlM f s = some s') : P s' := by
  induction l generalizing s with
  | nil =>
      cases h
      exact hs
  | cons b l ih =>
      rw [List.foldlM_cons] at h
      obtain ⟨s₁, h₁, h⟩ := Option.bind_eq_some_iff.mp h
      exact ih (fun a ha => hf a (List.mem_cons_of_mem b ha)) (hf b List.mem_cons_self s s₁ hs h₁) h

/-- The rule for loops that end. -/
theorem foldlM_ends (hf : ∀ a ∈ l, ∀ s, P s → ∃ s', f s a = some s' ∧ P s') (hs : P s) :
    ∃ s', l.foldlM f s = some s' ∧ P s' := by
  induction l generalizing s with
  | nil => exact ⟨s, rfl, hs⟩
  | cons b l ih =>
      obtain ⟨s₁, h₁, hs₁⟩ := hf b List.mem_cons_self s hs
      obtain ⟨s', h, hs'⟩ := ih (fun a ha => hf a (List.mem_cons_of_mem b ha)) hs₁
      refine ⟨s', ?_, hs'⟩
      rw [List.foldlM_cons, h₁]
      exact h

/-- What a step establishes and the others keep, next to an invariant. -/
theorem foldlM_reaches {Q : σ → Prop} (ha : a ∈ l) (hP : ∀ b ∈ l, ∀ s s', P s → f s b = some s' → P s')
    (hQ : ∀ b ∈ l, ∀ s s', P s → Q s → f s b = some s' → Q s')
    (hset : ∀ s s', P s → f s a = some s' → Q s') (hs : P s) (h : l.foldlM f s = some s') : Q s' := by
  induction l generalizing s with
  | nil => cases ha
  | cons b l ih =>
      rw [List.foldlM_cons] at h
      obtain ⟨s₁, h₁, hrest⟩ := Option.bind_eq_some_iff.mp h
      have hs₁ := hP b List.mem_cons_self s s₁ hs h₁
      have hP' := fun c hc => hP c (List.mem_cons_of_mem b hc)
      have hQ' := fun c hc => hQ c (List.mem_cons_of_mem b hc)
      rcases List.mem_cons.mp ha with rfl | ha
      · refine (foldlM_some (P := fun s => P s ∧ Q s) (fun c hc s s' hboth hstep => ?_)
          ⟨hs₁, hset s s₁ hs h₁⟩ hrest).2
        exact ⟨hP' c hc s s' hboth.1 hstep, hQ' c hc s s' hboth.1 hboth.2 hstep⟩
      · exact ih ha hP' hQ' hs₁ hrest

end Fold

variable {block : BlockDev} {sector primary : UInt32} {s s' : Scan} {e : PartitionTableEntry}
  {depth : Nat} {readTable : UInt32 → UInt32 → Scan → Option Scan}

/-! ## One call -/

theorem readTable_pastEnd (h : block.size ≤ sector) :
    readPartitionTable block (depth + 1) sector primary s = some (s.printf (.tablePastEnd sector)) :=
  if_pos h

/-- The table is recorded, and its entries are gone through. -/
theorem readTable_signed (h : sector < block.size) (hs : signed (block.data 0) = true) :
    readPartitionTable block (depth + 1) sector primary s =
      (partitions (block.data 0)).foldlM (readEntry (readPartitionTable block depth) block sector primary)
        { s with tables := s.tables ++ [(sector, block.data 0)] } := by
  rw [readPartitionTable, if_neg (UInt32.not_le.mpr h)]
  exact if_pos hs

/-- The call that an entry for an extended partition makes. -/
def nestedCall (sector primary : UInt32) (e : PartitionTableEntry) : UInt32 × UInt32 :=
  if sector = 0 then (e.offset, e.offset) else (e.offset + primary, primary)

theorem readEntry_nested (h : e.Nested) : readEntry readTable block sector primary s e =
    readTable (nestedCall sector primary e).1 (nestedCall sector primary e).2
      (s.printf (.extended sector)) := by
  have hno : ¬ (e.size = 0 ∨ e.type = 0) := fun hor => hor.elim h.1 h.2.1
  unfold readEntry nestedCall
  rw [if_neg hno, if_pos h.2.2]
  split <;> rfl

/-- The other entries. -/
theorem readEntry_other (s : Scan) (h : ¬ e.Nested) :
    readEntry readTable block sector primary s e = some s ∨
      readEntry readTable block sector primary s e = some
        (foundPartition block e.type (e.offset + sector) e.size { s with partNr := s.partNr + 1 }) := by
  unfold readEntry
  split
  · exact .inl rfl
  · next hno =>
      rw [not_or] at hno
      rw [if_neg fun hext => h ⟨hno.1, hno.2, hext⟩]
      exact .inr rfl

/-! ## Calls that never end -/

/-- Calls each of which makes another one of them. -/
structure Endless (block : BlockDev) (calls : UInt32 → UInt32 → Prop) : Prop where
  signed : signed (block.data 0) = true
  onDevice : ∀ sector primary, calls sector primary → sector < block.size
  next : ∀ sector primary, calls sector primary → ∃ e ∈ partitions (block.data 0), e.Nested ∧
    calls (nestedCall sector primary e).1 (nestedCall sector primary e).2

theorem Endless.none {calls : UInt32 → UInt32 → Prop} (h : Endless block calls)
    (hc : calls sector primary) : readPartitionTable block depth sector primary s = none := by
  induction depth generalizing sector primary s with
  | zero => rfl
  | succ depth ih =>
      obtain ⟨e, he, hnested, hnext⟩ := h.next _ _ hc
      rw [readTable_signed (h.onDevice _ _ hc) h.signed]
      refine foldlM_none he fun s => ?_
      rw [readEntry_nested hnested]
      exact ih hnext

/-- A scan that ends: what is so of each extended partition on the device, whether or not the right
tables were read. -/
theorem ends_nested (hend : partitionScan block depth = some s) (hsigned : signed (block.data 0) = true)
    (he : e ∈ partitions (block.data 0)) (hnested : e.Nested) (hlt : e.offset < block.size) :
    e.offset ≠ 0 ∧ ∀ e' ∈ partitions (block.data 0), e'.Nested → block.size ≤ e'.offset + e.offset := by
  have hpos : 0 < block.size := UInt32.lt_of_le_of_lt UInt32.zero_le hlt
  have hstart : ∀ calls, Endless block calls → ¬ calls 0 0 := by
    intro calls hendless hc
    unfold partitionScan at hend
    rw [hendless.none hc] at hend
    cases hend
  constructor
  · intro hzero
    refine hstart (fun sector _ => sector = 0) ⟨hsigned, ?_, ?_⟩ rfl
    · rintro _ _ rfl
      exact hpos
    · rintro _ _ rfl
      exact ⟨e, he, hnested, hzero⟩
  · intro e' he' hnested'
    by_contra hle
    have hlt' : e'.offset + e.offset < block.size := UInt32.not_le.mp hle
    refine hstart (fun sector primary => sector = 0 ∨
      primary = e.offset ∧ (sector = e.offset ∨ sector = e'.offset + e.offset)) ⟨hsigned, ?_, ?_⟩
      (.inl rfl)
    · rintro sector primary (rfl | ⟨rfl, rfl | rfl⟩)
      · exact hpos
      · exact hlt
      · exact hlt'
    · intro sector primary hc
      by_cases hs : sector = 0
      · refine ⟨e, he, hnested, ?_⟩
        unfold nestedCall
        rw [if_pos hs]
        exact .inr ⟨rfl, .inl rfl⟩
      · obtain ⟨rfl, -⟩ := hc.resolve_left hs
        refine ⟨e', he', hnested', ?_⟩
        unfold nestedCall
        rw [if_neg hs]
        exact .inr ⟨rfl, .inr rfl⟩

/-! ## What every call leaves -/

/-- All partitions are where some table says. -/
def Placed (block : BlockDev) (s : Scan) : Prop := ∀ p ∈ s.registered, Inside block s.tables p

theorem foundPartition_tables (type : UInt8) (start size : UInt32) :
    (foundPartition block type start size s).tables = s.tables := by
  unfold foundPartition
  split
  · rfl
  · split <;> rfl

theorem foundPartition_placed {t : UInt32 × Sector} (h : Placed block s) (ht : t ∈ s.tables)
    (he : e ∈ partitions t.2) : Placed block (foundPartition block e.type (e.offset + t.1) e.size s) := by
  have hkeep : ∀ p ∈ s.registered,
      Inside block (foundPartition block e.type (e.offset + t.1) e.size s).tables p := by
    intro p hp
    obtain ⟨hfits, hentry⟩ := h p hp
    refine ⟨hfits, ?_⟩
    rw [foundPartition_tables]
    exact hentry
  intro p hp
  have hp' := hp
  unfold foundPartition at hp'
  split at hp'
  · exact hkeep p hp'
  · split at hp'
    · exact hkeep p hp'
    · next hstart hend =>
        rcases List.mem_append.mp hp' with hp' | hp'
        · exact hkeep p hp'
        · obtain rfl := List.mem_singleton.mp hp'
          rw [not_or, UInt32.not_lt, UInt32.not_lt, UInt32.le_iff_toNat_le, UInt32.le_iff_toNat_le]
            at hend
          have hsum := UInt32.toNat_add (e.offset + t.1) e.size
          have hlt := (e.offset + t.1).toNat_lt
          have hlt' := e.size.toNat_lt
          refine ⟨?_, t, ?_, e, he, rfl, rfl⟩
          · dsimp only
            omega
          · rw [foundPartition_tables]
            exact ht

/-- Tables and partitions stay, and new partitions are in their places. -/
structure Keeps (block : BlockDev) (s s' : Scan) : Prop where
  tables : s.tables ⊆ s'.tables
  placed : Placed block s → Placed block s'

theorem Keeps.trans {s'' : Scan} (h : Keeps block s s') (h' : Keeps block s' s'') : Keeps block s s'' :=
  ⟨fun _ ht => h'.tables (h.tables ht), fun hs => h'.placed (h.placed hs)⟩

theorem Keeps.printf (s : Scan) (m : Message) : Keeps block s (s.printf m) :=
  ⟨fun _ ht => ht, fun hs => hs⟩

/-- The table of a sector is recorded. -/
theorem Keeps.record (block : BlockDev) (s : Scan) (t : UInt32 × Sector) :
    Keeps block s { s with tables := s.tables ++ [t] } := by
  have hmore : ∀ t' ∈ s.tables, t' ∈ s.tables ++ [t] := fun t' ht' => List.mem_append_left _ ht'
  refine ⟨hmore, fun hs p hp => ?_⟩
  obtain ⟨hfits, t', ht', hentry⟩ := hs p hp
  exact ⟨hfits, t', hmore t' ht', hentry⟩

theorem readEntry_keeps {t : UInt32 × Sector}
    (hrec : ∀ sector primary s s', readTable sector primary s = some s' → Keeps block s s')
    (ht : t ∈ s.tables) (he : e ∈ partitions t.2)
    (h : readEntry readTable block t.1 primary s e = some s') : Keeps block s s' := by
  by_cases hnested : e.Nested
  · rw [readEntry_nested hnested] at h
    exact (Keeps.printf s _).trans (hrec _ _ _ _ h)
  · rcases readEntry_other s hnested with hother | hother
    · cases hother.symm.trans h
      exact ⟨fun _ ht => ht, fun hs => hs⟩
    · cases hother.symm.trans h
      refine ⟨?_, fun hs => foundPartition_placed (s := { s with partNr := s.partNr + 1 }) hs ht he⟩
      rw [foundPartition_tables]
      exact fun _ ht => ht

/-- What has been found stays found. -/
theorem readTable_keeps (h : readPartitionTable block depth sector primary s = some s') :
    Keeps block s s' := by
  induction depth generalizing sector primary s s' with
  | zero => cases h
  | succ depth ih =>
      rw [readPartitionTable] at h
      split at h
      · cases h
        exact .printf s _
      · have hrecord := Keeps.record block s (sector, block.data 0)
        dsimp only at h
        split at h
        · -- the table that the entries are in stays
          refine (foldlM_some (P := fun s₁ => (sector, block.data 0) ∈ s₁.tables ∧ Keeps block s s₁)
            (fun e he s₁ s₂ hs₁ hstep => ?_) ⟨List.mem_append_right _ List.mem_cons_self, hrecord⟩ h).2
          have hkeeps := readEntry_keeps (t := (sector, block.data 0)) (fun _ _ _ _ => ih) hs₁.1 he hstep
          exact ⟨hkeeps.tables hs₁.1, hs₁.2.trans hkeeps⟩
        · split at h <;> cases h <;> exact hrecord.trans (.printf _ _)

/-- The table is recorded for the sector that was asked for, and it is the one in sector 0. -/
theorem readTable_recorded (h : readPartitionTable block depth sector primary s = some s')
    (hlt : sector < block.size) (hs : signed (block.data 0) = true) :
    (sector, block.data 0) ∈ s'.tables := by
  cases depth with
  | zero => cases h
  | succ depth =>
      rw [readTable_signed hlt hs] at h
      refine foldlM_some (P := fun s₁ => (sector, block.data 0) ∈ s₁.tables)
        (fun e he s₁ s₂ hs₁ hstep => ?_) (List.mem_append_right _ List.mem_cons_self) h
      exact (readEntry_keeps (t := (sector, block.data 0))
        (fun _ _ _ _ => readTable_keeps) hs₁ he hstep).tables hs₁

/-! ## Scans that end -/

/-- A call that reads no table, or the one in sector 0 for a sector with the same contents. -/
theorem readEntry_ends
    (hnext : e.Nested → ∀ s, TablesRight block s → ∃ s',
      readTable (nestedCall sector primary e).1 (nestedCall sector primary e).2 s = some s' ∧
        TablesRight block s')
    (hs : TablesRight block s) :
    ∃ s', readEntry readTable block sector primary s e = some s' ∧ TablesRight block s' := by
  by_cases hnested : e.Nested
  · rw [readEntry_nested hnested]
    exact hnext hnested (s.printf (.extended sector)) hs
  · rcases readEntry_other s hnested with hother | hother
    · exact ⟨s, hother, hs⟩
    · refine ⟨_, hother, ?_⟩
      unfold TablesRight
      rw [foundPartition_tables]
      exact hs

/-- The entries of a table whose extended partitions can be read. -/
theorem readTable_ends (hlt : sector < block.size) (hsigned : signed (block.data 0) = true)
    (hsame : block.data sector = block.data 0)
    (hnext : ∀ e ∈ partitions (block.data 0), e.Nested → ∀ s, TablesRight block s → ∃ s',
      readPartitionTable block depth (nestedCall sector primary e).1 (nestedCall sector primary e).2 s =
        some s' ∧ TablesRight block s')
    (hs : TablesRight block s) :
    ∃ s', readPartitionTable block (depth + 1) sector primary s = some s' ∧ TablesRight block s' := by
  rw [readTable_signed hlt hsigned]
  refine foldlM_ends (fun e he s₁ hs₁ => readEntry_ends (hnext e he) hs₁) ?_
  intro t ht
  rcases List.mem_append.mp ht with ht | ht
  · exact hs t ht
  · obtain rfl := List.mem_singleton.mp ht
    exact hsame.symm

/-- The scan goes down one level at most, and every table it reads is the right one. -/
theorem Unnested.ends (h : Unnested block) :
    ∃ s, readPartitionTable block 3 0 0 ⟨0, [], [], []⟩ = some s ∧ TablesRight block s := by
  have hstart : TablesRight block ⟨0, [], [], []⟩ := by
    intro t ht
    cases ht
  by_cases hpos : 0 < block.size
  · cases hsigned : signed (block.data 0) with
    | false =>
        refine ⟨Scan.printf ⟨0, [], [], [(0, block.data 0)]⟩ .badSignature, ?_, ?_⟩
        · rw [readPartitionTable, if_neg (UInt32.not_le.mpr hpos)]
          dsimp only
          rw [hsigned]
          rfl
        · rintro t ht
          obtain rfl := List.mem_singleton.mp ht
          rfl
    | true =>
        refine readTable_ends hpos hsigned rfl (fun e he hnested s hs => ?_) hstart
        by_cases hlt : e.offset < block.size
        · obtain ⟨hne, hsame, hbeyond⟩ := h hsigned e he hnested hlt
          refine readTable_ends hlt hsigned hsame (fun e' he' hnested' s hs => ?_) hs
          have hcall : nestedCall (nestedCall 0 0 e).1 (nestedCall 0 0 e).2 e' =
              (e'.offset + e.offset, e.offset) := if_neg hne
          rw [hcall]
          exact ⟨_, readTable_pastEnd (hbeyond e' he' hnested'), hs⟩
        · exact ⟨_, readTable_pastEnd (UInt32.not_lt.mp hlt), hs⟩
  · exact ⟨_, readTable_pastEnd (UInt32.not_lt.mp hpos), hstart⟩

/-- An extended partition on the device is read with the
table of sector 0, so that this has to be its own. -/
theorem ScanRight.unnested (h : ScanRight block) : Unnested block := by
  obtain ⟨depth, s, hend, htables, -⟩ := h
  intro hsigned e he hnested hlt
  obtain ⟨hne, hbeyond⟩ := ends_nested hend hsigned he hnested hlt
  refine ⟨hne, (htables (e.offset, block.data 0) ?_).symm, hbeyond⟩
  -- the call for the extended partition has recorded the table
  have hpos : 0 < block.size := UInt32.lt_of_le_of_lt UInt32.zero_le hlt
  obtain ⟨s₁, hs₁, hs⟩ := Option.bind_eq_some_iff.mp hend
  have htables' : s.tables = s₁.tables := by
    cases hs
    split <;> rfl
  rw [htables']
  cases depth with
  | zero => cases hs₁
  | succ depth =>
      rw [readTable_signed hpos hsigned] at hs₁
      have hkeeps : ∀ e' ∈ partitions (block.data 0), ∀ s₂ s₃, (0, block.data 0) ∈ s₂.tables →
          readEntry (readPartitionTable block depth) block 0 0 s₂ e' = some s₃ → Keeps block s₂ s₃ :=
        fun e' he' s₂ s₃ ht hstep =>
          readEntry_keeps (t := (0, block.data 0)) (fun _ _ _ _ => readTable_keeps) ht he' hstep
      refine foldlM_reaches (P := fun s₂ => (0, block.data 0) ∈ s₂.tables)
        (Q := fun s₂ => (e.offset, block.data 0) ∈ s₂.tables) he
        (fun e' he' s₂ s₃ ht hstep => (hkeeps e' he' s₂ s₃ ht hstep).tables ht)
        (fun e' he' s₂ s₃ ht hq hstep => (hkeeps e' he' s₂ s₃ ht hstep).tables hq)
        (fun s₂ s₃ _ hstep => ?_) List.mem_cons_self hs₁
      rw [readEntry_nested hnested] at hstep
      exact readTable_recorded hstep hlt hsigned

theorem Unnested.scanRight (h : Unnested block) : ScanRight block := by
  obtain ⟨s, hs, htables⟩ := h.ends
  have hplaced := (readTable_keeps hs).placed fun p hp => by cases hp
  refine ⟨3, if s.partNr = 0 then s.printf .noPartitions else s, ?_, ?_⟩
  · unfold partitionScan
    rw [hs]
    rfl
  · split <;> exact ⟨htables, hplaced⟩

/-- The scan is right if and only if no extended partition needs a table of its own: the code reads the
one in sector 0, whatever sector it is given. -/
theorem partition_scan_iff (block : BlockDev) : ScanRight block ↔ Unnested block :=
  ⟨ScanRight.unnested, Unnested.scanRight⟩

/-- An extended partition in sector 1 of two. -/
def extendedDisk : BlockDev where
  size := 2
  data := fun sector => if sector = 0 then fun i =>
      if i = 450 then 5 else if i = 454 ∨ i = 458 then 1 else if i = 510 then 0x55
      else if i = 511 then 0xaa else 0
    else Block.fill 0

theorem extendedDisk_wrong : ¬ ∀ block, ScanRight block := by
  intro hall
  have hentry : (⟨5, 1, 1⟩ : PartitionTableEntry) ∈ partitions (extendedDisk.data 0) := by decide
  obtain ⟨-, hsame, -⟩ := (hall extendedDisk).unnested (by decide) _ hentry
    (by decide) (by decide)
  exact absurd (congrFun hsame 510) (by decide)

end CS162.Devices
