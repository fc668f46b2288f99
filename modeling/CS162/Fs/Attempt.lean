/-
# `CS162.Fs.Attempt` — `inode_extend` as a whole

One attempt goes over the direct pointers, the doubly indirect block and the indirect
blocks, and writes the header.  It ends with everything allocated (`Extended`, `Trimmed`)
or stops where an allocation fails (`Stopped`).  In the second case `inode_extend` calls
itself with the length that is in the header.
-/
import CS162.Fs.Indirect

namespace CS162.Fs

open Bytes Wp

variable {alloc : FsM (Option UInt32)} {release : UInt32 → FsM Unit} {I : Vol → Prop}
  {K F R W H : UInt32 → Prop} {E : Panic → Vol → Prop} {v₀ v v' : Vol}
  {m₀ m m' : Slot → UInt32}

/-! ## One attempt -/

/-- Everything the first `size` bytes need is allocated. -/
def Full (m : Slot → UInt32) (size : Nat) : Prop := ∀ a : Slot, a.base < size → m a ≠ unallocated

/-- No indirect block is there that the first `size` bytes do not need. -/
def Ends (m : Slot → UInt32) (size : Nat) : Prop :=
  ∀ i : Fin 128, size ≤ directPointerSize + 65536 * i.val → m (.indirect i) = unallocated

/-- An attempt that allocated all it needed: the header is on the disk. -/
structure Extended (I : Vol → Prop) (R W H : UInt32 → Prop) (s : UInt32) (v : Vol)
    (id : InodeDisk) (size : Nat) (v' : Vol) (id' : InodeDisk) : Prop where
  ext : Ext I R W H v (pointerAt v.disk id) v' (pointerAt v'.disk id')
  full : Full (pointerAt v'.disk id') size
  header : v'.disk s = id'.toSector
  fields : ∃ p q, id' = { id with directPointers := p, doublyIndirect := q }.setLen size

/-- What it leaves past the size: the doubly indirect block if there was one, and nothing
else unless there were indirect blocks that it did not look at.  In no case is there a data block
where there was none. -/
structure Trimmed (R : UInt32 → Prop) (v : Vol) (m₀ : Slot → UInt32) (size : Nat) (v' : Vol)
    (m : Slot → UInt32) : Prop where
  kept : m₀ .doubly ≠ unallocated → m .doubly = m₀ .doubly
  none : m₀ .doubly = unallocated → size ≤ directPointerSize → m .doubly = unallocated
  tail : Ends m₀ size → ∀ a : Slot, a ≠ .doubly → size ≤ a.base → m a = unallocated
  empty : ∀ a : Slot, a.IsData → size ≤ a.base → m₀ a = unallocated → m a = unallocated
  covered : Ends m₀ size → Covered R v.freeMap m₀ → Covered R v'.freeMap m
  flag : v'.allocFailed = v.allocFailed

/-- An attempt in which an allocation failed. -/
structure Stopped (I : Vol → Prop) (R W H : UInt32 → Prop) (v : Vol)
    (id : InodeDisk) (size : Nat) (v' : Vol) (id' : InodeDisk) : Prop where
  ext : Ext I R W H v (pointerAt v.disk id) v' (pointerAt v'.disk id')
  below : Below (pointerAt v.disk id) (pointerAt v'.disk id')
  failed : v'.allocFailed = true
  fields : ∃ p q, id' = { id with directPointers := p, doublyIndirect := q }
  halted : ∃ a n, a.base < size ∧
    Halted R v (pointerAt v.disk id) (pointerAt v.disk id) v' n a ∧
    pointerAt v'.disk id' = salvaged (pointerAt v.disk id) n a

theorem Stopped.missing {id id' : InodeDisk} {size : Nat} (h : Stopped I R W H v id size v' id') :
    ∃ a : Slot, a.base < size ∧ pointerAt v.disk id a = unallocated := by
  obtain ⟨a, n, ha, hh, -⟩ := h.halted
  exact ⟨a, ha, hh.here⟩

theorem pointerAt_fields {disk : UInt32 → Sector} {id id' : InodeDisk}
    (h₁ : id'.directPointers = id.directPointers) (h₂ : id'.doublyIndirect = id.doublyIndirect) :
    pointerAt disk id' = pointerAt disk id := by
  funext a
  cases a <;> simp only [pointerAt, h₁, h₂]

@[simp] theorem pointerAt_setLen (disk : UInt32 → Sector) (id : InodeDisk) (size : Nat) :
    pointerAt disk (id.setLen size) = pointerAt disk id :=
  pointerAt_fields rfl rfl

section Attempt

variable (spec : FreeMapSpec alloc release I K F E) (hKR : ∀ x, K x → R x) (hFW : ∀ x, F x → W x)
variable {s : UInt32} (hRs : R s) (hKs : ¬ K s) (hWs : W s) (hss : s < v.size)
variable {id : InodeDisk} {size : Nat}

include spec hKR hFW hRs hKs hWs hss

omit hKR hFW in
/-- The header is written last. -/
theorem finishExtend_spec {v₁ : Vol} {id₁ : InodeDisk} {p : Fin 123 → UInt32} {q : UInt32}
    (h : Ext I R W H v (pointerAt v.disk id) v₁ (pointerAt v₁.disk id₁))
    (hf : Full (pointerAt v₁.disk id₁) size)
    (ht : Trimmed R v (pointerAt v.disk id) size v₁ (pointerAt v₁.disk id₁))
    (hid : id₁ = { id with directPointers := p, doublyIndirect := q }) :
    vwp (finishExtend s id₁ size) (fun r v' => r.1 = true ∧ Extended I R W H s v id size v' r.2 ∧
      Trimmed R v (pointerAt v.disk id) size v' (pointerAt v'.disk r.2)) E v₁ := by
  refine wpOn_seq (vwp_cacheWrite (Q := fun _ v' => v' = v₁.write s (id₁.setLen size).toSector)
    (by rw [h.size]; exact hss) rfl) ?_
  rintro - v' rfl
  refine wpOn_pure ⟨rfl, ?_⟩
  -- the header is none of the inode's tables
  have hview : pointerAt (v₁.write s (id₁.setLen size).toSector).disk (id₁.setLen size)
      = pointerAt v₁.disk id₁ := by
    rw [pointerAt_setLen]
    refine pointerAt_congr fun a _ hu => Vol.write_other _ _ ?_
    intro he
    exact h.sound.apart a hu (he ▸ hRs)
  refine ⟨⟨?_, ?_, Vol.write_self _ _ _, p, q, by rw [hid]⟩, ?_⟩
  · rw [hview]
    exact h.writeHeader (spec.write _ _ _ h.inv hKs) hRs hWs
  · rw [hview]
    exact hf
  · rw [hview]
    exact ⟨ht.kept, ht.none, ht.tail, ht.empty, ht.covered, ht.flag⟩

omit hRs hKs hWs hss in
/-- The doubly indirect block is there, or made. -/
theorem fitDoublyIndirect_spec {v₁ : Vol} {id₁ : InodeDisk}
    (h : Ext I R W H v₀ m₀ v₁ (pointerAt v₁.disk id₁))
    (h0 : pointerAt v₁.disk id₁ .doubly = m₀ .doubly)
    (hg : id₁.doublyIndirect = unallocated → ∀ x, R x → H x) :
    vwp (fitDoublyIndirect alloc id₁) (fun r v' => match r with
      | none => id₁.doublyIndirect = unallocated ∧ I v' ∧ v' = { v₁ with allocFailed := true } ∧
          v₁.freeMap.AllUsed
      | some (q, buffer) => ∃ m₂, Ext I R W H v₀ m₀ v' m₂ ∧ m₂ .doubly = q ∧
          q ≠ unallocated ∧ (∀ a, a ≠ .doubly → m₂ a = pointerAt v₁.disk id₁ a) ∧
          (id₁.doublyIndirect ≠ unallocated → q = id₁.doublyIndirect) ∧
          (∀ i, Synced v'.disk m₂ i) ∧ (∀ i, buffer i = m₂ (.indirect i)) ∧
          (∀ i, Table.ofSector (v'.disk q) i = m₂ (.indirect i)) ∧
          (Covered R v₁.freeMap (pointerAt v₁.disk id₁) → Covered R v'.freeMap m₂) ∧
          v'.allocFailed = v₁.allocFailed) E v₁ := by
  unfold fitDoublyIndirect
  refine wpOn_ite (fun hu => ?_) (fun hu => ?_)
  · refine wpOn_seq (spec.alloc v₁ h.inv) ?_
    intro r v' hr
    cases r with
    | none => exact wpOn_pure ⟨hu, hr⟩
    | some x =>
        obtain ⟨hI, hlt, hfree, d, rfl, hd⟩ := hr
        have hx : x < v₁.size := by
          have := spec.size v₁ h.inv
          rw [this] at hlt
          exact hlt
        refine wpOn_seq (vwp_cacheWrite (Q := fun _ v' => v' = _) hx rfl) ?_
        rintro - v' rfl
        refine wpOn_pure ?_
        have hnone : ∀ i, pointerAt v₁.disk id₁ (.indirect i) = unallocated := by
          intro i
          simp [pointerAt, hu]
        have hother : ∀ a, a ≠ .doubly →
            Function.update (pointerAt v₁.disk id₁) .doubly x a = pointerAt v₁.disk id₁ a :=
          fun a ha => Function.update_of_ne ha _ _
        refine ⟨_, h.take spec hKR hFW (a := .doubly) (hg hu) hu h0 hlt hfree hd hI,
          Function.update_self _ _ _, ne_unallocated hx, hother, fun hn => absurd hu hn, fun i => ?_,
          fun i => ?_, fun i => ?_, fun hc => hc.take hu (ne_unallocated hx), rfl⟩
        · refine ⟨fun _ j => ?_, fun hi => ?_⟩
          · rw [hother _ (by simp)]
            exact (pointerAt_synced _ _ i).closed (hnone i) j
          · rw [hother _ (by simp)] at hi
            exact absurd (hnone i) hi
        · rw [hother _ (by simp), hnone i]
        · rw [hother _ (by simp), hnone i, Vol.write_self]
          exact ofSector_unallocatedBlock i
  · have hb : id₁.doublyIndirect < v₁.size :=
      h.sound.lt_size (spec.size _ h.inv) (a := .doubly) hu
    have htable : ∀ i, Table.ofSector (v₁.disk id₁.doublyIndirect) i
        = pointerAt v₁.disk id₁ (.indirect i) := by
      intro i
      simp [pointerAt, hu]
    refine wpOn_seq (vwp_cacheRead
      (Q := fun b v' => b = v₁.disk id₁.doublyIndirect ∧ v' = v₁) hb ⟨rfl, rfl⟩) ?_
    rintro b v' ⟨rfl, rfl⟩
    exact wpOn_pure ⟨_, h, rfl, hu, fun _ _ => rfl, fun _ => rfl, fun i => pointerAt_synced _ _ i,
      htable, htable, fun hc => hc, rfl⟩

omit spec hKR hFW hRs hKs hWs hss in
/-- After the loop over the direct pointers the header has what the map has. -/
theorem LoopDone.direct_view {past : Fin 123 → Bool} {l : List (Fin 123)}
    {r : Bool × (Fin 123 → UInt32)}
    (h : LoopDone I R W H v₀ m₀ v (pointerAt v.disk id) .direct past l r v' m') :
    pointerAt v'.disk { id with directPointers := r.2 } = m' := by
  have hm : ∀ a, (∀ i, a ≠ .direct i) → m' a = pointerAt v.disk id a :=
    fun a ha => h.others a fun i _ => ha i
  have hdisk : ∀ a, (∀ i, a ≠ .direct i) → pointerAt v.disk id a ≠ unallocated →
      v'.disk (pointerAt v.disk id a) = v.disk (pointerAt v.disk id a) :=
    fun a ha => h.disk a fun i _ => ha i
  have hdoubly := hm .doubly (fun _ => by simp)
  refine pointerAt_eq h.result hdoubly.symm (fun hu i => ?_) (fun hu i => ?_) (fun i => ⟨?_, ?_⟩)
  · rw [hdoubly] at hu
    have hu' : id.doublyIndirect = unallocated := hu
    rw [hm _ (fun _ => by simp)]
    simp [pointerAt, hu']
  · rw [hdoubly] at hu ⊢
    have hu' : id.doublyIndirect ≠ unallocated := hu
    rw [hdisk .doubly (fun _ => by simp) hu, hm _ (fun _ => by simp)]
    simp [pointerAt, hu']
  · intro hu j
    rw [hm _ (fun _ => by simp)] at hu ⊢
    exact (pointerAt_synced _ _ i).closed hu j
  · intro hu j
    rw [hm _ (fun _ => by simp)] at hu ⊢
    rw [hm _ (fun _ => by simp), hdisk _ (fun _ => by simp) hu]
    exact (pointerAt_synced _ _ i).table hu j

omit spec hKR hFW hRs hKs hWs hss in
/-- Once the table of the doubly indirect block is on the disk, header and disk
determine the map. -/
theorem IndirectDone.view {v₂ v₃ : Vol} {m₂ m₃ : Slot → UInt32} {l : List (Fin 128)}
    {r : Bool × Table} {n : Nat} {id₂ : InodeDisk}
    (h : IndirectDone I R W H v₀ m₀ v₂ m₂ n l r v₃ m₃)
    (hdirect : ∀ i, id₂.directPointers i = m₂ (.direct i)) (hdoubly : id₂.doublyIndirect = m₂ .doubly)
    (hu : m₂ .doubly ≠ unallocated) {disk : UInt32 → Sector}
    (htable : ∀ i, Table.ofSector (disk (m₂ .doubly)) i = m₃ (.indirect i))
    (hdisk : ∀ i, m₃ (.indirect i) ≠ unallocated →
      disk (m₃ (.indirect i)) = v₃.disk (m₃ (.indirect i))) : pointerAt disk id₂ = m₃ := by
  refine pointerAt_eq (fun i => (hdirect i).trans (h.direct i).symm) (hdoubly.trans h.doubly.symm)
    (fun hc => absurd (h.doubly ▸ hc) hu) (fun _ i => ?_) (fun i => ⟨(h.sync i).closed, ?_⟩)
  · rw [h.doubly]
    exact htable i
  · intro hi j
    rw [hdisk i hi]
    exact (h.sync i).table hi j

section Direct

variable {r : Bool × (Fin 123 → UInt32)}
  (hd : LoopDone I R W H v (pointerAt v.disk id) v (pointerAt v.disk id) .direct
    (fun i => decide (size ≤ 512 * i.val)) (List.finRange 123) r v' m')

include hd

omit spec hKR hFW hRs hKs hWs hss

theorem LoopDone.direct_other {a : Slot} (ha : ∀ i, a ≠ .direct i) : m' a = pointerAt v.disk id a :=
  hd.others a fun i _ => ha i

theorem LoopDone.direct_done (hr : r.1 = true) (i : Fin 123) :
    m' (.direct i) = unallocated ↔ size ≤ 512 * i.val := by
  rw [hd.done hr i (List.mem_finRange i), decide_eq_true_eq]

/-- An allocation for a direct pointer fails. -/
theorem LoopDone.stopped (hr : r.1 = false) :
    Stopped I R W H v id size v' { id with directPointers := r.2 } := by
  obtain ⟨hb, hf, hall, i, -, hpi, hui, hbefore, hbehind⟩ := hd.fail hr
  have hview := hd.direct_view
  have hext := hd.ext
  rw [← hview] at hext
  have hsame : ∀ b : Slot, (∀ k, b ≠ .direct k) → m' b = pointerAt v.disk id b :=
    fun b hb => hd.direct_other hb
  refine ⟨hext, by rw [hview]; exact hb, hf, ⟨r.2, id.doublyIndirect, rfl⟩, .direct i, m', ?_, ?_, ?_⟩
  · simp only [decide_eq_false_iff_not] at hpi
    simp only [Slot.base]
    omega
  · refine ⟨hui, fun b hpos => ?_, fun b hpos => ?_, hb, hd.ext.sound, hall, hd.covered⟩
    · cases b with
      | direct k => exact hbefore k (List.mem_finRange k) hpos
      | doubly => simp only [Slot.pos] at hpos; omega
      | indirect k => simp only [Slot.pos] at hpos; omega
      | data k j => simp only [Slot.pos] at hpos; omega
    · cases b with
      | direct k => exact hbehind k (List.mem_finRange k) hpos
      | doubly => exact hsame _ (by simp)
      | indirect k => exact hsame _ (by simp)
      | data k j => exact hsame _ (by simp)
  · rw [hview, salvaged_self (fun k => hsame _ (by simp)) fun k j => hsame _ (by simp)]

/-- The allocation of the doubly indirect block fails. -/
theorem LoopDone.stopped_doubly (hr : r.1 = true) (hlt : directPointerSize < size)
    (hb : Below (pointerAt v.disk id) m') (hu : id.doublyIndirect = unallocated)
    (hI : I { v' with allocFailed := true }) (hall : v'.freeMap.AllUsed) :
    Stopped I R W H v id size { v' with allocFailed := true } { id with directPointers := r.2 } := by
  have hview := hd.direct_view
  have hext := hd.ext.fail hI
  have hview' : pointerAt { v' with allocFailed := true }.disk { id with directPointers := r.2 } = m' :=
    hview
  rw [← hview'] at hext
  have hsame : ∀ b : Slot, (∀ k, b ≠ .direct k) → m' b = pointerAt v.disk id b :=
    fun b hb => hd.direct_other hb
  refine ⟨hext, by rw [hview']; exact hb, rfl, ⟨r.2, id.doublyIndirect, rfl⟩, .doubly, m', hlt, ?_, ?_⟩
  · refine ⟨hu, fun b hpos => ?_, fun b hpos => ?_, hb, hd.ext.sound, hall, hd.covered⟩
    · cases b with
      | direct k =>
          have hk := k.isLt
          rw [ne_eq, hd.direct_done hr]
          simp only [directPointerSize] at hlt
          omega
      | doubly => exact absurd hpos (Nat.lt_irrefl _)
      | indirect k => simp only [Slot.pos] at hpos; omega
      | data k j => simp only [Slot.pos] at hpos; omega
    · cases b with
      | direct k =>
          have hk := k.isLt
          simp only [Slot.pos] at hpos
          omega
      | doubly => exact hsame _ (by simp)
      | indirect k => exact hsame _ (by simp)
      | data k j => exact hsame _ (by simp)
  · rw [hview', salvaged_self (fun k => hsame _ (by simp)) fun k j => hsame _ (by simp)]

/-- The size fits in the direct blocks. -/
theorem LoopDone.trimmed (hr : r.1 = true) (hu : id.doublyIndirect = unallocated) :
    Trimmed R v (pointerAt v.disk id) size v' m' := by
  have hsame : m' .doubly = pointerAt v.disk id .doubly := hd.direct_other (by simp)
  have htail : ∀ a : Slot, a ≠ .doubly → size ≤ a.base → m' a = unallocated := by
    intro a ha hle
    cases a with
    | direct i => exact (hd.direct_done hr i).mpr hle
    | doubly => exact absurd rfl ha
    | indirect i =>
        rw [hd.direct_other (by simp)]
        simp [pointerAt, hu]
    | data i j =>
        rw [hd.direct_other (by simp)]
        simp [pointerAt, hu]
  refine ⟨fun _ => hsame, fun h0 _ => hsame.trans h0, fun _ => htail, fun a ha hle _ => htail a ?_ hle,
    fun _ => hd.covered, hd.flag hr⟩
  rintro rfl
  exact ha

/-- It does not, and the indirect blocks have been done too. -/
theorem LoopDone.trimmed_indirect {v₂ v₃ : Vol} {m₂ m₃ : Slot → UInt32} {t : Bool × Table} {n : Nat}
    (hr : r.1 = true) (hneed : id.doublyIndirect = unallocated → directPointerSize < size)
    (hn : n = size - directPointerSize) (hm₂ : ∀ a, a ≠ .doubly → m₂ a = m' a)
    (hkeep : id.doublyIndirect ≠ unallocated → m₂ .doubly = id.doublyIndirect)
    (hcov : Covered R v'.freeMap m' → Covered R v₂.freeMap m₂) (hflag : v₂.allocFailed = v'.allocFailed)
    (hfin : IndirectDone I R W H v (pointerAt v.disk id) v₂ m₂ n (List.finRange 128) t v₃ m₃)
    (ht : t.1 = true) : Trimmed R v (pointerAt v.disk id) size v₃ m₃ := by
  have hsame : ∀ i, m₂ (.indirect i) = pointerAt v.disk id (.indirect i) := fun i => by
    rw [hm₂ _ (by simp), hd.direct_other (by simp)]
  have hend : Ends (pointerAt v.disk id) size → ∀ i : Fin 128, n ≤ i.val * 128 * 512 →
      m₂ (.indirect i) = unallocated := by
    intro he i hi
    rw [hsame]
    refine he i ?_
    simp only [directPointerSize] at hn ⊢
    omega
  have hdirect : ∀ i, size ≤ (Slot.direct i).base → m₃ (.direct i) = unallocated := by
    intro i hle
    rw [hfin.direct, hm₂ _ (by simp)]
    exact (hd.direct_done hr i).mpr hle
  -- the loop ends behind the last indirect block that is needed
  have hdata : ∀ i j, size ≤ (Slot.data i j).base →
      (n ≤ i.val * 128 * 512 → m₃ (.data i j) = unallocated) → m₃ (.data i j) = unallocated := by
    intro i j hle hrest
    simp only [Slot.base] at hle
    simp only [directPointerSize] at hn
    by_cases hi : n ≤ i.val * 128 * 512
    · exact hrest hi
    · exact ((hfin.done ht i (List.mem_finRange i) (by omega)).2 j).mpr (by omega)
  refine ⟨fun h0 => hfin.doubly.trans (hkeep h0), fun h0 hle => ?_, fun he a ha hle => ?_,
    fun a ha hle hu => ?_, fun he hc => ?_, ((hfin.flag ht).trans hflag).trans (hd.flag hr)⟩
  · exact absurd (hneed h0) (Nat.not_lt.mpr hle)
  · cases a with
    | direct i => exact hdirect i hle
    | doubly => exact absurd rfl ha
    | indirect i =>
        simp only [Slot.base] at hle
        simp only [directPointerSize] at hn
        have hi : n ≤ i.val * 128 * 512 := by omega
        exact hfin.rest ht i (List.mem_finRange i) hi (hend he i hi)
    | data i j =>
        exact hdata i j hle fun hi =>
          (hfin.sync i).closed (hfin.rest ht i (List.mem_finRange i) hi (hend he i hi)) j
  · cases a with
    | direct i => exact hdirect i hle
    | doubly => exact ha.elim
    | indirect i => exact ha.elim
    | data i j =>
        refine hdata i j hle fun hi => hfin.empty ht i (List.mem_finRange i) hi j ?_
        rw [hm₂ _ (by simp), hd.direct_other (by simp)]
        exact hu
  · exact hfin.covered ht (fun i _ => hend he i) (hcov (hd.covered hc))

end Direct

/-- The specification of one attempt. -/
theorem inodeExtendOnce_spec (hI : I v) (hsound : Sound R v.freeMap (pointerAt v.disk id))
    (hheld : ∀ x, H x → R x ∧ v.freeMap.Used x) (hg : 0 < size → ∀ x, R x → H x) :
    vwp (inodeExtendOnce alloc release s id size) (fun r v' =>
      (r.1 = true → Extended I R W H s v id size v' r.2 ∧
        Trimmed R v (pointerAt v.disk id) size v' (pointerAt v'.disk r.2)) ∧
      (r.1 = false → Stopped I R W H v id size v' r.2)) E v := by
  have h₀ : Ext I R W H v (pointerAt v.disk id) v (pointerAt v.disk id) :=
    Ext.refl hI hsound hheld
  have hb₀ : Below (pointerAt v.disk id) (pointerAt v.disk id) := fun _ _ => rfl
  unfold inodeExtendOnce
  refine wpOn_seq (fitPointers_spec spec hKR hFW (e := .direct) (fun i j hij => by simpa using hij)
    (fun _ => trivial) (fun i hi => ?_) (List.finRange 123) ?_ h₀ (fun _ => rfl) (fun _ _ => rfl)
    (Or.inr hb₀)) ?_
  · simp only [decide_eq_false_iff_not] at hi
    exact hg (by omega)
  · refine (List.pairwise_lt_finRange 123).imp ?_
    intro i j hij
    refine ⟨hij, ?_⟩
    have hle : i.val ≤ j.val := Nat.le_of_lt hij
    simp only [decide_eq_true_eq]
    exact fun h => h.trans (Nat.mul_le_mul_left 512 hle)
  rintro ⟨ok, pointers⟩ v₁ ⟨m₁, hd⟩
  cases ok with
  | false => exact wpOn_pure ⟨fun hr => (by cases hr), fun _ => hd.stopped rfl⟩
  | true =>
      have hview₁ := hd.direct_view
      have hext₁ := hd.ext
      rw [← hview₁] at hext₁
      have hdirect : ∀ i : Fin 123, 512 * i.val < size → m₁ (.direct i) ≠ unallocated := by
        intro i hi hu
        have := (hd.direct_done rfl i).mp hu
        omega
      refine wpOn_ite (fun hsmall => ?_) (fun hbig => ?_)
      · -- the size fits in the direct blocks
        refine wpOn_weaken (finishExtend_spec spec hRs hKs hWs hss (p := pointers)
          (q := id.doublyIndirect) hext₁ ?_ ?_ rfl)
          (fun r v' hr => ⟨fun _ => hr.2, fun hf => by rw [hr.1] at hf; cases hf⟩)
        · rw [hview₁]
          intro a ha
          obtain ⟨-, hle⟩ := hsmall
          simp only [directPointerSize] at hle
          cases a with
          | direct i => exact hdirect i ha
          | doubly => simp only [Slot.base] at ha; omega
          | indirect i => simp only [Slot.base] at ha; omega
          | data i j => simp only [Slot.base] at ha; omega
        · rw [hview₁]
          exact hd.trimmed rfl hsmall.1
      -- if the doubly indirect block is missing, it is needed
      have hneed : id.doublyIndirect = unallocated → directPointerSize < size := by
        intro hu
        by_contra hle
        exact hbig ⟨hu, by omega⟩
      have hlow₁ : directPointerSize < size → Below (pointerAt v.disk id) m₁ := by
        intro hlt
        refine hd.below hb₀ fun i => ?_
        have hi := i.isLt
        simp only [directPointerSize] at hlt
        simp only [decide_eq_false_iff_not]
        omega
      refine wpOn_seq (fitDoublyIndirect_spec spec hKR hFW hext₁
        (by rw [hview₁]; exact hd.direct_other (by simp)) fun hu => ?_) ?_
      · have := hneed hu
        exact hg (by omega)
      intro r v₂ hr
      cases r with
      | none =>
          obtain ⟨hu, hI₂, rfl, hall⟩ := hr
          exact wpOn_pure ⟨fun hr => (by cases hr), fun _ =>
            hd.stopped_doubly rfl (hneed hu) (hlow₁ (hneed hu)) hu hI₂ hall⟩
      | some qb =>
          obtain ⟨q, buffer⟩ := qb
          obtain ⟨m₂, hext₂, hq, hqu, hm₂, hkeep, hsync₂, hbuf, htable, hcov₂, hflag₂⟩ := hr
          rw [hview₁] at hm₂ hcov₂
          have hsame : ∀ a, a ≠ .doubly → (∀ i, a ≠ .direct i) → m₂ a = pointerAt v.disk id a :=
            fun a h1 h2 => (hm₂ a h1).trans (hd.direct_other h2)
          have hlow₂ : directPointerSize < size → Below (pointerAt v.disk id) m₂ := by
            intro hlt a ha
            by_cases hc : a = .doubly
            · subst hc
              rw [hq]
              exact hkeep ha
            · rw [hm₂ a hc]
              exact hlow₁ hlt a ha
          obtain ⟨n, hn⟩ : ∃ n, n = size - directPointerSize := ⟨_, rfl⟩
          have hn' := hn
          simp only [directPointerSize] at hn hlow₂
          simp only [directPointerSize, ← hn]
          have hq₂ : m₂ .doubly ≠ unallocated := by rw [hq]; exact hqu
          have hahead : Ahead (pointerAt v.disk id) m₂ n (List.finRange 128) := by
            refine ⟨List.pairwise_lt_finRange 128, fun _ _ k _ => List.mem_finRange k,
              fun i _ => ⟨hsame _ (by simp) (by simp), fun j => hsame _ (by simp) (by simp)⟩, ?_, ?_⟩
            · by_cases hlt : 62976 < size
              · exact Or.inr (hlow₂ hlt)
              · exact Or.inl fun i _ => by omega
            · rintro ⟨i, -, hi⟩
              refine ⟨fun k => ?_, hq₂, fun k hk => absurd (List.mem_finRange k) hk⟩
              have hk := k.isLt
              rw [hm₂ _ (by simp)]
              exact hdirect k (by omega)
          refine wpOn_seq (fitIndirect_spec spec hKR hFW (fun hlt => hg (by omega))
            (fun i => (pointerAt_synced _ _ i).closed) (List.finRange 128) hahead hext₂ hbuf hsync₂) ?_
          rintro ⟨ok, t⟩ v₃ ⟨m₃, hfin⟩
          have hq₃ : m₃ .doubly = q := hfin.doubly.trans hq
          have hdir₂ : ∀ i, pointers i = m₂ (.direct i) :=
            fun i => (hd.result i).trans (hm₂ _ (by simp)).symm
          cases ok with
          | false =>
              obtain ⟨hb, hf, hind, hpos, a, n', ha, hh, hsal⟩ := hfin.fail rfl
              have hview₃ : pointerAt v₃.disk
                  { id with directPointers := pointers, doublyIndirect := q } = m₃ := by
                refine hfin.view hdir₂ hq.symm hq₂ (fun i => ?_) (fun _ _ => rfl)
                rw [hfin.disk hq₂, hind, hq, htable i]
                exact hsame _ (by simp) (by simp)
              refine wpOn_pure ⟨fun hr => (by cases hr), fun _ => ⟨?_, ?_, hf,
                ⟨pointers, q, rfl⟩, a, n', ?_, ⟨hh.here, hh.before, hh.behind, hh.below, hh.sound,
                  hh.allUsed, fun hc => hh.covered (hcov₂ (hd.covered hc))⟩, ?_⟩⟩
              · rw [hview₃]
                exact hfin.ext
              · rw [hview₃]
                exact hb
              · simp only [directPointerSize] at ha
                omega
              · rw [hview₃]
                exact hsal
          | true =>
              have hqsz : q < v₃.size := by
                rw [← hq₃]
                exact hfin.ext.sound.lt_size (spec.size _ hfin.ext.inv) (by rw [hq₃]; exact hqu)
              refine wpOn_seq (vwp_cacheWrite
                (Q := fun _ v' => v' = v₃.write q (Table.toSector t)) hqsz rfl) ?_
              rintro - v₄ rfl
              have hu₃ : m₃ .doubly ≠ unallocated := by rw [hq₃]; exact hqu
              have hnK : ¬ K q := by
                intro hK
                have := hfin.ext.sound.apart .doubly hu₃
                rw [hq₃] at this
                exact this (hKR q hK)
              have hext₄ := hfin.ext.writeTable (a := .doubly) (b := Table.toSector t)
                (by rw [hq₃]; exact spec.write _ _ _ hfin.ext.inv hnK) (fun hn => hn) hu₃
              rw [hq₃] at hext₄
              have hview₄ : pointerAt (v₃.write q (Table.toSector t)).disk
                  { id with directPointers := pointers, doublyIndirect := q } = m₃ := by
                refine hfin.view hdir₂ hq.symm hq₂ (fun i => ?_) (fun i hi => ?_)
                · rw [hq, Vol.write_self, Table.ofSector_toSector]
                  exact hfin.result rfl i
                · refine Vol.write_other _ _ fun he => ?_
                  have := hfin.ext.sound.inj (.indirect i) .doubly hi (he.trans hq₃.symm)
                  cases this
              rw [← hview₄] at hext₄
              refine wpOn_weaken (finishExtend_spec spec hRs hKs hWs hss (p := pointers) (q := q)
                hext₄ ?_ ?_ rfl) (fun r v' hr => ⟨fun _ => hr.2, fun hf => by rw [hr.1] at hf; cases hf⟩)
              · rw [hview₄]
                intro a ha
                cases a with
                | direct i =>
                    rw [hfin.direct, hm₂ _ (by simp)]
                    exact hdirect i ha
                | doubly => exact hu₃
                | indirect i =>
                    simp only [Slot.base] at ha
                    exact (hfin.done rfl i (List.mem_finRange i) (by omega)).1
                | data i j =>
                    simp only [Slot.base] at ha
                    rw [ne_eq, (hfin.done rfl i (List.mem_finRange i) (by omega)).2 j]
                    omega
              · rw [hview₄]
                have ht : Trimmed R v (pointerAt v.disk id) size v₃ m₃ :=
                  hd.trimmed_indirect rfl hneed hn' hm₂ (fun hu => hq.trans (hkeep hu)) hcov₂ hflag₂
                    hfin rfl
                exact ⟨ht.kept, ht.none, ht.tail, ht.empty, ht.covered, ht.flag⟩

/-- When nothing is missing, nothing is allocated. -/
theorem inodeExtend_full (depth : Nat) (hI : I v) (hsound : Sound R v.freeMap (pointerAt v.disk id))
    (hheld : ∀ x, H x → R x ∧ v.freeMap.Used x) (hg : 0 < size → ∀ x, R x → H x)
    (hfull : Full (pointerAt v.disk id) size) :
    vwp (inodeExtend alloc release (depth + 1) s id size) (fun r v' => r.1 = true ∧
      Extended I R W H s v id size v' r.2 ∧
      Trimmed R v (pointerAt v.disk id) size v' (pointerAt v'.disk r.2)) E v := by
  refine wpOn_seq (inodeExtendOnce_spec spec hKR hFW hRs hKs hWs hss hI hsound hheld hg) ?_
  rintro ⟨ok, id₁⟩ v₁ ⟨hok, hstop⟩
  cases ok with
  | true => exact wpOn_pure ⟨rfl, hok rfl⟩
  | false =>
      obtain ⟨a, ha, hu⟩ := (hstop rfl).missing
      exact absurd hu (hfull a ha)

omit spec hKR hFW hRs hKs hWs hss in
/-- The way back after an attempt that stopped. -/
theorem Stopped.back {v₁ v₂ : Vol} {id₁ id₂ : InodeDisk} (hst : Stopped I R W H v id size v₁ id₁)
    (hback : Extended I R W H s v₁ id₁ id.len v₂ id₂) :
    Extended I R W H s v id id.len v₂ id₂ ∧ v₂.allocFailed = true := by
  obtain ⟨p, q, hid⟩ := hst.fields
  obtain ⟨p', q', hid'⟩ := hback.fields
  refine ⟨⟨hst.ext.trans hst.below hback.ext, hback.full, hback.header, p', q', ?_⟩,
    hback.ext.failed hst.failed⟩
  rw [hid', hid]

omit hss in
/-- The specification of `inode_extend`.  When it returns false the inode is back at
its length; it cannot fail to get there if nothing was missing at first. -/
theorem inodeExtend_spec :
    ∀ (depth : Nat) {v : Vol} {id : InodeDisk} {size : Nat},
      (0 < depth ∧ Full (pointerAt v.disk id) id.len ∨ ∀ v', v'.allocFailed = true → E .stack v') →
      s < v.size → I v →
      Sound R v.freeMap (pointerAt v.disk id) → (∀ x, H x → R x ∧ v.freeMap.Used x) →
      (0 < size → ∀ x, R x → H x) →
      vwp (inodeExtend alloc release (depth + 1) s id size) (fun r v' =>
        (r.1 = true → Extended I R W H s v id size v' r.2) ∧
        (r.1 = false → Extended I R W H s v id id.len v' r.2 ∧ v'.allocFailed = true)) E v := by
  intro depth
  induction depth with
  | zero =>
      intro v id size hstack hss hI hsound hheld hg
      refine wpOn_seq (inodeExtendOnce_spec spec hKR hFW hRs hKs hWs hss hI hsound hheld hg) ?_
      rintro ⟨ok, id₁⟩ v₁ ⟨hok, hstop⟩
      cases ok with
      | true => exact wpOn_pure ⟨fun h => (hok h).1, fun hf => by cases hf⟩
      | false =>
          have hE := hstack.resolve_left fun h => absurd h.1 (Nat.lt_irrefl 0)
          exact wpOn_seq (Q := fun _ _ => False) (wpOn_throw (hE _ (hstop rfl).failed))
            (fun _ _ hq => hq.elim)
  | succ depth ih =>
      intro v id size hstack hss hI hsound hheld hg
      refine wpOn_seq (inodeExtendOnce_spec spec hKR hFW hRs hKs hWs hss hI hsound hheld hg) ?_
      rintro ⟨ok, id₁⟩ v₁ ⟨hok, hstop⟩
      cases ok with
      | true => exact wpOn_pure ⟨fun h => (hok h).1, fun hf => by cases hf⟩
      | false =>
          have hst : Stopped I R W H v id size v₁ id₁ := hstop rfl
          obtain ⟨p, q, hid⟩ := hst.fields
          obtain ⟨a, ha, -⟩ := hst.missing
          have hgrow : ∀ x, R x → H x := hg (by omega)
          have hlen : id₁.len = id.len := by rw [hid]; rfl
          have hss₁ : s < v₁.size := by rw [hst.ext.size]; exact hss
          -- the way back may stop too; it ends at the same length
          have hback : vwp (inodeExtend alloc release (depth + 1) s id₁ id₁.len) (fun r v₂ =>
              Extended I R W H s v₁ id₁ id.len v₂ r.2) E v₁ := by
            rcases hstack with ⟨-, hfull⟩ | hstack
            · have hfull₁ : Full (pointerAt v₁.disk id₁) id₁.len := by
                intro b hb
                rw [hlen] at hb
                rw [hst.below b (hfull b hb)]
                exact hfull b hb
              refine wpOn_weaken (inodeExtend_full spec hKR hFW hRs hKs hWs hss₁ depth hst.ext.inv
                hst.ext.sound hst.ext.held (fun _ => hgrow) hfull₁) ?_
              rintro r v₂ ⟨-, hx, -⟩
              exact hlen ▸ hx
            · refine wpOn_weaken (ih (.inr hstack) hss₁ hst.ext.inv hst.ext.sound hst.ext.held
                fun _ => hgrow) ?_
              rintro ⟨ok, id₂⟩ v₂ ⟨hok₂, hstop₂⟩
              cases ok with
              | true => exact hlen ▸ hok₂ rfl
              | false => exact hlen ▸ (hstop₂ rfl).1
          refine wpOn_seq hback ?_
          rintro ⟨ok, id₂⟩ v₂ hx
          exact wpOn_pure ⟨fun hf => (by cases hf), fun _ => hst.back hx⟩

end Attempt

end CS162.Fs
