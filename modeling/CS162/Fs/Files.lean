/-
# `CS162.Fs.Files` — the bytes of an inode

`byteAt disk m p` is the byte at file position `p` of the inode with pointer map
`m`, zero where no block is allocated.  `inode_read_at` returns these bytes,
`inode_write_at` changes them at the positions written and nowhere else, and
`inode_extend` does not change them at all, provided the inode is `Blank` past its
length; which it stays.

The loops of the two functions need to know of the map only that it names
different sectors of the device in different places, `Distinct`.
-/
import CS162.Fs.Attempt

namespace CS162.Fs

open Bytes Wp

/-! ## Bytes by position -/

/-- The byte at position `p`. -/
def byteAt (disk : UInt32 → Sector) (m : Slot → UInt32) (p : Nat) : UInt8 :=
  if p < maxFileLen ∧ m (.ofPos p) ≠ unallocated then (disk (m (.ofPos p))).get (p % 512) else 0

/-- There is nothing but zeros from `len` on. -/
def Blank (disk : UInt32 → Sector) (m : Slot → UInt32) (len : Nat) : Prop :=
  ∀ p, len ≤ p → byteAt disk m p = 0

/-- Different slots name different sectors of a device of `size` sectors. -/
structure Distinct (size : UInt32) (m : Slot → UInt32) : Prop where
  lt : ∀ a, m a ≠ unallocated → m a < size
  inj : ∀ a a', m a ≠ unallocated → m a = m a' → a = a'

theorem Sound.distinct {R : UInt32 → Prop} {b : Bitmap} {m : Slot → UInt32} {size : UInt32}
    (h : Sound R b m) (hb : b.bitCnt = size.toNat) : Distinct size m :=
  ⟨fun _ ha => h.lt_size hb ha, h.inj⟩

variable {v v' : Vol} {id : InodeDisk} {m : Slot → UInt32} {E : Panic → Vol → Prop}
  {disk disk' : UInt32 → Sector}

/-- The bytes depend on the data sectors alone. -/
theorem byteAt_congr {p : Nat} (h : m (.ofPos p) ≠ unallocated →
    disk' (m (.ofPos p)) = disk (m (.ofPos p))) : byteAt disk' m p = byteAt disk m p := by
  unfold byteAt
  by_cases hp : p < maxFileLen ∧ m (.ofPos p) ≠ unallocated
  · rw [if_pos hp, if_pos hp, h hp.2]
  · rw [if_neg hp, if_neg hp]

/-- `inode_extend` to a length that is not below the old one changes no byte. -/
theorem Extended.bytes {I : Vol → Prop} {R W H : UInt32 → Prop} {s : UInt32}
    {size : Nat} {id' : InodeDisk} (h : Extended I R W H s v id size v' id')
    (hb : Blank v.disk (pointerAt v.disk id) size) (p : Nat) :
    byteAt v'.disk (pointerAt v'.disk id') p = byteAt v.disk (pointerAt v.disk id) p := by
  by_cases hp : p < maxFileLen
  · have hd := Slot.ofPos_isData p
    by_cases hu' : pointerAt v'.disk id' (.ofPos p) = unallocated
    · -- a block that is gone was past the size
      have hge : size ≤ p := by
        by_contra hlt
        refine h.full (.ofPos p) ?_ hu'
        rw [Slot.base_ofPos hp]
        omega
      rw [hb p hge, byteAt, if_neg (fun hc => hc.2 hu')]
    · rcases h.ext.step (.ofPos p) with hs | hs | hs
      · exact absurd hs hu'
      · have hk := h.ext.keep _ hd hu' hs
        rw [byteAt, byteAt, if_pos ⟨hp, hu'⟩, if_pos ⟨hp, hs ▸ hu'⟩, hk, hs]
      · have hz := h.ext.zero _ hd hu' hs
        rw [byteAt, byteAt, if_pos ⟨hp, hu'⟩, if_neg (fun hc => hc.2 hs), hz, zerosBlock,
          Block.get_fill (by omega)]
  · rw [byteAt, byteAt, if_neg (fun hc => hp hc.1), if_neg (fun hc => hp hc.1)]

/-! ## The loop of `inode_write_at` -/

/-- Both paths copy the chunk in. -/
theorem vwp_writeChunk {x : UInt32} {ofs : Nat} {chunk : List UInt8} {Q : Unit → Vol → Prop}
    (hx : x < v.size) (h : Q () (v.write x ((v.disk x).splice ofs chunk))) :
    vwp (writeChunk x ofs chunk) Q E v := by
  unfold writeChunk
  refine wpOn_ite (fun hc => ?_) (fun _ => vwp_cacheWriteLen hx h)
  obtain ⟨rfl, hlen⟩ := hc
  have heq : (v.disk x).splice 0 chunk = Block.ofList chunk := by
    refine Block.ext_get fun i hi => ?_
    rw [Block.get_splice _ hi, if_pos (by omega)]
    simp [Block.get, Block.ofList, hi]
  rw [heq] at h
  exact vwp_cacheWrite hx h

theorem vwp_writeChunk_pastEnd {x : UInt32} {ofs : Nat} {chunk : List UInt8}
    {Q : Unit → Vol → Prop} (hx : ¬ x < v.size) (h : E .pastEnd v) :
    vwp (writeChunk x ofs chunk) Q E v :=
  wpOn_ite (fun _ => vwp_cacheWrite_pastEnd hx h) (fun _ => vwp_cacheWriteLen_pastEnd hx h)

/-- The first `k` bytes of the buffer have been written at `offset`. -/
structure Wrote (v : Vol) (id : InodeDisk) (buffer : List UInt8) (offset k : Nat) (v' : Vol) :
    Prop where
  rest : ∃ d, v' = { v with disk := d }
  view : pointerAt v'.disk id = pointerAt v.disk id
  frame : ∀ x, (∀ a, a.IsData → pointerAt v.disk id a ≠ unallocated → pointerAt v.disk id a ≠ x) →
    v'.disk x = v.disk x
  bytes : ∀ p, byteAt v'.disk (pointerAt v.disk id) p =
    if offset ≤ p ∧ p < offset + k then buffer.getD (p - offset) 0
    else byteAt v.disk (pointerAt v.disk id) p
  there : ∀ p, offset ≤ p → p < offset + k →
    p < maxFileLen ∧ pointerAt v.disk id (.ofPos p) ≠ unallocated

theorem Wrote.none (v : Vol) (id : InodeDisk) (buffer : List UInt8) (offset : Nat) :
    Wrote v id buffer offset 0 v where
  rest := ⟨v.disk, rfl⟩
  view := rfl
  frame _ _ := rfl
  bytes p := by rw [if_neg (by omega)]
  there p h₁ h₂ := by omega

/-- One chunk, within one sector. -/
theorem Wrote.chunk {buffer : List UInt8} {offset k : Nat} (hd : Distinct v.size (pointerAt v.disk id))
    (hpos : offset < maxFileLen) (hu : pointerAt v.disk id (.ofPos offset) ≠ unallocated)
    (hk : k ≤ buffer.length) (hsec : offset % 512 + k ≤ 512) :
    Wrote v id buffer offset k (v.write (pointerAt v.disk id (.ofPos offset))
      ((v.disk (pointerAt v.disk id (.ofPos offset))).splice (offset % 512) (buffer.take k))) := by
  -- positions of the chunk are positions of its block
  have hblock : ∀ p, offset ≤ p → p < offset + k → p / 512 = offset / 512 := by
    intro p h₁ h₂
    omega
  refine ⟨⟨_, rfl⟩, ?_, ?_, ?_, ?_⟩
  · refine pointerAt_congr fun a ha hau => Vol.write_other _ _ ?_
    intro he
    have := hd.inj a _ hau he
    exact ha (this ▸ Slot.ofPos_isData offset)
  · intro x hx
    exact Vol.write_other _ _ (hx _ (Slot.ofPos_isData offset) hu).symm
  · intro p
    by_cases hsame : p / 512 = offset / 512
    · have hp : p < maxFileLen := by
        simp only [maxFileLen] at hpos ⊢
        omega
      have hslot := Slot.ofPos_eq (p := p) hpos hsame
      have hlen : (buffer.take k).length = k := by
        rw [List.length_take]
        omega
      rw [byteAt, if_pos ⟨hp, by rw [hslot]; exact hu⟩, hslot, Vol.write_self,
        Block.get_splice _ (Nat.mod_lt p (by omega)), hlen]
      by_cases hin : offset ≤ p ∧ p < offset + k
      · rw [if_pos hin, if_pos (by omega)]
        have hidx : p % 512 - offset % 512 = p - offset := by omega
        rw [hidx, List.getD_eq_getElem?_getD, List.getD_eq_getElem?_getD,
          List.getElem?_take_of_lt (by omega)]
      · rw [if_neg hin, if_neg (by omega), byteAt, if_pos ⟨hp, by rw [hslot]; exact hu⟩, hslot]
    · rw [if_neg (fun hin => hsame (hblock p hin.1 hin.2))]
      by_cases hp : p < maxFileLen
      · refine byteAt_congr fun hpu => Vol.write_other _ _ fun he => hsame ?_
        exact Slot.ofPos_inj hp hpos (hd.inj _ _ hpu he)
      · rw [byteAt, byteAt, if_neg (fun hc => hp hc.1), if_neg (fun hc => hp hc.1)]
  · intro p h₁ h₂
    have hsame := hblock p h₁ h₂
    have hp : p < maxFileLen := by
      simp only [maxFileLen] at hpos ⊢
      omega
    exact ⟨hp, by rw [Slot.ofPos_eq hpos hsame]; exact hu⟩

/-- One part of a write after the other. -/
theorem Wrote.trans {v₁ v₂ : Vol} {buffer : List UInt8} {offset k k' : Nat}
    (h : Wrote v id buffer offset k v₁) (h' : Wrote v₁ id (buffer.drop k) (offset + k) k' v₂) :
    Wrote v id buffer offset (k + k') v₂ := by
  have hview := h.view
  refine ⟨?_, h'.view.trans hview, ?_, ?_, ?_⟩
  · obtain ⟨d, rfl⟩ := h.rest
    obtain ⟨d', rfl⟩ := h'.rest
    exact ⟨d', rfl⟩
  · intro x hx
    rw [h'.frame x (by rw [hview]; exact hx), h.frame x hx]
  · intro p
    have hb' := h'.bytes p
    rw [hview] at hb'
    rw [hb']
    by_cases h2 : offset + k ≤ p ∧ p < offset + k + k'
    · rw [if_pos h2, if_pos (by omega), List.getD_eq_getElem?_getD, List.getD_eq_getElem?_getD,
        List.getElem?_drop]
      congr 2
      omega
    · rw [if_neg h2, h.bytes p]
      by_cases h1 : offset ≤ p ∧ p < offset + k
      · rw [if_pos h1, if_pos (by omega)]
      · rw [if_neg h1, if_neg (by omega)]
  · intro p h₁ h₂
    by_cases hp : p < offset + k
    · exact h.there p h₁ hp
    · have := h'.there p (by omega) (by omega)
      rw [hview] at this
      exact this

/-- The specification of the loop.  It ends at the end of the buffer or of the inode;
a missing block on the way stops the machine. -/
theorem inodeWriteLoop_spec :
    ∀ (fuel : Nat) {v : Vol} {buffer : List UInt8} {offset n : Nat}, buffer.length ≤ fuel →
      Distinct v.size (pointerAt v.disk id) →
      ((∀ p, offset ≤ p → p < offset + buffer.length → p < id.len →
        p < maxFileLen ∧ pointerAt v.disk id (.ofPos p) ≠ unallocated) ∨
        ∀ d, E .pastEnd { v with disk := d }) →
      vwp (inodeWriteLoop id fuel buffer offset n) (fun r v' =>
        r = n + min buffer.length (id.len - offset) ∧
        Wrote v id buffer offset (min buffer.length (id.len - offset)) v') E v := by
  intro fuel
  induction fuel with
  | zero =>
      intro v buffer offset n hlen _ _
      have h0 : min buffer.length (id.len - offset) = 0 := by omega
      rw [h0]
      exact wpOn_pure ⟨rfl, Wrote.none v id buffer offset⟩
  | succ fuel ih =>
      intro v buffer offset n hlen hd hE
      unfold inodeWriteLoop
      refine wpOn_ite (fun hz => ?_) (fun hz => ?_)
      · have h0 : min buffer.length (id.len - offset) = 0 := by omega
        rw [h0]
        exact wpOn_pure ⟨rfl, Wrote.none v id buffer offset⟩
      obtain ⟨x, hx⟩ : ∃ x, x = if offset < maxFileLen then pointerAt v.disk id (.ofPos offset)
        else unallocated := ⟨_, rfl⟩
      refine wpOn_seq (vwp_inodeFetchBlock (Q := fun r v' => r = x ∧ v' = v) hd.lt ⟨hx.symm, rfl⟩) ?_
      rintro r v' ⟨rfl, rfl⟩
      obtain ⟨k, hk⟩ : ∃ k, k = min buffer.length (min (id.len - offset) (512 - offset % 512)) :=
        ⟨_, rfl⟩
      simp only [← hk]
      have hmod : offset % 512 < 512 := Nat.mod_lt _ (by omega)
      refine wpOn_ite (fun hk0 => ?_) (fun hk0 => ?_)
      · have h0 : min buffer.length (id.len - offset) = 0 := by omega
        rw [h0]
        exact wpOn_pure ⟨rfl, Wrote.none v' id buffer offset⟩
      by_cases hrs : r < v'.size
      · have hru : r ≠ unallocated := ne_unallocated hrs
        have hpos : offset < maxFileLen := by
          by_contra hc
          rw [if_neg hc] at hx
          exact hru hx
        rw [if_pos hpos] at hx
        subst hx
        refine wpOn_seq (vwp_writeChunk (Q := fun _ v'' => v'' = _) hrs rfl) ?_
        rintro - v'' rfl
        have hw : Wrote v' id buffer offset k _ := .chunk hd hpos hru (by omega) (by omega)
        refine wpOn_weaken (ih (by rw [List.length_drop]; omega) ?_ ?_) ?_
        · rw [hw.view]
          exact hd
        · refine hE.imp_left fun hthere p h₁ h₂ h₃ => ?_
          rw [List.length_drop] at h₂
          rw [hw.view]
          exact hthere p (by omega) (by omega) h₃
        · rintro r v₂ ⟨hr, hw'⟩
          have hlen' : k + min (buffer.drop k).length (id.len - (offset + k))
              = min buffer.length (id.len - offset) := by
            rw [List.length_drop]
            omega
          refine ⟨by omega, ?_⟩
          rw [← hlen']
          exact hw.trans hw'
      · -- the block is missing
        rcases hE with hthere | hpast
        · obtain ⟨hpos, hu⟩ := hthere offset (by omega) (by omega) (by omega)
          rw [if_pos hpos] at hx
          exact absurd (hx ▸ hd.lt _ hu) hrs
        · exact wpOn_seq (Q := fun _ _ => False) (vwp_writeChunk_pastEnd hrs (hpast _))
            (fun _ _ hf => hf.elim)

/-! ## The loop of `inode_read_at` -/

theorem vwp_readChunk {x : UInt32} {ofs n : Nat} {Q : List UInt8 → Vol → Prop}
    (hx : x < v.size) (h : Q ((v.disk x).slice ofs n) v) : vwp (readChunk x ofs n) Q E v := by
  unfold readChunk
  refine wpOn_ite (fun hc => ?_) (fun _ => vwp_cacheReadLen hx h)
  obtain ⟨rfl, rfl⟩ := hc
  refine wpOn_seq (vwp_cacheRead (Q := fun b v' => b = v.disk x ∧ v' = v) hx ⟨rfl, rfl⟩) ?_
  rintro b v' ⟨rfl, rfl⟩
  exact wpOn_pure h

/-- The bytes of a file from `offset` on. -/
def bytesAt (disk : UInt32 → Sector) (m : Slot → UInt32) (offset n : Nat) : List UInt8 :=
  (List.range n).map fun k => byteAt disk m (offset + k)

theorem bytesAt_add (disk : UInt32 → Sector) (m : Slot → UInt32) (offset n k : Nat) :
    bytesAt disk m offset (n + k) = bytesAt disk m offset n ++ bytesAt disk m (offset + n) k := by
  simp only [bytesAt, List.range_add, List.map_append, List.map_map]
  congr 1
  refine List.map_congr_left fun i _ => ?_
  simp only [Function.comp_apply, Nat.add_assoc]

/-- A chunk within one sector. -/
theorem bytesAt_chunk {offset n : Nat} (hpos : offset < maxFileLen)
    (hu : m (.ofPos offset) ≠ unallocated) (hsec : offset % 512 + n ≤ 512) :
    (disk (m (.ofPos offset))).slice (offset % 512) n = bytesAt disk m offset n := by
  refine List.map_congr_left fun k hk => ?_
  rw [List.mem_range] at hk
  have hsame : (offset + k) / 512 = offset / 512 := by omega
  have hp : offset + k < maxFileLen := by
    simp only [maxFileLen] at hpos ⊢
    omega
  have hslot := Slot.ofPos_eq hpos hsame
  have hmod : (offset + k) % 512 = offset % 512 + k := by omega
  rw [byteAt, if_pos ⟨hp, by rw [hslot]; exact hu⟩, hslot, hmod]

/-- What the loop reads is in the file, and ends before its end only where a block is missing. -/
theorem inodeReadLoop_part (hd : Distinct v.size (pointerAt v.disk id)) :
    ∀ (fuel : Nat) {size offset : Nat} {buffer : List UInt8}, size ≤ fuel →
      vwp (inodeReadLoop id fuel size offset buffer) (fun r v' => v' = v ∧
        ∃ m, m ≤ min size (id.len - offset) ∧
          r = buffer ++ bytesAt v.disk (pointerAt v.disk id) offset m ∧
          ((∀ p, offset ≤ p → p < offset + size → p < id.len →
            p < maxFileLen ∧ pointerAt v.disk id (.ofPos p) ≠ unallocated) →
            m = min size (id.len - offset))) E v := by
  intro fuel
  induction fuel with
  | zero =>
      intro size offset buffer hsz
      exact wpOn_pure ⟨rfl, 0, Nat.zero_le _, by simp [bytesAt], fun _ => by omega⟩
  | succ fuel ih =>
      intro size offset buffer hsz
      unfold inodeReadLoop
      refine wpOn_ite (fun hz => ?_) (fun hz => ?_)
      · exact wpOn_pure ⟨rfl, 0, Nat.zero_le _, by simp [bytesAt], fun _ => by omega⟩
      obtain ⟨x, hx⟩ : ∃ x, x = if offset < maxFileLen then pointerAt v.disk id (.ofPos offset)
        else unallocated := ⟨_, rfl⟩
      refine wpOn_seq (vwp_inodeFetchBlock (Q := fun r v' => r = x ∧ v' = v) hd.lt ⟨hx.symm, rfl⟩) ?_
      rintro r v' ⟨rfl, rfl⟩
      refine wpOn_ite (fun hru => ?_) (fun hru => ?_)
      · -- a missing block
        refine wpOn_pure ⟨rfl, 0, Nat.zero_le _, by simp [bytesAt], fun hthere => ?_⟩
        by_contra hc
        obtain ⟨hpos, hu⟩ := hthere offset (by omega) (by omega) (by omega)
        rw [if_pos hpos] at hx
        exact hu (hx ▸ hru)
      obtain ⟨k, hk⟩ : ∃ k, k = min size (min (id.len - offset) (512 - offset % 512)) := ⟨_, rfl⟩
      simp only [← hk]
      have hmod : offset % 512 < 512 := Nat.mod_lt _ (by omega)
      refine wpOn_ite (fun hk0 => ?_) (fun hk0 => ?_)
      · exact wpOn_pure ⟨rfl, 0, Nat.zero_le _, by simp [bytesAt], fun _ => by omega⟩
      have hpos : offset < maxFileLen := by
        by_contra hno
        rw [if_neg hno] at hx
        exact hru hx
      rw [if_pos hpos] at hx
      subst hx
      refine wpOn_seq (vwp_readChunk (Q := fun b v'' => b = _ ∧ v'' = v') (hd.lt _ hru)
        ⟨rfl, rfl⟩) ?_
      rintro b v'' ⟨rfl, rfl⟩
      refine wpOn_weaken (ih (by omega)) ?_
      rintro r v₂ ⟨rfl, m, hm, rfl, hall⟩
      refine ⟨rfl, k + m, by omega, ?_, fun hthere => ?_⟩
      · rw [bytesAt_add, bytesAt_chunk hpos hru (by omega), List.append_assoc]
      · have hrest := hall fun p h₁ h₂ h₃ => hthere p (by omega) (by omega) h₃
        omega

/-- The specification of the loop. -/
theorem inodeReadLoop_spec (hd : Distinct v.size (pointerAt v.disk id)) (fuel : Nat) {size offset : Nat}
    {buffer : List UInt8} (hfuel : size ≤ fuel)
    (hthere : ∀ p, offset ≤ p → p < offset + size → p < id.len →
      p < maxFileLen ∧ pointerAt v.disk id (.ofPos p) ≠ unallocated) :
    vwp (inodeReadLoop id fuel size offset buffer) (fun r v' => v' = v ∧
      r = buffer ++ bytesAt v.disk (pointerAt v.disk id) offset (min size (id.len - offset))) E v := by
  refine wpOn_weaken (inodeReadLoop_part hd fuel hfuel) ?_
  rintro r v' ⟨rfl, m, -, rfl, hall⟩
  exact ⟨rfl, by rw [hall hthere]⟩

end CS162.Fs
