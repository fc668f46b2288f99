/-
# `CS162.Fs.Entries` — directories as lists of slots

The bytes of a directory are slots of 20 bytes.  `Node.entry n k` is what slot `k` holds,
`Node.find n name` the first slot in use that has the name.  The functions of `directory.c`
are specified in these terms: `lookup` finds `Node.find`, `dir_add` fills one slot and
counts a link on the inode that it names, `dir_remove` empties one slot, marks the inode
that it named and counts a link less on the directory itself.
-/
import CS162.Fs.Nodes

namespace CS162.Fs

open Bytes Wp

/-! ## Entries as bytes -/

namespace DirEntry

@[simp] theorem length_toBytes (e : DirEntry) : e.toBytes.length = 20 := by
  simp [toBytes]

/-- An entry is read as it was written. -/
theorem ofBytes_toBytes (e : DirEntry) : ofBytes e.toBytes = e := by
  have hname : (Block.ofList (e.toBytes.drop 4) : NameBuf) = e.name := by
    funext i
    show (e.toBytes.drop 4).getD i.val 0 = e.name i
    have hlen : ([Block.byteOf e.inodeSector 0, Block.byteOf e.inodeSector 1,
      Block.byteOf e.inodeSector 2, Block.byteOf e.inodeSector 3] : List UInt8).length = 4 := rfl
    rw [toBytes, List.append_assoc, List.drop_left' hlen, List.getD_eq_getElem?_getD,
      List.getElem?_append_left (by simp [i.isLt]), Block.getElem?_slice _ i.isLt]
    simp
  have huse : e.toBytes.getD 19 0 = e.inUse := by
    rw [List.getD_eq_getElem?_getD, toBytes, List.getElem?_append_right (by simp)]
    simp
  unfold ofBytes
  rw [hname, huse]
  have hword : Block.join (e.toBytes.getD 0 0) (e.toBytes.getD 1 0) (e.toBytes.getD 2 0)
      (e.toBytes.getD 3 0) = e.inodeSector := Block.join_bytes _
  rw [hword]

end DirEntry

/-! ## Slots -/

namespace Node

/-- The bytes of slot `k`. -/
def slotBytes (n : Node) (k : Nat) : List UInt8 := (List.range 20).map fun i => n.byte (20 * k + i)

/-- What slot `k` holds. -/
def entry (n : Node) (k : Nat) : DirEntry := DirEntry.ofBytes (n.slotBytes k)

def slots (n : Node) : Nat := n.len / 20

/-- Slot `k` is in use. -/
def Uses (n : Node) (k : Nat) : Prop := k < n.slots ∧ (n.entry k).inUse ≠ 0

instance (n : Node) (k : Nat) : Decidable (n.Uses k) :=
  inferInstanceAs (Decidable (k < n.slots ∧ (n.entry k).inUse ≠ 0))

/-- The slot has the name. -/
def Named (n : Node) (name : List UInt8) (k : Nat) : Prop :=
  (n.entry k).inUse ≠ 0 ∧ cstr (n.entry k).name = name

instance (n : Node) (name : List UInt8) (k : Nat) : Decidable (n.Named name k) :=
  inferInstanceAs (Decidable ((n.entry k).inUse ≠ 0 ∧ cstr (n.entry k).name = name))

/-- The first of `m` slots from `k` on that has the name. -/
def findFrom (n : Node) (name : List UInt8) (k m : Nat) : Option Nat :=
  (List.range' k m).find? fun k => decide (n.Named name k)

/-- The slot that `lookup` finds. -/
def find (n : Node) (name : List UInt8) : Option Nat := n.findFrom name 0 n.slots

/-- The inode that a name stands for. -/
def target (n : Node) (name : List UInt8) : Option UInt32 :=
  (n.find name).map fun k => (n.entry k).inodeSector

/-- The slot that `dir_add` fills. -/
def freeFrom (n : Node) (k m : Nat) : Nat :=
  ((List.range' k m).find? fun k => decide ((n.entry k).inUse = 0)).getD (k + m)

def freeSlot (n : Node) : Nat := n.freeFrom 0 n.slots

/-- A directory holds whole entries. -/
structure DirOk (n : Node) : Prop where
  whole : n.len % 20 = 0
  max : n.len ≤ maxFileLen
  deny : n.denyWriteCnt = 0

end Node

variable {n : Node} {F : Files} {d s : UInt32} {e : DirEntry} {name : List UInt8} {j k : Nat}
  {E : Panic → Vol → Prop}

/-- Filling a slot changes no other. -/
theorem Node.entry_wrote : (n.wrote e.toBytes (20 * j)).entry k = if k = j then e else n.entry k := by
  unfold Node.entry
  have hbytes : (n.wrote e.toBytes (20 * j)).slotBytes k =
      if k = j then e.toBytes else n.slotBytes k := by
    unfold Node.slotBytes Node.wrote
    dsimp only
    rw [DirEntry.length_toBytes]
    split
    · next hkj =>
      subst hkj
      refine List.ext_getElem (by simp) fun i h₁ h₂ => ?_
      rw [DirEntry.length_toBytes] at h₂
      rw [List.getElem_map, List.getElem_range, if_pos (by omega),
        show 20 * k + i - 20 * k = i by omega, List.getD_eq_getElem?_getD,
        List.getElem?_eq_getElem (by simpa using h₂)]
      rfl
    · next hkj =>
      refine List.map_congr_left fun i hi => if_neg ?_
      rw [List.mem_range] at hi
      omega
  rw [hbytes]
  split
  · exact DirEntry.ofBytes_toBytes e
  · rfl

theorem Node.slots_wrote : (n.wrote e.toBytes (20 * j)).slots = max n.slots (j + 1) := by
  unfold Node.slots Node.wrote
  dsimp only
  rw [DirEntry.length_toBytes]
  omega

theorem Node.DirOk.wrote (h : n.DirOk) (hj : 20 * j + 20 ≤ maxFileLen) :
    (n.wrote e.toBytes (20 * j)).DirOk := by
  obtain ⟨hw, hm, hd⟩ := h
  refine ⟨?_, ?_, hd⟩
  · show Max.max n.len (20 * j + e.toBytes.length) % 20 = 0
    rw [DirEntry.length_toBytes]
    omega
  · show Max.max n.len (20 * j + e.toBytes.length) ≤ maxFileLen
    rw [DirEntry.length_toBytes]
    omega

/-! ## Searching -/

/-- `inode_read_at` at a slot gives its entry, and nothing past the end of the directory. -/
theorem fwp_readEntry {P : Option DirEntry → Files → Prop} (hn : F.node d = some n) (hd : d ∈ F.refs)
    (ok : n.DirOk) (h : P (if k < n.slots then some (n.entry k) else none) F) :
    fwp (readEntry d (20 * k)) P E F := by
  refine wpBy_seq (fwp_inodeReadAt (P := fun r F' => r = n.read 20 (20 * k) ∧ F' = F) hn hd (.inr ok.max)
    ⟨rfl, rfl⟩) ?_
  rintro r F' ⟨rfl, rfl⟩
  refine wpBy_pure ?_
  have hw := ok.whole
  by_cases hk : k < n.slots
  · have hmin : min 20 (n.len - 20 * k) = 20 := by
      unfold Node.slots at hk
      omega
    have hbytes : n.read 20 (20 * k) = n.slotBytes k := by
      unfold Node.read Node.slotBytes
      rw [hmin]
    rw [if_pos hk] at h
    rw [hbytes, if_pos (by simp [Node.slotBytes])]
    exact h
  · have hmin : min 20 (n.len - 20 * k) = 0 := by
      unfold Node.slots at hk
      omega
    rw [if_neg hk] at h
    rw [if_neg (by simp [Node.read, hmin])]
    exact h

theorem Node.findFrom_succ {m : Nat} :
    n.findFrom name k (m + 1) = if n.Named name k then some k else n.findFrom name (k + 1) m := by
  unfold Node.findFrom
  rw [List.range'_succ, List.find?_cons]
  by_cases hk : n.Named name k
  · rw [if_pos hk, decide_eq_true hk]
  · rw [if_neg hk, decide_eq_false hk]

/-- The loop of `lookup`, by induction on the slots that are left. -/
theorem fwp_lookupFrom {P : Option (DirEntry × Nat) → Files → Prop} (hn : F.node d = some n)
    (hd : d ∈ F.refs) (ok : n.DirOk) :
    ∀ (fuel k m : Nat), k + m = n.slots → m < fuel →
      P ((n.findFrom name k m).map fun j => (n.entry j, 20 * j)) F →
      fwp (lookupFrom d name fuel (20 * k)) P E F := by
  intro fuel
  induction fuel with
  | zero => exact fun k m _ hm _ => absurd hm (Nat.not_lt_zero m)
  | succ fuel ih =>
      intro k m hkm hm hP
      refine wpBy_seq (fwp_readEntry (P := fun r F' => r = _ ∧ F' = F) hn hd ok ⟨rfl, rfl⟩) ?_
      rintro r F' ⟨rfl, rfl⟩
      cases m with
      | zero =>
          rw [if_neg (by omega)]
          exact wpBy_pure hP
      | succ m =>
          rw [if_pos (by omega)]
          rw [Node.findFrom_succ] at hP
          refine wpBy_ite (fun hc => ?_) (fun hc => ?_)
          · have hc' : n.Named name k := hc
            rw [if_pos hc'] at hP
            exact wpBy_pure hP
          · have hc' : ¬ n.Named name k := hc
            rw [if_neg hc'] at hP
            exact ih (k + 1) m (by omega) (by omega) hP

theorem fwp_lookup {P : Option (DirEntry × Nat) → Files → Prop} (hn : F.node d = some n)
    (hd : d ∈ F.refs) (ok : n.DirOk)
    (h : P ((n.find name).map fun j => (n.entry j, 20 * j)) F) : fwp (lookup d name) P E F := by
  have hm := ok.max
  refine fwp_lookupFrom hn hd ok dirFuel 0 n.slots (Nat.zero_add _) ?_ h
  unfold dirFuel Node.slots
  omega

/-- `dir_lookup` opens the inode of the entry. -/
theorem fwp_dirLookup {P : Option UInt32 → Files → Prop} (hn : F.node d = some n) (hd : d ∈ F.refs)
    (ok : n.DirOk) (hnone : n.target name = none → P none F)
    (hsome : ∀ t, n.target name = some t → (∃ m, F.node t = some m) ∧
      P (some t) { F with refs := t ::ₘ F.refs }) : fwp (dirLookup d name) P E F := by
  refine wpBy_seq (fwp_lookup (P := fun r F' => r = _ ∧ F' = F) hn hd ok ⟨rfl, rfl⟩) ?_
  rintro r F' ⟨rfl, rfl⟩
  unfold Node.target at hnone hsome
  cases hf : n.find name with
  | none =>
      rw [hf] at hnone
      exact wpBy_pure (hnone rfl)
  | some k =>
      rw [hf] at hsome
      obtain ⟨⟨m, hm⟩, hP⟩ := hsome _ rfl
      refine wpBy_seq (fwp_inodeOpen (Q := fun _ F₁ => F₁ = { F' with refs := _ ::ₘ F'.refs }) hm rfl) ?_
      rintro - F₁ rfl
      exact wpBy_pure hP

/-- In an inode of any length that has no entry in use no name is found. -/
theorem fwp_dirLookup_unused {P : Option UInt32 → Files → Prop} (hn : F.node d = some n) (hd : d ∈ F.refs)
    (hfree : ∀ k, (n.entry k).inUse = 0) (hspin : ∀ v', E .spin v') (h : P none F) :
    fwp (dirLookup d name) P E F := by
  have hread : ∀ k, fwp (readEntry d (20 * k))
      (fun r F' => (r = none ∨ r = some (n.entry k)) ∧ F' = F) E F := by
    intro k
    refine wpBy_seq (fwp_inodeReadAt_part (P := fun r F' => (r.length ≠ 20 ∨ r = n.slotBytes k) ∧ F' = F)
      hn hd fun m _ => ⟨?_, rfl⟩) ?_
    · by_cases hm : m = 20
      · exact .inr (by rw [hm]; rfl)
      · exact .inl (by simpa using hm)
    · rintro r F' ⟨hr | rfl, rfl⟩
      · rw [if_neg hr]
        exact wpBy_pure ⟨.inl rfl, rfl⟩
      · rw [if_pos (by simp [Node.slotBytes])]
        exact wpBy_pure ⟨.inr rfl, rfl⟩
  have hloop : ∀ fuel k, fwp (lookupFrom d name fuel (20 * k)) (fun r F' => r = none ∧ F' = F) E F := by
    intro fuel
    induction fuel with
    | zero => exact fun k => wpBy_throw fun _ => hspin _
    | succ fuel ih =>
        intro k
        refine wpBy_seq (hread k) ?_
        rintro r F' ⟨rfl | rfl, rfl⟩
        · exact wpBy_pure ⟨rfl, rfl⟩
        · refine wpBy_ite (fun hc => absurd (hfree k) hc.1) fun _ => ih (k + 1)
  refine wpBy_seq (hloop dirFuel 0) ?_
  rintro r F' ⟨rfl, rfl⟩
  exact wpBy_pure h

/-! ## Adding -/

theorem Node.freeFrom_succ {m : Nat} :
    n.freeFrom k (m + 1) = if (n.entry k).inUse = 0 then k else n.freeFrom (k + 1) m := by
  unfold Node.freeFrom
  rw [List.range'_succ, List.find?_cons]
  by_cases hk : (n.entry k).inUse = 0
  · rw [if_pos hk, decide_eq_true hk]
    rfl
  · rw [if_neg hk, decide_eq_false hk, show k + 1 + m = k + (m + 1) by omega]

/-- The loop of `dir_add` that looks for a free slot comes to the first one, or to the end. -/
theorem fwp_freeSlot {P : Nat × DirEntry → Files → Prop} (hn : F.node d = some n) (hd : d ∈ F.refs)
    (ok : n.DirOk) :
    ∀ (fuel k m : Nat) (e : DirEntry), k + m = n.slots → m < fuel →
      (∀ e', P (20 * n.freeFrom k m, e') F) → fwp (freeSlot d fuel (20 * k) e) P E F := by
  intro fuel
  induction fuel with
  | zero => exact fun k m e _ hm _ => absurd hm (Nat.not_lt_zero m)
  | succ fuel ih =>
      intro k m e hkm hm hP
      refine wpBy_seq (fwp_readEntry (P := fun r F' => r = _ ∧ F' = F) hn hd ok ⟨rfl, rfl⟩) ?_
      rintro r F' ⟨rfl, rfl⟩
      cases m with
      | zero =>
          rw [if_neg (by omega)]
          exact wpBy_pure (hP e)
      | succ m =>
          rw [if_pos (by omega)]
          rw [Node.freeFrom_succ] at hP
          refine wpBy_ite (fun hc => ?_) (fun hc => ?_)
          · rw [if_pos hc] at hP
            exact wpBy_pure (hP _)
          · rw [if_neg hc] at hP
            exact ih (k + 1) m _ (by omega) (by omega) hP

/-- The slot is free, or the first behind the others. -/
theorem Node.freeFrom_spec : ∀ {k m : Nat}, k ≤ n.freeFrom k m ∧ n.freeFrom k m ≤ k + m ∧
    (n.freeFrom k m < k + m → (n.entry (n.freeFrom k m)).inUse = 0) := by
  intro k m
  induction m generalizing k with
  | zero => exact ⟨le_rfl, le_rfl, fun h => absurd h (Nat.lt_irrefl _)⟩
  | succ m ih =>
      rw [Node.freeFrom_succ]
      split
      · next hc => exact ⟨le_rfl, by omega, fun _ => hc⟩
      · obtain ⟨h1, h2, h3⟩ := ih (k := k + 1)
        exact ⟨by omega, by omega, fun h => h3 (by omega)⟩

theorem Node.freeSlot_le : n.freeSlot ≤ n.slots := by
  have h := (Node.freeFrom_spec (n := n) (k := 0) (m := n.slots)).2.1
  rwa [Nat.zero_add] at h

theorem Node.freeSlot_free (h : n.freeSlot < n.slots) : (n.entry n.freeSlot).inUse = 0 :=
  (Node.freeFrom_spec (n := n) (k := 0) (m := n.slots)).2.2 (by rwa [Nat.zero_add])

/-- One more link to a node. -/
def Node.linked (n : Node) : Node := { n with children := n.children + 1 }

/-- The node of a directory with an entry in slot `k`. -/
def Node.put (n : Node) (k : Nat) (e : DirEntry) : Node := n.wrote e.toBytes (20 * k)

/-- Only what the invariant speaks of has to be the same. -/
theorem Files.Calm.set {m : Node} (h : F.Calm) (hm : F.node s = some n) (hr : m.removed = n.removed)
    (hdeny : m.denyWriteCnt = n.denyWriteCnt) (hs : m.saved = n.saved ∨ m.saved = m.isDir)
    (hdir : m.isDir = n.isDir) : (F.set s m).Calm := by
  intro t k hk ht
  by_cases hts : t = s
  · subst hts
    cases (Files.set_node_self (F := F)).symm.trans hk
    obtain ⟨h1, h2, h3⟩ := h t n hm ht
    refine ⟨hr.trans h1, hdeny.trans h2, ?_⟩
    rcases hs with hs | hs
    · rw [hs, hdir]
      exact h3
    · exact hs
  · have hk' : F.node t = some k := (Files.set_node_other (F := F) hts).symm.trans hk
    exact h t k hk' ht

/-- What `dir_add` counts on `s`. -/
theorem fwp_addLink {α : Type} {P : α → Files → Prop} {m : Node} {f : FsM α} (hcalm : F.Calm)
    (hm : F.node s = some m) (h : fwp f P E (F.set s m.linked)) :
    fwp (do inodeOpen s; inodeAddChild s; inodeClose s; f) P E F := by
  refine wpBy_seq (fwp_inodeOpen (Q := fun _ F₁ => F₁ = { F with refs := s ::ₘ F.refs }) hm rfl) ?_
  rintro - F₁ rfl
  refine wpBy_seq (fwp_inodeAddChild (Q := fun _ F₁ => F₁ =
    ({ F with refs := s ::ₘ F.refs } : Files).set s m.linked) hm (Multiset.mem_cons_self s _) rfl) ?_
  rintro - F₂ rfl
  refine wpBy_seq (fwp_unref (Q := fun _ F₃ => F₃ = F.set s m.linked) (r := F.refs) ?_ rfl rfl) ?_
  · exact hcalm.set hm rfl rfl (.inl rfl) rfl
  rintro - F₃ rfl
  exact h

/-- The string that was copied. -/
theorem cstr_strlcpy (b : NameBuf) (hlen : name.length ≤ nameMax) (hz : 0 ∉ name) :
    cstr (strlcpy b name) = name := by
  have hslice : (strlcpy b name).slice 0 15 = name ++ 0 :: (b.slice 0 15).drop (name.length + 1) := by
    have htake : name.take nameMax = name := List.take_of_length_le hlen
    simp only [nameMax] at hlen
    refine List.ext_getElem ?_ fun i h₁ h₂ => ?_
    · rw [Block.length_slice, List.length_append, List.length_cons, List.length_drop, Block.length_slice]
      omega
    · have hi : i < 15 := by simpa using h₁
      have hleft : ((strlcpy b name).slice 0 15)[i] = (strlcpy b name).get i := by simp [Block.slice]
      refine hleft.trans ?_
      rw [strlcpy, overwrite, Block.get_splice _ hi, htake, List.length_append, List.length_singleton]
      rcases Nat.lt_trichotomy i name.length with hlt | heq | hgt
      · rw [if_pos (by omega), List.getElem_append_left hlt, List.getD_eq_getElem?_getD, Nat.sub_zero,
          List.getElem?_append_left hlt, List.getElem?_eq_getElem hlt]
        rfl
      · subst heq
        rw [if_pos (by omega), List.getElem_append_right le_rfl, List.getD_eq_getElem?_getD, Nat.sub_zero,
          List.getElem?_append_right le_rfl]
        simp
      · obtain ⟨j, rfl⟩ : ∃ j, i = name.length + 1 + j := ⟨i - (name.length + 1), by omega⟩
        rw [if_neg (by omega), List.getElem_append_right (by omega)]
        have hj : name.length + 1 + j - name.length = j + 1 := by omega
        simp only [hj, List.getElem_cons_succ, List.getElem_drop]
        simp [Block.slice]
  unfold cstr
  rw [hslice, List.takeWhile_append_of_pos]
  · simp
  · intro c hc
    simp only [bne_iff_ne, ne_eq]
    rintro rfl
    exact hz hc

/-- The end of the slot that `dir_add` fills. -/
def Node.slotEnd (n : Node) : Nat := 20 * n.freeSlot + 20

/-- `dir_add`.  It fails if the name is not one, or is there, or if there is no sector for
the new entry. -/
theorem fwp_dirAdd {P : Bool → Files → Prop} (hpast : name ≠ [] → name.length ≤ nameMax →
      n.find name = none → n.slotEnd ≤ maxFileLen ∨ ∀ v', E .pastEnd v')
    (hn : F.node d = some n) (hd : d ∈ F.refs) (ok : n.DirOk) (hm : ∃ m, F.node s = some m)
    (hz : 0 ∉ name)
    (hno : name = [] ∨ nameMax < name.length ∨ n.find name ≠ none → P false F)
    (hfull : name ≠ [] → name.length ≤ nameMax → n.find name = none →
      ∀ sv p b, (sv = n.saved ∨ sv = n.isDir) → n.Short n.slotEnd F.freeMap b →
      P false { F.set d { n with saved := sv, ptr := p } with freeMap := b })
    (hdone : ∀ e sv p b m', name ≠ [] → name.length ≤ nameMax → n.find name = none →
      e.inodeSector = s → cstr e.name = name → e.inUse = 1 → (sv = n.saved ∨ sv = n.isDir) →
      n.slotEnd ≤ maxFileLen → freeCnt F.freeMap = freeCnt b + n.taken n.slotEnd →
      (F.set d { n.put n.freeSlot e with saved := sv, ptr := p }).node s = some m' →
      P true { (F.set d { n.put n.freeSlot e with saved := sv, ptr := p }).set s m'.linked with
        freeMap := b }) :
    fwp (dirAdd d name s) P E F := by
  refine fwp_calm fun hcalm => ?_
  refine wpBy_ite (fun hbad => wpBy_pure (hno (hbad.imp_right .inl))) (fun hname => ?_)
  rw [not_or, Nat.not_lt] at hname
  refine wpBy_seq (fwp_lookup (P := fun r F' => r = _ ∧ F' = F) hn hd ok ⟨rfl, rfl⟩) ?_
  rintro r F' ⟨rfl, rfl⟩
  cases hfind : n.find name with
  | some k => exact wpBy_pure (hno (.inr (.inr (by rw [hfind]; simp))))
  | none =>
      have hmax := ok.max
      have hfree := n.freeSlot_le
      refine wpBy_seq (fwp_freeSlot (P := fun r F₁ => r.1 = 20 * n.freeSlot ∧ F₁ = F') hn hd ok dirFuel 0
        n.slots .zero (Nat.zero_add _) ?_ fun e' => ⟨rfl, rfl⟩) ?_
      · unfold dirFuel Node.slots
        omega
      rintro ⟨ofs, e₀⟩ F₁ ⟨hofs, rfl⟩
      obtain rfl : ofs = 20 * n.freeSlot := hofs
      have hcstr := cstr_strlcpy e₀.name hname.2 hz
      refine wpBy_seq (fwp_inodeWriteAt (P := fun wr F₂ => ∃ sv p b, (sv = n.saved ∨ sv = n.isDir) ∧
        (wr = 20 ∧ n.slotEnd ≤ maxFileLen ∧ freeCnt F₁.freeMap = freeCnt b + n.taken n.slotEnd ∧
          F₂ = { F₁.set d { n.put n.freeSlot ⟨s, strlcpy e₀.name name, 1⟩ with
            saved := sv, ptr := p } with
            freeMap := b } ∨
          wr = 0 ∧ n.Short n.slotEnd F₁.freeMap b ∧
          F₂ = { F₁.set d { n with saved := sv, ptr := p } with freeMap := b }))
        hn hd ok.deny ?_ (hpast hname.1 hname.2 hfind)
        (fun sv p b hsv hle hneed => ⟨sv, p, b, hsv, .inl ⟨rfl, ?_, hneed, rfl⟩⟩)
        fun sv p b hsv hshort => ⟨sv, p, b, hsv, .inr ⟨rfl, hshort, rfl⟩⟩) ?_
      · unfold Node.slots at hfree
        rw [DirEntry.length_toBytes]
        simp only [maxFileLen] at hmax
        omega
      · rcases hle with hnil | hle
        · cases hnil
        · exact hle
      rintro wr F₂ ⟨sv, p, b, hsv, ⟨rfl, hle, hneed, rfl⟩ | ⟨rfl, hshort, rfl⟩⟩
      · rw [if_pos rfl]
        have hcalm' : Files.Calm { F₁.set d { n.put n.freeSlot ⟨s, strlcpy e₀.name name, 1⟩ with
            saved := sv, ptr := p } with freeMap := b } :=
          hcalm.set hn rfl rfl hsv rfl
        have hnode : ∃ m', (F₁.set d { n.put n.freeSlot ⟨s, strlcpy e₀.name name, 1⟩ with
            saved := sv, ptr := p }).node s = some m' := by
          by_cases hsd : s = d
          · rw [hsd]
            exact ⟨_, Files.set_node_self⟩
          · rw [Files.set_node_other hsd]
            exact hm
        obtain ⟨m', hm'⟩ := hnode
        refine fwp_addLink hcalm' hm' (wpBy_pure ?_)
        exact hdone ⟨s, strlcpy e₀.name name, 1⟩ sv p b m' hname.1 hname.2 hfind rfl hcstr rfl hsv hle
          hneed hm'
      · exact wpBy_pure (hfull hname.1 hname.2 hfind sv p b hsv hshort)

/-! ## Removing -/

theorem Files.set_set {m : Node} : (F.set s n).set s m = F.set s m := by
  unfold Files.set
  rw [Function.update_idem]

theorem Files.set_comm {m : Node} (h : s ≠ d) : (F.set s n).set d m = (F.set d m).set s n := by
  unfold Files.set
  rw [Function.update_comm h]

theorem Files.drop_set : (F.set s n).drop s = F.drop s := by
  unfold Files.set Files.drop
  rw [Function.update_idem]

/-- The node of a directory after `dir_remove` of slot `k`. -/
def Node.erased (n : Node) (k : Nat) : Node :=
  { n.put k { n.entry k with inUse := 0 } with children := n.children - 1 }

theorem Node.findFrom_lt : ∀ {k m j : Nat}, n.findFrom name k m = some j → k ≤ j ∧ j < k + m ∧
    n.Named name j := by
  intro k m j h
  unfold Node.findFrom at h
  have hmem := List.mem_of_find?_eq_some h
  have hp := List.find?_some h
  rw [List.mem_range'_1] at hmem
  exact ⟨hmem.1, hmem.2, of_decide_eq_true hp⟩

theorem Node.find_lt (h : n.find name = some k) : k < n.slots ∧ n.Named name k := by
  obtain ⟨-, hlt, hk⟩ := Node.findFrom_lt h
  exact ⟨by omega, hk⟩

/-- The middle of `dir_remove`, with the inode `t` open.  The entry may be the directory's
own: then the directory is marked. -/
theorem fwp_dirErase {P : Bool → Files → Prop} {t : UInt32} {m : Node} (hn : F.node d = some n)
    (hd : d ∈ F.refs) (ok : n.DirOk) (hk : k < n.slots) (ht : (n.entry k).inodeSector = t)
    (hm : F.node t = some m) (htr : t ∈ F.refs) (hmany : 2 < m.children → P false F)
    (hself : t = d → P true (F.set d { n.erased k with removed := true }))
    (hother : ¬ 2 < m.children → t ≠ d →
      P true ((F.set d (n.erased k)).set t { m with removed := true })) :
    fwp (dirErase d (n.entry k) (20 * k)) P E F := by
  subst ht
  have hw := ok.whole
  have hmax := ok.max
  refine wpBy_seq (fwp_inodeGetChildren (P := fun c F' => c = m.children ∧ F' = F) hm htr ⟨rfl, rfl⟩) ?_
  rintro c F' ⟨rfl, rfl⟩
  refine wpBy_ite (fun hgt => wpBy_pure (hmany hgt)) (fun hle => ?_)
  let e : DirEntry := { n.entry k with inUse := 0 }
  have hsp : e.toBytes.length = 20 := e.length_toBytes
  refine wpBy_seq (fwp_inodeWriteAt_within (P := fun wr F₂ => wr = 20 ∧ F₂ = F'.set d (n.put k e)) hn hd
    ok.deny ?_ (.inl ?_) fun _ => ⟨hsp, rfl⟩) ?_
  · rw [hsp]
    unfold Node.slots at hk
    omega
  · rw [hsp]
    unfold Node.slots at hk
    omega
  rintro wr F₂ ⟨rfl, rfl⟩
  rw [if_pos rfl]
  by_cases htd : (n.entry k).inodeSector = d
  · rw [htd] at htr hself ⊢
    refine wpBy_seq (fwp_inodeRemove (Q := fun _ F₃ => F₃ =
      F'.set d { n.put k e with removed := true }) Files.set_node_self hd ?_) ?_
    · exact Files.set_set
    rintro - F₃ rfl
    refine wpBy_seq (fwp_inodeRemoveChild (Q := fun _ F₄ => F₄ = _) Files.set_node_self hd rfl) ?_
    rintro - F₄ rfl
    rw [Files.set_set]
    exact wpBy_pure (hself rfl)
  · have hm₂ : (F'.set d (n.put k e)).node (n.entry k).inodeSector = some m :=
      (Files.set_node_other htd).trans hm
    refine wpBy_seq (fwp_inodeRemove (Q := fun _ F₃ => F₃ = (F'.set d (n.put k e)).set
      (n.entry k).inodeSector { m with removed := true }) hm₂ htr rfl) ?_
    rintro - F₃ rfl
    have hn₃ : ((F'.set d (n.put k e)).set (n.entry k).inodeSector { m with removed := true }).node d =
        some (n.put k e) := (Files.set_node_other (Ne.symm htd)).trans Files.set_node_self
    refine wpBy_seq (fwp_inodeRemoveChild (Q := fun _ F₄ => F₄ = _) hn₃ hd rfl) ?_
    rintro - F₄ rfl
    rw [Files.set_comm htd, Files.set_set]
    exact wpBy_pure (hother hle htd)

/-- `dir_remove`.  It refuses a name that is not there, and an inode with more than two
links.  An inode that nobody has open is gone. -/
theorem fwp_dirRemove {P : Bool → Files → Prop} (hn : F.node d = some n) (hd : d ∈ F.refs)
    (ok : n.DirOk) (hnone : n.find name = none → P false F)
    (hsome : ∀ k, n.find name = some k → ∃ t m, (n.entry k).inodeSector = t ∧ F.node t = some m ∧
      (2 < m.children → P false F) ∧ (t = d → P true (F.set d { n.erased k with removed := true })) ∧
      (¬ 2 < m.children → t ≠ d →
        (t ∈ F.refs → P true ((F.set d (n.erased k)).set t { m with removed := true })) ∧
        (t ∉ F.refs → ∀ b, (m.ptr .doubly = unallocated → 0 < freeCnt b) →
          P true { (F.set d (n.erased k)).drop t with freeMap := b }))) :
    fwp (dirRemove d name) P E F := by
  refine fwp_calm fun hcalm => ?_
  refine wpBy_seq (fwp_lookup (P := fun r F' => r = _ ∧ F' = F) hn hd ok ⟨rfl, rfl⟩) ?_
  rintro r F' ⟨rfl, rfl⟩
  cases hfind : n.find name with
  | none => exact wpBy_pure (hnone hfind)
  | some k =>
      obtain ⟨t, m, ht, hm, hmany, hself, hother⟩ := hsome k hfind
      obtain ⟨hk, -⟩ := Node.find_lt hfind
      simp only [Option.map_some]
      rw [ht]
      refine wpBy_seq (fwp_inodeOpen (Q := fun _ F₁ => F₁ = { F' with refs := t ::ₘ F'.refs }) hm rfl) ?_
      rintro - F₁ rfl
      have htr : t ∈ t ::ₘ F'.refs := Multiset.mem_cons_self t _
      have hmem : d ∈ t ::ₘ F'.refs := Multiset.mem_cons_of_mem hd
      refine wpBy_seq (fwp_dirErase (P := fun r F₂ =>
        r = false ∧ 2 < m.children ∧ F₂ = { F' with refs := t ::ₘ F'.refs } ∨
        r = true ∧ t = d ∧ F₂ = ({ F' with refs := t ::ₘ F'.refs } : Files).set d
          { n.erased k with removed := true } ∨
        r = true ∧ (¬ 2 < m.children ∧ t ≠ d) ∧ F₂ = (({ F' with refs := t ::ₘ F'.refs } : Files).set d
          (n.erased k)).set t { m with removed := true }) hn hmem ok hk ht hm htr
        (fun hgt => .inl ⟨rfl, hgt, rfl⟩) (fun he => .inr (.inl ⟨rfl, he, rfl⟩))
        fun hle hne => .inr (.inr ⟨rfl, ⟨hle, hne⟩, rfl⟩)) ?_
      rintro r F₂ (⟨rfl, hgt, rfl⟩ | ⟨rfl, rfl, rfl⟩ | ⟨rfl, ⟨hle, htd⟩, rfl⟩)
      · refine wpBy_seq (fwp_unref (Q := fun _ F₃ => F₃ = F') (r := F'.refs) hcalm rfl rfl) ?_
        rintro - F₃ rfl
        exact wpBy_pure (hmany hgt)
      · -- the directory has the reference of the caller
        refine wpBy_seq (fwp_inodeClose (Q := fun _ F₃ => P true F₃) (r := F'.refs)
          Files.set_node_self rfl (fun _ => hself rfl) (fun hnot => absurd hd hnot)
          fun hnot => absurd hd hnot) fun _ _ hP => wpBy_pure hP
      · obtain ⟨hin, hout⟩ := hother hle htd
        refine wpBy_seq (fwp_inodeClose (Q := fun _ F₃ => P true F₃) (r := F'.refs)
          Files.set_node_self rfl hin (fun _ hr => by cases hr) fun hnot _ b hfree => ?_) fun _ _ hP =>
          wpBy_pure hP
        have hP := hout hnot b hfree
        rw [← Files.drop_set (n := { m with removed := true })] at hP
        exact hP

end CS162.Fs
