/-
# `CS162.Fs.Creation` — `filesys_create` and `mkdir`

Both calls follow the path, take a sector for the new inode and add an entry to the directory
they came to.  `mkdir_spec` and `create_spec` say what the files are in each case.

`DirAdded` is what `dir_add` does: it refuses the name (`Node.Takes`), it runs out of sectors for a
longer directory (`Node.Crowded`), or the entry is there (`Node.target_put`).  When there is no
entry, `filesys_create` gives back the sector of the inode but not the blocks of its `initial_size`,
and `mkdir` gives back nothing.  `DirFilled` is what becomes of a new directory: `mkdir` does not look
whether its two entries could be added.
-/
import CS162.Fs.Paths
import CS162.Fs.DirRuns
import Mathlib.Data.List.TakeWhile

namespace CS162.Fs

open Bytes Wp

variable {F F' : Files} {d s : UInt32} {n : Node} {name : List UInt8} {e : DirEntry}
  {E : Panic → Vol → Prop} {length : Nat}

/-! ## Adding an entry -/

/-- The new entry is found. -/
theorem Node.target_put (hfind : n.find name = none) (hname : cstr e.name = name) (he : e.inUse ≠ 0) :
    (n.put n.freeSlot e).target name = some e.inodeSector := by
  have htable : (n.put n.freeSlot e).table =
      Function.update n.table n.freeSlot (some (name, e.inodeSector)) := by
    rw [← hname]
    exact Node.table_put n.freeSlot_le he
  have hhas : (n.put n.freeSlot e).table n.freeSlot = some (name, e.inodeSector) := by
    rw [htable, Function.update_self]
  unfold Node.target
  cases hf : (n.put n.freeSlot e).find name with
  | none => exact absurd ⟨_, _, hhas⟩ (Node.find_none hf)
  | some k =>
      have hk := Node.find_some hf
      rw [htable] at hk
      by_cases hkj : k = n.freeSlot
      · rw [hkj, Function.update_self] at hk
        rw [hkj]
        exact congrArg some (Prod.mk.inj (Option.some.inj hk)).2.symm
      · rw [Function.update_of_ne hkj] at hk
        exact absurd ⟨_, _, hk⟩ (Node.find_none hfind)

/-- There are too few free sectors for a longer directory. -/
structure Node.Crowded (n : Node) (free : Nat) : Prop where
  grows : n.len < n.slotEnd
  short : free < n.need n.slotEnd

instance (n : Node) (free : Nat) : Decidable (n.Crowded free) :=
  decidable_of_iff (n.len < n.slotEnd ∧ free < n.need n.slotEnd)
    ⟨fun h => ⟨h.1, h.2⟩, fun h => ⟨h.grows, h.short⟩⟩

/-- `dir_add` takes the name. -/
structure Node.Takes (n : Node) (name : List UInt8) : Prop where
  nonempty : name ≠ []
  short : name.length ≤ nameMax
  new : n.find name = none

instance (n : Node) (name : List UInt8) : Decidable (n.Takes name) :=
  decidable_of_iff (name ≠ [] ∧ name.length ≤ nameMax ∧ n.find name = none)
    ⟨fun h => ⟨h.1, h.2.1, h.2.2⟩, fun h => ⟨h.nonempty, h.short, h.new⟩⟩

theorem Node.not_takes : ¬ n.Takes name ↔ name = [] ∨ nameMax < name.length ∨ n.find name ≠ none := by
  constructor
  · intro h
    by_contra hno
    rw [not_or, not_or, Nat.not_lt, not_not] at hno
    exact h ⟨hno.1, hno.2.1, hno.2.2⟩
  · rintro (h | h | h) ⟨h1, h2, h3⟩
    · exact h1 h
    · exact absurd h (Nat.not_lt.mpr h2)
    · exact h h3

/-- A directory that is crowded does not get longer. -/
theorem Node.Crowded.taken {free k : Nat} (h : n.Crowded free) (hfree : free = k + n.taken n.slotEnd) :
    False := by
  unfold Node.taken at hfree
  rw [if_pos h.grows] at hfree
  have hlow := h.short
  omega

/-- A directory that can grow is not of the greatest length. -/
theorem Node.Crowded.max {free : Nat} (h : n.Crowded free) (ok : n.DirOk) : n.slotEnd ≤ maxFileLen := by
  by_contra hmax
  have hlt := h.short
  have hlen := ok.max
  have hle := n.freeSlot_le
  have hnear : maxFileLen ≤ n.len + 4 := by
    unfold Node.slotEnd at hmax
    unfold Node.slots at hle
    simp only [maxFileLen] at hmax hlen ⊢
    omega
  have hsame : sectors n.slotEnd = sectors n.len := by
    generalize n.slotEnd = size at hmax
    generalize n.len = len at hnear hlen
    simp only [maxFileLen] at hmax hlen hnear
    have hmin : min size 8451584 = 8451584 := by omega
    have hmin' : min len 8451584 = len := by omega
    unfold sectors
    simp only [directPointerSize, maxFileLen]
    rw [hmin, hmin', if_pos (by omega), if_pos (by omega)]
    omega
  unfold Node.need Fs.need at hlt
  rw [hsame, Nat.sub_self] at hlt
  exact Nat.not_lt_zero _ hlt

/-- What `dir_add` does with the files.  The new entry is `e`, and the inode that it names has
one link more. -/
inductive DirAdded (F : Files) (d : UInt32) (n : Node) (name : List UInt8) (s : UInt32) :
    Bool → Files → Prop where
  | refused : ¬ n.Takes name → DirAdded F d n name s false F
  | crowded {sv : Int32} {p : Slot → UInt32} {b : Bitmap} : n.Takes name → (sv = n.saved ∨ sv = n.isDir) →
      n.Short n.slotEnd F.freeMap b →
      DirAdded F d n name s false { F.set d { n with saved := sv, ptr := p } with freeMap := b }
  | done {e : DirEntry} {sv : Int32} {p : Slot → UInt32} {b : Bitmap} {m : Node} : n.Takes name →
      e.inodeSector = s → cstr e.name = name → e.inUse = 1 → (sv = n.saved ∨ sv = n.isDir) →
      n.slotEnd ≤ maxFileLen → freeCnt F.freeMap = freeCnt b + n.taken n.slotEnd →
      (F.set d { n.put n.freeSlot e with saved := sv, ptr := p }).node s = some m →
      DirAdded F d n name s true
        { (F.set d { n.put n.freeSlot e with saved := sv, ptr := p }).set s m.linked with freeMap := b }

/-- The specification of `dir_add`. -/
theorem dirAdd_spec (hpast : n.Takes name → n.slotEnd ≤ maxFileLen ∨ ∀ v', E .pastEnd v')
    (hn : F.node d = some n) (hd : d ∈ F.refs) (ok : n.DirOk) (hm : ∃ m, F.node s = some m)
    (hz : 0 ∉ name) : fwp (dirAdd d name s) (DirAdded F d n name s) E F :=
  fwp_dirAdd (fun h₁ h₂ h₃ => hpast ⟨h₁, h₂, h₃⟩) hn hd ok hm hz
    (fun hno => .refused (Node.not_takes.mpr hno))
    (fun h₁ h₂ h₃ _ _ _ hsv hshort => .crowded ⟨h₁, h₂, h₃⟩ hsv hshort)
    fun _ _ _ _ _ h₁ h₂ h₃ hs hc hu hsv hle hfree hm => .done ⟨h₁, h₂, h₃⟩ hs hc hu hsv hle hfree hm

theorem Files.drop_none (h : F.node s = none) : F.drop s = F := by
  unfold Files.drop
  rw [← h, Function.update_eq_self]

/-! ## `filesys_create` in a directory -/

/-- The node of a new file. -/
def fileNode (length : Nat) (p : Slot → UInt32) : Node :=
  { newNode length p with isDir := 0, children := 1, saved := 0 }

/-- What `filesys_create` does with the files once it has come to `d`.  If there is no entry
then the sector of the inode is free again. -/
inductive FileCreatedIn (F : Files) (d : UInt32) (n : Node) (name : List UInt8) (size : Int32) :
    Bool → Files → Prop where
  | full : freeCnt F.freeMap = 0 → FileCreatedIn F d n name size false F
  | refused {s : UInt32} {p : Slot → UInt32} {m m' : Bitmap} : ¬ size < 0 → ¬ n.Takes name →
      Takes F.freeMap size.toNatClampNeg s p m → (∀ x, m'.Used x ↔ m.Used x ∧ x ≠ s) →
      FileCreatedIn F d n name size false { F with freeMap := m' }
  | crowded {s : UInt32} {p q : Slot → UInt32} {m b m' : Bitmap} {sv : Int32} : ¬ size < 0 →
      n.Takes name → Takes F.freeMap size.toNatClampNeg s p m → (sv = n.saved ∨ sv = n.isDir) →
      n.Short n.slotEnd m b →
      (∀ x, m'.Used x ↔ b.Used x ∧ x ≠ s) →
      FileCreatedIn F d n name size false { F.set d { n with saved := sv, ptr := q } with freeMap := m' }
  | done {s : UInt32} {p q : Slot → UInt32} {m b : Bitmap} {e : DirEntry} {sv : Int32} : ¬ size < 0 →
      n.Takes name → Takes F.freeMap size.toNatClampNeg s p m → s ≠ freeMapSector → F.node s = none →
      s ∉ F.refs →
      e.inodeSector = s → cstr e.name = name → e.inUse = 1 → (sv = n.saved ∨ sv = n.isDir) →
      n.slotEnd ≤ maxFileLen → freeCnt m = freeCnt b + n.taken n.slotEnd →
      FileCreatedIn F d n name size true
        { (F.set d { n.put n.freeSlot e with saved := sv, ptr := q }).set s
            (fileNode size.toNatClampNeg p) with freeMap := b }

/-- `inode_create` of this size does not return, where a sector was free for its header: the size is
negative, so that an assertion fails, or there are too few sectors for the blocks, so that
`inode_extend` calls itself for ever. -/
def Unending (free : Nat) (size : Int32) : Prop :=
  0 < free ∧ (size < 0 ∨ free < sectors size.toNatClampNeg + 1)

/-- The negative lengths: the assertion of `inode_create` fails, if there is a sector. -/
theorem fwp_negative {P : Bool → Files → Prop} (hE : 0 < freeCnt F.freeMap → ∀ v', E .fatal v')
    (hfull : freeCnt F.freeMap = 0 → P false F) :
    fwp (do match ← freeMapAllocate 1 with | none => return false | some _ => throw .fatal) P E F := by
  refine fwp_of_vwp fun v hv => ?_
  have hok := hv.inv.owned.mapOk hv.inv.mapLive hv.inv.map
  refine wpOn_seq (wpOn_and hv.inv.allocate
    ((freeMap_spec (v.header freeMapSector) (v.pointers freeMapSector) E).alloc v hok)) ?_
  rintro r v₁ ⟨⟨hinv, -, -, -, hr⟩, halloc⟩
  cases r with
  | none =>
      obtain ⟨rfl, hall⟩ := hr
      refine wpOn_pure ⟨F, ?_, hfull (hv.freeMap ▸ hall.freeCnt)⟩
      exact ⟨hinv, hv.map, hv.node, fun s n hn => ⟨(hv.synced s n hn).directPointers,
        (hv.synced s n hn).doublyIndirect, (hv.synced s n hn).length⟩, hv.upto, hv.refs, hv.mapRefs,
        hv.freeMap⟩
  | some x =>
      obtain ⟨-, hlt, hbit, -⟩ := halloc
      have htake := freeCnt_take hlt hbit
      rw [hv.freeMap] at htake
      exact wpOn_throw (hE (by omega) v₁)

theorem zero_notMem_cstr (part : NameBuf) : 0 ∉ cstr part := by
  intro h
  have hne := List.mem_takeWhile_imp h
  simp at hne

/-- The sector of an inode without a name is free again. -/
theorem fwp_forget {P : Bool → Files → Prop} {k : Node} {b : Bitmap} (hnew : F.node s = none)
    (hs : s ∉ F.refs) (h : ∀ m, (∀ x, m.Used x ↔ b.Used x ∧ x ≠ s) → P false { F with freeMap := m }) :
    fwp (do freeMapRelease s 1; return false) P E { F.set s k with freeMap := b } := by
  refine wpBy_seq (fwp_freeMapRelease (Q := fun _ F₁ => P false F₁) Files.set_node_self hs fun m hm => ?_)
    fun _ F₁ hF₁ => wpBy_pure hF₁
  have hback : (F.set s k).drop s = F := by rw [Files.drop_set, Files.drop_none hnew]
  have hF : ({ Files.drop { F.set s k with freeMap := b } s with freeMap := m } : Files) =
      { F with freeMap := m } := congrArg (fun G : Files => { G with freeMap := m }) hback
  rw [hF]
  exact h m hm

/-- The new inode is looked up again and marked as a file. -/
theorem fwp_asFile {P : Bool → Files → Prop} {m : Node} (hn : F.node d = some n) (hd : d ∈ F.refs)
    (ok : n.DirOk) (htarget : n.target name = some s) (hs : F.node s = some m) (href : s ∉ F.refs)
    (hrm : m.removed = false) (hdeny : m.denyWriteCnt = 0)
    (h : P true (F.set s { m with isDir := 0, saved := 0 })) :
    fwp (do
      match ← dirLookup d name with
      | none => throw .badPointer
      | some inode =>
          inodeSetDir inode false
          inodeClose inode
          return true) P E F := by
  refine wpBy_seq (fwp_dirLookup (P := fun r F₁ => r = some s ∧ F₁ = { F with refs := s ::ₘ F.refs })
    hn hd ok
    (fun hnone => by rw [htarget] at hnone; cases hnone) fun t ht => ?_) ?_
  · obtain rfl := Option.some.inj (htarget.symm.trans ht)
    exact ⟨⟨m, hs⟩, rfl, rfl⟩
  rintro r F₁ ⟨rfl, rfl⟩
  refine wpBy_seq (fwp_inodeSetDir (Q := fun _ F₂ =>
    F₂ = { F.set s { m with isDir := 0 } with refs := s ::ₘ F.refs })
    hs (Multiset.mem_cons_self s _) rfl) ?_
  rintro - F₂ rfl
  refine wpBy_seq (fwp_inodeClose (Q := fun _ F₃ => P true F₃) (r := F.refs)
    (Files.set_node_self (F := F)) rfl (fun hmem => absurd hmem href) (fun _ _ => ?_) fun _ hgone => ?_)
    fun _ F₃ hF₃ => wpBy_pure hF₃
  · have hput : ({ Files.set { F.set s { m with isDir := 0 } with refs := s ::ₘ F.refs } s
        (Node.putBack { m with isDir := 0 }) with refs := F.refs } : Files) =
        F.set s { m with isDir := 0, saved := 0 } := by
      have hback : Node.putBack { m with isDir := 0 } = { m with isDir := 0, saved := 0 } := by
        unfold Node.putBack
        rw [← hdeny]
      rw [hback]
      exact Files.set_set (F := F)
    rw [hput]
    exact h
  · rw [hrm] at hgone
    cases hgone

/-- The body of `filesys_create`, case by case: no sector for the header, no sectors for the blocks, no
entry, or success. -/
theorem createIn_spec (part : NameBuf) {size : Int32}
    (hstop : Unending (freeCnt F.freeMap) size → ∀ v', E .fatal v' ∧ E .stack v')
    (hpast : n.Takes (cstr part) → n.slotEnd ≤ maxFileLen ∨ ∀ v', E .pastEnd v')
    (hn : F.node d = some n) (hd : d ∈ F.refs) (ok : n.DirOk) :
    fwp (createIn d part size) (FileCreatedIn F d n (cstr part) size) E F := by
  refine wpBy_ite (fun h => fwp_negative (fun hpos v' => (hstop ⟨hpos, .inl h⟩ v').1) .full) fun hnn => ?_
  have hlt : size.toNatClampNeg < 2 ^ 31 := Int32.toNatClampNeg_lt _
  have hstack : 0 < freeCnt F.freeMap → freeCnt F.freeMap < sectors size.toNatClampNeg + 1 →
      ∀ v', E .stack v' := fun hpos hlow v' => (hstop ⟨hpos, .inr hlow⟩ v').2
  generalize hlength : size.toNatClampNeg = length at hstack hlt
  refine wpBy_seq (fwp_createInode (P := fun r F₁ => r = none ∧ freeCnt F.freeMap = 0 ∧ F₁ = F ∨
    ∃ s p m, r = some s ∧ s ≠ freeMapSector ∧ F.node s = none ∧ s ∉ F.refs ∧
      Takes F.freeMap length s p m ∧ F₁ = { F.set s (newNode length p) with freeMap := m }) hstack hlt
    (fun hfull => .inl ⟨rfl, hfull, rfl⟩) fun s p m h0 hnew href ht =>
      .inr ⟨s, p, m, rfl, h0, hnew, href, ht, rfl⟩) ?_
  rintro r F₁ (⟨rfl, hfull, rfl⟩ | ⟨s, p, m, rfl, h0, hnew, href, htakes, rfl⟩)
  · exact wpBy_pure (.full hfull)
  have hsd : s ≠ d := by
    rintro rfl
    exact href hd
  refine wpBy_seq (dirAdd_spec (F := { F.set s (newNode length p) with freeMap := m }) hpast
    ((Files.set_node_other hsd.symm).trans hn) hd ok ⟨_, Files.set_node_self⟩ (zero_notMem_cstr part)) ?_
  rintro r F₂ (hno | @⟨sv, q, b, hname, hsv, hshort⟩ |
    @⟨e, sv, q, b, m', hname, he, hc, hu, hsv, hle, hfree, hm'⟩)
  · exact fwp_forget hnew href fun m' hm' => .refused hnn hno (hlength ▸ htakes) hm'
  · have hF : ({ Files.set { F.set s (newNode length p) with freeMap := m } d
        { n with saved := sv, ptr := q } with freeMap := b } : Files) =
        { (F.set d { n with saved := sv, ptr := q }).set s (newNode length p) with freeMap := b } :=
      congrArg (fun G : Files => { G with freeMap := b }) (Files.set_comm hsd)
    rw [hF]
    exact fwp_forget ((Files.set_node_other hsd).trans hnew) href fun m' hm' =>
      .crowded hnn hname (hlength ▸ htakes) hsv hshort hm'
  · have hother : ({ F.set s (newNode length p) with freeMap := m } : Files).set d
        { n.put n.freeSlot e with saved := sv, ptr := q } =
        { (F.set d { n.put n.freeSlot e with saved := sv, ptr := q }).set s (newNode length p) with
          freeMap := m } := congrArg (fun G : Files => { G with freeMap := m }) (Files.set_comm hsd)
    rw [hother] at hm'
    obtain rfl : newNode length p = m' := Option.some.inj
      ((Files.set_node_self (F := F.set d _)).symm.trans hm')
    have hF : ({ Files.set (Files.set { F.set s (newNode length p) with freeMap := m } d
        { n.put n.freeSlot e with saved := sv, ptr := q }) s (newNode length p).linked with
          freeMap := b } : Files) =
        { (F.set d { n.put n.freeSlot e with saved := sv, ptr := q }).set s (newNode length p).linked with
          freeMap := b } := by
      rw [hother]
      exact congrArg (fun G : Files => { G with freeMap := b }) Files.set_set
    have hok : (n.put n.freeSlot e).DirOk := ok.wrote hle
    rw [hF]
    refine fwp_asFile (F := { (F.set d { n.put n.freeSlot e with saved := sv, ptr := q }).set s
      (newNode length p).linked with freeMap := b }) (s := s)
      ((Files.set_node_other hsd.symm).trans Files.set_node_self) hd
      ⟨hok.whole, hok.max, hok.deny⟩ ?_ Files.set_node_self href rfl rfl ?_
    · rw [← he]
      exact Node.target_put hname.new hc (by rw [hu]; decide)
    · have hfile : Files.set { (F.set d { n.put n.freeSlot e with saved := sv, ptr := q }).set s
          (newNode length p).linked with freeMap := b } s
          { (newNode length p).linked with isDir := 0, saved := 0 } =
          { (F.set d { n.put n.freeSlot e with saved := sv, ptr := q }).set s (fileNode length p) with
            freeMap := b } := congrArg (fun G : Files => { G with freeMap := b }) Files.set_set
      rw [hfile]
      subst hlength
      exact .done hnn hname htakes h0 hnew href he hc hu hsv hle hfree

/-! ## The entries of a new directory -/

/-- An open inode need not be on the disk. -/
theorem Files.Calm.setOpen {m : Node} (h : F.Calm) (hs : s ∈ F.refs) : (F.set s m).Calm := by
  intro t k hk ht
  by_cases hts : t = s
  · rw [hts] at ht
    exact absurd hs ht
  · exact h t k ((Files.set_node_other hts).symm.trans hk) ht

theorem Node.takes_empty (hlen : n.len = 0) (hne : name ≠ []) (hshort : name.length ≤ nameMax) :
    n.Takes name := by
  refine ⟨hne, hshort, Node.find_empty (fun k hk => ?_) name⟩
  have hlt := hk.1
  unfold Node.slots at hlt
  omega

/-- A first entry: one sector is taken, or there is none. -/
theorem fwp_firstEntry {P : Bool → Files → Prop} {k : Node} {t : UInt32} (hs : F.node s = some k)
    (href : s ∈ F.refs) (hlen : k.len = 0) (hdeny : k.denyWriteCnt = 0) (hne : name ≠ [])
    (hshort : name.length ≤ nameMax) (hz : 0 ∉ name) (ht : ∃ m, F.node t = some m)
    (hdone : ∀ e sv p b m, e.inodeSector = t → cstr e.name = name → e.inUse = 1 →
      (sv = k.saved ∨ sv = k.isDir) → freeCnt F.freeMap = freeCnt b + 1 →
      (F.set s { k.put 0 e with saved := sv, ptr := p }).node t = some m →
      P true { (F.set s { k.put 0 e with saved := sv, ptr := p }).set t m.linked with freeMap := b })
    (hfull : ∀ sv p b, (sv = k.saved ∨ sv = k.isDir) → freeCnt F.freeMap = 0 → freeCnt b = 0 →
      P false { F.set s { k with saved := sv, ptr := p } with freeMap := b }) :
    fwp (dirAdd s name t) P E F := by
  have hend := Node.slotEnd_first hlen
  have hslot : k.freeSlot = 0 := by
    unfold Node.slotEnd at hend
    omega
  have htakes : k.Takes name := Node.takes_empty hlen hne hshort
  have ok : k.DirOk := ⟨by rw [hlen], by rw [hlen]; exact Nat.zero_le _, hdeny⟩
  have hmax : k.slotEnd ≤ maxFileLen := by rw [hend]; decide
  intro fs hfs
  refine wp_mono (dirAdd_spec (fun _ => .inl hmax) hs href ok ht hz fs hfs) ?_ fun _ _ he => he
  rintro r fs' ⟨F', hF', hadd⟩
  refine ⟨F', hF', ?_⟩
  cases hadd with
  | refused hno => exact absurd htakes hno
  | crowded _ hsv hfew =>
      have hlow := hfew.short
      have hle := hfew.free
      rw [Node.need_first hlen] at hlow
      exact hfull _ _ _ hsv (by omega) (by omega)
  | @done e sv p b m _ he hc hu hsv hle hfree hm =>
      rw [hslot] at hm ⊢
      refine hdone e sv p b m he hc hu hsv ?_ hm
      unfold Node.taken at hfree
      rw [if_pos (by omega), Node.need_first hlen] at hfree
      exact hfree

/-- The second of the two entries is in the same sector. -/
theorem fwp_secondEntry {P : Bool → Files → Prop} {k : Node} (hs : F.node s = some k) (href : s ∈ F.refs)
    (hd : F.node d = some n) (hsd : s ≠ d) (hlen : k.len = 20) (hdeny : k.denyWriteCnt = 0)
    (hdot : cstr (k.entry 0).name = dot) (huse : (k.entry 0).inUse ≠ 0)
    (hdone : ∀ e sv p b, e.inodeSector = d → cstr e.name = dotDot → e.inUse = 1 →
      (sv = k.saved ∨ sv = k.isDir) → freeCnt F.freeMap = freeCnt b →
      P true { (F.set s { k.put 1 e with saved := sv, ptr := p }).set d n.linked with freeMap := b }) :
    fwp (dirAdd s dotDot d) P E F := by
  have hslots : k.slots = 1 := by
    unfold Node.slots
    rw [hlen]
  have hslot : k.freeSlot = 1 := by
    have hle := k.freeSlot_le
    by_contra hne
    have h0 : k.freeSlot = 0 := by omega
    have hfree := Node.freeSlot_free (n := k) (by omega)
    rw [h0] at hfree
    exact huse hfree
  have hend : k.slotEnd = 40 := by
    unfold Node.slotEnd
    rw [hslot]
  have htakes : k.Takes dotDot := by
    refine ⟨by decide, by decide, Option.eq_none_iff_forall_ne_some.mpr fun j hj => ?_⟩
    obtain ⟨hlt, -, hname⟩ := Node.find_lt hj
    obtain rfl : j = 0 := by omega
    rw [hdot] at hname
    exact absurd hname (by decide)
  have htaken : k.taken k.slotEnd = 0 := by
    have h40 : sectors 40 = 1 := by decide
    have h20 : sectors 20 = 1 := by decide
    unfold Node.taken Node.need Fs.need
    rw [hend, hlen, h40, h20, Nat.sub_self]
    exact ite_self _
  have ok : k.DirOk := ⟨by rw [hlen], by rw [hlen]; decide, hdeny⟩
  have hmax : k.slotEnd ≤ maxFileLen := by rw [hend]; decide
  intro fs hfs
  refine wp_mono (dirAdd_spec (fun _ => .inl hmax) hs href ok ⟨n, hd⟩ (by decide) fs hfs) ?_
    fun _ _ he => he
  rintro r fs' ⟨F', hF', hadd⟩
  refine ⟨F', hF', ?_⟩
  cases hadd with
  | refused hno => exact absurd htakes hno
  | crowded _ hsv hshort =>
      have hlow := hshort.short
      have hgrows := hshort.grows
      unfold Node.taken at htaken
      rw [if_pos hgrows] at htaken
      rw [htaken] at hlow
      exact absurd hlow (Nat.not_lt_zero _)
  | @done e sv p b m _ he hc hu hsv hle hfree hm =>
      obtain rfl := Option.some.inj (hd.symm.trans ((Files.set_node_other hsd.symm).symm.trans hm))
      rw [htaken, Nat.add_zero] at hfree
      rw [hslot]
      exact hdone e sv p b he hc hu hsv hfree

/-- What `mkdir` does with a new directory `s` in `d`: it gets its two entries, or none if there is no
sector for the first. -/
inductive DirFilled (F : Files) (d s : UInt32) (n k : Node) (r : Multiset UInt32) : Files → Prop
  | both {e₁ e₂ : DirEntry} {p : Slot → UInt32} {b : Bitmap} : freeCnt F.freeMap = freeCnt b + 1 →
      e₁.inodeSector = s → cstr e₁.name = dot → e₁.inUse = 1 →
      e₂.inodeSector = d → cstr e₂.name = dotDot → e₂.inUse = 1 →
      DirFilled F d s n k r { (F.set d n.linked).set s { (k.put 0 e₁).put 1 e₂ with
        isDir := 1, saved := 1, ptr := p, children := k.children + 1 } with refs := r, freeMap := b }
  | none {p : Slot → UInt32} {b : Bitmap} : freeCnt F.freeMap = 0 → freeCnt b = 0 →
      DirFilled F d s n k r
        { F.set s { k with isDir := 1, saved := 1, ptr := p } with refs := r, freeMap := b }

/-- The two directories are closed at the end. -/
theorem fwp_closeBoth {Q : Unit → Files → Prop} {m k : Node} {b : Bitmap} {r : Multiset UInt32}
    (hd : F.node d = some n) (hm : m = n ∨ m = n.linked) (hrm : k.removed = false) (hsr : s ∉ r)
    (hcalm : (F.withRefs r).Calm)
    (h : Q () { (F.set d m).set s k.putBack with refs := r, freeMap := b }) :
    fwp (do inodeClose d; inodeClose s) Q E
      { (F.set d m).set s k with refs := s ::ₘ d ::ₘ r, freeMap := b } := by
  have hcalm' : Files.Calm { (F.set d m).set s k with refs := s ::ₘ r, freeMap := b } := by
    have hset : ((F.withRefs (s ::ₘ r)).set d m).Calm := by
      rcases hm with rfl | rfl
      · exact (hcalm.cons s).set hd rfl rfl (.inl rfl) rfl
      · exact (hcalm.cons s).set hd rfl rfl (.inl rfl) rfl
    exact hset.setOpen (Multiset.mem_cons_self s r)
  refine wpBy_seq (fwp_unref (Q := fun _ F₁ =>
    F₁ = { (F.set d m).set s k with refs := s ::ₘ r, freeMap := b }) hcalm'
    (Multiset.cons_swap ..) rfl) ?_
  rintro - F₁ rfl
  refine fwp_inodeClose (r := r) (Files.set_node_self (F := F.set d m)) rfl (fun hmem => absurd hmem hsr)
    (fun _ _ => ?_) fun _ hgone => ?_
  · have hset : ({ Files.set { (F.set d m).set s k with refs := s ::ₘ r, freeMap := b } s k.putBack with
        refs := r } : Files) = { (F.set d m).set s k.putBack with refs := r, freeMap := b } :=
      congrArg (fun G : Files => { G with refs := r, freeMap := b }) Files.set_set
    rw [hset]
    exact h
  · rw [hrm] at hgone
    cases hgone

/-- `.` is the first entry and `..` the second: one sector is enough for both, and without it the
directory stays empty. -/
theorem fillDir_spec {k : Node} {r : Multiset UInt32} (hs : F.node s = some k)
    (hd : F.node d = some n) (hrefs : F.refs = d ::ₘ r) (href : s ∉ F.refs) (hcalm : (F.withRefs r).Calm)
    (hlen : k.len = 0) (hdeny : k.denyWriteCnt = 0) (hrm : k.removed = false) :
    fwp (fillDir d s) (fun _ => DirFilled F d s n k r) E F := by
  have hsd : s ≠ d := by
    rintro rfl
    exact href (hrefs ▸ Multiset.mem_cons_self s r)
  have hsr : s ∉ r := fun hmem => href (hrefs ▸ Multiset.mem_cons_of_mem hmem)
  refine wpBy_seq (fwp_inodeOpen (Q := fun _ F₁ => F₁ = { F with refs := s ::ₘ F.refs }) hs rfl) ?_
  rintro - F₁ rfl
  refine wpBy_seq (fwp_inodeSetDir (Q := fun _ F₁ =>
    F₁ = { F.set s { k with isDir := 1 } with refs := s ::ₘ F.refs })
    hs (Multiset.mem_cons_self s _) rfl) ?_
  rintro - F₁ rfl
  refine wpBy_seq (fwp_firstEntry (P := fun _ F₂ => ∃ k₁, F₂.refs = s ::ₘ F.refs ∧ F₂.node s = some k₁ ∧
    k₁.denyWriteCnt = 0 ∧ k₁.removed = false ∧
    ((∃ e sv p b, e.inodeSector = s ∧ cstr e.name = dot ∧ e.inUse = 1 ∧
      freeCnt F.freeMap = freeCnt b + 1 ∧
      k₁ = { k.put 0 e with isDir := 1, saved := sv, ptr := p, children := k.children + 1 } ∧
      F₂ = { F.set s k₁ with refs := s ::ₘ F.refs, freeMap := b }) ∨
    ∃ sv p b, freeCnt F.freeMap = 0 ∧ freeCnt b = 0 ∧ k₁ = { k with isDir := 1, saved := sv, ptr := p } ∧
      F₂ = { F.set s k₁ with refs := s ::ₘ F.refs, freeMap := b }))
    (Files.set_node_self (F := F)) (Multiset.mem_cons_self s _) hlen hdeny
    (by decide) (by decide) (by decide)
    ⟨_, Files.set_node_self (F := F)⟩ (fun e sv p b m he hc hu _ hfree hm => ?_)
    fun sv p b _ hfull hleft =>
      ⟨_, rfl, Files.set_node_self, hdeny, hrm, .inr ⟨sv, p, b, hfull, hleft, rfl, ?_⟩⟩) ?_
  · obtain rfl := Option.some.inj (Files.set_node_self.symm.trans hm)
    refine ⟨_, rfl, Files.set_node_self, hdeny, hrm, .inl ⟨e, sv, p, b, he, hc, hu, hfree, rfl, ?_⟩⟩
    exact congrArg (fun G : Files => { G with refs := s ::ₘ F.refs, freeMap := b })
      (Files.set_set.trans Files.set_set)
  · exact congrArg (fun G : Files => { G with refs := s ::ₘ F.refs, freeMap := b }) Files.set_set
  rintro - F₂ ⟨k₁, -, -, hdeny₁, hrm₁,
    ⟨e, sv, p, b, he, hc, hu, hfree, hk₁, rfl⟩ | ⟨sv, p, b, hfull, hleft, hk₁, rfl⟩⟩
  · -- there is room for both
    have hentry : k₁.entry 0 = e := by
      rw [hk₁]
      exact (Node.entry_wrote (n := k) (j := 0)).trans (if_pos rfl)
    have hlen₁ : k₁.len = 20 := by
      rw [hk₁]
      show max k.len (20 * 0 + e.toBytes.length) = 20
      rw [hlen, DirEntry.length_toBytes]
      rfl
    refine wpBy_seq (fwp_secondEntry (P := fun _ F₃ => ∃ e₂ sv₂ p₂ b₂, e₂.inodeSector = d ∧
      cstr e₂.name = dotDot ∧ e₂.inUse = 1 ∧ freeCnt b = freeCnt b₂ ∧
      F₃ = { (F.set d n.linked).set s { k₁.put 1 e₂ with saved := sv₂, ptr := p₂ } with
        refs := s ::ₘ d ::ₘ r, freeMap := b₂ })
      (Files.set_node_self (F := F)) (Multiset.mem_cons_self s _)
      ((Files.set_node_other hsd.symm).trans hd)
      hsd hlen₁ hdeny₁ (by rw [hentry, hc]) (by rw [hentry, hu]; decide)
      fun e₂ sv₂ p₂ b₂ he₂ hc₂ hu₂ _ hfree₂ => ⟨e₂, sv₂, p₂, b₂, he₂, hc₂, hu₂, hfree₂, ?_⟩) ?_
    · have hset : ((F.set s k₁).set s { k₁.put 1 e₂ with saved := sv₂, ptr := p₂ }).set d n.linked =
          (F.set d n.linked).set s { k₁.put 1 e₂ with saved := sv₂, ptr := p₂ } := by
        rw [Files.set_set, Files.set_comm hsd]
      rw [← hrefs]
      exact congrArg (fun G : Files => { G with refs := s ::ₘ F.refs, freeMap := b₂ }) hset
    rintro - F₃ ⟨e₂, sv₂, p₂, b₂, he₂, hc₂, hu₂, hfree₂, rfl⟩
    refine fwp_closeBoth hd (.inr rfl) hrm₁ hsr hcalm ?_
    have hback : Node.putBack { k₁.put 1 e₂ with saved := sv₂, ptr := p₂ } =
        { (k.put 0 e).put 1 e₂ with isDir := 1, saved := 1, ptr := p₂, children := k.children + 1 } := by
      subst hk₁
      unfold Node.putBack
      rw [← hdeny]
      rfl
    rw [hback]
    exact .both (hfree.trans (congrArg (· + 1) hfree₂)) he hc hu he₂ hc₂ hu₂
  · have hlen₁ : k₁.len = 0 := by
      rw [hk₁]
      exact hlen
    -- there is no room for the second entry either
    refine wpBy_seq (fwp_firstEntry (P := fun _ F₃ => ∃ sv₂ p₂ b₂, freeCnt b₂ = 0 ∧
      F₃ = { (F.set d n).set s { k₁ with saved := sv₂, ptr := p₂ } with
        refs := s ::ₘ d ::ₘ r, freeMap := b₂ })
      (Files.set_node_self (F := F)) (Multiset.mem_cons_self s _) hlen₁ hdeny₁ (by decide) (by decide)
      (by decide) ⟨n, (Files.set_node_other hsd.symm).trans hd⟩
      (fun _ _ _ b₂ _ _ _ _ _ hfree₂ _ => ?_) fun sv₂ p₂ b₂ _ _ hleft₂ => ⟨sv₂, p₂, b₂, hleft₂, ?_⟩) ?_
    · have hfree : freeCnt b = freeCnt b₂ + 1 := hfree₂
      omega
    · rw [← hrefs, Files.set_self hd]
      exact congrArg (fun G : Files => { G with refs := s ::ₘ F.refs, freeMap := b₂ }) Files.set_set
    rintro - F₃ ⟨sv₂, p₂, b₂, hleft₂, rfl⟩
    refine fwp_closeBoth hd (.inl rfl) hrm₁ hsr hcalm ?_
    have hback : Node.putBack { k₁ with saved := sv₂, ptr := p₂ } =
        { k with isDir := 1, saved := 1, ptr := p₂ } := by
      subst hk₁
      unfold Node.putBack
      rw [← hdeny]
    rw [hback, Files.set_self hd]
    exact .none hfull hleft₂

/-! ## `mkdir` in a directory -/

/-- `mkdir` once it has come to `currDir`. -/
def makeIn (currDir : UInt32) (part : NameBuf) : FsM Bool := do
  match ← createInode 0 with
  | none => return false
  | some sector =>
      if ← dirAdd currDir (cstr part) sector then
        fillDir currDir sector
        return true
      else
        inodeClose currDir
        return false

/-- What it does with the files.  If there is no entry then the inode stays. -/
inductive DirCreatedIn (F : Files) (d : UInt32) (n : Node) (name : List UInt8) (r : Multiset UInt32) :
    Bool → Files → Prop where
  | full : freeCnt F.freeMap = 0 → DirCreatedIn F d n name r false F
  | refused {s : UInt32} {p : Slot → UInt32} {m : Bitmap} : ¬ n.Takes name → Takes F.freeMap 0 s p m →
      F.node s = none →
      DirCreatedIn F d n name r false { F.set s (newNode 0 p) with refs := r, freeMap := m }
  | crowded {s : UInt32} {p q : Slot → UInt32} {m b : Bitmap} {sv : Int32} : n.Takes name →
      Takes F.freeMap 0 s p m → F.node s = none → (sv = n.saved ∨ sv = n.isDir) → n.Short n.slotEnd m b →
      DirCreatedIn F d n name r false
        { (F.set d { n with saved := sv, ptr := q }).set s (newNode 0 p) with refs := r, freeMap := b }
  | done {s : UInt32} {p q : Slot → UInt32} {m b : Bitmap} {e : DirEntry} {sv : Int32} {F₁ : Files} :
      n.Takes name → Takes F.freeMap 0 s p m → s ≠ freeMapSector → F.node s = none → s ∉ F.refs →
      e.inodeSector = s → cstr e.name = name → e.inUse = 1 → (sv = n.saved ∨ sv = n.isDir) →
      n.slotEnd ≤ maxFileLen → freeCnt m = freeCnt b + n.taken n.slotEnd →
      DirFilled { (F.set d { n.put n.freeSlot e with saved := sv, ptr := q }).set s
          (newNode 0 p).linked with freeMap := b } d s { n.put n.freeSlot e with saved := sv, ptr := q }
          (newNode 0 p).linked r F₁ →
      DirCreatedIn F d n name r true F₁

/-- A new inode is on the disk. -/
theorem Files.Calm.insert {m : Node} (h : F.Calm) (hrm : m.removed = false) (hdeny : m.denyWriteCnt = 0)
    (hsv : m.saved = m.isDir) : (F.set s m).Calm := by
  intro t k hk ht
  by_cases hts : t = s
  · subst hts
    obtain rfl := Option.some.inj (Files.set_node_self.symm.trans hk)
    exact ⟨hrm, hdeny, hsv⟩
  · exact h t k ((Files.set_node_other hts).symm.trans hk) ht

/-- The body of `mkdir`: what becomes of the inode depends on `dir_add`, and it is not given back. -/
theorem makeIn_spec (part : NameBuf) {r : Multiset UInt32}
    (hpast : n.Takes (cstr part) → 0 < freeCnt F.freeMap → n.slotEnd ≤ maxFileLen ∨ ∀ v', E .pastEnd v')
    (hn : F.node d = some n) (hrefs : F.refs = d ::ₘ r) (ok : n.DirOk) (hcalm : (F.withRefs r).Calm) :
    fwp (makeIn d part) (DirCreatedIn F d n (cstr part) r) E F := by
  have hd : d ∈ F.refs := hrefs ▸ Multiset.mem_cons_self d r
  have h0 : sectors 0 = 0 := by decide
  refine wpBy_seq (fwp_createInode (P := fun x F₁ => x = none ∧ freeCnt F.freeMap = 0 ∧ F₁ = F ∨
    ∃ s p m, x = some s ∧ s ≠ freeMapSector ∧ F.node s = none ∧ s ∉ F.refs ∧
      Takes F.freeMap 0 s p m ∧ F₁ = { F.set s (newNode 0 p) with freeMap := m })
    (fun hpos hlow => by omega) (by decide)
    (fun hfull => .inl ⟨rfl, hfull, rfl⟩) fun s p m h0 hnew href ht =>
      .inr ⟨s, p, m, rfl, h0, hnew, href, ht, rfl⟩) ?_
  rintro x F₁ (⟨rfl, hfull, rfl⟩ | ⟨s, p, m, rfl, hmap, hnew, href, htakes, rfl⟩)
  · exact wpBy_pure (.full hfull)
  have hsd : s ≠ d := by
    rintro rfl
    exact href hd
  have hall : freeCnt F.freeMap = freeCnt m + sectors 0 + 1 := htakes.free
  refine wpBy_seq (dirAdd_spec (F := { F.set s (newNode 0 p) with freeMap := m })
    (fun ht => hpast ht (by omega))
    ((Files.set_node_other hsd.symm).trans hn) hd ok ⟨_, Files.set_node_self⟩ (zero_notMem_cstr part)) ?_
  rintro x F₂ (hno | @⟨sv, q, b, hname, hsv, hshort⟩ |
    @⟨e, sv, q, b, m', hname, he, hc, hu, hsv, hle, hfree, hm'⟩)
  · refine wpBy_seq (fwp_unref
      (Q := fun _ F₃ => F₃ = { F.set s (newNode 0 p) with refs := r, freeMap := m })
      (hcalm.insert rfl rfl rfl) hrefs rfl) ?_
    rintro - F₃ rfl
    exact wpBy_pure (.refused hno htakes hnew)
  · have hF : ({ Files.set { F.set s (newNode 0 p) with freeMap := m } d
        { n with saved := sv, ptr := q } with freeMap := b } : Files) =
        { (F.set d { n with saved := sv, ptr := q }).set s (newNode 0 p) with freeMap := b } :=
      congrArg (fun G : Files => { G with freeMap := b }) (Files.set_comm hsd)
    have hcalm' : Files.Calm { (F.set d { n with saved := sv, ptr := q }).set s (newNode 0 p) with
        refs := r, freeMap := b } :=
      (Files.Calm.set (m := { n with saved := sv, ptr := q }) hcalm hn rfl rfl hsv rfl).insert rfl rfl rfl
    rw [hF]
    refine wpBy_seq (fwp_unref (Q := fun _ F₃ => F₃ = { (F.set d { n with saved := sv, ptr := q }).set s
      (newNode 0 p) with refs := r, freeMap := b }) hcalm' hrefs rfl) ?_
    rintro - F₃ rfl
    exact wpBy_pure (.crowded hname htakes hnew hsv hshort)
  · have hother : ({ F.set s (newNode 0 p) with freeMap := m } : Files).set d
        { n.put n.freeSlot e with saved := sv, ptr := q } =
        { (F.set d { n.put n.freeSlot e with saved := sv, ptr := q }).set s (newNode 0 p) with
          freeMap := m } := congrArg (fun G : Files => { G with freeMap := m }) (Files.set_comm hsd)
    rw [hother] at hm'
    obtain rfl : newNode 0 p = m' := Option.some.inj
      ((Files.set_node_self (F := F.set d _)).symm.trans hm')
    have hF : ({ Files.set (Files.set { F.set s (newNode 0 p) with freeMap := m } d
        { n.put n.freeSlot e with saved := sv, ptr := q }) s (newNode 0 p).linked with
          freeMap := b } : Files) =
        { (F.set d { n.put n.freeSlot e with saved := sv, ptr := q }).set s (newNode 0 p).linked with
          freeMap := b } := by
      rw [hother]
      exact congrArg (fun G : Files => { G with freeMap := b }) Files.set_set
    have hcalm' : Files.Calm { (F.set d { n.put n.freeSlot e with saved := sv, ptr := q }).set s
        (newNode 0 p).linked with refs := r, freeMap := b } :=
      (Files.Calm.set (m := { n.put n.freeSlot e with saved := sv, ptr := q }) hcalm hn rfl rfl hsv
        rfl).insert rfl rfl rfl
    rw [hF]
    refine wpBy_seq (fillDir_spec (F := { (F.set d
      { n.put n.freeSlot e with saved := sv, ptr := q }).set s (newNode 0 p).linked with freeMap := b })
      (Files.set_node_self (F := F.set d _))
      ((Files.set_node_other hsd.symm).trans Files.set_node_self) hrefs href hcalm' rfl rfl rfl) ?_
    rintro - F₃ hF₃
    exact wpBy_pure (.done hname htakes hmap hnew href he hc hu hsv hle hfree hF₃)

/-! ## With the path -/

/-- What `mkdir` does with the files. -/
inductive DirCreated (F : Files) (cwd : Option UInt32) (path : List UInt8) (part : NameBuf) :
    Bool → Files → Prop where
  | lost {r : Multiset UInt32} : F.followPath cwd path = none →
      DirCreated F cwd path part false (F.withRefs r)
  | tried {d : UInt32} {b x : Bool} {n : Node} {F₁ : Files} : F.followPath cwd path = some (d, b) →
      F.node d = some n →
      DirCreatedIn (F.withRefs (d ::ₘ F.refs)) d n (lastPart (parts path) part) F.refs x F₁ →
      DirCreated F cwd path part x F₁

/-- What `filesys_create` does with the files. -/
inductive FileCreated (F : Files) (cwd : Option UInt32) (path : List UInt8) (size : Int32)
    (part : NameBuf) : Bool → Files → Prop where
  | lost {r : Multiset UInt32} : (∀ d, F.followPath cwd path ≠ some (d, false)) →
      FileCreated F cwd path size part false (F.withRefs r)
  | tried {d : UInt32} {x : Bool} {n : Node} {F₁ : Files} : F.followPath cwd path = some (d, false) →
      F.node d = some n →
      FileCreatedIn (F.withRefs (d ::ₘ F.refs)) d n (lastPart (parts path) part) size x F₁ →
      FileCreated F cwd path size part x (F₁.withRefs F.refs)

variable {cwd : Option UInt32} {path : List UInt8} {part : NameBuf} {size : Int32}

/-- `mkdir` follows the path, and makes the directory in whatever directory that leads to. -/
theorem mkdir_spec (part : NameBuf) (hhome : F.Home cwd) (hz : 0 ∉ path)
    (hnull : path ≠ [] → startDir cwd path = none → ∀ v', E .badPointer v')
    (hspin : (∃ c ∈ parts path, nameMax < c.length) → ∀ v', E .spin v')
    (hpast : ∀ d b n, F.followPath cwd path = some (d, b) → F.node d = some n →
      n.Takes (lastPart (parts path) part) → 0 < freeCnt F.freeMap →
      n.slotEnd ≤ maxFileLen ∨ ∀ v', E .pastEnd v') :
    fwp (mkdir cwd path part) (DirCreated F cwd path part) E F := by
  refine fwp_calm fun hcalm => ?_
  refine wpBy_seq (follow_spec (P := fun f F₁ => f.success = false ∧ F.followPath cwd path = none ∧
    (∃ r, F₁ = F.withRefs r) ∨ ∃ d b n, f.success = true ∧ f.dir = some d ∧
      F.followPath cwd path = some (d, b) ∧ F.node d = some n ∧ n.DirOk ∧
      cstr f.part = lastPart (parts path) part ∧ F₁ = F.withRefs (d ::ₘ F.refs)) hhome hz hnull hspin
    (fun d b f hf hdir hs hd _ hlast => ?_) fun f r hf hs _ => .inl ⟨hs, hf, r, rfl⟩) ?_
  · obtain ⟨n, hn, hne⟩ := hdir
    exact .inr ⟨d, b, n, hs, hd, hf, hn, hhome.tree.dirOk d n hn hne, hlast, rfl⟩
  rintro ⟨success, dir, last, isDir⟩ F₁ (⟨rfl, hf, r, rfl⟩ | ⟨d, b, n, rfl, rfl, hf, hn, ok, hlast, rfl⟩)
  · exact wpBy_pure (.lost hf)
  · have hmake := makeIn_spec (F := F.withRefs (d ::ₘ F.refs)) last (r := F.refs)
      (fun ht => hpast d b n hf hn (hlast ▸ ht)) hn rfl ok hcalm
    intro fs hfs
    refine wp_mono (hmake fs hfs) ?_ fun _ _ he => he
    rintro x fs' ⟨F', hF', hmade⟩
    exact ⟨F', hF', .tried hf hn (hlast ▸ hmade)⟩

theorem FileCreatedIn.calm {x : Bool} {r : Multiset UInt32} (h : FileCreatedIn F d n name size x F')
    (hn : F.node d = some n) (hcalm : (F.withRefs r).Calm) : (F'.withRefs r).Calm := by
  cases h with
  | full => exact hcalm
  | refused => exact hcalm
  | @crowded s p q m b m' sv _ _ _ hsv =>
      exact Files.Calm.set (F := F.withRefs r) (m := { n with saved := sv, ptr := q })
        hcalm hn rfl rfl hsv rfl
  | @done s p q m b e sv _ _ _ _ _ _ _ _ _ hsv =>
      exact (Files.Calm.set (F := F.withRefs r) (m := { n.put n.freeSlot e with saved := sv, ptr := q })
        hcalm hn rfl rfl hsv rfl).insert rfl rfl rfl

theorem FileCreatedIn.refs {x : Bool} (h : FileCreatedIn F d n name size x F') : F'.refs = F.refs := by
  cases h <;> rfl

/-- `filesys_create` follows the path, and makes nothing if it leads to a directory. -/
theorem create_spec (size : Int32) (part : NameBuf) (hhome : F.Home cwd) (hz : 0 ∉ path)
    (hspin : (∃ c ∈ parts path, nameMax < c.length) → ∀ v', E .spin v')
    (hstop : (∃ d, F.followPath cwd path = some (d, false)) → Unending (freeCnt F.freeMap) size →
      ∀ v', E .fatal v' ∧ E .stack v')
    (hpast : ∀ d n, F.followPath cwd path = some (d, false) → F.node d = some n →
      n.Takes (lastPart (parts path) part) → n.slotEnd ≤ maxFileLen ∨ ∀ v', E .pastEnd v') :
    fwp (filesysCreate cwd path size part) (FileCreated F cwd path size part) E F := by
  refine fwp_calm fun hcalm => ?_
  refine wpBy_ite (fun hno => wpBy_pure ?_) fun hsome => ?_
  · have hstart : startDir cwd path = none := by
      unfold startDir
      rw [if_neg hno.1, hno.2]
    refine FileCreated.lost (r := F.refs) fun d hd => ?_
    unfold Files.followPath at hd
    rw [hstart] at hd
    split at hd <;> cases hd
  have hnull : path ≠ [] → startDir cwd path = none → ∀ v', E .badPointer v' := by
    intro _ hstart
    unfold startDir at hstart
    split at hstart
    · cases hstart
    · next hslash => exact absurd ⟨hslash, hstart⟩ hsome
  refine wpBy_seq (follow_spec (P := fun f F₁ => (f.success = true → f.partIsDir = true) ∧
    (∀ d, F.followPath cwd path ≠ some (d, false)) ∧
    (∃ r, F₁ = F.withRefs r) ∨ ∃ d n, f.success = true ∧ f.partIsDir = false ∧ f.dir = some d ∧
      F.followPath cwd path = some (d, false) ∧ F.node d = some n ∧ n.DirOk ∧
      cstr f.part = lastPart (parts path) part ∧ F₁ = F.withRefs (d ::ₘ F.refs)) hhome hz hnull hspin
    (fun d b f hf hdir hs hd hb hlast => ?_) fun f r hf hs _ =>
      .inl ⟨fun h => absurd (hs.symm.trans h) (by decide),
        fun d hd => (by rw [hf] at hd; cases hd), r, rfl⟩) ?_
  · cases b with
    | true =>
        refine .inl ⟨fun _ => hb, fun d' hd' => ?_, _, rfl⟩
        rw [hf] at hd'
        cases hd'
    | false =>
        obtain ⟨n, hn, hne⟩ := hdir
        exact .inr ⟨d, n, hs, hb, hd, hf, hn, hhome.tree.dirOk d n hn hne, hlast, rfl⟩
  rintro ⟨success, dir, last, isDir⟩ F₁
    (⟨hlost, hno, r, rfl⟩ | ⟨d, n, rfl, rfl, rfl, hf, hn, ok, hlast, rfl⟩)
  · cases success with
    | false => exact wpBy_pure (.lost hno)
    | true =>
        obtain rfl : isDir = true := hlost rfl
        exact wpBy_pure (.lost hno)
  · refine wpBy_seq (createIn_spec (F := F.withRefs (d ::ₘ F.refs)) last (hstop ⟨d, hf⟩)
      (fun ht => hpast d n hf hn (hlast ▸ ht)) hn (Multiset.mem_cons_self d _) ok) ?_
    rintro x F₂ hF₂
    refine wpBy_seq (fwp_unref (Q := fun _ F₃ => F₃ = F₂.withRefs F.refs)
      (hF₂.calm hn hcalm) hF₂.refs rfl) ?_
    rintro - F₃ rfl
    exact wpBy_pure (.tried hf hn (hlast ▸ hF₂))

/-! ### Without an entry -/

/-- Every inode that was there is there, with the bytes that it had. -/
def Files.Keeps (F F' : Files) : Prop :=
  ∀ t k, F.node t = some k → ∃ k', F'.node t = some k' ∧ SameBytes k k'

theorem Files.Keeps.refl (F : Files) : F.Keeps F := fun _ k hk => ⟨k, hk, rfl, rfl⟩

theorem Files.Keeps.set {m : Node} (h : F.Keeps F') (hm : ∀ k, F.node s = some k → SameBytes k m) :
    F.Keeps (F'.set s m) := by
  intro t k hk
  by_cases hts : t = s
  · subst hts
    exact ⟨m, Files.set_node_self, hm k hk⟩
  · obtain ⟨k', hk', hsame⟩ := h t k hk
    exact ⟨k', (Files.set_node_other hts).trans hk', hsame⟩

theorem FileCreated.keeps (h : FileCreated F cwd path size part false F') : F.Keeps F' := by
  cases h with
  | lost => exact .refl F
  | tried hf hn hin =>
      cases hin with
      | full => exact .refl F
      | refused => exact .refl F
      | crowded =>
          refine Files.Keeps.set (.refl F) fun k hk => ?_
          obtain rfl := Option.some.inj (hn.symm.trans hk)
          exact ⟨rfl, rfl⟩

/-- A `mkdir` that returns false has changed no inode that was there. -/
theorem DirCreated.keeps (h : DirCreated F cwd path part false F') : F.Keeps F' := by
  cases h with
  | lost => exact .refl F
  | tried hf hn hin =>
      cases hin with
      | full => exact .refl F
      | refused hno ht hnew =>
          refine Files.Keeps.set (.refl F) fun k hk => ?_
          cases hnew.symm.trans hk
      | crowded ht htakes hnew =>
          refine Files.Keeps.set (Files.Keeps.set (.refl F) fun k hk => ?_) fun k hk => ?_
          · obtain rfl := Option.some.inj (hn.symm.trans hk)
            exact ⟨rfl, rfl⟩
          · cases hnew.symm.trans hk

end CS162.Fs
