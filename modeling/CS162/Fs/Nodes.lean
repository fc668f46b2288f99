/-
# `CS162.Fs.Nodes` — the file system without its disk

What directories see of the layers below: for each live inode a `Node`, its header, its
bytes and its flags, and for the open ones how often they are open.  `Shows` says that a
volume is an implementation of such a `Files`; the free map's own inode is not one of the
nodes.  One rule for each function of `inode.c` says what it does to the nodes and to the
free map (`fwp`), and nothing above this module looks at the disk.

`saved` is the part of a header that `inode_close` alone writes to the disk: the flag
`is_dir` as it is there.  The rest of a header is on the disk after every call.
-/
import Mathlib.Data.Multiset.Count
import CS162.Fs.Boot
import CS162.Fs.Tidy
import CS162.Fs.Directory

namespace CS162.Fs

open Bytes Wp

/-- An inode, as the functions above see it. -/
structure Node where
  isDir : Int32
  children : Int32
  len : Nat
  byte : Nat → UInt8
  removed : Bool
  denyWriteCnt : Nat
  saved : Int32
  ptr : Slot → UInt32

/-- The live inodes, a reference for each time one of them was opened, and the free map. -/
structure Files where
  node : UInt32 → Option Node
  refs : Multiset UInt32
  freeMap : Bitmap

/-- Their sectors, and that of the free map. -/
def Files.live (F : Files) : Set UInt32 := {s | s = freeMapSector ∨ (F.node s).isSome = true}

namespace Vol

def removedAt (v : Vol) (s : UInt32) : Bool := ((inodeIn v.openInodes s).map Inode.removed).getD false

def denyAt (v : Vol) (s : UInt32) : Nat := ((inodeIn v.openInodes s).map Inode.denyWriteCnt).getD 0

def openAt (v : Vol) (s : UInt32) : Nat := ((inodeIn v.openInodes s).map Inode.openCnt).getD 0

/-- The node of an inode. -/
def nodeAt (v : Vol) (s : UInt32) : Node where
  isDir := (v.header s).isDir
  children := (v.header s).children
  len := (v.header s).len
  byte := byteAt v.disk (v.pointers s)
  removed := v.removedAt s
  denyWriteCnt := v.denyAt s
  saved := (InodeDisk.ofSector (v.disk s)).isDir
  ptr := v.pointers s

/-- The header on the disk names the same blocks. -/
structure Synced (v : Vol) (s : UInt32) : Prop where
  directPointers : (InodeDisk.ofSector (v.disk s)).directPointers = (v.header s).directPointers
  doublyIndirect : (InodeDisk.ofSector (v.disk s)).doublyIndirect = (v.header s).doublyIndirect
  length : (InodeDisk.ofSector (v.disk s)).length = (v.header s).length

end Vol

/-- The volume `v` is an implementation of `F`. -/
structure Shows (v : Vol) (F : Files) : Prop where
  inv : FsInv v F.live
  map : F.node freeMapSector = none
  node : ∀ s n, F.node s = some n → v.nodeAt s = n
  synced : ∀ s n, F.node s = some n → v.Synced s
  upto : ∀ s n, F.node s = some n → Upto n.ptr (sectors n.len)
  refs : ∀ s, s ≠ freeMapSector → v.openAt s = F.refs.count s
  mapRefs : freeMapSector ∉ F.refs
  freeMap : v.freeMap = F.freeMap

/-- What `x` does to the files. -/
abbrev fwp {α : Type} (x : FsM α) (Q : α → Files → Prop) (E : Panic → Vol → Prop) (F : Files) : Prop :=
  wpBy (fun fs F => Shows fs.vol F) x Q (fun e fs => E e fs.vol) F

variable {v v' : Vol} {F F' : Files} {s t : UInt32} {n : Node} {i j : Inode} {E : Panic → Vol → Prop}

theorem fwp_of_vwp {α : Type} {x : FsM α} {Q : α → Files → Prop}
    (h : ∀ v, Shows v F → vwp x (fun a v' => ∃ F', Shows v' F' ∧ Q a F') E v) : fwp x Q E F :=
  fun fs hs => h fs.vol hs fs rfl

theorem Files.mem_live : s ∈ F.live ↔ s = freeMapSector ∨ (F.node s).isSome = true := Iff.rfl

namespace Shows

theorem live (h : Shows v F) (hn : F.node s = some n) : s ∈ F.live ∧ s ≠ freeMapSector := by
  refine ⟨.inr (by rw [hn]; rfl), ?_⟩
  rintro rfl
  rw [h.map] at hn
  cases hn

theorem lt (h : Shows v F) (hn : F.node s = some n) : s < v.size :=
  (h.inv.owned.header s (h.live hn).1).lt h.inv.owned.bitCnt

/-- A node with a reference is open. -/
theorem isOpen (h : Shows v F) (hr : s ∈ F.refs) : ∃ i, inodeIn v.openInodes s = some i := by
  have hne : s ≠ freeMapSector := by
    rintro rfl
    exact h.mapRefs hr
  have hcnt := h.refs s hne
  have hpos := Multiset.count_pos.mpr hr
  cases hi : inodeIn v.openInodes s with
  | some i => exact ⟨i, rfl⟩
  | none =>
      rw [Vol.openAt, hi] at hcnt
      exact absurd hcnt.symm hpos.ne'

/-- And has a node. -/
theorem node_of_mem (h : Shows v F) (hr : s ∈ F.refs) : ∃ n, F.node s = some n := by
  obtain ⟨i, hi⟩ := h.isOpen hr
  rcases (h.inv.opens s i hi).1 with rfl | hs
  · exact absurd hr h.mapRefs
  · exact Option.isSome_iff_exists.mp hs

end Shows

/-! ## Frames -/

section Frame

variable {L : Set UInt32}

/-- An operation on others keeps a header on the disk as it is. -/
theorem Kept.disk_header (hk : Kept v L v') (ho : Owned v L) (ht : t ∈ L) : v'.disk t = v.disk t := by
  refine hk.frame t (.inl ht) ?_
  rintro ⟨h0, a, -, -, he⟩
  exact ho.apart freeMapSector h0 t ht a he

theorem Kept.nodeAt (hk : Kept v L v') (ho : Owned v L) (ht : t ∈ L) (h0 : t ≠ freeMapSector) :
    v'.nodeAt t = v.nodeAt t := by
  have hh := hk.header ho ht
  have hp := hk.pointers ho ht
  have hd := hk.disk_header ho ht
  have hb : byteAt v'.disk (v.pointers t) = byteAt v.disk (v.pointers t) :=
    funext fun p => hk.bytes ho ht h0 p
  unfold Vol.nodeAt Vol.removedAt Vol.denyAt
  rw [hh, hp, hb, hd, hk.opens t ht]

/-- A header that agrees with its inode on the disk still does. -/
theorem Kept.synced (hk : Kept v L v') (ho : Owned v L) (ht : t ∈ L) (h : v.Synced t) : v'.Synced t := by
  have hh := hk.header ho ht
  have hd := hk.disk_header ho ht
  refine ⟨?_, ?_, ?_⟩
  · rw [hh, hd]
    exact h.directPointers
  · rw [hh, hd]
    exact h.doublyIndirect
  · rw [hh, hd]
    exact h.length

/-- Without `s` there is less to keep. -/
theorem Kept.sdiff (hk : Kept v L v') (h0 : s ≠ freeMapSector) : Kept v (L \ {s}) v' := by
  have hfor : ∀ x, Foreign v (L \ {s}) x → Foreign v L x := fun x hx =>
    hx.imp (fun h => h.1) fun ⟨t, ht, hx⟩ => ⟨t, ht.1, hx⟩
  refine ⟨hk.size, hk.bitCnt, fun x hx => hk.held x (hfor x hx), fun x hx hm => ?_,
    fun t ht => hk.opens t ht.1⟩
  refine hk.frame x (hfor x hx) fun hb => hm ⟨⟨hb.1, ?_⟩, hb.2⟩
  exact fun he => h0 he.symm

end Frame

/-- The files with the node of `s` replaced. -/
def Files.set (F : Files) (s : UInt32) (n : Node) : Files :=
  { F with node := Function.update F.node s (some n) }

/-- The files without `s`. -/
def Files.drop (F : Files) (s : UInt32) : Files := { F with node := Function.update F.node s none }

@[simp] theorem Files.set_refs : (F.set s n).refs = F.refs := rfl

@[simp] theorem Files.set_node_self : (F.set s n).node s = some n := Function.update_self ..

theorem Files.set_node_other (h : t ≠ s) : (F.set s n).node t = F.node t := Function.update_of_ne h ..

theorem Files.live_congr (h : ∀ t, (F'.node t).isSome = (F.node t).isSome) : F'.live = F.live := by
  ext t
  rw [Files.mem_live, Files.mem_live, h t]

theorem Files.live_set {m : Node} (hn : F.node s = some n) : (F.set s m).live = F.live := by
  refine Files.live_congr fun t => ?_
  by_cases ht : t = s
  · rw [ht, Files.set_node_self, hn]
    rfl
  · rw [Files.set_node_other ht]

theorem Files.live_insert (F : Files) : (F.set s n).live = insert s F.live := by
  ext t
  rw [Files.mem_live, Set.mem_insert_iff, Files.mem_live]
  by_cases ht : t = s
  · rw [ht]
    simp
  · rw [Files.set_node_other ht]
    simp [ht]

theorem Files.live_drop (F : Files) (hs : s ≠ freeMapSector) : (F.drop s).live = F.live \ {s} := by
  ext t
  rw [Files.mem_live, Set.mem_sdiff, Files.mem_live, Set.mem_singleton_iff]
  by_cases ht : t = s
  · rw [ht]
    simp [Files.drop, hs]
  · simp [Files.drop, ht]

/-- An operation on `s` alone. -/
theorem Shows.change (h : Shows v F) (hs : s ≠ freeMapSector) (hk : Kept v (F.live \ {s}) v')
    (hinv : FsInv v' F'.live) (hother : ∀ t, t ≠ s → F'.node t = F.node t)
    (hnode : ∀ n, F'.node s = some n → v'.nodeAt s = n ∧ v'.Synced s ∧ Upto n.ptr (sectors n.len))
    (hrefs : ∀ t, t ≠ s → F'.refs.count t = F.refs.count t)
    (hcnt : v'.openAt s = F'.refs.count s) (hmap : v'.freeMap = F'.freeMap) : Shows v' F' where
  freeMap := hmap
  inv := hinv
  map := by
    rw [hother _ (Ne.symm hs)]
    exact h.map
  node t m hm := by
    by_cases ht : t = s
    · subst ht
      exact (hnode m hm).1
    · rw [hother t ht] at hm
      have hl := h.live hm
      rw [hk.nodeAt (h.inv.owned.mono Set.sdiff_subset) ⟨hl.1, ht⟩ hl.2]
      exact h.node t m hm
  synced t m hm := by
    by_cases ht : t = s
    · subst ht
      exact (hnode m hm).2.1
    · rw [hother t ht] at hm
      have hl := h.live hm
      exact hk.synced (h.inv.owned.mono Set.sdiff_subset) ⟨hl.1, ht⟩ (h.synced t m hm)
  upto t m hm := by
    by_cases ht : t = s
    · subst ht
      exact (hnode m hm).2.2
    · rw [hother t ht] at hm
      exact h.upto t m hm
  refs t ht0 := by
    by_cases ht : t = s
    · rw [ht]
      exact hcnt
    · rw [hrefs t ht, ← h.refs t ht0]
      unfold Vol.openAt
      by_cases hl : t ∈ F.live
      · rw [hk.opens t ⟨hl, ht⟩]
      · -- an inode that is not live is open neither before nor after
        have hl' : t ∉ F'.live := by
          rw [Files.mem_live] at hl ⊢
          rw [hother t ht]
          exact hl
        have hnone : inodeIn v.openInodes t = none :=
          Option.eq_none_iff_forall_ne_some.mpr fun i hi => hl (h.inv.opens t i hi).1
        have hnone' : inodeIn v'.openInodes t = none :=
          Option.eq_none_iff_forall_ne_some.mpr fun i hi => hl' (hinv.opens t i hi).1
        rw [hnone, hnone']
  mapRefs := by
    intro hm
    have hpos := Multiset.count_pos.mpr hm
    rw [hrefs _ (Ne.symm hs)] at hpos
    exact h.mapRefs (Multiset.count_pos.mp hpos)

/-! ## The functions of `inode.c` -/

section Rules

variable {Q : Unit → Files → Prop}

/-- The fields of a node whose inode is open. -/
theorem Shows.fields (h : Shows v F) (hn : F.node s = some n) (hi : inodeIn v.openInodes s = some i) :
    n = ⟨i.data.isDir, i.data.children, i.data.len, byteAt v.disk (v.pointers s), i.removed,
      i.denyWriteCnt, (InodeDisk.ofSector (v.disk s)).isDir, v.pointers s⟩ ∧
      i.openCnt = F.refs.count s := by
  have hne := (h.live hn).2
  constructor
  · rw [← h.node s n hn]
    simp only [Vol.nodeAt, Vol.header_open hi, Vol.removedAt, Vol.denyAt, hi, Option.map_some,
      Option.getD_some]
  · rw [← h.refs s hne, Vol.openAt, hi]
    rfl

/-- `inode_open` adds one reference, and changes no file. -/
theorem Shows.opened (h : Shows v F) (hn : F.node s = some n) :
    Shows (v.opened s) { F with refs := s ::ₘ F.refs } := by
  obtain ⟨hl, h0⟩ := h.live hn
  have ho := h.inv.owned.mono (Set.sdiff_subset : F.live \ {s} ⊆ F.live)
  have hk : Kept v (F.live \ {s}) (v.opened s) :=
    ⟨rfl, rfl, fun x hx => ho.foreign_used hx, fun _ _ _ => rfl, fun t ht => inodeIn_opened_other ht.2⟩
  refine h.change h0 hk (h.inv.opened hl) (fun _ _ => rfl) (fun m hm => ?_) (fun t ht => ?_) ?_ h.freeMap
  · obtain rfl : n = m := Option.some.inj (hn.symm.trans hm)
    have hs := h.synced s n hn
    refine ⟨?_, ?_, h.upto s n hn⟩
    · rw [← h.node s n hn]
      unfold Vol.nodeAt Vol.removedAt Vol.denyAt
      rw [header_opened, pointers_opened, inodeIn_opened_self]
      unfold openedInode
      cases inodeIn v.openInodes s <;> rfl
    · refine ⟨?_, ?_, ?_⟩
      · rw [header_opened]
        exact hs.directPointers
      · rw [header_opened]
        exact hs.doublyIndirect
      · rw [header_opened]
        exact hs.length
  · exact Multiset.count_cons_of_ne ht _
  · rw [Multiset.count_cons_self, ← h.refs s h0]
    unfold Vol.openAt
    rw [inodeIn_opened_self]
    unfold openedInode
    cases inodeIn v.openInodes s <;> rfl

theorem fwp_inodeOpen (hn : F.node s = some n) (h : Q () { F with refs := s ::ₘ F.refs }) :
    fwp (inodeOpen s) Q E F :=
  fwp_of_vwp fun _ hv => vwp_inodeOpen (hv.lt hn) ⟨_, hv.opened hn, h⟩

theorem fwp_inodeReopen (hs : s ∈ F.refs) (h : Q () { F with refs := s ::ₘ F.refs }) :
    fwp (inodeReopen s) Q E F := by
  refine fwp_of_vwp fun v hv => ?_
  obtain ⟨n, hn⟩ := hv.node_of_mem hs
  obtain ⟨i, hi⟩ := hv.isOpen hs
  exact vwp_inodeReopen hi ⟨_, hv.opened hn, h⟩

/-- A field that is not about blocks is written. -/
theorem Shows.update (h : Shows v F) (hn : F.node s = some n) (hi : inodeIn v.openInodes s = some i)
    (hj : j.sector = s) (hcnt : j.openCnt = i.openCnt) (hdeny : j.denyWriteCnt = i.denyWriteCnt)
    (hdirect : j.data.directPointers = i.data.directPointers)
    (hdoubly : j.data.doublyIndirect = i.data.doublyIndirect)
    (hlength : j.data.length = i.data.length) :
    Shows { v with openInodes := setInode v.openInodes j }
      (F.set s { n with isDir := j.data.isDir, children := j.data.children, removed := j.removed }) := by
  obtain ⟨hl, h0⟩ := h.live hn
  have hpos := (h.inv.opens s i hi).2
  have hin : inodeIn (setInode v.openInodes j) s = some j := inodeIn_setInode_self hi hj
  have hothers : ∀ t, t ≠ s → inodeIn (setInode v.openInodes j) t = inodeIn v.openInodes t :=
    fun t ht => inodeIn_setInode_other (by rw [hj]; exact ht.symm)
  have ho := h.inv.owned.mono (Set.sdiff_subset : F.live \ {s} ⊆ F.live)
  have hinv := h.inv.update hi hj (by rw [hcnt]; exact hpos) hdeny hdirect hdoubly hlength
  have hh : Vol.header { v with openInodes := setInode v.openInodes j } s = j.data := Vol.header_open hin
  have hh' := Vol.header_open hi
  obtain ⟨rfl, hrefs⟩ := h.fields hn hi
  refine h.change h0 ⟨rfl, rfl, fun x hx => ho.foreign_used hx, fun _ _ _ => rfl,
    fun t ht => hothers t ht.2⟩ ?_ (fun t ht => Files.set_node_other ht) (fun m hm => ?_)
    (fun _ _ => rfl) ?_
    h.freeMap
  · rw [Files.live_set hn]
    exact hinv
  · rw [Files.set_node_self] at hm
    cases hm
    have hs := h.synced s _ hn
    have hup := h.upto s _ hn
    refine ⟨?_, ?_, hup⟩
    · unfold Vol.nodeAt Vol.removedAt Vol.denyAt
      rw [hh, hin]
      have hlen : j.data.len = i.data.len := congrArg Int32.toNatClampNeg hlength
      have hp : Vol.pointers { v with openInodes := setInode v.openInodes j } s = v.pointers s := by
        unfold Vol.pointers
        rw [hh, hh']
        exact pointerAt_fields hdirect hdoubly
      rw [hlen, hp]
      simp only [Option.map_some, Option.getD_some, hdeny]
    · refine ⟨?_, ?_, ?_⟩
      · rw [hh, hdirect, ← hh']
        exact hs.directPointers
      · rw [hh, hdoubly, ← hh']
        exact hs.doublyIndirect
      · rw [hh, hlength, ← hh']
        exact hs.length
  · show Vol.openAt { v with openInodes := setInode v.openInodes j } s = F.refs.count s
    rw [← hrefs, ← hcnt]
    unfold Vol.openAt
    rw [hin]
    rfl

theorem fwp_inodeSetDir {b : Bool} (hn : F.node s = some n) (hs : s ∈ F.refs)
    (h : Q () (F.set s { n with isDir := if b then 1 else 0 })) : fwp (inodeSetDir s b) Q E F := by
  refine fwp_of_vwp fun v hv => ?_
  obtain ⟨i, hi⟩ := hv.isOpen hs
  have hsec := sector_of_inodeIn hi
  refine vwp_updateInode hi ⟨_, hv.update hn hi hsec rfl rfl rfl rfl rfl, ?_⟩
  obtain ⟨rfl, -⟩ := hv.fields hn hi
  exact h

theorem fwp_inodeAddChild (hn : F.node s = some n) (hs : s ∈ F.refs)
    (h : Q () (F.set s { n with children := n.children + 1 })) : fwp (inodeAddChild s) Q E F := by
  refine fwp_of_vwp fun v hv => ?_
  obtain ⟨i, hi⟩ := hv.isOpen hs
  have hsec := sector_of_inodeIn hi
  refine vwp_updateInode hi ⟨_, hv.update hn hi hsec rfl rfl rfl rfl rfl, ?_⟩
  obtain ⟨rfl, -⟩ := hv.fields hn hi
  exact h

theorem fwp_inodeRemoveChild (hn : F.node s = some n) (hs : s ∈ F.refs)
    (h : Q () (F.set s { n with children := n.children - 1 })) : fwp (inodeRemoveChild s) Q E F := by
  refine fwp_of_vwp fun v hv => ?_
  obtain ⟨i, hi⟩ := hv.isOpen hs
  have hsec := sector_of_inodeIn hi
  refine vwp_updateInode hi ⟨_, hv.update hn hi hsec rfl rfl rfl rfl rfl, ?_⟩
  obtain ⟨rfl, -⟩ := hv.fields hn hi
  exact h

theorem fwp_inodeRemove (hn : F.node s = some n) (hs : s ∈ F.refs)
    (h : Q () (F.set s { n with removed := true })) : fwp (inodeRemove s) Q E F := by
  refine fwp_of_vwp fun v hv => ?_
  obtain ⟨i, hi⟩ := hv.isOpen hs
  have hsec := sector_of_inodeIn hi
  refine vwp_updateInode hi ⟨_, hv.update hn hi hsec rfl rfl rfl rfl rfl, ?_⟩
  obtain ⟨rfl, -⟩ := hv.fields hn hi
  exact h

/-- Reading through a pointer. -/
theorem fwp_findInode {α : Type} {f : Inode → FsM α} {P : α → Files → Prop} (hn : F.node s = some n)
    (hs : s ∈ F.refs) (h : ∀ i : Inode, i.data.isDir = n.isDir → i.data.children = n.children →
      fwp (f i) P E F) : fwp (findInode s >>= f) P E F := by
  refine fwp_of_vwp fun v hv => ?_
  obtain ⟨i, hi⟩ := hv.isOpen hs
  obtain ⟨rfl, -⟩ := hv.fields hn hi
  refine wpOn_seq (vwp_findInode (Q := fun k v' => k = i ∧ v' = v) hi ⟨rfl, rfl⟩) ?_
  rintro k v' ⟨rfl, rfl⟩ fs rfl
  exact h k rfl rfl fs hv

theorem fwp_inodeIsDir {P : Bool → Files → Prop} (hn : F.node s = some n) (hs : s ∈ F.refs)
    (h : P (n.isDir ≠ 0) F) : fwp (inodeIsDir s) P E F := by
  refine fwp_findInode hn hs fun i hd _ => wpBy_pure ?_
  rw [hd]
  exact h

theorem fwp_inodeGetChildren {P : Int32 → Files → Prop} (hn : F.node s = some n) (hs : s ∈ F.refs)
    (h : P n.children F) : fwp (inodeGetChildren s) P E F := by
  refine fwp_findInode hn hs fun i _ hc => wpBy_pure ?_
  rw [hc]
  exact h

/-- The bytes that a read returns. -/
def Node.read (n : Node) (size offset : Nat) : List UInt8 :=
  (List.range (min size (n.len - offset))).map fun k => n.byte (offset + k)

/-- A read returns the bytes of the file, and changes nothing. -/
theorem fwp_inodeReadAt {size offset : Nat} {P : List UInt8 → Files → Prop} (hn : F.node s = some n)
    (hs : s ∈ F.refs) (hmax : offset + size ≤ maxFileLen ∨ n.len ≤ maxFileLen)
    (h : P (n.read size offset) F) : fwp (inodeReadAt s size offset) P E F := by
  refine fwp_of_vwp fun v hv => ?_
  obtain ⟨i, hi⟩ := hv.isOpen hs
  have hnode := hv.node s n hn
  subst hnode
  refine wpOn_weaken (hv.inv.owned.read (hv.live hn).1 hi hmax) ?_
  rintro r v' ⟨rfl, rfl⟩
  exact ⟨F, hv, h⟩

/-- A read of an inode that may be longer than `MAX_FILE_LEN`. -/
theorem fwp_inodeReadAt_part {size offset : Nat} {P : List UInt8 → Files → Prop} (hn : F.node s = some n)
    (hs : s ∈ F.refs) (h : ∀ m, m ≤ size → P ((List.range m).map fun k => n.byte (offset + k)) F) :
    fwp (inodeReadAt s size offset) P E F := by
  refine fwp_of_vwp fun v hv => ?_
  obtain ⟨i, hi⟩ := hv.isOpen hs
  have hnode := hv.node s n hn
  subst hnode
  have hp : v.pointers s = pointerAt v.disk i.data := by rw [Vol.pointers, Vol.header_open hi]
  have hd := hv.inv.owned.distinct (hv.live hn).1
  rw [hp] at hd
  refine wpOn_seq (vwp_findInode (Q := fun k v' => k = i ∧ v' = v) hi ⟨rfl, rfl⟩) ?_
  rintro k v' ⟨rfl, rfl⟩
  refine wpOn_weaken (inodeReadLoop_part hd size le_rfl) ?_
  rintro r v' ⟨rfl, m, hm, rfl, -⟩
  refine ⟨F, hv, ?_⟩
  rw [List.nil_append, ← hp]
  exact h m (hm.trans (min_le_left _ _))

/-- A closed inode is on the disk. -/
def Files.Calm (F : Files) : Prop :=
  ∀ s n, F.node s = some n → s ∉ F.refs → n.removed = false ∧ n.denyWriteCnt = 0 ∧ n.saved = n.isDir

/-- Who has no reference has no inode in the list, and so no flag and no deny count. -/
theorem Shows.calm (h : Shows v F) : F.Calm := by
  intro s n hn hs
  have hcnt := h.refs s (h.live hn).2
  rw [Multiset.count_eq_zero.mpr hs] at hcnt
  have hnone : inodeIn v.openInodes s = none := by
    refine Option.eq_none_iff_forall_ne_some.mpr fun i hi => ?_
    have hpos := (h.inv.opens s i hi).2
    rw [Vol.openAt, hi] at hcnt
    exact absurd hcnt hpos.ne'
  rw [← h.node s n hn]
  unfold Vol.nodeAt Vol.removedAt Vol.denyAt
  rw [Vol.header_closed hnone, hnone]
  exact ⟨rfl, rfl, rfl⟩

theorem fwp_calm {α : Type} {x : FsM α} {P : α → Files → Prop} (h : F.Calm → fwp x P E F) :
    fwp x P E F :=
  fun fs hs => h hs.calm fs hs

/-- One reference of several is dropped. -/
theorem Shows.unref {r : Multiset UInt32} (h : Shows v F) (hi : inodeIn v.openInodes s = some i)
    (hr : F.refs = s ::ₘ r) (hs : s ∈ r) :
    Shows { v with openInodes := setInode v.openInodes { i with openCnt := i.openCnt - 1 } }
      { F with refs := r } := by
  obtain ⟨n, hn⟩ := h.node_of_mem (by rw [hr]; exact Multiset.mem_cons_self s r)
  obtain ⟨hl, h0⟩ := h.live hn
  have hsec := sector_of_inodeIn hi
  obtain ⟨hfields, hcnt⟩ := h.fields hn hi
  rw [hr, Multiset.count_cons_self] at hcnt
  have hpos := Multiset.count_pos.mpr hs
  have hin : inodeIn (setInode v.openInodes { i with openCnt := i.openCnt - 1 }) s =
      some { i with openCnt := i.openCnt - 1 } := inodeIn_setInode_self hi hsec
  have ho := h.inv.owned.mono (Set.sdiff_subset : F.live \ {s} ⊆ F.live)
  have hinv := h.inv.update hi (j := { i with openCnt := i.openCnt - 1 }) hsec
    (by show 0 < i.openCnt - 1; omega) rfl rfl rfl rfl
  have hh : Vol.header
      { v with openInodes := setInode v.openInodes { i with openCnt := i.openCnt - 1 } } s =
      v.header s := by
    unfold Vol.header
    rw [hin, hi]
  have hp : Vol.pointers
      { v with openInodes := setInode v.openInodes { i with openCnt := i.openCnt - 1 } } s =
      v.pointers s := by
    unfold Vol.pointers
    rw [hh]
  refine h.change h0 ⟨rfl, rfl, fun x hx => ho.foreign_used hx, fun _ _ _ => rfl,
    fun t ht => inodeIn_setInode_other (by show i.sector ≠ t; rw [hsec]; exact fun he => ht.2 he.symm)⟩
      hinv
    (fun _ _ => rfl) (fun m hm => ?_) (fun t ht => ?_) ?_ h.freeMap
  · obtain rfl : n = m := Option.some.inj (hn.symm.trans hm)
    have hsy := h.synced s n hn
    refine ⟨?_, ?_, h.upto s n hn⟩
    · rw [hfields]
      unfold Vol.nodeAt Vol.removedAt Vol.denyAt
      rw [hh, hp, hin, Vol.header_open hi]
      rfl
    · refine ⟨?_, ?_, ?_⟩
      · rw [hh]
        exact hsy.directPointers
      · rw [hh]
        exact hsy.doublyIndirect
      · rw [hh]
        exact hsy.length
  · rw [hr, Multiset.count_cons_of_ne ht]
  · unfold Vol.openAt
    rw [hin]
    show i.openCnt - 1 = r.count s
    omega

/-- A node whose last reference is dropped. -/
def Node.putBack (n : Node) : Node := { n with denyWriteCnt := 0, saved := n.isDir }

/-- The last reference is dropped, and the header goes to the disk. -/
theorem Shows.putBack {r : Multiset UInt32} (h : Shows v F) (hn : F.node s = some n)
    (hi : inodeIn v.openInodes s = some i) (hr : F.refs = s ::ₘ r) (hs : s ∉ r)
    (hrem : n.removed = false) :
    Shows (v.putBack i) { F.set s n.putBack with refs := r } := by
  obtain ⟨hl, h0⟩ := h.live hn
  have hsec := sector_of_inodeIn hi
  obtain ⟨hfields, hcnt⟩ := h.fields hn hi
  have hh := header_putBack hi
  have hp := h.inv.owned.pointers_putBack hl hi
  have hnone : inodeIn (v.putBack i).openInodes s = none := by
    unfold Vol.putBack
    rw [hsec]
    exact inodeIn_dropInode_self
  have hdisk : InodeDisk.ofSector ((v.putBack i).disk s) = v.header s := by
    rw [← hh, Vol.header_closed hnone]
  refine h.change h0 (h.inv.owned.putBack_kept hl hi) ?_ (fun t ht => Files.set_node_other ht)
    (fun m hm => ?_) (fun t ht => ?_) ?_ h.freeMap
  · have hlive : Files.live { F.set s n.putBack with refs := r } = F.live :=
      Files.live_set hn
    rw [hlive]
    exact h.inv.putBack hi h0
  · have hm' : (F.set s n.putBack).node s = some m := hm
    rw [Files.set_node_self] at hm'
    cases hm'
    refine ⟨?_, ?_, h.upto s n hn⟩
    · have hrem' : i.removed = false := by
        rw [hfields] at hrem
        exact hrem
      have hb : byteAt (v.putBack i).disk (v.pointers s) = byteAt v.disk (v.pointers s) :=
        funext fun p => byteAt_congr fun _ => h.inv.owned.disk_putBack hl hi hl _
      rw [hfields]
      unfold Vol.nodeAt Vol.removedAt Vol.denyAt Node.putBack
      rw [hh, hp, hnone, hdisk, Vol.header_open hi, hb, hrem']
      rfl
    · exact ⟨by rw [hdisk, hh], by rw [hdisk, hh], by rw [hdisk, hh]⟩
  · show r.count t = F.refs.count t
    rw [hr, Multiset.count_cons_of_ne ht]
  · unfold Vol.openAt
    rw [hnone]
    exact (Multiset.count_eq_zero.mpr hs).symm

/-- A node that is put back as it was. -/
theorem Node.putBack_eq (hd : n.denyWriteCnt = 0) (hs : n.saved = n.isDir) : n.putBack = n := by
  unfold Node.putBack
  rw [← hd, ← hs]
  cases n
  cases hs
  rfl

theorem Files.set_self (hn : F.node s = some n) : F.set s n = F := by
  unfold Files.set
  rw [← hn, Function.update_eq_self]

/-- A reference that was taken in passing is dropped. -/
theorem fwp_unref {r : Multiset UInt32} (hcalm : Files.Calm { F with refs := r })
    (hr : F.refs = s ::ₘ r) (h : Q () { F with refs := r }) : fwp (inodeClose s) Q E F := by
  refine fwp_of_vwp fun v hv => ?_
  have hmem : s ∈ F.refs := by
    rw [hr]
    exact Multiset.mem_cons_self s r
  obtain ⟨n, hn⟩ := hv.node_of_mem hmem
  obtain ⟨i, hi⟩ := hv.isOpen hmem
  obtain ⟨hfields, hcnt⟩ := hv.fields hn hi
  rw [hr, Multiset.count_cons_self] at hcnt
  by_cases hs : s ∈ r
  · have hpos := Multiset.count_pos.mpr hs
    refine wpOn_seq (vwp_findInode (Q := fun k v' => k = i ∧ v' = v) hi ⟨rfl, rfl⟩) ?_
    rintro k v' ⟨rfl, rfl⟩
    rw [if_neg (by omega)]
    exact vwp_putInode ⟨_, hv.unref hi hr hs, h⟩
  · obtain ⟨hrm, hdeny, hsaved⟩ := hcalm s n hn hs
    have hone : i.openCnt = 1 := by rw [hcnt, Multiset.count_eq_zero.mpr hs]
    have hrem : i.removed = false := by
      rw [hfields] at hrm
      exact hrm
    have hput := hv.putBack hn hi hr hs hrm
    rw [Node.putBack_eq hdeny hsaved, Files.set_self hn] at hput
    exact vwp_inodeClose_last hi hone hrem (hv.lt hn) ⟨_, hput, h⟩

/-- `inode_close`: another reference is left, or the header goes to the disk, or the inode
is gone.  Then a sector is free, unless it had a doubly indirect block. -/
theorem fwp_inodeClose {r : Multiset UInt32}
    (hn : F.node s = some n) (hr : F.refs = s ::ₘ r) (hkeep : s ∈ r → Q () { F with refs := r })
    (hput : s ∉ r → n.removed = false → Q () { F.set s n.putBack with refs := r })
    (hgone : s ∉ r → n.removed = true → ∀ m, (n.ptr .doubly = unallocated → 0 < freeCnt m) →
      Q () { F.drop s with refs := r, freeMap := m }) :
    fwp (inodeClose s) Q E F := by
  refine fwp_of_vwp fun v hv => ?_
  obtain ⟨hl, h0⟩ := hv.live hn
  have hmem : s ∈ F.refs := by
    rw [hr]
    exact Multiset.mem_cons_self s r
  obtain ⟨i, hi⟩ := hv.isOpen hmem
  obtain ⟨hfields, hcnt⟩ := hv.fields hn hi
  rw [hr, Multiset.count_cons_self] at hcnt
  have hrem : i.removed = n.removed := by rw [hfields]
  by_cases hs : s ∈ r
  · have hpos := Multiset.count_pos.mpr hs
    refine wpOn_seq (vwp_findInode (Q := fun k v' => k = i ∧ v' = v) hi ⟨rfl, rfl⟩) ?_
    rintro k v' ⟨rfl, rfl⟩
    rw [if_neg (by omega)]
    exact vwp_putInode ⟨_, hv.unref hi hr hs, hkeep hs⟩
  have hone : i.openCnt = 1 := by rw [hcnt, Multiset.count_eq_zero.mpr hs]
  cases hrm : n.removed with
  | false =>
      rw [hrm] at hrem
      exact vwp_inodeClose_last hi hone hrem (hv.lt hn) ⟨_, hv.putBack hn hi hr hs hrm, hput hs hrm⟩
  | true =>
      rw [hrm] at hrem
      have hclosed : closedLive v F.live s = F.live \ {s} := by
        unfold closedLive
        rw [hi]
        exact if_pos ⟨hone, hrem⟩
      refine wpOn_weaken (wpOn_and (hv.inv.close hi fun he => absurd he h0)
        (hv.inv.close_exact hi fun he => absurd he h0)) ?_
      rintro - v' ⟨⟨hinv, hk⟩, -, hfreed⟩
      rw [hclosed] at hinv hfreed
      have hsector : n.ptr .doubly = unallocated → 0 < freeCnt v'.freeMap := by
        rw [← hv.node s n hn]
        intro hnone
        have hlt : s < v'.size := by
          rw [hk.size]
          exact hv.lt hn
        exact freeCnt_pos (hinv.owned.bitCnt ▸ hlt) fun hused =>
          (((hfreed fun hmem => hmem.2 rfl).all hnone s).mp hused).2 rfl
      have hlive : Files.live { F.drop s with refs := r, freeMap := v'.freeMap } = F.live \ {s} :=
        F.live_drop h0
      refine ⟨_, hv.change h0 hk ?_ (fun t ht => Function.update_of_ne ht ..) (fun m hm => ?_)
        (fun t ht => ?_) ?_ rfl, hgone hs hrm v'.freeMap hsector⟩
      · rw [hlive]
        exact hinv
      · have hnone : (F.drop s).node s = none := Function.update_self ..
        cases hnone.symm.trans hm
      · show r.count t = F.refs.count t
        rw [hr, Multiset.count_cons_of_ne ht]
      · have hnone : inodeIn v'.openInodes s = none :=
          Option.eq_none_iff_forall_ne_some.mpr fun k hk' => (hinv.opens s k hk').1.2 rfl
        unfold Vol.openAt
        rw [hnone]
        exact (Multiset.count_eq_zero.mpr hs).symm

/-- The bytes of a node after a write. -/
def Node.wrote (n : Node) (buffer : List UInt8) (offset : Nat) : Node :=
  { n with
    len := max n.len (offset + buffer.length)
    byte := fun p => if offset ≤ p ∧ p < offset + buffer.length then buffer.getD (p - offset) 0
      else n.byte p }

/-- The sectors that a node of `size` bytes needs besides those it has. -/
def Node.need (n : Node) (size : Nat) : Nat := CS162.Fs.need n.ptr n.len size

/-- And that a write to `size` takes. -/
def Node.taken (n : Node) (size : Nat) : Nat := if n.len < size then n.need size else 0

/-- What a write of `k` bytes leaves. -/
theorem Shows.written {buffer : List UInt8} {offset k : Nat} {R W : UInt32 → Prop} {id' : InodeDisk}
    (h : Shows v F) (hn : F.node s = some n) (hi : inodeIn v.openInodes s = some i)
    (hinv : FsInv v' F.live) (hk : Kept v (F.live \ {s}) v')
    (hd : WriteDone R W s v i buffer offset k v' id') (hup : Upto (v'.pointers s) (sectors id'.len)) :
    Shows v' { F.set s { n with
      len := id'.len
      byte := fun p => if offset ≤ p ∧ p < offset + k then buffer.getD (p - offset) 0 else n.byte p
      saved := (InodeDisk.ofSector (v'.disk s)).isDir
      ptr := v'.pointers s } with freeMap := v'.freeMap } ∧
      ((InodeDisk.ofSector (v'.disk s)).isDir = n.saved ∨
        (InodeDisk.ofSector (v'.disk s)).isDir = n.isDir) := by
  obtain ⟨hl, h0⟩ := h.live hn
  obtain ⟨hfields, hcnt⟩ := h.fields hn hi
  have hh := Vol.header_open hd.self
  have hh₀ := Vol.header_open hi
  have hp : v'.pointers s = pointerAt v'.disk id' := by
    unfold Vol.pointers
    rw [hh]
  have hp₀ : v.pointers s = pointerAt v.disk i.data := by
    unfold Vol.pointers
    rw [hh₀]
  have hblank := h.inv.owned.blank s hl h0
  rw [hp₀, hh₀] at hblank
  have hbytes := (hd.bytes hblank).2
  obtain ⟨p, q, m, hid⟩ := hd.fields
  refine ⟨h.change h0 hk ?_ (fun t ht => Files.set_node_other ht) (fun m hm => ?_)
      (fun _ _ => rfl) ?_ rfl,
    ?_⟩
  · have hlive : ∀ m b, Files.live { F.set s m with freeMap := b } = F.live :=
      fun m b => Files.live_set hn
    rw [hlive]
    exact hinv
  · have hm' := (Files.set_node_self (F := F)).symm.trans hm
    cases hm'
    refine ⟨?_, ?_, hup⟩
    · have hb : byteAt v'.disk (v'.pointers s) = fun p =>
          if offset ≤ p ∧ p < offset + k then buffer.getD (p - offset) 0 else n.byte p := by
        funext p
        rw [hp, hbytes p, hfields, hp₀]
      have hdir : id'.isDir = n.isDir ∧ id'.children = n.children := by
        rw [hid, hfields]
        exact ⟨rfl, rfl⟩
      unfold Vol.nodeAt Vol.removedAt Vol.denyAt
      rw [hh, hb, hd.self, hdir.1, hdir.2, hfields]
      rfl
    · have hs := h.synced s n hn
      rcases hd.saved with hsv | ⟨rfl, hsv⟩
      · have heq : InodeDisk.ofSector (v'.disk s) = v'.header s := by
          rw [hsv, InodeDisk.ofSector_toSector, hh]
        exact ⟨by rw [heq], by rw [heq], by rw [heq]⟩
      · have hsame : v'.header s = v.header s := by rw [hh, hh₀]
        refine ⟨?_, ?_, ?_⟩
        · rw [hsv, hsame]
          exact hs.directPointers
        · rw [hsv, hsame]
          exact hs.doublyIndirect
        · rw [hsv, hsame]
          exact hs.length
  · show v'.openAt s = F.refs.count s
    rw [← hcnt]
    unfold Vol.openAt
    rw [hd.self]
    rfl
  · rcases hd.saved with hsv | ⟨rfl, hsv⟩
    · right
      rw [hsv, InodeDisk.ofSector_toSector, hid, hfields]
    · left
      rw [hsv, hfields]

/-- A write that does not go past the end needs no sector. -/
theorem fwp_inodeWriteAt_within {buffer : List UInt8} {offset : Nat} {P : Nat → Files → Prop}
    (hn : F.node s = some n) (hs : s ∈ F.refs) (hdeny : n.denyWriteCnt = 0)
    (hlen : offset + buffer.length ≤ n.len)
    (hE : offset + buffer.length ≤ maxFileLen ∨ ∀ v', E .pastEnd v')
    (h : buffer = [] ∨ offset + buffer.length ≤ maxFileLen →
      P buffer.length (F.set s (n.wrote buffer offset))) : fwp (inodeWriteAt s buffer offset) P E F := by
  refine fwp_of_vwp fun v hv => ?_
  obtain ⟨hl, h0⟩ := hv.live hn
  obtain ⟨i, hi⟩ := hv.isOpen hs
  obtain ⟨hfields, -⟩ := hv.fields hn hi
  have hdeny' : i.denyWriteCnt = 0 := by
    rw [hfields] at hdeny
    exact hdeny
  have hlen₀ : n.len = i.data.len := by rw [hfields]
  have hh₀ := Vol.header_open hi
  have hp₀ : v.pointers s = pointerAt v.disk i.data := by
    unfold Vol.pointers
    rw [hh₀]
  have hwithin : vwp (inodeWriteAt s buffer offset) (fun r v' => r = buffer.length ∧
      Wrote v i.data buffer offset buffer.length v') E v := by
    unfold inodeWriteAt
    rw [if_neg h0]
    refine inodeWriteAtWith_within hi hdeny' (hlen₀ ▸ hlen) (hp₀ ▸ hv.inv.owned.distinct hl)
      (hE.imp_left fun hmax => ?_)
    intro p _ hpe hpl
    have hpm : p < maxFileLen := by omega
    refine ⟨hpm, ?_⟩
    rw [← hp₀]
    refine hv.inv.owned.full s hl _ ?_
    rw [Slot.base_ofPos hpm, hh₀]
    omega
  have hlt := i.data.len_lt
  refine wpOn_weaken (wpOn_and hwithin (hv.inv.write (E := fun _ _ => True) hi
    (fun he => absurd he h0) (by omega) (by omega) (.inr fun _ => trivial))) ?_
  rintro r v' ⟨⟨rfl, hw⟩, hinv, hk, id', hd, -⟩
  -- the list of open inodes and the free map are as they were, and so is the header
  obtain ⟨d, rfl⟩ := hw.rest
  have hid : id' = i.data := by
    have hself := hd.self.symm.trans hi
    exact congrArg Inode.data (Option.some.inj hself)
  have hptr : Vol.pointers { v with disk := d } s = v.pointers s := by
    rw [hp₀, Vol.pointers, Vol.header_open (v := { v with disk := d }) hi]
    exact hw.view
  have hup := hv.upto s n hn
  obtain ⟨hshows, -⟩ := hv.written hn hi hinv hk hd (by
    rw [hptr, hid, ← hlen₀]
    rw [hfields] at hup
    rw [hlen₀]
    exact hup)
  have hdisk : d s = v.disk s := by
    refine hw.frame s fun a _ hu he => ?_
    rw [← hp₀] at he
    exact hv.inv.owned.apart s hl s hl a he
  have hnode : ({ n with
      len := id'.len
      byte := fun p => if offset ≤ p ∧ p < offset + buffer.length then buffer.getD (p - offset) 0
        else n.byte p
      saved := (InodeDisk.ofSector (d s)).isDir
      ptr := Vol.pointers { v with disk := d } s } : Node) = n.wrote buffer offset := by
    have hsv : (InodeDisk.ofSector (v.disk s)).isDir = n.saved := by rw [hfields]
    have hpt : v.pointers s = n.ptr := by rw [hfields]
    unfold Node.wrote
    rw [hid, ← hlen₀, Nat.max_eq_left hlen, hdisk, hsv, hptr, hpt]
  have hshows' : Shows { v with disk := d }
      { F.set s (n.wrote buffer offset) with freeMap := v.freeMap } := by
    rw [← hnode]
    exact hshows
  have hF : ({ F.set s (n.wrote buffer offset) with freeMap := v.freeMap } : Files) =
      F.set s (n.wrote buffer offset) := by
    rw [hv.freeMap]
    rfl
  refine ⟨_, hF ▸ hshows', h ?_⟩
  cases buffer with
  | nil => exact .inl rfl
  | cons b buffer =>
      have hlast := (hd.there (offset + buffer.length) (by omega) (by simp)).1
      rw [List.length_cons]
      exact .inr (by omega)

/-- A write to `size` bytes for which there are too few sectors. -/
structure Node.Short (n : Node) (size : Nat) (b m : Bitmap) : Prop where
  grows : n.len < size
  short : freeCnt b < n.need size
  held : ∀ x, b.Used x → m.Used x
  restored : Restorable n.len (freeCnt b) ↔ ∀ x, m.Used x ↔ b.Used x
  free : freeCnt m ≤ freeCnt b

/-- `inode_write_at`: all is written, or a sector is missing and nothing is. -/
theorem fwp_inodeWriteAt {buffer : List UInt8} {offset : Nat} {P : Nat → Files → Prop}
    (hn : F.node s = some n) (hs : s ∈ F.refs)
    (hdeny : n.denyWriteCnt = 0) (hsum : offset + buffer.length < 2 ^ 31)
    (hE : offset + buffer.length ≤ maxFileLen ∨ ∀ v', E .pastEnd v')
    (hall : ∀ sv p m, (sv = n.saved ∨ sv = n.isDir) →
    (buffer = [] ∨ offset + buffer.length ≤ maxFileLen) →
      freeCnt F.freeMap = freeCnt m + n.taken (offset + buffer.length) →
      P buffer.length { F.set s { n.wrote buffer offset with saved := sv, ptr := p } with freeMap := m })
    (hfail : ∀ sv p m, (sv = n.saved ∨ sv = n.isDir) → n.Short (offset + buffer.length) F.freeMap m →
      P 0 { F.set s { n with saved := sv, ptr := p } with freeMap := m }) :
    fwp (inodeWriteAt s buffer offset) P E F := by
  by_cases hgrow : n.len < offset + buffer.length
  swap
  · exact fwp_inodeWriteAt_within hn hs hdeny (Nat.le_of_not_lt hgrow) hE fun hmax =>
      hall n.saved n.ptr F.freeMap (.inl rfl) hmax (by rw [Node.taken, if_neg hgrow, Nat.add_zero])
  refine fwp_of_vwp fun v hv => ?_
  obtain ⟨hl, h0⟩ := hv.live hn
  obtain ⟨i, hi⟩ := hv.isOpen hs
  obtain ⟨hfields, -⟩ := hv.fields hn hi
  have hdeny' : i.denyWriteCnt = 0 := by
    rw [hfields] at hdeny
    exact hdeny
  have hlen : n.len = i.data.len := by rw [hfields]
  have hp : v.pointers s = pointerAt v.disk i.data := by rw [Vol.pointers, Vol.header_open hi]
  have hptr : n.ptr = pointerAt v.disk i.data := by
    rw [hfields]
    exact hp
  have hup := hv.upto s n hn
  rw [hptr, ← hp, hlen] at hup
  have hg : Grows i buffer.length offset := ⟨hdeny', hlen ▸ hgrow, hsum⟩
  have hneed : n.need (offset + buffer.length) =
      need (pointerAt v.disk i.data) i.data.len (offset + buffer.length) := by
    unfold Node.need
    rw [hptr, hlen]
  refine wpOn_weaken (wpOn_and (hv.inv.write hi (fun he => absurd he h0) (by omega) (by omega) hE)
    (hv.inv.write_exact hi h0 (by omega) (by omega) hup)) ?_
  rintro r v' ⟨⟨hinv, hk, id', hd, hout⟩, -, hends⟩
  have hh' := Vol.header_open hd.self
  rcases hends hg with ⟨rfl, hlen', hgrown⟩ | ⟨rfl, hlen', hundone⟩
  · rw [hh'] at hlen' hgrown
    have hlen'' : id'.len = offset + buffer.length := hlen'
    have hp' : v'.pointers s = pointerAt v'.disk id' := by rw [Vol.pointers, hh']
    obtain ⟨hshows, hsv⟩ := hv.written hn hi hinv hk hd (by
      rw [hp', hlen'']
      exact hgrown.upto)
    have hmax : max n.len (offset + buffer.length) = id'.len := by omega
    refine ⟨_, ?_, hall _ (v'.pointers s) v'.freeMap hsv ?_ ?_⟩
    · unfold Node.wrote
      rw [hmax]
      exact hshows
    · cases buffer with
      | nil => exact .inl rfl
      | cons b buffer =>
          have hlast := (hd.there (offset + buffer.length) (by omega) (by simp)).1
          rw [List.length_cons]
          exact .inr (by omega)
    · rw [Node.taken, if_pos hgrow, hneed, ← hv.freeMap]
      exact hgrown.free
  · rw [hh'] at hlen' hundone
    have hlen'' : id'.len = i.data.len := hlen'
    have hp' : v'.pointers s = pointerAt v'.disk id' := by rw [Vol.pointers, hh']
    have hacc := hv.inv.owned.account hl
    rw [hp] at hacc hup
    have hfull := hinv.owned.full s hl
    rw [hh', hp'] at hfull
    have hfull' : Full (pointerAt v'.disk id') i.data.len := hlen'' ▸ hfull
    obtain ⟨hshows, hsv⟩ := hv.written hn hi hinv hk hd (by
      rw [hp', hlen'']
      exact hundone.upto hup hfull')
    have hb : (fun p => if offset ≤ p ∧ p < offset + 0 then buffer.getD (p - offset) 0 else n.byte p) =
        n.byte := funext fun p => if_neg (by omega)
    have hown := hinv.owned.used s hl
    have hinj := (hinv.owned.distinct hl).inj
    rw [hp'] at hown hinj
    have hsound : Sound (Others v s) v'.freeMap (pointerAt v'.disk id') :=
      ⟨hown, fun a hu hr => (hundone.held _ hr).2 ⟨a, hu, rfl⟩, hinj⟩
    rw [hlen'', hb, ← hlen] at hshows
    have hheld : ∀ x, v.freeMap.Used x → v'.freeMap.Used x :=
      fun x hx => hundone.held_used hacc.covered hown hx
    refine ⟨_, hshows, hfail _ _ _ hsv ⟨hgrow, ?_, fun x hx => ?_, ?_, ?_⟩⟩
    · rw [hneed, ← hv.freeMap]
      exact hundone.short
    · rw [← hv.freeMap] at hx
      exact hheld x hx
    · rw [hlen, ← hv.freeMap]
      exact hundone.restored_used hacc.covered hsound
    · rw [← hv.freeMap]
      exact freeCnt_mono hk.bitCnt (hv.inv.owned.bitCnt ▸ v.size.toNat_lt.le) hheld

/-- What `inode_create` makes. -/
def newNode (length : Nat) (ptr : Slot → UInt32) : Node := ⟨-1, 0, length, fun _ => 0, false, 0, -1, ptr⟩

/-- What it takes: the sector of the header and those of the length. -/
structure Takes (b : Bitmap) (length : Nat) (s : UInt32) (ptr : Slot → UInt32) (m : Bitmap) : Prop where
  fresh : ¬ b.Used s
  used : ∀ x, m.Used x ↔ b.Used x ∨ x = s ∨ ∃ a, ptr a ≠ unallocated ∧ ptr a = x
  apart : ∀ a, ptr a ≠ unallocated → ¬ b.Used (ptr a) ∧ ptr a ≠ s
  upto : Upto ptr (sectors length)
  doubly : length ≤ directPointerSize → ptr .doubly = unallocated
  free : freeCnt b = freeCnt m + sectors length + 1

/-- `free_map_allocate` fails only when every sector is used. -/
theorem fwp_createInode {length : Nat} {P : Option UInt32 → Files → Prop}
    (hstack : 0 < freeCnt F.freeMap → freeCnt F.freeMap < sectors length + 1 → ∀ v', E .stack v')
    (hlen : length < 2 ^ 31) (hnone : freeCnt F.freeMap = 0 → P none F)
    (hsome : ∀ s p m, s ≠ freeMapSector → F.node s = none → s ∉ F.refs → Takes F.freeMap length s p m →
      P (some s) { F.set s (newNode length p) with freeMap := m }) :
    fwp (createInode length) P E F := by
  refine fwp_of_vwp fun v hv => ?_
  have hexact : vwp (createInode length) _ E v := wpOn_mono (hv.inv.createInode_exact hlen)
    (fun _ _ hq => hq) fun e v' he => by
      rw [he.1]
      exact hstack (hv.freeMap ▸ he.2.1) (hv.freeMap ▸ he.2.2) v'
  refine wpOn_weaken (wpOn_and hexact
    (createInode_spec (E := fun _ _ => True) (fun _ _ => trivial) hv.inv hlen)) ?_
  rintro r v₂ ⟨⟨hfull, hnew⟩, hk, hopen, -, hr⟩
  cases r with
  | none =>
      obtain ⟨hall, rfl⟩ := hfull rfl
      rw [hv.freeMap] at hall
      have hsync : ∀ s n, F.node s = some n → Vol.Synced { v with allocFailed := true } s := fun s n hn =>
        ⟨(hv.synced s n hn).directPointers, (hv.synced s n hn).doublyIndirect, (hv.synced s n hn).length⟩
      exact ⟨F, ⟨hr.1, hv.map, hv.node, hsync, hv.upto, hv.refs, hv.mapRefs, hv.freeMap⟩, hnone hall⟩
  | some s =>
      obtain ⟨hs, hinv, hhead, hzero⟩ := hr
      obtain ⟨hfresh, hused, hapart, hup, hdoubly, hfree⟩ := hnew s rfl
      have h0 : s ≠ freeMapSector := by
        rintro rfl
        exact hs (.inl rfl)
      have hnode : F.node s = none := by
        rw [← Option.not_isSome_iff_eq_none]
        exact fun hsome => hs (.inr hsome)
      have hclosed : inodeIn v.openInodes s = none :=
        Option.eq_none_iff_forall_ne_some.mpr fun i hi => hs (hv.inv.opens s i hi).1
      have hrefs : s ∉ F.refs := by
        intro hm
        obtain ⟨i, hi⟩ := hv.isOpen hm
        rw [hclosed] at hi
        cases hi
      have hclosed₂ : inodeIn v₂.openInodes s = none := by
        rw [hopen]
        exact hclosed
      rw [hv.freeMap] at hfresh hused hapart hfree
      refine ⟨{ F.set s (newNode length (v₂.pointers s)) with freeMap := v₂.freeMap },
        hv.change h0 (hk.sdiff h0) ?_ (fun t ht => Files.set_node_other ht) (fun m hm => ?_)
        (fun _ _ => rfl) ?_ rfl, hsome s _ v₂.freeMap h0 hnode hrefs
        ⟨hfresh, hused, hapart, hup, hdoubly, hfree⟩⟩
      · have hlive : Files.live { F.set s (newNode length (v₂.pointers s)) with freeMap := v₂.freeMap } =
            insert s F.live := F.live_insert
        rw [hlive]
        exact hinv
      · cases (Files.set_node_self (F := F)).symm.trans hm
        have hdisk : InodeDisk.ofSector (v₂.disk s) = v₂.header s := (Vol.header_closed hclosed₂).symm
        obtain ⟨p, q, hhead⟩ := hhead
        refine ⟨?_, ⟨by rw [hdisk], by rw [hdisk], by rw [hdisk]⟩, hup⟩
        have hb : byteAt v₂.disk (v₂.pointers s) = fun _ => 0 := funext hzero
        have hl : (newInode length).len = length := Int32.toNatClampNeg_ofNat_of_lt hlen
        unfold Vol.nodeAt Vol.removedAt Vol.denyAt
        rw [hdisk, hb, hclosed₂, hhead]
        show (⟨-1, 0, (newInode length).len, fun _ => 0, false, 0, -1, _⟩ : Node) = newNode length _
        rw [hl]
        rfl
      · show v₂.openAt s = F.refs.count s
        unfold Vol.openAt
        rw [hclosed₂]
        exact (Multiset.count_eq_zero.mpr hrefs).symm

/-- `free_map_release` of a header: the inode is gone, its blocks are not given back. -/
theorem fwp_freeMapRelease (hn : F.node s = some n) (hs : s ∉ F.refs)
    (h : ∀ m, (∀ x, m.Used x ↔ F.freeMap.Used x ∧ x ≠ s) → Q () { F.drop s with freeMap := m }) :
    fwp (freeMapRelease s 1) Q E F := by
  refine fwp_of_vwp fun v hv => ?_
  obtain ⟨hl, h0⟩ := hv.live hn
  have hmapL : freeMapSector ∈ F.live \ {s} := ⟨.inl rfl, Ne.symm h0⟩
  have ho := hv.inv.owned.mono (Set.sdiff_subset : F.live \ {s} ⊆ F.live)
  have hok := hv.inv.owned.mapOk hv.inv.mapLive hv.inv.map
  have hclosed : inodeIn v.openInodes s = none := by
    have hcnt := hv.refs s h0
    rw [Multiset.count_eq_zero.mpr hs] at hcnt
    refine Option.eq_none_iff_forall_ne_some.mpr fun i hi => ?_
    have hpos := (hv.inv.opens s i hi).2
    rw [Vol.openAt, hi] at hcnt
    exact absurd hcnt hpos.ne'
  have hKs : ¬ allSectors (v.pointers freeMapSector) s := by
    rintro ⟨a, -, he⟩
    exact hv.inv.owned.apart _ hv.inv.mapLive s hl a he
  refine wpOn_weaken ((freeMap_spec (v.header freeMapSector) (v.pointers freeMapSector) E).release _ s hok
    (hv.inv.owned.header s hl) hKs) ?_
  rintro - v₁ ⟨hok₁, d, rfl, hd⟩
  have hk : Kept v (F.live \ {s})
      { v with freeMap := bitmapSet v.freeMap s.toNat false, disk := d } := by
    refine ⟨rfl, rfl, fun x hx => ?_, fun x hx hm => hd x fun hF => hm ⟨hmapL, hF⟩, fun _ _ => rfl⟩
    refine Bitmap.used_set_false (ho.foreign_used hx) ?_
    rintro rfl
    exact hv.inv.owned.not_foreign hl hx
  have hopens : dropInode v.openInodes s = v.openInodes := by
    unfold inodeIn at hclosed
    rw [List.find?_eq_none] at hclosed
    refine List.filter_eq_self.mpr fun i hi => ?_
    simpa using hclosed i hi
  refine ⟨{ F.drop s with freeMap := _ }, hv.change h0 hk ?_ (fun t ht => Function.update_of_ne ht ..)
    (fun m hm => ?_) (fun _ _ => rfl) ?_ rfl, h _ fun x => ?_⟩
  · have hlive : ∀ b, Files.live { F.drop s with freeMap := b } = F.live \ {s} := fun _ => F.live_drop h0
    rw [hlive]
    exact hv.inv.of_freed h0 hk rfl hopens.symm
  · have hnone : (F.drop s).node s = none := Function.update_self ..
    cases hnone.symm.trans hm
  · show Vol.openAt { v with freeMap := bitmapSet v.freeMap s.toNat false, disk := d } s = F.refs.count s
    rw [← hv.refs s h0]
    rfl
  · rw [← hv.freeMap]
    exact Bitmap.used_set_false_iff

end Rules

/-! ## The start -/

/-- After formatting there is the root directory, and the thread has it open. -/
def rootFiles (v : Vol) : Files where
  node s := if s = rootDirSector then some (v.nodeAt s) else none
  refs := {rootDirSector}
  freeMap := v.freeMap

/-- After `filesys_init` the root directory is the only file, and the thread has it open. -/
theorem Booted.shows {v₁ : Vol} (h : Booted v₁ v) : Shows v (rootFiles v) := by
  have h01 : rootDirSector ≠ freeMapSector := by decide
  have hlive : (rootFiles v).live = {rootDirSector, freeMapSector} := by
    refine Set.ext fun s => ?_
    rw [Files.mem_live]
    unfold rootFiles
    by_cases hs : s = rootDirSector
    · simp [hs]
    · simp [hs]
  have hnode : ∀ s n, (rootFiles v).node s = some n → s = rootDirSector ∧ v.nodeAt s = n := by
    intro s n hn
    unfold rootFiles at hn
    dsimp only at hn
    split at hn
    · next hs => exact ⟨hs, Option.some.inj hn⟩
    · cases hn
  have hheader : v.header rootDirSector = rootInode := Vol.header_open h.root
  have hdisk : InodeDisk.ofSector (v.disk rootDirSector) = v.header rootDirSector := by
    rw [h.disk, InodeDisk.ofSector_toSector, hheader]
  refine ⟨?_, ?_, fun s n hn => (hnode s n hn).2, fun s n hn => ?_, fun s n hn => ?_, fun s h0 => ?_,
    ?_, rfl⟩
  · rw [hlive]
    exact h.inv
  · simp [rootFiles, h01.symm]
  · obtain ⟨rfl, -⟩ := hnode s n hn
    exact ⟨by rw [hdisk], by rw [hdisk], by rw [hdisk]⟩
  · obtain ⟨rfl, rfl⟩ := hnode s n hn
    exact h.tidy rootDirSector (.inl rfl) h01
  · by_cases hs : s = rootDirSector
    · rw [hs]
      unfold Vol.openAt
      rw [h.root]
      exact (Multiset.count_singleton_self _).symm
    · have hclosed : inodeIn v.openInodes s = none := by
        refine Option.eq_none_iff_forall_ne_some.mpr fun i hi => ?_
        rcases (h.inv.opens s i hi).1 with rfl | rfl
        · exact hs rfl
        · exact h0 rfl
      unfold Vol.openAt
      rw [hclosed]
      exact (Multiset.count_eq_zero.mpr fun hm => hs (Multiset.mem_singleton.mp hm)).symm
  · exact fun hm => h01 (Multiset.mem_singleton.mp hm).symm

end CS162.Fs
