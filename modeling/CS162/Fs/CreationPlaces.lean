/-
# `CS162.Fs.CreationPlaces` — creation that succeeds

`Names` says what the name of a new entry is and which directory it belongs to: the components of
the path before the last lead to the directory, and the last is not there.  `Adds` says that an
entry for a new inode is the only change to the tree.  `Creates` is what a call is to do: it adds its
entry in this way or returns false, and false is what it returns where the path names something
already.

`filesys_create` meets it unless `CreateUnending`: it makes the inode before it looks whether the
name is taken, so that on the path of a file it does not come back where `inode_create` does not.
`mkdir` meets it unless `MkdirMisplaces`: the path leads to a directory, so that the new one is made
inside of it, or there is no sector for the two entries; or `MkdirOverreaches`: the directory that
the path leads to would have to grow past the greatest length (`creation_places_iff`).
-/
import CS162.Fs.CreationFails

namespace CS162.Fs

open Bytes Wp

variable {F F' : Files} {d s t : UInt32} {n : Node} {name : List UInt8} {cwd : Option UInt32}
  {path : List UInt8} {part : NameBuf} {size : Int32} {v v' : Vol}

/-! ## The place of a path -/

/-- The directory that components lead to. -/
def Files.walk (F : Files) : UInt32 → List (List UInt8) → Option UInt32
  | d, [] => some d
  | d, c :: cs => (F.subdir d c).bind fun t => F.walk t cs

/-- The last component is `name`, the others lead to `d`, and `d` has no entry of that name. -/
structure Names (F : Files) (cwd : Option UInt32) (path : List UInt8) (d : UInt32) (name : List UInt8) :
    Prop where
  path : ∃ init, parts path = init ++ [name] ∧ ((startDir cwd path).bind fun s => F.walk s init) = some d
  isDir : F.IsDir d
  new : F.child d name = none

/-- The tree has one entry more: `name`, in `d`, for a new inode `s`. -/
structure Adds (F : Files) (d s : UInt32) (name : List UInt8) (v' : Vol) : Prop where
  fresh : F.node s = none
  entry : ∃ n k, F.node d = some n ∧ n.table k = none ∧ (v'.nodeAt d).isDir = n.isDir ∧
    (v'.nodeAt d).table = Function.update n.table k (some (name, s))
  others : ∀ t n, F.node t = some n → t ≠ d → v'.nodeAt t = n

/-- A file of `length` bytes is added. -/
def AddsFile (F : Files) (cwd : Option UInt32) (path : List UInt8) (length : Nat) (v' : Vol) : Prop :=
  ∃ d s name, Names F cwd path d name ∧ Adds F d s name v' ∧
    (v'.nodeAt s).isDir = 0 ∧ (v'.nodeAt s).len = length

/-- The entries `.` and `..` of a directory `s` in `d`. -/
def ownTable (s d : UInt32) : Nat → Option (List UInt8 × UInt32) :=
  Function.update (Function.update (fun _ => none) 0 (some (dot, s))) 1 (some (dotDot, d))

/-- A directory is added that holds `.` for itself and `..` for the one that it is in. -/
def AddsDir (F : Files) (cwd : Option UInt32) (path : List UInt8) (v' : Vol) : Prop :=
  ∃ d s name, Names F cwd path d name ∧ Adds F d s name v' ∧ (v'.nodeAt s).isDir ≠ 0 ∧
    (v'.nodeAt s).table = ownTable s d

theorem Files.walk_append (F : Files) (d : UInt32) (cs cs' : List (List UInt8)) :
    F.walk d (cs ++ cs') = (F.walk d cs).bind fun t => F.walk t cs' := by
  induction cs generalizing d with
  | nil => rfl
  | cons c cs ih =>
      rw [List.cons_append, Files.walk, Files.walk]
      cases F.subdir d c with
      | none => rfl
      | some t => exact ih t

/-- A path that leads to a directory. -/
theorem Files.follow_true {cs : List (List UInt8)} (h : F.follow d cs = some (t, true)) :
    F.walk d cs = some t := by
  induction cs generalizing d with
  | nil => exact congrArg some (Prod.mk.inj (Option.some.inj h)).1
  | cons c cs ih =>
      unfold Files.follow at h
      split at h
      · cases h
      · split at h
        · next u hu =>
            rw [Files.walk, hu]
            exact ih h
        · split at h
          · cases h
          · cases h

/-- A path that leads to no directory ends with a name. -/
theorem Files.follow_false {cs : List (List UInt8)} (h : F.follow d cs = some (t, false)) :
    ∃ init c, cs = init ++ [c] ∧ F.walk d init = some t := by
  induction cs generalizing d with
  | nil => cases h
  | cons c cs ih =>
      unfold Files.follow at h
      split at h
      · cases h
      · split at h
        · next u hu =>
            obtain ⟨init, c', rfl, hwalk⟩ := ih h
            refine ⟨c :: init, c', rfl, ?_⟩
            rw [Files.walk, hu]
            exact hwalk
        · split at h
          · next hnil =>
              cases h
              exact ⟨[], c, by rw [hnil]; rfl, rfl⟩
          · cases h

theorem Names.of_follow (hhome : F.Home cwd) (hf : F.followPath cwd path = some (d, false))
    (hn : F.node d = some n) (ht : n.Takes (lastPart (parts path) part)) :
    Names F cwd path d (lastPart (parts path) part) := by
  have hdir := hhome.isDir hf
  unfold Files.followPath at hf
  split at hf
  · cases hf
  · obtain ⟨s, hs, hf⟩ := Option.bind_eq_some_iff.mp hf
    obtain ⟨init, c, hparts, hwalk⟩ := F.follow_false hf
    have hlast : lastPart (parts path) part = c := by
      unfold lastPart
      rw [hparts, List.getLast?_concat]
      rfl
    refine ⟨⟨init, hparts.trans (by rw [hlast]), ?_⟩, hdir, ?_⟩
    · rw [hs]
      exact hwalk
    · unfold Files.child
      rw [hn]
      show n.target _ = none
      unfold Node.target
      rw [ht.new]
      rfl

/-- There is no place where the path leads to a directory. -/
theorem Names.not_directory (h : Names F cwd path t name) : F.followPath cwd path ≠ some (d, true) := by
  intro hf
  obtain ⟨⟨init, hparts, hwalk⟩, -, hnew⟩ := h
  unfold Files.followPath at hf
  split at hf
  · cases hf
  · obtain ⟨s, hs, hf⟩ := Option.bind_eq_some_iff.mp hf
    have hall := F.follow_true hf
    rw [hs] at hwalk
    have hwalk' : F.walk s init = some t := hwalk
    rw [hparts, Files.walk_append, hwalk'] at hall
    have hlast : ((F.subdir t name).bind fun u => F.walk u []) = some d := hall
    rw [F.subdir_none hnew] at hlast
    cases hlast

/-- There is one place at most. -/
theorem Names.unique {name' : List UInt8} (h : Names F cwd path d name) (h' : Names F cwd path t name') :
    d = t ∧ name = name' := by
  obtain ⟨⟨init, hparts, hwalk⟩, -, -⟩ := h
  obtain ⟨⟨init', hparts', hwalk'⟩, -, -⟩ := h'
  obtain ⟨rfl, hname⟩ := List.append_inj' (hparts.symm.trans hparts') rfl
  exact ⟨Option.some.inj (hwalk.symm.trans hwalk'), List.head_eq_of_cons_eq hname⟩

/-- The components of the path lead to a directory, or to one in which the last is an entry. -/
def Files.Exists (F : Files) (cwd : Option UInt32) (path : List UInt8) : Prop :=
  ∃ d b, F.followPath cwd path = some (d, b) ∧
    (b = false → ∃ c, (parts path).getLast? = some c ∧ F.child d c ≠ none)

/-- A name that is there is not taken again. -/
theorem Files.Exists.not_takes (h : F.Exists cwd path) (hf : F.followPath cwd path = some (d, false))
    (hn : F.node d = some n) (part : NameBuf) : ¬ n.Takes (lastPart (parts path) part) := by
  obtain ⟨d', b, hf', hchild⟩ := h
  obtain ⟨rfl, rfl⟩ := Prod.mk.inj (Option.some.inj (hf'.symm.trans hf))
  obtain ⟨c, hc, hthere⟩ := hchild rfl
  intro htakes
  have hlast : lastPart (parts path) part = c := by
    unfold lastPart
    rw [hc]
    rfl
  refine hthere ?_
  unfold Files.child
  rw [hn]
  show n.target c = none
  unfold Node.target
  rw [← hlast, htakes.new]
  rfl

/-! ## What was added -/

section Added

variable {e : DirEntry} {sv : Int32} {p : Slot → UInt32}

/-- The entry that was put into the free slot, and a new inode. -/
theorem Adds.of_put (hv' : Shows v' F') (hn : F.node d = some n) (hnew : F.node s = none)
    (he : e.inodeSector = s) (hc : cstr e.name = name) (hu : e.inUse = 1)
    (hd' : ∃ k, F'.node d = some k ∧ k.isDir = n.isDir ∧ SameBytes (n.put n.freeSlot e) k)
    (hothers : ∀ t, t ≠ d → t ≠ s → F'.node t = F.node t) : Adds F d s name v' := by
  obtain ⟨k, hk, hdir, hsame⟩ := hd'
  refine ⟨hnew, ⟨n, n.freeSlot, hn, Node.table_none.mpr Node.freeSlot_unused, ?_, ?_⟩,
    fun t k' hk' htd => ?_⟩
  · rw [hv'.node d k hk, hdir]
  · rw [hv'.node d k hk, hsame.table, Node.table_put n.freeSlot_le (by rw [hu]; decide), hc, he]
  · have hts : t ≠ s := by
      rintro rfl
      cases hnew.symm.trans hk'
    exact hv'.node t k' ((hothers t htd hts).trans hk')

theorem Adds.withRefs {r : Multiset UInt32} (h : Adds (F.withRefs r) d s name v') : Adds F d s name v' :=
  ⟨h.fresh, h.entry, h.others⟩

/-- The sector of the new inode is in the entry. -/
theorem Adds.unique (h : Adds F d s name v') (h' : Adds F d t name v') : s = t := by
  obtain ⟨n, k, hn, hk, -, htable⟩ := h.entry
  obtain ⟨n', k', hn', hk', -, htable'⟩ := h'.entry
  obtain rfl := Option.some.inj (hn.symm.trans hn')
  have hat := congrFun (htable.symm.trans htable') k
  rw [Function.update_self, Function.update_apply] at hat
  split at hat
  · exact (Prod.mk.inj (Option.some.inj hat)).2
  · cases hat.trans hk

/-- A `filesys_create` that returns true has added the file. -/
theorem FileCreated.adds (h : FileCreated F cwd path size part true F') (hhome : F.Home cwd)
    (hv' : Shows v' F') : AddsFile F cwd path size.toNatClampNeg v' := by
  cases h with
  | @tried d _ n F₁ hf hn hin =>
      cases hin with
      | @done s p q m b e sv _ htakes _ _ hnew _ he hc hu =>
          have hds : d ≠ s := by
            rintro rfl
            cases hnew.symm.trans hn
          have hd : (F.set d { n.put n.freeSlot e with saved := sv, ptr := q }).node d = some _ :=
            Files.set_node_self
          have hnode : ∀ t, t ≠ d →
              (F.set d { n.put n.freeSlot e with saved := sv, ptr := q }).node t = F.node t :=
            fun t ht => Files.set_node_other ht
          have hadds := Adds.of_put hv' hn hnew he hc hu
            ⟨_, (Files.set_node_other hds).trans hd, rfl, rfl, rfl⟩
            fun t htd hts => (Files.set_node_other hts).trans (hnode t htd)
          refine ⟨d, s, _, .of_follow hhome hf hn htakes, hadds, ?_⟩
          rw [hv'.node s _ Files.set_node_self]
          exact ⟨rfl, rfl⟩

/-- The other inodes, and the directory that the new one is in. -/
theorem DirFilled.others {k : Node} {r : Multiset UInt32} (h : DirFilled F d s n k r F')
    (hn : F.node d = some n)
    (hds : d ≠ s) : (∃ m, F'.node d = some m ∧ m.isDir = n.isDir ∧ SameBytes n m) ∧
      ∀ t, t ≠ d → t ≠ s → F'.node t = F.node t := by
  have hlinked : (F.set d n.linked).node d = some n.linked := Files.set_node_self
  have hnode : ∀ t, t ≠ d → (F.set d n.linked).node t = F.node t := fun t ht => Files.set_node_other ht
  cases h with
  | both =>
      exact ⟨⟨_, (Files.set_node_other hds).trans hlinked, rfl, rfl, rfl⟩,
        fun t htd hts => (Files.set_node_other hts).trans (hnode t htd)⟩
  | none =>
      exact ⟨⟨n, (Files.set_node_other hds).trans hn, rfl, rfl, rfl⟩,
        fun t _ hts => Files.set_node_other hts⟩

theorem Node.table_empty {k : Node} (hlen : k.len = 0) : k.table = fun _ => none := by
  funext j
  refine Node.table_none.mpr fun hj => ?_
  have hlt := hj.1
  unfold Node.slots at hlt
  omega

/-- There is a sector for the two entries. -/
theorem DirFilled.holds {k : Node} {r : Multiset UInt32} (h : DirFilled F d s n k r F') (hlen : k.len = 0)
    (hfree : 0 < freeCnt F.freeMap) :
    ∃ m, F'.node s = some m ∧ m.isDir ≠ 0 ∧ m.table = ownTable s d ∧ m.len = 40 := by
  cases h with
  | @both e₁ e₂ p b _ he₁ hc₁ hu₁ he₂ hc₂ hu₂ =>
      have hfirst : (k.put 0 e₁).table =
          Function.update (fun _ : Nat => Option.none) 0 (some (dot, s)) := by
        rw [Node.table_put (Nat.zero_le _) (by rw [hu₁]; decide), Node.table_empty hlen, hc₁, he₁]
      have hslots : (k.put 0 e₁).slots = 1 := by
        show max k.len (20 * 0 + e₁.toBytes.length) / 20 = 1
        rw [hlen, DirEntry.length_toBytes]
        rfl
      have hsecond : ((k.put 0 e₁).put 1 e₂).table = ownTable s d := by
        unfold ownTable
        rw [Node.table_put hslots.ge (by rw [hu₂]; decide), hfirst, hc₂, he₂]
      have hlen' : ((k.put 0 e₁).put 1 e₂).len = 40 := by
        show max (max k.len (20 * 0 + e₁.toBytes.length)) (20 * 1 + e₂.toBytes.length) = 40
        rw [hlen, DirEntry.length_toBytes, DirEntry.length_toBytes]
        rfl
      refine ⟨_, Files.set_node_self, (by decide : (1 : Int32) ≠ 0), ?_, hlen'⟩
      rw [← hsecond]
      exact SameBytes.table ⟨rfl, rfl⟩
  | none hfull => exact absurd hfull hfree.ne'

/-- There is none. -/
theorem DirFilled.holds_not {k : Node} {r : Multiset UInt32} (h : DirFilled F d s n k r F')
    (hlen : k.len = 0) (hfull : freeCnt F.freeMap = 0) :
    ∃ m, F'.node s = some m ∧ m.table 0 ≠ some (dot, s) := by
  cases h with
  | both hfree => exact absurd (hfree.symm.trans hfull) (Nat.succ_ne_zero _)
  | @none p b =>
      refine ⟨_, Files.set_node_self, fun hdot => ?_⟩
      have hsame : k.table 0 = some (dot, s) := hdot
      rw [Node.table_empty hlen] at hsame
      cases hsame

end Added

/-! ## The two calls -/

/-- What the tree is after a call: `adds` says that an entry was added, and without one every
directory has the entries that it had. -/
def Placed (F : Files) (v v' : Vol) (adds : Prop) : Bool → Prop
  | true => adds
  | false => ∀ t, (F.node t).isSome = true → (v'.nodeAt t).table = (v.nodeAt t).table

/-- What a call is to do.  On a path that names something it comes back, with false. -/
structure Creates (F : Files) (cwd : Option UInt32) (path : List UInt8) (call : FsM Bool) (fs : FsState)
    (adds : Vol → Prop) : Prop where
  placed : ∀ x fs', call fs = .ok x fs' → Placed F fs.vol fs'.vol (adds fs'.vol) x
  refused : F.Exists cwd path → ∃ fs', call fs = .ok false fs'

/-- `filesys_create` does not return on the path of a file: `inode_create` does not. -/
def Files.CreateUnending (F : Files) (cwd : Option UInt32) (path : List UInt8) (size : Int32) : Prop :=
  F.Exists cwd path ∧ (∃ d, F.followPath cwd path = some (d, false)) ∧ Unending (freeCnt F.freeMap) size

/-- `mkdir` makes a directory that is not in its place or is not complete: `n` takes the name and
there is room for the entry, but the path led to `n` itself, or no sector is left for `.` and `..`. -/
def Files.MkdirMisplaces (F : Files) (cwd : Option UInt32) (path : List UInt8) (part : NameBuf) : Prop :=
  ∃ d b n, F.followPath cwd path = some (d, b) ∧ F.node d = some n ∧
    n.Takes (lastPart (parts path) part) ∧ n.slotEnd ≤ maxFileLen ∧
    1 + n.taken n.slotEnd ≤ freeCnt F.freeMap ∧ (b = true ∨ freeCnt F.freeMap = 1 + n.taken n.slotEnd)

/-- `mkdir` writes past the greatest length: the path led to `n`, which takes the name but is full. -/
def Files.MkdirOverreaches (F : Files) (cwd : Option UInt32) (path : List UInt8) (part : NameBuf) :
    Prop :=
  ∃ d n, F.followPath cwd path = some (d, true) ∧ F.node d = some n ∧
    n.Takes (lastPart (parts path) part) ∧ maxFileLen < n.slotEnd ∧ 0 < freeCnt F.freeMap

section Calls

variable {fs : FsState}

/-- The entry of the new directory, and the directory itself. -/
theorem DirCreatedIn.added {r : Multiset UInt32} (h : DirCreatedIn F d n name r true F')
    (hn : F.node d = some n)
    (hv' : Shows v' F') : n.Takes name ∧ n.slotEnd ≤ maxFileLen ∧ ∃ s m free, Adds F d s name v' ∧
      F'.node s = some m ∧ freeCnt F.freeMap = free + n.taken n.slotEnd + 1 ∧
      (0 < free → m.isDir ≠ 0 ∧ m.table = ownTable s d) ∧ (free = 0 → m.table 0 ≠ some (dot, s)) := by
  cases h with
  | @done s p q m b e sv F₁ htakes ht _ hnew _ he hc hu _ hle hfree hfilled =>
      have hds : d ≠ s := by
        rintro rfl
        cases hnew.symm.trans hn
      have h0 : sectors 0 = 0 := by decide
      have hall : freeCnt F.freeMap = freeCnt m + sectors 0 + 1 := ht.free
      have hput : (F.set d { n.put n.freeSlot e with saved := sv, ptr := q }).node d = some _ :=
        Files.set_node_self
      have hnode : ∀ t, t ≠ d →
          (F.set d { n.put n.freeSlot e with saved := sv, ptr := q }).node t = F.node t :=
        fun t htd => Files.set_node_other htd
      obtain ⟨⟨k, hk, hdir, hsame⟩, hothers⟩ := hfilled.others ((Files.set_node_other hds).trans hput) hds
      have hadds : Adds F d s name v' := Adds.of_put hv' hn hnew he hc hu
        ⟨k, hk, hdir, hsame.len, hsame.byte⟩
        fun t htd hts => (hothers t htd hts).trans ((Files.set_node_other hts).trans (hnode t htd))
      refine ⟨htakes, hle, s, ?_⟩
      rcases Nat.eq_zero_or_pos (freeCnt b) with hb | hb
      · obtain ⟨m', hm', hdot⟩ := hfilled.holds_not rfl hb
        exact ⟨m', 0, hadds, hm', by omega, fun h => absurd h (Nat.lt_irrefl 0), fun _ => hdot⟩
      · obtain ⟨m', hm', hdir', htable, -⟩ := hfilled.holds rfl hb
        exact ⟨m', freeCnt b, hadds, hm', by omega, fun _ => ⟨hdir', htable⟩, fun h => absurd h hb.ne'⟩

/-- `filesys_create` adds a file in its place, or nothing. -/
theorem create_places {x : Bool} {fs' : FsState} (hv : Shows fs.vol F) (hhome : F.Home cwd)
    (hz : 0 ∉ path)
    (hrun : filesysCreate cwd path size part fs = .ok x fs') :
    Placed F fs.vol fs'.vol (AddsFile F cwd path size.toNatClampNeg fs'.vol) x := by
  have hspec := create_spec (E := fun _ _ => True) size part hhome hz
    (fun _ _ => trivial) (fun _ _ _ => ⟨trivial, trivial⟩) fun _ _ _ _ _ => .inr fun _ => trivial
  obtain ⟨F', hv', hcreated⟩ := wpBy_ok hspec hv hrun
  cases x with
  | true => exact hcreated.adds hhome hv'
  | false => exact fun t ht => hcreated.keeps.entries hv hv' ht

/-- `mkdir` does the same with a directory, where it does not misplace it. -/
theorem mkdir_places_iff (hv : Shows fs.vol F) (hhome : F.Home cwd) (hz : 0 ∉ path) :
    (∀ x fs', mkdir cwd path part fs = .ok x fs' →
      Placed F fs.vol fs'.vol (AddsDir F cwd path fs'.vol) x) ↔
      ¬ F.MkdirMisplaces cwd path part := by
  constructor
  · rintro hplaces ⟨d, b, n, hf, hn, htakes, hle, hroom, hbad⟩
    obtain ⟨-, hstart, hshort⟩ := F.followPath_short hf
    have hspec := mkdir_spec (E := fun _ _ => False) part hhome hz
      (fun _ hnone => absurd hnone hstart) (fun hlong => absurd hlong hshort)
      fun d' b' n' hf' hn' _ _ => ?_
    · rcases wpBy_run hspec hv with ⟨x, fs', F', hrun, hv', hmade⟩ | ⟨_, _, -, hE⟩
      · have hplaced := hplaces x fs' hrun
        cases hmade with
        | lost hno => cases hno.symm.trans hf
        | @tried d' b' _ n' F₁ hf' hn' hin =>
            obtain ⟨rfl, rfl⟩ := Prod.mk.inj (Option.some.inj (hf.symm.trans hf'))
            obtain rfl := Option.some.inj (hn.symm.trans hn')
            cases x with
            | true =>
                obtain ⟨-, -, s, m, free, hadds, hm, hfree, -, hnot⟩ := hin.added hn hv'
                obtain ⟨t, s', name, hnames, hadds', -, htable⟩ := hplaced
                rcases hbad with rfl | hfull
                · exact hnames.not_directory hf
                cases b with
                | true => exact hnames.not_directory hf
                | false =>
                    obtain ⟨rfl, rfl⟩ := hnames.unique (.of_follow hhome hf hn htakes)
                    obtain rfl := Adds.unique hadds' hadds.withRefs
                    have hfree' : freeCnt F.freeMap = free + n.taken n.slotEnd + 1 := hfree
                    refine hnot (by omega) ?_
                    rw [← hv'.node _ m hm, htable]
                    rfl
            | false =>
                cases hin with
                | full hfull =>
                    have hzero : freeCnt F.freeMap = 0 := hfull
                    omega
                | refused hno => exact hno htakes
                | @crowded s p q m b' sv _ ht _ _ hfew =>
                    have hall : freeCnt F.freeMap = freeCnt m + sectors 0 + 1 := ht.free
                    have hcrowded : n.Crowded (freeCnt m) := ⟨hfew.grows, hfew.short⟩
                    have h0 : sectors 0 = 0 := by decide
                    exact hcrowded.taken (k := freeCnt m - n.taken n.slotEnd) (by omega)
      · exact hE
    · obtain rfl : d = d' := (Prod.mk.inj (Option.some.inj (hf.symm.trans hf'))).1
      obtain rfl := Option.some.inj (hn.symm.trans hn')
      exact .inl hle
  · intro hno x fs' hrun
    have hspec := mkdir_spec (E := fun _ _ => True) part hhome hz
      (fun _ _ _ => trivial) (fun _ _ => trivial) fun _ _ _ _ _ _ _ => .inr fun _ => trivial
    obtain ⟨F', hv', hmade⟩ := wpBy_ok hspec hv hrun
    cases x with
    | false => exact fun t ht => hmade.keeps.entries hv hv' ht
    | true =>
        cases hmade with
        | @tried d b _ n F₁ hf hn hin =>
            obtain ⟨htakes, hle, s, m, free, hadds, hm, hfree, hholds, -⟩ := hin.added hn hv'
            have hfree' : freeCnt F.freeMap = free + n.taken n.slotEnd + 1 := hfree
            have hgood : ¬ (b = true ∨ freeCnt F.freeMap = 1 + n.taken n.slotEnd) := fun hbad =>
              hno ⟨d, b, n, hf, hn, htakes, hle, by omega, hbad⟩
            rw [not_or, Bool.not_eq_true] at hgood
            obtain ⟨rfl, hleft⟩ := hgood
            obtain ⟨hdir, htable⟩ := hholds (by omega)
            refine ⟨d, s, _, .of_follow hhome hf hn htakes, hadds.withRefs, ?_⟩
            rw [hv'.node s m hm]
            exact ⟨hdir, htable⟩

/-- `filesys_create` on a path that is there returns false, where `inode_create` returns. -/
theorem create_refused_iff (hv : Shows fs.vol F) (hhome : F.Home cwd) (hz : 0 ∉ path)
    (hthere : F.Exists cwd path) :
    (∃ fs', filesysCreate cwd path size part fs = .ok false fs') ↔ ¬ F.CreateUnending cwd path size := by
  constructor
  · rintro ⟨fs', hrun⟩ ⟨-, ⟨d, hf⟩, hpos, hstop⟩
    have hspec := create_spec (E := fun _ _ => True) size part hhome hz
      (fun _ _ => trivial) (fun _ _ _ => ⟨trivial, trivial⟩) fun _ _ _ _ _ => .inr fun _ => trivial
    obtain ⟨F', -, hcreated⟩ := wpBy_ok hspec hv hrun
    cases hcreated with
    | lost hno => exact hno d hf
    | @tried d' _ n F₁ hf' hn hin =>
        cases hin with
        | full hfull => exact hpos.ne' hfull
        | refused hnn _ ht _ =>
            have hall : freeCnt F.freeMap = _ := ht.free
            rcases hstop with hneg | hlow
            · exact hnn hneg
            · omega
        | crowded _ htakes => exact hthere.not_takes hf' hn part htakes
  · intro hends
    obtain ⟨d, b, hf, -⟩ := id hthere
    have hspec := create_spec (E := fun _ _ => False) size part hhome hz
      (fun hlong => absurd hlong (F.followPath_short hf).2.2)
      (fun hfile hstop => absurd ⟨hthere, hfile, hstop⟩ hends)
      fun d n hf hn htakes => absurd htakes (hthere.not_takes hf hn part)
    rcases wpBy_run hspec hv with ⟨x, fs', F', hrun, -, hcreated⟩ | ⟨_, _, -, hE⟩
    · cases x with
      | false => exact ⟨fs', hrun⟩
      | true =>
          cases hcreated with
          | tried hf hn hin =>
              cases hin with
              | done _ htakes => exact absurd htakes (hthere.not_takes hf hn part)
    · exact hE.elim

/-- `mkdir` on such a path does so, unless it makes a directory inside of the one that is there. -/
theorem mkdir_refused_iff (hv : Shows fs.vol F) (hhome : F.Home cwd) (hz : 0 ∉ path)
    (hno : ¬ F.MkdirMisplaces cwd path part) (hthere : F.Exists cwd path) :
    (∃ fs', mkdir cwd path part fs = .ok false fs') ↔ ¬ F.MkdirOverreaches cwd path part := by
  constructor
  · rintro ⟨fs', hrun⟩ ⟨d, n, hf, hn, htakes, hlong, hpos⟩
    have hspec := mkdir_spec (E := fun _ _ => True) part hhome hz
      (fun _ _ _ => trivial) (fun _ _ => trivial) fun _ _ _ _ _ _ _ => .inr fun _ => trivial
    obtain ⟨F', -, hmade⟩ := wpBy_ok hspec hv hrun
    cases hmade with
    | lost hlost => cases hlost.symm.trans hf
    | @tried d' b' _ n' F₁ hf' hn' hin =>
        obtain rfl : d = d' := (Prod.mk.inj (Option.some.inj (hf.symm.trans hf'))).1
        obtain rfl := Option.some.inj (hn.symm.trans hn')
        cases hin with
        | full hfull => exact hpos.ne' hfull
        | refused hnt => exact hnt htakes
        | @crowded s p q m b sv _ _ _ _ hfew =>
            have hcrowded : n.Crowded (freeCnt m) := ⟨hfew.grows, hfew.short⟩
            exact absurd (hcrowded.max (hhome.dirOk hf hn)) (Nat.not_le.mpr hlong)
  · intro hmax
    obtain ⟨d₀, b₀, hf₀, -⟩ := id hthere
    obtain ⟨-, hstart, hshort⟩ := F.followPath_short hf₀
    have hspec := mkdir_spec (E := fun _ _ => False) part hhome hz
      (fun _ hnone => absurd hnone hstart) (fun hlong => absurd hlong hshort)
      fun d b n hf hn htakes hpos => ?_
    · rcases wpBy_run hspec hv with ⟨x, fs', F', hrun, hv', hmade⟩ | ⟨_, _, -, hE⟩
      · cases x with
        | false => exact ⟨fs', hrun⟩
        | true =>
            cases hmade with
            | @tried d b _ n F₁ hf hn hin =>
                obtain ⟨htakes, hle, s, m, free, -, -, hfree, -⟩ := hin.added hn hv'
                have hfree' : freeCnt F.freeMap = free + n.taken n.slotEnd + 1 := hfree
                cases b with
                | true => exact absurd ⟨d, true, n, hf, hn, htakes, hle, by omega, .inl rfl⟩ hno
                | false => exact absurd htakes (hthere.not_takes hf hn part)
      · exact hE.elim
    · cases b with
      | true =>
          refine .inl (Nat.not_lt.mp fun hlong => ?_)
          exact hmax ⟨d, n, hf, hn, htakes, hlong, hpos⟩
      | false => exact absurd htakes (hthere.not_takes hf hn part)

/-- Where the two calls create what they are to create, and where not.  `filesys_create` always puts
a new file in its place, so all that is to be asked is that it comes back on the path of a file that
is there; the place of a new directory is right unless `mkdir` misplaces it, and on the path of a
directory it comes back unless that would have to grow past the greatest length. -/
theorem creation_places_iff (hv : Shows fs.vol F) (hhome : F.Home cwd) (hz : 0 ∉ path) (size : Int32)
    (part : NameBuf) :
    (Creates F cwd path (filesysCreate cwd path size part) fs
        (AddsFile F cwd path size.toNatClampNeg) ↔
      ¬ F.CreateUnending cwd path size) ∧
    (Creates F cwd path (mkdir cwd path part) fs (AddsDir F cwd path) ↔
      ¬ F.MkdirMisplaces cwd path part ∧ ¬ F.MkdirOverreaches cwd path part) := by
  refine ⟨⟨fun h hends => ?_, fun hends => ?_⟩, ⟨fun h => ?_, fun ⟨hno, hmax⟩ => ?_⟩⟩
  · exact (create_refused_iff hv hhome hz hends.1).mp (h.refused hends.1) hends
  · exact ⟨fun x fs' hrun => create_places hv hhome hz hrun,
      fun hthere => (create_refused_iff hv hhome hz hthere).mpr hends⟩
  · have hno := (mkdir_places_iff hv hhome hz).mp h.placed
    refine ⟨hno, fun hmax => ?_⟩
    have hthere : F.Exists cwd path := by
      obtain ⟨d, n, hf, -⟩ := hmax
      exact ⟨d, true, hf, fun hb => by cases hb⟩
    exact (mkdir_refused_iff hv hhome hz hno hthere).mp (h.refused hthere) hmax
  · exact ⟨(mkdir_places_iff hv hhome hz).mpr hno,
      fun hthere => (mkdir_refused_iff hv hhome hz hno hthere).mpr hmax⟩

end Calls

/-! ### The first entry of a new disk -/

section First

variable {v₁ : Vol} {fs : FsState}

theorem Node.not_crowded_first {free : Nat} (hlen : n.len = 0) (hfree : 0 < free) : ¬ n.Crowded free := by
  intro hcrowded
  have hshort := hcrowded.short
  rw [Node.need_first hlen] at hshort
  omega

/-- With two free sectors the first file is made. -/
theorem Booted.create_first (h : Booted v₁ fs.vol) (hfree : 2 ≤ freeCnt fs.vol.freeMap) (part : NameBuf) :
    ∃ fs' F', filesysCreate (some rootDirSector) pathA 0 part fs = .ok true fs' ∧ Shows fs'.vol F' ∧
      FileCreated (rootFiles fs.vol) (some rootDirSector) pathA 0 part true F' := by
  have h0 : sectors (Int32.toNatClampNeg 0) = 0 := by decide
  have hroot := rootFiles_node fs.vol
  obtain ⟨hfollow, htakes⟩ := followPath_name hroot h.root_len (some rootDirSector) part
  have hspec := create_spec (E := fun _ _ => False) 0 part h.home (show 0 ∉ pathA by decide)
    (fun hlong => absurd hlong (by decide))
    (fun _ hstop => absurd hstop.2 (not_or.mpr
      ⟨by decide, by rw [h0]; show ¬ freeCnt fs.vol.freeMap < 1; omega⟩))
    fun _ _ _ hn _ => .inl (h.room hn)
  rcases wpBy_run hspec h.shows with ⟨x, fs', F', hrun, hv', hdone⟩ | ⟨_, _, -, hno⟩
  · cases x with
    | true => exact ⟨fs', F', hrun, hv', hdone⟩
    | false =>
        have hall : 2 ≤ freeCnt (rootFiles fs.vol).freeMap := hfree
        cases hdone with
        | lost hlost => exact absurd hfollow (hlost _)
        | @tried d _ n F₁ hf hn hin =>
            obtain rfl := (Prod.mk.inj (Option.some.inj (hfollow.symm.trans hf))).1
            obtain rfl := Option.some.inj (hroot.symm.trans hn)
            cases hin with
            | full hfull =>
                have hfull' : freeCnt (rootFiles fs.vol).freeMap = 0 := hfull
                omega
            | refused _ hnt => exact absurd htakes hnt
            | @crowded s p q m b m' sv _ _ ht _ hshort =>
                have hleft : freeCnt (rootFiles fs.vol).freeMap = freeCnt m + _ + 1 := ht.free
                exact absurd ⟨hshort.grows, hshort.short⟩
                  (Node.not_crowded_first h.root_len (by omega : 0 < freeCnt m))
  · exact hno.elim

/-- And so is the first directory. -/
theorem Booted.mkdir_first (h : Booted v₁ fs.vol) (hfree : 2 ≤ freeCnt fs.vol.freeMap) (part : NameBuf) :
    ∃ fs' F', mkdir (some rootDirSector) pathA part fs = .ok true fs' ∧ Shows fs'.vol F' ∧
      DirCreated (rootFiles fs.vol) (some rootDirSector) pathA part true F' := by
  have h0 : sectors 0 = 0 := by decide
  have hroot := rootFiles_node fs.vol
  obtain ⟨hfollow, htakes⟩ := followPath_name hroot h.root_len (some rootDirSector) part
  have hspec := mkdir_spec (E := fun _ _ => False) part h.home (show 0 ∉ pathA by decide)
    (fun _ hnone => absurd (hnone : some rootDirSector = none) (Option.some_ne_none _))
    (fun hlong => absurd hlong (by decide)) fun _ _ _ _ hn _ _ => .inl (h.room hn)
  rcases wpBy_run hspec h.shows with ⟨x, fs', F', hrun, hv', hdone⟩ | ⟨_, _, -, hno⟩
  · cases x with
    | true => exact ⟨fs', F', hrun, hv', hdone⟩
    | false =>
        have hall : 2 ≤ freeCnt (rootFiles fs.vol).freeMap := hfree
        cases hdone with
        | lost hlost => cases hlost.symm.trans hfollow
        | @tried d _ _ n F₁ hf hn hin =>
            obtain rfl := (Prod.mk.inj (Option.some.inj (hfollow.symm.trans hf))).1
            obtain rfl := Option.some.inj (hroot.symm.trans hn)
            cases hin with
            | full hfull =>
                have hfull' : freeCnt (rootFiles fs.vol).freeMap = 0 := hfull
                omega
            | refused hnt => exact absurd htakes hnt
            | @crowded s p q m b sv _ ht _ _ hshort =>
                have hleft : freeCnt (rootFiles fs.vol).freeMap = freeCnt m + _ + 1 := ht.free
                exact absurd ⟨hshort.grows, hshort.short⟩
                  (Node.not_crowded_first h.root_len (by omega : 0 < freeCnt m))
  · exact hno.elim

end First

def roomyDisk : BlockDev := ⟨8, fun _ => zerosBlock⟩

/-- A disk with four free sectors. -/
def roomyFs : FsState := afterCall filesysInit (bootFs roomyDisk)

theorem roomyFs_init : filesysInit (bootFs roomyDisk) = .ok () roomyFs :=
  run_of_returnedValue (by decide +kernel)

theorem roomyFs_booted : ∃ v₁, Booted v₁ roomyFs.vol := wpOn_ok (filesysInit_spec roomyDisk) roomyFs_init

/-- A file `/a` and a directory `/a` are made, and `/` is refused. -/
theorem creation_places_small : ∃ F, Shows roomyFs.vol F ∧
    (∃ fs', filesysCreate (some rootDirSector) pathA 0 DirEntry.zero.name roomyFs = .ok true fs' ∧
      AddsFile F (some rootDirSector) pathA 0 fs'.vol) ∧
    (∃ fs', mkdir (some rootDirSector) pathA DirEntry.zero.name roomyFs = .ok true fs' ∧
      AddsDir F (some rootDirSector) pathA fs'.vol) ∧
    ∃ fs', filesysCreate (some rootDirSector) [slash] 512 DirEntry.zero.name roomyFs = .ok false fs' ∧
      Placed F roomyFs.vol fs'.vol (AddsFile F (some rootDirSector) [slash] 512 fs'.vol) false := by
  obtain ⟨v₁, hb⟩ := roomyFs_booted
  have hv := hb.shows
  have hhome := hb.home
  have hfour : freeCnt (rootFiles roomyFs.vol).freeMap = 4 := by decide +kernel
  obtain ⟨hfollow, -⟩ := followPath_name (rootFiles_node roomyFs.vol) hb.root_len (some rootDirSector)
    DirEntry.zero.name
  refine ⟨_, hv, ?_, ?_, ?_⟩
  · obtain ⟨fs', -, hrun, -⟩ := hb.create_first (by decide +kernel) DirEntry.zero.name
    have hends : ¬ (rootFiles roomyFs.vol).CreateUnending (some rootDirSector) pathA 0 := by
      rintro ⟨-, -, -, hneg | hlow⟩
      · exact absurd hneg (by decide)
      · rw [hfour] at hlow
        exact absurd hlow (by decide)
    exact ⟨fs', hrun, ((creation_places_iff hv hhome (by decide) 0 DirEntry.zero.name).1.mpr
      hends).placed true fs' hrun⟩
  · obtain ⟨fs', -, hrun, -⟩ := hb.mkdir_first (by decide +kernel) DirEntry.zero.name
    have hno :
        ¬ (rootFiles roomyFs.vol).MkdirMisplaces (some rootDirSector) pathA DirEntry.zero.name := by
      rintro ⟨d, b, n, hf, hn, -, -, -, hbad⟩
      obtain ⟨rfl, rfl⟩ := Prod.mk.inj (Option.some.inj (hfollow.symm.trans hf))
      obtain rfl := Option.some.inj ((rootFiles_node roomyFs.vol).symm.trans hn)
      rw [Node.taken_first hb.root_len, hfour] at hbad
      exact absurd hbad (by decide)
    have hmax : ¬ (rootFiles roomyFs.vol).MkdirOverreaches (some rootDirSector) pathA
        DirEntry.zero.name := by
      rintro ⟨d, n, hf, -⟩
      cases hfollow.symm.trans hf
    exact ⟨fs', hrun, ((creation_places_iff hv hhome (by decide) 0 DirEntry.zero.name).2.mpr
      ⟨hno, hmax⟩).placed true fs' hrun⟩
  · have hcreates := (creation_places_iff hv hhome (by decide : 0 ∉ [slash]) 512
      DirEntry.zero.name).1.mpr (by
        rintro ⟨-, ⟨d, hf⟩, -⟩
        cases (followPath_slash (rootFiles roomyFs.vol) (some rootDirSector)
          DirEntry.zero.name).1.symm.trans hf)
    have hthere : (rootFiles roomyFs.vol).Exists (some rootDirSector) [slash] :=
      ⟨rootDirSector, true, (followPath_slash _ _ DirEntry.zero.name).1, fun hb => by cases hb⟩
    obtain ⟨fs', hrun⟩ := hcreates.refused hthere
    exact ⟨fs', hrun, hcreates.placed false fs' hrun⟩

/-- `mkdir ("/a")` with two free sectors: the new directory is empty. -/
theorem mkdir_misplaces : ¬ ∀ (fs : FsState) (F : Files) (cwd : Option UInt32) (path : List UInt8)
    (size : Int32) (part : NameBuf), Shows fs.vol F → F.Home cwd → 0 ∉ path →
      Creates F cwd path (filesysCreate cwd path size part) fs (AddsFile F cwd path size.toNatClampNeg) ∧
      Creates F cwd path (mkdir cwd path part) fs (AddsDir F cwd path) := by
  intro hall
  obtain ⟨F, hv, hhome, hfree, n, hn, hlen⟩ := smallFs_files
  obtain ⟨hf, htakes⟩ := followPath_name hn hlen (some rootDirSector) DirEntry.zero.name
  have hend := Node.slotEnd_first hlen
  have htaken := Node.taken_first hlen
  have hcreates := (hall smallFs F _ pathA 0 DirEntry.zero.name hv hhome (by decide)).2
  refine (mkdir_places_iff hv hhome (by decide)).mp hcreates.placed
    ⟨rootDirSector, false, n, hf, hn, htakes, ?_, ?_, .inr ?_⟩
  · rw [hend]
    decide
  · omega
  · omega

end CS162.Fs
