/-
# `CS162.Fs.CreationFails` — creation that fails

`SameSpace` says that a call has left the free sectors and the entries of the directories as they
were.  For `filesys_create` and `mkdir` that return false this is so unless `CreateLeaks` or
`MkdirLeaks` (`creation_atomic_iff`): these say of the tree, the path and the free map when sectors
were taken before the call found that there will be no new entry, and are not given back.
-/
import CS162.Fs.Creation
import CS162.Fs.Space

namespace CS162.Fs

open Bytes Wp

variable {F F' : Files} {d s t : UInt32} {n : Node} {length : Nat} {cwd : Option UInt32}
  {path : List UInt8} {part : NameBuf} {size : Int32}

/-! ## Calls that fail -/

/-- What a call that returns false has left as it was: the free sectors, and the entries of
every directory. -/
structure SameSpace (F : Files) (v v' : Vol) : Prop where
  used : ∀ x, v'.freeMap.Used x ↔ v.freeMap.Used x
  entries : ∀ d, (F.node d).isSome = true → (v'.nodeAt d).table = (v.nodeAt d).table

/-- `filesys_create` keeps sectors: there are enough for the inode and
its `initial_size`, there is no new entry, and it has taken blocks for
the size or for a longer directory that it cannot give back. -/
def Files.CreateLeaks (F : Files) (cwd : Option UInt32) (path : List UInt8) (size : Int32)
    (part : NameBuf) : Prop :=
  let takes := sectors size.toNatClampNeg + 1
  ∃ d n, F.followPath cwd path = some (d, false) ∧ F.node d = some n ∧ ¬ size < 0 ∧
    takes ≤ freeCnt F.freeMap ∧
    (¬ n.Takes (lastPart (parts path) part) ∧ 0 < size.toNatClampNeg ∨
      n.Takes (lastPart (parts path) part) ∧ n.Crowded (freeCnt F.freeMap - takes) ∧
        (0 < size.toNatClampNeg ∨ ¬ Restorable n.len (freeCnt F.freeMap - takes)))

/-- `mkdir` keeps a sector: there was one for the inode, and there is no new entry. -/
def Files.MkdirLeaks (F : Files) (cwd : Option UInt32) (path : List UInt8) (part : NameBuf) : Prop :=
  ∃ d b n, F.followPath cwd path = some (d, b) ∧ F.node d = some n ∧ 0 < freeCnt F.freeMap ∧
    (¬ n.Takes (lastPart (parts path) part) ∨ n.Crowded (freeCnt F.freeMap - 1))

section Space

variable {b m : Bitmap} {p : Slot → UInt32} {fs fs' : FsState}

theorem sectors_pos (h : 0 < length) : 0 < sectors length := by
  unfold sectors
  simp only [maxFileLen]
  omega

/-- An empty inode takes the sector of its header only. -/
theorem Takes.used_empty (h : Takes b 0 s p m) (x : UInt32) : m.Used x ↔ b.Used x ∨ x = s := by
  have h0 : sectors 0 = 0 := by decide
  have hnone : ∀ a, p a = unallocated := by
    intro a
    by_cases ha : a = .doubly
    · rw [ha]
      exact h.doubly (Nat.zero_le _)
    · exact h.upto.none a ha (h0 ▸ Nat.zero_le _)
  rw [h.used x]
  refine or_congr_right (or_iff_left ?_)
  rintro ⟨a, hu, -⟩
  exact hu (hnone a)

/-- Another takes more. -/
theorem Takes.used_more (h : Takes b length s p m) (hpos : 0 < length) :
    ∃ x, m.Used x ∧ x ≠ s ∧ ¬ b.Used x := by
  have hu := h.upto.full (.direct 0) (sectors_pos hpos)
  obtain ⟨hfree, hne⟩ := h.apart _ hu
  exact ⟨_, (h.used _).mpr (.inr (.inr ⟨_, hu, rfl⟩)), hne, hfree⟩

/-- Its sector is given back. -/
theorem Takes.used_back {m' : Bitmap} (h : Takes b 0 s p m) (hm' : ∀ x, m'.Used x ↔ m.Used x ∧ x ≠ s)
    (x : UInt32) : m'.Used x ↔ b.Used x := by
  rw [hm', h.used_empty]
  constructor
  · rintro ⟨hx | hx, hne⟩
    · exact hx
    · exact absurd hx hne
  · intro hx
    refine ⟨.inl hx, ?_⟩
    rintro rfl
    exact h.fresh hx

/-- The entries of a directory are the same where its bytes are. -/
theorem Files.Keeps.entries (h : F.Keeps F') (hv : Shows fs.vol F) (hv' : Shows fs'.vol F')
    (ht : (F.node t).isSome = true) : (fs'.vol.nodeAt t).table = (fs.vol.nodeAt t).table := by
  obtain ⟨k, hk⟩ := Option.isSome_iff_exists.mp ht
  obtain ⟨k', hk', hsame⟩ := h t k hk
  rw [hv'.node t k' hk', hv.node t k hk]
  exact hsame.table

theorem SameSpace.of_shows (hv : Shows fs.vol F) (hv' : Shows fs'.vol F')
    (hused : ∀ x, F'.freeMap.Used x ↔ F.freeMap.Used x) (hkeeps : F.Keeps F') :
    SameSpace F fs.vol fs'.vol := by
  refine ⟨fun x => ?_, fun t ht => hkeeps.entries hv hv' ht⟩
  rw [hv'.freeMap, hv.freeMap]
  exact hused x

theorem SameSpace.used_iff (h : SameSpace F fs.vol fs'.vol) (hv : Shows fs.vol F) (hv' : Shows fs'.vol F')
    (x : UInt32) : F'.freeMap.Used x ↔ F.freeMap.Used x := by
  have hx := h.used x
  rwa [hv'.freeMap, hv.freeMap] at hx

/-- `filesys_create` that returns false has changed nothing, unless it keeps sectors. -/
theorem create_atomic_iff (hv : Shows fs.vol F) (hhome : F.Home cwd) (hz : 0 ∉ path) :
    (∀ fs', filesysCreate cwd path size part fs = .ok false fs' → SameSpace F fs.vol fs'.vol) ↔
      ¬ F.CreateLeaks cwd path size part := by
  constructor
  · rintro hatomic ⟨d, n, hf, hn, hnn, hroom, hfail⟩
    obtain ⟨-, -, hshort⟩ := F.followPath_short hf
    have hspec := create_spec (E := fun _ _ => False) size part hhome hz
      (fun hlong => absurd hlong hshort)
      (fun _ hstop => absurd hstop.2 (not_or.mpr ⟨hnn, Nat.not_lt.mpr hroom⟩)) fun d' n' hf' hn' ht => ?_
    · rcases wpBy_run hspec hv with ⟨x, fs', F', hrun, hv', hcreated⟩ | ⟨_, _, -, hE⟩
      · cases hcreated with
        | lost hno => exact hno d hf
        | @tried d' _ n' F₁ hf' hn' hin =>
            obtain rfl : d = d' := (Prod.mk.inj (Option.some.inj (hf.symm.trans hf'))).1
            obtain rfl := Option.some.inj (hn.symm.trans hn')
            cases hin with
            | full hfull =>
                have hzero : freeCnt F.freeMap = 0 := hfull
                omega
            | @refused s p m m' _ hnt ht hm' =>
                rcases hfail with ⟨-, hpos⟩ | ⟨htakes, -⟩
                · obtain ⟨x, hx, hne, hnew⟩ := ht.used_more hpos
                  exact hnew (((hatomic fs' hrun).used_iff hv hv' x).mp ((hm' x).mpr ⟨hx, hne⟩))
                · exact hnt htakes
            | @crowded s p q m b m' sv _ htakes ht _ hfew hm' =>
                rcases hfail with ⟨hnt, -⟩ | ⟨-, -, hlost⟩
                · exact hnt htakes
                have hused := (hatomic fs' hrun).used_iff hv hv'
                have hfree : freeCnt F.freeMap = freeCnt m + sectors size.toNatClampNeg + 1 := ht.free
                have hrest : freeCnt F.freeMap - (sectors size.toNatClampNeg + 1) = freeCnt m := by omega
                have hback : 0 < size.toNatClampNeg → False := by
                  intro hpos
                  obtain ⟨x, hx, hne, hnew⟩ := ht.used_more hpos
                  exact hnew ((hused x).mp ((hm' x).mpr ⟨hfew.held x hx, hne⟩))
                refine hlost.elim hback fun hno => hno ?_
                rw [hrest, hfew.restored]
                refine fun x => ⟨fun hx => ?_, hfew.held x⟩
                by_cases hxs : x = s
                · exact (ht.used x).mpr (.inr (.inl hxs))
                · exact (ht.used x).mpr (.inl ((hused x).mp ((hm' x).mpr ⟨hx, hxs⟩)))
            | @done s p q m b e sv _ htakes ht _ _ _ _ _ _ _ _ hfree' =>
                rcases hfail with ⟨hnt, -⟩ | ⟨-, hcrowded, -⟩
                · exact hnt htakes
                · have hfree : freeCnt F.freeMap = freeCnt m + sectors size.toNatClampNeg + 1 := ht.free
                  exact hcrowded.taken (k := freeCnt b) (by omega)
      · exact hE
    · obtain rfl : d = d' := (Prod.mk.inj (Option.some.inj (hf.symm.trans hf'))).1
      obtain rfl := Option.some.inj (hn.symm.trans hn')
      rcases hfail with ⟨hno, -⟩ | ⟨-, hcrowded, -⟩
      · exact absurd ht hno
      · exact .inl (hcrowded.max (hhome.dirOk hf hn))
  · intro hno fs' hrun
    have hspec := create_spec (E := fun _ _ => True) size part hhome hz
      (fun _ _ => trivial) (fun _ _ _ => ⟨trivial, trivial⟩) fun _ _ _ _ _ => .inr fun _ => trivial
    obtain ⟨F', hv', hcreated⟩ := wpBy_ok hspec hv hrun
    have hkeeps := hcreated.keeps
    cases hcreated with
    | lost => exact .of_shows hv hv' (fun _ => Iff.rfl) hkeeps
    | @tried d _ n F₁ hf hn hin =>
        cases hin with
        | full => exact .of_shows hv hv' (fun _ => Iff.rfl) hkeeps
        | @refused s p m m' hnn hnt ht hm' =>
            have hlen : size.toNatClampNeg = 0 := by
              by_contra hpos
              refine hno ⟨d, n, hf, hn, hnn, ?_, .inl ⟨hnt, Nat.pos_of_ne_zero hpos⟩⟩
              have hfree : freeCnt F.freeMap = freeCnt m + sectors size.toNatClampNeg + 1 := ht.free
              omega
            rw [hlen] at ht
            exact .of_shows hv hv' (ht.used_back hm') hkeeps
        | @crowded s p q m b m' sv hnn hnt ht hsv hshort hm' =>
            have hfree : freeCnt F.freeMap = freeCnt m + sectors size.toNatClampNeg + 1 := ht.free
            have hrest : freeCnt F.freeMap - (sectors size.toNatClampNeg + 1) = freeCnt m := by omega
            have hcrowded : n.Crowded (freeCnt F.freeMap - (sectors size.toNatClampNeg + 1)) := by
              rw [hrest]
              exact ⟨hshort.grows, hshort.short⟩
            have hboth : ¬ (0 < size.toNatClampNeg ∨
                ¬ Restorable n.len (freeCnt F.freeMap - (sectors size.toNatClampNeg + 1))) := fun h =>
              hno ⟨d, n, hf, hn, hnn, by omega, .inr ⟨hnt, hcrowded, h⟩⟩
            rw [not_or, not_not, hrest] at hboth
            have hlen : size.toNatClampNeg = 0 := by omega
            rw [hlen] at ht
            have hback := hshort.restored.mp hboth.2
            have hfreed : ∀ y, m'.Used y ↔ m.Used y ∧ y ≠ s := fun y => by rw [hm', hback]
            exact .of_shows hv hv' (ht.used_back hfreed) hkeeps

/-- `mkdir` that returns false has changed nothing, unless it keeps a sector. -/
theorem mkdir_atomic_iff (hv : Shows fs.vol F) (hhome : F.Home cwd) (hz : 0 ∉ path) :
    (∀ fs', mkdir cwd path part fs = .ok false fs' → SameSpace F fs.vol fs'.vol) ↔
      ¬ F.MkdirLeaks cwd path part := by
  have h0 : sectors 0 = 0 := by decide
  constructor
  · rintro hatomic ⟨d, b, n, hf, hn, hpos, hfail⟩
    obtain ⟨-, hstart, hshort⟩ := F.followPath_short hf
    have hspec := mkdir_spec (E := fun _ _ => False) part hhome hz
      (fun _ hnone => absurd hnone hstart) (fun hlong => absurd hlong hshort)
      fun d' b' n' hf' hn' ht _ => ?_
    · rcases wpBy_run hspec hv with ⟨x, fs', F', hrun, hv', hmade⟩ | ⟨_, _, -, hE⟩
      · cases hmade with
        | lost hno => cases hno.symm.trans hf
        | @tried d' b' _ n' F₁ hf' hn' hin =>
            obtain rfl : d = d' := (Prod.mk.inj (Option.some.inj (hf.symm.trans hf'))).1
            obtain rfl := Option.some.inj (hn.symm.trans hn')
            cases hin with
            | full hfull => exact hpos.ne' hfull
            | @refused s p m _ ht _ =>
                have hused := (hatomic fs' hrun).used_iff hv hv'
                exact ht.fresh ((hused s).mp ((ht.used s).mpr (.inr (.inl rfl))))
            | @crowded s p q m b sv _ ht _ _ hfew =>
                have hused := (hatomic fs' hrun).used_iff hv hv'
                exact ht.fresh ((hused s).mp (hfew.held s ((ht.used s).mpr (.inr (.inl rfl)))))
            | @done s p q m b e sv _ htakes ht _ _ _ _ _ _ _ _ hfree' _ =>
                rcases hfail with hnt | hcrowded
                · exact hnt htakes
                · have hfree : freeCnt F.freeMap = freeCnt m + sectors 0 + 1 := ht.free
                  exact hcrowded.taken (k := freeCnt b) (by omega)
      · exact hE
    · obtain rfl : d = d' := (Prod.mk.inj (Option.some.inj (hf.symm.trans hf'))).1
      obtain rfl := Option.some.inj (hn.symm.trans hn')
      rcases hfail with hno | hcrowded
      · exact absurd ht hno
      · exact .inl (hcrowded.max (hhome.dirOk hf hn))
  · intro hno fs' hrun
    have hspec := mkdir_spec (E := fun _ _ => True) part hhome hz
      (fun _ _ _ => trivial) (fun _ _ => trivial) fun _ _ _ _ _ _ _ => .inr fun _ => trivial
    obtain ⟨F', hv', hmade⟩ := wpBy_ok hspec hv hrun
    have hkeeps := hmade.keeps
    cases hmade with
    | lost => exact .of_shows hv hv' (fun _ => Iff.rfl) hkeeps
    | @tried d b _ n F₁ hf hn hin =>
        cases hin with
        | full => exact .of_shows hv hv' (fun _ => Iff.rfl) hkeeps
        | @refused s p m hnt ht _ =>
            have hfree : freeCnt F.freeMap = freeCnt m + sectors 0 + 1 := ht.free
            exact absurd ⟨d, b, n, hf, hn, by omega, .inl hnt⟩ hno
        | @crowded s p q m b' sv hnt ht _ hsv hfew =>
            have hfree : freeCnt F.freeMap = freeCnt m + sectors 0 + 1 := ht.free
            have hrest : freeCnt F.freeMap - 1 = freeCnt m := by omega
            have hcrowded : n.Crowded (freeCnt F.freeMap - 1) := by
              rw [hrest]
              exact ⟨hfew.grows, hfew.short⟩
            exact absurd ⟨d, b, n, hf, hn, by omega, .inr hcrowded⟩ hno

/-- Where a call that returns false has undone everything: `filesys_create` gives back the sector of
the inode, and so keeps what it has taken for `initial_size` and may keep a block for a longer
directory; `mkdir` gives back nothing, and so keeps a sector unless it got none. -/
theorem creation_atomic_iff (hv : Shows fs.vol F) (hhome : F.Home cwd) (hz : 0 ∉ path) (size : Int32)
    (part : NameBuf) :
    ((∀ fs', filesysCreate cwd path size part fs = .ok false fs' → SameSpace F fs.vol fs'.vol) ↔
      ¬ F.CreateLeaks cwd path size part) ∧
    ((∀ fs', mkdir cwd path part fs = .ok false fs' → SameSpace F fs.vol fs'.vol) ↔
      ¬ F.MkdirLeaks cwd path part) :=
  ⟨create_atomic_iff hv hhome hz, mkdir_atomic_iff hv hhome hz⟩

end Space

/-! ### The root directory of a new disk -/

theorem rootFiles_node (v : Vol) :
    (rootFiles v).node rootDirSector = some (v.nodeAt rootDirSector) := by
  unfold rootFiles
  dsimp only
  rw [if_pos rfl]

theorem rootFiles_root {v : Vol} {s : UInt32} {n : Node} (hn : (rootFiles v).node s = some n) :
    s = rootDirSector ∧ n = v.nodeAt rootDirSector := by
  unfold rootFiles at hn
  dsimp only at hn
  split at hn
  · next hs => exact ⟨hs, hs ▸ (Option.some.inj hn).symm⟩
  · cases hn

theorem Booted.home {v₁ v : Vol} (h : Booted v₁ v) : (rootFiles v).Home (some rootDirSector) := by
  have hlen := h.root_len
  have hdir : (rootFiles v).IsDir rootDirSector := by
    refine ⟨_, rootFiles_node v, ?_⟩
    show (v.header rootDirSector).isDir ≠ 0
    rw [Vol.header_open h.root]
    decide
  refine ⟨⟨fun s n hn _ => ?_, fun s n k hn _ hk => ?_⟩, hdir, fun c hc => ?_⟩
  · obtain ⟨rfl, rfl⟩ := rootFiles_root hn
    have hdeny : (v.nodeAt rootDirSector).denyWriteCnt = 0 := by
      show v.denyAt rootDirSector = 0
      unfold Vol.denyAt
      rw [h.root]
      rfl
    exact ⟨by rw [hlen], by rw [hlen]; exact Nat.zero_le _, hdeny⟩
  · obtain ⟨rfl, rfl⟩ := rootFiles_root hn
    have hlt := hk.1
    unfold Node.slots at hlt
    omega
  · obtain rfl := Option.some.inj hc
    exact ⟨hdir, Multiset.mem_singleton_self _⟩

/-- `/` leads to the root directory, and leaves `part` as it is. -/
theorem followPath_slash (F : Files) (cwd : Option UInt32) (part : NameBuf) :
    F.followPath cwd [slash] = some (rootDirSector, true) ∧ lastPart (parts [slash]) part = cstr part :=
  ⟨rfl, rfl⟩

theorem Booted.files {v₁ v : Vol} (h : Booted v₁ v) : ∃ F, Shows v F ∧ F.Home (some rootDirSector) ∧
    F.freeMap = v.freeMap ∧ ∃ n, F.node rootDirSector = some n ∧ n.len = 0 :=
  ⟨rootFiles v, h.shows, h.home, rfl, _, rootFiles_node v, h.root_len⟩

theorem smallFs_booted : ∃ v₁, Booted v₁ smallFs.vol := by
  have hrun : filesysInit (bootFs smallDisk) = .ok () smallFs := run_of_returnedValue (by decide +kernel)
  exact wpOn_ok (filesysInit_spec smallDisk) hrun

theorem smallFs_files : ∃ F, Shows smallFs.vol F ∧ F.Home (some rootDirSector) ∧ freeCnt F.freeMap = 2 ∧
    ∃ n, F.node rootDirSector = some n ∧ n.len = 0 := by
  obtain ⟨v₁, hb⟩ := smallFs_booted
  obtain ⟨F, hv, hhome, hmap, hroot⟩ := hb.files
  refine ⟨F, hv, hhome, ?_, hroot⟩
  rw [hmap]
  decide +kernel

/-- The path `/a`. -/
def pathA : List UInt8 := [slash, 97]

/-- A name that is not in the root directory. -/
theorem followPath_name (hn : F.node rootDirSector = some n) (hlen : n.len = 0) (cwd : Option UInt32)
    (part : NameBuf) : F.followPath cwd pathA = some (rootDirSector, false) ∧
      n.Takes (lastPart (parts pathA) part) := by
  have htakes : n.Takes [97] := Node.takes_empty hlen (by decide) (by decide)
  have hchild : F.child rootDirSector [97] = none := by
    unfold Files.child
    rw [hn]
    show n.target _ = none
    unfold Node.target
    rw [htakes.new]
    rfl
  have hfollow : F.follow rootDirSector [[97]] = some (rootDirSector, false) := by
    unfold Files.follow
    rw [F.subdir_none hchild]
    rfl
  exact ⟨hfollow, htakes⟩

/-- The root directory of a new disk has room. -/
theorem Booted.room {v₁ v : Vol} (h : Booted v₁ v) (hn : (rootFiles v).node d = some n) :
    n.slotEnd ≤ maxFileLen := by
  obtain ⟨-, rfl⟩ := rootFiles_root hn
  rw [Node.slotEnd_first h.root_len]
  decide

/-- The first entry of a directory takes one sector. -/
theorem Node.taken_first (hlen : n.len = 0) : n.taken n.slotEnd = 1 := by
  have hend := Node.slotEnd_first hlen
  unfold Node.taken
  rw [if_pos (by omega), Node.need_first hlen]

/-- With one free sector there is none for the entry. -/
theorem Booted.create_crowded {v₁ : Vol} {fs : FsState} (h : Booted v₁ fs.vol)
    (hone : freeCnt fs.vol.freeMap = 1) (part : NameBuf) :
    ∃ fs', filesysCreate (some rootDirSector) pathA 0 part fs = .ok false fs' := by
  have hone' : freeCnt (rootFiles fs.vol).freeMap = 1 := hone
  have h0 : sectors (Int32.toNatClampNeg 0) = 0 := by decide
  have hroot := rootFiles_node fs.vol
  obtain ⟨hfollow, -⟩ := followPath_name hroot h.root_len (some rootDirSector) part
  have hspec := create_spec (E := fun _ _ => False) 0 part h.home
    (show 0 ∉ pathA by decide) (fun hlong => absurd hlong (by decide))
    (fun _ hstop => absurd hstop.2 (not_or.mpr ⟨by decide, by omega⟩))
    fun _ _ _ hn _ => .inl (h.room hn)
  rcases wpBy_run hspec h.shows with ⟨x, fs', F', hrun, -, hdone⟩ | ⟨_, _, -, hno⟩
  · cases x with
    | false => exact ⟨fs', hrun⟩
    | true =>
        cases hdone with
        | @tried d _ n F₁ hf hn hin =>
            obtain rfl := (Prod.mk.inj (Option.some.inj (hfollow.symm.trans hf))).1
            obtain rfl := Option.some.inj (hroot.symm.trans hn)
            cases hin with
            | @done s p q m b e sv _ _ ht _ _ _ _ _ _ _ _ hfree =>
                have hall : freeCnt (rootFiles fs.vol).freeMap = freeCnt m + _ + 1 := ht.free
                rw [Node.taken_first h.root_len] at hfree
                omega
  · exact hno.elim

def tinyDisk : BlockDev := ⟨5, fun _ => zerosBlock⟩

/-- A disk with one free sector. -/
def tinyFs : FsState := afterCall filesysInit (bootFs tinyDisk)

/-- `filesys_create ("/a", 0)` takes that sector for the inode.  There is none for the entry, so that
the call gives it back and returns false. -/
theorem creation_atomic_small : ∃ F fs', Shows tinyFs.vol F ∧ freeCnt F.freeMap = 1 ∧
    filesysCreate (some rootDirSector) pathA 0 DirEntry.zero.name tinyFs = .ok false fs' ∧
      SameSpace F tinyFs.vol fs'.vol := by
  have hinit : filesysInit (bootFs tinyDisk) = .ok () tinyFs := run_of_returnedValue (by decide +kernel)
  obtain ⟨v₁, hb⟩ := wpOn_ok (filesysInit_spec tinyDisk) hinit
  have hone : freeCnt (rootFiles tinyFs.vol).freeMap = 1 := by decide +kernel
  have h0 : sectors (Int32.toNatClampNeg 0) = 0 := by decide
  have hkept : ¬ (rootFiles tinyFs.vol).CreateLeaks (some rootDirSector) pathA 0 DirEntry.zero.name := by
    rintro ⟨d, n, hf, hn, -, -, ⟨-, hpos⟩ | ⟨-, -, hpos | hlost⟩⟩
    · exact absurd hpos (by decide)
    · exact absurd hpos (by decide)
    · obtain ⟨-, rfl⟩ := rootFiles_root hn
      rw [hb.root_len, hone, h0] at hlost
      exact hlost (by decide)
  obtain ⟨fs', hrun⟩ := hb.create_crowded (by decide +kernel) DirEntry.zero.name
  exact ⟨_, fs', hb.shows, hone, hrun,
    (creation_atomic_iff hb.shows hb.home (by decide) 0 DirEntry.zero.name).1.mpr hkept fs' hrun⟩

/-- `mkdir ("/")` loses a sector. -/
theorem mkdir_leaks : ¬ ∀ (fs : FsState) (F : Files) (cwd : Option UInt32) (path : List UInt8)
    (part : NameBuf), Shows fs.vol F → F.Home cwd → 0 ∉ path →
    ∀ fs', mkdir cwd path part fs = .ok false fs' → SameSpace F fs.vol fs'.vol := by
  intro hall
  obtain ⟨F, hv, hhome, hfree, n, hn, -⟩ := smallFs_files
  have hpos : 0 < freeCnt F.freeMap := by omega
  have hatomic := hall smallFs F (some rootDirSector) [slash] DirEntry.zero.name hv hhome (by decide)
  refine (mkdir_atomic_iff hv hhome (by decide)).mp hatomic
    ⟨rootDirSector, true, n, rfl, hn, hpos, .inl ?_⟩
  have hempty : cstr DirEntry.zero.name = [] := by decide +kernel
  exact fun htakes => htakes.nonempty ((followPath_slash F none _).2.trans hempty)

end CS162.Fs
