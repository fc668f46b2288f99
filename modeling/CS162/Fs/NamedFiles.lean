/-
# `CS162.Fs.NamedFiles` — a path names a byte array

What `filesys_create` has made stays what the path stands for, whatever calls come after it: other inodes
are made, directories changed, files read and written.  It is a byte array: zeros of the initial size at
first, and then what those of the calls make of it that have written it (`FileRun`).

The connection is `Files.HoldsFile`; `Files.Goes` keeps it.
-/
import CS162.Fs.TreeShape

namespace CS162.Fs

open Bytes Wp

variable {F F' : Files} {s cwd : UInt32} {path : List UInt8} {part : NameBuf} {size : Int32}
  {length : Nat}
  {ops : List FileOp} {w : Option (UInt32 × FileOp)} {v v' : Vol} {fs fs' fs₀ fs₁ : FsState}
  {dev : BlockDev}

/-- Calls after `fs₀`, with those of them that have written the inode `s`. -/
inductive FileRun (s : UInt32) (fs₀ : FsState) : FsState → List FileOp → Prop where
  | refl : FileRun s fs₀ fs₀ []
  | step {fs fs' : FsState} {ops : List FileOp} {w : Option (UInt32 × FileOp)} :
      FileRun s fs₀ fs ops → TreeStep fs w fs' → FileRun s fs₀ fs' (ops ++ (opOn s w).toList)

/-- The path stands for `s`, which is a file of `length` zeros that the calls `ops` have written. -/
structure IsByteArray (fs : FsState) (cwd : UInt32) (path : List UInt8) (s : UInt32) (length : Nat)
    (ops : List FileOp) : Prop where
  path : fs.vol.resolve cwd path = some s
  opens : ∀ cwd' path' part, LiveCwd fs.vol cwd' → 0 ∉ path' → fs.vol.resolve cwd' path' = some s →
    Opens fs cwd' path' part
  hasLength : ∀ file : OpenFile, file.inode = s → IsOpen fs s → ∃ x fs', fileLength file fs = .ok x fs' ∧
    x.toNatClampNeg = lengthAfter length ops
  reads : ∀ (file : OpenFile) size, file.inode = s → IsOpen fs s → file.pos + size ≤ maxFileLen →
    ∃ bytes fs', fileRead file size fs = .ok (bytes, { file with pos := file.pos + bytes.length }) fs' ∧
      .bytes bytes = (FileOp.read size file.pos).result length ops
  writes : ∀ (file : OpenFile) (buffer : List UInt8), file.inode = s → IsOpen fs s →
    file.pos + buffer.length ≤ maxFileLen → ∃ (k : Nat) (fs' : FsState),
      fileWrite file buffer fs = .ok ((k : Int), { file with pos := file.pos + k }) fs' ∧
      (k = buffer.length ∧ writeDone fs' file buffer k = some (s, .write buffer file.pos) ∨
        k = 0 ∧ writeDone fs' file buffer k = none ∧
          freeCnt fs.vol.freeMap < (fs.vol.nodeAt s).need (file.pos + buffer.length))

/-! ## The invariant -/

/-- The inode `s` is a file with these bytes. -/
def Files.HoldsFile (F : Files) (s : UInt32) (length : Nat) (ops : List FileOp) : Prop :=
  ∃ n, F.node s = some n ∧ n.isDir = 0 ∧ n.len = lengthAfter length ops ∧ n.byte = lastByte ops

/-- A call adds to the bytes what it has written. -/
theorem Files.Goes.holds (hg : F.Goes w F') (hs : F.HoldsFile s length ops) :
    F'.HoldsFile s length (ops ++ (opOn s w).toList) := by
  obtain ⟨n, hn, h0, hlen, hbyte⟩ := hs
  obtain ⟨k, hk, hk0, hsame⟩ := hg.file s n hn h0
  refine ⟨k, hk, hk0, ?_⟩
  rw [hsame.len, hsame.byte]
  cases opOn s w with
  | none =>
      rw [Option.toList_none, List.append_nil]
      exact ⟨hlen, hbyte⟩
  | some op =>
      rw [Option.toList_some, lengthAfter_snoc]
      cases op with
      | read size offset =>
          refine ⟨hlen, hbyte.trans (funext fun p => ?_)⟩
          rw [lastByte_snoc]
          rfl
      | write buffer offset =>
          refine ⟨congrArg (max · _) hlen, funext fun p => ?_⟩
          rw [lastByte_snoc, getD_byteWritten, ← hbyte]
          rfl

/-- What `filesys_create` makes is a file of zeros. -/
theorem FileCreated.holds {x : Bool} (hc : FileCreated F (some cwd) path size part x F')
    (hnew : F.node s = none) (hs : ∃ n, F'.node s = some n) :
    F'.HoldsFile s size.toNatClampNeg [] := by
  obtain ⟨m, hm⟩ := hs
  cases hc with
  | lost => cases hnew.symm.trans hm
  | @tried d _ n F₁ hf hn hin =>
      have hd : s ≠ d := by
        rintro rfl
        cases hnew.symm.trans hn
      cases hin with
      | full => cases hnew.symm.trans hm
      | refused => cases hnew.symm.trans hm
      | crowded => cases hnew.symm.trans ((Files.set_node_other hd).symm.trans hm)
      | @done t p q m' b e sv _ _ _ _ _ _ _ _ _ _ _ _ =>
          by_cases hst : s = t
          · subst hst
            exact ⟨_, Files.set_node_self, rfl, rfl, rfl⟩
          · cases hnew.symm.trans
              ((Files.set_node_other hd).symm.trans ((Files.set_node_other hst).symm.trans hm))

/-- Along a run: the bytes, and that paths lead where they led. -/
theorem FileRun.holds (h : FileRun s fs₁ fs ops) (hv : Shows fs₁.vol F) (hg : F.Grown)
    (hs : F.HoldsFile s length []) {d : UInt32} {cs : List (List UInt8)} (hd : F.IsDir d)
    (hpath : F.hierarchy.resolve d cs = some s) : ∃ F', Shows fs.vol F' ∧ F'.Grown ∧
      F'.HoldsFile s length ops ∧ F'.IsDir d ∧ F'.hierarchy.resolve d cs = some s := by
  induction h with
  | refl => exact ⟨F, hv, hg, hs, hd, hpath⟩
  | step _ hstep ih =>
      obtain ⟨F₁, hv₁, hg₁, hs₁, hd₁, hpath₁⟩ := ih
      obtain ⟨F₂, hv₂, hgoes⟩ := hstep.goes hv₁ hg₁
      exact ⟨F₂, hv₂, hgoes.grown, hgoes.holds hs₁, hgoes.isDir d hd₁, hgoes.resolve d cs s hd₁ hpath₁⟩

/-- The path of a file can be opened. -/
theorem Files.HoldsFile.leadsBack (hs : F.HoldsFile s length ops) (h : F.Grown) (hv : Shows fs.vol F)
    (hc : LiveCwd fs.vol cwd) (hp : fs.vol.resolve cwd path = some s) :
    components path ≠ [] ∧ LeadsBack fs.vol cwd path := by
  obtain ⟨n, hn, h0, -⟩ := hs
  have hfile : ¬ F.IsDir s := fun hd => hd.node hn h0
  have hno : fs.vol.hierarchy.isDir s ≠ true := by
    rw [hv.isDir_eq ⟨n, hn⟩]
    exact fun hd => hfile (of_decide_eq_true hd)
  refine ⟨fun hnil => ?_, fun t a ht htdir _ => ?_⟩
  · unfold Vol.resolve at hp
    rw [hnil] at hp
    have hstart := Option.some.inj hp
    split at hstart
    · exact hfile (hstart ▸ h.isDir)
    · exact hno (hstart ▸ hc.isDir)
  · obtain rfl := Option.some.inj (hp.symm.trans ht)
    exact absurd htdir hno

/-- What is read and written. -/
theorem Files.HoldsFile.isByteArray (hs : F.HoldsFile s length ops) (h : F.Grown) (hv : Shows fs.vol F)
    (hpath : fs.vol.resolve cwd path = some s) : IsByteArray fs cwd path s length ops := by
  obtain ⟨n, hn, h0, hlen, hbyte⟩ := id hs
  have href : IsOpen fs s → s ∈ F.refs := fun ho => by
    obtain ⟨-, -, hr⟩ := ho.files hv
    exact hr
  refine ⟨hpath, fun c p part hc hz hp => ?_, ?_, ?_, ?_⟩
  · obtain ⟨hne, hback⟩ := hs.leadsBack h hv hc hp
    exact h.opens hv hc hz hne part hback
  · rintro file rfl ho
    rcases wpBy_run (fwp_fileLength (P := fun x _ => x.toNatClampNeg = n.len) (E := fun _ _ => False) hn
      (href ho) fun _ hx => hx) hv with ⟨x, fs', -, hrun, -, hx⟩ | ⟨_, _, -, hno⟩
    · exact ⟨x, fs', hrun, hx.trans hlen⟩
    · exact hno.elim
  · rintro file size rfl ho hmax
    rcases wpBy_run (fwp_fileRead (P := fun x _ => x =
      (n.read size file.pos, { file with pos := file.pos + (n.read size file.pos).length }))
      (E := fun _ _ => False) hn (href ho) (.inl hmax) rfl) hv with ⟨x, fs', -, hrun, -, rfl⟩ |
      ⟨_, _, -, hno⟩
    · refine ⟨_, fs', hrun, ?_⟩
      unfold Node.read FileOp.result
      rw [hlen, hbyte]
    · exact hno.elim
  · rintro file buffer rfl ho hmax
    have hsum : file.pos + buffer.length < 2 ^ 31 := by
      simp only [maxFileLen] at hmax
      omega
    rcases wpBy_run (fwp_fileWrite (P := fun x F' => ∃ k : Nat,
      x = ((k : Int), { file with pos := file.pos + k }) ∧ FileWritten F file n buffer k F')
      (E := fun _ _ => False) hn (href ho) (h.calm _ n hn (Multiset.notMem_zero _)).2.1 hsum (.inl hmax)
      (fun hno => absurd h0 hno) fun _ k F' hw => ⟨k, rfl, hw⟩) hv with
      ⟨x, fs', F', hrun, hv', k, rfl, hw⟩ | ⟨_, _, -, hno⟩
    · refine ⟨k, fs', hrun, ?_⟩
      rw [hv.node _ n hn, hv.freeMap]
      exact hw.done hv'
    · exact hno.elim

/-- What `filesys_create` has made, under its path. -/
theorem TreeRun.created (hrun : TreeRun dev fs₀) (hc : LiveCwd fs₀.vol cwd) (hz : 0 ∉ path)
    (hcreate : filesysCreate (some cwd) path size part fs₀ = .ok true fs₁) :
    ∃ F s start, Shows fs₁.vol F ∧ F.Grown ∧ F.HoldsFile s size.toNatClampNeg [] ∧
      startDir (some cwd) path = some start ∧ F.IsDir start ∧
      F.hierarchy.resolve start (components path) = some s := by
  obtain ⟨F, hv, hg⟩ := hrun.grown
  obtain ⟨hdir, hr, -⟩ := hc.files hv hg
  have hhome := hg.home hdir hr
  obtain ⟨F₁, hv₁, hdone⟩ := wpBy_ok (create_spec (E := fun _ _ => True) _ _ hhome hz (fun _ _ => trivial)
    (fun _ _ _ => ⟨trivial, trivial⟩) fun _ _ _ _ _ => .inr fun _ => trivial) hv hcreate
  have hgoes := (hdone.outcome hg hhome).goes hg hc hv
  cases hdone.outcome hg hhome with
  | @gains _ d t b hf hb hd hgains hmade =>
      obtain rfl := hb rfl
      have hnil : path ≠ [] := by
        rintro rfl
        cases hf
      obtain ⟨start, hstart, -, hhead, -, hfollow⟩ := hg.leads_path hc hv hnil
      have hleads := hg.leads (components path) hstart
      rw [← hfollow, hf] at hleads
      cases hleads with
      | @last _ c as hcs has _ _ =>
          have hlast : (components path).getLast? = some c := by
            rw [hcs]
            exact List.getLast?_concat
          rw [lastPart_eq hlast] at hgains
          have hpath := hgains.leads hg hd (hg.followed hc hv hf) hstart has
          rw [← hcs] at hpath
          obtain ⟨m, hm, -⟩ := hgains.new
          exact ⟨F₁, t, start, hv₁, hgoes.grown, hdone.holds hgains.fresh ⟨m, hm⟩, hhead,
            hgoes.isDir start hstart, hpath⟩

/-- A path from a directory of the files. -/
theorem Shows.resolve_path (hv : Shows v F) (h : F.Grown) {start : UInt32} (hd : F.IsDir start)
    (hstart : startDir (some cwd) path = some start) :
    v.resolve cwd path = F.hierarchy.resolve start (components path) := by
  rw [v.resolve_from hstart, hv.resolve_eq h (h.rooted.dir_live start (decide_eq_true hd))]

/-- A file is a byte array from its creation on, under its path. -/
theorem named_file_is_byte_array (hrun : TreeRun dev fs₀) (hc : LiveCwd fs₀.vol cwd) (hz : 0 ∉ path)
    (hcreate : filesysCreate (some cwd) path size part fs₀ = .ok true fs₁)
    (hs : fs₁.vol.resolve cwd path = some s) (h : FileRun s fs₁ fs ops) :
    IsByteArray fs cwd path s size.toNatClampNeg ops := by
  obtain ⟨F, t, start, hv, hg, hholds, hstart, hdir, hpath⟩ := hrun.created hc hz hcreate
  obtain rfl : t = s := Option.some.inj
    (hpath.symm.trans ((hv.resolve_path hg hdir hstart).symm.trans hs))
  obtain ⟨F', hv', hg', hholds', hdir', hpath'⟩ := h.holds hv hg hholds hdir hpath
  exact hholds'.isByteArray hg' hv' ((hv'.resolve_path hg' hdir' hstart).trans hpath')

/-! ### A file on a new disk -/

/-- The first file takes two sectors, and is not the parent of the root directory. -/
theorem Booted.first_file (h : Booted v fs.vol) (hfree : 2 ≤ freeCnt fs.vol.freeMap) (part : NameBuf) :
    ∃ fs₁ F₁, filesysCreate (some rootDirSector) pathA 0 part fs = .ok true fs₁ ∧ Shows fs₁.vol F₁ ∧
      freeCnt fs.vol.freeMap = freeCnt F₁.freeMap + 2 ∧ rootDirSector ∈ F₁.refs ∧
      F₁.names rootDirSector dotDot = none := by
  have hsectors : sectors (Int32.toNatClampNeg 0) = 0 := by decide
  obtain ⟨fs₁, F₁, hcall, hv₁, hdone⟩ := h.create_first hfree part
  have hroot := rootFiles_node fs.vol
  obtain ⟨hfollow, -⟩ := followPath_name hroot h.root_len (some rootDirSector) part
  have hup : F₁.names rootDirSector dotDot = none := by
    cases hdone.outcome h.grown h.home with
    | gains hf _ hdir hg _ =>
        obtain ⟨rfl, -⟩ := Prod.mk.inj (Option.some.inj (hfollow.symm.trans hf))
        have hname : dotDot ≠ lastPart (parts pathA) part := (by decide : dotDot ≠ [97])
        rw [hg.names_d h.grown hdir, if_neg hname, Files.names_dir hdir]
        exact h.child_none _ _
  refine ⟨fs₁, F₁, hcall, hv₁, ?_, ?_, hup⟩
  · cases hdone with
    | @tried d _ n F₁ hf hn hin =>
        obtain rfl := (Prod.mk.inj (Option.some.inj (hfollow.symm.trans hf))).1
        obtain rfl := Option.some.inj (hroot.symm.trans hn)
        cases hin with
        | done _ _ ht _ _ _ _ _ _ _ _ htaken =>
            have hfree := ht.free
            rw [Node.taken_first h.root_len] at htaken
            rw [hsectors, htaken] at hfree
            exact hfree
  · cases hdone with
    | tried => exact (h.home.cwd rootDirSector rfl).2

theorem Node.need_one {n : Node} (hlen : n.len = 0) : n.need 1 = 1 := by
  have h1 : sectors 1 = 1 := by decide
  have h0 : sectors 0 = 0 := by decide
  have hearly : early n.ptr 1 = early n.ptr 0 := if_congr (and_congr_left' (by decide)) rfl rfl
  unfold Node.need Fs.need
  rw [hlen, h1, h0, hearly]
  omega

/-- A file is made, opened, and a byte is written. -/
theorem named_file_is_byte_array_small : ∃ fs₁ fs s,
    filesysCreate (some rootDirSector) pathA 0 DirEntry.zero.name roomyFs = .ok true fs₁ ∧
      FileRun s fs₁ fs [.write [7] 0] ∧ IsByteArray fs rootDirSector pathA s 0 [.write [7] 0] := by
  obtain ⟨v₁, hb⟩ := roomyFs_booted
  have htree : TreeRun roomyDisk roomyFs := .init roomyFs_init
  have hz : 0 ∉ pathA := by decide
  obtain ⟨fs₁, F, hcreate, hv, hfree, hroot, hup⟩ :=
    hb.first_file (by decide +kernel) DirEntry.zero.name
  have hfour : freeCnt roomyFs.vol.freeMap = 4 := by decide +kernel
  obtain ⟨F₁, s, start, hv₁, hg₁, hholds, hstart, hdir, hpath⟩ := htree.created hb.liveCwd hz hcreate
  have hs := (hv₁.resolve_path hg₁ hdir hstart).trans hpath
  have hc₁ : LiveCwd fs₁.vol rootDirSector :=
    ⟨⟨[], rfl⟩, (hv₁.isDir_eq hg₁.live_root).trans (decide_eq_true hg₁.isDir), (IsOpen.of_mem hv hroot).2⟩
  -- it is opened
  obtain ⟨hne, hback⟩ := hholds.leadsBack hg₁ hv₁ hc₁ hs
  obtain ⟨fs₂, r, hopen, hv₂, hin⟩ := hg₁.opened hv₁ hc₁ hz hne DirEntry.zero.name hback
  have ho : IsOpen fs₂ s := .of_mem hv₂ (hin s hs)
  have hrun₂ : FileRun s fs₁ fs₂ [] := FileRun.refl.step (.openFile hc₁ hz hopen)
  have hbytes := named_file_is_byte_array htree hb.liveCwd hz hcreate hs hrun₂
  -- and written
  obtain ⟨k, fs₃, hwrite, hdone⟩ := hbytes.writes ⟨s, 0, false⟩ [7] rfl ho
    (show 0 + 1 ≤ maxFileLen by decide)
  obtain ⟨n, hn, -, hlen, -⟩ := hholds
  have hmark : k = 1 ∧ writeDone fs₃ ⟨s, 0, false⟩ [7] k = some (s, .write [7] 0) := by
    refine hdone.resolve_right fun hno => ?_
    have hlack := hno.2.2
    have hneed : n.need 1 = 1 := Node.need_one hlen
    have hleft : freeCnt fs₁.vol.freeMap = 2 := by
      rw [hv.freeMap]
      omega
    have hsame : fs₂.vol.freeMap = fs₁.vol.freeMap := hv₂.freeMap.trans hv₁.freeMap.symm
    rw [hv₂.node s n hn, hsame, hleft] at hlack
    exact absurd (hlack.trans_eq hneed) (by decide)
  have hnot : fs₂.vol.hierarchy.child rootDirSector dotDot ≠ some s := by
    have hsame : fs₂.vol.hierarchy.child rootDirSector = F.names rootDirSector :=
      ((hv₂.child_eq hg₁.live_root).trans (hv₁.child_eq hg₁.live_root).symm).trans
        (hv.child_eq (hv.node_of_mem hroot))
    rw [hsame, hup]
    exact Option.some_ne_none s ∘ Eq.symm
  have hstep := TreeStep.write ho hnot (show 0 + 1 < 2 ^ 31 by decide) hwrite
  rw [hmark.2] at hstep
  have hrun₃ := hrun₂.step hstep
  have hop : opOn s (some (s, FileOp.write [7] 0)) = some (.write [7] 0) := by simp [opOn]
  rw [hop] at hrun₃
  exact ⟨fs₁, fs₃, s, hcreate, hrun₃, named_file_is_byte_array htree hb.liveCwd hz hcreate hs hrun₃⟩

end CS162.Fs
