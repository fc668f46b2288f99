/-
# `CS162.Fs.TreeRuns` — runs that build a tree

`Vol.resolve` is the inode that a path stands for: its components are followed from entry to entry.
`TreeRun` is about runs from a formatted disk: calls of `filesys_create`, `mkdir`, `chdir` and
`filesys_open`, and of `file_read`, `file_write` and `inode_close` for what is open.  Any directory of the
tree that is open may be the thread's own (`LiveCwd`), and any file may be written but one of the name
`..`, which can only be in the root directory.  A step has a mark, which is what it has written.

`Files.Goes` is what a step may do: paths lead where they led, and a file is as it was, but for what the
step has written.
-/
import CS162.Fs.ByteArray
import CS162.Fs.OpenFiles
import CS162.Fs.Trees

namespace CS162.Fs

open Bytes Wp

variable {F F' : Files} {d s t cwd : UInt32} {n : Node} {c path : List UInt8} {part : NameBuf}
  {v v₁ : Vol} {fs fs' : FsState} {dev : BlockDev}

/-! ## What a path stands for -/

/-- The inodes of a volume and the entries of its directories. -/
def Vol.hierarchy (v : Vol) : Hierarchy UInt32 (List UInt8) where
  isDir s := decide ((v.nodeAt s).isDir ≠ 0)
  child d c := if (v.nodeAt d).isDir ≠ 0 then (v.nodeAt d).target c else none

/-- What is between the slashes of a path. -/
def components (path : List UInt8) : List (List UInt8) := (path.splitOn slash).filter (· ≠ [])

/-- The inode of a path. -/
def Vol.resolve (v : Vol) (cwd : UInt32) (path : List UInt8) : Option UInt32 :=
  v.hierarchy.resolve (if path.head? = some slash then rootDirSector else cwd) (components path)

/-- Names lead to `t`. -/
def Vol.Reached (v : Vol) (t : UInt32) : Prop := ∃ cs, v.hierarchy.resolve rootDirSector cs = some t

/-- An open directory of the tree. -/
structure LiveCwd (v : Vol) (cwd : UInt32) : Prop where
  reached : v.Reached cwd
  isDir : v.hierarchy.isDir cwd = true
  isOpen : 0 < v.openAt cwd

/-- The inode of an open file. -/
def IsOpen (fs : FsState) (s : UInt32) : Prop := s ≠ freeMapSector ∧ 0 < fs.vol.openAt s

/-- A write is done when the file reaches to its end.  A write of no bytes returns 0 even if it is not. -/
def writeDone (fs : FsState) (file : OpenFile) (buffer : List UInt8) (x : Int) :
    Option (UInt32 × FileOp) :=
  if x = buffer.length ∧ file.pos + buffer.length ≤ (fs.vol.nodeAt file.inode).len then
    some (file.inode, .write buffer file.pos)
  else none

/-- The calls that build a tree, and those for its files. -/
inductive TreeStep (fs : FsState) : Option (UInt32 × FileOp) → FsState → Prop where
  | create {fs' : FsState} {cwd : UInt32} {path : List UInt8} {size : Int32} {part : NameBuf} {x : Bool} :
      LiveCwd fs.vol cwd → 0 ∉ path → filesysCreate (some cwd) path size part fs = .ok x fs' →
      TreeStep fs none fs'
  | mkdir {fs' : FsState} {cwd : UInt32} {path : List UInt8} {part : NameBuf} {x : Bool} :
      LiveCwd fs.vol cwd → 0 ∉ path → Fs.mkdir (some cwd) path part fs = .ok x fs' → TreeStep fs none fs'
  | chdir {fs' : FsState} {cwd : UInt32} {path : List UInt8} {part : NameBuf} {x : Bool × Option UInt32} :
      LiveCwd fs.vol cwd → 0 ∉ path → Fs.chdir (some cwd) path part fs = .ok x fs' → TreeStep fs none fs'
  | openFile {fs' : FsState} {cwd : UInt32} {path : List UInt8} {part : NameBuf} {x : Option UInt32} :
      LiveCwd fs.vol cwd → 0 ∉ path → filesysOpen (some cwd) path part fs = .ok x fs' →
      TreeStep fs none fs'
  | read {fs' : FsState} {file : OpenFile} {size : Nat} {x : List UInt8 × OpenFile} :
      IsOpen fs file.inode → fileRead file size fs = .ok x fs' → TreeStep fs none fs'
  | write {fs' : FsState} {file file' : OpenFile} {buffer : List UInt8} {x : Int} :
      IsOpen fs file.inode → fs.vol.hierarchy.child rootDirSector dotDot ≠ some file.inode →
      file.pos + buffer.length < 2 ^ 31 → fileWrite file buffer fs = .ok (x, file') fs' →
      TreeStep fs (writeDone fs' file buffer x) fs'
  | close {fs' : FsState} {s : UInt32} : IsOpen fs s → inodeClose s fs = .ok () fs' → TreeStep fs none fs'

/-- Runs of them on a disk that has just been formatted. -/
inductive TreeRun (dev : BlockDev) : FsState → Prop where
  | init {fs : FsState} : filesysInit (bootFs dev) = .ok () fs → TreeRun dev fs
  | step {fs fs' : FsState} {w : Option (UInt32 × FileOp)} :
      TreeRun dev fs → TreeStep fs w fs' → TreeRun dev fs'

/-! ## The files of a volume -/

namespace Shows

theorem isDir_eq (hv : Shows v F) (ht : F.Live t) : v.hierarchy.isDir t = F.hierarchy.isDir t := by
  obtain ⟨n, hn⟩ := ht
  refine decide_eq_decide.mpr ?_
  rw [hv.node t n hn]
  constructor
  · exact fun hne => ⟨n, hn, hne⟩
  · rintro ⟨m, hm, hne⟩
    obtain rfl := Option.some.inj (hn.symm.trans hm)
    exact hne

theorem child_eq (hv : Shows v F) (ht : F.Live t) : v.hierarchy.child t = F.hierarchy.child t := by
  have hdir := decide_eq_decide.mp (hv.isDir_eq ht)
  obtain ⟨n, hn⟩ := ht
  funext c
  refine if_ctx_congr hdir (fun _ => ?_) fun _ => rfl
  rw [hv.node t n hn, Files.child_node hn]

theorem resolve_eq (hv : Shows v F) (h : F.Grown) (hd : F.Live d) (cs : List (List UInt8)) :
    v.hierarchy.resolve d cs = F.hierarchy.resolve d cs :=
  Hierarchy.resolve_congr (fun _ => hv.isDir_eq) (fun _ => hv.child_eq) h.rooted.child_live hd cs

theorem mem_refs (hv : Shows v F) (ht : F.Live t) : 0 < v.openAt t ↔ t ∈ F.refs := by
  obtain ⟨n, hn⟩ := ht
  rw [hv.refs t (hv.live hn).2]
  exact Multiset.count_pos

end Shows

theorem Files.Grown.live_root (h : F.Grown) : F.Live rootDirSector :=
  h.rooted.dir_live _ h.rooted.root_dir

theorem Files.Grown.resolve_live (h : F.Grown) (hd : F.IsDir d) {cs : List (List UInt8)}
    (ht : F.hierarchy.resolve d cs = some t) : F.Live t := by
  rcases Hierarchy.resolve_named ht with rfl | ⟨u, b, hu⟩
  · exact h.rooted.dir_live t (decide_eq_true hd)
  · exact h.rooted.child_live u b t hu

/-- A live directory of the volume is one of the tree. -/
theorem LiveCwd.files (hc : LiveCwd v cwd) (hv : Shows v F) (h : F.Grown) :
    F.IsDir cwd ∧ cwd ∈ F.refs ∧ (cwd = rootDirSector ∨ ∃ u a, F.names u a = some cwd) := by
  obtain ⟨⟨cs, hcs⟩, hdir, hopen⟩ := hc
  rw [hv.resolve_eq h h.live_root] at hcs
  have hlive := h.resolve_live h.isDir hcs
  refine ⟨of_decide_eq_true ?_, (hv.mem_refs hlive).mp hopen, Hierarchy.resolve_named hcs⟩
  exact (hv.isDir_eq hlive).symm.trans hdir

/-- Where components lead, and what they stand for. -/
inductive Leads (F : Files) (d : UInt32) (cs : List (List UInt8)) : Option (UInt32 × Bool) → Prop where
  | nowhere : F.hierarchy.resolve d cs = none → Leads F d cs none
  | dir {t : UInt32} : F.hierarchy.resolve d cs = some t → F.IsDir t →
      (∀ c, cs.getLast? = some c → ∃ u, F.names u c = some t) → Leads F d cs (some (t, true))
  | last {t : UInt32} {c : List UInt8} {as : List (List UInt8)} : cs = as ++ [c] →
      F.hierarchy.resolve d as = some t → F.IsDir t → F.subdir t c = none → Leads F d cs (some (t, false))

theorem Files.resolve_concat {as : List (List UInt8)} (has : F.hierarchy.resolve d as = some t)
    (ht : F.IsDir t) (c : List UInt8) : F.hierarchy.resolve d (as ++ [c]) = F.child t c := by
  rw [Hierarchy.resolve_concat, has, Option.bind_some]
  exact (if_pos (decide_eq_true ht)).trans (Files.names_dir ht c)

/-- By induction on the parts that are left: where they lead is where `follow` goes. -/
theorem Files.Grown.leads (h : F.Grown) (cs : List (List UInt8)) :
    ∀ {d}, F.IsDir d → Leads F d cs (F.follow d cs) := by
  induction cs with
  | nil => exact fun hd => .dir rfl hd fun c hc => by cases hc
  | cons c cs ih =>
      intro d hd
      have hstep : ∀ as, F.hierarchy.resolve d (c :: as) =
          (F.child d c).bind fun t => F.hierarchy.resolve t as := fun _ => by
        rw [← Files.names_dir hd]
        exact if_pos (decide_eq_true hd)
      unfold Files.follow
      split
      · next hlong =>
          refine .nowhere ?_
          rw [hstep]
          cases hc : F.child d c with
          | none => rfl
          | some t =>
              have hshort := h.short d c t ((Files.names_dir hd c).trans hc)
              exact absurd hshort (Nat.not_le.mpr hlong)
      · split
        · next t ht =>
            obtain ⟨hc, hdir⟩ := F.subdir_isDir ht
            rw [hc] at hstep
            simp only [Option.bind_some] at hstep
            have hrest := ih hdir
            generalize F.follow t cs = y at hrest
            cases hrest with
            | nowhere hno => exact .nowhere ((hstep cs).trans hno)
            | dir hres hd' hend =>
                refine .dir ((hstep cs).trans hres) hd' fun a ha => ?_
                cases cs with
                | nil =>
                    obtain rfl : c = a := by simpa using ha
                    obtain rfl := Option.some.inj hres
                    exact ⟨d, (Files.names_dir hd c).trans hc⟩
                | cons b cs =>
                    rw [List.getLast?_cons_cons] at ha
                    exact hend a ha
            | @last t a as hcs hres hd' hsub =>
                refine .last (congrArg (c :: ·) hcs) ((hstep as).trans hres) hd' hsub
        · next hsub =>
            split
            · next hnil =>
                subst hnil
                exact .last (List.nil_append _).symm rfl hd hsub
            · next hmore =>
                refine .nowhere ?_
                rw [hstep]
                cases hc : F.child d c with
                | none => rfl
                | some t =>
                    have hnd : ¬ F.IsDir t := fun hd' => by
                      rw [F.subdir_some hc hd'] at hsub
                      cases hsub
                    obtain ⟨b, cs, rfl⟩ := List.exists_cons_of_ne_nil hmore
                    exact if_neg (by simpa [Files.hierarchy] using hnd)

/-! ## The invariant along runs -/

theorem Booted.unused (h : Booted v₁ v) (hn : (rootFiles v).node d = some n) (j : Nat) : ¬ n.Uses j := by
  obtain ⟨-, rfl⟩ := rootFiles_root hn
  intro hj
  have hlt := hj.1
  unfold Node.slots at hlt
  rw [h.root_len] at hlt
  exact absurd hlt (Nat.not_lt_zero _)

theorem Booted.child_none (h : Booted v₁ v) (d : UInt32) (c : List UInt8) :
    (rootFiles v).child d c = none := by
  cases hn : (rootFiles v).node d with
  | none => exact Files.child_none hn
  | some n =>
      rw [Files.child_node hn]
      exact Node.target_none (h.unused hn)

/-- A new disk has its root directory only. -/
theorem Booted.grown (h : Booted v₁ v) : (rootFiles v).Grown := by
  have hhome := h.home
  have hno : ∀ {d c t}, (rootFiles v).hierarchy.child d c = some t → False := by
    intro d c t hc
    cases (h.child_none d c).symm.trans (Files.names_some hc).2
  refine ⟨hhome.tree, ?_, ⟨decide_eq_true hhome.root, fun d hd => ?_, fun d c t hc => (hno hc).elim,
    fun d c t hc => (hno hc).elim, fun u c hc => (hno hc).elim, fun u t _ hc => (hno hc).elim,
    fun u a v b t _ _ hc => (hno hc).elim, fun u c t p hc => (hno hc).elim,
      fun u t _ hc => (hno hc).elim⟩, ?_, fun _ u c t hc => (hno hc).elim,
    fun d c t hc => (hno hc).elim, fun d n hn _ => ?_, fun d p n hp => (hno hp).elim⟩
  · intro s n hn _
    have hn' : (rootFiles v).node s = some n := hn
    obtain ⟨rfl, rfl⟩ := rootFiles_root hn'
    refine ⟨?_, ?_, ?_⟩
    · show v.removedAt rootDirSector = false
      unfold Vol.removedAt
      rw [h.root]
      rfl
    · obtain ⟨m, hm, hne⟩ := hhome.root
      obtain rfl := Option.some.inj (hn'.symm.trans hm)
      exact (hhome.tree.dirOk _ _ hn' hne).deny
    · show (InodeDisk.ofSector (v.disk rootDirSector)).isDir = (v.header rootDirSector).isDir
      rw [Vol.header_open h.root, h.disk, InodeDisk.ofSector_toSector]
  · obtain ⟨n, hn, -⟩ : (rootFiles v).IsDir d := of_decide_eq_true hd
    exact ⟨n, hn⟩
  · intro d hd
    obtain ⟨t, ⟨c, -, hc, -⟩, -⟩ := Relation.TransGen.head'_iff.mp hd
    exact hno hc
  · obtain ⟨-, rfl⟩ := rootFiles_root hn
    exact Node.distinct_none (Node.table_empty h.root_len)

/-- The directory that a path leads to has a name, unless it is the root. -/
theorem Files.Grown.followed (hc : LiveCwd v cwd) (hv : Shows v F) (h : F.Grown) {d : UInt32} {b : Bool}
    (hf : F.followPath (some cwd) path = some (d, b)) :
    d = rootDirSector ∨ ∃ u a, F.names u a = some d := by
  unfold Files.followPath startDir at hf
  split at hf
  · cases hf
  obtain ⟨start, hstart, hf⟩ := Option.bind_eq_some_iff.mp hf
  obtain ⟨hdir, -, hnamed⟩ := hc.files hv h
  split at hstart
  · obtain rfl := Option.some.inj hstart
    exact Files.follow_named h.isDir hf
  · obtain rfl := Option.some.inj hstart
    rcases Files.follow_named hdir hf with rfl | hlast
    · exact hnamed
    · exact .inr hlast

theorem startDir_some (path : List UInt8) : startDir (some cwd) path ≠ none := by
  unfold startDir
  split <;> exact Option.some_ne_none _

/-- What an entry `..` names can be searched. -/
theorem Files.Grown.searched (h : F.Grown) (hd : F.IsDir d) (hs : F.child d dotDot = some s) :
    F.Searched (fun _ _ => True) s := by
  by_cases hdir : F.IsDir s
  · exact .inl hdir
  · refine .inr ⟨fun n hn => h.up d s n ((Files.names_dir hd _).trans hs) hn ?_, fun _ => trivial⟩
    by_contra hno
    exact hdir ⟨n, hn, hno⟩

theorem IsOpen.of_mem (hv : Shows fs.vol F) (hs : s ∈ F.refs) : IsOpen fs s := by
  have h0 : s ≠ freeMapSector := fun h0 => hv.mapRefs (h0 ▸ hs)
  refine ⟨h0, ?_⟩
  rw [hv.refs s h0]
  exact Multiset.count_pos.mpr hs

theorem IsOpen.files (ho : IsOpen fs s) (hv : Shows fs.vol F) : ∃ n, F.node s = some n ∧ s ∈ F.refs := by
  obtain ⟨h0, hpos⟩ := ho
  rw [hv.refs s h0] at hpos
  have hr := Multiset.count_pos.mp hpos
  obtain ⟨n, hn⟩ := hv.node_of_mem hr
  exact ⟨n, hn, hr⟩

/-- The bytes of a file after a call that has done `op`. -/
def Node.did (n : Node) : Option FileOp → Node
  | some (.write buffer offset) => n.wrote buffer offset
  | _ => n

/-- What was done to the inode `s`. -/
def opOn (s : UInt32) (w : Option (UInt32 × FileOp)) : Option FileOp := (w.filter (·.1 = s)).map Prod.snd

/-- What a call that has written `w` may do: the tree grows, and a file is as it was, but for `w`. -/
structure Files.Goes (F : Files) (w : Option (UInt32 × FileOp)) (F' : Files) : Prop where
  grown : F'.Grown
  isDir : ∀ d, F.IsDir d → F'.IsDir d
  resolve : ∀ d cs t, F.IsDir d → F.hierarchy.resolve d cs = some t → F'.hierarchy.resolve d cs = some t
  file : ∀ t n, F.node t = some n → n.isDir = 0 → ∃ k, F'.node t = some k ∧ k.isDir = 0 ∧
    SameBytes (n.did (opOn t w)) k

theorem Files.Stays.goes {w : Option (UInt32 × FileOp)} (hs : F.Stays (w.map Prod.fst) F') (h : F.Grown)
    (hw : ∀ t op n, w = some (t, op) → F.node t = some n → ∃ k, F'.node t = some k ∧
      SameBytes (n.did (some op)) k) : F.Goes w F' := by
  have hk := hs.keeps h
  refine ⟨hs.grown h, fun d hd => (hs.isDir_iff (h.rooted.dir_live d (decide_eq_true hd))).mpr hd,
    fun d cs t hd ht => ?_, fun t n hn h0 => ?_⟩
  · rw [Hierarchy.resolve_congr hk.isDir hk.child h.rooted.child_live
      (h.rooted.dir_live d (decide_eq_true hd))]
    exact ht
  · obtain ⟨k, hk, hdir, hsame⟩ := hs.old t n hn
    refine ⟨k, hk, hdir.trans h0, ?_⟩
    match w, hw, hsame with
    | none, _, hsame => exact hsame nofun
    | some (s, op), hw, hsame =>
        by_cases hst : s = t
        · subst hst
          obtain ⟨m, hm, hbytes⟩ := hw s op n rfl hn
          obtain rfl := Option.some.inj (hk.symm.trans hm)
          have hop : opOn s (some (s, op)) = some op := by simp [opOn]
          rw [hop]
          exact hbytes
        · have hop : opOn t (some (s, op)) = none := by simp [opOn, hst]
          rw [hop]
          exact hsame fun hw => hst (Option.some.inj hw)

theorem Files.Outcome.goes {dir : Bool} (ho : F.Outcome (some cwd) path part dir x F') (h : F.Grown)
    (hc : LiveCwd v cwd) (hv : Shows v F) : F.Goes none F' := by
  cases ho with
  | stays hs => exact hs.goes h nofun
  | @gains _ d s _ hf _ hdir hg _ =>
      have hnamed := h.followed hc hv hf
      have ha := hg.adds h hdir hnamed
      have hne : ∀ {t}, F.IsDir t → t ≠ s := by
        rintro t ht rfl
        exact ha.fresh (h.rooted.dir_live t (decide_eq_true ht))
      refine ⟨hg.grown h hdir hnamed, fun d hd => (hg.isDir_iff (hne hd)).mpr hd,
        fun d cs t hd ht => ha.resolve_old h.rooted (hne hd) ht, fun t n hn h0 => ?_⟩
      refine ⟨n, ?_, h0, rfl, rfl⟩
      rw [hg.others t (fun htd => (htd ▸ hdir).node hn h0) fun hts => ?_, hn]
      cases (hts ▸ hg.fresh).symm.trans hn

section Write

variable {file : OpenFile} {buffer : List UInt8} {k : Nat} {x : Int}

theorem writeDone_all (h : file.pos + buffer.length ≤ (fs.vol.nodeAt file.inode).len) :
    writeDone fs file buffer (buffer.length : Nat) = some (file.inode, .write buffer file.pos) :=
  if_pos ⟨rfl, h⟩

theorem writeDone_short (h : (fs.vol.nodeAt file.inode).len < file.pos + buffer.length) :
    writeDone fs file buffer x = none :=
  if_neg fun hno => absurd hno.2 (Nat.not_le.mpr h)

/-- All is written, or nothing is, and then sectors are lacking. -/
theorem FileWritten.done (hw : FileWritten F file n buffer k F') (hv' : Shows fs.vol F') :
    k = buffer.length ∧ writeDone fs file buffer k = some (file.inode, .write buffer file.pos) ∨
      k = 0 ∧ writeDone fs file buffer k = none ∧
        freeCnt F.freeMap < n.need (file.pos + buffer.length) := by
  cases hw with
  | all =>
      refine .inl ⟨rfl, writeDone_all ?_⟩
      rw [hv'.node _ _ Files.set_node_self]
      exact Nat.le_max_right ..
  | short _ hshort =>
      refine .inr ⟨rfl, writeDone_short ?_, hshort.short⟩
      rw [hv'.node _ _ Files.set_node_self]
      exact hshort.grows

/-- The tree stays. -/
theorem FileWritten.goes (hw : FileWritten F file n buffer k F') (h : F.Grown)
    (hn : F.node file.inode = some n) (h0 : n.isDir = 0)
    (hup : ∀ d, F.names d dotDot ≠ some file.inode) (hv' : Shows fs.vol F') :
    F.Goes (writeDone fs file buffer k) F' := by
  cases hw with
  | @all sv p m hsv hfree =>
      have hstays : F.Stays (some file.inode)
          { F.set file.inode { n.wrote buffer file.pos with saved := sv, ptr := p } with freeMap := m } :=
        .rewrite h hn h0 rfl rfl rfl hsv (by omega) (.inr ⟨rfl, hup⟩)
      rw [writeDone_all (by rw [hv'.node _ _ Files.set_node_self]; exact Nat.le_max_right ..)]
      refine hstays.goes h ?_
      rintro t op x ht hx
      obtain ⟨rfl, rfl⟩ := Prod.mk.inj (Option.some.inj ht)
      obtain rfl := Option.some.inj (hn.symm.trans hx)
      exact ⟨_, Files.set_node_self, rfl, rfl⟩
  | @short sv p m hsv hshort =>
      have hstays : F.Stays none
          { F.set file.inode { n with saved := sv, ptr := p } with freeMap := m } :=
        .rewrite h hn h0 rfl rfl rfl hsv hshort.free (.inl ⟨rfl, rfl, rfl⟩)
      rw [writeDone_short (by rw [hv'.node _ _ Files.set_node_self]; exact hshort.grows)]
      exact hstays.goes h nofun

end Write

/-- All that the calls do is to grow the tree, and to write files. -/
theorem TreeStep.goes {w : Option (UInt32 × FileOp)} (hs : TreeStep fs w fs') (hv : Shows fs.vol F)
    (h : F.Grown) : ∃ F', Shows fs'.vol F' ∧ F.Goes w F' := by
  cases hs with
  | create hc hz hrun =>
      obtain ⟨hdir, hr, -⟩ := hc.files hv h
      have hhome := h.home hdir hr
      obtain ⟨F', hv', hdone⟩ := wpBy_ok (create_spec (E := fun _ _ => True) _ _ hhome hz
        (fun _ _ => trivial) (fun _ _ _ => ⟨trivial, trivial⟩)
        fun _ _ _ _ _ => .inr fun _ => trivial) hv hrun
      exact ⟨F', hv', (hdone.outcome h hhome).goes h hc hv⟩
  | mkdir hc hz hrun =>
      obtain ⟨hdir, hr, -⟩ := hc.files hv h
      have hhome := h.home hdir hr
      obtain ⟨F', hv', hdone⟩ := wpBy_ok (mkdir_spec (E := fun _ _ => True) _ hhome hz
        (fun _ _ _ => trivial) (fun _ _ => trivial)
        fun _ _ _ _ _ _ _ => .inr fun _ => trivial) hv hrun
      exact ⟨F', hv', (hdone.outcome h hhome).goes h hc hv⟩
  | chdir hc hz hrun =>
      obtain ⟨hdir, hr, -⟩ := hc.files hv h
      obtain ⟨_, hv', -, r, rfl⟩ := wpBy_ok (chdir_spec (E := fun _ _ => True) _ (h.home hdir hr)
        h.acyclic_below hz h.calm) hv hrun
      exact ⟨_, hv', (Files.Stays.refl h).goes h nofun⟩
  | @openFile _ _ path _ _ hc hz hrun =>
      obtain ⟨hdir, hr, -⟩ := hc.files hv h
      by_cases hslash : path = [slash]
      · subst hslash
        obtain ⟨n, hn⟩ := h.live_root
        obtain ⟨F', hv', rfl⟩ := wpBy_ok (open_root (P := fun _ F' => F' = F.withRefs _)
          (E := fun _ _ => True) hn rfl) hv hrun
        exact ⟨_, hv', (Files.Stays.refl h).goes h nofun⟩
      · obtain ⟨F', hv', -, r, rfl, -⟩ := wpBy_ok (open_spec (E := fun _ _ => True) _ (h.home hdir hr)
          h.acyclic_below hz (startDir_some _) hslash fun d p hf hp =>
          h.searched ((h.home hdir hr).isDir hf) hp) hv hrun
        exact ⟨_, hv', (Files.Stays.refl h).goes h nofun⟩
  | read hopen hrun =>
      obtain ⟨n, hn, hr⟩ := hopen.files hv
      obtain ⟨F', hv', rfl⟩ := wpBy_ok (fwp_fileRead_same (E := fun _ _ => True) hn hr) hv hrun
      exact ⟨_, hv', (Files.Stays.refl h).goes h nofun⟩
  | @write _ file file' buffer x hopen hup hsum hrun =>
      obtain ⟨n, hn, hr⟩ := hopen.files hv
      obtain ⟨F', hv', hdone⟩ := wpBy_ok (fwp_fileWrite (P := fun y F' =>
        y.1 = -1 ∧ F' = F ∨ n.isDir = 0 ∧ ∃ k : Nat, y.1 = k ∧ FileWritten F file n buffer k F') (E :=
        fun _ _ => True) hn hr
        (h.calm _ n hn (Multiset.notMem_zero _)).2.1 hsum (.inr fun _ => trivial)
        (fun _ => .inl ⟨rfl, rfl⟩)
        fun h0 k F' hw => .inr ⟨h0, k, rfl, hw⟩) hv hrun
      rcases hdone with ⟨rfl, rfl⟩ | ⟨h0, k, rfl, hw⟩
      · have hnone : writeDone fs' file buffer (-1) = none := if_neg fun hno => by omega
        rw [hnone]
        exact ⟨_, hv', (Files.Stays.refl h).goes h nofun⟩
      · refine ⟨F', hv', hw.goes h hn h0 (fun d hd => ?_) hv'⟩
        by_cases hroot : d = rootDirSector
        · subst hroot
          exact hup ((congrFun (hv.child_eq h.live_root) _).trans hd)
        · exact (of_decide_eq_true (h.rooted.back d _ hroot hd).1 : F.IsDir _).node hn h0
  | close hopen hrun =>
      obtain ⟨-, -, hr⟩ := hopen.files hv
      obtain ⟨r, hr⟩ := Multiset.exists_cons_of_mem hr
      obtain ⟨F', hv', rfl⟩ := wpBy_ok (fwp_unref (F := F) (E := fun _ _ => True)
        (Q := fun _ F' => F' = F.withRefs r) (h.calm.mono (Multiset.zero_le r)) hr rfl) hv hrun
      exact ⟨_, hv', (Files.Stays.refl h).goes h nofun⟩

theorem TreeRun.grown (h : TreeRun dev fs) : ∃ F, Shows fs.vol F ∧ F.Grown := by
  induction h with
  | init hrun =>
      obtain ⟨v₁, hb⟩ := wpOn_ok (filesysInit_spec dev) hrun
      exact ⟨_, hb.shows, hb.grown⟩
  | step _ hstep ih =>
      obtain ⟨F, hv, hg⟩ := ih
      obtain ⟨F', hv', hgoes⟩ := hstep.goes hv hg
      exact ⟨F', hv', hgoes.grown⟩

end CS162.Fs
