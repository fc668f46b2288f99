/-
# `CS162.Fs.TreeShape` — what the calls make of the tree

The directories are a tree in every state that the calls lead to: one path goes down from the root to
each inode that names lead to (`TreeShape.path`), and the entries `.` and `..` of a directory are what
they should be.  They are missing only when the disk is full.

A call that fails leaves every entry as it was.  One that succeeds adds one name, for an inode that had
none: it is the inode of the path, or, if `mkdir` is called with the path of a directory, it is in that
directory, under the name of the directory itself (`mkdir_one_more`).  `filesys_remove` takes one name
away (`remove_one_less`).
-/
import CS162.Fs.Lookup

namespace CS162.Fs

open Bytes Wp Hierarchy

variable {F F' : Files} {d s t cwd : UInt32} {c path : List UInt8} {part : NameBuf} {size : Int32}
  {x : Bool}
  {v v' : Vol} {fs fs' : FsState} {dev : BlockDev}

/-! ## The shape -/

/-- The directories are a tree.  The root directory has no entries `.` and `..` of its own; files and
directories of these names can be made in it, and are in it like any others. -/
structure TreeShape (v : Vol) : Prop where
  path : ∀ t, v.Reached t →
    ∃! cs, Descends dot dotDot cs ∧ v.hierarchy.resolve rootDirSector cs = some t
  own : ∀ t x, v.Reached t → t ≠ rootDirSector → v.hierarchy.child t dot = some x → x = t
  up : ∀ cs c t x, Descends dot dotDot (cs ++ [c]) →
    v.hierarchy.resolve rootDirSector (cs ++ [c]) = some t →
    v.hierarchy.child t dotDot = some x → v.hierarchy.resolve rootDirSector cs = some x
  whole : 0 < freeCnt v.freeMap → ∀ t, v.Reached t → t ≠ rootDirSector →
    v.hierarchy.isDir t = true → v.hierarchy.child t dot ≠ none ∧ v.hierarchy.child t dotDot ≠ none

/-- A hierarchy that is grown has the shape of a tree. -/
theorem Files.Grown.shape (h : F.Grown) (hv : Shows v F) : TreeShape v := by
  have hres : ∀ cs, v.hierarchy.resolve rootDirSector cs = F.hierarchy.resolve rootDirSector cs :=
    hv.resolve_eq h h.live_root
  refine ⟨fun t ht => ?_, fun t x ht hne hx => ?_, fun cs c t x hp ht hx => ?_,
    fun hfree t ht hne hdir => ?_⟩
  · obtain ⟨cs, hcs⟩ := ht
    rw [hres] at hcs
    obtain ⟨as, hp, has⟩ := h.rooted.descent hcs
    refine ⟨as, ⟨hp, (hres as).trans has⟩, ?_⟩
    rintro bs ⟨hp', hbs⟩
    exact h.rooted.descent_unique hp' hp ((hres bs).symm.trans hbs) has
  · obtain ⟨cs, hcs⟩ := ht
    rw [hres] at hcs
    rw [hv.child_eq (h.resolve_live h.isDir hcs)] at hx
    exact h.rooted.here_own t x hne hx
  · rw [hres] at ht ⊢
    obtain ⟨u, has, hu⟩ := Hierarchy.resolve_last ht
    rw [hv.child_eq (h.resolve_live h.isDir ht)] at hx
    obtain rfl := h.rooted.up_from u c t x hu (hp.last has) hx
    exact has
  · obtain ⟨cs, hcs⟩ := ht
    rw [hres] at hcs
    have hl := h.resolve_live h.isDir hcs
    rw [hv.isDir_eq hl] at hdir
    rw [hv.child_eq hl]
    obtain ⟨u, c, hu⟩ := (Hierarchy.resolve_named hcs).resolve_left hne
    exact h.complete (hv.freeMap ▸ hfree) u c t hu hdir hne

/-- The directories are a tree in every state that the calls lead to, whatever files and directories were
made in the root directory under the names `.` and `..`. -/
theorem tree_shape (hrun : TreeRun dev fs) : TreeShape fs.vol := by
  obtain ⟨F, hv, h⟩ := hrun.grown
  exact h.shape hv

/-- `/a` after `mkdir ("/a")`: one path goes down to it, `.` leads to it and `..` to the root. -/
theorem tree_shape_small : ∃ fs s,
    mkdir (some rootDirSector) pathA DirEntry.zero.name roomyFs = .ok true fs ∧
    fs.vol.hierarchy.resolve rootDirSector [[97]] = some s ∧
    (∀ cs, Descends dot dotDot cs → fs.vol.hierarchy.resolve rootDirSector cs = some s → cs = [[97]]) ∧
    fs.vol.hierarchy.child s dot = some s ∧ fs.vol.hierarchy.child s dotDot = some rootDirSector := by
  obtain ⟨fs, F, s, hcall, h⟩ := roomyFs_made
  obtain ⟨dev, hrun⟩ := h.run
  have hshape := tree_shape hrun
  have hres : fs.vol.hierarchy.resolve rootDirSector [[97]] = some s := h.resolve
  have hdown : Descends dot dotDot [([97] : List UInt8)] := fun c hc => by cases hc
  have hreach : fs.vol.Reached s := ⟨_, hres⟩
  have hfree : 0 < freeCnt fs.vol.freeMap := by
    rw [h.shows.freeMap]
    exact h.free
  obtain ⟨hdot, hup⟩ := hshape.whole hfree s hreach h.ne_root h.vol_isDir
  obtain ⟨x, hx⟩ := Option.ne_none_iff_exists'.mp hdot
  obtain ⟨y, hy⟩ := Option.ne_none_iff_exists'.mp hup
  obtain rfl := hshape.own s x hreach h.ne_root hx
  obtain rfl := Option.some.inj (hshape.up [] [97] x y hdown hres hy)
  exact ⟨fs, x, hcall, hres,
    fun cs hp hcs => (hshape.path x hreach).unique ⟨hp, hcs⟩ ⟨hdown, hres⟩, hx, hy⟩

/-! ## Growth -/

/-- The entries are as they were. -/
def SameTree (v v' : Vol) : Prop :=
  ∀ t, v.Reached t → v'.hierarchy.isDir t = v.hierarchy.isDir t ∧
  v'.hierarchy.child t = v.hierarchy.child t

/-- The directory `d` has one name more, for an inode `s` that no name led to. -/
structure OneMore (v v' : Vol) (d : UInt32) (c : List UInt8) (s : UInt32) : Prop where
  reached : v.Reached d
  new : v.hierarchy.child d c = none
  fresh : ¬ v.Reached s
  name : v'.hierarchy.child d c = some s
  others : ∀ t a, v.Reached t → ¬ (t = d ∧ a = c) → v'.hierarchy.child t a = v.hierarchy.child t a
  isDir : ∀ t, v.Reached t → v'.hierarchy.isDir t = v.hierarchy.isDir t
  own : ∀ a t, v'.hierarchy.child s a = some t → a = dot ∧ t = s ∨ a = dotDot ∧ t = d

theorem Shows.reached (hv : Shows v F) (h : F.Grown) (ht : v.Reached t) : F.Live t := by
  obtain ⟨cs, hcs⟩ := ht
  rw [hv.resolve_eq h h.live_root] at hcs
  exact h.resolve_live h.isDir hcs

theorem Files.Stays.sameTree {w : Option UInt32} (hs : F.Stays w F') (h : F.Grown) (hv : Shows v F)
    (hv' : Shows v' F') :
    SameTree v v' := by
  have hk := hs.keeps h
  intro t ht
  have hl := hv.reached h ht
  rw [hv.isDir_eq hl, hv.child_eq hl, hv'.isDir_eq (hk.live_mono t hl), hv'.child_eq (hk.live_mono t hl)]
  exact ⟨hk.isDir t hl, hk.child t hl⟩

/-- One more name, and everything else as it was. -/
theorem Files.Gains.oneMore (hg : F.Gains d s c F') (h : F.Grown) (hdir : F.IsDir d)
    (hnamed : d = rootDirSector ∨ ∃ u a, F.names u a = some d) (hd : v.Reached d) (hv : Shows v F)
    (hv' : Shows v' F') : OneMore v v' d c s := by
  have ha := hg.adds h hdir hnamed
  have hl : ∀ {t}, v.Reached t → F.Live t ∧ F'.Live t ∧ t ≠ s := by
    intro t ht
    have hl := hv.reached h ht
    exact ⟨hl, (ha.live_iff t).mpr (.inr hl), fun hts => ha.fresh (hts ▸ hl)⟩
  have hs : F'.Live s := (ha.live_iff s).mpr (.inl rfl)
  refine ⟨hd, ?_, fun hs => (hl hs).2.2 rfl, ?_, fun t a ht hda => ?_, fun t ht => ?_, fun a t hat => ?_⟩
  · rw [hv.child_eq (hl hd).1]
    exact ha.new
  · rw [hv'.child_eq (hl hd).2.1]
    exact ha.child_d
  · obtain ⟨h1, h2, h3⟩ := hl ht
    rw [hv.child_eq h1, hv'.child_eq h2]
    exact ha.child_other t a h3 hda
  · obtain ⟨h1, h2, h3⟩ := hl ht
    rw [hv.isDir_eq h1, hv'.isDir_eq h2]
    exact ha.isDir t h3
  · rw [hv'.child_eq hs] at hat
    exact (ha.child_s a t hat).2

theorem Vol.Reached.append {d : UInt32} (hd : v.Reached d) {as : List (List UInt8)}
    (ht : v.hierarchy.resolve d as = some t) : v.Reached t := by
  obtain ⟨cs, hcs⟩ := hd
  refine ⟨cs ++ as, ?_⟩
  rw [Hierarchy.resolve_append, hcs]
  exact ht

theorem Vol.resolve_from (v : Vol) (hstart : startDir (some cwd) path = some t) :
    v.resolve cwd path = v.hierarchy.resolve t (components path) := by
  unfold Vol.resolve
  unfold startDir at hstart
  congr 1
  split at hstart
  · next h1 => rw [if_pos h1]; exact Option.some.inj hstart
  · next h1 => rw [if_neg h1]; exact Option.some.inj hstart

/-- The new name leads to the new inode. -/
theorem Files.Gains.leads (hg : F.Gains d s c F') (h : F.Grown) (hdir : F.IsDir d)
    (hnamed : d = rootDirSector ∨ ∃ u a, F.names u a = some d) (ht : F.IsDir t) {as : List (List UInt8)}
    (has : F.hierarchy.resolve t as = some d) : F'.hierarchy.resolve t (as ++ [c]) = some s := by
  have ha := hg.adds h hdir hnamed
  have hold := ha.resolve_old h.rooted
    (fun hs => ha.fresh (hs ▸ h.rooted.dir_live t (decide_eq_true ht))) has
  have hdir' : F'.IsDir d := (hg.isDir_iff (ha.ne h.rooted)).mpr hdir
  rw [Files.resolve_concat hold hdir']
  exact (Files.names_dir hdir' c).symm.trans ha.child_d

/-- What a call does with the entries, in terms of the path. -/
theorem Files.Outcome.tree {dir : Bool} (ho : F.Outcome (some cwd) path part dir x F') (h : F.Grown)
    (hc : LiveCwd v cwd) (hv : Shows v F) (hv' : Shows v' F') (hne : dir = true → components path ≠ []) :
    x = false ∧ SameTree v v' ∨ x = true ∧ ∃ d c s, OneMore v v' d c s ∧ v'.hierarchy.isDir s = dir ∧
      (components path).getLast? = some c ∧ (dir = true ∧ v.resolve cwd path = some d ∨
        v.resolve cwd path = none ∧ v'.resolve cwd path = some s) := by
  have hnamed : ∀ d b, F.followPath (some cwd) path = some (d, b) →
      d = rootDirSector ∨ ∃ u a, F.names u a = some d := fun _ _ => h.followed hc hv
  have hgrown := ho.grown h hnamed
  cases ho with
  | stays hs => exact .inl ⟨rfl, hs.sameTree h hv hv'⟩
  | @gains _ d s b hf hb hdir hg hs =>
      refine .inr ⟨rfl, ?_⟩
      have ha := hg.adds h hdir (hnamed d b hf)
      have hnil : path ≠ [] := by
        rintro rfl
        cases hf
      obtain ⟨start, hstart, hreach, hhead, hres, hfollow⟩ := h.leads_path hc hv hnil
      have hisDir : v'.hierarchy.isDir s = dir := by
        rw [hv'.isDir_eq ((ha.live_iff s).mpr (.inl rfl))]
        exact Bool.eq_iff_iff.mpr (decide_eq_true_iff.trans hs)
      have hlive : ∀ {u}, F.Live u → v.hierarchy.resolve u = F.hierarchy.resolve u :=
        fun hu => funext (hv.resolve_eq h hu)
      have hl : F.Live start := h.rooted.dir_live start (decide_eq_true hstart)
      have hleads := h.leads (components path) hstart
      rw [← hfollow, hf] at hleads
      cases hleads with
      | dir ht _ _ =>
          have htrue : dir = true := by
            cases dir with
            | false => cases hb rfl
            | true => rfl
          obtain ⟨c, hc'⟩ : ∃ c, (components path).getLast? = some c :=
            ⟨_, List.getLast?_eq_some_getLast (hne htrue)⟩
          rw [lastPart_eq hc'] at hg
          exact ⟨d, c, s, hg.oneMore h hdir (hnamed d true hf)
            (hreach.append ((congrFun (hlive hl) _).trans ht))
            hv hv', hisDir, hc', .inl ⟨htrue, hres.trans ht⟩⟩
      | @last _ c as hcs has _ hsub =>
          have hc' : (components path).getLast? = some c := by
            rw [hcs]
            exact List.getLast?_concat
          rw [lastPart_eq hc'] at hg ha
          refine ⟨d, c, s, hg.oneMore h hdir (hnamed d false hf)
            (hreach.append ((congrFun (hlive hl) _).trans has)) hv hv', hisDir, hc', .inr ⟨?_, ?_⟩⟩
          · rw [hres, hcs, Files.resolve_concat has hdir]
            exact (Files.names_dir hdir c).symm.trans ha.new
          · rw [Vol.resolve_from v' hhead, hv'.resolve_eq hgrown ((ha.live_iff start).mpr (.inr hl)), hcs]
            exact hg.leads h hdir (hnamed d false hf) hstart has

/-- A `filesys_create` that fails leaves every entry as it was.  One that succeeds adds the last component
to the directory that the others lead to, for a file that no name led to; the path stood for nothing, and
stands for that file now. -/
theorem create_one_more (hrun : TreeRun dev fs) (hc : LiveCwd fs.vol cwd) (hz : 0 ∉ path)
    (hcall : filesysCreate (some cwd) path size part fs = .ok x fs') :
    x = false ∧ SameTree fs.vol fs'.vol ∨ x = true ∧ ∃ d c s, OneMore fs.vol fs'.vol d c s ∧
      fs'.vol.hierarchy.isDir s = false ∧ (components path).getLast? = some c ∧
      fs.vol.resolve cwd path = none ∧ fs'.vol.resolve cwd path = some s := by
  obtain ⟨F, hv, h⟩ := hrun.grown
  obtain ⟨hdir, hr, -⟩ := hc.files hv h
  have hhome := h.home hdir hr
  obtain ⟨F', hv', hdone⟩ := wpBy_ok (create_spec (E := fun _ _ => True) _ _ hhome hz (fun _ _ => trivial)
    (fun _ _ _ => ⟨trivial, trivial⟩) fun _ _ _ _ _ => .inr fun _ => trivial) hv hcall
  rcases (hdone.outcome h hhome).tree h hc hv hv' (fun hno => by cases hno) with
    hfail | ⟨rfl, d, c, s, hone, hfile, hlast, ⟨hno, -⟩ | ⟨hbefore, hafter⟩⟩
  · exact .inl hfail
  · cases hno
  · exact .inr ⟨rfl, d, c, s, hone, hfile, hlast, hbefore, hafter⟩

/-- `mkdir` likewise, on a path with a component, with one difference: on the path of a directory it does
not fail but adds the new one inside of that directory, under the name that the directory itself has. -/
theorem mkdir_one_more (hrun : TreeRun dev fs) (hc : LiveCwd fs.vol cwd) (hz : 0 ∉ path)
    (hne : components path ≠ []) (hcall : mkdir (some cwd) path part fs = .ok x fs') :
    x = false ∧ SameTree fs.vol fs'.vol ∨ x = true ∧ ∃ d c s, OneMore fs.vol fs'.vol d c s ∧
      fs'.vol.hierarchy.isDir s = true ∧ (components path).getLast? = some c ∧
      (fs.vol.resolve cwd path = some d ∨
        fs.vol.resolve cwd path = none ∧ fs'.vol.resolve cwd path = some s) := by
  obtain ⟨F, hv, h⟩ := hrun.grown
  obtain ⟨hdir, hr, -⟩ := hc.files hv h
  have hhome := h.home hdir hr
  obtain ⟨F', hv', hdone⟩ := wpBy_ok (mkdir_spec (E := fun _ _ => True) _ hhome hz (fun _ _ _ => trivial)
    (fun _ _ => trivial) fun _ _ _ _ _ _ _ => .inr fun _ => trivial) hv hcall
  rcases (hdone.outcome h hhome).tree h hc hv hv' (fun _ => hne) with
    hfail | ⟨rfl, d, c, s, hone, hdir, hlast, hpath⟩
  · exact .inl hfail
  · exact .inr ⟨rfl, d, c, s, hone, hdir, hlast, hpath.imp_left And.right⟩

/-- The file `/a` on the new disk. -/
theorem create_one_more_small : ∃ fs',
    filesysCreate (some rootDirSector) pathA 0 DirEntry.zero.name smallFs = .ok true fs' ∧
      ∃ d c s, OneMore smallFs.vol fs'.vol d c s ∧ fs'.vol.hierarchy.isDir s = false ∧
        (components pathA).getLast? = some c ∧ smallFs.vol.resolve rootDirSector pathA = none ∧
        fs'.vol.resolve rootDirSector pathA = some s := by
  obtain ⟨v₁, hb⟩ := smallFs_booted
  obtain ⟨fs', -, hcall, -⟩ := hb.create_first (by decide +kernel) DirEntry.zero.name
  rcases create_one_more smallFs_tree smallFs_root (by decide) hcall with ⟨hno, -⟩ | ⟨-, hone⟩
  · cases hno
  · exact ⟨fs', hcall, hone⟩

/-- The directory `/a` on the new disk. -/
theorem mkdir_one_more_small : ∃ fs',
    mkdir (some rootDirSector) pathA DirEntry.zero.name smallFs = .ok true fs' ∧
      ∃ d c s, OneMore smallFs.vol fs'.vol d c s ∧ fs'.vol.hierarchy.isDir s = true ∧
        (components pathA).getLast? = some c ∧ (smallFs.vol.resolve rootDirSector pathA = some d ∨
          smallFs.vol.resolve rootDirSector pathA = none ∧
            fs'.vol.resolve rootDirSector pathA = some s) := by
  obtain ⟨v₁, hb⟩ := smallFs_booted
  obtain ⟨fs', -, hcall, -⟩ := hb.mkdir_first (by decide +kernel) DirEntry.zero.name
  rcases mkdir_one_more smallFs_tree smallFs_root (by decide) (by decide) hcall with
    ⟨hno, -⟩ | ⟨-, hone⟩
  · cases hno
  · exact ⟨fs', hcall, hone⟩

/-! ## Removal -/

/-- The directory `d` has lost the name `c`.  What the name stood for may be gone. -/
structure OneLess (v v' : Vol) (d : UInt32) (c : List UInt8) : Prop where
  reached : v.Reached d
  named : v.hierarchy.child d c ≠ none
  gone : v'.hierarchy.child d c = none
  others : ∀ t a, v.Reached t → v.hierarchy.child d c ≠ some t → ¬ (t = d ∧ a = c) →
    v'.hierarchy.child t a = v.hierarchy.child t a

theorem Node.target_erased {n n' : Node} {k : Nat} (hd : n.table.Distinct) (hk : n.find c = some k)
    (ht : n'.table = Function.update n.table k none) (a : List UInt8) :
    n'.target a = if a = c then none else n.target a := by
  have hstep : Slots.Step (fun _ => True) ⟨n.table, 0⟩ (.drop c) ⟨n'.table, 0⟩ := by
    rw [ht]
    exact .drop (Node.find_some hk)
  refine Option.ext fun s => ?_
  rw [Node.target_iff (hstep.distinct hd), hstep.has_iff hd]
  by_cases hac : a = c
  · have habout : (Slots.Event.drop c : Slots.Event (List UInt8) UInt32).about a = true :=
      decide_eq_true hac.symm
    rw [if_pos hac, if_pos habout]
    exact iff_of_false (fun h => by cases h) fun h => by cases h
  · have habout : ¬ (Slots.Event.drop c : Slots.Event (List UInt8) UInt32).about a = true :=
      fun h => hac (of_decide_eq_true h).symm
    rw [if_neg hac, if_neg habout, Node.target_iff hd]

theorem Files.names_congr (h : F'.node t = F.node t) (a : List UInt8) : F'.names t a = F.names t a := by
  have hdir : F'.IsDir t ↔ F.IsDir t := by
    unfold Files.IsDir
    rw [h]
  have hchild : F'.child t a = F.child t a := by
    unfold Files.child
    rw [h]
  exact if_congr hdir hchild rfl

/-- One name less, and everything else as it was. -/
theorem Files.Unnamed.oneLess (hu : F.Unnamed d c F') (h : F.Grown) (hdir : F.IsDir d) (hd : v.Reached d)
    (hv : Shows v F) (hv' : Shows v' F') : OneLess v v' d c := by
  obtain ⟨⟨n, n', k, hn, hk, hn', htable, hsame⟩, hothers⟩ := hu
  have hne := hdir.node hn
  have hl : F.Live d := ⟨n, hn⟩
  have hl' : F'.Live d := ⟨n', hn'⟩
  have hdir' : F'.IsDir d := ⟨n', hn', hsame ▸ hne⟩
  have hchild : ∀ a, v.hierarchy.child d a = n.target a := fun a =>
    (congrFun (hv.child_eq hl) a).trans ((Files.names_dir hdir a).trans (Files.child_node hn))
  have hchild' : ∀ a, v'.hierarchy.child d a = n'.target a := fun a =>
    (congrFun (hv'.child_eq hl') a).trans ((Files.names_dir hdir' a).trans (Files.child_node hn'))
  have herased := Node.target_erased (h.distinct d n hn hne) hk htable
  refine ⟨hd, ?_, ?_, fun t a ht hnot hda => ?_⟩
  · rw [hchild, Node.target, hk]
    exact Option.some_ne_none _
  · rw [hchild', herased, if_pos rfl]
  · by_cases htd : t = d
    · subst htd
      rw [hchild', hchild, herased, if_neg fun hac => hda ⟨rfl, hac⟩]
    · rw [hchild, ← Files.child_node hn] at hnot
      have hnode := hothers t htd hnot
      have hlt := hv.reached h ht
      have hlt' : F'.Live t := by
        unfold Files.Live
        rw [hnode]
        exact hlt
      rw [hv.child_eq hlt, hv'.child_eq hlt']
      exact Files.names_congr hnode a

/-- The name is taken out of the directory that the others lead to, when it is a plain one. -/
theorem Files.Grown.removes_from {b : Bool} {as : List (List UInt8)} (h : F.Grown)
    (hl : Leads F s cs (some (t, b))) (hcs : cs = as ++ [c]) (hplain : Plain dot dotDot c)
    (hp : F.removesFrom t b = some d) : F.hierarchy.resolve s as = some d := by
  cases hl with
  | last hsplit hres _ _ =>
      obtain ⟨rfl, -⟩ := List.append_inj' (hcs.symm.trans hsplit) rfl
      cases hp
      exact hres
  | dir hres ht _ =>
      rw [hcs] at hres
      obtain ⟨u, hu, hname⟩ := Hierarchy.resolve_last hres
      unfold Files.removesFrom at hp
      rw [if_pos rfl] at hp
      split_ifs at hp with hroot
      obtain rfl := h.rooted.up_from u c t d hname (.inr hplain) ((Files.names_dir ht dotDot).trans hp)
      exact hu

/-- `filesys_remove` always returns.  When it returns true it has taken the last name of the path out of
the directory that the others lead to, and no other entry has changed but those of what the name stood
for; when it returns false none has.  Only plain names are spoken of: on a path that ends in `.` or `..`
the directory above loses its entry of that name. -/
theorem remove_one_less (hrun : TreeRun dev fs) (hc : LiveCwd fs.vol cwd) (hz : 0 ∉ path)
    (hlast : (components path).getLast? = some c) (hplain : Plain dot dotDot c) :
    ∃ x w fs', filesysRemove (some cwd) path part fs = .ok (x, w) fs' ∧
      (x = false ∧ SameTree fs.vol fs'.vol ∨ x = true ∧ ∃ s d, startDir (some cwd) path = some s ∧
        fs.vol.hierarchy.resolve s (components path).dropLast = some d ∧ OneLess fs.vol fs'.vol d c) := by
  obtain ⟨F, hv, h⟩ := hrun.grown
  obtain ⟨hdir, hr, -⟩ := hc.files hv h
  have hhome := h.home hdir hr
  have hnil : path ≠ [] := by
    rintro rfl
    cases hlast
  obtain ⟨s, hs, hreach, hstart, -, hfollow⟩ := h.leads_path hc hv hnil
  have hup : ∀ t p, F.IsDir t → t ≠ rootDirSector → F.child t dotDot = some p → F.IsDir p :=
    fun t p ht hne hp => of_decide_eq_true (h.rooted.back t p hne ((Files.names_dir ht _).trans hp)).1
  have hfrom : ∀ t b p, F.followPath (some cwd) path = some (t, b) → F.removesFrom t b = some p →
      F.IsDir p := by
    intro t b p hf hp
    have ht := hhome.isDir hf
    unfold Files.removesFrom at hp
    split_ifs at hp with hb hroot
    · exact hup t p ht hroot hp
    · cases hp
      exact ht
  have hself : ∀ t b p, F.followPath (some cwd) path = some (t, b) → F.removesFrom t b = some p →
      F.child p (lastPart (parts path) part) ≠ some p := by
    intro t b p hf hp hchild
    rw [lastPart_eq hlast] at hchild
    have hdirp := hfrom t b p hf hp
    exact h.acyclic p (.single ⟨c, hplain, (Files.names_dir hdirp c).trans hchild, decide_eq_true hdirp⟩)
  rcases wpBy_run (remove_spec (E := fun _ _ => False) part hhome h.acyclic_below hz h.calm
    (fun t p hf hne hp => hup t p (hhome.isDir hf) hne hp) hself) hv with
    ⟨⟨x, w⟩, fs', F', hcall, hv', hrem⟩ | ⟨_, _, -, hno⟩
  swap
  · exact hno.elim
  have hsame : ∀ r, F' = F.withRefs r → SameTree fs.vol fs'.vol := by
    rintro r rfl t ht
    have hl := hv.reached h ht
    rw [hv.isDir_eq hl, hv.child_eq hl, hv'.isDir_eq hl, hv'.child_eq hl]
    exact ⟨rfl, rfl⟩
  refine ⟨x, w, fs', hcall, ?_⟩
  rw [lastPart_eq hlast] at hrem
  cases hrem with
  | lost _ => exact .inl ⟨rfl, hsame _ rfl⟩
  | nowhere _ _ => exact .inl ⟨rfl, hsame _ rfl⟩
  | kept _ _ _ => exact .inl ⟨rfl, hsame _ rfl⟩
  | @removed t d b _ hf hp hun =>
      have hdird := hfrom t b d hf hp
      have hleads := h.leads (components path) hs
      rw [← hfollow, hf] at hleads
      have hsplit : components path = (components path).dropLast ++ [c] :=
        (List.dropLast_append_getLast? c hlast).symm
      have hd : F.hierarchy.resolve s (components path).dropLast = some d :=
        h.removes_from hleads hsplit hplain hp
      have hd' : fs.vol.hierarchy.resolve s (components path).dropLast = some d :=
        (hv.resolve_eq h (h.rooted.dir_live s (decide_eq_true hs)) _).trans hd
      exact .inr ⟨rfl, s, d, hstart, hd', hun.oneLess h hdird (hreach.append hd') hv hv'⟩

end CS162.Fs
