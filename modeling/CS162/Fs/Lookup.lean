/-
# `CS162.Fs.Lookup` — one inode for a path

`chdir` goes by `Vol.resolve`.  So does `filesys_open`, but where a path leads to a directory it goes up
from there by the entry `..` and down again by the last component of the path, and that leads back only
where the last component is what the directory above calls it.  For `..` it is not (`LeadsBack`,
`open_resolves_iff`).
-/
import CS162.Fs.TreeRuns

namespace CS162.Fs

open Bytes Wp

variable {F F' : Files} {d s t cwd : UInt32} {n : Node} {c path : List UInt8} {part : NameBuf}
  {v v₁ : Vol} {fs fs' : FsState} {dev : BlockDev}

/-- `filesys_open` gives the inode of the path, and has opened it. -/
def Opens (fs : FsState) (cwd : UInt32) (path : List UInt8) (part : NameBuf) : Prop :=
  ∃ fs', filesysOpen (some cwd) path part fs = .ok (fs.vol.resolve cwd path) fs' ∧
    ∀ t, fs.vol.resolve cwd path = some t → 0 < fs'.vol.openAt t

/-- `chdir` succeeds where the path stands for a directory, and makes it the thread's own. -/
def Changes (fs : FsState) (cwd : UInt32) (path : List UInt8) (part : NameBuf) : Prop :=
  ∃ x cwd' fs', chdir (some cwd) path part fs = .ok (x, cwd') fs' ∧
    (x = true ↔ ∃ t, fs.vol.resolve cwd path = some t ∧ fs.vol.hierarchy.isDir t = true) ∧
    cwd' = if x = true then fs.vol.resolve cwd path else some cwd

/-- If the path stands for a directory then the entries that `filesys_open` takes lead back to it. -/
def LeadsBack (v : Vol) (cwd : UInt32) (path : List UInt8) : Prop :=
  ∀ t c, v.resolve cwd path = some t → v.hierarchy.isDir t = true → (components path).getLast? = some c →
    v.hierarchy.WayBack rootDirSector dot dotDot t c

/-! ## Opening -/

/-- Where a path leads to, and what it stands for. -/
theorem Files.Grown.leads_path (hc : LiveCwd v cwd) (hv : Shows v F) (h : F.Grown) (hne : path ≠ []) :
    ∃ d, F.IsDir d ∧ v.Reached d ∧ startDir (some cwd) path = some d ∧
      v.resolve cwd path = F.hierarchy.resolve d (components path) ∧
      F.followPath (some cwd) path = F.follow d (components path) := by
  have hfollow : ∀ {d}, startDir (some cwd) path = some d →
      F.followPath (some cwd) path = F.follow d (components path) := by
    intro d hd
    unfold Files.followPath
    rw [if_neg hne, hd, Option.bind_some, parts_eq_splitOn]
    rfl
  obtain ⟨hdir, -, -⟩ := hc.files hv h
  obtain ⟨n, hn, -⟩ := id hdir
  unfold Vol.resolve
  by_cases hhead : path.head? = some slash
  · rw [if_pos hhead, hv.resolve_eq h h.live_root]
    exact ⟨rootDirSector, h.isDir, ⟨[], rfl⟩, if_pos hhead, rfl, hfollow (if_pos hhead)⟩
  · rw [if_neg hhead, hv.resolve_eq h ⟨n, hn⟩]
    exact ⟨cwd, hdir, hc.reached, if_neg hhead, rfl, hfollow (if_neg hhead)⟩

theorem Files.lookedUp_last (F : Files) (d : UInt32) (c : List UInt8) :
    F.lookedUp d false c = F.child d c :=
  if_neg fun h => absurd h.1 (by decide)

/-- Looking up a part is going up or down in the hierarchy. -/
theorem Files.Grown.lookedUp_dir (h : F.Grown) (hd : F.IsDir d) (c : List UInt8) :
    F.lookedUp d true c = F.hierarchy.upDown dot dotDot d c := by
  unfold Files.lookedUp Hierarchy.upDown
  refine if_congr (and_iff_right rfl) ?_ (Files.names_dir hd c).symm
  show (F.child d dotDot).bind (F.child · c) = (F.names d dotDot).bind (F.names · c)
  rw [Files.names_dir hd]
  refine Option.bind_congr fun p hp => ?_
  by_cases hdir : F.IsDir p
  · exact (Files.names_dir hdir c).symm
  -- a file without entries
  · refine Eq.trans ?_ (if_neg hdir).symm
    cases hn : F.node p with
    | none => exact Files.child_none hn
    | some n =>
        rw [Files.child_node hn]
        refine Node.target_none fun j hj => hj.2 (h.up d p n ((Files.names_dir hd _).trans hp) hn ?_ j)
        by_contra hno
        exact hdir ⟨n, hn, hno⟩

theorem components_ne_nil (hne : components path ≠ []) : path ≠ [] ∧ path ≠ [slash] := by
  constructor
  · rintro rfl
    exact hne rfl
  · rintro rfl
    exact hne rfl

/-- What is found in the end is what the components stand for. -/
theorem Files.Grown.found_iff (h : F.Grown) (hd : F.IsDir d) {cs : List (List UInt8)}
    (hlast : cs.getLast? = some c) :
    ((F.follow d cs).bind fun y => F.lookedUp y.1 y.2 c) = F.hierarchy.resolve d cs ↔
      ∀ t, F.hierarchy.resolve d cs = some t → F.IsDir t →
        F.hierarchy.WayBack rootDirSector dot dotDot t c := by
  have hleads := h.leads cs hd
  generalize F.follow d cs = y at hleads
  cases hleads with
  | nowhere hres =>
      rw [hres]
      exact iff_of_true rfl fun t ht => by cases ht
  | @dir t hres htdir hnamed =>
      obtain ⟨u, hu⟩ := hnamed c hlast
      have hback := Hierarchy.up_then_down h.rooted h.acyclic (by decide) hu (decide_eq_true htdir)
      rw [Option.bind_some, h.lookedUp_dir htdir, hres, hback]
      constructor
      · rintro hw x hx -
        obtain rfl := Option.some.inj hx
        exact hw
      · exact fun hall => hall t rfl htdir
  | @last t a as hcs has htdir hsub =>
      subst hcs
      obtain rfl : a = c := Option.some.inj (List.getLast?_concat.symm.trans hlast)
      rw [Option.bind_some, Files.lookedUp_last, Files.resolve_concat has htdir]
      refine iff_of_true rfl fun x hx hxdir => ?_
      cases hsub.symm.trans (F.subdir_some hx hxdir)

/-- The directory that the entry `..` names can be searched. -/
theorem Files.Grown.up_isDir {p : UInt32} (h : F.Grown) (hc : F.names s c = some t)
    (hback : F.hierarchy.WayBack rootDirSector dot dotDot t c) (hp : F.names t dotDot = some p) :
    F.IsDir p := by
  by_cases htr : t = rootDirSector
  · subst htr
    obtain ⟨-, rfl⟩ := h.rooted.root_named s c hc
    rcases hback with ⟨hno, -⟩ | ⟨-, hno, -⟩ | ⟨-, q, hq, hsome, -⟩
    · exact absurd hno (by decide)
    · exact absurd rfl hno
    · obtain rfl := Option.some.inj (hp.symm.trans hq)
      obtain ⟨x, hx⟩ := Option.ne_none_iff_exists'.mp hsome
      exact of_decide_eq_true (h.rooted.leaf p dotDot x hx)
  · exact of_decide_eq_true (h.rooted.back t p htr hp).1

/-- That the last part leads back, in terms of the hierarchy. -/
theorem Files.Grown.leadsBack_iff (h : F.Grown) (hv : Shows v F) (hd : F.IsDir d)
    (hres : v.resolve cwd path = F.hierarchy.resolve d (components path))
    (hlast : (components path).getLast? = some c) : LeadsBack v cwd path ↔
      ∀ t, F.hierarchy.resolve d (components path) = some t → F.IsDir t →
        F.hierarchy.WayBack rootDirSector dot dotDot t c := by
  unfold LeadsBack
  rw [hres]
  refine forall_congr' fun t => ?_
  have hsame : F.hierarchy.resolve d (components path) = some t →
      (v.hierarchy.isDir t = true ↔ F.IsDir t) ∧ (v.hierarchy.WayBack rootDirSector dot dotDot t c ↔
        F.hierarchy.WayBack rootDirSector dot dotDot t c) := by
    intro ht
    have hlive := h.resolve_live hd ht
    rw [hv.isDir_eq hlive]
    exact ⟨decide_eq_true_iff, Hierarchy.wayBack_congr h.rooted (fun _ => hv.child_eq) hlive⟩
  constructor
  · intro hw ht htdir
    exact (hsame ht).2.mp (hw c ht ((hsame ht).1.mpr htdir) hlast)
  · intro hw a ht htdir ha
    obtain rfl := Option.some.inj (ha.symm.trans hlast)
    exact (hsame ht).2.mpr (hw ht ((hsame ht).1.mp htdir))

theorem lastPart_eq (hlast : (components path).getLast? = some c) (part : NameBuf) :
    lastPart (parts path) part = c := by
  unfold lastPart
  rw [parts_eq_splitOn]
  exact congrArg (fun o => Option.getD o (cstr part)) hlast

/-- `filesys_open` opens what the path resolves to. -/
theorem Files.Grown.opened (h : F.Grown) (hv : Shows fs.vol F) (hc : LiveCwd fs.vol cwd) (hz : 0 ∉ path)
    (hne : components path ≠ []) (part : NameBuf) (hback : LeadsBack fs.vol cwd path) :
    ∃ fs' r, filesysOpen (some cwd) path part fs = .ok (fs.vol.resolve cwd path) fs' ∧
      Shows fs'.vol (F.withRefs r) ∧ ∀ t, fs.vol.resolve cwd path = some t → t ∈ r := by
  obtain ⟨hdir, hr, -⟩ := hc.files hv h
  obtain ⟨hnil, hslash⟩ := components_ne_nil hne
  obtain ⟨d, hd, -, -, hres, hfollow⟩ := h.leads_path hc hv hnil
  obtain ⟨c, hlast⟩ : ∃ c, (components path).getLast? = some c := ⟨_, List.getLast?_eq_some_getLast hne⟩
  have hall := (h.leadsBack_iff hv hd hres hlast).mp hback
  have hup : ∀ t p, F.followPath (some cwd) path = some (t, true) → F.child t dotDot = some p →
      F.Searched (fun _ _ => False) p := by
    intro t p hf hp
    have hleads := h.leads (components path) hd
    rw [← hfollow, hf] at hleads
    cases hleads with
    | dir hres htdir hnamed =>
        obtain ⟨u, hu⟩ := hnamed c hlast
        exact .inl (h.up_isDir hu (hall t hres htdir) ((Files.names_dir htdir _).trans hp))
  rcases wpBy_run (open_spec (E := fun _ _ => False) part (h.home hdir hr) h.acyclic_below hz
    (startDir_some path) hslash hup) hv with ⟨x, fs', -, hopen, hv', hx, r, rfl, hin⟩ | ⟨_, _, -, hno⟩
  · rw [lastPart_eq hlast, hfollow, (h.found_iff hd hlast).mpr hall, ← hres] at hx
    subst hx
    exact ⟨fs', r, hopen, hv', hin⟩
  · exact hno.elim

theorem Files.Grown.opens (h : F.Grown) (hv : Shows fs.vol F) (hc : LiveCwd fs.vol cwd) (hz : 0 ∉ path)
    (hne : components path ≠ []) (part : NameBuf) (hback : LeadsBack fs.vol cwd path) :
    Opens fs cwd path part := by
  obtain ⟨fs', r, hopen, hv', hin⟩ := h.opened hv hc hz hne part hback
  refine ⟨fs', hopen, fun t ht => (IsOpen.of_mem hv' (hin t ht)).2⟩

/-- `filesys_open` opens the inode that the path leads to, or fails where it leads to none, if and only
if the entries lead back: the second lookup, in the directory that `..` names, has to come to the
directory that the path led to. -/
theorem open_resolves_iff (hrun : TreeRun dev fs) (hc : LiveCwd fs.vol cwd) (hz : 0 ∉ path)
    (hne : components path ≠ []) (part : NameBuf) :
    Opens fs cwd path part ↔ LeadsBack fs.vol cwd path := by
  obtain ⟨F, hv, h⟩ := hrun.grown
  refine ⟨?_, h.opens hv hc hz hne part⟩
  rintro ⟨fs', hopen, -⟩
  obtain ⟨hdir, hr, -⟩ := hc.files hv h
  have hhome := h.home hdir hr
  obtain ⟨hnil, hslash⟩ := components_ne_nil hne
  obtain ⟨d, hd, -, -, hres, hfollow⟩ := h.leads_path hc hv hnil
  obtain ⟨c, hlast⟩ : ∃ c, (components path).getLast? = some c := ⟨_, List.getLast?_eq_some_getLast hne⟩
  rw [h.leadsBack_iff hv hd hres hlast, ← h.found_iff hd hlast, ← hfollow]
  obtain ⟨-, -, hx, -⟩ := wpBy_ok (open_spec (E := fun _ _ => True) part hhome h.acyclic_below hz
    (startDir_some path) hslash fun t p hf hp => h.searched (hhome.isDir hf) hp) hv hopen
  rw [lastPart_eq hlast] at hx
  exact hx.symm.trans hres

theorem smallFs_tree : TreeRun smallDisk smallFs := .init (run_of_returnedValue (by decide +kernel))

theorem Booted.liveCwd (h : Booted v₁ v) : LiveCwd v rootDirSector := by
  have hlive := h.grown.live_root
  refine ⟨⟨[], rfl⟩, ?_, (h.shows.mem_refs hlive).mpr (h.home.cwd rootDirSector rfl).2⟩
  rw [h.shows.isDir_eq hlive]
  exact decide_eq_true h.grown.isDir

theorem smallFs_root : LiveCwd smallFs.vol rootDirSector := by
  obtain ⟨v₁, hb⟩ := smallFs_booted
  exact hb.liveCwd

/-- A disk on which the directory `/a` has been made, in sector `s`. -/
structure Made (fs : FsState) (F : Files) (s : UInt32) : Prop where
  shows : Shows fs.vol F
  grown : F.Grown
  run : ∃ dev, TreeRun dev fs
  root : LiveCwd fs.vol rootDirSector
  free : 0 < freeCnt F.freeMap
  name : F.names rootDirSector [97] = some s
  isDir : F.IsDir s

/-- With four free sectors one is left. -/
theorem Booted.made (hb : Booted v₁ fs.vol) (hrun : TreeRun dev fs) (hfree : 4 ≤ freeCnt fs.vol.freeMap)
    (part : NameBuf) :
    ∃ fs' F s, mkdir (some rootDirSector) pathA part fs = .ok true fs' ∧ Made fs' F s := by
  obtain ⟨fs', F, hcall, hv, hdone⟩ := hb.mkdir_first (Nat.le_of_add_left_le hfree) part
  have hroot := rootFiles_node fs.vol
  obtain ⟨hfollow, -⟩ := followPath_name hroot hb.root_len (some rootDirSector) part
  have hgrown : F.Grown := ((hdone.outcome hb.grown hb.home).goes hb.grown hb.liveCwd hb.shows).grown
  have hleft : 0 < freeCnt F.freeMap ∧ rootDirSector ∈ F.refs := by
    cases hdone with
    | @tried d _ _ n F₁ hf hn hin =>
        obtain rfl := (Prod.mk.inj (Option.some.inj (hfollow.symm.trans hf))).1
        obtain rfl := Option.some.inj (hroot.symm.trans hn)
        have href := (hb.home.cwd rootDirSector rfl).2
        cases hin with
        | @done s p q m b e sv _ _ ht _ _ _ _ _ _ _ _ htaken hfilled =>
            have hall : freeCnt fs.vol.freeMap = freeCnt m + sectors 0 + 1 := ht.free
            have h0 : sectors 0 = 0 := by decide
            rw [Node.taken_first hb.root_len] at htaken
            cases hfilled with
            | @both e₁ e₂ p b' hone =>
                have hone' : freeCnt b = freeCnt b' + 1 := hone
                exact ⟨(by omega : 0 < freeCnt b'), href⟩
            | none hfull =>
                have hfull' : freeCnt b = 0 := hfull
                omega
  cases hdone.outcome hb.grown hb.home with
  | gains hf _ hdir hg hs =>
      obtain ⟨rfl, -⟩ := Prod.mk.inj (Option.some.inj (hfollow.symm.trans hf))
      refine ⟨fs', F, _, hcall, hv, hgrown, ⟨_, hrun.step (.mkdir hb.liveCwd (by decide) hcall)⟩, ?_,
        hleft.1, ?_, hs.mpr rfl⟩
      · exact ⟨⟨[], rfl⟩, (hv.isDir_eq hgrown.live_root).trans (decide_eq_true hgrown.isDir),
          (IsOpen.of_mem hv hleft.2).2⟩
      · rw [hg.names_d hb.grown hdir]
        exact if_pos rfl

theorem roomyFs_made : ∃ fs F s,
    mkdir (some rootDirSector) pathA DirEntry.zero.name roomyFs = .ok true fs ∧ Made fs F s := by
  obtain ⟨v₁, hb⟩ := roomyFs_booted
  exact hb.made (TreeRun.init roomyFs_init) (by decide +kernel) DirEntry.zero.name

namespace Made

variable (h : Made fs F s)

include h

/-- The path leads to it. -/
theorem resolve : fs.vol.resolve rootDirSector pathA = some s := by
  show fs.vol.hierarchy.resolve rootDirSector [[97]] = some s
  rw [h.shows.resolve_eq h.grown h.grown.live_root]
  unfold Hierarchy.resolve
  rw [if_pos h.grown.rooted.root_dir]
  show (F.names rootDirSector [97]).bind _ = some s
  rw [h.name]
  rfl

theorem live : F.Live s := h.grown.rooted.child_live _ _ _ h.name

theorem vol_isDir : fs.vol.hierarchy.isDir s = true := by
  rw [h.shows.isDir_eq h.live]
  exact decide_eq_true h.isDir

theorem ne_root : s ≠ rootDirSector := by
  rintro rfl
  exact (h.grown.rooted.root_named _ _ h.name).1 rfl

end Made

/-- The new directory is opened: `..` leads to the root, and `a` back. -/
theorem open_resolves_small : ∃ fs s, (∃ dev, TreeRun dev fs) ∧
    fs.vol.resolve rootDirSector pathA = some s ∧ fs.vol.hierarchy.isDir s = true ∧
    Opens fs rootDirSector pathA DirEntry.zero.name := by
  obtain ⟨fs, F, s, -, h⟩ := roomyFs_made
  obtain ⟨dev, hrun⟩ := h.run
  have hback : LeadsBack fs.vol rootDirSector pathA := by
    intro t c ht _ hc
    obtain rfl := Option.some.inj (h.resolve.symm.trans ht)
    have hname : (components pathA).getLast? = some [97] := by decide +kernel
    obtain rfl := Option.some.inj (hname.symm.trans hc)
    obtain ⟨-, hup⟩ :=
      h.grown.complete h.free _ _ _ h.name (decide_eq_true h.isDir) h.ne_root
    refine .inr (.inl ⟨by decide, by decide, ?_⟩)
    rw [h.shows.child_eq h.live]
    exact hup
  exact ⟨fs, s, h.run, h.resolve, h.vol_isDir,
    (open_resolves_iff hrun h.root (by decide) (by decide +kernel) _).mpr hback⟩

/-! ## Changing the directory -/

/-- `chdir` succeeds exactly where the path leads to a directory, and makes that the current one;
otherwise the current directory stays. -/
theorem chdir_resolves (hrun : TreeRun dev fs) (hc : LiveCwd fs.vol cwd) (hz : 0 ∉ path) (hne : path ≠ [])
    (part : NameBuf) : Changes fs cwd path part := by
  obtain ⟨F, hv, h⟩ := hrun.grown
  obtain ⟨hdir, hr, -⟩ := hc.files hv h
  obtain ⟨d, hd, -, -, hres, hfollow⟩ := h.leads_path hc hv hne
  have hisDir : ∀ t, F.hierarchy.resolve d (components path) = some t →
      (fs.vol.hierarchy.isDir t = true ↔ F.IsDir t) := by
    intro t ht
    rw [hv.isDir_eq (h.resolve_live hd ht)]
    exact decide_eq_true_iff
  rcases wpBy_run (chdir_spec (E := fun _ _ => False) part (h.home hdir hr) h.acyclic_below hz h.calm)
    hv with
    ⟨⟨x, cwd'⟩, fs', -, hrun, -, hx, -⟩ | ⟨_, _, -, hno⟩
  swap
  · exact hno.elim
  refine ⟨x, cwd', fs', hrun, ?_⟩
  have hleads := h.leads (components path) hd
  unfold Files.changed at hx
  rw [hfollow] at hx
  rw [hres]
  generalize F.follow d (components path) = y at hleads hx
  cases hleads with
  | nowhere hnone =>
      obtain ⟨rfl, rfl⟩ := Prod.mk.inj hx
      refine ⟨iff_of_false Bool.false_ne_true ?_, rfl⟩
      rintro ⟨t, ht, -⟩
      cases hnone.symm.trans ht
  | dir ht htdir =>
      obtain ⟨rfl, rfl⟩ := Prod.mk.inj hx
      exact ⟨iff_of_true rfl ⟨_, ht, (hisDir _ ht).mpr htdir⟩, ht.symm⟩
  | last hcs has htdir hsub =>
      obtain ⟨rfl, rfl⟩ := Prod.mk.inj hx
      refine ⟨iff_of_false Bool.false_ne_true ?_, rfl⟩
      rintro ⟨u, hu, hudir⟩
      have hchild := (Files.resolve_concat has htdir _).symm.trans (hcs ▸ hu)
      cases hsub.symm.trans (F.subdir_some hchild ((hisDir u hu).mp hudir))

/-- To the new directory. -/
theorem chdir_resolves_small : ∃ fs fs' s, (∃ dev, TreeRun dev fs) ∧
    fs.vol.resolve rootDirSector pathA = some s ∧ s ≠ rootDirSector ∧
    chdir (some rootDirSector) pathA DirEntry.zero.name fs = .ok (true, some s) fs' := by
  obtain ⟨fs, F, s, -, h⟩ := roomyFs_made
  obtain ⟨dev, hrun⟩ := h.run
  obtain ⟨x, cwd', fs', hcall, hx, hcwd⟩ :=
    chdir_resolves hrun h.root (by decide : 0 ∉ pathA) (by decide) DirEntry.zero.name
  obtain rfl : x = true := hx.mpr ⟨s, h.resolve, h.vol_isDir⟩
  rw [if_pos rfl, h.resolve] at hcwd
  subst hcwd
  exact ⟨fs, fs', s, h.run, h.resolve, h.ne_root, hcall⟩

end CS162.Fs
