/-
# `CS162.Fs.Trees` — trees built by `filesys_create` and `mkdir`

The files are a hierarchy in the sense of `Hierarchy`: the inodes are its nodes, and the entries of the
directories its names.  `Files.Grown` is what holds of it when nothing but `filesys_create` and `mkdir`
has changed it: it has grown from the root directory.  A directory lacks its entries `.` and `..` only
where there was no sector left for them, and then there will be none for another inode either, so that
nothing is added to it.

A call does one of two things.  `Files.Gains` is a new inode with an entry that names it; `Files.Stays`
leaves the entries as they are, with at most an inode more that nothing names, and at most one file
written.

What is in a file is anybody's, and may look like entries.  `filesys_open` would go by them if the file
has the name `..`, which only the root directory can give it; so such a file must not be written.
-/
import CS162.Lib.Hierarchy
import CS162.Fs.CreationPlaces
import CS162.Fs.Opening

namespace CS162.Fs

open Bytes Wp Slots

variable {F F' : Files} {d s t : UInt32} {n k m : Node} {c name path : List UInt8} {part : NameBuf}
  {cwd : Option UInt32} {size : Int32} {j : Nat}

/-! ## Names in a directory -/

namespace Node

/-- The names are in the table. -/
theorem target_congr (hd : n.table.Distinct) (ht : k.table = n.table) : k.target = n.target := by
  funext c
  refine Option.ext fun t => ?_
  rw [target_iff hd, target_iff (ht ▸ hd), ht]

theorem table_put_distinct (hd : n.table.Distinct) (hnew : n.find name = none) (hj : n.table j = none)
    (ht : k.table = Function.update n.table j (some (name, s))) : k.table.Distinct := by
  have hstep : Step (fun _ => True) ⟨n.table, 0⟩ (.put name s) ⟨k.table, 0⟩ := by
    rw [ht]
    exact .put (find_none hnew) hj
  exact hstep.distinct hd

/-- A name more. -/
theorem target_update (hd : n.table.Distinct) (hnew : n.find name = none) (hj : n.table j = none)
    (ht : k.table = Function.update n.table j (some (name, s))) (c : List UInt8) :
    k.target c = if c = name then some s else n.target c := by
  have hd' := table_put_distinct hd hnew hj ht
  split
  · next hc =>
      refine (target_iff hd').mpr ⟨j, ?_⟩
      rw [ht, Function.update_self, hc]
  · next hc =>
      refine Option.ext fun t => ?_
      rw [target_iff hd', target_iff hd]
      refine exists_congr fun i => ?_
      rw [ht]
      by_cases hi : i = j
      · rw [hi, Function.update_self, hj]
        refine iff_of_false (fun h => hc ?_) (by simp)
        exact (Prod.mk.inj (Option.some.inj h)).1.symm
      · rw [Function.update_of_ne hi]

theorem ownTable_some {s d t : UInt32} {j : Nat} (h : ownTable s d j = some (c, t)) :
    j = 0 ∧ c = dot ∧ t = s ∨ j = 1 ∧ c = dotDot ∧ t = d := by
  unfold ownTable at h
  by_cases h1 : j = 1
  · rw [h1, Function.update_self] at h
    obtain ⟨rfl, rfl⟩ := Prod.mk.inj (Option.some.inj h)
    exact .inr ⟨h1, rfl, rfl⟩
  rw [Function.update_of_ne h1] at h
  by_cases h0 : j = 0
  · rw [h0, Function.update_self] at h
    obtain ⟨rfl, rfl⟩ := Prod.mk.inj (Option.some.inj h)
    exact .inl ⟨h0, rfl, rfl⟩
  · rw [Function.update_of_ne h0] at h
    cases h

theorem own_distinct (ht : m.table = ownTable s d) : m.table.Distinct := by
  have hne : dot ≠ dotDot := by decide
  intro i j c a b hi hj
  rw [ht] at hi hj
  rcases ownTable_some hi with ⟨rfl, rfl, -⟩ | ⟨rfl, rfl, -⟩
  · rcases ownTable_some hj with ⟨rfl, -, -⟩ | ⟨-, hno, -⟩
    · rfl
    · exact absurd hno hne
  · rcases ownTable_some hj with ⟨-, hno, -⟩ | ⟨rfl, -, -⟩
    · exact absurd hno.symm hne
    · rfl

/-- The entries `.` and `..`. -/
theorem target_own (ht : m.table = ownTable s d) : m.target c = some t ↔
    c = dot ∧ t = s ∨ c = dotDot ∧ t = d := by
  rw [target_iff (own_distinct ht), ht]
  constructor
  · rintro ⟨j, hj⟩
    rcases ownTable_some hj with ⟨-, h⟩ | ⟨-, h⟩
    · exact .inl h
    · exact .inr h
  · rintro (⟨rfl, rfl⟩ | ⟨rfl, rfl⟩)
    · exact ⟨0, rfl⟩
    · exact ⟨1, rfl⟩

theorem target_none (ht : ∀ j, ¬ n.Uses j) : n.target c = none := by
  unfold target
  rw [find_empty ht]
  rfl

theorem distinct_none (ht : n.table = fun _ => none) : n.table.Distinct := by
  intro i j c a b hi
  rw [ht] at hi
  cases hi

end Node

/-! ## What has grown -/

namespace Files

theorem IsDir.node (h : F.IsDir s) (hn : F.node s = some n) : n.isDir ≠ 0 := by
  obtain ⟨m, hm, hne⟩ := h
  obtain rfl := Option.some.inj (hn.symm.trans hm)
  exact hne

/-- What a directory names. -/
def names (F : Files) (d : UInt32) (c : List UInt8) : Option UInt32 :=
  if F.IsDir d then F.child d c else none

def hierarchy (F : Files) : Hierarchy UInt32 (List UInt8) where
  isDir s := decide (F.IsDir s)
  child := F.names

def Live (F : Files) (s : UInt32) : Prop := ∃ n, F.node s = some n

theorem child_node (hn : F.node d = some n) : F.child d c = n.target c := by
  unfold child
  rw [hn]
  rfl

theorem child_none (hn : F.node d = none) : F.child d c = none := by
  unfold child
  rw [hn]
  rfl

theorem names_dir (hd : F.IsDir d) (c : List UInt8) : F.names d c = F.child d c := if_pos hd

theorem names_some (h : F.names d c = some t) : F.IsDir d ∧ F.child d c = some t := by
  unfold names at h
  split at h
  · next hd => exact ⟨hd, h⟩
  · cases h

/-- The files have grown from the root directory. -/
structure Grown (F : Files) : Prop where
  tree : F.Tree
  -- whether open or not
  calm : (F.withRefs 0).Calm
  rooted : F.hierarchy.Rooted F.Live rootDirSector dot dotDot
  acyclic : F.hierarchy.Acyclic dot dotDot
  complete : 0 < freeCnt F.freeMap → F.hierarchy.Complete rootDirSector dot dotDot
  short : ∀ d c t, F.names d c = some t → c.length ≤ nameMax
  distinct : ∀ d n, F.node d = some n → n.isDir ≠ 0 → n.table.Distinct
  -- a file that is named `..` has no entries
  up : ∀ d p n, F.names d dotDot = some p → F.node p = some n → n.isDir = 0 → ∀ j, (n.entry j).inUse = 0

namespace Grown

theorem isDir (h : F.Grown) : F.IsDir rootDirSector := of_decide_eq_true h.rooted.root_dir

/-- What is below what in the hierarchy is so for the files too. -/
theorem acyclic_below (h : F.Grown) : F.Acyclic := by
  intro d hd
  have hstep : ∀ u t, F.Below u t → F.IsDir t ∧ (F.IsDir u → F.hierarchy.Below dot dotDot u t) := by
    rintro u t ⟨c, h1, h2, hsub⟩
    obtain ⟨hc, hdir⟩ := F.subdir_isDir hsub
    exact ⟨hdir, fun hu => ⟨c, ⟨h1, h2⟩, (names_dir hu c).trans hc, decide_eq_true hdir⟩⟩
  have hrun : ∀ {u t}, Relation.TransGen F.Below u t → F.IsDir t ∧
      (F.IsDir u → Relation.TransGen (F.hierarchy.Below dot dotDot) u t) := by
    intro u t hut
    induction hut with
    | single hb => exact ⟨(hstep _ _ hb).1, fun hu => .single ((hstep _ _ hb).2 hu)⟩
    | tail _ hb ih => exact ⟨(hstep _ _ hb).1, fun hu => (ih.2 hu).tail ((hstep _ _ hb).2 ih.1)⟩
  obtain ⟨hdir, hcycle⟩ := hrun hd
  exact h.acyclic d (hcycle hdir)

/-- Whoever holds a directory. -/
theorem home {c : UInt32} (h : F.Grown) (hc : F.IsDir c) (hr : c ∈ F.refs) : F.Home (some c) := by
  refine ⟨h.tree, h.isDir, fun x hx => ?_⟩
  obtain rfl := Option.some.inj hx
  exact ⟨hc, hr⟩

theorem withRefs (h : F.Grown) (r : Multiset UInt32) : (F.withRefs r).Grown :=
  ⟨⟨h.tree.dirOk, h.tree.named⟩, h.calm, h.rooted, h.acyclic, h.complete, h.short, h.distinct, h.up⟩

end Grown

/-! ## A new inode -/

/-- The entries of a new inode: those of a file, of a directory, or of a directory without a sector. -/
structure NewNode (s d : UInt32) (free : Nat) (m : Node) : Prop where
  whole : m.isDir ≠ 0 → m.len % 20 = 0 ∧ m.len ≤ maxFileLen
  file : m.isDir = 0 → ∀ j, (m.entry j).inUse = 0
  dir : m.isDir ≠ 0 → m.table = ownTable s d ∨ m.table = (fun _ => none) ∧ free = 0

/-- There is a new inode `s`, and `d` has an entry for it. -/
structure Gains (F : Files) (d s : UInt32) (name : List UInt8) (F' : Files) : Prop where
  free : 0 < freeCnt F.freeMap
  fresh : F.node s = none
  dir : ∃ n k, F.node d = some n ∧ F'.node d = some k ∧ k.isDir = n.isDir ∧ n.Takes name ∧
    k.table = Function.update n.table n.freeSlot (some (name, s)) ∧ k.len % 20 = 0 ∧ k.len ≤ maxFileLen
  others : ∀ t, t ≠ d → t ≠ s → F'.node t = F.node t
  new : ∃ m, F'.node s = some m ∧ NewNode s d (freeCnt F'.freeMap) m
  calm : (F'.withRefs 0).Calm

theorem NewNode.distinct {free : Nat} (h : NewNode s d free m) : m.table.Distinct := by
  by_cases hdir : m.isDir = 0
  · refine Node.distinct_none (funext fun j => Node.table_none.mpr fun hj => ?_)
    exact hj.2 (h.file hdir j)
  · rcases h.dir hdir with ht | ⟨ht, -⟩
    · exact Node.own_distinct ht
    · exact Node.distinct_none ht

/-- A new directory has its own two entries at most. -/
theorem NewNode.target {free : Nat} (h : NewNode s d free m) (ht : m.target c = some t) :
    m.isDir ≠ 0 ∧ (c = dot ∧ t = s ∨ c = dotDot ∧ t = d) := by
  by_cases hdir : m.isDir = 0
  · rw [Node.target_none fun j hj => hj.2 (h.file hdir j)] at ht
    cases ht
  · refine ⟨hdir, ?_⟩
    rcases h.dir hdir with hown | ⟨hnone, -⟩
    · exact (Node.target_own hown).mp ht
    · rw [Node.target_none fun j hj => Node.table_none.mp (congrFun hnone j) hj] at ht
      cases ht

namespace Gains

variable (hg : F.Gains d s name F') (h : F.Grown)

include hg

theorem isDir_iff (hts : t ≠ s) : F'.IsDir t ↔ F.IsDir t := by
  by_cases htd : t = d
  · subst htd
    obtain ⟨n, k, hn, hk, hdir, -⟩ := hg.dir
    constructor
    · rintro ⟨x, hx, hne⟩
      obtain rfl := Option.some.inj (hk.symm.trans hx)
      exact ⟨n, hn, hdir ▸ hne⟩
    · rintro ⟨x, hx, hne⟩
      obtain rfl := Option.some.inj (hn.symm.trans hx)
      exact ⟨k, hk, hdir.symm ▸ hne⟩
  · unfold IsDir
    rw [hg.others t htd hts]

theorem ne (hdir : F.IsDir d) : d ≠ s := by
  rintro rfl
  obtain ⟨n, hn, -⟩ := hdir
  cases hg.fresh.symm.trans hn

theorem own (hfree : 0 < freeCnt F'.freeMap) (hs : F'.IsDir s) :
    F'.names s dot ≠ none ∧ F'.names s dotDot ≠ none := by
  rw [names_dir hs, names_dir hs]
  obtain ⟨m, hm, hnew⟩ := hg.new
  obtain ⟨x, hx, hne⟩ := hs
  obtain rfl := Option.some.inj (hm.symm.trans hx)
  have hown := (hnew.dir hne).resolve_right fun hno => hfree.ne' hno.2
  rw [child_node hm, child_node hm, (Node.target_own hown).mpr (.inl ⟨rfl, rfl⟩),
    (Node.target_own hown).mpr (.inr ⟨rfl, rfl⟩)]
  exact ⟨Option.some_ne_none _, Option.some_ne_none _⟩

/-- The directory that is longer by an entry, the new inode, and the others. -/
theorem node_cases {x : Node} (hx : F'.node t = some x) : t = d ∧ (∃ n, F.node d = some n ∧
      x.isDir = n.isDir ∧ x.table = Function.update n.table n.freeSlot (some (name, s)) ∧
      n.Takes name ∧ x.len % 20 = 0 ∧ x.len ≤ maxFileLen) ∨
    t = s ∧ NewNode s d (freeCnt F'.freeMap) x ∨ t ≠ d ∧ t ≠ s ∧ F.node t = some x := by
  by_cases htd : t = d
  · subst htd
    obtain ⟨n, k, hn, hk, hdir, htakes, htable, hwhole, hmax⟩ := hg.dir
    obtain rfl := Option.some.inj (hk.symm.trans hx)
    exact .inl ⟨rfl, n, hn, hdir, htable, htakes, hwhole, hmax⟩
  by_cases hts : t = s
  · subst hts
    obtain ⟨m, hm, hnew⟩ := hg.new
    obtain rfl := Option.some.inj (hm.symm.trans hx)
    exact .inr (.inl ⟨rfl, hnew⟩)
  · exact .inr (.inr ⟨htd, hts, (hg.others t htd hts).symm.trans hx⟩)

include h

theorem child_dir (hdir : F.IsDir d) (c : List UInt8) :
    F'.child d c = if c = name then some s else F.child d c := by
  obtain ⟨n, k, hn, hk, -, htakes, htable, -⟩ := hg.dir
  rw [child_node hn, child_node hk]
  exact Node.target_update (h.distinct d n hn (hdir.node hn)) htakes.new
    (Node.table_none.mpr Node.freeSlot_unused) htable c

theorem names_d (hdir : F.IsDir d) (c : List UInt8) :
    F'.names d c = if c = name then some s else F.names d c := by
  rw [names_dir hdir, names_dir ((hg.isDir_iff (hg.ne hdir)).mpr hdir), hg.child_dir h hdir]

/-- On the hierarchy, adding an entry for a new inode is `Adds`. -/
theorem adds (hdir : F.IsDir d) (hnamed : d = rootDirSector ∨ ∃ u a, F.names u a = some d) :
    F.hierarchy.Adds F.Live rootDirSector dot dotDot d name s F'.hierarchy F'.Live := by
  obtain ⟨n, k, hn, hk, hd, htakes, htable, -⟩ := hg.dir
  obtain ⟨m, hm, hnew⟩ := hg.new
  refine ⟨decide_eq_true hdir, hnamed, ?_, ?_, fun t => ?_, fun t hts => ?_, ?_, fun t a hts hda => ?_,
    fun a t ha => ?_⟩
  · show F.names d name = none
    rw [names_dir hdir, child_node hn]
    unfold Node.target
    rw [htakes.new]
    rfl
  · rintro ⟨x, hx⟩
    cases hg.fresh.symm.trans hx
  · constructor
    · rintro ⟨x, hx⟩
      by_cases hts : t = s
      · exact .inl hts
      by_cases htd : t = d
      · exact .inr ⟨n, htd ▸ hn⟩
      · exact .inr ⟨x, (hg.others t htd hts).symm.trans hx⟩
    · rintro (rfl | ⟨x, hx⟩)
      · exact ⟨m, hm⟩
      by_cases hts : t = s
      · exact ⟨m, hts ▸ hm⟩
      by_cases htd : t = d
      · exact ⟨k, htd ▸ hk⟩
      · exact ⟨x, (hg.others t htd hts).trans hx⟩
  · exact decide_eq_decide.mpr (hg.isDir_iff hts)
  · show F'.names d name = some s
    rw [hg.names_d h hdir, if_pos rfl]
  · show F'.names t a = F.names t a
    by_cases htd : t = d
    · subst htd
      rw [hg.names_d h hdir, if_neg fun ha => hda ⟨rfl, ha⟩]
    · unfold names child
      rw [if_congr (hg.isDir_iff hts) rfl rfl, hg.others t htd hts]
  · have hchild : m.target a = some t := (child_node hm).symm.trans (names_some ha).2
    obtain ⟨hdir', hown⟩ := hnew.target hchild
    exact ⟨decide_eq_true ⟨m, hm, hdir'⟩, hown⟩

theorem grown (hdir : F.IsDir d) (hnamed : d = rootDirSector ∨ ∃ u a, F.names u a = some d) :
    F'.Grown := by
  have ha := hg.adds h hdir hnamed
  have hcomp := h.complete hg.free
  have hrooted := ha.rooted h.rooted hcomp (by decide)
  have hdeny : ∀ t x, F'.node t = some x → x.denyWriteCnt = 0 := fun t x hx =>
    (hg.calm t x hx (Multiset.notMem_zero t)).2.1
  refine ⟨⟨fun t x hx hne => ?_, fun t x i hx hne hi => ?_⟩, hg.calm, hrooted,
    ha.acyclic h.rooted h.acyclic,
    fun hfree => ha.complete h.rooted hcomp fun hs => hg.own hfree (of_decide_eq_true hs),
    fun u a t hu => ?_, fun t x hx hne => ?_, fun u t x hu hx h0 => ?_⟩
  · rcases hg.node_cases hx with ⟨-, n, -, -, -, -, hw, hmax⟩ | ⟨-, hnew⟩ | ⟨-, -, hold⟩
    · exact ⟨hw, hmax, hdeny t x hx⟩
    · exact ⟨(hnew.whole hne).1, (hnew.whole hne).2, hdeny t x hx⟩
    · exact h.tree.dirOk t x hold hne
  · have hsome : x.table i = some (_, _) := Node.table_some.mpr ⟨hi, rfl, rfl⟩
    have hdist : x.table.Distinct := by
      rcases hg.node_cases hx with ⟨-, n, hn, hd, htable, htakes, -⟩ | ⟨-, hnew⟩ | ⟨-, -, hold⟩
      · exact Node.table_put_distinct (h.distinct _ n hn (hd ▸ hne)) htakes.new
          (Node.table_none.mpr Node.freeSlot_unused) htable
      · exact hnew.distinct
      · exact h.distinct t x hold hne
    have htarget := (Node.target_iff hdist).mpr ⟨i, hsome⟩
    exact hrooted.child_live t _ _ ((names_dir ⟨x, hx, hne⟩ _).trans ((child_node hx).trans htarget))
  · rcases ha.cases h.rooted hu with ⟨-, rfl, -⟩ | ⟨-, rfl, -⟩ | ⟨-, rfl, -⟩ | ⟨-, -, hold⟩
    · obtain ⟨n, -, -, -, -, htakes, -⟩ := hg.dir
      exact htakes.short
    · decide
    · decide
    · exact h.short u a t hold
  · rcases hg.node_cases hx with ⟨-, n, hn, hd, htable, htakes, -⟩ | ⟨-, hnew⟩ | ⟨-, -, hold⟩
    · exact Node.table_put_distinct (h.distinct _ n hn (hd ▸ hne)) htakes.new
        (Node.table_none.mpr Node.freeSlot_unused) htable
    · exact hnew.distinct
    · exact h.distinct t x hold hne
  · rcases hg.node_cases hx with ⟨-, n, hn, hd, -⟩ | ⟨-, hnew⟩ | ⟨htd, hts, hold⟩
    · exact absurd (hd.symm.trans h0) (hdir.node hn)
    · exact hnew.file h0
    · rcases ha.cases h.rooted hu with ⟨-, -, rfl⟩ | ⟨-, -, rfl⟩ | ⟨-, -, rfl⟩ | ⟨-, -, hu⟩
      · exact absurd rfl hts
      · exact absurd rfl hts
      · exact absurd rfl htd
      · exact h.up u t x hu hold h0

end Gains

/-! ## No new entry -/

/-- The entries are as they were.  A new inode is one that `mkdir` made without finding a place for it;
`w` is the file that was written, if one was. -/
structure Stays (F : Files) (w : Option UInt32) (F' : Files) : Prop where
  free : 0 < freeCnt F'.freeMap → 0 < freeCnt F.freeMap
  old : ∀ t n, F.node t = some n → ∃ k, F'.node t = some k ∧ k.isDir = n.isDir ∧
    (w ≠ some t → SameBytes n k)
  file : ∀ t, w = some t → ¬ F.IsDir t ∧ ∀ d, F.names d dotDot ≠ some t
  new : ∀ t k, F.node t = none → F'.node t = some k → k.isDir ≠ 0 ∧ k.len = 0
  calm : (F'.withRefs 0).Calm

namespace Stays

/-- Nothing has changed but what is open. -/
theorem refl {r : Multiset UInt32} (h : F.Grown) : F.Stays none (F.withRefs r) :=
  ⟨id, fun _ n hn => ⟨n, hn, rfl, fun _ => ⟨rfl, rfl⟩⟩, nofun,
    fun _ _ hno hk => (by cases hno.symm.trans hk), h.calm⟩

variable {w : Option UInt32}

/-- A file has other blocks, or other bytes. -/
theorem rewrite {b : Bitmap} (h : F.Grown) (hn : F.node s = some n) (h0 : n.isDir = 0)
    (hdir : k.isDir = n.isDir) (hr : k.removed = n.removed) (hdeny : k.denyWriteCnt = n.denyWriteCnt)
    (hsv : k.saved = n.saved ∨ k.saved = k.isDir) (hfree : freeCnt b ≤ freeCnt F.freeMap)
    (hw : w = none ∧ SameBytes n k ∨ w = some s ∧ ∀ d, F.names d dotDot ≠ some s) :
    F.Stays w { F.set s k with freeMap := b } := by
  refine ⟨fun hpos => Nat.lt_of_lt_of_le hpos hfree, fun t m hm => ?_, fun t ht => ?_, fun t m hno hm =>
    ?_,
    Files.Calm.set (F := F.withRefs 0) h.calm hn hr hdeny hsv hdir⟩
  · by_cases hts : t = s
    · subst hts
      obtain rfl := Option.some.inj (hn.symm.trans hm)
      refine ⟨k, Files.set_node_self, hdir, fun hne => ?_⟩
      exact (hw.resolve_right fun hno => hne hno.1).2
    · exact ⟨m, (Files.set_node_other hts).trans hm, rfl, fun _ => ⟨rfl, rfl⟩⟩
  · rcases hw with ⟨rfl, -⟩ | ⟨rfl, hup⟩
    · cases ht
    · obtain rfl := Option.some.inj ht
      exact ⟨fun hd => hd.node hn h0, hup⟩
  · have hts : t ≠ s := by
      rintro rfl
      cases hno.symm.trans hn
    cases hno.symm.trans ((Files.set_node_other hts).symm.trans hm)

variable (hs : F.Stays w F') (h : F.Grown)

include hs

theorem unused (hn : F.node t = none) (hk : F'.node t = some k) (j : Nat) : ¬ k.Uses j := by
  intro hj
  have hlt := hj.1
  unfold Node.slots at hlt
  rw [(hs.new t k hn hk).2] at hlt
  exact absurd hlt (Nat.not_lt_zero _)

theorem isDir_iff (ht : F.Live t) : F'.IsDir t ↔ F.IsDir t := by
  obtain ⟨n, hn⟩ := ht
  obtain ⟨k, hk, hdir, -⟩ := hs.old t n hn
  constructor
  · exact fun hd => ⟨n, hn, hdir ▸ hd.node hk⟩
  · exact fun hd => ⟨k, hk, hdir.symm ▸ hd.node hn⟩

include h

/-- On the hierarchy, what changes no entry is `Keeps`. -/
theorem keeps : F.hierarchy.Keeps F.Live F'.hierarchy F'.Live where
  live_mono t ht := by
    obtain ⟨n, hn⟩ := ht
    obtain ⟨k, hk, -⟩ := hs.old t n hn
    exact ⟨k, hk⟩
  isDir t ht := decide_eq_decide.mpr (hs.isDir_iff ht)
  child t ht := by
    have hdir := hs.isDir_iff ht
    obtain ⟨n, hn⟩ := ht
    obtain ⟨k, hk, -, hsame⟩ := hs.old t n hn
    funext c
    refine if_ctx_congr hdir (fun hd => ?_) fun _ => rfl
    have hbytes := hsame fun hw => (hs.file t hw).1 hd
    rw [child_node hn, child_node hk, Node.target_congr (h.distinct t n hn (hd.node hn)) hbytes.table]
  new t ht a := by
    have hn : F.node t = none := Option.eq_none_iff_forall_ne_some.mpr fun n hn => ht ⟨n, hn⟩
    refine Option.eq_none_iff_forall_ne_some.mpr fun x hx => ?_
    obtain ⟨⟨k, hk, -⟩, hchild⟩ := names_some hx
    rw [child_node hk, Node.target_none (hs.unused hn hk)] at hchild
    cases hchild
  dir_live t ht := by
    obtain ⟨n, hn, -⟩ : F'.IsDir t := of_decide_eq_true ht
    exact ⟨n, hn⟩

theorem grown : F'.Grown := by
  have hk := hs.keeps h
  have hrooted := hk.rooted h.rooted
  have hcases : ∀ {t x}, F'.node t = some x →
      (∃ n, F.node t = some n ∧ x.isDir = n.isDir ∧ (x.isDir ≠ 0 ∨ w ≠ some t → SameBytes n x)) ∨
      x.isDir ≠ 0 ∧ x.len = 0 ∧ ∀ j, ¬ x.Uses j := by
    intro t x hx
    cases hn : F.node t with
    | none =>
        obtain ⟨hdir, hlen⟩ := hs.new t x hn hx
        exact .inr ⟨hdir, hlen, hs.unused hn hx⟩
    | some n =>
        obtain ⟨k, hk, hdir, hsame⟩ := hs.old t n hn
        obtain rfl := Option.some.inj (hk.symm.trans hx)
        refine .inl ⟨n, rfl, hdir, fun hor => hsame (hor.elim (fun hne hw => ?_) id)⟩
        exact (hs.file t hw).1 ⟨n, hn, hdir ▸ hne⟩
  refine ⟨⟨fun t x hx hne => ?_, fun t x i hx hne hi => ?_⟩, hs.calm, hrooted,
    hk.acyclic h.rooted h.acyclic,
    fun hfree => hk.complete h.rooted (h.complete (hs.free hfree)), fun u a t hu => ?_,
      fun t x hx hne => ?_,
    fun u t x hu hx h0 => ?_⟩
  · have hdeny := (hs.calm t x hx (Multiset.notMem_zero t)).2.1
    rcases hcases hx with ⟨n, hn, hdir, hsame⟩ | ⟨-, hlen, -⟩
    · replace hsame := hsame (.inl hne)
      have ok := h.tree.dirOk t n hn (hdir ▸ hne)
      exact ⟨by rw [hsame.len]; exact ok.whole, by rw [hsame.len]; exact ok.max, hdeny⟩
    · exact ⟨by rw [hlen], by rw [hlen]; exact Nat.zero_le _, hdeny⟩
  · rcases hcases hx with ⟨n, hn, hdir, hsame⟩ | ⟨-, -, hno⟩
    · have hat : x.table i = some (_, _) := Node.table_some.mpr ⟨hi, rfl, rfl⟩
      rw [(hsame (.inl hne)).table] at hat
      obtain ⟨hi', -, hto⟩ := Node.table_some.mp hat
      obtain ⟨y, hy⟩ := h.tree.named t n i hn (hdir ▸ hne) hi'
      rw [hto] at hy
      exact hk.live_mono _ ⟨y, hy⟩
    · exact absurd hi (hno i)
  · exact h.short u a t ((hk.child_iff h.rooted).mp hu)
  · rcases hcases hx with ⟨n, hn, hdir, hsame⟩ | ⟨-, -, hno⟩
    · rw [(hsame (.inl hne)).table]
      exact h.distinct t n hn (hdir ▸ hne)
    · exact Node.distinct_none (funext fun j => Node.table_none.mpr (hno j))
  · have hold := (hk.child_iff h.rooted).mp hu
    rcases hcases hx with ⟨n, hn, hdir, hsame⟩ | ⟨hdir, -⟩
    · intro j
      have hentry : x.entry j = n.entry j := by
        unfold Node.entry Node.slotBytes
        rw [(hsame (.inr fun hw => (hs.file t hw).2 u hold)).byte]
      rw [hentry]
      exact h.up u t n hold hn (hdir ▸ h0) j
    · exact absurd h0 hdir

end Stays

/-- The directory that a path leads to is the one that it starts from, or it has a name. -/
theorem follow_named {cs : List (List UInt8)} {b : Bool} (hd : F.IsDir d)
    (hf : F.follow d cs = some (t, b)) : t = d ∨ ∃ u a, F.names u a = some t := by
  induction cs generalizing d with
  | nil => exact .inl (Prod.mk.inj (Option.some.inj hf)).1.symm
  | cons c cs ih =>
      unfold follow at hf
      split at hf
      · cases hf
      · split at hf
        · next u hu =>
            refine .inr ?_
            obtain ⟨hchild, hdir⟩ := F.subdir_isDir hu
            rcases ih hdir hf with rfl | hnamed
            · exact ⟨d, c, (names_dir hd c).trans hchild⟩
            · exact hnamed
        · split at hf
          · exact .inl (Prod.mk.inj (Option.some.inj hf)).1.symm
          · cases hf

end Files

/-! ## The calls -/

section Calls

variable {x : Bool} {r : Multiset UInt32}

theorem fileNode_file {length : Nat} {p : Slot → UInt32} : (fileNode length p).isDir = 0 ∧
    ∀ j, ((fileNode length p).entry j).inUse = 0 :=
  ⟨rfl, fun _ => rfl⟩

/-- `filesys_create` once it has come to a directory. -/
theorem FileCreatedIn.change (hin : FileCreatedIn F d n name size x F') (h : F.Grown)
    (hn : F.node d = some n) (hdir : n.isDir ≠ 0) :
    x = false ∧ F.Stays none F' ∨ x = true ∧ ∃ s, F.Gains d s name F' ∧ ¬ F'.IsDir s := by
  have hcalm := hin.calm hn h.calm
  have hself : ∀ t k, F.node t = some k → ∃ m, F.node t = some m ∧ m.isDir = k.isDir ∧
      (none ≠ some t → SameBytes k m) :=
    fun t k hk => ⟨k, hk, rfl, fun _ => ⟨rfl, rfl⟩⟩
  cases hin with
  | full => exact .inl ⟨rfl, .refl h⟩
  | refused _ _ ht _ =>
      refine .inl ⟨rfl, fun _ => ?_, hself, nofun, fun t k hno hk => ?_, hcalm⟩
      · rw [ht.free]
        exact Nat.succ_pos _
      · cases hno.symm.trans hk
  | crowded _ _ ht _ _ _ =>
      refine .inl ⟨rfl, fun _ => ?_, fun t k hk => ?_, nofun, fun t k hno hk => ?_, hcalm⟩
      · rw [ht.free]
        exact Nat.succ_pos _
      · by_cases htd : t = d
        · subst htd
          obtain rfl := Option.some.inj (hn.symm.trans hk)
          exact ⟨_, Files.set_node_self, rfl, fun _ => ⟨rfl, rfl⟩⟩
        · exact ⟨k, (Files.set_node_other htd).trans hk, rfl, fun _ => ⟨rfl, rfl⟩⟩
      · have htd : t ≠ d := by
          rintro rfl
          cases hno.symm.trans hn
        cases hno.symm.trans ((Files.set_node_other htd).symm.trans hk)
  | @done s p q m b e sv _ htakes ht _ hnew _ he hc hu _ hle _ =>
      have hds : d ≠ s := by
        rintro rfl
        cases hnew.symm.trans hn
      have ok : (n.put n.freeSlot e).DirOk := (h.tree.dirOk d n hn hdir).wrote hle
      refine .inr ⟨rfl, s, ⟨?_, hnew, ?_, ?_, ?_, hcalm⟩, ?_⟩
      · rw [ht.free]
        exact Nat.succ_pos _
      · refine ⟨n, _, hn, (Files.set_node_other hds).trans Files.set_node_self, rfl, htakes, ?_, ok.whole,
          ok.max⟩
        rw [← hc, ← he, ← Node.table_put n.freeSlot_le (by rw [hu]; decide)]
        exact Node.table_congr rfl rfl
      · intro t htd hts
        exact (Files.set_node_other hts).trans (Files.set_node_other htd)
      · exact ⟨_, Files.set_node_self, fun hno => absurd fileNode_file.1 hno, fun _ => fileNode_file.2,
          fun hno => absurd fileNode_file.1 hno⟩
      · rintro ⟨k, hk, hne⟩
        obtain rfl := Option.some.inj (Files.set_node_self.symm.trans hk)
        exact hne fileNode_file.1

/-- What a call does to the tree; `dir` is for `mkdir`. -/
inductive Files.Outcome (F : Files) (cwd : Option UInt32) (path : List UInt8) (part : NameBuf)
    (dir : Bool) :
    Bool → Files → Prop where
  | stays {F' : Files} : F.Stays none F' → Outcome F cwd path part dir false F'
  | gains {F' : Files} {d s : UInt32} {b : Bool} : F.followPath cwd path = some (d, b) →
      (dir = false → b = false) → F.IsDir d → F.Gains d s (lastPart (parts path) part) F' →
      (F'.IsDir s ↔ dir = true) → Outcome F cwd path part dir true F'

theorem Files.Outcome.grown {dir : Bool} (ho : F.Outcome cwd path part dir x F') (h : F.Grown)
    (hnamed : ∀ d b, F.followPath cwd path = some (d, b) → d = rootDirSector ∨ ∃ u a,
    F.names u a = some d) :
    F'.Grown := by
  cases ho with
  | stays hs => exact hs.grown h
  | gains hf _ hdir hg _ => exact hg.grown h hdir (hnamed _ _ hf)

theorem FileCreated.outcome (hc : FileCreated F cwd path size part x F') (h : F.Grown)
    (hhome : F.Home cwd) :
    F.Outcome cwd path part false x F' := by
  cases hc with
  | lost => exact .stays (.refl h)
  | @tried d _ n F₁ hf hn hin =>
      obtain ⟨y, hy, hdir⟩ := hhome.isDir hf
      obtain rfl := Option.some.inj (hn.symm.trans hy)
      rcases hin.change (h.withRefs _) hn hdir with ⟨rfl, hs⟩ | ⟨rfl, s, hg, hfile⟩
      · exact .stays ⟨hs.free, hs.old, nofun, hs.new, hs.calm⟩
      · exact .gains hf (fun _ => rfl) ⟨n, hn, hdir⟩ ⟨hg.free, hg.fresh, hg.dir, hg.others, hg.new,
          hg.calm⟩
          (iff_of_false hfile Bool.false_ne_true)

/-- A directory that `mkdir` has filled. -/
theorem DirFilled.newNode (hin : DirFilled F d s n k r F') (hlen : k.len = 0) :
    ∃ m, F'.node s = some m ∧ Files.NewNode s d (freeCnt F'.freeMap) m ∧ m.isDir ≠ 0 := by
  rcases Nat.eq_zero_or_pos (freeCnt F.freeMap) with hfull | hfree
  · cases hin with
    | both hone => omega
    | @none p b _ hleft =>
        have hone : (1 : Int32) ≠ 0 := by decide
        refine ⟨_, Files.set_node_self, ⟨fun _ => ⟨?_, ?_⟩, fun hno => absurd hno hone, fun _ =>
          .inr ⟨?_, hleft⟩⟩,
          hone⟩
        · show k.len % 20 = 0
          rw [hlen]
        · show k.len ≤ maxFileLen
          rw [hlen]
          exact Nat.zero_le _
        · exact (Node.table_congr rfl rfl).trans (Node.table_empty hlen)
  · obtain ⟨m, hm, hdir, htable, hlen'⟩ := hin.holds hlen hfree
    refine ⟨m, hm, ⟨fun _ => ⟨?_, ?_⟩, fun hno => absurd hno hdir, fun _ => .inl htable⟩, hdir⟩
    · rw [hlen']
    · rw [hlen']
      decide

theorem DirFilled.calm (hin : DirFilled F d s n k r F') (hn : F.node d = some n)
    (hcalm : (F.withRefs 0).Calm) (hrm : k.removed = false) (hdeny : k.denyWriteCnt = 0) :
    (F'.withRefs 0).Calm := by
  cases hin with
  | both =>
      exact (Files.Calm.set (F := F.withRefs 0) (m := n.linked) hcalm hn rfl rfl (.inl rfl) rfl).insert
        hrm hdeny rfl
  | none => exact Files.Calm.insert (F := F.withRefs 0) hcalm hrm hdeny rfl

/-- `mkdir` once it has come to a directory. -/
theorem DirCreatedIn.change (hin : DirCreatedIn F d n name r x F') (h : F.Grown) (hn : F.node d = some n)
    (hdir : n.isDir ≠ 0) :
    x = false ∧ F.Stays none F' ∨ x = true ∧ ∃ s, F.Gains d s name F' ∧ F'.IsDir s := by
  have hnew₀ : ∀ {G : Files} {s : UInt32} {p : Slot → UInt32},
    (∀ t, (G.node t).isSome = (F.node t).isSome) →
      ∀ t k, F.node t = none → (G.set s (newNode 0 p)).node t = some k → k.isDir ≠ 0 ∧ k.len = 0 := by
    intro G s p hsame t k hno hk
    by_cases hts : t = s
    · rw [hts, Files.set_node_self] at hk
      obtain rfl := Option.some.inj hk
      exact ⟨(by decide : (-1 : Int32) ≠ 0), rfl⟩
    · rw [Files.set_node_other hts] at hk
      have hsome := hsame t
      rw [hk, hno] at hsome
      cases hsome
  cases hin with
  | full => exact .inl ⟨rfl, .refl h⟩
  | @refused s p m _ ht hnew =>
      refine .inl ⟨rfl, fun _ => ?_, fun t k hk => ?_, nofun, hnew₀ fun _ => rfl,
        Files.Calm.insert (F := F.withRefs 0) h.calm rfl rfl rfl⟩
      · rw [ht.free]
        exact Nat.succ_pos _
      · have hts : t ≠ s := by
          rintro rfl
          cases hnew.symm.trans hk
        exact ⟨k, (Files.set_node_other hts).trans hk, rfl, fun _ => ⟨rfl, rfl⟩⟩
  | @crowded s p q m b sv _ ht hnew hsv _ =>
      refine .inl ⟨rfl, fun _ => ?_, fun t k hk => ?_, nofun, hnew₀ fun t => ?_,
        (Files.Calm.set (F := F.withRefs 0) (m := { n with saved := sv, ptr := q }) h.calm hn rfl rfl hsv
          rfl).insert rfl rfl rfl⟩
      · rw [ht.free]
        exact Nat.succ_pos _
      · have hts : t ≠ s := by
          rintro rfl
          cases hnew.symm.trans hk
        by_cases htd : t = d
        · subst htd
          obtain rfl := Option.some.inj (hn.symm.trans hk)
          exact ⟨_, (Files.set_node_other hts).trans Files.set_node_self, rfl, fun _ => ⟨rfl, rfl⟩⟩
        · exact ⟨k, (Files.set_node_other hts).trans ((Files.set_node_other htd).trans hk), rfl,
            fun _ => ⟨rfl, rfl⟩⟩
      · by_cases htd : t = d
        · rw [htd, Files.set_node_self, hn]
          rfl
        · rw [Files.set_node_other htd]
  | @done s p q m b e sv F₁ htakes ht _ hnew _ he hc hu hsv hle _ hfilled =>
      have hds : d ≠ s := by
        rintro rfl
        cases hnew.symm.trans hn
      have ok : (n.put n.freeSlot e).DirOk := (h.tree.dirOk d n hn hdir).wrote hle
      have hput : (F.set d { n.put n.freeSlot e with saved := sv, ptr := q }).node d = some _ :=
        Files.set_node_self
      obtain ⟨⟨k, hk, hkdir, hsame⟩, hothers⟩ :=
        hfilled.others ((Files.set_node_other hds).trans hput) hds
      have hcalm := hfilled.calm ((Files.set_node_other hds).trans hput)
        ((Files.Calm.set (F := F.withRefs 0) (m := { n.put n.freeSlot e with saved := sv, ptr := q })
          h.calm hn rfl rfl hsv rfl).insert rfl rfl rfl) rfl rfl
      obtain ⟨m, hm, hnode, hmdir⟩ := hfilled.newNode rfl
      refine .inr ⟨rfl, s, ⟨?_, hnew, ⟨n, k, hn, hk, hkdir, htakes, ?_, ?_, ?_⟩, fun t htd hts => ?_,
        ⟨m, hm, hnode⟩, hcalm⟩, ⟨m, hm, hmdir⟩⟩
      · rw [ht.free]
        exact Nat.succ_pos _
      · rw [hsame.table, ← hc, ← he, ← Node.table_put n.freeSlot_le (by rw [hu]; decide)]
        exact Node.table_congr rfl rfl
      · rw [hsame.len]
        exact ok.whole
      · rw [hsame.len]
        exact ok.max
      · exact (hothers t htd hts).trans ((Files.set_node_other hts).trans (Files.set_node_other htd))

theorem DirCreated.outcome (hc : DirCreated F cwd path part x F') (h : F.Grown) (hhome : F.Home cwd) :
    F.Outcome cwd path part true x F' := by
  cases hc with
  | lost => exact .stays (.refl h)
  | @tried d b _ n F₁ hf hn hin =>
      obtain ⟨y, hy, hdir⟩ := hhome.isDir hf
      obtain rfl := Option.some.inj (hn.symm.trans hy)
      rcases hin.change (h.withRefs _) hn hdir with ⟨rfl, hs⟩ | ⟨rfl, s, hg, hmade⟩
      · exact .stays ⟨hs.free, hs.old, nofun, hs.new, hs.calm⟩
      · exact .gains hf (fun hno => by cases hno) ⟨n, hn, hdir⟩
          ⟨hg.free, hg.fresh, hg.dir, hg.others, hg.new, hg.calm⟩ (iff_of_true hmade rfl)

end Calls

end CS162.Fs
