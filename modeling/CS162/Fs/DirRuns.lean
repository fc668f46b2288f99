/-
# `CS162.Fs.DirRuns` — calls on one directory, in any order

The calls are `dir_add` of the sector of an inode that has just been created, `dir_remove`,
and `readdir` on one open descriptor.  Between two of them the kernel may do anything that
leaves the bytes of the directory alone, keeps it open, and keeps the inodes that it names
(`Elsewhere`); opening, writing and creating other files is of this kind.

Each call is a step of the table (`DirStep.table`), so a run of calls is a run of it.
-/
import CS162.Fs.DirMap

namespace CS162.Fs

open Wp Slots

/-- The directory is open and its entries are in order. -/
def InOrder (d : UInt32) (v : Vol) : Prop := ∃ F n, Shows v F ∧ IsDirectory F d n

/-- Something that is not about the directory. -/
structure Elsewhere (d : UInt32) (v v' : Vol) : Prop where
  same : SameBytes (v.nodeAt d) (v'.nodeAt d)
  deny : (v'.nodeAt d).denyWriteCnt = 0
  files : ∃ F', Shows v' F' ∧ (F'.node d).isSome = true ∧ d ∈ F'.refs ∧
    ∀ k name s, (v.nodeAt d).table k = some (name, s) → (F'.node s).isSome = true

/-- A state, and the position of the descriptor. -/
abbrev DirState := FsState × Nat

/-- A call on the directory, as an event of its table. -/
inductive DirStep (d : UInt32) : DirState → Event (List UInt8) UInt32 → DirState → Prop where
  | noInode {length pos : Nat} {fs fs' : FsState} : length < 2 ^ 31 →
      createInode length fs = .ok none fs' → DirStep d (fs, pos) .idle (fs', pos)
  | dirAdd {length pos : Nat} {name : List UInt8} {s : UInt32} {r : Bool} {fs fs₁ fs₂ : FsState} :
      length < 2 ^ 31 → 0 ∉ name → createInode length fs = .ok (some s) fs₁ →
      dirAdd d name s fs₁ = .ok r fs₂ →
      DirStep d (fs, pos) (if r = true then .put name s else .idle) (fs₂, pos)
  | dirRemove {pos : Nat} {name : List UInt8} {r : Bool} {fs fs' : FsState} :
      dirRemove d name fs = .ok r fs' →
      DirStep d (fs, pos) (if r = true then .drop name else .idle) (fs', pos)
  | readdir {pos : Nat} {r : Option (List UInt8)} {file : File} {fs fs' : FsState} :
      readdir ⟨d, pos⟩ fs = .ok (r, file) fs' → DirStep d (fs, pos) (listed r) (fs', file.pos)
  | other {pos : Nat} {fs fs' : FsState} : Elsewhere d fs.vol fs'.vol →
      DirStep d (fs, pos) .idle (fs', pos)

/-- A run, with the states that the calls were made in. -/
inductive DirRun (d : UInt32) (x₀ : DirState) : List (DirState × Event (List UInt8) UInt32) → DirState →
    Prop where
  | nil : DirRun d x₀ [] x₀
  | snoc {tr : List (DirState × Event (List UInt8) UInt32)} {x x' : DirState}
      {e : Event (List UInt8) UInt32} : DirRun d x₀ tr x → DirStep d x e x' → DirRun d x₀
      (tr ++ [(x, e)]) x'

/-- The table and the cursor of a state. -/
def dirView (d : UInt32) (x : DirState) : State (List UInt8) UInt32 :=
  ⟨(x.1.vol.nodeAt d).table, x.2 / 20⟩

variable {d : UInt32} {n : Node} {F : Files} {x x' x₀ : DirState} {e : Event (List UInt8) UInt32}
  {tr : List (DirState × Event (List UInt8) UInt32)}

/-! ## Calls are steps of the table -/

theorem Shows.table {v : Vol} (h : Shows v F) (hd : IsDirectory F d n) :
    (v.nodeAt d).table = n.table := by
  rw [h.node d n hd.node]

/-- Each call is a step of the table of slots. -/
theorem DirStep.table (h : DirStep d x e x') (hin : InOrder d x.1.vol) (hpos : x.2 % 20 = 0) :
    InOrder d x'.1.vol ∧ x'.2 % 20 = 0 ∧ Step Listed (dirView d x) e (dirView d x') := by
  obtain ⟨F, n, hF, hd⟩ := hin
  have hview := hF.table hd
  unfold dirView
  cases h with
  | noInode hlen hrun =>
      obtain ⟨F₁, hF₁, hd₁, -⟩ := wpBy_ok (hd.create hlen) hF hrun
      refine ⟨⟨F₁, n, hF₁, hd₁⟩, hpos, ?_⟩
      rw [hview, hF₁.table hd₁]
      exact .idle
  | @dirAdd length pos name s r fs fs₁ fs₂ hlen hz hcreate hadd =>
      obtain ⟨F₁, hF₁, hd₁, hfresh⟩ := wpBy_ok (hd.create hlen) hF hcreate
      obtain ⟨F₂, hF₂, n₂, hd₂, hout⟩ := wpBy_ok
        (hd₁.add (E := fun _ _ => True) (hfresh s rfl) hz fun _ _ _ _ _ => trivial) hF₁ hadd
      refine ⟨⟨F₂, n₂, hF₂, hd₂⟩, hpos, ?_⟩
      rw [hview, hF₂.table hd₂]
      rcases hout with ⟨rfl, -, hnew, j, hj, htable, -⟩ | ⟨rfl, hsame⟩
      · rw [htable, if_pos rfl]
        exact .put hnew hj
      · rw [hsame.table]
        exact .idle
  | dirRemove hrun =>
      obtain ⟨F₁, hF₁, n₁, hd₁, hout⟩ := wpBy_ok (hd.remove (E := fun _ _ => True)) hF hrun
      refine ⟨⟨F₁, n₁, hF₁, hd₁⟩, hpos, ?_⟩
      rw [hview, hF₁.table hd₁]
      rcases hout with ⟨rfl, ⟨k, s, hk, htable, -⟩, -⟩ | ⟨rfl, hsame⟩
      · rw [htable, if_pos rfl]
        exact .drop hk
      · rw [hsame.table]
        exact .idle
  | @readdir pos r file fs fs' hrun =>
      have hcur : pos = 20 * (pos / 20) := by
        have hpos' : pos % 20 = 0 := hpos
        omega
      rw [hcur] at hrun
      obtain ⟨F₁, hF₁, rfl, c', hfile, hstep⟩ :=
        wpBy_ok (hd.readdir (E := fun _ _ => True) (pos / 20)) hF hrun
      obtain rfl : file = ⟨d, 20 * c'⟩ := hfile
      refine ⟨⟨F₁, n, hF₁, hd⟩, Nat.mul_mod_right 20 c', ?_⟩
      rw [hview, hF₁.table hd]
      show Step Listed _ _ ⟨n.table, 20 * c' / 20⟩
      rw [Nat.mul_div_cancel_left c' (by decide)]
      exact hstep
  | other helse =>
      obtain ⟨hsame, hdeny, F', hF', hsome, hheld, hlive⟩ := helse
      obtain ⟨n', hn'⟩ := Option.isSome_iff_exists.mp hsome
      rw [hF'.node d n' hn', hF.node d n hd.node] at hsame
      rw [hF'.node d n' hn'] at hdeny
      rw [hview] at hlive
      obtain ⟨hd', htable⟩ := hd.congr hn' hheld hsame.len hsame.byte hdeny hlive
      refine ⟨⟨F', n', hF', hd'⟩, hpos, ?_⟩
      rw [hview, hF'.table hd', htable]
      exact .idle

theorem DirRun.table (h : DirRun d x₀ tr x) (hin : InOrder d x₀.1.vol) (hpos : x₀.2 % 20 = 0) :
    InOrder d x.1.vol ∧ x.2 % 20 = 0 ∧
      Slots.Run Listed (dirView d x₀) (tr.map fun y => (dirView d y.1, y.2)) (dirView d x) := by
  induction h with
  | nil => exact ⟨hin, hpos, .nil⟩
  | snoc _ hstep ih =>
      obtain ⟨hin', hpos', hrun⟩ := ih
      obtain ⟨hin'', hpos'', hs⟩ := hstep.table hin' hpos'
      rw [List.map_append]
      exact ⟨hin'', hpos'', hrun.snoc hs⟩

/-! ## A directory is a finite map -/

/-- An open directory with no entry in use. -/
def EmptyDir (d : UInt32) (v : Vol) : Prop :=
  ∃ F n, Shows v F ∧ F.node d = some n ∧ d ∈ F.refs ∧ n.DirOk ∧ ∀ k, ¬ n.Uses k

theorem EmptyDir.table {v : Vol} (h : EmptyDir d v) : InOrder d v ∧ ∀ k, (v.nodeAt d).table k = none := by
  obtain ⟨F, n, hF, hn, hd, hok, hnone⟩ := h
  have hempty : ∀ k, n.table k = none := fun k => Node.table_none.mpr (hnone k)
  have hnever : ∀ {k name s} {p : Prop}, n.table k = some (name, s) → p := by
    intro k name s p hk
    rw [hempty k] at hk
    cases hk
  refine ⟨⟨F, n, hF, hn, hd, hok, fun _ _ _ hk => hnever hk, fun _ _ _ hk => hnever hk,
    fun _ _ _ _ _ hk => hnever hk, fun _ _ _ _ _ hk => hnever hk⟩, ?_⟩
  rw [hF.node d n hn]
  exact hempty

/-- The history has put the name, and not dropped it since. -/
def Added (h : List (Event (List UInt8) UInt32)) (name : List UInt8) (s : UInt32) : Prop :=
  lastAbout name h = some (.put name s)

theorem Added.mem {h : List (Event (List UInt8) UInt32)} {name : List UInt8} {s : UInt32}
    (ha : Added h name s) : .put name s ∈ h :=
  List.mem_of_mem_filter (List.mem_of_getLast? ha)

/-- The entries in use are a finite map, and it is that of the history. -/
structure IsMap (d : UInt32) (fs : FsState) (h : List (Event (List UInt8) UInt32)) : Prop where
  names : ∀ k, (fs.vol.nodeAt d).Uses k →
    1 ≤ (cstr ((fs.vol.nodeAt d).entry k).name).length ∧
      (cstr ((fs.vol.nodeAt d).entry k).name).length ≤ nameMax
  distinct : ∀ j k, (fs.vol.nodeAt d).Uses j → (fs.vol.nodeAt d).Uses k →
    cstr ((fs.vol.nodeAt d).entry j).name = cstr ((fs.vol.nodeAt d).entry k).name → j = k
  whole : (fs.vol.nodeAt d).len % 20 = 0
  lookup : ∀ name, ∃ r fs', lookup d name fs = .ok r fs' ∧
    ∀ s, r.map (fun e => e.1.inodeSector) = some s ↔ Added h name s

/-- `dir_add` of a new inode.  A name that is none, or is there, is refused; otherwise there
may be no sector for the entry, and a directory in which every slot is in use that it can
have stops the kernel. -/
def AddsRight (d : UInt32) (fs : FsState) (h : List (Event (List UInt8) UInt32)) : Prop :=
  ∀ length name s fs₁, length < 2 ^ 31 → 0 ∉ name → createInode length fs = .ok (some s) fs₁ →
    (∃ fs₂, dirAdd d name s fs₁ = .ok false fs₂ ∧ SameBytes (fs.vol.nodeAt d) (fs₂.vol.nodeAt d)) ∨
    (name ≠ [] ∧ name.length ≤ nameMax ∧ ∀ t, ¬ Added h name t) ∧
      ((∃ fs₂, dirAdd d name s fs₁ = .ok true fs₂ ∧ Puts (fs.vol.nodeAt d) name s (fs₂.vol.nodeAt d)) ∨
        (fs.vol.nodeAt d).Full ∧ ∃ fs₂, dirAdd d name s fs₁ = .error .pastEnd fs₂)

/-- `dir_remove`. -/
def RemovesRight (d : UInt32) (fs : FsState) (h : List (Event (List UInt8) UInt32)) : Prop :=
  ∀ name, ∃ r fs', dirRemove d name fs = .ok r fs' ∧
    (r = true ∧ Drops (fs.vol.nodeAt d) name (fs'.vol.nodeAt d) ∧ (∃ s, Added h name s) ∨
      r = false ∧ SameBytes (fs.vol.nodeAt d) (fs'.vol.nodeAt d))

section Map

variable {fs : FsState} {h : List (Event (List UInt8) UInt32)}

/-- `lookup` finds a name exactly when it was added and not removed since. -/
theorem IsDirectory.isMap (hF : Shows fs.vol F) (hd : IsDirectory F d n)
    (hmap : ∀ name s, n.table.Has name s ↔ Added h name s) : IsMap d fs h := by
  have hnode := hF.node d n hd.node
  refine ⟨fun k hk => ?_, fun j k hj hk hname => ?_, ?_, fun name => ?_⟩
  · rw [hnode] at hk ⊢
    obtain ⟨hne, hle⟩ := hd.names k _ _ (Node.table_some.mpr ⟨hk, rfl, rfl⟩)
    exact ⟨List.length_pos_iff.mpr hne, hle⟩
  · rw [hnode] at hj hk hname
    exact hd.distinct j k _ _ _ (Node.table_some.mpr ⟨hj, hname, rfl⟩)
      (Node.table_some.mpr ⟨hk, rfl, rfl⟩)
  · rw [hnode]
    exact hd.ok.whole
  · have hlookup : fwp (lookup d name) (fun r F' => r = (n.find name).map (fun j => (n.entry j, 20 * j)) ∧
        F' = F) (fun _ _ => False) F := fwp_lookup hd.node hd.held hd.ok ⟨rfl, rfl⟩
    rcases wpBy_run hlookup hF with ⟨r, fs', F', hr, -, rfl, -⟩ | ⟨e, fs', -, hf⟩
    · refine ⟨_, fs', hr, fun s => ?_⟩
      rw [← hmap, ← Node.target_iff hd.distinct, Option.map_map]
      rfl
    · exact hf.elim

/-- `dir_add` puts a new name in, or leaves the directory as it was. -/
theorem IsDirectory.addsRight (hF : Shows fs.vol F) (hd : IsDirectory F d n)
    (hmap : ∀ name s, n.table.Has name s ↔ Added h name s) : AddsRight d fs h := by
  intro length name s fs₁ hlen hz hcreate
  obtain ⟨F₁, hF₁, hd₁, hfresh⟩ := wpBy_ok (hd.create hlen) hF hcreate
  have hnew : ¬ n.table.Present name → ∀ t, ¬ Added h name t :=
    fun habs t ht => habs ⟨t, (hmap name t).mpr ht⟩
  rw [hF.node d n hd.node]
  rcases wpBy_run (hd₁.add (E := fun e _ => e = .pastEnd ∧ n.Full ∧ name ≠ [] ∧ name.length ≤ nameMax ∧
    ¬ n.table.Present name) (hfresh s rfl) hz fun hfull hne hle habs _ => ⟨rfl, hfull, hne, hle, habs⟩)
    hF₁ with ⟨r, fs₂, F₂, hr, hF₂, n₂, hd₂, hout⟩ | ⟨e, fs₂, hr, rfl, hfull, hne, hle, habs⟩
  · rw [← hF₂.node d n₂ hd₂.node] at hout
    rcases hout with ⟨rfl, hputs⟩ | ⟨rfl, hsame⟩
    · exact .inr ⟨⟨hputs.valid.1, hputs.valid.2, hnew hputs.new⟩, .inl ⟨fs₂, hr, hputs⟩⟩
    · exact .inl ⟨fs₂, hr, hsame⟩
  · exact .inr ⟨⟨hne, hle, hnew habs⟩, .inr ⟨hfull, fs₂, hr⟩⟩

theorem IsDirectory.removesRight (hF : Shows fs.vol F) (hd : IsDirectory F d n)
    (hmap : ∀ name s, n.table.Has name s ↔ Added h name s) : RemovesRight d fs h := by
  intro name
  rw [hF.node d n hd.node]
  rcases wpBy_run (hd.remove (E := fun _ _ => False)) hF with
    ⟨r, fs₁, F₁, hr, hF₁, n₁, hd₁, hout⟩ | ⟨e, fs₁, -, hf⟩
  · rw [← hF₁.node d n₁ hd₁.node] at hout
    refine ⟨r, fs₁, hr, hout.imp_left fun ⟨htrue, hdrops⟩ => ⟨htrue, hdrops, ?_⟩⟩
    obtain ⟨⟨k, s, hk, -⟩, -⟩ := hdrops
    exact ⟨s, (hmap name s).mp ⟨k, hk⟩⟩
  · exact hf.elim

end Map

theorem DirRun.has_iff (hrun : DirRun d x₀ tr x) (h₀ : EmptyDir d x₀.1.vol) (hpos : x₀.2 = 0)
    (name : List UInt8) (s : UInt32) :
    (x.1.vol.nodeAt d).table.Has name s ↔ Added (tr.map Prod.snd) name s := by
  obtain ⟨hin₀, hempty⟩ := h₀.table
  obtain ⟨-, -, htable⟩ := hrun.table hin₀ (by rw [hpos])
  have hiff := htable.has_iff (k := name) (a := s) hempty
  rw [List.map_map] at hiff
  exact hiff

/-- After every run that starts with an empty directory it is the finite map of the calls
that succeeded, and the next call goes by that. -/
theorem directory_is_finite_map (hrun : DirRun d x₀ tr x) (h₀ : EmptyDir d x₀.1.vol)
    (hpos : x₀.2 = 0) :
    IsMap d x.1 (tr.map Prod.snd) ∧ AddsRight d x.1 (tr.map Prod.snd) ∧
    RemovesRight d x.1 (tr.map Prod.snd) := by
  obtain ⟨⟨F, n, hF, hd⟩, -, -⟩ := hrun.table h₀.table.1 (by rw [hpos])
  have hmap : ∀ name s, n.table.Has name s ↔ Added (tr.map Prod.snd) name s := by
    rw [← hF.table hd]
    exact hrun.has_iff h₀ hpos
  exact ⟨hd.isMap hF hmap, hd.addsRight hF hmap, hd.removesRight hF hmap⟩

/-! ### A first entry -/

theorem Booted.root_len {v₁ v : Vol} (h : Booted v₁ v) : (v.nodeAt rootDirSector).len = 0 := by
  have hheader : v.header rootDirSector = rootInode := Vol.header_open h.root
  have hl : rootInode.len = 0 := by decide
  rw [← hl, ← hheader]
  rfl

/-- The root directory of a freshly formatted disk is empty. -/
theorem Booted.emptyDir {v₁ v : Vol} (h : Booted v₁ v) : EmptyDir rootDirSector v := by
  have hlen := h.root_len
  have hdeny : (v.nodeAt rootDirSector).denyWriteCnt = 0 := by
    show v.denyAt rootDirSector = 0
    unfold Vol.denyAt
    rw [h.root]
    rfl
  have hnode : (rootFiles v).node rootDirSector = some (v.nodeAt rootDirSector) := by
    unfold rootFiles
    dsimp only
    rw [if_pos rfl]
  refine ⟨rootFiles v, v.nodeAt rootDirSector, h.shows, hnode, Multiset.mem_singleton_self _,
    ⟨?_, ?_, hdeny⟩, fun k hk => ?_⟩
  · rw [hlen]
  · rw [hlen]
    exact Nat.zero_le _
  · have hlt := hk.1
    unfold Node.slots at hlt
    omega

theorem Node.slotEnd_first (hlen : n.len = 0) : n.slotEnd = 20 := by
  have hfree := n.freeSlot_le
  unfold Node.slots at hfree
  unfold Node.slotEnd
  omega

/-- A first entry needs one sector. -/
theorem Node.need_first (hlen : n.len = 0) : n.need n.slotEnd = 1 := by
  have h20 : sectors 20 = 1 := by decide
  have h0 : sectors 0 = 0 := by decide
  have hearly : early n.ptr 1 = early n.ptr 0 :=
    if_congr (and_congr_left' (by decide)) rfl rfl
  unfold Node.need Fs.need
  rw [n.slotEnd_first hlen, hlen, h20, h0, hearly]
  omega

theorem Node.find_empty {n : Node} (hnone : ∀ k, ¬ n.Uses k) (name : List UInt8) : n.find name = none :=
  Option.eq_none_iff_forall_ne_some.mpr fun k hk =>
    hnone k ⟨(Node.find_lt hk).1, (Node.find_lt hk).2.1⟩

theorem Node.slotEnd_empty (hnone : ∀ k, ¬ n.Uses k) : n.slotEnd = 20 := by
  have hslot : n.freeSlot = 0 := Nat.eq_zero_of_not_pos fun hlt => hnone 0 (Node.freeSlot_used hlt)
  rw [Node.slotEnd, hslot]

/-- An empty file that was added just now: nobody has it open. -/
structure AddedFile (s : UInt32) (v : Vol) : Prop where
  closed : v.openAt s = 0
  children : ¬ 2 < (v.nodeAt s).children
  doubly : (v.nodeAt s).ptr .doubly = unallocated

/-- An empty file is added to an empty directory, if there are sectors for it and for the entry. -/
theorem EmptyDir.add {fs : FsState} {name : List UInt8} (h : EmptyDir d fs.vol) (hne : name ≠ [])
    (hle : name.length ≤ nameMax) (hz : 0 ∉ name)
    (hfree : ((fs.vol.nodeAt d).taken (fs.vol.nodeAt d).slotEnd) < freeCnt fs.vol.freeMap) :
    ∃ s fs₁ fs₂, createInode 0 fs = .ok (some s) fs₁ ∧ dirAdd d name s fs₁ = .ok true fs₂ ∧
      AddedFile s fs₂.vol := by
  obtain ⟨F, n, hF, hn, hd, hok, hnone⟩ := h
  rw [hF.node d n hn, hF.freeMap] at hfree
  have h0 : sectors 0 = 0 := by decide
  have hcreate : fwp (createInode 0) (fun r F₁ => ∃ s p m, r = some s ∧ F₁.node d = some n ∧ d ∈ F₁.refs ∧
      F₁.node s = some (newNode 0 p) ∧ p .doubly = unallocated ∧ s ≠ d ∧ s ∉ F₁.refs ∧ F₁.freeMap = m ∧
        n.taken n.slotEnd ≤ freeCnt m) (fun _ _ => False) F := by
    refine fwp_createInode (fun _ hlt => ?_) (by decide) (fun hz => ?_)
      fun s p m hs hnew href htakes => ?_
    · omega
    · omega
    · have hsd : s ≠ d := by
        rintro rfl
        exact href hd
      refine ⟨s, p, m, rfl, (Files.set_node_other hsd.symm).trans hn, hd, Files.set_node_self,
        htakes.doubly (Nat.zero_le _), hsd, href, rfl, ?_⟩
      have htaken := htakes.free
      omega
  rcases wpBy_run hcreate hF with
    ⟨r, fs₁, F₁, hr, hF₁, s, p, m, rfl, hn₁, hd₁, hm, hdoubly, hsd, href, rfl, hroom⟩ |
    ⟨e, fs₁, -, hf⟩
  swap
  · exact hf.elim
  have hfind := Node.find_empty hnone name
  have hend : n.slotEnd ≤ maxFileLen := by
    rw [Node.slotEnd_empty hnone]
    decide
  have hadd : fwp (dirAdd d name s) (fun r F₂ => r = true ∧ ∃ m, F₂.node s = some m ∧ s ∉ F₂.refs ∧
      ¬ 2 < m.children ∧ m.ptr .doubly = unallocated) (fun _ _ => False) F₁ := by
    refine fwp_dirAdd (fun _ _ _ => .inl hend) hn₁ hd₁ hok ⟨_, hm⟩ hz (fun hbad => ?_)
      (fun _ _ _ _ _ b _ hshort => ?_) fun e sv p' b m' _ _ _ _ _ _ _ _ _ hm' =>
      ⟨rfl, _, Files.set_node_self, href, ?_⟩
    · rcases hbad with hbad | hbad | hbad
      · exact absurd hbad hne
      · omega
      · exact absurd hfind hbad
    · have hlt := hshort.short
      unfold Node.taken at hroom
      rw [if_pos hshort.grows] at hroom
      omega
    · rw [Files.set_node_other hsd, hm] at hm'
      cases hm'
      have hone : ¬ (2 : Int32) < 0 + 1 := by decide
      exact ⟨hone, hdoubly⟩
  rcases wpBy_run hadd hF₁ with
    ⟨r, fs₂, F₂, hr₂, hF₂, rfl, m, hm₂, hclosed, hchildren, hdoubly⟩ | ⟨e, fs₂, -, hf⟩
  · refine ⟨s, fs₁, fs₂, hr, hr₂, ?_, ?_, ?_⟩
    · rw [hF₂.refs s (hF₂.live hm₂).2]
      exact Multiset.count_eq_zero.mpr hclosed
    · rw [hF₂.node s m hm₂]
      exact hchildren
    · rw [hF₂.node s m hm₂]
      exact hdoubly
  · exact hf.elim

theorem AddedFile.congr {v v' : Vol} {s : UInt32} (h : AddedFile s v) (hs : (F.node s).isSome = true)
    (hF : Shows v F) (hF' : Shows v' F) : AddedFile s v' := by
  obtain ⟨m, hm⟩ := Option.isSome_iff_exists.mp hs
  obtain ⟨hopen, hchildren, hdoubly⟩ := h
  have hlive := (hF.live hm).2
  have hnode : v'.nodeAt s = v.nodeAt s := (hF'.node s m hm).trans (hF.node s m hm).symm
  exact ⟨(hF'.refs s hlive).trans ((hF.refs s hlive).symm.trans hopen), hnode ▸ hchildren,
    hnode ▸ hdoubly⟩

/-- A file that nobody has open is removed with its entry, and a sector is free. -/
theorem AddedFile.remove {fs : FsState} {s : UInt32} {name : List UInt8} (h : AddedFile s fs.vol)
    (hin : InOrder d fs.vol) (hhas : (fs.vol.nodeAt d).table.Has name s) :
    ∃ fs', dirRemove d name fs = .ok true fs' ∧ 0 < freeCnt fs'.vol.freeMap ∧
      20 ≤ (fs'.vol.nodeAt d).len := by
  obtain ⟨F, n, hF, hd⟩ := hin
  obtain ⟨k, hk⟩ := hhas
  rw [hF.node d n hd.node] at hk
  obtain ⟨m, hm⟩ := Option.isSome_iff_exists.mp (hd.live k name s hk)
  obtain ⟨hopen, hchildren, hdoubly⟩ := h
  rw [hF.refs s (hF.live hm).2, Multiset.count_eq_zero] at hopen
  rw [hF.node s m hm] at hchildren hdoubly
  have hsd : s ≠ d := fun he => hopen (he ▸ hd.held)
  obtain ⟨⟨hlt, -⟩, -, hsector⟩ := Node.table_some.mp hk
  have hrun : fwp (dirRemove d name) (fun r F₁ => r = true ∧ 0 < freeCnt F₁.freeMap ∧
      F₁.node d = some (n.erased k)) (fun _ _ => False) F := by
    refine fwp_dirRemove hd.node hd.held hd.ok (fun hnone => ?_) fun j hj => ?_
    · exact absurd ⟨s, k, hk⟩ (Node.find_none hnone)
    · obtain rfl := hd.distinct j k _ _ _ (Node.find_some hj) hk
      refine ⟨s, m, hsector, hm, fun hmany => absurd hmany hchildren, fun he => absurd he hsd,
        fun _ _ => ⟨fun hmem => absurd hmem hopen, fun _ b hfree => ⟨rfl, hfree hdoubly, ?_⟩⟩⟩
      exact (Function.update_of_ne hsd.symm ..).trans Files.set_node_self
  rcases wpBy_run hrun hF with ⟨r, fs', F₁, hr, hF₁, rfl, hfree, hn₁⟩ | ⟨e, fs', -, hf⟩
  · refine ⟨fs', hr, hF₁.freeMap ▸ hfree, ?_⟩
    rw [hF₁.node d _ hn₁]
    show 20 ≤ max n.len (20 * k + (DirEntry.toBytes _).length)
    rw [DirEntry.length_toBytes]
    omega
  · exact hf.elim

/-- `readdir` changes nothing that is shown. -/
theorem InOrder.readdir {fs : FsState} {pos : Nat} (h : InOrder d fs.vol) (hpos : pos % 20 = 0) :
    ∃ r file fs' F n, Fs.readdir ⟨d, pos⟩ fs = .ok (r, file) fs' ∧ IsDirectory F d n ∧ Shows fs.vol F ∧
      Shows fs'.vol F := by
  obtain ⟨F, n, hF, hd⟩ := h
  obtain ⟨c, rfl⟩ : ∃ c, pos = 20 * c := ⟨pos / 20, by omega⟩
  rcases wpBy_run (hd.readdir (E := fun _ _ => False) c) hF with
    ⟨⟨r, file⟩, fs', F', hr, hF', rfl, -⟩ | ⟨e, fs', -, hf⟩
  · exact ⟨r, file, fs', F', n, hr, hd, hF, hF'⟩
  · exact hf.elim

/-- No entry is in use. -/
theorem InOrder.empty {v : Vol} (h : InOrder d v) (hnone : ∀ k, (v.nodeAt d).table k = none) :
    EmptyDir d v := by
  obtain ⟨F, n, hF, hd⟩ := h
  rw [hF.node d n hd.node] at hnone
  exact ⟨F, n, hF, hd.node, hd.held, hd.ok, fun k => Node.table_none.mp (hnone k)⟩

/-- An open descriptor of an empty directory: a file is added, listed and removed, the listing ends,
and another file takes the place of the first. -/
theorem EmptyDir.replace {fs : FsState} (h : EmptyDir d fs.vol) (hlen : (fs.vol.nodeAt d).len = 0)
    (hfree : 2 ≤ freeCnt fs.vol.freeMap) : ∃ s s' tr x, DirRun d (fs, 0) tr x ∧
      tr.map Prod.snd = [.put [102] s, .read [102], .drop [102], .stop, .put [103] s'] := by
  have hzero : (0 : Nat) < 2 ^ 31 := by decide
  have hroom : (fs.vol.nodeAt d).taken (fs.vol.nodeAt d).slotEnd < freeCnt fs.vol.freeMap := by
    have hone := Node.need_first hlen
    unfold Node.taken
    split <;> omega
  obtain ⟨s, fs₁, fs₂, hcreate, hadd, hadded⟩ :=
    h.add (List.cons_ne_nil 102 []) (by decide) (by decide) hroom
  have hput : DirStep d (fs, 0) (.put [102] s) (fs₂, 0) := .dirAdd hzero (by decide) hcreate hadd
  have hrun₁ := DirRun.nil.snoc hput
  have hhas₁ := hrun₁.has_iff h rfl
  obtain ⟨hin₁, -, htable₁⟩ := hrun₁.table h.table.1 rfl
  -- the listing comes to the file
  obtain ⟨r, file, fs₃, F, n, hread, hd, hF₂, hF₃⟩ := hin₁.readdir (Nat.zero_mod 20)
  have hlist : DirStep d (fs₂, 0) (listed r) (fs₃, file.pos) := .readdir hread
  obtain rfl : r = some [102] := by
    obtain ⟨-, -, hs⟩ := hlist.table hin₁ rfl
    cases r with
    | none =>
        obtain ⟨j, hj⟩ := (hhas₁ [102] s).mpr rfl
        have hlisted : Listed [102] := ⟨by decide, by decide⟩
        have hcursor : (0 : Nat) / 20 ≤ j := Nat.zero_le j
        exact absurd hlisted (hs.stop_hidden j hcursor _ _ hj)
    | some name =>
        obtain ⟨-, a, ha⟩ := hs.read_present
        cases List.mem_singleton.mp ((hhas₁ name a).mp ha).mem
        rfl
  have hrun₂ := hrun₁.snoc hlist
  obtain ⟨hin₂, hpos₂, -⟩ := hrun₂.table h.table.1 rfl
  have hnamed : (F.node s).isSome = true := by
    obtain ⟨j, hj⟩ := (hhas₁ [102] s).mpr rfl
    rw [hF₂.table hd] at hj
    exact hd.live j [102] s hj
  -- it is removed, and the listing ends
  obtain ⟨fs₄, hremove, hfree₄, hlen₄⟩ :=
    (hadded.congr hnamed hF₂ hF₃).remove hin₂ ((hrun₂.has_iff h rfl [102] s).mpr rfl)
  have hdrop : DirStep d (fs₃, file.pos) (.drop [102]) (fs₄, file.pos) := .dirRemove hremove
  have hrun₃ := hrun₂.snoc hdrop
  have hhas₃ := hrun₃.has_iff h rfl
  obtain ⟨hin₃, hpos₃, -⟩ := hrun₃.table h.table.1 rfl
  have hgone : ∀ name a, ¬ (fs₄.vol.nodeAt d).table.Has name a := by
    intro name a ha
    have hadd := (hhas₃ name a).mp ha
    rcases List.mem_cons.mp hadd.mem with he | he
    · cases he
      cases hadd
    · rcases List.mem_cons.mp he with he | he
      · cases he
      · cases List.mem_singleton.mp he
  obtain ⟨r', file', fs₅, F', n', hread', hd', hF₄, hF₅⟩ := hin₃.readdir hpos₃
  have hend : DirStep d (fs₄, file.pos) (listed r') (fs₅, file'.pos) := .readdir hread'
  obtain rfl : r' = none := by
    obtain ⟨-, -, hs⟩ := hend.table hin₃ hpos₃
    cases r' with
    | none => rfl
    | some name =>
        obtain ⟨-, a, ha⟩ := hs.read_present
        exact absurd ha (hgone name a)
  have hrun₄ := hrun₃.snoc hend
  obtain ⟨hin₄, -, -⟩ := hrun₄.table h.table.1 rfl
  -- the next file needs no more than a sector for its inode
  have hsame : fs₅.vol.nodeAt d = fs₄.vol.nodeAt d :=
    (hF₅.node d n' hd'.node).trans (hF₄.node d n' hd'.node).symm
  have hempty : EmptyDir d fs₅.vol := hin₄.empty fun k => by
    rw [hsame]
    refine Option.eq_none_iff_forall_ne_some.mpr fun e hk => hgone e.1 e.2 ⟨k, hk⟩
  have hnothing : (fs₅.vol.nodeAt d).taken (fs₅.vol.nodeAt d).slotEnd < freeCnt fs₅.vol.freeMap := by
    have hunused : ∀ k, ¬ (fs₄.vol.nodeAt d).Uses k := fun k hk =>
      hgone _ _ ⟨k, Node.table_some.mpr ⟨hk, rfl, rfl⟩⟩
    rw [hsame, Node.taken, Node.slotEnd_empty hunused, if_neg (Nat.not_lt.mpr hlen₄), hF₅.freeMap,
      ← hF₄.freeMap]
    exact hfree₄
  obtain ⟨s', fs₆, fs₇, hcreate', hadd', -⟩ :=
    hempty.add (List.cons_ne_nil 103 []) (by decide) (by decide) hnothing
  have hput' : DirStep d (fs₅, file'.pos) (.put [103] s') (fs₇, file'.pos) :=
    .dirAdd hzero (by decide) hcreate' hadd'
  exact ⟨s, s', _, _, hrun₄.snoc hput', rfl⟩

/-- The root directory of a small disk. -/
theorem smallFs_replace : ∃ fs s s' tr x, EmptyDir rootDirSector fs.vol ∧
    DirRun rootDirSector (fs, 0) tr x ∧
      tr.map Prod.snd = [.put [102] s, .read [102], .drop [102], .stop, .put [103] s'] := by
  have hinit : filesysInit (bootFs smallDisk) = .ok () smallFs := run_of_returnedValue (by decide +kernel)
  obtain ⟨v₁, hb⟩ := wpOn_ok (filesysInit_spec smallDisk) hinit
  have hfree : 2 ≤ freeCnt smallFs.vol.freeMap := by decide +kernel
  obtain ⟨s, s', tr, x, hrun, hevents⟩ := hb.emptyDir.replace hb.root_len hfree
  exact ⟨smallFs, s, s', tr, x, hb.emptyDir, hrun, hevents⟩

theorem directory_is_finite_map_small : ∃ fs s s' tr x, DirRun rootDirSector (fs, 0) tr x ∧
    tr.map Prod.snd = [.put [102] s, .read [102], .drop [102], .stop, .put [103] s'] ∧
      IsMap rootDirSector x.1 [.put [102] s, .read [102], .drop [102], .stop, .put [103] s'] := by
  obtain ⟨fs, s, s', tr, x, hempty, hrun, hevents⟩ := smallFs_replace
  exact ⟨fs, s, s', tr, x, hrun, hevents, hevents ▸ (directory_is_finite_map hrun hempty rfl).1⟩

/-! ## The listing is complete -/

/-- The directory has an entry in use of that name. -/
def HasName (d : UInt32) (fs : FsState) (name : List UInt8) : Prop :=
  ∃ k, (fs.vol.nodeAt d).Uses k ∧ cstr ((fs.vol.nodeAt d).entry k).name = name

theorem hasName_iff {name : List UInt8} : HasName d x.1 name ↔ (dirView d x).table.Present name := by
  constructor
  · rintro ⟨k, hk, hname⟩
    exact ⟨_, k, Node.table_some.mpr ⟨hk, hname, rfl⟩⟩
  · rintro ⟨s, k, hk⟩
    obtain ⟨huse, hname, -⟩ := Node.table_some.mp hk
    exact ⟨k, huse, hname⟩

/-- What is said of the calls of `readdir` in a run. -/
structure Complete (d : UInt32) (tr : List (DirState × Event (List UInt8) UInt32)) : Prop where
  present : ∀ y name, (y, .read name) ∈ tr → name ≠ dot ∧ name ≠ dotDot ∧ HasName d y.1 name
  once : ∀ pre mid y post name, tr = pre ++ mid ++ (y, .stop) :: post →
    (∀ z ∈ pre, ∀ name', z.2 ≠ .read name') → name ≠ dot → name ≠ dotDot →
    (∀ z ∈ mid, HasName d z.1.1 name) → HasName d y.1 name →
    ∃ mid₁ z mid₂, mid = mid₁ ++ (z, .read name) :: mid₂ ∧
      (∀ u ∈ mid₁, u.2 ≠ .read name) ∧ ∀ u ∈ mid₂, u.2 ≠ .read name
  again : ∀ pre y mid z post name, tr = pre ++ (y, .read name) :: (mid ++ (z, .read name) :: post) →
    ∃ mid₁ a mid₂ b mid₃ s, mid = mid₁ ++ (a, .drop name) :: (mid₂ ++ (b, .put name s) :: mid₃)

/-- An event of a mapped run. -/
theorem map_eq_around {α β : Type} {f : α → β} {l : List α} {l₁ l₂ : List β} {b : β}
    (h : l.map f = l₁ ++ b :: l₂) :
    ∃ l₁' a l₂', l = l₁' ++ a :: l₂' ∧ f a = b ∧ l₁'.map f = l₁ ∧ l₂'.map f = l₂ := by
  obtain ⟨l₁', rest, rfl, h₁, h₂⟩ := List.map_eq_append_iff.mp h
  obtain ⟨a, l₂', rfl, ha, h₂⟩ := List.map_eq_cons_iff.mp h₂
  exact ⟨l₁', a, l₂', rfl, ha, h₁, h₂⟩

/-- A descriptor that was opened just now lists what stays exactly once, and what it lists is
there; a name comes twice only if it was removed and added in between. -/
theorem listing_is_complete (hrun : DirRun d x₀ tr x) (hin : InOrder d x₀.1.vol) (hpos : x₀.2 = 0) :
    Complete d tr := by
  obtain ⟨F, n, hF, hd⟩ := hin
  have hdistinct : (dirView d x₀).table.Distinct := by
    unfold dirView
    rw [hF.table hd]
    exact hd.distinct
  obtain ⟨-, -, htable⟩ := hrun.table ⟨F, n, hF, hd⟩ (by rw [hpos])
  have hmem : ∀ {l : List (DirState × Event (List UInt8) UInt32)} {e : Event (List UInt8) UInt32},
      (∀ u ∈ l.map fun y => (dirView d y.1, y.2), u.2 ≠ e) → ∀ u ∈ l, u.2 ≠ e :=
    fun h u hu => h _ (List.mem_map_of_mem hu)
  refine ⟨fun y name hy => ?_, fun pre mid y post name htr hpre hdot hdots hall hy => ?_,
    fun pre y mid z post name htr => ?_⟩
  · obtain ⟨hlisted, hpresent⟩ := htable.read_present (List.mem_map_of_mem hy)
    exact ⟨hlisted.2, hlisted.1, hasName_iff.mpr hpresent⟩
  · subst htr
    simp only [List.map_append, List.map_cons] at htable
    obtain ⟨tr₁, s, tr₂, hmid, h₁, h₂⟩ := htable.once hdistinct (by rw [dirView, hpos])
      (fun z hz name' => by
        obtain ⟨u, hu, rfl⟩ := List.mem_map.mp hz
        exact hpre u hu name') ⟨hdots, hdot⟩
      (fun z hz => by
        obtain ⟨u, hu, rfl⟩ := List.mem_map.mp hz
        exact hasName_iff.mp (hall u hu)) (hasName_iff.mp hy)
    obtain ⟨mid₁, ⟨z, e⟩, mid₂, rfl, hz, rfl, rfl⟩ := map_eq_around hmid
    obtain rfl : e = .read name := (Prod.mk.inj hz).2
    exact ⟨mid₁, z, mid₂, rfl, hmem h₁, hmem h₂⟩
  · subst htr
    simp only [List.map_append, List.map_cons] at htable
    obtain ⟨m₁, s₁, m₂, s₂, m₃, s, hmid⟩ := htable.again hdistinct
    obtain ⟨mid₁, ⟨a, e⟩, rest, rfl, ha, -, hrest⟩ := map_eq_around hmid
    obtain rfl : e = .drop name := (Prod.mk.inj ha).2
    obtain ⟨mid₂, ⟨b, e⟩, mid₃, rfl, hb, -, -⟩ := map_eq_around hrest
    obtain rfl : e = .put name s := (Prod.mk.inj hb).2
    exact ⟨mid₁, a, mid₂, b, mid₃, s, rfl⟩

theorem listing_is_complete_small : ∃ fs s s' tr x, DirRun rootDirSector (fs, 0) tr x ∧
    tr.map Prod.snd = [.put [102] s, .read [102], .drop [102], .stop, .put [103] s'] ∧
      Complete rootDirSector tr := by
  obtain ⟨fs, s, s', tr, x, hempty, hrun, hevents⟩ := smallFs_replace
  exact ⟨fs, s, s', tr, x, hrun, hevents, listing_is_complete hrun hempty.table.1 rfl⟩

end CS162.Fs
