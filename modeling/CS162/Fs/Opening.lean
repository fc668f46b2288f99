/-
# `CS162.Fs.Opening` — `filesys_open`, `chdir` and `filesys_remove`

The calls follow the path.  `chdir` takes the directory that it led to.  `filesys_open` looks the last
component up once more: in the directory that holds it, or, if the path led to a directory, in the one
that the entry `..` of that directory names (`Files.lookedUp`).  Neither of the two changes an inode.
`filesys_remove` takes the last component out of one of these directories (`remove_spec`).
-/
import CS162.Fs.LongNames

namespace CS162.Fs

open Bytes Wp

variable {F : Files} {d t : UInt32} {b : Bool} {n : Node} {name path : List UInt8} {part : NameBuf}
  {cwd : Option UInt32} {r : Multiset UInt32} {E : Panic → Vol → Prop}

/-- What `filesys_open` finds when the path has led to `d`. -/
def Files.lookedUp (F : Files) (d : UInt32) (b : Bool) (name : List UInt8) : Option UInt32 :=
  if b = true ∧ name ≠ dot then (F.child d dotDot).bind fun p => F.child p name else F.child d name

/-- An inode that `dir_lookup` can search: a directory, or one without an entry in use.  The second may
be too long to be searched to its end. -/
def Files.Searched (F : Files) (E : Panic → Vol → Prop) (d : UInt32) : Prop :=
  F.IsDir d ∨ (∀ n, F.node d = some n → ∀ k, (n.entry k).inUse = 0) ∧ ∀ v', E .spin v'

/-- `output_follow_file_path` with directories that come to an end. -/
theorem follow_total {P : Follow → Files → Prop} (hhome : F.Home cwd) (hac : F.Acyclic) (hz : 0 ∉ path)
    (hstart : startDir cwd path ≠ none)
    (hsome : ∀ d b f, F.followPath cwd path = some (d, b) → F.IsDir d → f.success = true →
      f.dir = some d → f.partIsDir = b → cstr f.part = lastPart (parts path) part →
      P f (F.withRefs (d ::ₘ F.refs)))
    (hnone : ∀ f r, F.followPath cwd path = none → f.success = false → P f (F.withRefs r)) :
    fwp (outputFollowFilePath cwd path part) P E F := by
  by_cases hlong : ∃ c ∈ parts path, nameMax < c.length
  · have hfollow : F.followPath cwd path = none := by
      refine Option.eq_none_iff_forall_ne_some.mpr fun x hx => ?_
      exact (F.followPath_short (d := x.1) (b := x.2) hx).2.2 hlong
    intro fs hfs
    refine wp_mono (fwp_refused hhome hac hz hstart hlong part fs hfs) ?_ fun _ _ he => he
    rintro f fs' ⟨F', hF', hfail, r, rfl⟩
    exact ⟨_, hF', hnone f r hfollow hfail⟩
  · exact follow_spec hhome hz (fun _ hno => absurd hno hstart) (fun h => absurd h hlong) hsome
      fun f r hf hs _ => hnone f r hf hs

/-- `dir_lookup` of a directory of the tree. -/
theorem fwp_lookedUp {P : Option UInt32 → Files → Prop} (htree : F.Tree) (hd : F.Searched E d)
    (hn : ∃ n, F.node d = some n) (hr : d ∈ r) (hnone : F.child d name = none → P none (F.withRefs r))
    (hsome : ∀ t, F.child d name = some t → P (some t) (F.withRefs (t ::ₘ r))) :
    fwp (dirLookup d name) P E (F.withRefs r) := by
  obtain ⟨n, hn⟩ := hn
  have hchild : F.child d name = n.target name := by
    unfold Files.child
    rw [hn]
    rfl
  rw [hchild] at hnone hsome
  rcases hd with ⟨m, hm, hne⟩ | ⟨hfree, hspin⟩
  · obtain rfl := Option.some.inj (hn.symm.trans hm)
    exact fwp_dirLookup (F := F.withRefs r) hn hr (htree.dirOk d n hn hne) hnone
      fun t ht => ⟨htree.child hn hne ht, hsome t ht⟩
  · refine fwp_dirLookup_unused (F := F.withRefs r) hn hr (hfree n hn) hspin (hnone ?_)
    unfold Node.target
    rw [Node.find_empty fun k hk => hk.2 (hfree n hn k)]
    rfl

/-- The last two steps of `filesys_open`. -/
theorem fwp_lookupIn {P : Option UInt32 → Files → Prop} (htree : F.Tree) (hcalm : (F.withRefs r).Calm)
    (hd : F.Searched E d) (hn : ∃ n, F.node d = some n)
    (hnone : F.child d name = none → P none (F.withRefs r))
    (hsome : ∀ t, F.child d name = some t → P (some t) (F.withRefs (t ::ₘ r))) :
    fwp (do
      let inode ← dirLookup d name
      inodeClose d
      return inode) P E (F.withRefs (d ::ₘ r)) := by
  refine wpBy_seq (fwp_lookedUp (P := fun x F₁ => F.child d name = none ∧ x = none ∧
    F₁ = F.withRefs (d ::ₘ r) ∨ ∃ t, F.child d name = some t ∧ x = some t ∧
      F₁ = F.withRefs (t ::ₘ d ::ₘ r)) htree hd hn (Multiset.mem_cons_self d r)
    (fun h => .inl ⟨h, rfl, rfl⟩) fun t h => .inr ⟨t, h, rfl, rfl⟩) ?_
  rintro x F₁ (⟨h, rfl, rfl⟩ | ⟨t, h, rfl, rfl⟩)
  · refine wpBy_seq (fwp_unref (Q := fun _ F₂ => F₂ = F.withRefs r) hcalm rfl rfl) ?_
    rintro - F₂ rfl
    exact wpBy_pure (hnone h)
  · refine wpBy_seq (fwp_unref (Q := fun _ F₂ => F₂ = F.withRefs (t ::ₘ r)) (hcalm.cons t)
      (Multiset.cons_swap ..) rfl) ?_
    rintro - F₂ rfl
    exact wpBy_pure (hsome t h)

/-- `/` is opened without a search. -/
theorem open_root {P : Option UInt32 → Files → Prop} (hn : F.node rootDirSector = some n)
    (h : P (some rootDirSector) (F.withRefs (rootDirSector ::ₘ F.refs))) :
    fwp (filesysOpen cwd [slash] part) P E F := by
  refine wpBy_ite (fun _ => ?_) fun hno => absurd rfl hno
  refine wpBy_seq (fwp_inodeOpen (Q := fun _ F₁ => F₁ = F.withRefs (rootDirSector ::ₘ F.refs)) hn rfl) ?_
  rintro - F₁ rfl
  exact wpBy_pure h

/-- `filesys_open` finds what is looked up at the end, and nothing where the path leads nowhere. -/
theorem open_spec (part : NameBuf) (hhome : F.Home cwd) (hac : F.Acyclic) (hz : 0 ∉ path)
    (hstart : startDir cwd path ≠ none) (hslash : path ≠ [slash])
    (hup : ∀ d p, F.followPath cwd path = some (d, true) → F.child d dotDot = some p → F.Searched E p) :
    fwp (filesysOpen cwd path part) (fun x F' =>
      x = ((F.followPath cwd path).bind fun y => F.lookedUp y.1 y.2 (lastPart (parts path) part)) ∧
      ∃ r, F' = F.withRefs r ∧ ∀ t, x = some t → t ∈ r) E F := by
  have hcwd : ¬ (path.head? ≠ some slash ∧ cwd = none) := by
    rintro ⟨hhead, rfl⟩
    exact hstart (if_neg hhead)
  refine fwp_calm fun hcalm => ?_
  have hcalm' : (F.withRefs F.refs).Calm := hcalm
  refine wpBy_ite (fun h => absurd h hslash) fun _ => wpBy_ite (fun h => absurd h hcwd) fun _ => ?_
  refine wpBy_seq (follow_total (P := fun f F₁ =>
    F.followPath cwd path = none ∧ f.success = false ∧ (∃ r, F₁ = F.withRefs r) ∨
    ∃ d, F.followPath cwd path = some (d, f.partIsDir) ∧ F.IsDir d ∧ f.success = true ∧ f.dir = some d ∧
      cstr f.part = lastPart (parts path) part ∧ F₁ = F.withRefs (d ::ₘ F.refs)) hhome hac hz hstart
    (fun d b f hf hd hs hdir hb hlast => .inr ⟨d, by rw [hb]; exact hf, hd, hs, hdir, hlast, rfl⟩)
    fun f r hf hs => .inl ⟨hf, hs, r, rfl⟩) ?_
  rintro ⟨success, dir, last, isDir⟩ F₁ (⟨hf, rfl, r, rfl⟩ | ⟨d, hf, hd, rfl, rfl, hlast, rfl⟩)
  · refine wpBy_pure ⟨?_, r, rfl, fun t ht => by cases ht⟩
    rw [hf]
    rfl
  rw [hf, Option.bind_some, ← hlast]
  have hnode : ∃ n, F.node d = some n := by
    obtain ⟨n, hn, -⟩ := hd
    exact ⟨n, hn⟩
  refine wpBy_ite (fun hback => ?_) fun hback => ?_
  · -- back to the directory above, and down again
    have hlooked : F.lookedUp d isDir (cstr last) = (F.child d dotDot).bind fun p =>
      F.child p (cstr last) :=
      if_pos hback
    have hf' : F.followPath cwd path = some (d, true) :=
      hf.trans (congrArg (fun b => some (d, b)) hback.1)
    rw [hlooked]
    refine wpBy_seq (fwp_lookupIn (P := fun x F₂ => F.child d dotDot = none ∧ x = none ∧
      F₂ = F.withRefs F.refs ∨ ∃ p, F.child d dotDot = some p ∧ x = some p ∧
        F₂ = F.withRefs (p ::ₘ F.refs)) hhome.tree hcalm' (.inl hd) hnode
      (fun h => .inl ⟨h, rfl, rfl⟩) fun p h => .inr ⟨p, h, rfl, rfl⟩) ?_
    rintro x F₂ (⟨h, rfl, rfl⟩ | ⟨p, h, rfl, rfl⟩)
    · refine wpBy_pure ⟨?_, F.refs, rfl, fun t ht => by cases ht⟩
      rw [h]
      rfl
    · obtain ⟨n, hn, hne⟩ := hd
      have hp : n.target dotDot = some p := by
        unfold Files.child at h
        rwa [hn] at h
      rw [h]
      refine fwp_lookupIn hhome.tree hcalm' (hup d p hf' h) (hhome.tree.child hn hne hp) (fun hc => ?_)
        fun t hc => ?_
      · exact ⟨hc.symm, F.refs, rfl, fun t ht => by cases ht⟩
      · refine ⟨hc.symm, _, rfl, fun u hu => ?_⟩
        obtain rfl := Option.some.inj hu
        exact Multiset.mem_cons_self _ _
  · have hlooked : F.lookedUp d isDir (cstr last) = F.child d (cstr last) := if_neg hback
    rw [hlooked]
    refine wpBy_seq (wpBy_pure (Q := fun x F₂ => x = some d ∧ F₂ = F.withRefs (d ::ₘ F.refs)) ⟨rfl,
      rfl⟩) ?_
    rintro x F₂ ⟨rfl, rfl⟩
    refine fwp_lookupIn hhome.tree hcalm' (.inl hd) hnode (fun hc => ?_) fun t hc => ?_
    · exact ⟨hc.symm, F.refs, rfl, fun t ht => by cases ht⟩
    · refine ⟨hc.symm, _, rfl, fun u hu => ?_⟩
      obtain rfl := Option.some.inj hu
      exact Multiset.mem_cons_self _ _

/-- What `chdir` makes of the thread's directory. -/
def Files.changed (F : Files) (cwd : Option UInt32) (path : List UInt8) : Bool × Option UInt32 :=
  match F.followPath cwd path with
  | some (d, true) => (true, some d)
  | _ => (false, cwd)

/-- `chdir`.  The old directory is closed. -/
theorem chdir_spec {c : UInt32} (part : NameBuf) (hhome : F.Home (some c)) (hac : F.Acyclic)
    (hz : 0 ∉ path)
    (hcalm : (F.withRefs 0).Calm) :
    fwp (chdir (some c) path part) (fun x F' => x = F.changed (some c) path ∧ ∃ r, F' = F.withRefs r)
      E F := by
  have hstart : startDir (some c) path ≠ none := by
    unfold startDir
    split <;> exact Option.some_ne_none _
  have hcalm' : ∀ r, (F.withRefs r).Calm := fun r => hcalm.mono (Multiset.zero_le r)
  refine wpBy_seq (follow_total (P := fun f F₁ =>
    ¬ (f.success = true ∧ f.partIsDir = true) ∧ F.changed (some c) path = (false, some c) ∧
      (∃ r, F₁ = F.withRefs r) ∨
    ∃ d, F.changed (some c) path = (true, some d) ∧ f.success = true ∧ f.partIsDir = true ∧
    f.dir = some d ∧
      F₁ = F.withRefs (d ::ₘ F.refs)) hhome hac hz hstart
    (fun d b f hf hd hs hdir hb _ => ?_) fun f r hf hs => .inl ⟨fun h => ?_, ?_, r, rfl⟩) ?_
  · cases b with
    | true => exact .inr ⟨d, by rw [Files.changed, hf], hs, hb, hdir, rfl⟩
    | false => exact .inl ⟨fun h => absurd (hb.symm.trans h.2) (by decide), by rw [Files.changed, hf],
        _, rfl⟩
  · exact absurd (hs.symm.trans h.1) (by decide)
  · rw [Files.changed, hf]
  rintro ⟨success, dir, last, isDir⟩ F₁ (⟨hno, hchg, r, rfl⟩ | ⟨d, hchg, rfl, rfl, rfl, rfl⟩)
  · rw [hchg]
    cases success with
    | false => exact wpBy_pure ⟨rfl, r, rfl⟩
    | true =>
        cases isDir with
        | false => exact wpBy_pure ⟨rfl, r, rfl⟩
        | true => exact absurd ⟨rfl, rfl⟩ hno
  · rw [hchg]
    obtain ⟨r, hr⟩ := Multiset.exists_cons_of_mem (hhome.cwd c rfl).2
    refine wpBy_seq (fwp_unref (F := F.withRefs (d ::ₘ F.refs)) (s := c) (r := d ::ₘ r)
      (Q := fun _ F₂ => F₂ = F.withRefs (d ::ₘ r)) (hcalm' _) ?_ rfl) ?_
    · show d ::ₘ F.refs = c ::ₘ d ::ₘ r
      rw [hr, Multiset.cons_swap]
    rintro - F₂ rfl
    refine wpBy_seq (fwp_inodeReopen (Q := fun _ F₃ => F₃ = F.withRefs (d ::ₘ d ::ₘ r))
      (Multiset.mem_cons_self d r) rfl) ?_
    rintro - F₃ rfl
    refine wpBy_seq (fwp_unref (Q := fun _ F₄ => F₄ = F.withRefs (d ::ₘ r)) (hcalm' _) rfl rfl) ?_
    rintro - F₄ rfl
    exact wpBy_pure ⟨rfl, _, rfl⟩

/-! ## Removing -/

/-- The directory that `filesys_remove` takes the last component out of, when the path has led to `d`. -/
def Files.removesFrom (F : Files) (d : UInt32) (b : Bool) : Option UInt32 :=
  if b = true then if d = rootDirSector then none else F.child d dotDot else some d

/-- The thread loses its directory when the path has led to it. -/
def cwdAfter (c d : UInt32) (b : Bool) : Option UInt32 :=
  if b = true ∧ d ≠ rootDirSector ∧ d = c then none else some c

/-- The entry is gone, and what it did not name is as it was. -/
structure Files.Unnamed (F : Files) (d : UInt32) (name : List UInt8) (F' : Files) : Prop where
  entry : ∃ n n' k, F.node d = some n ∧ n.find name = some k ∧ F'.node d = some n' ∧
    n'.table = Function.update n.table k none ∧ n'.isDir = n.isDir
  others : ∀ u, u ≠ d → F.child d name ≠ some u → F'.node u = F.node u

/-- What keeps `dir_remove` from it. -/
def Files.Kept (F : Files) (d : UInt32) (name : List UInt8) : Prop :=
  ∀ t m, F.child d name = some t → F.node t = some m → 2 < m.children

/-- `removeFrom`, where the directory has no entry of that name for itself. -/
theorem fwp_removeFrom (htree : F.Tree) (hd : F.IsDir d) (hcalm : (F.withRefs r).Calm)
    (hself : F.child d (cstr part) ≠ some d) :
    fwp (removeFrom (some d) part) (fun x F' =>
      x = false ∧ F.Kept d (cstr part) ∧ F' = F.withRefs r ∨ x = true ∧ F.Unnamed d (cstr part) F') E
      (F.withRefs (d ::ₘ r)) := by
  obtain ⟨n, hn, hne⟩ := hd
  have hchild : F.child d (cstr part) = n.target (cstr part) := by
    unfold Files.child
    rw [hn]
    rfl
  refine wpBy_seq (fwp_dirRemove (P := fun x F₁ =>
    x = false ∧ F.Kept d (cstr part) ∧ F₁ = F.withRefs (d ::ₘ r) ∨
    x = true ∧ ∃ k, n.find (cstr part) = some k ∧ F₁.node d = some (n.erased k) ∧ F₁.refs = d ::ₘ r ∧
      ∀ u, u ≠ d → F.child d (cstr part) ≠ some u → F₁.node u = F.node u) (F := F.withRefs (d ::ₘ r)) hn
    (Multiset.mem_cons_self d r) (htree.dirOk d n hn hne) (fun hnone => .inl ⟨rfl, ?_, rfl⟩)
    fun k hk => ?_) ?_
  · intro t m ht
    rw [hchild, Node.target, hnone] at ht
    cases ht
  · have ht : F.child d (cstr part) = some (n.entry k).inodeSector := by
      rw [hchild, Node.target, hk]
      rfl
    rw [ht] at hself
    have htd : (n.entry k).inodeSector ≠ d := fun he => hself (congrArg some he)
    have hother : ∀ u, F.child d (cstr part) ≠ some u → u ≠ (n.entry k).inodeSector :=
      fun u hut he => hut (ht.trans (congrArg some he.symm))
    obtain ⟨m, hm⟩ := htree.named d n k hn hne (Node.uses_of_find hk)
    refine ⟨_, m, rfl, hm, fun hmany => .inl ⟨rfl, fun t m' ht' hm' => ?_, rfl⟩, fun he => absurd he htd,
      fun _ _ => ⟨fun _ => .inr ⟨rfl, k, hk, ?_, rfl, fun u hu hut => ?_⟩,
        fun _ b _ => .inr ⟨rfl, k, hk, ?_, rfl, fun u hu hut => ?_⟩⟩⟩
    · rw [ht] at ht'
      cases ht'
      cases hm.symm.trans hm'
      exact hmany
    · exact (Files.set_node_other htd.symm).trans Files.set_node_self
    · exact (Files.set_node_other (hother u hut)).trans (Files.set_node_other hu)
    · exact (Function.update_of_ne htd.symm ..).trans Files.set_node_self
    · exact (Function.update_of_ne (hother u hut) ..).trans (Files.set_node_other hu)
  rintro x F₁ (⟨rfl, hkept, rfl⟩ | ⟨rfl, k, hk, hn₁, hrefs, hothers⟩)
  · refine wpBy_seq (fwp_unref (Q := fun _ F₂ => F₂ = F.withRefs r) hcalm rfl rfl) ?_
    rintro - F₂ rfl
    exact wpBy_pure (.inl ⟨rfl, hkept, rfl⟩)
  · have htable : (n.erased k).table = Function.update n.table k none :=
      Node.table_erased (Node.find_lt hk).1
    have hdone : ∀ F₂ : Files, (∃ n', F₂.node d = some n' ∧ n'.table = (n.erased k).table ∧
        n'.isDir = n.isDir) → (∀ u, u ≠ d → F₂.node u = F₁.node u) → F.Unnamed d (cstr part) F₂ := by
      rintro F₂ ⟨n', hn', htab, hdir⟩ hsame
      exact ⟨⟨n, n', k, hn, hk, hn', htab.trans htable, hdir⟩,
        fun u hu hut => (hsame u hu).trans (hothers u hu hut)⟩
    refine wpBy_seq (fwp_inodeClose (Q := fun _ F₂ => F.Unnamed d (cstr part) F₂) hn₁ hrefs
      (fun _ => hdone _ ⟨_, hn₁, rfl, rfl⟩ fun _ _ => rfl)
      (fun _ _ => hdone _ ⟨_, Files.set_node_self, rfl, rfl⟩ fun u hu => Files.set_node_other hu)
      fun hdr hrem => ?_) fun _ F₂ hF₂ => wpBy_pure (.inr ⟨rfl, hF₂⟩)
    -- nobody has removed a directory that nobody else has open
    have hcalm' : n.removed = false := (hcalm d n hn hdr).1
    cases hcalm'.symm.trans hrem

/-- What `filesys_remove` does with a path. -/
inductive Files.Removes (F : Files) (c : UInt32) (path name : List UInt8) :
    Bool × Option UInt32 → Files → Prop where
  | lost {r : Multiset UInt32} : F.followPath (some c) path = none →
      F.Removes c path name (false, some c) (F.withRefs r)
  | nowhere {d : UInt32} {b : Bool} {r : Multiset UInt32} : F.followPath (some c) path = some (d, b) →
      F.removesFrom d b = none → F.Removes c path name (false, cwdAfter c d b) (F.withRefs r)
  | kept {d p : UInt32} {b : Bool} {r : Multiset UInt32} : F.followPath (some c) path = some (d, b) →
      F.removesFrom d b = some p → F.Kept p name →
      F.Removes c path name (false, cwdAfter c d b) (F.withRefs r)
  | removed {d p : UInt32} {b : Bool} {F' : Files} : F.followPath (some c) path = some (d, b) →
      F.removesFrom d b = some p → F.Unnamed p name F' → F.Removes c path name (true, cwdAfter c d b) F'

/-- `filesys_remove`, where the entry is not one of a directory for itself. -/
theorem remove_spec {c : UInt32} (part : NameBuf) (hhome : F.Home (some c)) (hac : F.Acyclic)
    (hz : 0 ∉ path) (hcalm : (F.withRefs 0).Calm)
    (hup : ∀ d p, F.followPath (some c) path = some (d, true) → d ≠ rootDirSector →
      F.child d dotDot = some p → F.IsDir p)
    (hself : ∀ d b p, F.followPath (some c) path = some (d, b) → F.removesFrom d b = some p →
      F.child p (lastPart (parts path) part) ≠ some p) :
    fwp (filesysRemove (some c) path part) (F.Removes c path (lastPart (parts path) part)) E F := by
  have hstart : startDir (some c) path ≠ none := by
    unfold startDir
    split <;> exact Option.some_ne_none _
  have hcalm' : ∀ r, (F.withRefs r).Calm := fun r => hcalm.mono (Multiset.zero_le r)
  refine wpBy_seq (follow_total (P := fun f F₁ =>
    F.followPath (some c) path = none ∧ f.success = false ∧ (∃ r, F₁ = F.withRefs r) ∨
    ∃ d, F.followPath (some c) path = some (d, f.partIsDir) ∧ F.IsDir d ∧ f.success = true ∧
      f.dir = some d ∧ cstr f.part = lastPart (parts path) part ∧
      F₁ = F.withRefs (d ::ₘ F.refs)) hhome hac hz hstart
    (fun d b f hf hd hs hdir hb hlast => .inr ⟨d, by rw [hb]; exact hf, hd, hs, hdir, hlast, rfl⟩)
    fun f r hf hs => .inl ⟨hf, hs, r, rfl⟩) ?_
  rintro ⟨success, dir, last, isDir⟩ F₁ (⟨hf, rfl, r, rfl⟩ | ⟨d, hf, hd, rfl, rfl, hlast, rfl⟩)
  · exact wpBy_pure (.lost hf)
  rw [← hlast] at hself ⊢
  cases isDir with
  | false =>
      refine wpBy_seq (fwp_removeFrom hhome.tree hd (hcalm' _) (hself d false d hf rfl)) ?_
      rintro x F₂ (⟨rfl, hkept, rfl⟩ | ⟨rfl, hgone⟩)
      · exact wpBy_pure (.kept hf rfl hkept)
      · exact wpBy_pure (.removed hf rfl hgone)
  | true =>
      refine wpBy_ite (fun hroot => ?_) fun hroot => ?_
      · subst hroot
        have hafter : cwdAfter c rootDirSector true = some c := if_neg fun h => h.2.1 rfl
        rw [← hafter]
        refine wpBy_seq (fwp_unref (Q := fun _ F₂ => F₂ = F.withRefs F.refs) (hcalm' _) rfl rfl) ?_
        rintro - F₂ rfl
        exact wpBy_pure (.nowhere hf (if_pos rfl))
      have hafter : (if d = c then none else some c) = cwdAfter c d true := by
        unfold cwdAfter
        simp [hroot]
      have hfrom : F.removesFrom d true = F.child d dotDot := (if_pos rfl).trans (if_neg hroot)
      obtain ⟨n, hn, hne⟩ := id hd
      refine wpBy_seq (fwp_lookupIn (P := fun x F₂ => F.child d dotDot = none ∧ x = none ∧
        F₂ = F.withRefs F.refs ∨ ∃ p, F.child d dotDot = some p ∧ x = some p ∧
          F₂ = F.withRefs (p ::ₘ F.refs)) hhome.tree (hcalm' _) (.inl hd) ⟨n, hn⟩
        (fun h => .inl ⟨h, rfl, rfl⟩) fun p h => .inr ⟨p, h, rfl, rfl⟩) ?_
      rintro x F₂ (⟨h, rfl, rfl⟩ | ⟨p, h, rfl, rfl⟩)
      · rw [hafter]
        exact wpBy_pure (.nowhere hf (hfrom.trans h))
      · rw [hafter]
        refine wpBy_seq (fwp_removeFrom hhome.tree (hup d p hf hroot h) (hcalm' _)
          (hself d true p hf (hfrom.trans h))) ?_
        rintro x F₃ (⟨rfl, hkept, rfl⟩ | ⟨rfl, hgone⟩)
        · exact wpBy_pure (.kept hf (hfrom.trans h) hkept)
        · exact wpBy_pure (.removed hf (hfrom.trans h) hgone)

end CS162.Fs
