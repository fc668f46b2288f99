/-
# `CS162.Fs.DirMap` — a directory is a finite map

The slots of a directory are a table in the sense of `CS162.Slots`: the keys are the names,
the values the sectors of the inodes they name.  `dir_add` puts a name into the first slot
that is free, `dir_remove` clears a slot, `dir_readdir` is a cursor, and whatever else the
kernel does between two calls leaves the bytes of the directory alone.  So every run of
calls on a directory is a run of the table (`DirRun.table`), and what is true of those
holds of it.
-/
import CS162.Lib.Slots
import CS162.Fs.Entries
import CS162.Fs.Filesys

namespace CS162.Fs

open Bytes Wp Slots

variable {n n' m : Node} {F F' : Files} {d s : UInt32} {e : DirEntry} {name : List UInt8} {j k : Nat}
  {v v' : Vol} {E : Panic → Vol → Prop}

/-! ## The table of a directory -/

namespace Node

/-- What the slots hold, as far as they are in use. -/
def table (n : Node) : Slots.Table (List UInt8) UInt32 := fun k =>
  if n.Uses k then some (cstr (n.entry k).name, (n.entry k).inodeSector) else none

theorem table_some : n.table k = some (name, s) ↔
    n.Uses k ∧ cstr (n.entry k).name = name ∧ (n.entry k).inodeSector = s := by
  unfold table
  split
  · next hk =>
    constructor
    · intro h
      cases h
      exact ⟨hk, rfl, rfl⟩
    · rintro ⟨-, rfl, rfl⟩
      rfl
  · next hk =>
    constructor
    · intro h
      cases h
    · intro h
      exact absurd h.1 hk

theorem table_none : n.table k = none ↔ ¬ n.Uses k := by
  unfold table
  split
  · next hk => exact iff_of_false (by simp) (not_not_intro hk)
  · next hk => exact iff_of_true rfl hk

/-- The table is in the bytes. -/
theorem table_congr (hlen : n'.len = n.len) (hbyte : n'.byte = n.byte) : n'.table = n.table := by
  have hentry : n'.entry = n.entry := by
    funext k
    unfold entry slotBytes
    rw [hbyte]
  have huse : ∀ k, n'.Uses k ↔ n.Uses k := by
    intro k
    unfold Uses slots
    rw [hlen, hentry]
  funext k
  unfold table
  rw [hentry]
  exact if_congr (huse k) rfl rfl

/-- `lookup` goes by the table. -/
theorem find_some (h : n.find name = some k) : n.table k = some (name, (n.entry k).inodeSector) := by
  obtain ⟨hk, hname⟩ := find_lt h
  exact table_some.mpr ⟨⟨hk, hname.1⟩, hname.2, rfl⟩

theorem find_none (h : n.find name = none) : ¬ n.table.Present name := by
  rintro ⟨s, k, hk⟩
  obtain ⟨⟨hlt, huse⟩, hname, -⟩ := table_some.mp hk
  unfold find findFrom at h
  rw [List.find?_eq_none] at h
  refine h k ?_ (decide_eq_true ⟨huse, hname⟩)
  rw [List.mem_range'_1]
  omega

/-- In a directory without double names a lookup finds a pair exactly when it is there. -/
theorem target_iff (hd : n.table.Distinct) : n.target name = some s ↔ n.table.Has name s := by
  unfold target
  cases h : n.find name with
  | none =>
      refine iff_of_false (by simp) ?_
      intro hs
      exact find_none h ⟨s, hs⟩
  | some k =>
      have hk := find_some h
      constructor
      · intro hs
        cases hs
        exact ⟨k, hk⟩
      · rintro ⟨j, hj⟩
        obtain rfl := hd j k name _ _ hj hk
        rw [hj] at hk
        cases hk
        rfl

/-- An entry is put into a slot. -/
theorem table_put (hj : j ≤ n.slots) (he : e.inUse ≠ 0) :
    (n.put j e).table = Function.update n.table j (some (cstr e.name, e.inodeSector)) := by
  funext k
  have hslots : (n.put j e).slots = max n.slots (j + 1) := slots_wrote
  have hentry : (n.put j e).entry k = if k = j then e else n.entry k := entry_wrote
  by_cases hkj : k = j
  · rw [hkj, Function.update_self]
    rw [hkj, if_pos rfl] at hentry
    refine table_some.mpr ⟨⟨?_, ?_⟩, ?_, ?_⟩
    · omega
    · rw [hentry]
      exact he
    · rw [hentry]
    · rw [hentry]
  · rw [Function.update_of_ne hkj]
    rw [if_neg hkj] at hentry
    have huse : (n.put j e).Uses k ↔ n.Uses k := by
      unfold Uses
      rw [hentry, hslots]
      exact and_congr_left fun _ => by omega
    unfold table
    rw [hentry]
    exact if_congr huse rfl rfl

/-- A slot is cleared. -/
theorem table_erased (hk : k < n.slots) : (n.erased k).table = Function.update n.table k none := by
  funext j
  have hslots : (n.erased k).slots = n.slots := by
    have h : (n.erased k).slots = max n.slots (k + 1) := slots_wrote
    omega
  have hentry : (n.erased k).entry j = if j = k then { n.entry k with inUse := 0 } else n.entry j :=
    entry_wrote
  by_cases hjk : j = k
  · rw [hjk, Function.update_self]
    rw [hjk, if_pos rfl] at hentry
    refine table_none.mpr ?_
    rintro ⟨-, huse⟩
    rw [hentry] at huse
    exact huse rfl
  · rw [Function.update_of_ne hjk]
    rw [if_neg hjk] at hentry
    have huse : (n.erased k).Uses j ↔ n.Uses j := by
      unfold Uses
      rw [hentry, hslots]
    unfold table
    rw [hentry]
    exact if_congr huse rfl rfl

/-- The slots before the free one are in use. -/
theorem freeFrom_used {i : Nat} : ∀ {k m : Nat}, k ≤ i → i < n.freeFrom k m → (n.entry i).inUse ≠ 0 := by
  intro k m
  induction m generalizing k with
  | zero => exact fun hki hi => absurd hki (Nat.not_le.mpr hi)
  | succ m ih =>
      rw [freeFrom_succ]
      split
      · exact fun hki hi => absurd hki (Nat.not_le.mpr hi)
      · next hk =>
        intro hki hi
        rcases Nat.lt_or_eq_of_le hki with hlt | rfl
        · exact ih hlt hi
        · exact hk

theorem freeSlot_used {i : Nat} (hi : i < n.freeSlot) : n.Uses i :=
  ⟨Nat.lt_of_lt_of_le hi freeSlot_le, freeFrom_used (Nat.zero_le i) hi⟩

/-- The free slot is not in use. -/
theorem freeSlot_unused : ¬ n.Uses n.freeSlot := fun h => h.2 (freeSlot_free h.1)

/-- Every slot that a directory can have is in use. -/
def Full (n : Node) : Prop := ∀ k, k < maxFileLen / 20 → n.Uses k

theorem full_of_slotEnd (h : ¬ n.slotEnd ≤ maxFileLen) : n.Full := by
  intro k hk
  refine freeSlot_used ?_
  unfold slotEnd at h
  omega

end Node

/-! ## Directories that are in order -/

/-- `d` is open and holds entries that are in order: a name is in one slot and has 1 to
`NAME_MAX` characters, and the inodes that are named are there, no two slots naming the same
one but the directory itself. -/
structure IsDirectory (F : Files) (d : UInt32) (n : Node) : Prop where
  node : F.node d = some n
  held : d ∈ F.refs
  ok : n.DirOk
  names : ∀ k name s, n.table k = some (name, s) → name ≠ [] ∧ name.length ≤ nameMax
  live : ∀ k name s, n.table k = some (name, s) → (F.node s).isSome = true
  distinct : n.table.Distinct
  apart : ∀ j k name name' s, n.table j = some (name, s) → n.table k = some (name', s) → j = k ∨ s = d

namespace IsDirectory

/-- The bytes are as they were, and what is named is still there. -/
theorem congr (h : IsDirectory F d n) (hn : F'.node d = some n') (hd : d ∈ F'.refs)
    (hlen : n'.len = n.len) (hbyte : n'.byte = n.byte) (hdeny : n'.denyWriteCnt = 0)
    (hlive : ∀ k name s, n.table k = some (name, s) → (F'.node s).isSome = true) :
    IsDirectory F' d n' ∧ n'.table = n.table := by
  have htable := Node.table_congr hlen hbyte
  refine ⟨⟨hn, hd, ⟨?_, ?_, hdeny⟩, ?_, ?_, ?_, ?_⟩, htable⟩
  · rw [hlen]
    exact h.ok.whole
  · rw [hlen]
    exact h.ok.max
  · rw [htable]
    exact h.names
  · rw [htable]
    exact hlive
  · rw [htable]
    exact h.distinct
  · rw [htable]
    exact h.apart

/-- A new entry. -/
theorem put (h : IsDirectory F d n) (hn : F'.node d = some n') (hd : d ∈ F'.refs) (ok : n'.DirOk)
    (hj : n.table j = none) (htable : n'.table = Function.update n.table j (some (name, s)))
    (hname : name ≠ [] ∧ name.length ≤ nameMax) (hnew : ¬ n.table.Present name)
    (hfresh : ∀ k name', n.table k ≠ some (name', s)) (hs : (F'.node s).isSome = true)
    (hlive : ∀ t, (F.node t).isSome = true → (F'.node t).isSome = true) : IsDirectory F' d n' := by
  have hcase : ∀ {k name' t}, n'.table k = some (name', t) →
      k = j ∧ name' = name ∧ t = s ∨ k ≠ j ∧ n.table k = some (name', t) := by
    intro k name' t hk
    rw [htable] at hk
    by_cases hkj : k = j
    · rw [hkj, Function.update_self] at hk
      cases hk
      exact .inl ⟨hkj, rfl, rfl⟩
    · rw [Function.update_of_ne hkj] at hk
      exact .inr ⟨hkj, hk⟩
  have hstep : Step (fun _ => True) ⟨n.table, 0⟩ (.put name s) ⟨n'.table, 0⟩ := by
    rw [htable]
    exact .put hnew hj
  refine ⟨hn, hd, ok, fun k name' t hk => ?_, fun k name' t hk => ?_, hstep.distinct h.distinct,
    fun i k a b t hi hk => ?_⟩
  · rcases hcase hk with ⟨-, rfl, -⟩ | ⟨-, hk⟩
    · exact hname
    · exact h.names k name' t hk
  · rcases hcase hk with ⟨-, -, rfl⟩ | ⟨-, hk⟩
    · exact hs
    · exact hlive t (h.live k name' t hk)
  · rcases hcase hi with ⟨rfl, -, rfl⟩ | ⟨hij, hi⟩
    · rcases hcase hk with ⟨rfl, -, -⟩ | ⟨-, hk⟩
      · exact .inl rfl
      · exact absurd hk (hfresh k b)
    · rcases hcase hk with ⟨-, -, rfl⟩ | ⟨-, hk⟩
      · exact absurd hi (hfresh i a)
      · exact h.apart i k a b t hi hk

/-- An entry less; the inode that it named may be gone. -/
theorem erase (h : IsDirectory F d n) (hn : F'.node d = some n') (hd : d ∈ F'.refs) (ok : n'.DirOk)
    (hk : n.table k = some (name, s)) (htable : n'.table = Function.update n.table k none)
    (hlive : ∀ t, t ≠ s ∨ t = d → (F.node t).isSome = true → (F'.node t).isSome = true) :
    IsDirectory F' d n' := by
  have hcase : ∀ {i name' t}, n'.table i = some (name', t) → i ≠ k ∧ n.table i = some (name', t) := by
    intro i name' t hi
    rw [htable] at hi
    by_cases hik : i = k
    · rw [hik, Function.update_self] at hi
      cases hi
    · rw [Function.update_of_ne hik] at hi
      exact ⟨hik, hi⟩
  have hstep : Step (fun _ => True) ⟨n.table, 0⟩ (.drop name) ⟨n'.table, 0⟩ := by
    rw [htable]
    exact .drop hk
  refine ⟨hn, hd, ok, fun i name' t hi => h.names i name' t (hcase hi).2, fun i name' t hi => ?_,
    hstep.distinct h.distinct, fun i l a b t hi hl => h.apart i l a b t (hcase hi).2 (hcase hl).2⟩
  obtain ⟨hik, hi⟩ := hcase hi
  refine hlive t ?_ (h.live i name' t hi)
  by_cases hts : t = s
  · subst hts
    exact .inr ((h.apart i k name' name t hi hk).resolve_left hik)
  · exact .inl hts

end IsDirectory

/-! ## What the calls do -/

/-- A name that was not there is put into a slot that is not in use, one of those there are
if there is one; the other slots stay. -/
structure Puts (n : Node) (name : List UInt8) (s : UInt32) (n' : Node) : Prop where
  valid : name ≠ [] ∧ name.length ≤ nameMax
  new : ¬ n.table.Present name
  slot : ∃ j, n.table j = none ∧ n'.table = Function.update n.table j (some (name, s)) ∧
    (∀ k, k ≠ j → n'.entry k = n.entry k) ∧ n'.slots = max n.slots (j + 1) ∧
    ∀ k, k < n.slots → ¬ n.Uses k → j < n.slots

/-- A slot that is cleared. -/
structure Drops (n : Node) (name : List UInt8) (n' : Node) : Prop where
  slot : ∃ k s, n.table k = some (name, s) ∧ n'.table = Function.update n.table k none ∧
    ∀ j, j ≠ k → n'.entry j = n.entry j
  slots : n'.slots = n.slots

/-- The bytes are as they were. -/
structure SameBytes (n n' : Node) : Prop where
  len : n'.len = n.len
  byte : n'.byte = n.byte

theorem SameBytes.table (h : SameBytes n n') : n'.table = n.table := Node.table_congr h.len h.byte

theorem Files.isSome_set {t : UInt32} (h : (F.node t).isSome = true) :
    ((F.set s n).node t).isSome = true := by
  by_cases hs : t = s
  · rw [hs, Files.set_node_self]
    rfl
  · rw [Files.set_node_other hs]
    exact h

/-- An inode that the directory does not name. -/
structure Fresh (F : Files) (d : UInt32) (n : Node) (s : UInt32) : Prop where
  live : (F.node s).isSome = true
  other : s ≠ d
  new : ∀ k name, n.table k ≠ some (name, s)

/-- A new inode is one. -/
theorem IsDirectory.create (h : IsDirectory F d n) {length : Nat} (hlen : length < 2 ^ 31) :
    fwp (createInode length) (fun r F' => IsDirectory F' d n ∧ ∀ s, r = some s → Fresh F' d n s)
      (fun _ _ => True) F := by
  refine fwp_createInode (fun _ _ _ => trivial) hlen (fun _ => ⟨h, fun _ hs => by cases hs⟩)
    fun s p m _ hnone _ _ => ?_
  have hsd : s ≠ d := by
    rintro rfl
    rw [h.node] at hnone
    cases hnone
  have hnode : ({ F.set s (newNode length p) with freeMap := m } : Files).node d = some n :=
    (Files.set_node_other hsd.symm).trans h.node
  refine ⟨(h.congr hnode h.held rfl rfl h.ok.deny
    fun k name t hk => Files.isSome_set (h.live k name t hk)).1, fun t ht => ?_⟩
  cases ht
  refine ⟨congrArg Option.isSome Files.set_node_self, hsd, fun k name hk => ?_⟩
  have hs := h.live k name s hk
  rw [hnone] at hs
  cases hs

/-- `dir_add` of an inode that the directory does not name. -/
theorem IsDirectory.add (h : IsDirectory F d n) (hfresh : Fresh F d n s) (hz : 0 ∉ name)
    (hE : n.Full → name ≠ [] → name.length ≤ nameMax → ¬ n.table.Present name → ∀ v', E .pastEnd v') :
    fwp (dirAdd d name s) (fun r F' => ∃ n', IsDirectory F' d n' ∧
      (r = true ∧ Puts n name s n' ∨ r = false ∧ SameBytes n n')) E F := by
  obtain ⟨hs, hsd, hnamed⟩ := hfresh
  obtain ⟨m, hm⟩ := Option.isSome_iff_exists.mp hs
  have hpast : name ≠ [] → name.length ≤ nameMax → n.find name = none →
      n.slotEnd ≤ maxFileLen ∨ ∀ v', E .pastEnd v' := by
    intro hne hlen hfind
    by_cases hle : n.slotEnd ≤ maxFileLen
    · exact .inl hle
    · exact .inr (hE (Node.full_of_slotEnd hle) hne hlen (Node.find_none hfind))
  refine fwp_dirAdd hpast h.node h.held h.ok ⟨m, hm⟩ hz (fun _ => ⟨n, h, .inr ⟨rfl, rfl, rfl⟩⟩) ?_ ?_
  · intro _ _ _ sv p b _ _
    let n₁ : Node := { n with saved := sv, ptr := p }
    have hnode : ({ F.set d n₁ with freeMap := b } : Files).node d = some n₁ := Files.set_node_self
    exact ⟨n₁, (h.congr hnode h.held rfl rfl h.ok.deny
      fun k name' t hk => Files.isSome_set (h.live k name' t hk)).1, .inr ⟨rfl, rfl, rfl⟩⟩
  · intro e sv p b m' hne hlen hfind he hcstr huse _ hmax _ hm'
    have hnew := Node.find_none hfind
    have huse' : e.inUse ≠ 0 := by
      rw [huse]
      decide
    let n₁ : Node := { n.put n.freeSlot e with saved := sv, ptr := p }
    have htable : n₁.table = Function.update n.table n.freeSlot (some (name, s)) := by
      have hput := Node.table_put (n := n) Node.freeSlot_le huse'
      rw [hcstr, he] at hput
      exact hput
    have hnode : ((F.set d n₁).set s m'.linked).node d = some n₁ :=
      (Files.set_node_other (Ne.symm hsd)).trans Files.set_node_self
    have hlive : ∀ t, (F.node t).isSome = true → (((F.set d n₁).set s m'.linked).node t).isSome = true :=
      fun t ht => Files.isSome_set (Files.isSome_set ht)
    have hok : (n.put n.freeSlot e).DirOk := h.ok.wrote hmax
    have hfree : n.table n.freeSlot = none := Node.table_none.mpr Node.freeSlot_unused
    refine ⟨n₁, h.put hnode h.held ⟨hok.whole, hok.max, hok.deny⟩
      hfree htable ⟨hne, hlen⟩ hnew hnamed (hlive s hs) hlive, .inl ⟨rfl, ⟨hne, hlen⟩, hnew,
      n.freeSlot, hfree, htable, fun k hk => Node.entry_wrote.trans (if_neg hk), Node.slots_wrote,
      fun k hk hunused => ?_⟩⟩
    -- a slot that is not in use is not before the first free one
    refine Nat.lt_of_le_of_lt (Nat.le_of_not_lt fun hlt => ?_) hk
    exact hunused (Node.freeSlot_used hlt)

/-- `dir_remove`. -/
theorem IsDirectory.remove (h : IsDirectory F d n) :
    fwp (dirRemove d name) (fun r F' => ∃ n', IsDirectory F' d n' ∧
      (r = true ∧ Drops n name n' ∨ r = false ∧ SameBytes n n')) E F := by
  have hsame : ∃ n', IsDirectory F d n' ∧
      (false = true ∧ Drops n name n' ∨ false = false ∧ SameBytes n n') := ⟨n, h, .inr ⟨rfl, rfl, rfl⟩⟩
  refine fwp_dirRemove h.node h.held h.ok (fun _ => hsame) fun k hk => ?_
  have htab := Node.find_some hk
  obtain ⟨hlt, -⟩ := Node.find_lt hk
  obtain ⟨m, hm⟩ := Option.isSome_iff_exists.mp (h.live _ _ _ htab)
  have hmax := h.ok.max
  have hw := h.ok.whole
  have hend : 20 * k + 20 ≤ maxFileLen := by
    unfold Node.slots at hlt
    omega
  have hput : (n.put k { n.entry k with inUse := 0 }).DirOk := h.ok.wrote hend
  have hok : (n.erased k).DirOk := ⟨hput.whole, hput.max, hput.deny⟩
  have hdrops : Drops n name (n.erased k) := by
    refine ⟨⟨k, _, htab, Node.table_erased hlt, fun j hj => Node.entry_wrote.trans (if_neg hj)⟩, ?_⟩
    have hslots : (n.erased k).slots = max n.slots (k + 1) := Node.slots_wrote
    omega
  refine ⟨_, m, rfl, hm, fun _ => hsame, fun _ => ?_, fun _ htd => ⟨fun htr => ?_, fun htr b _ => ?_⟩⟩
  · -- the directory's own entry
    exact ⟨{ n.erased k with removed := true }, h.erase Files.set_node_self h.held
      ⟨hok.whole, hok.max, hok.deny⟩ htab (Node.table_erased hlt) fun _ _ ht => Files.isSome_set ht,
      .inl ⟨rfl, hdrops.slot, hdrops.slots⟩⟩
  · exact ⟨n.erased k, h.erase ((Files.set_node_other (Ne.symm htd)).trans Files.set_node_self) h.held hok
      htab (Node.table_erased hlt) fun _ _ ht => Files.isSome_set (Files.isSome_set ht),
      .inl ⟨rfl, hdrops⟩⟩
  · refine ⟨n.erased k, h.erase ((Function.update_of_ne (Ne.symm htd) ..).trans Files.set_node_self)
      h.held
      hok htab (Node.table_erased hlt) fun t hts ht => ?_, .inl ⟨rfl, hdrops⟩⟩
    have hne : t ≠ (n.entry k).inodeSector := hts.elim id fun he => he ▸ Ne.symm htd
    have hdrop : ((F.set d (n.erased k)).drop (n.entry k).inodeSector).node t =
        (F.set d (n.erased k)).node t := Function.update_of_ne hne ..
    exact (congrArg Option.isSome hdrop).trans (Files.isSome_set ht)

/-! ## Reading -/

/-- What `dir_readdir` lists. -/
def Listed (name : List UInt8) : Prop := name ≠ dotDot ∧ name ≠ dot

/-- What a call of `readdir` is to the cursor. -/
def listed : Option (List UInt8) → Event (List UInt8) UInt32
  | some name => .read name
  | none => .stop

/-- The search goes to the next slot that is listed. -/
theorem fwp_dirReaddir {P : Option (List UInt8) × Nat → Files → Prop} (h : IsDirectory F d n) {c : Nat} :
    ∀ (fuel k : Nat), n.slots - k < fuel → c ≤ k → (∀ i, c ≤ i → i < k → Hidden Listed n.table i) →
      (∀ r c', Step Listed ⟨n.table, c⟩ (listed r) ⟨n.table, c'⟩ → ∀ pos, (r ≠ none → pos = 20 * c') →
        P (r, pos) F) → fwp (dirReaddir d fuel (20 * k)) P E F := by
  intro fuel
  induction fuel with
  | zero => exact fun k hk => absurd hk (Nat.not_lt_zero _)
  | succ fuel ih =>
      intro k hk hck hskip hP
      refine wpBy_seq (fwp_readEntry (P := fun r F' => r = _ ∧ F' = F) h.node h.held h.ok ⟨rfl, rfl⟩) ?_
      rintro r F' ⟨rfl, rfl⟩
      by_cases hlt : k < n.slots
      · rw [if_pos hlt]
        refine wpBy_ite (fun hc => ?_) (fun hc => ?_)
        · have hks : n.table k = some (cstr (n.entry k).name, (n.entry k).inodeSector) :=
            Node.table_some.mpr ⟨⟨hlt, hc.1⟩, rfl, rfl⟩
          exact wpBy_pure (hP (some _) (k + 1) (.read hck hks hc.2 hskip) _ fun _ => rfl)
        · refine ih (k + 1) (by omega) (Nat.le_succ_of_le hck) (fun i hci hik => ?_) hP
          rcases Nat.lt_or_eq_of_le (Nat.le_of_lt_succ hik) with hik' | rfl
          · exact hskip i hci hik'
          · intro name s hi hv
            obtain ⟨huse, hname, -⟩ := Node.table_some.mp hi
            rw [← hname] at hv
            exact hc ⟨huse.2, hv⟩
      · rw [if_neg hlt]
        refine wpBy_pure (hP none c (.stop fun i hci => ?_) _ fun hne => absurd rfl hne)
        by_cases hik : i < k
        · exact hskip i hci hik
        · intro name s hi
          have huse := (Node.table_some.mp hi).1.1
          omega

/-- `readdir`. -/
theorem IsDirectory.readdir (h : IsDirectory F d n) (c : Nat) :
    fwp (readdir ⟨d, 20 * c⟩) (fun r F' => F' = F ∧ ∃ c', r.2 = ⟨d, 20 * c'⟩ ∧
      Step Listed ⟨n.table, c⟩ (listed r.1) ⟨n.table, c'⟩) E F := by
  refine fwp_calm fun hcalm => ?_
  refine wpBy_seq (fwp_inodeReopen (Q := fun _ F₁ => F₁ = { F with refs := d ::ₘ F.refs }) h.held rfl) ?_
  rintro - F₁ rfl
  have h₁ : IsDirectory { F with refs := d ::ₘ F.refs } d n :=
    ⟨h.node, Multiset.mem_cons_self d _, h.ok, h.names, h.live, h.distinct, h.apart⟩
  have hfuel : n.slots - c < dirFuel := by
    have hmax := h.ok.max
    unfold dirFuel Node.slots
    omega
  refine wpBy_seq (fwp_dirReaddir (P := fun r F' => F' = { F with refs := d ::ₘ F.refs } ∧
    ∃ c', (r.1 ≠ none → r.2 = 20 * c') ∧ Step Listed ⟨n.table, c⟩ (listed r.1) ⟨n.table, c'⟩) h₁ dirFuel c
    hfuel (Nat.le_refl c) (fun i hci hic => absurd hic (Nat.not_lt.mpr hci))
    fun r c' hstep pos hpos => ⟨rfl, c', hpos, hstep⟩) ?_
  rintro ⟨r, pos⟩ F₂ ⟨rfl, c', hpos, hstep⟩
  refine wpBy_seq (fwp_unref (Q := fun _ F₃ => F₃ = F) (r := F.refs) hcalm rfl rfl) ?_
  rintro - F₃ rfl
  cases r with
  | some name =>
      have hpos' : pos = 20 * c' := hpos (by simp)
      exact wpBy_pure ⟨rfl, c', by rw [hpos'], hstep⟩
  | none =>
      refine wpBy_pure ⟨rfl, c, rfl, ?_⟩
      cases hstep with
      | stop hnone => exact .stop hnone

end CS162.Fs
