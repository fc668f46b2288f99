/-
# `CS162.Fs.Paths` — what a path leads to

`parts` are the components of a path.  `output_follow_file_path` goes from directory to
directory as long as components name directories and ends at the first that does not, or when
there is none left.  `Files.follow` says where that is: a path can be followed if all its
components but the last lead from directory to directory.  `follow_spec` is the specification
of the call, with the references that it leaves open: one to the directory it gives, and where
it fails one or two that nobody will close.
-/
import CS162.Fs.Entries
import CS162.Fs.Filesys

namespace CS162.Fs

open Bytes Wp

/-! ## Components -/

/-- The components of `acc ++ src`, where `acc` has no slash. -/
def partsFrom (acc : List UInt8) : List UInt8 → List (List UInt8)
  | [] => if acc = [] then [] else [acc]
  | c :: src =>
      if c = slash then if acc = [] then partsFrom [] src else acc :: partsFrom [] src
      else partsFrom (acc ++ [c]) src

/-- The components of a path. -/
def parts (src : List UInt8) : List (List UInt8) := partsFrom [] src

section Parts

variable {acc src : List UInt8} {part : NameBuf}

theorem parts_dropWhile (src : List UInt8) : parts (src.dropWhile (· == slash)) = parts src := by
  induction src with
  | nil => rfl
  | cons c src ih =>
      by_cases hc : c = slash
      · rw [List.dropWhile_cons_of_pos (by simp [hc]), ih]
        simp [parts, partsFrom, hc]
      · rw [List.dropWhile_cons_of_neg (by simp [hc])]

theorem partsFrom_takeWhile (hacc : acc ≠ []) (src : List UInt8) :
    partsFrom acc src = (acc ++ src.takeWhile (· != slash)) :: parts (src.dropWhile (· != slash)) := by
  induction src generalizing acc with
  | nil => simp [partsFrom, parts, hacc]
  | cons c src ih =>
      by_cases hc : c = slash
      · rw [List.takeWhile_cons_of_neg (by simp [hc]), List.dropWhile_cons_of_neg (by simp [hc])]
        simp [partsFrom, parts, hc, hacc]
      · rw [List.takeWhile_cons_of_pos (by simp [hc]), List.dropWhile_cons_of_pos (by simp [hc])]
        unfold partsFrom
        rw [if_neg hc, ih (by simp)]
        simp

/-- The first component. -/
theorem parts_eq (src : List UInt8) : parts src =
    let rest := src.dropWhile (· == slash)
    if rest = [] then []
    else rest.takeWhile (· != slash) :: parts (rest.dropWhile (· != slash)) := by
  rw [← parts_dropWhile]
  cases hr : src.dropWhile (· == slash) with
  | nil => rfl
  | cons c rest =>
      have hc : c ≠ slash := by
        have h := List.head?_dropWhile_not (· == slash) src
        rw [hr] at h
        simpa using h
      dsimp only
      rw [if_neg (by simp), List.takeWhile_cons_of_pos (by simp [hc]),
        List.dropWhile_cons_of_pos (by simp [hc])]
      show partsFrom [] (c :: rest) = _
      unfold partsFrom
      rw [if_neg hc, List.nil_append, partsFrom_takeWhile (by simp)]
      rfl

/-- `get_next_part` at the end of the string. -/
theorem getNextPart_nil (h : parts src = []) : getNextPart part src = (0, part, src) := by
  rw [parts_eq] at h
  unfold getNextPart
  dsimp only at h ⊢
  split at h
  · next hr => rw [if_pos hr]
  · cases h

/-- `get_next_part` with a component. -/
theorem getNextPart_cons {c : List UInt8} {cs : List (List UInt8)} (h : parts src = c :: cs)
    (hlen : c.length ≤ nameMax) :
    ∃ rest, getNextPart part src = (1, overwrite part (c ++ [0]), rest) ∧ parts rest = cs := by
  rw [parts_eq] at h
  unfold getNextPart
  dsimp only at h ⊢
  split at h
  · cases h
  · next hr =>
    injection h with h1 h2
    refine ⟨_, ?_, h2⟩
    rw [if_neg hr, if_pos (by rw [h1]; exact hlen), h1]

/-- `get_next_part` with a component that is too long. -/
theorem getNextPart_long {c : List UInt8} {cs : List (List UInt8)} (h : parts src = c :: cs)
    (hlen : nameMax < c.length) : getNextPart part src = (-1, overwrite part (c.take nameMax), src) := by
  rw [parts_eq] at h
  unfold getNextPart
  dsimp only at h ⊢
  split at h
  · cases h
  · next hr =>
    injection h with h1 h2
    rw [if_neg hr, if_neg (by rw [h1]; omega), h1]

/-- Components are not empty, and no more than the path. -/
theorem mem_partsFrom {c : List UInt8} (h : c ∈ partsFrom acc src) :
    c ≠ [] ∧ ∀ x ∈ c, x ∈ acc ∨ x ∈ src := by
  induction src generalizing acc with
  | nil =>
      unfold partsFrom at h
      split at h
      · cases h
      · next hacc =>
        obtain rfl := List.mem_singleton.mp h
        exact ⟨hacc, fun x hx => .inl hx⟩
  | cons a src ih =>
      unfold partsFrom at h
      have hrest : ∀ {acc' : List UInt8}, (∀ x ∈ acc', x ∈ acc ∨ x = a) → c ∈ partsFrom acc' src →
          c ≠ [] ∧ ∀ x ∈ c, x ∈ acc ∨ x ∈ a :: src := by
        intro acc' hacc' hc
        obtain ⟨hne, hmem⟩ := ih hc
        refine ⟨hne, fun x hx => ?_⟩
        rcases hmem x hx with hx | hx
        · rcases hacc' x hx with hx | rfl
          · exact .inl hx
          · exact .inr (List.mem_cons_self ..)
        · exact .inr (List.mem_cons_of_mem _ hx)
      have hnil : ∀ x ∈ ([] : List UInt8), x ∈ acc ∨ x = a := fun x hx => by cases hx
      split at h
      · split at h
        · exact hrest hnil h
        · next hacc =>
          rcases List.mem_cons.mp h with rfl | h
          · exact ⟨hacc, fun x hx => .inl hx⟩
          · exact hrest hnil h
      · refine hrest (fun x hx => ?_) h
        simpa using hx

theorem mem_parts {c : List UInt8} (h : c ∈ parts src) : c ≠ [] ∧ ∀ x ∈ c, x ∈ src := by
  obtain ⟨hne, hmem⟩ := mem_partsFrom h
  refine ⟨hne, fun x hx => ?_⟩
  simpa using hmem x hx

/-- There are no more components than bytes. -/
theorem length_partsFrom : (partsFrom acc src).length ≤ src.length + if acc = [] then 0 else 1 := by
  induction src generalizing acc with
  | nil =>
      unfold partsFrom
      split <;> simp
  | cons a src ih =>
      have hnil := @ih []
      have hsnoc := @ih (acc ++ [a])
      rw [if_pos rfl] at hnil
      rw [if_neg (by simp)] at hsnoc
      unfold partsFrom
      rw [List.length_cons]
      split
      · split
        · omega
        · rw [List.length_cons]
          omega
      · split <;> omega

theorem length_parts : (parts src).length ≤ src.length := by
  have h := @length_partsFrom [] src
  rwa [if_pos rfl] at h

/-- A component is left. -/
theorem getNextPart_more (h : parts src ≠ []) :
    ∃ k part' src', getNextPart part src = (k, part', src') ∧ (k = 1 ∨ k = -1) := by
  cases hp : parts src with
  | nil => exact absurd hp h
  | cons c cs =>
      by_cases hlong : nameMax < c.length
      · exact ⟨_, _, _, getNextPart_long hp hlong, .inr rfl⟩
      · obtain ⟨rest, hget, -⟩ := @getNextPart_cons _ part _ _ hp (Nat.le_of_not_lt hlong)
        exact ⟨_, _, _, hget, .inl rfl⟩

end Parts

/-! ## What a path leads to -/

namespace Files

/-- The inode that a component names in a directory. -/
def child (F : Files) (d : UInt32) (c : List UInt8) : Option UInt32 :=
  (F.node d).bind fun n => n.target c

/-- `s` is a directory. -/
def IsDir (F : Files) (s : UInt32) : Prop := ∃ n, F.node s = some n ∧ n.isDir ≠ 0

instance (F : Files) (s : UInt32) : Decidable (F.IsDir s) :=
  match h : F.node s with
  | none => isFalse fun ⟨_, hn, _⟩ => by rw [h] at hn; cases hn
  | some n =>
      if hd : n.isDir = 0 then isFalse fun ⟨_, hn, hne⟩ => by
        rw [h] at hn
        cases hn
        exact hne hd
      else isTrue ⟨n, h, hd⟩

/-- The directory that a component names. -/
def subdir (F : Files) (d : UInt32) (c : List UInt8) : Option UInt32 :=
  (F.child d c).filter fun t => decide (F.IsDir t)

/-- Where the components lead from `d`: the last directory on the way, and whether the last
component named one. -/
def follow (F : Files) : UInt32 → List (List UInt8) → Option (UInt32 × Bool)
  | d, [] => some (d, true)
  | d, c :: cs =>
      if nameMax < c.length then none
      else match F.subdir d c with
        | some t => F.follow t cs
        | none => if cs = [] then some (d, false) else none

/-- A directory tree: directories hold whole entries, and what they name is there. -/
structure Tree (F : Files) : Prop where
  dirOk : ∀ d n, F.node d = some n → n.isDir ≠ 0 → n.DirOk
  named : ∀ d n k, F.node d = some n → n.isDir ≠ 0 → n.Uses k →
    ∃ m, F.node (n.entry k).inodeSector = some m

end Files

section Follow

variable {F : Files} {d s t : UInt32} {n : Node} {c : List UInt8} {cs : List (List UInt8)} {b : Bool}
  {r : Multiset UInt32} {E : Panic → Vol → Prop}

theorem Node.uses_of_find {k : Nat} (h : n.find c = some k) : n.Uses k :=
  ⟨(Node.find_lt h).1, (Node.find_lt h).2.1⟩

theorem Files.Tree.child (h : F.Tree) (hn : F.node d = some n) (hd : n.isDir ≠ 0)
    (ht : n.target c = some t) : ∃ m, F.node t = some m := by
  obtain ⟨k, hk, rfl⟩ := Option.map_eq_some_iff.mp ht
  exact h.named d n k hn hd (Node.uses_of_find hk)

theorem Files.subdir_isDir (h : F.subdir d c = some t) : F.child d c = some t ∧ F.IsDir t := by
  obtain ⟨hc, hd⟩ := Option.filter_eq_some_iff.mp h
  exact ⟨hc, of_decide_eq_true hd⟩

theorem Files.subdir_some (hc : F.child d c = some t) (hd : F.IsDir t) : F.subdir d c = some t :=
  Option.filter_eq_some_iff.mpr ⟨hc, decide_eq_true hd⟩

theorem Files.subdir_none (h : F.child d c = none) : F.subdir d c = none := by
  unfold Files.subdir
  rw [h]
  rfl

theorem Files.subdir_file (hc : F.child d c = some t) (hd : ¬ F.IsDir t) : F.subdir d c = none := by
  unfold Files.subdir
  rw [hc]
  exact Option.filter_some_neg (by simpa using hd)

/-- The string that `get_next_part` leaves. -/
theorem cstr_component (part : NameBuf) (hlen : c.length ≤ nameMax) (hz : 0 ∉ c) :
    cstr (overwrite part (c ++ [0])) = c := by
  have hcopy := cstr_strlcpy part hlen hz
  unfold strlcpy at hcopy
  rwa [List.take_of_length_le hlen] at hcopy

/-- The directory reached is one. -/
theorem Files.follow_isDir (hd : F.IsDir d) (h : F.follow d cs = some (t, b)) : F.IsDir t := by
  induction cs generalizing d with
  | nil =>
      cases Option.some.inj h
      exact hd
  | cons c cs ih =>
      unfold Files.follow at h
      split at h
      · cases h
      · cases hs : F.subdir d c with
        | some u =>
            rw [hs] at h
            exact ih (F.subdir_isDir hs).2 h
        | none =>
            rw [hs] at h
            dsimp only at h
            split at h
            · cases Option.some.inj h
              exact hd
            · cases h

/-! ## The loop -/

/-- The same files with other references. -/
def Files.withRefs (F : Files) (r : Multiset UInt32) : Files := { F with refs := r }

theorem Files.Calm.mono {r' : Multiset UInt32} (h : (F.withRefs r).Calm) (hr : r ≤ r') :
    (F.withRefs r').Calm :=
  fun s n hn hs => h s n hn fun hm => hs (Multiset.mem_of_le hr hm)

theorem Files.Calm.cons (h : (F.withRefs r).Calm) (s : UInt32) : (F.withRefs (s ::ₘ r)).Calm :=
  h.mono (Multiset.le_cons_self r s)

/-- `temp_inode && inode_is_dir (temp_inode)` for an open inode. -/
theorem fwp_isDirectory {P : Bool → Files → Prop} {m : Node} (hm : F.node t = some m)
    (ht : t ∈ F.refs) (h : P (decide (F.IsDir t)) F) : fwp (isDirectory (some t)) P E F := by
  refine fwp_inodeIsDir hm ht ?_
  have hdec : decide (m.isDir ≠ 0) = decide (F.IsDir t) := by
    refine decide_eq_decide.mpr ⟨fun hd => ⟨m, hm, hd⟩, ?_⟩
    rintro ⟨k, hk, hd⟩
    cases hm.symm.trans hk
    exact hd
  rw [hdec]
  exact h

/-- One round of the loop, for a component that the buffer then holds. -/
theorem fwp_followStep {P : Walk → Files → Prop} {w : Walk} {fuel : Nat} {part : NameBuf}
    {src : List UInt8} {k : Int} (htree : F.Tree) (hcalm : (F.withRefs r).Calm)
    (hdir : F.IsDir w.curInode) (hk : k = 1 ∨ k = -1)
    (hget : getNextPart w.part w.src = (k, part, src))
    (hdown : ∀ t, F.subdir w.curInode (cstr part) = some t →
      fwp (followLoop fuel ⟨t, some t, part, true, src⟩) P E (F.withRefs (t ::ₘ r)))
    (hnone : F.child w.curInode (cstr part) = none →
      P ⟨w.curInode, none, part, false, src⟩ (F.withRefs (w.curInode ::ₘ r)))
    (hfile : ∀ t, F.child w.curInode (cstr part) = some t → ¬ F.IsDir t →
      P ⟨w.curInode, some t, part, false, src⟩ (F.withRefs (t ::ₘ w.curInode ::ₘ r))) :
    fwp (followLoop (fuel + 1) w) P E (F.withRefs (w.curInode ::ₘ r)) := by
  obtain ⟨n, hn, hd⟩ := hdir
  have ok := htree.dirOk _ n hn hd
  have hchild : F.child w.curInode (cstr part) = n.target (cstr part) := by
    unfold Files.child
    rw [hn]
    rfl
  rw [hchild] at hnone hfile
  have hloop : followLoop (fuel + 1) w = (do
      inodeReopen w.curInode
      let tempInode ← dirLookup w.curInode (cstr part)
      inodeClose w.curInode
      if ← isDirectory tempInode then
        inodeClose w.curInode
        followLoop fuel ⟨tempInode.getD w.curInode, tempInode, part, true, src⟩
      else return ⟨w.curInode, tempInode, part, false, src⟩) := by
    rw [followLoop, hget]
    rcases hk with rfl | rfl <;> rfl
  rw [hloop]
  refine wpBy_seq (fwp_inodeReopen (Q := fun _ F₁ => F₁ =
    F.withRefs (w.curInode ::ₘ w.curInode ::ₘ r)) (Multiset.mem_cons_self _ _) rfl) ?_
  rintro - F₁ rfl
  refine wpBy_seq (fwp_dirLookup (P := fun x F₂ =>
    x = none ∧ n.target (cstr part) = none ∧ F₂ = F.withRefs (w.curInode ::ₘ w.curInode ::ₘ r) ∨
    ∃ t, x = some t ∧ n.target (cstr part) = some t ∧
      F₂ = F.withRefs (t ::ₘ w.curInode ::ₘ w.curInode ::ₘ r)) hn (Multiset.mem_cons_self _ _) ok
    (fun ht => .inl ⟨rfl, ht, rfl⟩) fun t ht => ⟨htree.child hn hd ht, .inr ⟨t, rfl, ht, rfl⟩⟩) ?_
  rintro x F₂ (⟨rfl, ht, rfl⟩ | ⟨t, rfl, ht, rfl⟩)
  · refine wpBy_seq (fwp_unref (Q := fun _ F₃ => F₃ = F.withRefs (w.curInode ::ₘ r))
      (hcalm.cons _) rfl rfl) ?_
    rintro - F₃ rfl
    exact wpBy_pure (hnone ht)
  · obtain ⟨m, hm⟩ := htree.child hn hd ht
    refine wpBy_seq (fwp_unref (Q := fun _ F₃ => F₃ = F.withRefs (t ::ₘ w.curInode ::ₘ r))
      ((hcalm.cons _).cons _) (Multiset.cons_swap ..) rfl) ?_
    rintro - F₃ rfl
    refine wpBy_seq (fwp_isDirectory (P := fun x F₄ => x = decide (F.IsDir t) ∧
      F₄ = F.withRefs (t ::ₘ w.curInode ::ₘ r)) hm (Multiset.mem_cons_self _ _) ⟨rfl, rfl⟩) ?_
    rintro x F₄ ⟨rfl, rfl⟩
    by_cases hdir : F.IsDir t
    · rw [if_pos (decide_eq_true hdir)]
      refine wpBy_seq (fwp_unref (Q := fun _ F₅ => F₅ = F.withRefs (t ::ₘ r)) (hcalm.cons _)
        (Multiset.cons_swap ..) rfl) ?_
      rintro - F₅ rfl
      exact hdown t (F.subdir_some (hchild.trans ht) hdir)
    · rw [if_neg (by simpa using hdir)]
      exact wpBy_pure (hfile t ht hdir)

/-- What is in the buffer after the last component. -/
def lastPart (cs : List (List UInt8)) (part : NameBuf) : List UInt8 := cs.getLast?.getD (cstr part)

theorem lastPart_cons (c : List UInt8) (cs : List (List UInt8)) (part : NameBuf) :
    lastPart (c :: cs) part = cs.getLast?.getD c := by
  unfold lastPart
  rw [List.getLast?_cons]
  rfl

/-- The loop got to the end of the path. -/
structure Followed (F : Files) (r : Multiset UInt32) (d : UInt32) (b : Bool) (last : List UInt8)
    (w : Walk) (F' : Files) : Prop where
  dir : w.curInode = d
  done : parts w.src = []
  isDir : w.partIsDir = b
  part : cstr w.part = last
  refs : (w.tempInode = none ∨ w.tempInode = some d) ∧ F' = F.withRefs (d ::ₘ r) ∨
    ∃ t, w.tempInode = some t ∧ t ≠ d ∧ F' = F.withRefs (t ::ₘ d ::ₘ r)

/-- The loop of `inode_follow_path` goes where `follow` says.  The induction is on the fuel, which is
more than the parts that are left. -/
theorem fwp_followLoop_some (htree : F.Tree) (hcalm : (F.withRefs r).Calm) :
    ∀ (fuel : Nat) {w : Walk}, F.IsDir w.curInode → (∀ c ∈ parts w.src, 0 ∉ c) →
      (parts w.src).length < fuel → w.tempInode = none ∨ w.tempInode = some w.curInode →
      w.partIsDir = true → F.follow w.curInode (parts w.src) = some (d, b) →
      fwp (followLoop fuel w) (Followed F r d b (lastPart (parts w.src) w.part)) E
        (F.withRefs (w.curInode ::ₘ r)) := by
  intro fuel
  induction fuel with
  | zero => exact fun _ _ hfuel => absurd hfuel (Nat.not_lt_zero _)
  | succ fuel ih =>
      intro w hdir hz hfuel htemp hpart hfollow
      cases hp : parts w.src with
      | nil =>
          rw [hp] at hfollow
          cases Option.some.inj hfollow
          rw [followLoop, getNextPart_nil hp]
          exact wpBy_pure ⟨rfl, hp, hpart, rfl, .inl ⟨htemp, rfl⟩⟩
      | cons c cs =>
          rw [hp] at hfollow hz hfuel
          rw [lastPart_cons]
          unfold Files.follow at hfollow
          split at hfollow
          · cases hfollow
          · next hlong =>
            have hlen : c.length ≤ nameMax := Nat.le_of_not_lt hlong
            obtain ⟨rest, hget, hrest⟩ := @getNextPart_cons _ w.part _ _ hp hlen
            have hc := cstr_component w.part hlen (hz c (List.mem_cons_self ..))
            refine fwp_followStep htree hcalm hdir (.inl rfl) hget (fun t ht => ?_) (fun ht => ?_)
              fun t ht hnd => ?_
            · rw [hc] at ht
              rw [ht] at hfollow
              have hgo := ih (w := ⟨t, some t, overwrite w.part (c ++ [0]), true, rest⟩)
                (F.subdir_isDir ht).2
                (by rw [hrest]; exact fun x hx => hz x (List.mem_cons_of_mem _ hx))
                (by rw [hrest]; rw [List.length_cons] at hfuel; omega) (.inr rfl) rfl
                (by rw [hrest]; exact hfollow)
              have hlast : lastPart (parts rest) (overwrite w.part (c ++ [0])) = cs.getLast?.getD c := by
                unfold lastPart
                rw [hrest, hc]
              rwa [hlast] at hgo
            · rw [hc] at ht
              rw [F.subdir_none ht] at hfollow
              dsimp only at hfollow
              split at hfollow
              · next hcs =>
                cases Option.some.inj hfollow
                refine ⟨rfl, hrest.trans hcs, rfl, ?_, .inl ⟨.inl rfl, rfl⟩⟩
                rw [hcs]
                exact hc
              · cases hfollow
            · rw [hc] at ht
              rw [F.subdir_file ht hnd] at hfollow
              dsimp only at hfollow
              split at hfollow
              · next hcs =>
                cases Option.some.inj hfollow
                refine ⟨rfl, hrest.trans hcs, rfl, ?_, .inr ⟨t, rfl, ?_, rfl⟩⟩
                · rw [hcs]
                  exact hc
                · rintro rfl
                  exact hnd hdir
              · cases hfollow

/-- The loop did not get there, and the last inode it looked at may still be open. -/
structure Stuck (F : Files) (r : Multiset UInt32) (w : Walk) (F' : Files) : Prop where
  more : parts w.src ≠ []
  refs : F' = F.withRefs (w.curInode ::ₘ r) ∨ ∃ t, F' = F.withRefs (t ::ₘ w.curInode ::ₘ r)

/-- With a component that is too long the loop may have no end. -/
theorem fwp_followLoop_none (htree : F.Tree) (hcalm : (F.withRefs r).Calm) :
    ∀ (fuel : Nat) {w : Walk}, F.IsDir w.curInode → (∀ c ∈ parts w.src, 0 ∉ c) →
      ((∃ c ∈ parts w.src, nameMax < c.length) → ∀ v', E .spin v') →
      ((parts w.src).length < fuel ∨ ∀ v', E .spin v') →
      F.follow w.curInode (parts w.src) = none →
      fwp (followLoop fuel w) (Stuck F r) E (F.withRefs (w.curInode ::ₘ r)) := by
  intro fuel
  induction fuel with
  | zero =>
      intro w _ _ _ hfuel _
      rcases hfuel with hfuel | hspin
      · exact absurd hfuel (Nat.not_lt_zero _)
      · exact wpBy_throw fun _ => hspin _
  | succ fuel ih =>
      intro w hdir hz hspin hfuel hfollow
      cases hp : parts w.src with
      | nil =>
          rw [hp] at hfollow
          cases hfollow
      | cons c cs =>
          by_cases hlong : nameMax < c.length
          · have hE := hspin ⟨c, by rw [hp]; exact List.mem_cons_self .., hlong⟩
            refine fwp_followStep htree hcalm hdir (.inr rfl) (getNextPart_long hp hlong)
              (fun t ht => ?_) (fun _ => ⟨?_, .inl rfl⟩) fun t _ _ => ⟨?_, .inr ⟨t, rfl⟩⟩
            · refine ih (w := ⟨t, some t, _, true, w.src⟩) (F.subdir_isDir ht).2 hz hspin (.inr hE) ?_
              rw [hp]
              unfold Files.follow
              rw [if_pos hlong]
            · rw [hp]
              simp
            · rw [hp]
              simp
          · rw [hp] at hfollow hz hfuel hspin
            unfold Files.follow at hfollow
            rw [if_neg hlong] at hfollow
            have hlen : c.length ≤ nameMax := Nat.le_of_not_lt hlong
            obtain ⟨rest, hget, hrest⟩ := @getNextPart_cons _ w.part _ _ hp hlen
            have hc := cstr_component w.part hlen (hz c (List.mem_cons_self ..))
            have hmore : F.subdir w.curInode c = none → parts rest ≠ [] := by
              intro hsub hnil
              rw [hsub] at hfollow
              dsimp only at hfollow
              rw [if_pos (hrest.symm.trans hnil)] at hfollow
              cases hfollow
            refine fwp_followStep htree hcalm hdir (.inl rfl) hget (fun t ht => ?_) (fun ht => ?_)
              fun t ht hnd => ?_
            · rw [hc] at ht
              rw [ht] at hfollow
              refine ih (w := ⟨t, some t, _, true, rest⟩) (F.subdir_isDir ht).2 ?_ ?_ ?_ ?_
              · rw [hrest]
                exact fun x hx => hz x (List.mem_cons_of_mem _ hx)
              · rw [hrest]
                rintro ⟨x, hx, hl⟩
                exact hspin ⟨x, List.mem_cons_of_mem _ hx, hl⟩
              · rw [hrest]
                refine hfuel.imp_left fun hlt => ?_
                rw [List.length_cons] at hlt
                omega
              · rw [hrest]
                exact hfollow
            · rw [hc] at ht
              exact ⟨hmore (F.subdir_none ht), .inl rfl⟩
            · rw [hc] at ht
              exact ⟨hmore (F.subdir_file ht hnd), .inr ⟨t, rfl⟩⟩

/-! ## The call -/

/-- The directory that a path starts from. -/
def startDir (cwd : Option UInt32) (path : List UInt8) : Option UInt32 :=
  if path.head? = some slash then some rootDirSector else cwd

/-- What is there for a thread: a tree with a root, and its own directory, which it holds. -/
structure Files.Home (F : Files) (cwd : Option UInt32) : Prop where
  tree : F.Tree
  root : F.IsDir rootDirSector
  cwd : ∀ c, cwd = some c → F.IsDir c ∧ c ∈ F.refs

/-- Where a path leads to. -/
def Files.followPath (F : Files) (cwd : Option UInt32) (path : List UInt8) : Option (UInt32 × Bool) :=
  if path = [] then none else (startDir cwd path).bind fun d => F.follow d (parts path)

variable {cwd : Option UInt32} {path : List UInt8} {part : NameBuf}

/-- The components that were followed are not too long. -/
theorem Files.follow_short (h : F.follow d cs = some (t, b)) :
    ¬ ∃ c ∈ cs, nameMax < c.length := by
  induction cs generalizing d with
  | nil =>
      rintro ⟨c, hc, -⟩
      cases hc
  | cons c cs ih =>
      unfold Files.follow at h
      split at h
      · cases h
      · next hlong =>
          have hrest : ¬ ∃ c ∈ cs, nameMax < c.length := by
            split at h
            · exact ih h
            · split at h
              · next hnil =>
                  rw [hnil]
                  rintro ⟨c, hc, -⟩
                  cases hc
              · cases h
          rintro ⟨c', hc', hl⟩
          rcases List.mem_cons.mp hc' with rfl | hc'
          · exact hlong hl
          · exact hrest ⟨c', hc', hl⟩

theorem Files.followPath_short (h : F.followPath cwd path = some (d, b)) :
    path ≠ [] ∧ startDir cwd path ≠ none ∧ ¬ ∃ c ∈ parts path, nameMax < c.length := by
  unfold Files.followPath at h
  split at h
  · cases h
  · next hne =>
      obtain ⟨t, ht, hf⟩ := Option.bind_eq_some_iff.mp h
      exact ⟨hne, by rw [ht]; exact Option.some_ne_none t, F.follow_short hf⟩

theorem Files.Home.isDir (h : F.Home cwd) (hf : F.followPath cwd path = some (d, b)) : F.IsDir d := by
  unfold Files.followPath startDir at hf
  split at hf
  · cases hf
  · split at hf
    · exact F.follow_isDir h.root hf
    · obtain ⟨c, hc, hf⟩ := Option.bind_eq_some_iff.mp hf
      exact F.follow_isDir (h.cwd c hc).1 hf

theorem Files.Home.dirOk (h : F.Home cwd) (hf : F.followPath cwd path = some (d, b))
    (hn : F.node d = some n) : n.DirOk := by
  obtain ⟨k, hk, hne⟩ := h.isDir hf
  obtain rfl := Option.some.inj (hn.symm.trans hk)
  exact h.tree.dirOk d _ hn hne

/-- A path starts at the root, or at the working directory. -/
theorem fwp_startInode {P : UInt32 → Files → Prop} (hhome : F.Home cwd)
    (hnull : startDir cwd path = none → ∀ v', E .badPointer v')
    (h : ∀ d, startDir cwd path = some d → F.IsDir d → P d (F.withRefs (d ::ₘ F.refs))) :
    fwp (startInode cwd path) P E F := by
  unfold startDir at hnull h
  refine wpBy_ite (fun hs => ?_) fun hs => ?_
  · rw [if_pos hs] at h
    obtain ⟨n, hn, -⟩ := hhome.root
    refine wpBy_seq (fwp_inodeOpen (Q := fun _ F₁ =>
      F₁ = F.withRefs (rootDirSector ::ₘ F.refs)) hn rfl) ?_
    rintro - F₁ rfl
    exact wpBy_pure (h _ rfl hhome.root)
  · rw [if_neg hs] at h hnull
    cases cwd with
    | none => exact wpBy_throw fun _ => hnull rfl _
    | some c =>
        obtain ⟨hdir, href⟩ := hhome.cwd c rfl
        refine wpBy_seq (fwp_inodeReopen (Q := fun _ F₁ => F₁ = F.withRefs (c ::ₘ F.refs)) href rfl) ?_
        rintro - F₁ rfl
        exact wpBy_pure (h c rfl hdir)

/-- The specification of `output_follow_file_path`.  If it
fails then the references it took are lost. -/
theorem follow_spec {P : Follow → Files → Prop} (hhome : F.Home cwd) (hz : 0 ∉ path)
    (hnull : path ≠ [] → startDir cwd path = none → ∀ v', E .badPointer v')
    (hspin : (∃ c ∈ parts path, nameMax < c.length) → ∀ v', E .spin v')
    (hsome : ∀ d b f, F.followPath cwd path = some (d, b) → F.IsDir d → f.success = true →
      f.dir = some d → f.partIsDir = b → cstr f.part = lastPart (parts path) part →
      P f (F.withRefs (d ::ₘ F.refs)))
    (hnone : ∀ f r, F.followPath cwd path = none → f.success = false → F.refs ≤ r →
      P f (F.withRefs r)) :
    fwp (outputFollowFilePath cwd path part) P E F := by
  refine fwp_calm fun hcalm => ?_
  have hcalm' : (F.withRefs F.refs).Calm := hcalm
  refine wpBy_ite (fun hnil => wpBy_pure ?_) fun hnil => ?_
  · exact hnone _ F.refs (if_pos hnil) rfl le_rfl
  refine wpBy_seq (fwp_startInode (P := fun d F₁ => startDir cwd path = some d ∧ F.IsDir d ∧
    F₁ = F.withRefs (d ::ₘ F.refs)) hhome (hnull hnil) fun d hs hd => ⟨hs, hd, rfl⟩) ?_
  rintro s F₁ ⟨hs, hd, rfl⟩
  have hpath : F.followPath cwd path = F.follow s (parts path) := by
    unfold Files.followPath
    rw [if_neg hnil, hs]
    rfl
  rw [hpath] at hsome hnone
  have hz' : ∀ c ∈ parts path, 0 ∉ c := fun c hc h0 => hz ((mem_parts hc).2 0 h0)
  have hlen := @length_parts path
  have hfuel : (parts path).length < path.length + 2 ^ 32 := by omega
  cases hf : F.follow s (parts path) with
  | some x =>
      obtain ⟨d, b⟩ := x
      refine wpBy_seq (fwp_followLoop_some hhome.tree hcalm' _ (w := ⟨s, none, part, true, path⟩) hd hz'
        hfuel (.inl rfl) rfl hf) ?_
      rintro w F₂ ⟨rfl, hdone, rfl, hlast, hrefs⟩
      have hd' := F.follow_isDir hd hf
      have hP := fun f => hsome w.curInode w.partIsDir f hf hd'
      rw [getNextPart_nil hdone]
      rcases hrefs with ⟨ht, rfl⟩ | ⟨t, ht, htd, rfl⟩
      · rcases ht with ht | ht
        · rw [ht]
          exact wpBy_pure (hP _ rfl rfl rfl hlast)
        · -- the last component named the directory itself
          rw [ht]
          simp only [ne_eq, not_true_eq_false, if_false]
          exact wpBy_pure (hP _ rfl rfl rfl hlast)
      · rw [ht]
        simp only [ne_eq, Ne.symm htd, not_false_eq_true, if_true]
        refine wpBy_seq (fwp_unref (Q := fun _ F₃ => F₃ = F.withRefs (w.curInode ::ₘ F.refs))
          (hcalm'.cons _) rfl rfl) ?_
        rintro - F₃ rfl
        exact wpBy_pure (hP _ rfl rfl rfl hlast)
  | none =>
      refine wpBy_seq (fwp_followLoop_none hhome.tree hcalm' _ (w := ⟨s, none, part, true, path⟩) hd hz'
        hspin (.inl hfuel) hf) ?_
      rintro w F₂ ⟨hmore, hrefs⟩
      obtain ⟨k, part', src', hget, hk⟩ := @getNextPart_more _ w.part hmore
      have hP : ∀ f : Follow, f.success = false → P f F₂ := by
        intro f hfail
        rcases hrefs with rfl | ⟨t, rfl⟩
        · exact hnone f _ hf hfail (Multiset.le_cons_self ..)
        · exact hnone f _ hf hfail ((Multiset.le_cons_self ..).trans (Multiset.le_cons_self ..))
      rw [hget]
      rcases hk with rfl | rfl
      · exact wpBy_pure (hP _ rfl)
      · exact wpBy_pure (hP _ rfl)

end Follow

end CS162.Fs
