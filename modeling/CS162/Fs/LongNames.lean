/-
# `CS162.Fs.LongNames` — components that are too long

`get_next_part` takes a component that is too long again and again, and leaves its first 14 bytes in
the buffer.  The loop goes down a directory each time, as long as there is one of that name, and ends
because the directories below each other come to an end (`Files.Acyclic`).  The component is still
there after the loop, so that the path is refused (`fwp_refused`).

Without such a component the calls give the parts of the path between its slashes (`Yields`).
-/
import Mathlib.Data.Finset.Card
import Mathlib.Data.Finset.Range
import Mathlib.Logic.Relation
import CS162.Fs.CreationFails

namespace CS162.Fs

open Bytes Wp Relation

/-! ## The parts of a path -/

section Parts

variable {acc src c : List UInt8} {part : NameBuf}

theorem modifyHead_nil_append (l : List (List UInt8)) : l.modifyHead ([] ++ ·) = l := by
  cases l with
  | nil => rfl
  | cons a l => rfl

/-- The parts are what stands between the slashes, without the empty ones. -/
theorem partsFrom_eq_splitOn (acc src : List UInt8) :
    partsFrom acc src = ((src.splitOn slash).modifyHead (acc ++ ·)).filter (· ≠ []) := by
  induction src generalizing acc with
  | nil =>
      by_cases hacc : acc = []
      · simp [partsFrom, hacc]
      · simp [partsFrom, hacc]
  | cons a src ih =>
      rw [List.splitOn_cons_eq_if_modifyHead]
      unfold partsFrom
      simp only [beq_iff_eq]
      split
      · rw [ih, modifyHead_nil_append]
        by_cases hacc : acc = []
        · simp [hacc]
        · simp [hacc]
      · rw [ih, List.modifyHead_modifyHead]
        congr 2
        funext l
        simp

/-- The components are the longest pieces without a slash. -/
theorem parts_eq_splitOn (src : List UInt8) : parts src = (src.splitOn slash).filter (· ≠ []) := by
  have h := partsFrom_eq_splitOn [] src
  rwa [modifyHead_nil_append] at h

/-- What calls of `get_next_part` give, one after the other: each leaves a component in the buffer, with
a null byte behind it. -/
inductive Yields : NameBuf → List UInt8 → List (List UInt8) → Prop where
  | done {part : NameBuf} {src : List UInt8} : getNextPart part src = (0, part, src) → Yields part src []
  | next {part part' : NameBuf} {src rest c : List UInt8} {cs : List (List UInt8)} :
      getNextPart part src = (1, part', rest) → c.length < 15 → part'.slice 0 c.length = c →
      part'.get c.length = 0 → Yields part' rest cs → Yields part src (c :: cs)

/-- What a copy has left in the buffer. -/
theorem get_overwrite {s : List UInt8} {i : Nat} (hi : i < 15) (his : i < s.length) :
    (overwrite part s).get i = s.getD i 0 := by
  unfold overwrite
  rw [Block.get_splice part hi, if_pos (by omega), Nat.sub_zero]

theorem slice_overwrite {s : List UInt8} {k : Nat} (hk : k ≤ 15) (hks : k ≤ s.length) :
    (overwrite part s).slice 0 k = s.take k := by
  refine List.ext_getElem ?_ fun i h₁ h₂ => ?_
  · rw [Block.length_slice, List.length_take]
    omega
  · have hi : i < k := by simpa using h₁
    have hleft : ((overwrite part s).slice 0 k)[i] = (overwrite part s).get i := by simp [Block.slice]
    rw [hleft, get_overwrite (by omega) (by omega), List.getElem_take, List.getD_eq_getElem?_getD,
      List.getElem?_eq_getElem (by omega)]
    rfl

/-- A path without a component that is too long gives its components. -/
theorem yields_parts (hshort : ∀ c ∈ parts src, c.length ≤ nameMax) (part : NameBuf) :
    Yields part src (parts src) := by
  generalize hcs : parts src = cs at hshort ⊢
  induction cs generalizing src part with
  | nil => exact .done (getNextPart_nil hcs)
  | cons c cs ih =>
      have hlen : c.length ≤ nameMax := hshort c (List.mem_cons_self ..)
      obtain ⟨rest, hget, hrest⟩ := @getNextPart_cons _ part _ _ hcs hlen
      simp only [nameMax] at hlen
      have hlen' : (c ++ [0]).length = c.length + 1 := by simp
      refine .next hget (by omega) ?_ ?_ (ih _ hrest fun x hx => hshort x (List.mem_cons_of_mem _ hx))
      · rw [slice_overwrite (by omega) (by omega), List.take_left']
        rfl
      · rw [get_overwrite (by omega) (by omega)]
        simp

theorem slice_succ (b : NameBuf) (off len : Nat) :
    b.slice off (len + 1) = b.slice off len ++ [b.get (off + len)] := by
  simp [Block.slice, List.range_succ]

/-- The name that a component leaves that is too long has no byte less than `NAME_MAX`. -/
theorem length_cstr_long (hlong : nameMax < c.length) (hz : 0 ∉ c) :
    nameMax ≤ (cstr (overwrite part (c.take nameMax))).length := by
  have hlen : (c.take nameMax).length = nameMax := by
    rw [List.length_take]
    omega
  have hsplit : (overwrite part (c.take nameMax)).slice 0 15 =
      c.take nameMax ++ [(overwrite part (c.take nameMax)).get nameMax] := by
    have h := slice_succ (overwrite part (c.take nameMax)) 0 nameMax
    rwa [slice_overwrite (by decide) hlen.ge, List.take_take, Nat.min_self, Nat.zero_add] at h
  unfold cstr
  rw [hsplit, List.takeWhile_append_of_pos, List.length_append, hlen]
  · exact Nat.le_add_right ..
  · intro x hx
    have hne : x ≠ 0 := by
      rintro rfl
      exact hz (List.mem_of_mem_take hx)
    simpa using hne

end Parts

/-! ## Going down -/

section Down

variable {F : Files} {d t : UInt32} {c : List UInt8} {r : Multiset UInt32} {E : Panic → Vol → Prop}

/-- `t` is a directory in the directory `d`, other than those that every directory names. -/
def Files.Below (F : Files) (d t : UInt32) : Prop := ∃ c, c ≠ dot ∧ c ≠ dotDot ∧ F.subdir d c = some t

/-- No directory is below itself. -/
def Files.Acyclic (F : Files) : Prop := ∀ d, ¬ TransGen F.Below d d

/-- There are no more directories above one than sectors, without it. -/
theorem Files.Acyclic.card_lt (h : F.Acyclic) {V : Finset UInt32} (hV : ∀ v ∈ V, TransGen F.Below v d) :
    V.card < 2 ^ 32 := by
  have hd : d ∉ V := fun hd => h d (hV d hd)
  have hle : (insert d V).card ≤ (Finset.range (2 ^ 32)).card :=
    Finset.card_le_card_of_injOn UInt32.toNat (fun v _ => by simpa using v.toNat_lt)
      fun v _ u _ hvu => UInt32.toNat_inj.mp hvu
  rw [Finset.card_insert_of_notMem hd, Finset.card_range] at hle
  omega

theorem below_of_long (hlong : nameMax ≤ c.length) (h : F.subdir d c = some t) : F.Below d t := by
  have hne : ∀ x : List UInt8, x.length < nameMax → c ≠ x := by
    rintro x hx rfl
    omega
  exact ⟨c, hne dot (by decide), hne dotDot (by decide), h⟩

/-- From a component that is too long on the loop goes down, and stops above it.  `V` are the
directories it has come through. -/
theorem fwp_followLoop_long {cs : List (List UInt8)} (htree : F.Tree) (hcalm : (F.withRefs r).Calm)
    (hac : F.Acyclic) (hz : 0 ∉ c) (hlong : nameMax < c.length) :
    ∀ (fuel : Nat) (V : Finset UInt32) {w : Walk}, F.IsDir w.curInode → parts w.src = c :: cs →
      (∀ v ∈ V, TransGen F.Below v w.curInode) → 2 ^ 32 ≤ V.card + fuel →
      fwp (followLoop fuel w) (Stuck F r) E (F.withRefs (w.curInode ::ₘ r)) := by
  intro fuel
  induction fuel with
  | zero =>
      intro V w _ _ hV hfuel
      have hlt := hac.card_lt hV
      omega
  | succ fuel ih =>
      intro V w hdir hp hV hfuel
      have hmore : parts w.src ≠ [] := by
        rw [hp]
        exact List.cons_ne_nil _ _
      refine fwp_followStep htree hcalm hdir (.inr rfl) (getNextPart_long hp hlong) (fun t ht => ?_)
        (fun _ => ⟨hmore, .inl rfl⟩) fun t _ _ => ⟨hmore, .inr ⟨t, rfl⟩⟩
      have hbelow := below_of_long (length_cstr_long hlong hz) ht
      have hcur : w.curInode ∉ V := fun h => hac _ (hV _ h)
      refine ih (insert w.curInode V) (w := ⟨t, some t, _, true, w.src⟩) (F.subdir_isDir ht).2 hp ?_ ?_
      · intro v hv
        rcases Finset.mem_insert.mp hv with rfl | hv
        · exact .single hbelow
        · exact (hV v hv).tail hbelow
      · rw [Finset.card_insert_of_notMem hcur]
        omega

/-- The loop on a path with a component that is too long. -/
theorem fwp_followLoop_refused (htree : F.Tree) (hcalm : (F.withRefs r).Calm) (hac : F.Acyclic) :
    ∀ (cs : List (List UInt8)) (fuel : Nat) {w : Walk}, F.IsDir w.curInode → parts w.src = cs →
      (∀ c ∈ cs, 0 ∉ c) → (∃ c ∈ cs, nameMax < c.length) → cs.length + 2 ^ 32 ≤ fuel →
      fwp (followLoop fuel w) (Stuck F r) E (F.withRefs (w.curInode ::ₘ r)) := by
  intro cs
  induction cs with
  | nil =>
      rintro fuel w _ _ _ ⟨c, hc, -⟩
      cases hc
  | cons c cs ih =>
      intro fuel w hdir hp hz hex hfuel
      have hzc : 0 ∉ c := hz c (List.mem_cons_self ..)
      by_cases hlong : nameMax < c.length
      · refine fwp_followLoop_long htree hcalm hac hzc hlong fuel ∅ hdir hp (fun v hv => ?_) ?_
        · cases hv
        · omega
      · have hrest : ∃ c ∈ cs, nameMax < c.length := by
          obtain ⟨x, hx, hl⟩ := hex
          rcases List.mem_cons.mp hx with rfl | hx
          · exact absurd hl hlong
          · exact ⟨x, hx, hl⟩
        have hne : cs ≠ [] := by
          rintro rfl
          obtain ⟨x, hx, -⟩ := hrest
          cases hx
        rw [List.length_cons] at hfuel
        obtain ⟨fuel, rfl⟩ : ∃ k, fuel = k + 1 := ⟨fuel - 1, by omega⟩
        have hlen : c.length ≤ nameMax := Nat.le_of_not_lt hlong
        obtain ⟨rest, hget, hparts⟩ := @getNextPart_cons _ w.part _ _ hp hlen
        have hmore : parts rest ≠ [] := hparts ▸ hne
        refine fwp_followStep htree hcalm hdir (.inl rfl) hget (fun t ht => ?_)
          (fun _ => ⟨hmore, .inl rfl⟩) fun t _ _ => ⟨hmore, .inr ⟨t, rfl⟩⟩
        exact ih fuel (w := ⟨t, some t, _, true, rest⟩) (F.subdir_isDir ht).2 hparts
          (fun x hx => hz x (List.mem_cons_of_mem _ hx)) hrest (by omega)

variable {cwd : Option UInt32} {path : List UInt8}

/-- `output_follow_file_path` ends, and gives false. -/
theorem fwp_refused (hhome : F.Home cwd) (hac : F.Acyclic) (hz : 0 ∉ path)
    (hstart : startDir cwd path ≠ none) (hlong : ∃ c ∈ parts path, nameMax < c.length) (part : NameBuf) :
    fwp (outputFollowFilePath cwd path part) (fun f F' => f.success = false ∧ ∃ r, F' = F.withRefs r)
      E F := by
  refine fwp_calm fun hcalm => ?_
  have hcalm' : (F.withRefs F.refs).Calm := hcalm
  refine wpBy_ite (fun _ => wpBy_pure ⟨rfl, F.refs, rfl⟩) fun _ => ?_
  refine wpBy_seq (fwp_startInode (P := fun d F₁ => F.IsDir d ∧ F₁ = F.withRefs (d ::ₘ F.refs)) hhome
    (fun h => absurd h hstart) fun d _ hd => ⟨hd, rfl⟩) ?_
  rintro s F₁ ⟨hd, rfl⟩
  have hz' : ∀ c ∈ parts path, 0 ∉ c := fun c hc h0 => hz ((mem_parts hc).2 0 h0)
  refine wpBy_seq (fwp_followLoop_refused hhome.tree hcalm' hac _ _ (w := ⟨s, none, part, true, path⟩) hd
    rfl hz' hlong (Nat.add_le_add_right length_parts _)) ?_
  rintro w F₂ ⟨hmore, hrefs⟩
  have hF₂ : ∃ r, F₂ = F.withRefs r := by
    rcases hrefs with rfl | ⟨t, rfl⟩
    · exact ⟨_, rfl⟩
    · exact ⟨_, rfl⟩
  obtain ⟨k, part', src', hget, hk⟩ := @getNextPart_more _ w.part hmore
  rw [hget]
  rcases hk with rfl | rfl
  · exact wpBy_pure ⟨rfl, hF₂⟩
  · exact wpBy_pure ⟨rfl, hF₂⟩

/-- Paths with a component longer than `NAME_MAX` are refused; the others give their components. -/
theorem long_component_refused {fs : FsState} (hv : Shows fs.vol F) (hhome : F.Home cwd)
    (hac : F.Acyclic) (hz : 0 ∉ path) (hstart : startDir cwd path ≠ none) (part : NameBuf) :
    ((∃ c ∈ path.splitOn slash, nameMax < c.length) →
      ∃ f fs', outputFollowFilePath cwd path part fs = .ok f fs' ∧ f.success = false) ∧
    ((∀ c ∈ path.splitOn slash, c.length ≤ nameMax) →
      Yields part path ((path.splitOn slash).filter (· ≠ []))) := by
  rw [← parts_eq_splitOn]
  have hmem : ∀ c, c ∈ parts path ↔ c ∈ path.splitOn slash ∧ c ≠ [] := by
    intro c
    rw [parts_eq_splitOn, List.mem_filter, decide_eq_true_iff]
  constructor
  · rintro ⟨c, hc, hlong⟩
    have hne : c ≠ [] := by
      rintro rfl
      cases hlong
    have hspec := fwp_refused (E := fun _ _ => False) hhome hac hz hstart
      ⟨c, (hmem c).mpr ⟨hc, hne⟩, hlong⟩ part
    rcases wpBy_run hspec hv with ⟨f, fs', F', hrun, -, hf, -⟩ | ⟨_, _, -, hE⟩
    · exact ⟨f, fs', hrun, hf⟩
    · exact hE.elim
  · exact fun hshort => yields_parts (fun c hc => hshort c ((hmem c).mp hc).1) part

/-- A new disk has one directory, with nothing in it. -/
theorem Booted.acyclic {v₁ v : Vol} (h : Booted v₁ v) : (rootFiles v).Acyclic := by
  have hnone : ∀ d t, ¬ (rootFiles v).Below d t := by
    rintro d t ⟨c, -, -, hsub⟩
    obtain ⟨n, hn, ht⟩ := Option.bind_eq_some_iff.mp (Files.subdir_isDir hsub).1
    obtain ⟨-, rfl⟩ := rootFiles_root hn
    obtain ⟨k, hk, -⟩ := Option.map_eq_some_iff.mp ht
    have hlt := (Node.uses_of_find hk).1
    unfold Node.slots at hlt
    rw [h.root_len] at hlt
    exact absurd hlt (Nat.not_lt_zero _)
  intro d hd
  obtain ⟨t, ht, -⟩ := TransGen.head'_iff.mp hd
  exact hnone d t ht

/-- The root directory is the only one on it. -/
theorem long_component_refused_small : ∃ f fs',
    outputFollowFilePath (some rootDirSector) (slash :: List.replicate 15 97) DirEntry.zero.name
        smallFs = .ok f fs' ∧
      f.success = false := by
  obtain ⟨v₁, hb⟩ := smallFs_booted
  refine (long_component_refused hb.shows hb.home hb.acyclic (by decide) (by decide) _).1 ?_
  exact ⟨List.replicate 15 97, by decide, by decide⟩

end Down

end CS162.Fs
