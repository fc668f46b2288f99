/-
# `CS162.Kernel.MallocRuns` — the accounting of `threads/malloc.c`

`Client` is the allocator together with what its callers hold: the address of each block that was
handed out and not freed, and the bytes it was requested for.  A run is any sequence of calls with
sizes below `2 ^ 31` that free only what is held, and the rest of the kernel may write to memory and
use the page pool in between.

`Counted` is about the heap alone: the count of an arena is the number of its blocks in the free
list and is less than the number of all its blocks.  So the list holds all blocks of an arena when
the last one comes back (`mem_of_inArena`), and `free` cannot fail (`free_spec`).  `Client.Inv` adds
that the blocks in use are the ones that are held.
-/
import CS162.Kernel.Malloc

namespace CS162.Kernel.Malloc

open Fs

/-! ## The callers -/

/-- The allocator and the blocks that are held. -/
structure Client where
  heap : Heap
  held : Nat → Option Nat

/-- A block is handed out, or given back. -/
def mark (held : Nat → Option Nat) (p : Option Nat) (n : Option Nat) : Nat → Option Nat :=
  match p with
  | none => held
  | some p => Function.update held p n

/-- The calls. -/
inductive Op
  | malloc (size : UInt32)
  | calloc (a b : UInt32)
  | realloc (oldBlock : Option Nat) (newSize : UInt32)
  | free (p : Option Nat)

/-- A block that is passed in is held. -/
def Client.Holds (s : Client) (p : Option Nat) : Prop := ∀ q, p = some q → (s.held q).isSome = true

/-- What callers may do. -/
def Client.Allows (s : Client) : Op → Prop
  | .malloc size => size.toNat < 2 ^ 31
  | .calloc a b => a.toNat * b.toNat < 2 ^ 31
  | .realloc oldBlock newSize => newSize.toNat < 2 ^ 31 ∧ s.Holds oldBlock
  | .free p => s.Holds p

/-- A call, with the block it returns. -/
def Client.exec (s : Client) : Op → Option (Option Nat × Client)
  | .malloc size =>
      (malloc s.heap size).map fun (p, heap) => (p, ⟨heap, mark s.held p (some size.toNat)⟩)
  | .calloc a b =>
      (calloc s.heap a b).map fun (p, heap) => (p, ⟨heap, mark s.held p (some (a.toNat * b.toNat))⟩)
  | .realloc oldBlock newSize =>
      (realloc s.heap oldBlock newSize).map fun (p, heap) =>
        (p, ⟨heap, if newSize = 0 ∨ p ≠ none then
          mark (mark s.held oldBlock none) p (some newSize.toNat) else s.held⟩)
  | .free none => some (none, s)
  | .free (some p) => (free s.heap p).map fun heap => (none, ⟨heap, mark s.held (some p) none⟩)

/-- A step of a run. -/
inductive Client.Step : Client → Client → Prop
  | call {s s' : Client} {op : Op} {p : Option Nat} : s.Allows op → s.exec op = some (p, s') → Step s s'
  | store {s : Client} (mem : Nat → UInt8) : Step s { s with heap := { s.heap with mem } }
  | palloc {s : Client} {usedMap : Bitmap} : usedMap.bitCnt = s.heap.usedMap.bitCnt →
      (∀ g i n, s.heap.layout g = some (i, n) → ∀ j < n,
        usedMap.bits (g + j) = s.heap.usedMap.bits (g + j)) →
      Step s { s with heap := { s.heap with usedMap } }

/-- The allocator after `malloc_init`; nothing is held. -/
def Client.start (usedMap : Bitmap) : Client := ⟨Malloc.start usedMap, fun _ => none⟩

/-! ## Where blocks are -/

section

variable {h h' : Heap} {d : Desc} {a : Arena} {g i k m n p q x : Nat} {l : Option Nat}

/-- A block is in the pages of its arena, after the header. -/
theorem Block.range (hok : Ok h) (hb : Block h p n) : ∃ l k, h.layout (p / 4096) = some (l, k) ∧
    4096 * (p / 4096) + 12 ≤ p ∧ p + n ≤ 4096 * (p / 4096 + k) := by
  have hbytes : arenaBytes.toNat = 12 := rfl
  cases hb with
  | @small i k d hl hd hk hp =>
      obtain ⟨hlo, hhi⟩ := arenaToBlock_fits (g := p / 4096) hd hk
      rw [← hp] at hlo hhi
      exact ⟨_, _, hl, hlo, by omega⟩
  | @big k hl hp =>
      have hpos := (hok.taken _ _ _ hl).1
      exact ⟨_, _, hl, by omega, by omega⟩

/-- The size of a block is determined. -/
theorem Block.inj (hb : Block h p m) (hb' : Block h p n) : m = n := by
  cases hb with
  | small hl hd hk hp =>
      cases hb' with
      | small hl' hd' hk' hp' =>
          cases hl.symm.trans hl'
          obtain rfl := Option.some.inj (hd.symm.trans hd')
          rfl
      | big hl' hp' =>
          cases hl.symm.trans hl'
  | big hl hp =>
      cases hb' with
      | small hl' hd' hk' hp' =>
          cases hl.symm.trans hl'
      | big hl' hp' =>
          cases hl.symm.trans hl'
          rfl

/-- Blocks that are handed out do not overlap, whether they are of one arena or of two. -/
theorem Block.disjoint (hok : Ok h) (hb : Block h p m) (hb' : Block h q n) (hne : p ≠ q) :
    p + m ≤ q ∨ q + n ≤ p := by
  obtain ⟨l, k, hl, hlo, hhi⟩ := hb.range hok
  obtain ⟨l', k', hl', hlo', hhi'⟩ := hb'.range hok
  rcases Nat.lt_trichotomy (p / 4096) (q / 4096) with hlt | heq | hgt
  · have := hok.apart _ _ _ _ _ _ hl hl' hlt
    omega
  · -- two blocks of one arena
    cases hb with
    | @small i c d hsmall hd hc hp =>
        cases hb' with
        | @small i' c' d' hsmall' hd' hc' hq =>
            rw [heq] at hsmall hp
            cases hsmall.symm.trans hsmall'
            obtain rfl : d = d' := Option.some.inj (hd.symm.trans hd')
            have hcc : c ≠ c' := by
              rintro rfl
              exact hne (hp.trans hq.symm)
            unfold arenaToBlock at hp hq
            rcases Nat.lt_or_gt_of_ne hcc with hlt | hgt
            · have hle : (c + 1) * d.blockSize.toNat ≤ c' * d.blockSize.toNat :=
                Nat.mul_le_mul_right _ hlt
              rw [Nat.succ_mul] at hle
              omega
            · have hle : (c' + 1) * d.blockSize.toNat ≤ c * d.blockSize.toNat :=
                Nat.mul_le_mul_right _ hgt
              rw [Nat.succ_mul] at hle
              omega
        | big hbig hq =>
            rw [heq] at hsmall
            cases hsmall.symm.trans hbig
    | big hbig hp =>
        cases hb' with
        | small hsmall hd' hc' hq =>
            rw [heq] at hbig
            cases hbig.symm.trans hsmall
        | big hbig' hq => omega
  · have := hok.apart _ _ _ _ _ _ hl' hl hgt
    omega

/-- A block does not reach into the header of an arena. -/
theorem Block.header (hok : Ok h) (hb : Block h p n) (hg : h.layout g = some (l, k)) :
    p + n ≤ 4096 * g ∨ 4096 * g + 12 ≤ p := by
  obtain ⟨l', k', hl, hlo, hhi⟩ := hb.range hok
  rcases Nat.lt_or_ge (p / 4096) g with hlt | hge
  · have := hok.apart _ _ _ _ _ _ hl hg hlt
    omega
  · omega

/-! ## Counting -/

/-- The blocks of an arena in a list. -/
def inArena (g : Nat) (l : List Nat) : Nat := l.countP (· / 4096 = g)

theorem inArena_cons (b : Nat) (l : List Nat) :
    inArena g (b :: l) = inArena g l + if b / 4096 = g then 1 else 0 := by
  unfold inArena
  rw [List.countP_cons]
  simp only [decide_eq_true_eq]

theorem inArena_eq_zero {l : List Nat} (hno : ∀ b ∈ l, b / 4096 ≠ g) : inArena g l = 0 := by
  unfold inArena
  rw [List.countP_eq_zero]
  exact fun b hb => by simpa using hno b hb

/-- Different blocks of an arena are no more than it has. -/
theorem inArena_le {l bs : List Nat} (hl : l.Nodup) (hsub : ∀ b ∈ l, b / 4096 = g → b ∈ bs) :
    inArena g l ≤ bs.length := by
  unfold inArena
  rw [List.countP_eq_length_filter]
  refine ((hl.filter _).subperm fun b hb => ?_).length_le
  rw [List.mem_filter, decide_eq_true_eq] at hb
  exact hsub b hb.1 hb.2

/-- If they are as many then they are all there. -/
theorem mem_of_inArena {l bs : List Nat} (hl : l.Nodup) (hsub : ∀ b ∈ l, b / 4096 = g → b ∈ bs)
    (hall : bs.length ≤ inArena g l) {b : Nat} (hb : b ∈ bs) : b ∈ l := by
  unfold inArena at hall
  rw [List.countP_eq_length_filter] at hall
  have hsubperm : (l.filter (· / 4096 = g)).Subperm bs := (hl.filter _).subperm fun b hb => by
    rw [List.mem_filter, decide_eq_true_eq] at hb
    exact hsub b hb.1 hb.2
  exact (List.mem_filter.mp ((hsubperm.perm_of_length_le hall).mem_iff.mpr hb)).1

theorem length_le_inArena {l bs : List Nat} (hbs : bs.Nodup) (hpage : ∀ b ∈ bs, b / 4096 = g)
    (hmem : ∀ b ∈ bs, b ∈ l) : bs.length ≤ inArena g l := by
  unfold inArena
  rw [List.countP_eq_length_filter]
  refine (hbs.subperm fun b hb => ?_).length_le
  rw [List.mem_filter, decide_eq_true_eq]
  exact ⟨hmem b hb, hpage b hb⟩

theorem length_arenaBlocks (g : Nat) (d : Desc) : (arenaBlocks g d).length = d.blocksPerArena.toNat := by
  simp [arenaBlocks]

theorem inArena_arenaBlocks (hd : descs[i]? = some d) (g' : Nat) :
    inArena g' (arenaBlocks g d) = if g = g' then d.blocksPerArena.toNat else 0 := by
  have hpage : ∀ b ∈ arenaBlocks g d, b / 4096 = g := by
    intro b hb
    obtain ⟨k, hk, rfl⟩ := mem_arenaBlocks.mp hb
    exact arenaToBlock_page hd hk
  split
  · next heq =>
      unfold inArena
      rw [← length_arenaBlocks g, List.countP_eq_length]
      exact fun b hb => decide_eq_true ((hpage b hb).trans heq)
  · next hne =>
      exact inArena_eq_zero fun b hb heq => hne ((hpage b hb).symm.trans heq)

/-- The free blocks of an arena. -/
theorem Ok.mem_arenaBlocks (hok : Ok h) (hd : descs[i]? = some d) {b : Nat} (hb : b ∈ h.freeList i)
    (hpage : b / 4096 = g) : b ∈ arenaBlocks g d := by
  obtain ⟨d', k, -, hd', hk, hp⟩ := hok.free i b hb
  obtain rfl : d = d' := Option.some.inj (hd.symm.trans hd')
  rw [hpage] at hp
  exact Malloc.mem_arenaBlocks.mpr ⟨k, hk, hp.symm⟩

/-- The counts are right, and no arena is unused. -/
structure Counted (h : Heap) : Prop where
  ok : Ok h
  count : ∀ g a i, h.arenas g = some a → a.desc = some i → a.freeCnt.toNat = inArena g (h.freeList i)
  busy : ∀ g a i, h.arenas g = some a → a.desc = some i →
    ∃ d, descs[i]? = some d ∧ a.freeCnt.toNat < d.blocksPerArena.toNat
  small : ∀ g a, h.arenas g = some a → a.desc = none → 4096 * a.freeCnt.toNat < 2 ^ 32

/-! ## `malloc` -/

/-- A free block is taken; its arena may be new. -/
theorem takeBlock_counted (hok : Ok h) {b : Nat} {rest : List Nat} (hfree : h.freeList i = b :: rest)
    (hd : descs[i]? = some d)
    (hcount : ∀ g a j, h.arenas g = some a → a.desc = some j →
      a.freeCnt.toNat = inArena g (h.freeList j))
    (hbusy : ∀ g a j, g ≠ b / 4096 → h.arenas g = some a → a.desc = some j →
      ∃ d, descs[j]? = some d ∧ a.freeCnt.toNat < d.blocksPerArena.toNat)
    (hsmall : ∀ g a, h.arenas g = some a → a.desc = none → 4096 * a.freeCnt.toNat < 2 ^ 32)
    {r : Option Nat} (htake : takeBlock h i = some (r, h')) :
    Counted h' ∧ h'.layout = h.layout ∧ h'.usedMap = h.usedMap ∧
      ∀ q m, Live h' q m → Live h q m ∨ r = some q := by
  obtain ⟨h₁, htake₁, hok', -⟩ := takeBlock_spec hok hfree hd
  obtain ⟨a, ha, hdesc, heq⟩ := takeBlock_eq hok hfree hd
  cases htake₁.symm.trans htake
  obtain rfl := (Prod.mk.inj (Option.some.inj (htake₁.symm.trans heq))).2
  -- there is a free block, so the count is positive, and it is not more than the arena has
  have hcnt := hcount _ _ _ ha hdesc
  have hle : inArena (b / 4096) (h.freeList i) ≤ d.blocksPerArena.toNat := by
    rw [← length_arenaBlocks (b / 4096)]
    exact inArena_le (hok.nodup i) fun c hc hpage => hok.mem_arenaBlocks hd hc hpage
  rw [hfree, inArena_cons, if_pos rfl] at hcnt
  rw [hfree, inArena_cons, if_pos rfl] at hle
  have hone : (1 : UInt32) ≤ a.freeCnt := by
    rw [UInt32.le_iff_toNat_le, hcnt]
    exact Nat.le_add_left ..
  have hless : (a.freeCnt - 1).toNat = inArena (b / 4096) rest := by
    rw [UInt32.toNat_sub_of_le _ _ hone, hcnt]
    rfl
  have hlayout : Heap.layout { h with
      freeList := Function.update h.freeList i rest
      arenas := Function.update h.arenas (b / 4096) (some { a with freeCnt := a.freeCnt - 1 }) } =
      h.layout := layout_update (c := { a with freeCnt := a.freeCnt - 1 }) ha hdesc hdesc rfl
  refine ⟨⟨hok', fun g c j hc hj => ?_, fun g c j hc hj => ?_, fun g c hc hj => ?_⟩, hlayout, rfl,
    fun q m hq => ?_⟩
  · dsimp only at hc ⊢
    rw [Function.update_apply] at hc
    split at hc
    · next hg =>
        obtain rfl := Option.some.inj hc
        obtain rfl : i = j := Option.some.inj (hdesc.symm.trans hj)
        rw [Function.update_self, hg]
        exact hless
    · next hg =>
        rw [hcount g c j hc hj]
        by_cases hji : j = i
        · subst hji
          rw [Function.update_self, hfree, inArena_cons, if_neg (Ne.symm hg), Nat.add_zero]
        · rw [Function.update_of_ne hji]
  · dsimp only at hc
    rw [Function.update_apply] at hc
    split at hc
    · obtain rfl := Option.some.inj hc
      obtain rfl : i = j := Option.some.inj (hdesc.symm.trans hj)
      refine ⟨d, hd, ?_⟩
      rw [hless]
      omega
    · next hg => exact hbusy g c j hg hc hj
  · dsimp only at hc
    rw [Function.update_apply] at hc
    split at hc
    · obtain rfl := Option.some.inj hc
      cases hdesc.symm.trans hj
    · exact hsmall g c hc hj
  · by_cases hqb : q = b
    · exact .inr (congrArg some hqb.symm)
    · refine .inl ⟨hq.1.layout hlayout.symm, fun j hj => hq.2 j ?_⟩
      dsimp only
      by_cases hji : j = i
      · subst hji
        rw [Function.update_self]
        rw [hfree] at hj
        exact List.mem_of_ne_of_mem hqb hj
      · rw [Function.update_of_ne hji]
        exact hj

/-- The page of a new arena has no arena. -/
theorem Ok.layout_fresh (hok : Ok h) {m : Bitmap} (hget : pallocGetMultiple h.usedMap n = some (g, m)) :
    h.layout g = none := by
  cases hl : h.layout g with
  | none => rfl
  | some r =>
      have hpos := (pallocGetMultiple_some hget).1
      have hpos' := (hok.taken g r.1 r.2 hl).1
      rcases hok.fresh hget hl with hle | hle <;> omega

/-- A new arena gives a block. -/
theorem newArena_counted (hc : Counted h) (hd : descs[i]? = some d) (hempty : h.freeList i = [])
    {h₁ : Heap} (hnew : newArena h i d = some h₁) {r : Option Nat}
    (htake : takeBlock h₁ i = some (r, h')) :
    Counted h' ∧ (∀ q m, Live h' q m → Live h q m ∨ r = some q) ∧
      ∀ g l n, h.layout g = some (l, n) → h'.layout g = some (l, n) := by
  obtain ⟨hok₁, hne, -⟩ := newArena_spec hc.ok hd hempty hnew
  obtain ⟨b, rest, hcons⟩ := List.exists_cons_of_ne_nil hne
  unfold newArena at hnew
  rw [Option.map_eq_some_iff] at hnew
  obtain ⟨⟨g, m⟩, hget, rfl⟩ := hnew
  have hfresh := hc.ok.layout_fresh hget
  have hlayout : Heap.layout { h with
      usedMap := m
      arenas := Function.update h.arenas g (some ⟨some i, d.blocksPerArena⟩)
      freeList := Function.update h.freeList i (h.freeList i ++ arenaBlocks g d) } =
      Function.update h.layout g (some (some i, 1)) := layout_new g ⟨some i, d.blocksPerArena⟩
  have hlist : Function.update h.freeList i (h.freeList i ++ arenaBlocks g d) i = arenaBlocks g d := by
    rw [Function.update_self, hempty, List.nil_append]
  dsimp only at hcons htake hok₁
  have hb : b / 4096 = g := by
    have hmem : b ∈ arenaBlocks g d := by
      rw [← hlist, hcons]
      exact List.mem_cons_self
    obtain ⟨k, hk, rfl⟩ := mem_arenaBlocks.mp hmem
    exact arenaToBlock_page hd hk
  have hcount : ∀ g' a j, Function.update h.arenas g (some ⟨some i, d.blocksPerArena⟩) g' = some a →
      a.desc = some j → a.freeCnt.toNat =
        inArena g' (Function.update h.freeList i (h.freeList i ++ arenaBlocks g d) j) := by
    intro g' a j ha hj
    rw [Function.update_apply] at ha
    split at ha
    · next hg =>
        obtain rfl := Option.some.inj ha
        obtain rfl : i = j := Option.some.inj hj
        rw [hlist, inArena_arenaBlocks hd, if_pos hg.symm]
    · next hg =>
        rw [hc.count g' a j ha hj]
        by_cases hji : j = i
        · subst hji
          rw [hlist, inArena_arenaBlocks hd, if_neg (Ne.symm hg), hempty]
          rfl
        · rw [Function.update_of_ne hji]
  have hbusy : ∀ g' a j, g' ≠ b / 4096 →
      Function.update h.arenas g (some ⟨some i, d.blocksPerArena⟩) g' = some a → a.desc = some j →
      ∃ e, descs[j]? = some e ∧ a.freeCnt.toNat < e.blocksPerArena.toNat := by
    intro g' a j hg' ha hj
    rw [Function.update_of_ne (fun heq => hg' (heq.trans hb.symm))] at ha
    exact hc.busy g' a j ha hj
  have hsmall : ∀ g' a, Function.update h.arenas g (some ⟨some i, d.blocksPerArena⟩) g' = some a →
      a.desc = none → 4096 * a.freeCnt.toNat < 2 ^ 32 := by
    intro g' a ha hj
    rw [Function.update_apply] at ha
    split at ha
    · obtain rfl := Option.some.inj ha
      cases hj
    · exact hc.small g' a ha hj
  obtain ⟨hc', hl', -, hlive⟩ := takeBlock_counted hok₁ hcons hd hcount hbusy hsmall htake
  refine ⟨hc', fun q n hq => (hlive q n hq).imp_left ?_, fun g' l n hl => ?_⟩
  · -- the blocks of the new arena are all free
    rintro ⟨hblock, hnot⟩
    have hpage : q / 4096 ≠ g := by
      intro hpage
      cases hblock with
      | small hl hd' hk hp =>
          rw [hlayout, hpage, Function.update_self] at hl
          cases hl
          obtain rfl : d = _ := Option.some.inj (hd.symm.trans hd')
          refine hnot i ?_
          dsimp only
          rw [hlist]
          rw [hpage] at hp
          exact mem_arenaBlocks.mpr ⟨_, hk, hp.symm⟩
      | big hl hp =>
          rw [hlayout, hpage, Function.update_self] at hl
          cases hl
    refine ⟨?_, fun j hj => hnot j ?_⟩
    · cases hblock with
      | small hl hd' hk hp =>
          rw [hlayout, Function.update_of_ne hpage] at hl
          exact .small hl hd' hk hp
      | big hl hp =>
          rw [hlayout, Function.update_of_ne hpage] at hl
          exact .big hl hp
    · have hji : j ≠ i := by
        rintro rfl
        rw [hempty] at hj
        cases hj
      dsimp only
      rw [Function.update_of_ne hji]
      exact hj
  · rw [hl', hlayout, Function.update_of_ne]
    · exact hl
    · rintro rfl
      cases hfresh.symm.trans hl

theorem pageCnt_small (size : UInt32) : 4096 * (pageCnt size).toNat < 2 ^ 32 := by
  rw [pageCnt_eq]
  omega

/-- The pages of a big block. -/
theorem bigBlock_counted (hc : Counted h) {size : UInt32} {m : Bitmap}
    (hget : pallocGetMultiple h.usedMap (pageCnt size).toNat = some (g, m)) :
    let h' : Heap := { h with
      usedMap := m, arenas := Function.update h.arenas g (some ⟨none, pageCnt size⟩) }
    Counted h' ∧ (∀ q m, Live h' q m → Live h q m ∨ q = 4096 * g + arenaBytes.toNat) ∧
      ∀ g l n, h.layout g = some (l, n) → h'.layout g = some (l, n) := by
  intro h'
  have hfresh := hc.ok.layout_fresh hget
  have hlayout : h'.layout = Function.update h.layout g (some (none, (pageCnt size).toNat)) :=
    layout_new g ⟨none, pageCnt size⟩
  have hok : Ok h' := hc.ok.arena hget rfl (fun i b hb => .inl hb) hc.ok.nodup
  refine ⟨⟨hok, fun g' a i ha hi => ?_, fun g' a i ha hi => ?_, fun g' a ha hi => ?_⟩,
    fun q n hq => ?_, fun g' l n hl => ?_⟩
  · dsimp only [h'] at ha
    rw [Function.update_apply] at ha
    split at ha
    · obtain rfl := Option.some.inj ha
      cases hi
    · exact hc.count g' a i ha hi
  · dsimp only [h'] at ha
    rw [Function.update_apply] at ha
    split at ha
    · obtain rfl := Option.some.inj ha
      cases hi
    · exact hc.busy g' a i ha hi
  · dsimp only [h'] at ha
    rw [Function.update_apply] at ha
    split at ha
    · obtain rfl := Option.some.inj ha
      exact pageCnt_small size
    · exact hc.small g' a ha hi
  · obtain ⟨hblock, hnot⟩ := hq
    by_cases hpage : q / 4096 = g
    · cases hblock with
      | small hl =>
          rw [hlayout, hpage, Function.update_self] at hl
          cases hl
      | big hl hq => exact .inr (by omega)
    · refine .inl ⟨?_, hnot⟩
      cases hblock with
      | small hl hd' hk hq =>
          rw [hlayout, Function.update_of_ne hpage] at hl
          exact .small hl hd' hk hq
      | big hl hq =>
          rw [hlayout, Function.update_of_ne hpage] at hl
          exact .big hl hq
  · rw [hlayout, Function.update_of_ne]
    · exact hl
    · rintro rfl
      cases hfresh.symm.trans hl

/-- `malloc` keeps the counts, and what is in use after it was in use or is the block it returns. -/
theorem malloc_counted (hc : Counted h) {size : UInt32} {r : Option Nat}
    (hm : malloc h size = some (r, h')) :
    Counted h' ∧ (∀ q m, Live h' q m → Live h q m ∨ r = some q) ∧
      ∀ g l n, h.layout g = some (l, n) → h'.layout g = some (l, n) := by
  unfold malloc at hm
  split at hm
  · cases hm
    exact ⟨hc, fun _ _ hq => .inl hq, fun _ _ _ hl => hl⟩
  · split at hm
    · split at hm
      · cases hm
        exact ⟨hc, fun _ _ hq => .inl hq, fun _ _ _ hl => hl⟩
      · next hget =>
          cases hm
          obtain ⟨hc', hlive, hkeep⟩ := bigBlock_counted hc hget
          exact ⟨hc', fun q m hq => (hlive q m hq).imp_right fun heq => congrArg some heq.symm, hkeep⟩
    · next i hfind =>
        rw [Option.bind_eq_bind, Option.bind_eq_some_iff] at hm
        obtain ⟨d, hd, hm⟩ := hm
        split at hm
        · next hempty =>
            split at hm
            · cases hm
              exact ⟨hc, fun _ _ hq => .inl hq, fun _ _ _ hl => hl⟩
            · next h₁ hnew => exact newArena_counted hc hd hempty hnew hm
        · next hne =>
            obtain ⟨b, rest, hcons⟩ := List.exists_cons_of_ne_nil hne
            obtain ⟨hc', hl', -, hlive⟩ := takeBlock_counted hc.ok hcons hd hc.count
              (fun g a j _ => hc.busy g a j) hc.small hm
            exact ⟨hc', hlive, fun g l n hl => by rw [hl', hl]⟩

/-! ## `free` -/

/-- Blocks that are all in the list can be taken out of it, one after the other. -/
theorem removeBlocks_all {bs l : List Nat} (hbs : bs.Nodup) (hall : ∀ b ∈ bs, b ∈ l) :
    ∃ l', removeBlocks l bs = some l' := by
  induction bs generalizing l with
  | nil => exact ⟨l, rfl⟩
  | cons b bs ih =>
      rw [List.nodup_cons] at hbs
      rw [removeBlocks, if_pos (hall b List.mem_cons_self)]
      refine ih hbs.2 fun c hc => (List.mem_erase_of_ne ?_).mpr (hall c (List.mem_cons_of_mem b hc))
      rintro rfl
      exact hbs.1 hc

theorem inArena_congr {l l' : List Nat} (hl : l.Nodup) (hl' : l'.Nodup)
    (hmem : ∀ b, b / 4096 = g → (b ∈ l ↔ b ∈ l')) : inArena g l = inArena g l' := by
  unfold inArena
  rw [List.countP_eq_length_filter, List.countP_eq_length_filter]
  refine ((List.perm_ext_iff_of_nodup (hl.filter _) (hl'.filter _)).mpr fun b => ?_).length_eq
  rw [List.mem_filter, List.mem_filter, decide_eq_true_eq]
  exact and_congr_left fun hpage => hmem b hpage

/-- What `free` does: the block is no longer in use, what is in the other ones stays, and the pages
of an arena that is gone are free. -/
structure Freed (h : Heap) (p : Nat) (h' : Heap) : Prop where
  counted : Counted h'
  live : ∀ q m, Live h' q m ↔ Live h q m ∧ q ≠ p
  mem : ∀ q m, Live h q m → q ≠ p → ∀ x, q ≤ x → x < q + m → h'.mem x = h.mem x
  released : ∀ g l n, h.layout g = some (l, n) → h'.layout g = none →
    ∀ j < n, h'.usedMap.bits (g + j) = false

/-- The pages of an arena can be given back. -/
theorem Ok.pallocFree_eq (hok : Ok h) (hl : h.layout g = some (l, n)) (F : Nat → List Nat)
    (mem : Nat → UInt8) : pallocFreeMultiple { h with freeList := F, mem } g n = some { h with
      usedMap := bitmapSetMultiple h.usedMap g n false
      arenas := Function.update h.arenas g none
      freeList := F
      mem := memset mem (4096 * g) (4096 * n) 0xcc } := by
  obtain ⟨hpos, htaken⟩ := hok.taken _ _ _ hl
  unfold pallocFreeMultiple
  rw [if_neg (Nat.ne_of_gt hpos), if_pos (bitmapAll_iff.mpr fun j hj => (htaken j hj).2)]

/-- The last block of an arena is freed. -/
theorem Counted.release (hc : Counted h) (hl : h.layout g = some (l, n)) (hp : p / 4096 = g)
    (hlast : ∀ q m, Live h q m → q / 4096 = g → q = p) (hok : Ok h')
    (hF : ∀ i b, b ∈ h'.freeList i ↔ b ∈ h.freeList i ∧ b / 4096 ≠ g)
    (hmap : h'.usedMap = bitmapSetMultiple h.usedMap g n false)
    (harenas : h'.arenas = Function.update h.arenas g none)
    (hmem : ∀ x, x < 4096 * g ∨ 4096 * (g + n) ≤ x → h'.mem x = h.mem x) : Freed h p h' := by
  have hlayout : h'.layout = Function.update h.layout g none := by
    funext x
    unfold Heap.layout
    rw [harenas]
    by_cases hx : x = g
    · subst hx
      rw [Function.update_self, Function.update_self]
      rfl
    · rw [Function.update_of_ne hx, Function.update_of_ne hx]
  have hblock : ∀ q m, q / 4096 ≠ g → (Block h' q m ↔ Block h q m) := by
    intro q m hpage
    have hsame : h'.layout (q / 4096) = h.layout (q / 4096) := by
      rw [hlayout, Function.update_of_ne hpage]
    constructor
    · rintro (⟨hb, hd, hk, hq⟩ | ⟨hb, hq⟩)
      · exact .small (hsame ▸ hb) hd hk hq
      · exact .big (hsame ▸ hb) hq
    · rintro (⟨hb, hd, hk, hq⟩ | ⟨hb, hq⟩)
      · exact .small (hsame ▸ hb) hd hk hq
      · exact .big (hsame ▸ hb) hq
  have hsame : ∀ g' a, h'.arenas g' = some a → g' ≠ g ∧ h.arenas g' = some a := by
    intro g' a ha
    rw [harenas, Function.update_apply] at ha
    split at ha
    · cases ha
    · next hne => exact ⟨hne, ha⟩
  refine ⟨⟨hok, fun g' a i ha hi => ?_, fun g' a i ha => ?_, fun g' a ha => ?_⟩, fun q m => ?_,
    fun q m hq hne x hlo hhi => ?_, fun g' l' n' hl' hgone j hj => ?_⟩
  · obtain ⟨hne, ha⟩ := hsame g' a ha
    rw [hc.count g' a i ha hi]
    refine inArena_congr (hc.ok.nodup i) (hok.nodup i) fun b hb => ?_
    rw [hF, hb]
    exact (and_iff_left hne).symm
  · exact hc.busy g' a i (hsame g' a ha).2
  · exact hc.small g' a (hsame g' a ha).2
  · by_cases hpage : q / 4096 = g
    · refine iff_of_false (fun hq => ?_) fun hq => hq.2 (hlast q m hq.1 hpage)
      obtain ⟨_, _, hl', -⟩ := hq.1.range hok
      rw [hlayout, hpage, Function.update_self] at hl'
      cases hl'
    · have hne : q ≠ p := by
        rintro rfl
        exact hpage hp
      rw [and_iff_left hne]
      refine and_congr (hblock q m hpage) (forall_congr' fun i => not_congr ?_)
      rw [hF, and_iff_left hpage]
  · have hpage : q / 4096 ≠ g := fun hpage => hne (hlast q m hq hpage)
    obtain ⟨l', n', hl', hlo', hhi'⟩ := hq.1.range hc.ok
    refine hmem x ?_
    rcases Nat.lt_or_gt_of_ne hpage with hlt | hgt
    · have := hc.ok.apart _ _ _ _ _ _ hl' hl hlt
      omega
    · have := hc.ok.apart _ _ _ _ _ _ hl hl' hgt
      omega
  · rw [hlayout, Function.update_apply] at hgone
    split at hgone
    · next hg =>
        subst hg
        cases hl.symm.trans hl'
        rw [hmap, bitmapSetMultiple_bits, if_pos ⟨Nat.le_add_right .., Nat.add_lt_add_left hj _⟩]
    · cases hgone.symm.trans hl'

/-- A block is freed and others of its arena are in use. -/
theorem Counted.keep (hc : Counted h) (ha : h.arenas (p / 4096) = some a) (hdesc : a.desc = some i)
    (hd : descs[i]? = some d) (hlive : Live h p d.blockSize.toNat)
    (hfew : (a.freeCnt + 1).toNat = a.freeCnt.toNat + 1)
    (hless : a.freeCnt.toNat + 1 < d.blocksPerArena.toNat)
    (hh' : h' = { h with
      freeList := Function.update h.freeList i (p :: h.freeList i)
      mem := memset h.mem p d.blockSize.toNat 0xcc
      arenas := Function.update h.arenas (p / 4096) (some { a with freeCnt := a.freeCnt + 1 }) })
    (hok : Ok h') : Freed h p h' := by
  have hlayout : h'.layout = h.layout := by
    subst hh'
    exact layout_update (c := { a with freeCnt := a.freeCnt + 1 }) ha hdesc hdesc rfl
  subst hh'
  refine ⟨⟨hok, fun g c j hcg hj => ?_, fun g c j hcg hj => ?_, fun g c hcg hj => ?_⟩, fun q m => ?_,
    fun q m hq hne x hlo hhi => ?_, fun g l n hl hgone => ?_⟩
  · dsimp only at hcg ⊢
    rw [Function.update_apply] at hcg
    split at hcg
    · next hg =>
        obtain rfl := Option.some.inj hcg
        obtain rfl : i = j := Option.some.inj (hdesc.symm.trans hj)
        rw [Function.update_self, inArena_cons, if_pos hg.symm, hfew, hg, hc.count _ a i ha hdesc]
    · next hg =>
        rw [hc.count g c j hcg hj]
        by_cases hji : j = i
        · subst hji
          rw [Function.update_self, inArena_cons, if_neg (Ne.symm hg), Nat.add_zero]
        · rw [Function.update_of_ne hji]
  · dsimp only at hcg
    rw [Function.update_apply] at hcg
    split at hcg
    · obtain rfl := Option.some.inj hcg
      obtain rfl : i = j := Option.some.inj (hdesc.symm.trans hj)
      refine ⟨d, hd, ?_⟩
      rw [hfew]
      exact hless
    · exact hc.busy g c j hcg hj
  · dsimp only at hcg
    rw [Function.update_apply] at hcg
    split at hcg
    · obtain rfl := Option.some.inj hcg
      cases hdesc.symm.trans hj
    · exact hc.small g c hcg hj
  · have hfree : ∀ j, q ∈ Function.update h.freeList i (p :: h.freeList i) j ↔
        q ∈ h.freeList j ∨ j = i ∧ q = p := by
      intro j
      by_cases hji : j = i
      · subst hji
        rw [Function.update_self, List.mem_cons]
        tauto
      · rw [Function.update_of_ne hji]
        tauto
    constructor
    · rintro ⟨hb, hnot⟩
      refine ⟨⟨hb.layout hlayout.symm, fun j hj => hnot j ((hfree j).mpr (.inl hj))⟩, ?_⟩
      rintro rfl
      exact hnot i ((hfree i).mpr (.inr ⟨rfl, rfl⟩))
    · rintro ⟨⟨hb, hnot⟩, hne⟩
      refine ⟨hb.layout hlayout, fun j hj => ?_⟩
      rcases (hfree j).mp hj with hj | ⟨-, hj⟩
      · exact hnot j hj
      · exact hne hj
  · have hapart := hq.1.disjoint hc.ok hlive.1 hne
    dsimp only [memset]
    exact if_neg (by omega)
  · rw [hlayout] at hgone
    cases hgone.symm.trans hl

/-- `free` never fails on a block in use. -/
theorem free_spec (hc : Counted h) (hlive : Live h p n) :
    ∃ h', Malloc.free h p = some h' ∧ Freed h p h' := by
  obtain ⟨hb, hnot⟩ := hlive
  cases hb with
  | @small i k d hl hd hk hp =>
      have hlive : Live h p d.blockSize.toNat := ⟨.small hl hd hk hp, hnot⟩
      obtain ⟨a, ha, hdesc, -⟩ := layout_some hl
      have hcons : (p :: h.freeList i).Nodup := List.nodup_cons.mpr ⟨hnot i, hc.ok.nodup i⟩
      have hpmem : p ∈ arenaBlocks (p / 4096) d := mem_arenaBlocks.mpr ⟨k, hk, hp.symm⟩
      have hsub : ∀ b ∈ p :: h.freeList i, b / 4096 = p / 4096 → b ∈ arenaBlocks (p / 4096) d := by
        intro b hb hpage
        rcases List.mem_cons.mp hb with rfl | hb
        · exact hpmem
        · exact hc.ok.mem_arenaBlocks hd hb hpage
      -- the count after, which is that of the longer list
      obtain ⟨d', hd', hbusy⟩ := hc.busy _ a i ha hdesc
      obtain rfl : d = d' := Option.some.inj (hd.symm.trans hd')
      have hfew : (a.freeCnt + 1).toNat = a.freeCnt.toNat + 1 := by
        have hlt := d.blocksPerArena.toNat_lt
        rw [UInt32.toNat_add]
        exact Nat.mod_eq_of_lt (by change _ + 1 < 2 ^ 32; omega)
      have hcnt : inArena (p / 4096) (p :: h.freeList i) = (a.freeCnt + 1).toNat := by
        rw [inArena_cons, if_pos rfl, hfew, hc.count _ a i ha hdesc]
      suffices hsuff : ∃ h', Malloc.free h p = some h' ∧ (Ok h' → Freed h p h') by
        obtain ⟨h', hfree, hfreed⟩ := hsuff
        exact ⟨h', hfree, hfreed (hc.ok.given hlive hfree)⟩
      unfold Malloc.free
      rw [blockToArena_small ha hdesc hd hp]
      simp only [Option.bind_eq_bind, Option.bind_some, hdesc, hd]
      by_cases hfull : d.blocksPerArena ≤ a.freeCnt + 1
      · -- the arena is empty, so its blocks are all in the list
        have hge := UInt32.le_iff_toNat_le.mp hfull
        have heq : a.freeCnt + 1 = d.blocksPerArena := by
          rw [← UInt32.toNat_inj]
          omega
        have hall : ∀ b ∈ arenaBlocks (p / 4096) d, b ∈ p :: h.freeList i := fun b hb =>
          mem_of_inArena hcons hsub (by rw [hcnt, length_arenaBlocks]; exact hge) hb
        obtain ⟨l', hrem⟩ := removeBlocks_all (nodup_arenaBlocks hd) hall
        obtain ⟨-, hmem⟩ := removeBlocks_some hrem hcons
        rw [if_pos hfull, if_pos heq, hrem]
        simp only [Option.bind_some]
        refine ⟨_, hc.ok.pallocFree_eq hl .., fun hok => hc.release hl rfl (fun q m hq hpage => ?_) hok
          (fun j b => ?_) rfl rfl fun x hx => ?_⟩
        · by_contra hne
          cases hq.1 with
          | small hl' hd' hk' hq' =>
              rw [hpage, hl] at hl'
              cases hl'
              obtain rfl : d = _ := Option.some.inj (hd.symm.trans hd')
              rw [hpage] at hq'
              exact hq.2 i (List.mem_of_ne_of_mem hne (hall q (mem_arenaBlocks.mpr ⟨_, hk', hq'.symm⟩)))
          | big hl' =>
              rw [hpage, hl] at hl'
              cases hl'
        · dsimp only
          by_cases hji : j = i
          · subst hji
            rw [Function.update_self, hmem, List.mem_cons]
            constructor
            · rintro ⟨hb, hnb⟩
              have hpage : b / 4096 ≠ p / 4096 := fun hpage => hnb (hsub b (List.mem_cons.mpr hb) hpage)
              refine ⟨hb.resolve_left ?_, hpage⟩
              rintro rfl
              exact hpage rfl
            · rintro ⟨hb, hpage⟩
              refine ⟨.inr hb, fun hb' => hpage ?_⟩
              obtain ⟨k', hk', rfl⟩ := mem_arenaBlocks.mp hb'
              exact arenaToBlock_page hd hk'
          · rw [Function.update_of_ne hji]
            refine (and_iff_left_of_imp fun hb hpage => hji ?_).symm
            obtain ⟨_, _, hl', -⟩ := hc.ok.free j b hb
            rw [hpage, hl] at hl'
            exact (Option.some.inj (congrArg Prod.fst (Option.some.inj hl'))).symm
        · obtain ⟨hlo, hhi⟩ := arenaToBlock_fits (g := p / 4096) hd hk
          rw [← hp] at hlo hhi
          dsimp only [memset]
          rw [if_neg (by omega), if_neg (by omega)]
      · rw [if_neg hfull]
        have hless : (a.freeCnt + 1).toNat < d.blocksPerArena.toNat := by
          rw [UInt32.le_iff_toNat_le] at hfull
          omega
        exact ⟨_, rfl, hc.keep ha hdesc hd hlive hfew (hfew ▸ hless) (by rw [hdesc])⟩
  | @big m hl hp =>
      have hlive : Live h p (4096 * m - arenaBytes.toNat) := ⟨.big hl hp, hnot⟩
      obtain ⟨a, ha, hdesc, hpages⟩ := layout_some hl
      have hcnt : a.freeCnt.toNat = m := by
        rw [← hpages, Arena.pages, hdesc]
      have hfree : Malloc.free h p = pallocFreeMultiple h (p / 4096) m := by
        unfold Malloc.free
        rw [blockToArena_big ha hdesc hp]
        simp only [Option.bind_eq_bind, Option.bind_some, hdesc, hcnt]
      have hgive := hc.ok.pallocFree_eq hl h.freeList h.mem
      refine ⟨_, hfree.trans hgive, hc.release hl rfl (fun q n hq hpage => ?_)
        (hc.ok.given hlive (hfree.trans hgive)) (fun i b => ?_) rfl rfl fun x hx => ?_⟩
      · cases hq.1 with
        | small hl' =>
            rw [hpage, hl] at hl'
            cases hl'
        | big hl' hq' => omega
      · refine (and_iff_left_of_imp fun hb hpage => ?_).symm
        obtain ⟨_, _, hl', -⟩ := hc.ok.free i b hb
        rw [hpage, hl] at hl'
        cases hl'
      · dsimp only [memset]
        exact if_neg (by omega)

/-! ## Between calls -/

/-- The invariant of runs: what is in use is what is held. -/
structure Client.Inv (s : Client) : Prop where
  counted : Counted s.heap
  held : ∀ p n, s.held p = some n → ∃ m, Live s.heap p m ∧ n ≤ m
  all : ∀ p m, Live s.heap p m → (s.held p).isSome = true

/-- The books between calls. -/
structure Client.Accounted (s : Client) : Prop where
  /-- `free_cnt` is the number of blocks of the arena on the list of its descriptor -/
  count : ∀ g a i, s.heap.arenas g = some a → a.desc = some i →
    a.freeCnt.toNat = inArena g (s.heap.freeList i)
  notFree : ∀ p n i, s.held p = some n → p ∉ s.heap.freeList i
  large : ∀ p n, s.held p = some n → ∃ m, Block s.heap p m ∧ n ≤ m
  disjoint : ∀ p q m n, (s.held p).isSome = true → (s.held q).isSome = true → p ≠ q →
    Block s.heap p m → Block s.heap q n → p + m ≤ q ∨ q + n ≤ p
  header : ∀ p n g, (s.held p).isSome = true → Block s.heap p n → (s.heap.arenas g).isSome = true →
    p + n ≤ 4096 * g ∨ 4096 * g + arenaBytes.toNat ≤ p
  arena : ∀ g, (s.heap.arenas g).isSome = true ↔ ∃ p, (s.held p).isSome = true ∧ p / 4096 = g
  taken : ∀ g l n, s.heap.layout g = some (l, n) → ∀ j < n, s.heap.usedMap.bits (g + j) = true

/-- What a call does that returns `r`. -/
structure Client.Called (s : Client) (op : Op) (r : Option Nat) (s' : Client) : Prop where
  /-- the pages of an arena that is gone are in the pool again -/
  released : ∀ g l n, s.heap.layout g = some (l, n) → (s'.heap.arenas g).isSome = false →
    ∀ j < n, s'.heap.usedMap.bits (g + j) = false
  moved : ∀ p newSize q n, op = .realloc (some p) newSize → r = some q → Block s.heap p n →
    ∀ x < min n newSize.toNat, s'.heap.mem (q + x) = s.heap.mem (p + x)
  failed : ∀ oldBlock newSize, op = .realloc oldBlock newSize → newSize ≠ 0 → r = none → s' = s

theorem layout_isSome : (h.layout g).isSome = (h.arenas g).isSome := by
  unfold Heap.layout
  exact Option.isSome_map ..

/-- An arena has a block in use. -/
theorem Counted.exists_live (hc : Counted h) (ha : h.arenas g = some a) :
    ∃ p m, Live h p m ∧ p / 4096 = g := by
  have hl := layout_eq ha
  cases hdesc : a.desc with
  | none =>
      have hbytes : arenaBytes.toNat = 12 := rfl
      have hpage : (4096 * g + 12) / 4096 = g := by omega
      rw [hdesc] at hl
      refine ⟨4096 * g + 12, _, ⟨.big (hpage ▸ hl) (by omega), fun i hi => ?_⟩, hpage⟩
      obtain ⟨_, _, hl', -⟩ := hc.ok.free i _ hi
      rw [hpage, hl] at hl'
      cases hl'
  | some i =>
      have hl' : h.layout g = some (some i, 1) := by
        rw [hl, Arena.pages, hdesc]
      obtain ⟨d, hd, hless⟩ := hc.busy g a i ha hdesc
      rw [hc.count g a i ha hdesc, ← length_arenaBlocks g] at hless
      -- the list does not hold all blocks of the arena
      obtain ⟨b, hb, hnot⟩ : ∃ b ∈ arenaBlocks g d, b ∉ h.freeList i := by
        by_contra hall
        refine absurd hless (Nat.not_lt.mpr ?_)
        refine length_le_inArena (nodup_arenaBlocks hd) (fun b hb => ?_) fun b hb => ?_
        · obtain ⟨k, hk, rfl⟩ := mem_arenaBlocks.mp hb
          exact arenaToBlock_page hd hk
        · by_contra hno
          exact hall ⟨b, hb, hno⟩
      obtain ⟨k, hk, rfl⟩ := mem_arenaBlocks.mp hb
      have hpage := arenaToBlock_page (g := g) hd hk
      refine ⟨_, _, ⟨.small (hpage.symm ▸ hl') hd hk (by rw [hpage]), fun j hj => ?_⟩, hpage⟩
      obtain ⟨_, _, hlj, -⟩ := hc.ok.free j _ hj
      rw [hpage, hl'] at hlj
      obtain rfl : i = j := Option.some.inj (congrArg Prod.fst (Option.some.inj hlj))
      exact hnot hj

theorem live_mem {mem : Nat → UInt8} : Live { h with mem } p n ↔ Live h p n :=
  ⟨fun hp => ⟨hp.1.layout rfl, hp.2⟩, fun hp => ⟨hp.1.layout rfl, hp.2⟩⟩

/-- The bytes of memory do not matter. -/
theorem Counted.mem (hc : Counted h) (mem : Nat → UInt8) : Counted { h with mem } :=
  ⟨hc.ok.mem mem, hc.count, hc.busy, hc.small⟩

/-- `block_size` of a block. -/
theorem Counted.size (hc : Counted h) (hb : Block h p n) :
    ∃ r, blockSize h p = some r ∧ r.toNat = n := by
  have hbytes : arenaBytes.toNat = 12 := rfl
  cases hb with
  | small hl hd hk hp =>
      obtain ⟨hpos, -, hfits⟩ := desc_fits hd
      exact Block.size (.small hl hd hk hp) (UInt32.toNat_lt _) (by omega)
  | big hl hp =>
      have hpos := (hc.ok.taken _ _ _ hl).1
      obtain ⟨a, ha, hdesc, hpages⟩ := layout_some hl
      have hsmall := hc.small _ a ha hdesc
      rw [Arena.pages, hdesc] at hpages
      dsimp only at hpages
      exact Block.size (.big hl hp) (by omega) (by omega)

/-- What `malloc` does, for a size that does not wrap. -/
structure Gives (h : Heap) (size : UInt32) (r : Option Nat) (h' : Heap) : Prop where
  counted : Counted h'
  layout : ∀ g l n, h.layout g = some (l, n) → h'.layout g = some (l, n)
  mem : h'.mem = h.mem
  keep : ∀ q m, Live h q m → Live h' q m ∧ r ≠ some q
  live : ∀ q m, Live h' q m → Live h q m ∨ r = some q
  null : r = none → h' = h
  block : ∀ p, r = some p → ∃ n, Live h' p n ∧ size.toNat ≤ n

/-- `malloc` of a size below 2^31 gives a block that was not handed out, or none. -/
theorem malloc_gives (hc : Counted h) {size : UInt32} (hsize : size.toNat < 2 ^ 31) :
    ∃ r h', malloc h size = some (r, h') ∧ Gives h size r h' := by
  obtain ⟨⟨r, h'⟩, hm, hspec⟩ := malloc_spec hc.ok size
  obtain ⟨hc', hlive, hlayout⟩ := malloc_counted hc hm
  refine ⟨r, h', hm, ?_⟩
  cases hspec with
  | null hno => exact ⟨hc', hlayout, rfl, fun q m hq => ⟨hq, nofun⟩, hlive, fun _ => rfl, nofun⟩
  | block havail hok' hblock hkeep hmem =>
      refine ⟨hc', hlayout, hmem, fun q m hq => ?_, hlive, nofun, fun p hp => ?_⟩
      · obtain ⟨hq', hne⟩ := hkeep q m hq
        exact ⟨hq', fun heq => hne (Option.some.inj heq).symm⟩
      · obtain rfl := Option.some.inj hp
        exact ⟨_, hblock, (granted_iff havail).1.mpr (by omega)⟩

namespace Client

variable {s s' : Client} {op : Op} {r : Option Nat}

/-- The books are in order when such a block is entered. -/
theorem Inv.gives (hinv : s.Inv) {size : UInt32} (hg : Gives s.heap size r h') :
    Inv ⟨h', mark s.held r (some size.toNat)⟩ := by
  refine ⟨hg.counted, fun p n hp => ?_, fun p m hp => ?_⟩
  · cases r with
    | none =>
        obtain ⟨m, hlive, hle⟩ := hinv.held p n hp
        exact ⟨m, (hg.keep p m hlive).1, hle⟩
    | some q =>
        dsimp only [mark] at hp
        rw [Function.update_apply] at hp
        split at hp
        · next hpq =>
            subst hpq
            obtain rfl := Option.some.inj hp
            exact hg.block p rfl
        · obtain ⟨m, hlive, hle⟩ := hinv.held p n hp
          exact ⟨m, (hg.keep p m hlive).1, hle⟩
  · rcases hg.live p m hp with hold | rfl
    · have hne := (hg.keep p m hold).2
      cases r with
      | none => exact hinv.all p m hold
      | some q =>
          dsimp only [mark]
          rw [Function.update_of_ne (fun heq => hne (congrArg some heq.symm))]
          exact hinv.all p m hold
    · dsimp only [mark]
      rw [Function.update_self]
      rfl

theorem Inv.freed (hinv : s.Inv) (hf : Freed s.heap p h') : Inv ⟨h', mark s.held (some p) none⟩ := by
  refine ⟨hf.counted, fun q n hq => ?_, fun q m hq => ?_⟩
  · dsimp only [mark] at hq
    rw [Function.update_apply] at hq
    split at hq
    · cases hq
    · next hne =>
        obtain ⟨m, hlive, hle⟩ := hinv.held q n hq
        exact ⟨m, (hf.live q m).mpr ⟨hlive, hne⟩, hle⟩
  · obtain ⟨hold, hne⟩ := (hf.live q m).mp hq
    dsimp only [mark]
    rw [Function.update_of_ne hne]
    exact hinv.all q m hold

theorem Inv.mem (hinv : s.Inv) (mem : Nat → UInt8) : Inv { s with heap := { s.heap with mem } } := by
  refine ⟨hinv.counted.mem mem, fun p n hp => ?_, fun p m hp => hinv.all p m (live_mem.mp hp)⟩
  obtain ⟨m, hlive, hle⟩ := hinv.held p n hp
  exact ⟨m, live_mem.mpr hlive, hle⟩

/-- A block that is held is in use. -/
theorem Inv.live (hinv : s.Inv) (hp : (s.held p).isSome = true) : ∃ m, Live s.heap p m := by
  obtain ⟨n, hn⟩ := Option.isSome_iff_exists.mp hp
  obtain ⟨m, hlive, -⟩ := hinv.held p n hn
  exact ⟨m, hlive⟩

/-- The books are in order. -/
theorem Inv.accounted (hinv : s.Inv) : s.Accounted where
  count := hinv.counted.count
  notFree p n i hp := by
    obtain ⟨m, hlive, -⟩ := hinv.held p n hp
    exact hlive.2 i
  large p n hp := by
    obtain ⟨m, hlive, hle⟩ := hinv.held p n hp
    exact ⟨m, hlive.1, hle⟩
  disjoint p q m n _ _ hne hb hb' := hb.disjoint hinv.counted.ok hb' hne
  header p n g _ hb hg := by
    rw [← layout_isSome] at hg
    obtain ⟨⟨l, k⟩, hl⟩ := Option.isSome_iff_exists.mp hg
    exact hb.header hinv.counted.ok hl
  arena g := by
    constructor
    · intro hg
      obtain ⟨a, ha⟩ := Option.isSome_iff_exists.mp hg
      obtain ⟨p, m, hlive, hpage⟩ := hinv.counted.exists_live ha
      exact ⟨p, hinv.all p m hlive, hpage⟩
    · rintro ⟨p, hp, rfl⟩
      obtain ⟨m, hlive⟩ := hinv.live hp
      obtain ⟨_, _, hl, -⟩ := hlive.1.range hinv.counted.ok
      rw [← layout_isSome, hl]
      rfl
  taken g l n hl j hj := ((hinv.counted.ok.taken g l n hl).2 j hj).2

/-- An arena that is still there was not given back. -/
theorem not_released {P : Prop} {l : Option Nat} (hl : h.layout g = some (l, n))
    (hgone : (h.arenas g).isSome = false) : P := by
  rw [← layout_isSome, hl] at hgone
  cases hgone

theorem exec_malloc (hinv : s.Inv) {size : UInt32} (hsize : size.toNat < 2 ^ 31) :
    ∃ r s', s.exec (.malloc size) = some (r, s') ∧ s'.Inv ∧ s.Called (.malloc size) r s' := by
  obtain ⟨r, h', hm, hg⟩ := malloc_gives hinv.counted hsize
  refine ⟨r, _, by rw [exec, hm]; rfl, hinv.gives hg, fun g l n hl hgone => ?_, nofun, nofun⟩
  exact not_released (hg.layout g l n hl) hgone

/-- `calloc` is `malloc`, and then zeros in that block only. -/
theorem exec_calloc (hinv : s.Inv) {a b : UInt32} (hsize : a.toNat * b.toNat < 2 ^ 31) :
    ∃ r s', s.exec (.calloc a b) = some (r, s') ∧ s'.Inv ∧ s.Called (.calloc a b) r s' := by
  have hmul : (a * b).toNat = a.toNat * b.toNat := by
    rw [UInt32.toNat_mul]
    exact Nat.mod_eq_of_lt (by omega)
  rw [← hmul] at hsize
  unfold exec calloc
  dsimp only
  by_cases hreject : a * b < a ∨ a * b < b
  · rw [if_pos hreject]
    exact ⟨_, _, rfl, hinv, fun g l n hl hgone => not_released hl hgone, nofun, nofun⟩
  · obtain ⟨r, h', hm, hg⟩ := malloc_gives hinv.counted hsize
    have hinv' := hinv.gives hg
    rw [if_neg hreject, hm]
    simp only [Option.bind_eq_bind, Option.bind_some]
    cases r with
    | none =>
        exact ⟨_, _, rfl, hinv', fun g l n hl hgone => not_released (hg.layout g l n hl) hgone, nofun,
          nofun⟩
    | some p =>
        obtain ⟨n, hlive, hle⟩ := hg.block p rfl
        obtain ⟨room, hroom, hroomval⟩ := hg.counted.size hlive.1
        dsimp only
        rw [hroom]
        simp only [Option.bind_some]
        rw [if_pos (by rw [UInt32.le_iff_toNat_le, hroomval]; exact hle), ← hmul]
        exact ⟨_, _, rfl, hinv'.mem _, fun g l n hl hgone => not_released (hg.layout g l n hl) hgone,
          nofun, nofun⟩

/-- A call of `free` with a block that the caller has, or with none, returns and keeps the accounts. -/
theorem exec_free (hinv : s.Inv) {p : Option Nat} (hp : s.Holds p) :
    ∃ r s', s.exec (.free p) = some (r, s') ∧ s'.Inv ∧ s.Called (.free p) r s' := by
  cases p with
  | none => exact ⟨_, _, rfl, hinv, fun g l n hl hgone => not_released hl hgone, nofun, nofun⟩
  | some p =>
      obtain ⟨m, hlive⟩ := hinv.live (hp p rfl)
      obtain ⟨h', hfree, hf⟩ := free_spec hinv.counted hlive
      refine ⟨_, _, by rw [exec, hfree]; rfl, hinv.freed hf, fun g l n hl hgone => ?_, nofun, nofun⟩
      rw [← layout_isSome, Option.isSome_eq_false_iff, Option.isNone_iff_eq_none] at hgone
      exact hf.released g l n hl hgone

/-- `realloc` copies what fits into a new block and gives back the old one, or leaves that alone when
there is no new one. -/
theorem exec_realloc (hinv : s.Inv) {oldBlock : Option Nat} {newSize : UInt32}
    (hsize : newSize.toNat < 2 ^ 31) (hold : s.Holds oldBlock) :
    ∃ r s', s.exec (.realloc oldBlock newSize) = some (r, s') ∧ s'.Inv ∧
      s.Called (.realloc oldBlock newSize) r s' := by
  unfold exec realloc
  dsimp only
  by_cases hzero : newSize = 0
  · -- as `free`
    rw [if_pos hzero]
    cases oldBlock with
    | none =>
        refine ⟨_, _, rfl, ?_, fun g l n hl hgone => not_released hl hgone, nofun, fun _ _ heq hne => ?_⟩
        · dsimp only [mark]
          rw [ite_self]
          exact hinv
        · cases heq
          exact absurd hzero hne
    | some p =>
        obtain ⟨m, hlive⟩ := hinv.live (hold p rfl)
        obtain ⟨h', hfree, hf⟩ := free_spec hinv.counted hlive
        simp only [hfree, Option.bind_eq_bind, Option.bind_some]
        refine ⟨_, _, rfl, ?_, fun g l n hl hgone => ?_, nofun, fun _ _ heq hne => ?_⟩
        · rw [if_pos (.inl hzero)]
          exact hinv.freed hf
        · rw [← layout_isSome, Option.isSome_eq_false_iff, Option.isNone_iff_eq_none] at hgone
          exact hf.released g l n hl hgone
        · cases heq
          exact absurd hzero hne
  · rw [if_neg hzero]
    obtain ⟨r, h₁, hm, hg⟩ := malloc_gives hinv.counted hsize
    have hinv₁ := hinv.gives hg
    rw [hm]
    simp only [Option.bind_eq_bind, Option.bind_some]
    cases r with
    | none =>
        obtain rfl := hg.null rfl
        have hsame : (if newSize = 0 ∨ (none : Option Nat) ≠ none then
            mark (mark s.held oldBlock none) none (some newSize.toNat) else s.held) = s.held := by
          rw [if_neg (by simp [hzero])]
        cases oldBlock with
        | none =>
            refine ⟨_, _, rfl, ?_, fun g l n hl hgone => not_released hl hgone, nofun,
              fun _ _ _ _ _ => ?_⟩
            · rw [hsame]
              exact hinv
            · rw [hsame]
        | some p =>
            refine ⟨_, _, rfl, ?_, fun g l n hl hgone => not_released hl hgone, nofun,
              fun _ _ _ _ _ => ?_⟩
            · rw [hsame]
              exact hinv
            · rw [hsame]
    | some q =>
        have hmark : ∀ held : Nat → Option Nat,
            (if newSize = 0 ∨ some q ≠ none then held else s.held) = held :=
          fun held => if_pos (.inr (Option.some_ne_none q))
        cases oldBlock with
        | none =>
            refine ⟨_, _, rfl, ?_, fun g l n hl hgone => not_released (hg.layout g l n hl) hgone, nofun,
              fun _ _ _ _ hnone => nomatch hnone⟩
            rw [hmark]
            exact hinv₁
        | some p =>
            obtain ⟨m, hlive⟩ := hinv.live (hold p rfl)
            obtain ⟨hlive₁, hne⟩ := hg.keep p m hlive
            have hpq : q ≠ p := fun heq => hne (congrArg some heq)
            obtain ⟨n, hnew, hle⟩ := hg.block q rfl
            obtain ⟨oldSize, hold, holdval⟩ := hg.counted.size hlive₁.1
            obtain ⟨room, hroom, hroomval⟩ := hg.counted.size hnew.1
            have hmin : (if newSize < oldSize then newSize else oldSize).toNat =
                min m newSize.toNat := by
              split
              · next hlt =>
                  rw [UInt32.lt_iff_toNat_lt, holdval] at hlt
                  omega
              · next hge =>
                  rw [UInt32.lt_iff_toNat_lt, holdval] at hge
                  omega
            dsimp only
            rw [hold, hroom]
            simp only [Option.bind_some]
            rw [if_pos (by rw [UInt32.le_iff_toNat_le, hmin, hroomval]; omega)]
            -- the old block, after its bytes were copied
            generalize (if newSize < oldSize then newSize else oldSize).toNat = copied at hmin
            have hinv₂ := hinv₁.mem (memcpy h₁.mem q p copied)
            obtain ⟨h₂, hfree, hf⟩ := free_spec hinv₂.counted (live_mem.mpr hlive₁)
            have hcomm : mark (mark s.held (some p) none) (some q) (some newSize.toNat) =
                mark (mark s.held (some q) (some newSize.toNat)) (some p) none :=
              Function.update_comm hpq.symm ..
            rw [hfree]
            refine ⟨_, _, rfl, ?_, fun g l k hl hgone => ?_, fun p' size' q' k heq hq' hb x hx => ?_,
              fun _ _ _ _ hnone => nomatch hnone⟩
            · rw [hmark, hcomm]
              exact hinv₂.freed hf
            · rw [← layout_isSome, Option.isSome_eq_false_iff, Option.isNone_iff_eq_none] at hgone
              exact hf.released g l k (hg.layout g l k hl) hgone
            · cases heq
              cases hq'
              obtain rfl := hb.inj hlive.1
              have hkeep := hf.mem q n (live_mem.mpr hnew) hpq (q + x) (Nat.le_add_right ..) (by omega)
              rw [hkeep]
              dsimp only [memcpy]
              rw [if_pos (by omega), Nat.add_sub_cancel_left, hg.mem]

/-- Every call that is allowed returns, and keeps the invariant. -/
theorem exec_spec (hinv : s.Inv) (hop : s.Allows op) :
    ∃ r s', s.exec op = some (r, s') ∧ s'.Inv ∧ s.Called op r s' := by
  cases op with
  | malloc size => exact exec_malloc hinv hop
  | calloc a b => exact exec_calloc hinv hop
  | realloc oldBlock newSize => exact exec_realloc hinv hop.1 hop.2
  | free p => exact exec_free hinv hop

/-! ## Runs -/

theorem inv_start (usedMap : Bitmap) : (start usedMap).Inv where
  counted := ⟨ok_of_run .refl, nofun, nofun, nofun⟩
  held := nofun
  all p m hp := by
    cases hp.1 with
    | small hl => cases hl
    | big hl => cases hl

/-- Each call keeps the accounts, whichever it is. -/
theorem Inv.step (hinv : s.Inv) (hs : Step s s') : s'.Inv := by
  cases hs with
  | call hop hexec =>
      obtain ⟨r, s₁, hexec', hinv', -⟩ := exec_spec hinv hop
      cases hexec'.symm.trans hexec
      exact hinv'
  | store mem => exact hinv.mem mem
  | palloc hcnt hkeep =>
      have hok := hinv.counted.ok.step (.palloc hcnt hkeep)
      refine ⟨⟨hok, hinv.counted.count, hinv.counted.busy, hinv.counted.small⟩, fun p n hp => ?_,
        fun p m hp => hinv.all p m ⟨hp.1.layout rfl, hp.2⟩⟩
      obtain ⟨m, hlive, hle⟩ := hinv.held p n hp
      exact ⟨m, ⟨hlive.1.layout rfl, hlive.2⟩, hle⟩

/-- In every run the books are in order, and every call that is allowed returns. -/
theorem run_accounted {usedMap : Bitmap} (hrun : Relation.ReflTransGen Step (start usedMap) s) :
    s.Accounted ∧ ∀ op, s.Allows op →
      ∃ r s', s.exec op = some (r, s') ∧ s'.Accounted ∧ s.Called op r s' := by
  have hinv : s.Inv := Threads.invariant_of_step hrun (inv_start usedMap) fun _ _ => Inv.step
  refine ⟨hinv.accounted, fun op hop => ?_⟩
  obtain ⟨r, s', hexec, hinv', hcalled⟩ := exec_spec hinv hop
  exact ⟨r, s', hexec, hinv'.accounted, hcalled⟩

/-- A small block is moved into a page of its own, next to another large one. -/
theorem run_accounted_moved : ∃ s s', Relation.ReflTransGen Step (start (bitmapCreate 8)) s ∧
    s.held 12 = some 100 ∧ s.held 4108 = some 1500 ∧
      s.exec (.realloc (some 12) 2000) = some (some 8204, s') ∧ s'.Accounted ∧
        s.Called (.realloc (some 12) 2000) (some 8204) s' := by
  have hcalls : (((start (bitmapCreate 8)).exec (.malloc 100)).bind fun x =>
      (x.2.exec (.calloc 30 50)).bind fun y => (y.2.exec (.realloc (some 12) 2000)).map fun z =>
        (y.2.held 12, y.2.held 4108, z.1)) = some (some 100, some 1500, some 8204) := by decide +kernel
  obtain ⟨⟨p, s₁⟩, h₁, hcalls⟩ := Option.bind_eq_some_iff.mp hcalls
  obtain ⟨⟨q, s⟩, h₂, hcalls⟩ := Option.bind_eq_some_iff.mp hcalls
  obtain ⟨⟨r, s'⟩, h₃, hvalues⟩ := Option.map_eq_some_iff.mp hcalls
  obtain ⟨hsmall, hvalues⟩ := Prod.mk.inj hvalues
  obtain ⟨hlarge, rfl⟩ := Prod.mk.inj hvalues
  have hsize : (start (bitmapCreate 8)).Allows (.malloc 100) := by
    show (100 : UInt32).toNat < 2 ^ 31
    decide
  have hproduct : s₁.Allows (.calloc 30 50) := by
    show (30 : UInt32).toNat * (50 : UInt32).toNat < 2 ^ 31
    decide
  have hrun := (Relation.ReflTransGen.single (Step.call hsize h₁)).tail (Step.call hproduct h₂)
  have hholds : s.Holds (some 12) := by
    intro b hb
    cases hb
    rw [show s.held 12 = _ from hsmall]
    rfl
  obtain ⟨r, s'', hexec, hacc, hcalled⟩ :=
    (run_accounted hrun).2 (.realloc (some 12) 2000) ⟨by decide, hholds⟩
  cases h₃.symm.trans hexec
  exact ⟨s, s', hrun, hsmall, hlarge, h₃, hacc, hcalled⟩

end Client

end

end CS162.Kernel.Malloc
