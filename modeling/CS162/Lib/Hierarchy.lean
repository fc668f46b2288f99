/-
# `CS162.Lib.Hierarchy` — directories that name each other

A hierarchy has nodes, some of which are directories, and a directory names nodes.  Two names are
special: `here`, for the directory itself, and `up`, for the one that it is in.  Nothing keeps them from
being missing, and nothing keeps the root from having entries of these names for other nodes.

`Rooted` is what holds of a hierarchy that has grown from a root by `Adds`: one node more, under a name
that was free, and, if it is a directory, with the entries `here` and `up` or a part of them.  It is a
tree: one path to each node goes down from the root all the way (`Descends`, `Rooted.descent`).
`up_then_down` says when the way up from a directory, by `up`, and down again, by the name that it was
reached with, comes back to it.
-/
import Mathlib.Data.List.Basic
import Mathlib.Data.List.Induction
import Mathlib.Logic.Relation
import Mathlib.Tactic.Common

open Relation

structure Hierarchy (V N : Type) where
  isDir : V → Bool
  child : V → N → Option V

namespace Hierarchy

variable {V N : Type} {H H' : Hierarchy V N} {live live' : V → Prop} {root d s t u : V}
  {here up c : N} {cs : List N}

/-- The node that names lead to, each in the directory that those before it lead to. -/
def resolve (H : Hierarchy V N) : V → List N → Option V
  | d, [] => some d
  | d, c :: cs => if H.isDir d = true then (H.child d c).bind fun t => H.resolve t cs else none

theorem resolve_named (h : H.resolve d cs = some t) : t = d ∨ ∃ u a, H.child u a = some t := by
  induction cs generalizing d with
  | nil => exact .inl (Option.some.inj h).symm
  | cons c cs ih =>
      unfold resolve at h
      split at h
      · obtain ⟨u, hu, hrest⟩ := Option.bind_eq_some_iff.mp h
        rcases ih hrest with rfl | hnamed
        · exact .inr ⟨d, c, hu⟩
        · exact .inr hnamed
      · cases h

/-- It is enough to know the nodes that are named. -/
theorem resolve_congr (hdir : ∀ t, live t → H'.isDir t = H.isDir t)
    (hchild : ∀ t, live t → H'.child t = H.child t) (hlive : ∀ d c t, H.child d c = some t → live t)
    (hd : live d) (cs : List N) : H'.resolve d cs = H.resolve d cs := by
  induction cs generalizing d with
  | nil => rfl
  | cons c cs ih =>
      rw [resolve, resolve, hdir d hd, hchild d hd]
      split
      · cases hc : H.child d c with
        | none => rfl
        | some t => exact ih (hlive d c t hc)
      · rfl

/-- Another name than the two special ones. -/
def Plain (here up c : N) : Prop := c ≠ here ∧ c ≠ up

/-- `d` names the directory `t`, other than by `here` or `up`. -/
def Below (H : Hierarchy V N) (here up : N) (d t : V) : Prop :=
  ∃ c, Plain here up c ∧ H.child d c = some t ∧ H.isDir t = true

def Acyclic (H : Hierarchy V N) (here up : N) : Prop := ∀ d, ¬ TransGen (H.Below here up) d d

/-- What holds of every hierarchy that has grown from its root. -/
structure Rooted (H : Hierarchy V N) (live : V → Prop) (root : V) (here up : N) : Prop where
  root_dir : H.isDir root = true
  dir_live : ∀ d, H.isDir d = true → live d
  child_live : ∀ d c t, H.child d c = some t → live t
  -- what is not a directory names nothing
  leaf : ∀ d c t, H.child d c = some t → H.isDir d = true
  -- the root is only named by `up`, and not by itself
  root_named : ∀ u c, H.child u c = some root → u ≠ root ∧ c = up
  here_own : ∀ u t, u ≠ root → H.child u here = some t → t = u
  -- the root has no entries `here` and `up` of its own
  one_name : ∀ u a v b t, u = root ∨ Plain here up a → v = root ∨ Plain here up b →
    H.child u a = some t → H.child v b = some t → u = v ∧ a = b
  up_from : ∀ u c t p, H.child u c = some t → u = root ∨ Plain here up c → H.child t up = some p → p = u
  back : ∀ u t, u ≠ root → H.child u up = some t →
    H.isDir t = true ∧ (t = root ∨ ∃ c, Plain here up c ∧ H.child t c = some u)

/-- Every directory that is named has entries `here` and `up`, but for the root. -/
def Complete (H : Hierarchy V N) (root : V) (here up : N) : Prop :=
  ∀ u c t, H.child u c = some t → H.isDir t = true → t ≠ root →
    H.child t here ≠ none ∧ H.child t up ≠ none

/-! ## The way up and down -/

/-- The entries that lead from `t` back to `t`, when it has the name `c`. -/
def WayBack (H : Hierarchy V N) (root : V) (here up : N) (t : V) (c : N) : Prop :=
  c = here ∧ H.child t here ≠ none ∨
  c ≠ here ∧ c ≠ up ∧ H.child t up ≠ none ∨
  c = up ∧ ∃ q, H.child root up = some q ∧ H.child q up ≠ none ∧ (t = root ∨ t = q)

/-- `up`, and then the name `c`; `here` is looked for in the directory. -/
def upDown [DecidableEq N] (H : Hierarchy V N) (here up : N) (t : V) (c : N) : Option V :=
  if c ≠ here then (H.child t up).bind fun p => H.child p c else H.child t c

/-- A path that ends in the name of a directory leads back
to it, from itself, when `WayBack` says so. -/
theorem up_then_down [DecidableEq N] (h : H.Rooted live root here up) (hac : H.Acyclic here up)
    (hne : here ≠ up) (hc : H.child u c = some t) (ht : H.isDir t = true) :
    H.upDown here up t c = some t ↔ H.WayBack root here up t c := by
  unfold upDown WayBack
  by_cases hself : c = here
  · subst hself
    rw [if_neg (not_not_intro rfl)]
    have htr : t ≠ root := by
      rintro rfl
      exact hne (h.root_named u c hc).2
    constructor
    · intro hback
      exact .inl ⟨rfl, by rw [hback]; exact Option.some_ne_none t⟩
    · rintro (⟨-, hsome⟩ | ⟨hno, -⟩ | ⟨hno, -⟩)
      · obtain ⟨x, hx⟩ := Option.ne_none_iff_exists'.mp hsome
        rw [hx, h.here_own t x htr hx]
      · exact absurd rfl hno
      · exact absurd hno hne
  rw [if_pos hself]
  by_cases hup : c = up
  · subst hup
    constructor
    · intro hback
      obtain ⟨p, hp, hpt⟩ := Option.bind_eq_some_iff.mp hback
      refine .inr (.inr ⟨rfl, ?_⟩)
      by_cases htr : t = root
      · subst htr
        exact ⟨p, hp, by rw [hpt]; exact Option.some_ne_none t, .inl rfl⟩
      by_cases hpr : p = root
      · subst hpr
        exact ⟨t, hpt, by rw [hp]; exact Option.some_ne_none p, .inr rfl⟩
      -- each of the two would be below the other
      obtain ⟨hdir, hin⟩ := h.back t p htr hp
      obtain ⟨a, ha, hpa⟩ := hin.resolve_left hpr
      obtain ⟨b, hb, htb⟩ := (h.back p t hpr hpt).2.resolve_left htr
      exact absurd ((TransGen.single ⟨a, ha, hpa, ht⟩).tail ⟨b, hb, htb, hdir⟩) (hac p)
    · rintro (⟨hno, -⟩ | ⟨-, hno, -⟩ | ⟨-, q, hq, hsome, htq⟩)
      · exact absurd hno hself
      · exact absurd rfl hno
      · obtain ⟨p, hp⟩ := Option.ne_none_iff_exists'.mp hsome
        obtain rfl := h.up_from root c q p hq (.inl rfl) hp
        rcases htq with rfl | rfl
        · rw [hq, Option.bind_some, hp]
        · rw [hp, Option.bind_some, hq]
  · constructor
    · intro hback
      obtain ⟨p, hp, -⟩ := Option.bind_eq_some_iff.mp hback
      exact .inr (.inl ⟨hself, hup, by rw [hp]; exact Option.some_ne_none p⟩)
    · rintro (⟨hno, -⟩ | ⟨-, -, hsome⟩ | ⟨hno, -⟩)
      · exact absurd hno hself
      · obtain ⟨p, hp⟩ := Option.ne_none_iff_exists'.mp hsome
        obtain rfl := h.up_from u c t p hc (.inr ⟨hself, hup⟩) hp
        rw [hp, Option.bind_some, hc]
      · exact absurd hno hup

/-! ## Paths that go down -/

theorem resolve_append (H : Hierarchy V N) (d : V) (cs as : List N) :
    H.resolve d (cs ++ as) = (H.resolve d cs).bind fun u => H.resolve u as := by
  induction cs generalizing d with
  | nil => rfl
  | cons a cs ih =>
      simp only [List.cons_append, resolve]
      split
      · rw [Option.bind_assoc]
        exact congrArg _ (funext fun t => ih t)
      · rfl

theorem resolve_concat (H : Hierarchy V N) (d : V) (cs : List N) (c : N) : H.resolve d (cs ++ [c]) =
    (H.resolve d cs).bind fun u => if H.isDir u = true then H.child u c else none := by
  rw [resolve_append]
  refine congrArg _ (funext fun u => ?_)
  show (if H.isDir u = true then (H.child u c).bind some else none) = _
  rw [Option.bind_fun_some]

theorem resolve_last (h : H.resolve d (cs ++ [c]) = some t) :
    ∃ u, H.resolve d cs = some u ∧ H.child u c = some t := by
  rw [resolve_concat] at h
  obtain ⟨u, hu, hlast⟩ := Option.bind_eq_some_iff.mp h
  refine ⟨u, hu, ?_⟩
  split at hlast
  · exact hlast
  · cases hlast

/-- A path that goes down from the root: no name but the first is special. -/
def Descends (here up : N) (cs : List N) : Prop := ∀ c ∈ cs.tail, Plain here up c

theorem Descends.init (h : Descends here up (cs ++ [c])) : Descends here up cs := by
  intro a ha
  refine h a ?_
  cases cs with
  | nil => cases ha
  | cons b cs => exact List.mem_append_left _ ha

/-- The last step goes down. -/
theorem Descends.last (h : Descends here up (cs ++ [c])) (hu : H.resolve root cs = some u) :
    u = root ∨ Plain here up c := by
  cases cs with
  | nil => exact .inl (Option.some.inj hu).symm
  | cons b cs => exact .inr (h c (List.mem_append_right _ (List.mem_singleton_self c)))

theorem Descends.concat (h : Descends here up cs) (hu : H.resolve root cs = some u)
    (hlast : u = root ∨ Plain here up c) (hroot : u = root → cs = []) :
    Descends here up (cs ++ [c]) := by
  cases cs with
  | nil => exact fun a ha => by cases ha
  | cons b cs =>
      have hne : u ≠ root := fun hur => List.cons_ne_nil b cs (hroot hur)
      intro a ha
      rcases List.mem_append.mp ha with ha | ha
      · exact h a ha
      · obtain rfl := List.mem_singleton.mp ha
        exact hlast.resolve_left hne

/-- No such path leads back to the root. -/
theorem Rooted.descends_root (h : H.Rooted live root here up) (hp : Descends here up cs)
    (ht : H.resolve root cs = some root) : cs = [] := by
  rcases List.eq_nil_or_concat' cs with rfl | ⟨as, a, rfl⟩
  · rfl
  · obtain ⟨u, has, hu⟩ := resolve_last ht
    obtain ⟨hne, hup⟩ := h.root_named u a hu
    exact absurd hup ((hp.last has).resolve_left hne).2

/-- Each node has at most one. -/
theorem Rooted.descent_unique (h : H.Rooted live root here up) {cs cs' : List N}
    (hp : Descends here up cs) (hp' : Descends here up cs')
    (ht : H.resolve root cs = some t) (ht' : H.resolve root cs' = some t) :
    cs = cs' := by
  induction cs using List.reverseRecOn generalizing cs' t with
  | nil =>
      obtain rfl := Option.some.inj ht
      exact (h.descends_root hp' ht').symm
  | append_singleton cs c ih =>
      obtain ⟨u, hcs, hu⟩ := resolve_last ht
      rcases List.eq_nil_or_concat' cs' with rfl | ⟨as, a, rfl⟩
      · obtain rfl := Option.some.inj ht'
        exact h.descends_root hp ht
      · obtain ⟨v, has, hv⟩ := resolve_last ht'
        obtain ⟨rfl, rfl⟩ := h.one_name u c v a t (hp.last hcs) (hp'.last has) hu hv
        rw [ih hp.init hp'.init hcs has]

/-- Each node that names lead to has one: `here` stays where it is, and `up` takes the last name back. -/
theorem Rooted.descent (h : H.Rooted live root here up) (ht : H.resolve root cs = some t) :
    ∃ as, Descends here up as ∧ H.resolve root as = some t := by
  induction cs using List.reverseRecOn generalizing t with
  | nil => exact ⟨[], fun c hc => (by cases hc), ht⟩
  | append_singleton cs c ih =>
      obtain ⟨u, hcs, hu⟩ := resolve_last ht
      obtain ⟨as, hp, has⟩ := ih hcs
      by_cases hlast : u = root ∨ Plain here up c
      · refine ⟨as ++ [c], hp.concat has hlast fun hur => h.descends_root hp (hur ▸ has), ?_⟩
        rw [resolve_concat, has, Option.bind_some, if_pos (h.leaf u c t hu), hu]
      · obtain ⟨hur, hspecial⟩ := not_or.mp hlast
        by_cases hself : c = here
        · subst hself
          obtain rfl := h.here_own u t hur hu
          exact ⟨as, hp, has⟩
        · obtain rfl : c = up := by
            by_contra hno
            exact hspecial ⟨hself, hno⟩
          rcases List.eq_nil_or_concat' as with rfl | ⟨bs, b, rfl⟩
          · exact absurd (Option.some.inj has).symm hur
          · obtain ⟨v, hbs, hv⟩ := resolve_last has
            obtain rfl := h.up_from v b u t hv (hp.last hbs) hu
            exact ⟨bs, hp.init, hbs⟩

theorem wayBack_congr (h : H.Rooted live root here up) (hchild : ∀ t, live t → H'.child t = H.child t)
    (ht : live t) : H'.WayBack root here up t c ↔ H.WayBack root here up t c := by
  unfold WayBack
  rw [hchild t ht, hchild root (h.dir_live root h.root_dir)]
  refine or_congr_right (or_congr_right (and_congr_right fun _ => exists_congr fun q => ?_))
  refine and_congr_right fun hq => ?_
  rw [hchild q (h.child_live root up q hq)]

/-! ## Growing -/

/-- The new node `s` has the name `c` in `d`. -/
structure Adds (H : Hierarchy V N) (live : V → Prop) (root : V) (here up : N) (d : V) (c : N) (s : V)
    (H' : Hierarchy V N) (live' : V → Prop) : Prop where
  dir : H.isDir d = true
  named : d = root ∨ ∃ u a, H.child u a = some d
  new : H.child d c = none
  fresh : ¬ live s
  live_iff : ∀ t, live' t ↔ t = s ∨ live t
  isDir : ∀ t, t ≠ s → H'.isDir t = H.isDir t
  child_d : H'.child d c = some s
  child_other : ∀ t a, t ≠ s → ¬ (t = d ∧ a = c) → H'.child t a = H.child t a
  child_s : ∀ a t, H'.child s a = some t → H'.isDir s = true ∧ (a = here ∧ t = s ∨ a = up ∧ t = d)

namespace Adds

variable (ha : H.Adds live root here up d c s H' live') (h : H.Rooted live root here up)

include ha h

theorem ne : d ≠ s := by
  rintro rfl
  exact ha.fresh (h.dir_live d ha.dir)

theorem ne_root : s ≠ root := by
  rintro rfl
  exact ha.fresh (h.dir_live s h.root_dir)

/-- What is named was named before, but for the three new entries. -/
theorem cases {a : N} (hu : H'.child u a = some t) :
    u = d ∧ a = c ∧ t = s ∨ u = s ∧ a = here ∧ t = s ∨ u = s ∧ a = up ∧ t = d ∨
      u ≠ s ∧ t ≠ s ∧ H.child u a = some t := by
  by_cases hus : u = s
  · subst hus
    rcases (ha.child_s a t hu).2 with ⟨rfl, rfl⟩ | ⟨rfl, rfl⟩
    · exact .inr (.inl ⟨rfl, rfl, rfl⟩)
    · exact .inr (.inr (.inl ⟨rfl, rfl, rfl⟩))
  by_cases hdc : u = d ∧ a = c
  · obtain ⟨rfl, rfl⟩ := hdc
    exact .inl ⟨rfl, rfl, (Option.some.inj (ha.child_d.symm.trans hu)).symm⟩
  · rw [ha.child_other u a hus hdc] at hu
    refine .inr (.inr (.inr ⟨hus, ?_, hu⟩))
    rintro rfl
    exact ha.fresh (h.child_live u a t hu)

theorem child_old {a : N} (hu : H.child u a = some t) : H'.child u a = some t := by
  have hus : u ≠ s := by
    rintro rfl
    exact ha.fresh (h.dir_live u (h.leaf u a t hu))
  rw [ha.child_other u a hus ?_, hu]
  rintro ⟨rfl, rfl⟩
  rw [ha.new] at hu
  cases hu

/-- Paths lead where they led. -/
theorem resolve_old (hd : u ≠ s) (ht : H.resolve u cs = some t) : H'.resolve u cs = some t := by
  induction cs generalizing u with
  | nil => exact ht
  | cons a cs ih =>
      unfold resolve at ht ⊢
      split at ht
      · next hdir =>
          obtain ⟨v, hv, hrest⟩ := Option.bind_eq_some_iff.mp ht
          have hvs : v ≠ s := fun hvs => ha.fresh (hvs ▸ h.child_live u a v hv)
          rw [if_pos ((ha.isDir u hd).trans hdir), ha.child_old h hv, Option.bind_some]
          exact ih hvs hrest
      · cases ht

theorem child_new {a : N} (hu : H'.child u a = none) : H.child u a = none := by
  cases hold : H.child u a with
  | none => rfl
  | some t => rw [ha.child_old h hold] at hu; cases hu

/-- A directory that is complete gets no entry `here` or `up`. -/
theorem plain (hcomp : H.Complete root here up) (hd : d ≠ root) : Plain here up c := by
  obtain ⟨u, a, hu⟩ := ha.named.resolve_left hd
  obtain ⟨hself, hup⟩ := hcomp u a d hu ha.dir hd
  constructor
  · rintro rfl
    exact hself ha.new
  · rintro rfl
    exact hup ha.new

theorem rooted (hcomp : H.Complete root here up) (hne : here ≠ up) : H'.Rooted live' root here up where
  root_dir := (ha.isDir root (ha.ne_root h).symm).trans h.root_dir
  dir_live t ht := by
    by_cases hts : t = s
    · exact (ha.live_iff t).mpr (.inl hts)
    · exact (ha.live_iff t).mpr (.inr (h.dir_live t ((ha.isDir t hts).symm.trans ht)))
  child_live u a t hu := by
    rcases ha.cases h hu with ⟨-, -, rfl⟩ | ⟨-, -, rfl⟩ | ⟨-, -, rfl⟩ | ⟨-, -, hold⟩
    · exact (ha.live_iff t).mpr (.inl rfl)
    · exact (ha.live_iff t).mpr (.inl rfl)
    · exact (ha.live_iff t).mpr (.inr (h.dir_live t ha.dir))
    · exact (ha.live_iff t).mpr (.inr (h.child_live u a t hold))
  leaf u a t hu := by
    rcases ha.cases h hu with ⟨rfl, -, -⟩ | ⟨rfl, -, -⟩ | ⟨rfl, -, -⟩ | ⟨hus, -, hold⟩
    · exact (ha.isDir u (ha.ne h)).trans ha.dir
    · exact (ha.child_s a t hu).1
    · exact (ha.child_s a t hu).1
    · exact (ha.isDir u hus).trans (h.leaf u a t hold)
  root_named u a hu := by
    rcases ha.cases h hu with ⟨-, -, hs⟩ | ⟨-, -, hs⟩ | ⟨rfl, rfl, -⟩ | ⟨-, -, hold⟩
    · exact absurd hs.symm (ha.ne_root h)
    · exact absurd hs.symm (ha.ne_root h)
    · exact ⟨ha.ne_root h, rfl⟩
    · exact h.root_named u a hold
  here_own u t hur hu := by
    rcases ha.cases h hu with ⟨rfl, hc, -⟩ | ⟨rfl, -, rfl⟩ | ⟨-, hno, -⟩ | ⟨-, -, hold⟩
    · exact absurd hc.symm (ha.plain h hcomp hur).1
    · rfl
    · exact absurd hno hne
    · exact h.here_own u t hur hold
  one_name u a v b t hpa hpb hu hv := by
    have hroot := ha.ne_root h
    rcases ha.cases h hu with ⟨rfl, rfl, rfl⟩ | ⟨rfl, hno, -⟩ | ⟨rfl, hno, -⟩ | ⟨-, hts, hu⟩
    · rcases ha.cases h hv with ⟨rfl, rfl, -⟩ | ⟨rfl, hno, -⟩ | ⟨rfl, hno, -⟩ | ⟨-, hts, -⟩
      · exact ⟨rfl, rfl⟩
      · exact absurd hno (hpb.resolve_left hroot).1
      · exact absurd hno (hpb.resolve_left hroot).2
      · exact absurd rfl hts
    · exact absurd hno (hpa.resolve_left hroot).1
    · exact absurd hno (hpa.resolve_left hroot).2
    · rcases ha.cases h hv with ⟨-, -, hs⟩ | ⟨rfl, hno, -⟩ | ⟨rfl, hno, -⟩ | ⟨-, -, hv⟩
      · exact absurd hs hts
      · exact absurd hno (hpb.resolve_left hroot).1
      · exact absurd hno (hpb.resolve_left hroot).2
      · exact h.one_name u a v b t hpa hpb hu hv
  up_from u a t p hu hplain hp := by
    rcases ha.cases h hu with ⟨rfl, -, rfl⟩ | ⟨rfl, rfl, -⟩ | ⟨rfl, rfl, -⟩ | ⟨-, hts, hold⟩
    · rcases (ha.child_s up p hp).2 with ⟨hno, -⟩ | ⟨-, rfl⟩
      · exact absurd hno.symm hne
      · rfl
    · exact (hplain.elim (fun hr => ha.ne_root h hr) fun hno => hno.1 rfl).elim
    · exact (hplain.elim (fun hr => ha.ne_root h hr) fun hno => hno.2 rfl).elim
    · rcases ha.cases h hp with ⟨rfl, hc, -⟩ | ⟨hs, -, -⟩ | ⟨hs, -, -⟩ | ⟨-, -, hp⟩
      · -- the directory that got an entry `up` is the root, and no such entry leads to it
        have hroot : t = root := by
          by_contra hno
          exact (ha.plain h hcomp hno).2 hc.symm
        obtain ⟨hur, ha'⟩ := h.root_named u a (hroot ▸ hold)
        exact (hplain.elim (fun hr => hur hr) fun hno => hno.2 ha').elim
      · exact absurd hs hts
      · exact absurd hs hts
      · exact h.up_from u a t p hold hplain hp
  back u t hur hu := by
    rcases ha.cases h hu with ⟨rfl, hc, -⟩ | ⟨-, hno, -⟩ | ⟨rfl, -, rfl⟩ | ⟨-, hts, hold⟩
    · exact absurd hc.symm (ha.plain h hcomp hur).2
    · exact absurd hno.symm hne
    · refine ⟨(ha.isDir t (ha.ne h)).trans ha.dir, ?_⟩
      by_cases htr : t = root
      · exact .inl htr
      · exact .inr ⟨c, ha.plain h hcomp htr, ha.child_d⟩
    · obtain ⟨hdir, hin⟩ := h.back u t hur hold
      refine ⟨(ha.isDir t hts).trans hdir, hin.imp_right ?_⟩
      rintro ⟨a, hpa, hta⟩
      exact ⟨a, hpa, ha.child_old h hta⟩

theorem complete (hcomp : H.Complete root here up)
    (hown : H'.isDir s = true → H'.child s here ≠ none ∧ H'.child s up ≠ none) :
    H'.Complete root here up := by
  intro u a t hu ht htr
  have hkeep : ∀ x, H.child t x ≠ none → H'.child t x ≠ none := fun x hx hno => hx (ha.child_new h hno)
  rcases ha.cases h hu with ⟨-, -, rfl⟩ | ⟨-, -, rfl⟩ | ⟨-, -, rfl⟩ | ⟨-, hts, hold⟩
  · exact hown ht
  · exact hown ht
  · obtain ⟨v, b, hv⟩ := ha.named.resolve_left htr
    obtain ⟨h1, h2⟩ := hcomp v b t hv ha.dir htr
    exact ⟨hkeep here h1, hkeep up h2⟩
  · obtain ⟨h1, h2⟩ := hcomp u a t hold ((ha.isDir t hts).symm.trans ht) htr
    exact ⟨hkeep here h1, hkeep up h2⟩

/-- The new node is at the end. -/
theorem acyclic (hac : H.Acyclic here up) : H'.Acyclic here up := by
  have hcases : ∀ {u t}, H'.Below here up u t → u = d ∧ t = s ∨ u ≠ s ∧ t ≠ s ∧ H.Below here up u t := by
    rintro u t ⟨a, hpa, hu, ht⟩
    rcases ha.cases h hu with ⟨rfl, -, rfl⟩ | ⟨-, hno, -⟩ | ⟨-, hno, -⟩ | ⟨hus, hts, hold⟩
    · exact .inl ⟨rfl, rfl⟩
    · exact absurd hno hpa.1
    · exact absurd hno hpa.2
    · exact .inr ⟨hus, hts, a, hpa, hold, (ha.isDir t hts).symm.trans ht⟩
  have hlast : ∀ {u t}, TransGen (H'.Below here up) u t →
      u ≠ s ∧ (t = s ∨ TransGen (H.Below here up) u t) := by
    intro u t hut
    induction hut with
    | single hb =>
        rcases hcases hb with ⟨rfl, rfl⟩ | ⟨hus, -, hb⟩
        · exact ⟨ha.ne h, .inl rfl⟩
        · exact ⟨hus, .inr (.single hb)⟩
    | tail _ hb ih =>
        obtain ⟨hus, hold⟩ := ih
        rcases hcases hb with ⟨rfl, rfl⟩ | ⟨hbs, -, hb⟩
        · exact ⟨hus, .inl rfl⟩
        · exact ⟨hus, .inr ((hold.resolve_left hbs).tail hb)⟩
  intro t ht
  obtain ⟨hts, hold⟩ := hlast ht
  exact hac t (hold.resolve_left hts)

end Adds

/-! ## Nodes without a name -/

/-- What was there is as it was; a node that is new names nothing. -/
structure Keeps (H : Hierarchy V N) (live : V → Prop) (H' : Hierarchy V N) (live' : V → Prop) : Prop where
  live_mono : ∀ t, live t → live' t
  isDir : ∀ t, live t → H'.isDir t = H.isDir t
  child : ∀ t, live t → H'.child t = H.child t
  new : ∀ t, ¬ live t → ∀ a, H'.child t a = none
  dir_live : ∀ t, H'.isDir t = true → live' t

namespace Keeps

variable (hk : H.Keeps live H' live') (h : H.Rooted live root here up)

include hk h

theorem child_iff {a : N} : H'.child u a = some t ↔ H.child u a = some t := by
  by_cases hu : live u
  · rw [hk.child u hu]
  · constructor
    · intro hno
      rw [hk.new u hu] at hno
      cases hno
    · intro hold
      exact absurd (h.dir_live u (h.leaf u a t hold)) hu

theorem rooted : H'.Rooted live' root here up where
  root_dir := (hk.isDir root (h.dir_live root h.root_dir)).trans h.root_dir
  dir_live := hk.dir_live
  child_live u a t hu := hk.live_mono t (h.child_live u a t ((hk.child_iff h).mp hu))
  leaf u a t hu := by
    have hdir := h.leaf u a t ((hk.child_iff h).mp hu)
    exact (hk.isDir u (h.dir_live u hdir)).trans hdir
  root_named u a hu := h.root_named u a ((hk.child_iff h).mp hu)
  here_own u t hur hu := h.here_own u t hur ((hk.child_iff h).mp hu)
  one_name u a v b t hpa hpb hu hv :=
    h.one_name u a v b t hpa hpb ((hk.child_iff h).mp hu) ((hk.child_iff h).mp hv)
  up_from u a t p hu hplain hp := h.up_from u a t p ((hk.child_iff h).mp hu) hplain
    ((hk.child_iff h).mp hp)
  back u t hur hu := by
    obtain ⟨hdir, hin⟩ := h.back u t hur ((hk.child_iff h).mp hu)
    refine ⟨(hk.isDir t (h.dir_live t hdir)).trans hdir, hin.imp_right ?_⟩
    rintro ⟨a, hpa, hta⟩
    exact ⟨a, hpa, (hk.child_iff h).mpr hta⟩

theorem complete (hcomp : H.Complete root here up) : H'.Complete root here up := by
  intro u a t hu ht htr
  have hold := (hk.child_iff h).mp hu
  have hl := h.child_live u a t hold
  rw [hk.child t hl]
  exact hcomp u a t hold ((hk.isDir t hl).symm.trans ht) htr

theorem acyclic (hac : H.Acyclic here up) : H'.Acyclic here up := by
  have hbelow : H'.Below here up ≤ H.Below here up := by
    rintro u t ⟨a, hpa, hu, ht⟩
    have hold := (hk.child_iff h).mp hu
    exact ⟨a, hpa, hold, (hk.isDir t (h.child_live u a t hold)).symm.trans ht⟩
  exact fun t ht => hac t (TransGen.mono hbelow t t ht)

end Keeps

end Hierarchy
