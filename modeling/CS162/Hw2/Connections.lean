/-
# `CS162.Hw2.Connections` — every connection is closed by its handler

As long as the closes are those of `handle_files_request`, a connection belongs to one
request, in the accept loop, in the queue or with one worker, and its descriptor stands for
it (`Inv`).  `handle_files_request` closes the descriptor on every exit.  The close that
follows in `req_thread` and `serve_forever` is then made on a number that is free, or that
`accept` or `open` has given out again: it is never right.
-/
import CS162.Hw2.Server

namespace CS162.Hw2

namespace Server

variable {T : Type}

namespace Pc

/-- The request of a thread that has not closed its connection. -/
def request : Pc → Option Request
  | .push r | .parse r | .stat r | .openFile r | .sendFile r _ | .openDir r | .readDir r _
  | .close r => some r
  | .accept | .pop | .closeAgain _ => none

/-- The request of a thread that has. -/
def finished : Pc → Option Request
  | .closeAgain r => some r
  | .accept | .pop | .push _ | .parse _ | .stat _ | .openFile _ | .sendFile _ _ | .openDir _
  | .readDir _ _ | .close _ => none

def opened : Pc → Option Nat
  | .sendFile _ opened | .readDir _ opened => opened
  | .accept | .pop | .push _ | .parse _ | .stat _ | .openFile _ | .openDir _ | .close _
  | .closeAgain _ => none

end Pc

/-- Neither in the queue nor with a thread other than `t`. -/
structure Alone (s : St T) (t : Option T) (c : Nat) : Prop where
  queue : ∀ r ∈ s.queue, r.conn ≠ c
  threads : ∀ u, u ≠ t → ∀ r, (s.pc u).request = some r → r.conn ≠ c

structure Inv (s : St T) : Prop where
  waiting : ∀ r ∈ s.queue, s.fds r.fd = some (.conn r.conn)
  nodup : (s.queue.map Request.conn).Nodup
  served : ∀ t r, (s.pc t).request = some r → s.fds r.fd = some (.conn r.conn) ∧ Alone s t r.conn
  finished : ∀ t r, (s.pc t).finished = some r →
    r.conn < s.accepted ∧ ∀ f, s.fds f ≠ some (.conn r.conn)
  opened : ∀ t f, (s.pc t).opened = some f → s.fds f = some (.file t)
  fresh : ∀ f c, s.fds f = some (.conn c) → c < s.accepted
  unique : ∀ f f' c, s.fds f = some (.conn c) → s.fds f' = some (.conn c) → f = f'
  good : s.bad = false

variable {s s' : St T} {t : Option T} {q : Pc} {r : Request} {f : Nat}

/-- At the start there is no connection, and nobody holds a file. -/
theorem Inv.init (std : Nat → Bool) : Inv (St.init std : St T) := by
  have hno : ∀ f c, (St.init std : St T).fds f ≠ some (.conn c) := by
    intro f c hf
    simp only [St.init] at hf
    split at hf <;> cases hf
  have hpc : ∀ t : Option T, ((St.init std : St T).pc t).request = none ∧
      ((St.init std : St T).pc t).finished = none ∧ ((St.init std : St T).pc t).opened = none := by
    intro t
    cases t with
    | none => exact ⟨rfl, rfl, rfl⟩
    | some t => exact ⟨rfl, rfl, rfl⟩
  exact ⟨nofun, .nil, fun t r h => absurd ((hpc t).1.symm.trans h) nofun,
    fun t r h => absurd ((hpc t).2.1.symm.trans h) nofun,
    fun t f h => absurd ((hpc t).2.2.symm.trans h) nofun,
    fun f c h => absurd h (hno f c), fun f f' c h => absurd h (hno f c), rfl⟩

/-- A number that was free is given out. -/
theorem Inv.give {e : Entry T} {n : Nat} (hinv : Inv s) (hf : s.fds f = none) (hn : s.accepted ≤ n)
    (he : ∀ c, e = .conn c → c = s.accepted ∧ s.accepted < n) :
    Inv { s with fds := Function.update s.fds f (some e), accepted := n } := by
  have hother : ∀ {g : Nat} {e'}, s.fds g = some e' → Function.update s.fds f (some e) g = some e' := by
    intro g e' hg
    rw [Function.update_of_ne (fun hgf => by rw [hgf, hf] at hg; cases hg), hg]
  have hcases : ∀ {g c}, Function.update s.fds f (some e) g = some (.conn c) →
      (g = f ∧ e = .conn c) ∨ (g ≠ f ∧ s.fds g = some (.conn c)) := by
    intro g c hg
    by_cases hgf : g = f
    · subst hgf
      rw [Function.update_self] at hg
      exact .inl ⟨rfl, Option.some.inj hg⟩
    · rw [Function.update_of_ne hgf] at hg
      exact .inr ⟨hgf, hg⟩
  refine ⟨fun r hr => hother (hinv.waiting r hr), hinv.nodup, fun t r hr => ?_, fun t r hr => ?_,
    fun t g hg => hother (hinv.opened t g hg), fun g c hg => ?_, fun g g' c hg hg' => ?_, hinv.good⟩
  · obtain ⟨hfd, halone⟩ := hinv.served t r hr
    exact ⟨hother hfd, halone.queue, halone.threads⟩
  · obtain ⟨hlt, hgone⟩ := hinv.finished t r hr
    refine ⟨Nat.lt_of_lt_of_le hlt hn, fun g hg => ?_⟩
    rcases hcases hg with ⟨-, he'⟩ | ⟨-, hg⟩
    · have := (he _ he').1
      omega
    · exact hgone g hg
  · rcases hcases hg with ⟨-, he'⟩ | ⟨-, hg⟩
    · obtain ⟨rfl, hlt⟩ := he c he'
      exact hlt
    · exact Nat.lt_of_lt_of_le (hinv.fresh g c hg) hn
  · rcases hcases hg with ⟨rfl, he'⟩ | ⟨-, hg⟩
    · rcases hcases hg' with ⟨rfl, -⟩ | ⟨-, hg'⟩
      · rfl
      · have hlt := hinv.fresh g' c hg'
        have := (he c he').1
        omega
    · rcases hcases hg' with ⟨-, he'⟩ | ⟨-, hg'⟩
      · have hlt := hinv.fresh g c hg
        have := (he c he').1
        omega
      · exact hinv.unique g g' c hg hg'

/-- A number that nobody uses any more is free again. -/
theorem Inv.take (hinv : Inv s) (hqueue : ∀ r ∈ s.queue, r.fd ≠ f)
    (hserved : ∀ t r, (s.pc t).request = some r → r.fd ≠ f)
    (hopened : ∀ t, (s.pc t).opened ≠ some f) :
    Inv { s with fds := Function.update s.fds f none } := by
  have hold : ∀ {g e}, Function.update s.fds f none g = some e → s.fds g = some e := by
    intro g e hg
    by_cases hgf : g = f
    · rw [hgf, Function.update_self] at hg
      cases hg
    · rwa [Function.update_of_ne hgf] at hg
  refine ⟨fun r hr => ?_, hinv.nodup, fun t r hr => ?_, fun t r hr => ?_, fun t g hg => ?_,
    fun g c hg => hinv.fresh g c (hold hg), fun g g' c hg hg' => hinv.unique g g' c (hold hg) (hold hg'),
    hinv.good⟩
  · exact (Function.update_of_ne (hqueue r hr) _ _).trans (hinv.waiting r hr)
  · obtain ⟨hfd, halone⟩ := hinv.served t r hr
    exact ⟨(Function.update_of_ne (hserved t r hr) _ _).trans hfd, halone.queue, halone.threads⟩
  · obtain ⟨hlt, hgone⟩ := hinv.finished t r hr
    exact ⟨hlt, fun g hg => hgone g (hold hg)⟩
  · have hgf : g ≠ f := fun hgf => hopened t (hgf ▸ hg)
    exact (Function.update_of_ne hgf _ _).trans (hinv.opened t g hg)

variable [DecidableEq T]

theorem goto_self : (s.goto t q).pc t = q := Function.update_self ..

theorem goto_other {u : Option T} (hu : u ≠ t) : (s.goto t q).pc u = s.pc u :=
  Function.update_of_ne hu _ _

/-- One thread goes on. -/
theorem Inv.goto (hinv : Inv s)
    (hserved : ∀ r, q.request = some r → s.fds r.fd = some (.conn r.conn) ∧ Alone s t r.conn)
    (hfinished : ∀ r, q.finished = some r → r.conn < s.accepted ∧ ∀ f, s.fds f ≠ some (.conn r.conn))
    (hopened : ∀ f, q.opened = some f → s.fds f = some (.file t)) : Inv (s.goto t q) := by
  refine ⟨hinv.waiting, hinv.nodup, fun u r hr => ?_, fun u r hr => ?_, fun u g hg => ?_, hinv.fresh,
    hinv.unique, hinv.good⟩
  · by_cases hu : u = t
    · subst hu
      rw [goto_self] at hr
      obtain ⟨hfd, halone⟩ := hserved r hr
      exact ⟨hfd, halone.queue, fun w hw r' hr' => halone.threads w hw r' (by rwa [goto_other hw] at hr')⟩
    · rw [goto_other hu] at hr
      obtain ⟨hfd, halone⟩ := hinv.served u r hr
      refine ⟨hfd, halone.queue, fun w hw r' hr' => ?_⟩
      by_cases hwt : w = t
      · subst hwt
        rw [goto_self] at hr'
        exact fun heq => (hserved r' hr').2.threads u hu r hr heq.symm
      · rw [goto_other hwt] at hr'
        exact halone.threads w hw r' hr'
  · by_cases hu : u = t
    · subst hu
      rw [goto_self] at hr
      exact hfinished r hr
    · rw [goto_other hu] at hr
      exact hinv.finished u r hr
  · by_cases hu : u = t
    · subst hu
      rw [goto_self] at hg
      exact hopened g hg
    · rw [goto_other hu] at hg
      exact hinv.opened u g hg

/-- With the same request. -/
theorem Inv.next (hinv : Inv s) (hpc : (s.pc t).request = some r) (hq : q.request = some r)
    (hfin : q.finished = none) (hopened : ∀ f, q.opened = some f → s.fds f = some (.file t)) :
    Inv (s.goto t q) :=
  hinv.goto
    (fun r' hr' => by
      cases hq.symm.trans hr'
      exact hinv.served t _ hpc)
    (fun _ h => absurd (hfin.symm.trans h) nofun) hopened

/-- Without one. -/
theorem Inv.idle (hinv : Inv s) (hreq : q.request = none) (hfin : q.finished = none)
    (hopened : q.opened = none) : Inv (s.goto t q) :=
  hinv.goto (fun _ h => absurd (hreq.symm.trans h) nofun) (fun _ h => absurd (hfin.symm.trans h) nofun)
    fun _ h => absurd (hopened.symm.trans h) nofun

/-! ## The steps -/

/-- `accept`. -/
theorem Inv.accept (hinv : Inv s) (hf : s.fds f = none) (hq : q.request = some ⟨f, s.accepted⟩)
    (hfin : q.finished = none) (hopened : q.opened = none) :
    Inv { s.goto none q with
      fds := Function.update s.fds f (some (.conn s.accepted))
      accepted := s.accepted + 1 } := by
  have hlt : ∀ r : Request, s.fds r.fd = some (.conn r.conn) → r.conn ≠ s.accepted := fun r hr =>
    Nat.ne_of_lt (hinv.fresh _ _ hr)
  have hgive : Inv { s with
      fds := Function.update s.fds f (some (.conn s.accepted))
      accepted := s.accepted + 1 } :=
    hinv.give hf (Nat.le_succ _) fun c hc => by
      cases hc
      exact ⟨rfl, Nat.lt_succ_self _⟩
  refine hgive.goto (fun r hr => ?_) (fun _ h => absurd (hfin.symm.trans h) nofun)
    fun _ h => absurd (hopened.symm.trans h) nofun
  cases hq.symm.trans hr
  exact ⟨Function.update_self .., fun r' hr' => hlt r' (hinv.waiting r' hr'),
    fun u _ r' hr' => hlt r' (hinv.served u r' hr').1⟩

/-- `wq_push`. -/
theorem Inv.push (hinv : Inv s) (hpc : s.pc none = .push r) :
    Inv { s.goto none .accept with queue := s.queue ++ [r] } := by
  obtain ⟨hfd, halone⟩ := hinv.served none r (by rw [hpc]; rfl)
  have hidle : Inv (s.goto none .accept) := hinv.idle rfl rfl rfl
  refine ⟨fun r' hr' => ?_, ?_, fun u r' hr' => ?_, hidle.finished, hidle.opened, hidle.fresh,
    hidle.unique, hidle.good⟩
  · rcases List.mem_append.mp hr' with hr' | hr'
    · exact hinv.waiting r' hr'
    · rw [List.mem_singleton.mp hr']
      exact hfd
  · rw [List.map_append, List.nodup_append]
    refine ⟨hinv.nodup, by simp, fun c hc c' hc' heq => ?_⟩
    obtain ⟨r', hr', rfl⟩ := List.mem_map.mp hc
    rw [List.map_singleton, List.mem_singleton] at hc'
    exact halone.queue r' hr' (heq.trans hc')
  · have hu : u ≠ none := by
      rintro rfl
      replace hr' : ((s.goto none .accept).pc none).request = some r' := hr'
      rw [goto_self] at hr'
      cases hr'
    obtain ⟨hfd', halone'⟩ := hidle.served u r' hr'
    replace hr' : ((s.goto none .accept).pc u).request = some r' := hr'
    rw [goto_other hu] at hr'
    refine ⟨hfd', fun r'' hr'' => ?_, halone'.threads⟩
    rcases List.mem_append.mp hr'' with hr'' | hr''
    · exact halone'.queue r'' hr''
    · rw [List.mem_singleton.mp hr'']
      exact fun heq => halone.threads u hu r' hr' heq.symm

/-- `wq_pop`. -/
theorem Inv.pop {w : T} {rest : List Request} (hinv : Inv s) (hqueue : s.queue = r :: rest) :
    Inv { s.goto (some w) (.parse r) with queue := rest } := by
  have hnodup := hinv.nodup
  rw [hqueue, List.map_cons, List.nodup_cons] at hnodup
  have hsub : ∀ r' ∈ rest, r' ∈ s.queue := fun r' hr' => hqueue ▸ List.mem_cons_of_mem _ hr'
  have hdrop : Inv { s with queue := rest } :=
    ⟨fun r' hr' => hinv.waiting r' (hsub r' hr'), hnodup.2, fun u r' hr' =>
      ⟨(hinv.served u r' hr').1, fun r'' hr'' => (hinv.served u r' hr').2.queue r'' (hsub r'' hr''),
        (hinv.served u r' hr').2.threads⟩,
      hinv.finished, hinv.opened, hinv.fresh, hinv.unique, hinv.good⟩
  have hr : r ∈ s.queue := hqueue ▸ .head _
  refine hdrop.goto (t := some w) (q := .parse r) (fun r' hr' => ?_) nofun nofun
  cases hr'
  exact ⟨hinv.waiting r hr, fun r' hr' heq => hnodup.1 (heq ▸ List.mem_map_of_mem hr'),
    fun u _ r' hr' heq => (hinv.served u r' hr').2.queue r hr heq.symm⟩

/-- `open` and `opendir`. -/
theorem Inv.opens {opened : Option Nat} (hinv : Inv s) (hpc : (s.pc t).request = some r)
    (hq : q.request = some r) (hfin : q.finished = none) (hopened : q.opened = opened)
    (hstep : s.opens t opened q = some s') : Inv s' := by
  cases opened with
  | none =>
      cases hstep
      exact hinv.next hpc hq hfin fun _ h => absurd (hopened.symm.trans h) nofun
  | some f =>
      simp only [St.opens] at hstep
      split at hstep
      · next hf =>
        cases hstep
        have hgive : Inv { s with fds := Function.update s.fds f (some (.file t)) } :=
          hinv.give (n := s.accepted) (Option.isNone_iff_eq_none.mp hf) le_rfl nofun
        refine hgive.next (t := t) hpc hq hfin fun g hg => ?_
        cases hopened.symm.trans hg
        exact Function.update_self ..
      · cases hstep

omit [DecidableEq T] in
/-- A close of one's own file, and of one's own connection. -/
theorem closeOpened_own (hf : s.fds f = some (.file t)) :
    s.closeOpened (some f) = { s with fds := Function.update s.fds f none } := by
  unfold St.closeOpened
  dsimp only
  rw [hf]
  simp

omit [DecidableEq T] in
theorem closeConn_own (hf : s.fds r.fd = some (.conn r.conn)) :
    s.closeConn r = { s with fds := Function.update s.fds r.fd none } := by
  unfold St.closeConn
  rw [hf]
  simp

/-- `close (opened)` and `closedir`. -/
theorem Inv.closeOpened {opened : Option Nat} (hinv : Inv s) (hpc : (s.pc t).request = some r)
    (hopened : (s.pc t).opened = opened) : Inv ((s.closeOpened opened).goto t (.close r)) := by
  have hnext : Inv (s.goto t (.close r)) := hinv.next hpc rfl rfl nofun
  cases opened with
  | none => exact hnext
  | some f =>
      have hf := hinv.opened t f hopened
      have htake := hnext.take (f := f)
        (fun r' hr' hrf => by
          have := hinv.waiting r' hr'
          rw [hrf, hf] at this
          cases this)
        (fun u r' hr' hrf => by
          have := (hnext.served u r' hr').1
          rw [hrf] at this
          cases hf.symm.trans this)
        fun u hu => by
          have hfu := hnext.opened u f hu
          cases hf.symm.trans hfu
          rw [goto_self] at hu
          cases hu
      rw [closeOpened_own hf]
      exact htake

/-- `close (fd)` in `handle_files_request`. -/
theorem Inv.close (hinv : Inv s) (hpc : s.pc t = .close r) :
    Inv ((s.closeConn r).goto t (.closeAgain r)) := by
  obtain ⟨hfd, halone⟩ := hinv.served t r (by rw [hpc]; rfl)
  have hidle : Inv (s.goto t .accept) := hinv.idle rfl rfl rfl
  have htake := hidle.take (f := r.fd)
    (fun r' hr' hrf => by
      have := hinv.waiting r' hr'
      rw [hrf, hfd] at this
      exact halone.queue r' hr' (Entry.conn.inj (Option.some.inj this)).symm)
    (fun u r' hr' hrf => by
      by_cases hu : u = t
      · rw [hu, goto_self] at hr'
        cases hr'
      · rw [goto_other hu] at hr'
        have := (hinv.served u r' hr').1
        rw [hrf, hfd] at this
        exact halone.threads u hu r' hr' (Entry.conn.inj (Option.some.inj this)).symm)
    fun u hu => by
      have := hidle.opened u _ hu
      cases hfd.symm.trans this
  have hagain := htake.goto (t := t) (q := .closeAgain r) nofun
    (fun r' hr' => by
      cases hr'
      refine ⟨hinv.fresh _ _ hfd, fun f hf => ?_⟩
      by_cases hfr : f = r.fd
      · rw [hfr] at hf
        cases (Function.update_self ..).symm.trans hf
      · exact hfr (hinv.unique f r.fd _ ((Function.update_of_ne hfr _ _).symm.trans hf) hfd))
    nofun
  rw [closeConn_own hfd]
  show Inv { s with
    fds := Function.update s.fds r.fd none
    pc := Function.update s.pc t (.closeAgain r) }
  have hpcs : Function.update (Function.update s.pc t Pc.accept) t (.closeAgain r) =
      Function.update s.pc t (.closeAgain r) := Function.update_idem ..
  rw [← hpcs]
  exact hagain

omit [DecidableEq T] in
/-- The close that follows is never right. -/
theorem Inv.closeAgain (hinv : Inv s) (hpc : s.pc t = .closeAgain r) : (s.closeConn r).bad = true := by
  obtain ⟨-, hgone⟩ := hinv.finished t r (by rw [hpc]; rfl)
  have hfd := hgone r.fd
  unfold St.closeConn
  dsimp only
  split
  · next c hc =>
    have hne : c ≠ r.conn := by
      rintro rfl
      exact hfd hc
    simp [hne]
  · exact Bool.or_true _

variable [Fintype T] {a : Act T}

/-- Every step but the second `close` of a connection keeps the invariant. -/
theorem Inv.step (hinv : Inv s) (ha : ∀ t, a ≠ .closeAgain t) (hstep : Server.step s a = some s') :
    Inv s' := by
  have hdown : s.down = false := by
    by_contra hne
    simp only [Server.step, if_pos (Bool.not_eq_false _ ▸ hne)] at hstep
    cases hstep
  have hreq : ∀ {t : Option T} {p : Pc} {r : Request}, s.pc t = p → p.request = some r →
      (s.pc t).request = some r := fun hpc hr => hpc ▸ hr
  replace hstep := (if_neg (by simp [hdown])).symm.trans hstep
  cases a with
  | closeAgain t => exact absurd rfl (ha t)
  | accept fd =>
      dsimp only at hstep
      split at hstep
      · cases hstep
        exact hinv
      · split at hstep
        · next f hf =>
          cases hstep
          refine hinv.accept (Option.isNone_iff_eq_none.mp hf) ?_ ?_ ?_ <;> split <;> rfl
        · cases hstep
      · cases hstep
  | push =>
      dsimp only at hstep
      split at hstep
      · next r hpc =>
        cases hstep
        exact hinv.push hpc
      · cases hstep
  | pop t =>
      dsimp only at hstep
      split at hstep
      · next r rest hpc hqueue =>
        cases hstep
        exact hinv.pop hqueue
      · cases hstep
  | parse t ok =>
      dsimp only at hstep
      split at hstep
      · next r hpc =>
        split at hstep
        · cases hstep
          exact hinv.next (hreq hpc rfl) rfl rfl nofun
        · cases hstep
          exact ⟨hinv.waiting, hinv.nodup, fun t r hr =>
            ⟨(hinv.served t r hr).1, (hinv.served t r hr).2.queue, (hinv.served t r hr).2.threads⟩,
            hinv.finished, hinv.opened, hinv.fresh, hinv.unique, hinv.good⟩
      · cases hstep
  | stat t found =>
      dsimp only at hstep
      split at hstep
      · next r hpc =>
        cases hstep
        exact hinv.next (hreq hpc rfl) rfl rfl nofun
      · next r hpc =>
        cases hstep
        exact hinv.next (hreq hpc rfl) rfl rfl nofun
      · next r hpc =>
        cases hstep
        exact hinv.next (hreq hpc rfl) rfl rfl nofun
      · next r hpc =>
        cases hstep
        exact hinv.next (hreq hpc rfl) rfl rfl nofun
      · cases hstep
  | openFile t opened =>
      dsimp only at hstep
      split at hstep
      · next r hpc => exact hinv.opens (q := .sendFile r opened) (hreq hpc rfl) rfl rfl rfl hstep
      · cases hstep
  | openDir t opened =>
      dsimp only at hstep
      split at hstep
      · next r hpc => exact hinv.opens (q := .readDir r opened) (hreq hpc rfl) rfl rfl rfl hstep
      · cases hstep
  | closeFile t =>
      dsimp only at hstep
      split at hstep
      · next r opened hpc =>
        cases hstep
        exact hinv.closeOpened (hreq hpc rfl) (by rw [hpc]; rfl)
      · cases hstep
  | closeDir t =>
      dsimp only at hstep
      split at hstep
      · next r opened hpc =>
        cases hstep
        exact hinv.closeOpened (hreq hpc rfl) (by rw [hpc]; rfl)
      · cases hstep
  | close t =>
      dsimp only at hstep
      split at hstep
      · next r hpc =>
        cases hstep
        exact hinv.close hpc
      · cases hstep

/-- A step that makes the second close. -/
theorem Inv.step_closeAgain (hinv : Inv s) (hstep : Server.step s (.closeAgain t) = some s') :
    s'.bad = true := by
  unfold Server.step at hstep
  split at hstep
  · cases hstep
  · dsimp only at hstep
    split at hstep
    · next r hpc =>
      cases hstep
      exact hinv.closeAgain hpc
    · cases hstep

omit [DecidableEq T] [Fintype T] in
theorem bad_closeConn (r : Request) (hbad : s.bad = true) : (s.closeConn r).bad = true := by
  simp [St.closeConn, hbad]

omit [DecidableEq T] [Fintype T] in
theorem bad_closeOpened (opened : Option Nat) (hbad : s.bad = true) :
    (s.closeOpened opened).bad = true := by
  cases opened with
  | none => exact hbad
  | some f => simp [St.closeOpened, hbad]

omit [Fintype T] in
theorem bad_opens {opened : Option Nat} (hbad : s.bad = true) (hstep : s.opens t opened q = some s') :
    s'.bad = true := by
  cases opened with
  | none =>
      cases hstep
      exact hbad
  | some f =>
      simp only [St.opens] at hstep
      split at hstep
      · cases hstep
        exact hbad
      · cases hstep

/-- What has gone wrong stays so. -/
theorem bad_step (hbad : s.bad = true) (hstep : step s a = some s') : s'.bad = true := by
  have hkeep : ∀ {u : St T}, some u = some s' → u.bad = s.bad → s'.bad = true := fun h hu => by
    cases h
    exact hu.trans hbad
  unfold step at hstep
  split at hstep
  · cases hstep
  cases a with
  | accept fd =>
      dsimp only at hstep
      split at hstep
      · exact hkeep hstep rfl
      · split at hstep
        · exact hkeep hstep rfl
        · cases hstep
      · cases hstep
  | push =>
      dsimp only at hstep
      split at hstep
      · exact hkeep hstep rfl
      · cases hstep
  | pop t =>
      dsimp only at hstep
      split at hstep
      · exact hkeep hstep rfl
      · cases hstep
  | parse t ok =>
      dsimp only at hstep
      split at hstep
      · split at hstep
        · exact hkeep hstep rfl
        · exact hkeep hstep rfl
      · cases hstep
  | stat t found =>
      dsimp only at hstep
      split at hstep
      · exact hkeep hstep rfl
      · exact hkeep hstep rfl
      · exact hkeep hstep rfl
      · exact hkeep hstep rfl
      · cases hstep
  | openFile t opened =>
      dsimp only at hstep
      split at hstep
      · exact bad_opens hbad hstep
      · cases hstep
  | openDir t opened =>
      dsimp only at hstep
      split at hstep
      · exact bad_opens hbad hstep
      · cases hstep
  | closeFile t =>
      dsimp only at hstep
      split at hstep
      · cases hstep
        exact bad_closeOpened _ hbad
      · cases hstep
  | closeDir t =>
      dsimp only at hstep
      split at hstep
      · cases hstep
        exact bad_closeOpened _ hbad
      · cases hstep
  | close t =>
      dsimp only at hstep
      split at hstep
      · cases hstep
        exact bad_closeConn _ hbad
      · cases hstep
  | closeAgain t =>
      dsimp only at hstep
      split at hstep
      · cases hstep
        exact bad_closeConn _ hbad
      · cases hstep

/-! ## Runs -/

/-- A run of given steps; `none` if one of them cannot be taken. -/
def runs (s : St T) : List (Act T) → Option (St T)
  | [] => some s
  | a :: rest => (step s a).bind (runs · rest)

theorem bad_runs {as : List (Act T)} (hbad : s.bad = true) (hruns : runs s as = some s') :
    s'.bad = true := by
  induction as generalizing s with
  | nil =>
      cases hruns
      exact hbad
  | cons a rest ih =>
      obtain ⟨m, hm, hrest⟩ := Option.bind_eq_some_iff.mp hruns
      exact ih (bad_step hbad hm) hrest

/-- In a run from a good state a bad `close` happens exactly when somebody closes again. -/
theorem Inv.runs_iff {as : List (Act T)} (hinv : Inv s) (hruns : runs s as = some s') :
    s'.bad = false ↔ ∀ t, .closeAgain t ∉ as := by
  induction as generalizing s with
  | nil =>
      cases hruns
      exact iff_of_true hinv.good fun _ => nofun
  | cons a rest ih =>
      obtain ⟨m, hm, hrest⟩ := Option.bind_eq_some_iff.mp hruns
      by_cases ha : ∃ t, a = .closeAgain t
      · obtain ⟨t, rfl⟩ := ha
        have hbad := bad_runs (hinv.step_closeAgain hm) hrest
        exact iff_of_false (by rw [hbad]; nofun) fun h => h t (.head _)
      · have hne : ∀ t, a ≠ .closeAgain t := fun t h => ha ⟨t, h⟩
        refine (ih (hinv.step hne hm) hrest).trans (forall_congr' fun t => ?_)
        rw [List.mem_cons, not_or]
        exact ⟨fun h => ⟨Ne.symm (hne t), h⟩, And.right⟩

/-- In a run of the server every close is right if and only if none is made after
`request_handler` has returned. -/
theorem closed_once (std : Nat → Bool) (as : List (Act T)) (s : St T)
    (hruns : runs (St.init std) as = some s) : s.bad = false ↔ ∀ t, .closeAgain t ∉ as :=
  (Inv.init std).runs_iff hruns

/-- Standard input, output and error and the socket that listens. -/
def listening (f : Nat) : Bool := f ≤ 3

/-- One worker serves a file. -/
def serveFile : List (Act (Fin 1)) :=
  [.accept (some 4), .push, .pop 0, .parse (some 0) true, .stat (some 0) .file,
    .openFile (some 0) (some 5), .closeFile (some 0), .close (some 0)]

theorem closed_once_file : ∃ s, runs (St.init listening) serveFile = some s ∧ s.bad = false := by
  obtain ⟨s, hs⟩ : ∃ s, runs (St.init listening) serveFile = some s := ⟨_, rfl⟩
  refine ⟨s, hs, (closed_once listening serveFile s hs).mpr fun t ht => ?_⟩
  simp [serveFile] at ht

/-- One of two workers has closed its client's connection, the next client gets the number,
and the worker closes it again while the other serves that client. -/
def closeReused : List (Act Bool) :=
  [.accept (some 4), .push, .pop false, .parse (some false) true, .stat (some false) .nothing,
    .close (some false), .accept (some 4), .push, .pop true, .closeAgain (some false)]

theorem closes_other_client : ∃ s, runs (St.init listening) closeReused = some s ∧ s.bad = true ∧
    (s.pc (some true)).request = some ⟨4, 1⟩ ∧ s.fds 4 = none :=
  ⟨_, rfl, rfl, rfl, rfl⟩

end Server

end CS162.Hw2
