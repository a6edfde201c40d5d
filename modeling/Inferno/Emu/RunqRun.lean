import Inferno.Emu.RunqInv

namespace Inferno.Emu.Runq

open Lib

namespace Sched

variable {gc : Prog → Prop} {s s' : Sched} {l : List Prog} {p q f : Prog} {st : ProgState} {n : Nat} {ps : List Prog}
  {msg : String} {w : Option Wake} {up : Proc}

/-- The run queue is in order. -/
structure Inv (gc : Prog → Prop) (s : Sched) (l : List Prog) : Prop where
  core : Core gc s l
  away : Away gc s l

theorem Inv.setKill (inv : Inv gc s l) : Inv gc (s.setKill p msg) l :=
  ⟨⟨inv.core.path, inv.core.tail, inv.core.ready⟩, ⟨inv.away.out, inv.away.once, inv.away.held⟩⟩

theorem Inv.mark (inv : Inv gc s l) : Inv gc (s.mark p) l :=
  ⟨⟨inv.core.path, inv.core.tail, inv.core.ready⟩, ⟨inv.away.out, inv.away.once, inv.away.held⟩⟩

theorem Inv.setAddrun (inv : Inv gc s l) : Inv gc (s.setAddrun p w) l :=
  ⟨⟨inv.core.path, inv.core.tail, inv.core.ready⟩, ⟨inv.away.out, inv.away.once, inv.away.held⟩⟩

theorem Inv.weaken (inv : Inv gc s l) (p : Prog) : Inv (But gc p) s l :=
  ⟨inv.core.weaken p, inv.away.out, inv.away.once, fun up q back other =>
    inv.away.held up q back fun collector => other (Or.inl collector)⟩

/-- `p`, which is not on the queue, gets a state for it. -/
theorem Inv.settle (inv : Inv (But gc p) s l) (out : p ∉ l) (stopped : st ≠ .ready)
    (awake : ¬Waiting st ∨ ¬s.Held p) : Inv gc (s.setState p st) l := by
  refine ⟨inv.core.settle out stopped, inv.away.out, inv.away.once, fun up q back other => ?_⟩
  by_cases same : q = p
  · subst same
    rw [setState_self]
    exact awake.resolve_right fun free => free ⟨up, back⟩
  · rw [setState_of_ne s st same]
    exact inv.away.held up q back (not_or.mpr ⟨other, same⟩)

/-- The run queue after a call of `addrun`. -/
structure Added (gc : Prog → Prop) (s : Sched) (l : List Prog) (p : Prog) (s' : Sched) (l' : List Prog) : Prop where
  inv : Inv gc s' l'
  others : ∀ q, q ≠ p → (q ∈ l' ↔ q ∈ l)

theorem Inv.addrun (inv : Inv gc s l)
    (calls : s.addrunf p = some .cwakeme ∨ p ∉ l ∧ (s.addrunf p = none → ¬s.Held p)) :
    ∃ s' l', s.addrun p = some s' ∧ Added gc s l p s' l' := by
  cases wake : s.addrunf p with
  | none =>
    obtain ⟨out, away⟩ := calls.resolve_left fun cwakeme => nomatch wake.symm.trans cwakeme
    obtain ⟨s', ran, core, back, state⟩ := inv.core.append out wake
    have free : ∀ up, s.back up ≠ some p := fun up here => away wake ⟨up, here⟩
    refine ⟨s', _, ran, ⟨core, ?_, ?_, ?_⟩, fun q other => ?_⟩
    · intro up q here
      rw [back] at here
      rw [List.mem_append, List.mem_singleton]
      exact not_or.mpr ⟨inv.away.out up q here, fun same => free up (same ▸ here)⟩
    · rw [back]
      exact inv.away.once
    · intro up q here other
      rw [back] at here
      have ne : q ≠ p := fun same => free up (same ▸ here)
      rw [state, setState_of_ne s _ ne]
      exact inv.away.held up q here other
    · rw [List.mem_append, List.mem_singleton, or_iff_left other]
  | some wakes =>
    cases wakes with
    | cwakeme =>
      refine ⟨s.setAddrun p none, l, ?_, inv.setAddrun, fun _ _ => Iff.rfl⟩
      unfold Sched.addrun
      rw [wake]
    | dbgaddrun =>
      obtain ⟨out, -⟩ := calls.resolve_left fun cwakeme => nomatch wake.symm.trans cwakeme
      refine ⟨(s.setState p .debug).setAddrun p none, l, ?_, ?_, fun _ _ => Iff.rfl⟩
      · unfold Sched.addrun
        rw [wake]
      · exact ((inv.weaken p).settle out (by decide) (Or.inl (by decide))).setAddrun

/-- A `Prog` that waits is not on the queue, and no process puts it back. -/
theorem Inv.waiting (inv : Inv gc s l) (dis : ¬gc p) (waits : Waiting (s.state p)) : p ∉ l ∧ ¬s.Held p := by
  constructor
  · intro here
    rcases (inv.core.ready p dis).mp here with ready | ⟨exiting, -⟩
    · rw [ready] at waits
      rcases waits with no | no | no <;> cases no
    · rw [exiting] at waits
      rcases waits with no | no | no <;> cases no
  · rintro ⟨up, back⟩
    exact inv.away.held up p back dis waits

theorem Inv.addrun_waiting (inv : Inv gc s l) (dis : ¬gc p) (waits : Waiting (s.state p)) :
    ∃ s' l', s.addrun p = some s' ∧ Added gc s l p s' l' := by
  obtain ⟨out, free⟩ := inv.waiting dis waits
  exact inv.addrun (Or.inr ⟨out, fun _ => free⟩)

/-- `exprog` keeps the run queue in order. -/
theorem Inv.exprog (inv : Inv gc s l) (dis : ¬gc f) (ran : s.exprog f msg = some s') : ∃ l', Added gc s l f s' l' := by
  have excepted {t : Sched} {l' : List Prog} (inv' : Inv gc t l') :
      Inv gc (if t.kill f = none then t.setKill f msg else t) l' := by
    split
    · exact inv'.setKill
    · exact inv'
  have wakes (waits : Waiting (s.state f))
      (ran : (s.addrun f).map (fun t => if t.kill f = none then t.setKill f msg else t) = some s') :
      ∃ l', Added gc s l f s' l' := by
    obtain ⟨t, l', added, after⟩ := inv.addrun_waiting dis waits
    rw [added] at ran
    cases ran
    exact ⟨l', excepted after.inv, after.others⟩
  unfold Sched.exprog at ran
  dsimp only at ran
  cases state : s.state f with
  | alt =>
    rw [state] at ran
    exact wakes (Or.inl state) ran
  | send =>
    rw [state] at ran
    exact wakes (Or.inr (Or.inl state)) ran
  | recv =>
    rw [state] at ran
    exact wakes (Or.inr (Or.inr state)) ran
  | ready =>
    rw [state] at ran
    cases ran
    exact ⟨l, excepted inv, fun _ _ => Iff.rfl⟩
  | release =>
    rw [state] at ran
    cases ran
    exact ⟨l, excepted inv, fun _ _ => Iff.rfl⟩
  | exiting =>
    rw [state] at ran
    cases ran
    exact ⟨l, inv, fun _ _ => Iff.rfl⟩
  | broken =>
    rw [state] at ran
    cases ran
    exact ⟨l, inv, fun _ _ => Iff.rfl⟩
  | debug =>
    rw [state] at ran
    cases ran
    exact ⟨l, inv, fun _ _ => Iff.rfl⟩
  | dead =>
    rw [state] at ran
    cases ran

theorem Inv.exprogs (inv : Inv gc s l) (dis : ∀ f ∈ ps, ¬gc f)
    (ran : ps.foldlM (fun s f => s.exprog f msg) s = some s') :
    ∃ l', Inv gc s' l' ∧ ∀ q, q ∉ ps → (q ∈ l' ↔ q ∈ l) := by
  induction ps generalizing s l with
  | nil =>
    cases ran
    exact ⟨l, inv, fun _ _ => Iff.rfl⟩
  | cons f ps ih =>
    rw [List.foldlM_cons] at ran
    obtain ⟨t, first, rest⟩ := Option.bind_eq_some_iff.mp ran
    obtain ⟨m, added⟩ := inv.exprog (dis f List.mem_cons_self) first
    obtain ⟨l', inv', others⟩ := ih added.inv (fun g here => dis g (List.mem_cons_of_mem f here)) rest
    refine ⟨l', inv', fun q out => ?_⟩
    obtain ⟨ne, out'⟩ := not_or.mp fun here => out (List.mem_cons.mpr here)
    rw [others q out', added.others q ne]

theorem Inv.killcomm (inv : Inv gc s l) (dis : ∀ p ∈ ps, ¬gc p) (ran : s.killcomm ps = some s') :
    ∃ l', Inv gc s' l' := by
  unfold Sched.killcomm at ran
  induction ps generalizing s l with
  | nil =>
    cases ran
    exact ⟨l, inv⟩
  | cons p ps ih =>
    rw [List.foldlM_cons] at ran
    obtain ⟨t, first, rest⟩ := Option.bind_eq_some_iff.mp ran
    have dis' : ∀ q ∈ ps, ¬gc q := fun q here => dis q (List.mem_cons_of_mem p here)
    have wakes {msg : String} (waits : Waiting (s.state p)) (ran : (s.setKill p msg).addrun p = some t) :
        ∃ l', Inv gc s' l' := by
      have inv' : Inv gc (s.setKill p msg) l := inv.setKill
      obtain ⟨t', l', added, after⟩ := inv'.addrun_waiting (dis p List.mem_cons_self) waits
      rw [added] at ran
      cases ran
      exact ih after.inv dis' rest
    unfold killcomm1 at first
    cases state : s.state p with
    | alt =>
      rw [state] at first
      exact wakes (Or.inl state) first
    | send =>
      rw [state] at first
      exact wakes (Or.inr (Or.inl state)) first
    | recv =>
      rw [state] at first
      exact wakes (Or.inr (Or.inr state)) first
    | ready | release | exiting | broken | debug | dead =>
      rw [state] at first
      cases first
      exact ih inv dis' rest

/-- A `Prog` that is neither ready nor exiting is not on the queue. -/
theorem Inv.absent (inv : Inv gc s l) (dis : ¬gc p) (stopped : s.state p ≠ .ready) (live : s.state p ≠ .exiting) :
    p ∉ l := by
  intro here
  rcases (inv.core.ready p dis).mp here with ready | ⟨exiting, -⟩
  · exact stopped ready
  · exact live exiting

theorem Inv.free (inv : Inv gc s l) (here : p ∈ l) : ¬s.Held p := fun ⟨up, back⟩ => inv.away.out up p back here

/-- The running `Prog` is marked as exiting. -/
theorem Inv.head_exiting (inv : Inv gc s l) (head : s.runhd = some p) : Inv gc (s.setState p .exiting) l := by
  have here := inv.core.head_mem head
  refine ⟨⟨inv.core.path, inv.core.tail, fun q other => ?_⟩, inv.away.out, inv.away.once, fun up q back other => ?_⟩
  · by_cases same : q = p
    · subst same
      rw [setState_self]
      exact iff_of_true here (Or.inr ⟨rfl, head⟩)
    · rw [setState_of_ne s _ same]
      exact inv.core.ready q other
  · have ne : q ≠ p := fun same => inv.away.out up q back (same ▸ here)
    rw [setState_of_ne s _ ne]
    exact inv.away.held up q back other

/-- The first is taken off and gets a state for it. -/
theorem Inv.pop (inv : Inv gc s (p :: l)) (stopped : st ≠ .ready) :
    Inv gc ({ s with runhd := s.link p, runtl := if s.link p = none then none else s.runtl }.setState p st) l := by
  have free := inv.free List.mem_cons_self
  have apart := (List.nodup_cons.mp inv.core.path.nodup).1
  have away := (inv.weaken p).away
  have popped : Inv (But gc p) { s with runhd := s.link p, runtl := if s.link p = none then none else s.runtl } l :=
    ⟨inv.core.pop, fun up q back here => away.out up q back (List.mem_cons_of_mem p here), away.once, away.held⟩
  exact popped.settle apart stopped (Or.inr free)

theorem Inv.eq_cons (inv : Inv gc s l) (head : s.runhd = some p) : ∃ rest, l = p :: rest := by
  have path := inv.core.path
  rw [head] at path
  obtain ⟨rest, eq, -⟩ := path.eq_cons
  exact ⟨rest, eq⟩

/-- `delrun` keeps the run queue in order. -/
theorem Inv.delrun (inv : Inv gc s l) (stopped : st ≠ .ready) (ran : s.delrun st = some s') :
    ∃ p rest, l = p :: rest ∧ s.runhd = some p ∧ Inv gc s' rest ∧ s'.back = s.back ∧ s'.state p = st := by
  unfold Sched.delrun at ran
  cases head : s.runhd with
  | none =>
    rw [head] at ran
    cases ran
  | some p =>
    rw [head] at ran
    cases ran
    obtain ⟨rest, rfl⟩ := inv.eq_cons head
    exact ⟨p, rest, rfl, rfl, inv.pop stopped, rfl, setState_self s p st⟩

theorem Inv.delrunq (inv : Inv gc s l) (ends : s.Ends n) (p : Prog) :
    ∃ l', Inv (But gc p) (s.delrunq n p) l' ∧ p ∉ l' ∧ (s.delrunq n p).addrunf = s.addrunf := by
  obtain ⟨l', removed, out, others⟩ := inv.core.delrunq ends p
  refine ⟨l', ⟨removed.core, fun up q back here => ?_, ?_, fun up q back other => ?_⟩, out, removed.addrunf⟩
  · rw [removed.back] at back
    by_cases same : q = p
    · exact out (same ▸ here)
    · exact inv.away.out up q back ((others q same).mp here)
  · rw [removed.back]
    exact inv.away.once
  · rw [removed.back] at back
    rw [removed.state]
    exact (inv.weaken p).away.held up q back other

/-- `killprog` keeps the run queue in order, where `propex` leaves a ready `Prog` to nobody else. -/
theorem Inv.killprog {debug : Bool} {propex : Propex} (inv : Inv gc s l) (ends : s.Ends n) (dis : ¬gc p)
    (others : ∀ ps, propex = .exprogs ps → ∀ f ∈ ps, ¬gc f ∧ f ≠ p)
    (ready : s.state p = .ready → s.runhd ≠ some p →
      s.addrunf p ≠ some .cwakeme ∧ (propex = .kills → debug = true ∨ s.addrunf p ≠ none))
    (ran : s.killprog n p debug propex = some s') : ∃ l', Inv gc s' l' := by
  unfold Sched.killprog at ran
  by_cases head : s.runhd = some p
  · rw [if_pos head] at ran
    cases ran
    exact ⟨l, inv.mark.head_exiting head⟩
  rw [if_neg head] at ran
  -- what follows the `switch`, where `p` is not on the queue any more
  have after {t : Sched} {l' : List Prog} (inv' : Inv (But gc p) t l') (out : p ∉ l') (same : t.addrunf = s.addrunf)
      (whole : s.state p ≠ .ready → t = s ∧ l' = l) (rest : t.killrest p debug propex = some s') :
      ∃ l', Inv gc s' l' := by
    clear ran
    unfold killrest at rest
    by_cases calls : t.addrunf p ≠ none
    · rw [if_pos calls] at rest
      by_cases stopped : s.state p = .ready
      · have wake : t.addrunf p = some .dbgaddrun := by
          rw [same] at calls ⊢
          have other := (ready stopped head).1
          cases eq : s.addrunf p with
          | none => exact absurd eq calls
          | some w =>
            cases w with
            | cwakeme => exact absurd eq other
            | dbgaddrun => rfl
        have step : (t.mark p).addrun p = some (((t.mark p).setState p .debug).setAddrun p none) := by
          have wake' : (t.mark p).addrunf p = some .dbgaddrun := wake
          unfold Sched.addrun
          rw [wake']
        rw [step] at rest
        cases rest
        exact ⟨l', (inv'.mark.settle out (by decide) (Or.inl (by decide))).setAddrun.setAddrun⟩
      · obtain ⟨rfl, rfl⟩ := whole stopped
        have marked : Inv gc (t.mark p) l' := inv.mark
        have calls' : (t.mark p).addrunf p ≠ none := calls
        obtain ⟨t', l'', step, added⟩ := marked.addrun (Or.inr ⟨out, fun none_ => absurd none_ calls'⟩)
        rw [step] at rest
        cases rest
        exact ⟨l'', added.inv.setAddrun⟩
    · rw [if_neg calls] at rest
      cases debug with
      | true =>
        rw [if_pos rfl] at rest
        cases rest
        exact ⟨l', inv'.settle out (by decide) (Or.inl (by decide))⟩
      | false =>
        rw [if_neg Bool.false_ne_true] at rest
        cases propex with
        | kills =>
          cases rest
          by_cases stopped : s.state p = .ready
          · rw [same] at calls
            rcases (ready stopped head).2 rfl with no | some_
            · cases no
            · exact absurd some_ calls
          · obtain ⟨rfl, rfl⟩ := whole stopped
            exact ⟨l', inv⟩
        | exprogs ps =>
          obtain ⟨t', told, rfl⟩ := Option.map_eq_some_iff.mp rest
          have dis' : ∀ f ∈ ps, ¬But gc p f := fun f here => not_or.mpr (others ps rfl f here)
          obtain ⟨l'', inv'', mem⟩ := inv'.exprogs dis' told
          have out' : p ∉ l'' := fun here => out ((mem p fun told => (others ps rfl p told).2 rfl).mp here)
          exact ⟨l'', inv''.settle out' (by decide) (Or.inl (by decide))⟩
  have absent (stopped : s.state p ≠ .ready) (live : s.state p ≠ .exiting) : p ∉ l := inv.absent dis stopped live
  cases state : s.state p with
  | exiting =>
    rw [state] at ran
    cases ran
    exact ⟨l, inv⟩
  | release =>
    rw [state] at ran
    cases ran
    have out := absent (by rw [state]; decide) (by rw [state]; decide)
    exact ⟨l, (inv.mark.weaken p).settle out (by decide) (Or.inl (by decide))⟩
  | dead =>
    rw [state] at ran
    cases ran
  | ready =>
    rw [state] at ran
    obtain ⟨l', inv', out, same⟩ := inv.delrunq ends p
    exact after inv' out same (fun no => absurd state no) ran
  | alt | send | recv | debug | broken =>
    rw [state] at ran
    have out := absent (by rw [state]; decide) (by rw [state]; decide)
    exact after (inv.weaken p) out rfl (fun _ => ⟨rfl, rfl⟩) ran

theorem Inv.acquire (inv : Inv gc s l) (calm : s.Calm gc) (ran : s.acquire up = some s') : ∃ l', Inv gc s' l' := by
  unfold Sched.acquire at ran
  cases back : s.back up with
  | none =>
    rw [back] at ran
    cases ran
  | some p =>
    rw [back] at ran
    cases ran
    have out := inv.away.out up p back
    have core := inv.core.push out calm
    have kept {up' : Proc} {q : Prog} (here : Function.update s.back up none up' = some q) :
        s.back up' = some q ∧ q ≠ p := by
      by_cases same : up' = up
      · subst same
        rw [Function.update_self] at here
        cases here
      · rw [Function.update_of_ne same] at here
        exact ⟨here, fun eq => same (inv.away.once up' up p (eq ▸ here) back)⟩
    refine ⟨p :: l, ⟨core.path, core.tail, core.ready⟩, fun up' q here => ?_, fun up' up'' q here here' => ?_,
      fun up' q here other => ?_⟩
    · obtain ⟨was, ne⟩ := kept here
      rw [List.mem_cons]
      exact not_or.mpr ⟨ne, inv.away.out up' q was⟩
    · exact inv.away.once up' up'' q (kept here).1 (kept here').1
    · obtain ⟨was, ne⟩ := kept here
      have state : (s.pushHead p).state q = (s.setState p .ready).state q := rfl
      change ¬Waiting ((s.pushHead p).state q)
      rw [state, setState_of_ne s _ ne]
      exact inv.away.held up' q was other

theorem Inv.release (inv : Inv gc s l) (ran : s.release up = some s') : ∃ l', Inv gc s' l' := by
  unfold Sched.release at ran
  cases back : s.back up with
  | some q =>
    rw [back] at ran
    cases ran
  | none =>
    cases head : s.runhd with
    | none =>
      rw [back, head] at ran
      cases ran
    | some p =>
      rw [back, head] at ran
      obtain ⟨t, popped, rfl⟩ := Option.map_eq_some_iff.mp ran
      obtain ⟨p', rest, rfl, head', inv', same, state⟩ := inv.delrun (by decide) popped
      cases head.symm.trans head'
      have free := inv.free List.mem_cons_self
      have apart := (List.nodup_cons.mp inv.core.path.nodup).1
      have kept {up' : Proc} {q : Prog} (here : Function.update t.back up (some p) up' = some q) :
          up' = up ∧ q = p ∨ up' ≠ up ∧ t.back up' = some q ∧ q ≠ p := by
        by_cases eq : up' = up
        · subst eq
          rw [Function.update_self] at here
          exact Or.inl ⟨rfl, (Option.some.inj here).symm⟩
        · rw [Function.update_of_ne eq] at here
          refine Or.inr ⟨eq, here, fun ne => free ⟨up', ?_⟩⟩
          rw [← same, here, ne]
      refine ⟨rest, ⟨inv'.core.path, inv'.core.tail, inv'.core.ready⟩, fun up' q here => ?_,
        fun up' up'' q here here' => ?_, fun up' q here other => ?_⟩
      · rcases kept here with ⟨-, rfl⟩ | ⟨-, was, -⟩
        · exact apart
        · exact inv'.away.out up' q was
      · rcases kept here with ⟨rfl, rfl⟩ | ⟨-, was, ne⟩
        · rcases kept here' with ⟨rfl, -⟩ | ⟨-, -, ne⟩
          · rfl
          · exact absurd rfl ne
        · rcases kept here' with ⟨-, eq⟩ | ⟨-, was', -⟩
          · exact absurd eq ne
          · exact inv'.away.once up' up'' q was was'
      · rcases kept here with ⟨-, rfl⟩ | ⟨-, was, -⟩
        · change ¬Waiting (t.state q)
          rw [state]
          decide
        · exact inv'.away.held up' q was other

end Sched

open Sched

/-- `p` is put on the queue only where it is not yet, and comes off only by what gives it a state for that; a ready
`Prog` that `killprog` has taken off is not left to others; what is put before the running `Prog`, or behind which it
goes, finds it not exiting. -/
def Act.Safe (gc : Prog → Prop) : Act → Sched → Prop
  | .addrun p, s => s.addrunf p = some .cwakeme ∨ ¬s.Listed p ∧ (s.addrunf p = none → ¬s.Held p)
  | .delrun st, _ => st ≠ .ready
  | .delrunq _ p, _ => gc p
  | .delruntail _ st, _ => st ≠ .ready
  | .pushrun p, s => ¬s.Listed p ∧ ¬s.Held p ∧ s.Calm gc
  | .acquire _, s => s.Calm gc
  | .release _, _ => True
  | .killprog _ p debug propex, s => ¬gc p ∧ (∀ ps, propex = .exprogs ps → ∀ f ∈ ps, ¬gc f ∧ f ≠ p) ∧
      (s.state p = .ready → s.runhd ≠ some p →
        s.addrunf p ≠ some .cwakeme ∧ (propex = .kills → debug = true ∨ s.addrunf p ≠ none))
  | .exprog p _, _ => ¬gc p
  | .killcomm ps, _ => ∀ p ∈ ps, ¬gc p
  | .rotate, s => s.Calm gc
  | .setAddrun _ _, _ => True
  | .exiting p, s => ¬s.Listed p
  | .delprog p, s => s.Listed p → s.runhd = some p

/-- As `disinit` finds it: the queue is empty, and processes have their `Prog`. -/
structure Fresh (gc : Prog → Prop) (s : Sched) : Prop where
  runhd : s.runhd = none
  runtl : s.runtl = none
  state : ∀ p, ¬gc p → s.state p ≠ .ready
  once : ∀ up up' p, s.back up = some p → s.back up' = some p → up = up'
  held : ∀ up p, s.back up = some p → ¬gc p → ¬Waiting (s.state p)

/-- The list from `runhd` has each `Prog` once and ends in `runtl`, and a `Prog` is on it if and only if it is ready, or
is the running one and exiting; `gc` are the `Prog` of the collector. -/
def InOrder (gc : Prog → Prop) (s : Sched) : Prop :=
  ∃ l, Path s.link s.runhd l ∧ l.Nodup ∧ s.runtl = l.getLast? ∧
    ∀ p, ¬gc p → (p ∈ l ↔ s.state p = .ready ∨ s.state p = .exiting ∧ s.runhd = some p)

variable {gc : Prog → Prop} {s s' s₀ : Sched} {l : List Prog} {a : Act}

theorem Fresh.inv (fresh : Fresh gc s) : Inv gc s [] := by
  refine ⟨⟨fresh.runhd, fresh.runtl, fun p other => iff_of_false List.not_mem_nil ?_⟩,
    ⟨fun _ _ _ => List.not_mem_nil, fresh.once, fresh.held⟩⟩
  rintro (ready | ⟨-, head⟩)
  · exact fresh.state p other ready
  · rw [fresh.runhd] at head
    cases head

/-- A safe step keeps the run queue in order. -/
theorem Act.exec_inv (inv : Inv gc s l) (safe : a.Safe gc s) (ran : a.exec s = some s') : ∃ l', Inv gc s' l' := by
  cases a with
  | addrun p =>
    have calls : s.addrunf p = some .cwakeme ∨ p ∉ l ∧ (s.addrunf p = none → ¬s.Held p) :=
      safe.imp_right fun ⟨out, free⟩ => ⟨fun here => out (inv.core.listed.mpr here), free⟩
    obtain ⟨t, l', added, after⟩ := inv.addrun calls
    have ran : s.addrun p = some s' := ran
    rw [added] at ran
    cases ran
    exact ⟨l', after.inv⟩
  | delrun st =>
    obtain ⟨-, rest, -, -, inv', -⟩ := inv.delrun safe ran
    exact ⟨rest, inv'⟩
  | delrunq n p =>
    obtain ⟨ends, ran⟩ := Option.ite_none_right_eq_some.mp ran
    cases ran
    obtain ⟨l', inv', -⟩ := inv.delrunq ends p
    have wider : ∀ q, ¬gc q → ¬But gc p q := fun q other => not_or.mpr ⟨other, fun same => other (same ▸ safe)⟩
    exact ⟨l', ⟨inv'.core.path, inv'.core.tail, fun q other => inv'.core.ready q (wider q other)⟩, inv'.away.out,
      inv'.away.once, fun up q back other => inv'.away.held up q back (wider q other)⟩
  | delruntail n st =>
    obtain ⟨ends, ran⟩ := Option.ite_none_right_eq_some.mp ran
    unfold Sched.delruntail at ran
    cases tail : s.runtl with
    | none =>
      rw [tail] at ran
      cases ran
    | some p =>
      rw [tail] at ran
      cases ran
      have here : p ∈ l := List.mem_of_getLast? (inv.core.tail.symm.trans tail)
      obtain ⟨l', removed, out, others⟩ := inv.core.delrunq ends p
      obtain ⟨l'', inv', out', -⟩ := inv.delrunq ends p
      have free : ¬(s.delrunq n p).Held p := by
        rintro ⟨up, back⟩
        rw [removed.back] at back
        exact inv.free here ⟨up, back⟩
      exact ⟨l'', inv'.settle out' safe (Or.inr free)⟩
  | pushrun p =>
    obtain ⟨out, free, calm⟩ := safe
    obtain ⟨-, ran⟩ := Option.ite_none_right_eq_some.mp ran
    cases ran
    have fresh : p ∉ l := fun here => out (inv.core.listed.mpr here)
    refine ⟨p :: l, inv.core.push fresh calm, fun up q back => ?_, inv.away.once, fun up q back other => ?_⟩
    · rw [List.mem_cons]
      exact not_or.mpr ⟨fun same => free ⟨up, same ▸ back⟩, inv.away.out up q back⟩
    · have ne : q ≠ p := fun same => free ⟨up, same ▸ back⟩
      change ¬Waiting ((s.setState p .ready).state q)
      rw [setState_of_ne s _ ne]
      exact inv.away.held up q back other
  | acquire up => exact inv.acquire safe ran
  | release up => exact inv.release ran
  | killprog n p debug propex =>
    obtain ⟨ends, ran⟩ := Option.ite_none_right_eq_some.mp ran
    obtain ⟨dis, others, ready⟩ := safe
    exact inv.killprog ends dis others ready ran
  | exprog p exc =>
    obtain ⟨l', added⟩ := inv.exprog safe ran
    exact ⟨l', added.inv⟩
  | killcomm ps => exact inv.killcomm safe ran
  | rotate =>
    obtain ⟨t, l', rotated, core, back, state, mem⟩ := inv.core.rotate safe
    have ran : s.rotate = some s' := ran
    rw [rotated] at ran
    cases ran
    refine ⟨l', core, fun up q here => ?_, ?_, fun up q here other => ?_⟩
    · rw [back] at here
      exact fun listed => inv.away.out up q here ((mem q).mp listed)
    · rw [back]
      exact inv.away.once
    · rw [back] at here
      rw [state]
      exact inv.away.held up q here other
  | setAddrun p w =>
    cases ran
    exact ⟨l, inv.setAddrun⟩
  | exiting p =>
    cases ran
    have out : p ∉ l := fun here => safe (inv.core.listed.mpr here)
    exact ⟨l, (inv.weaken p).settle out (by decide) (Or.inl (by decide))⟩
  | delprog p =>
    cases ran
    unfold Sched.delprog
    by_cases head : s.runhd = some p
    · obtain ⟨rest, rfl⟩ := inv.eq_cons head
      rw [if_pos head]
      exact ⟨rest, inv.pop (by decide)⟩
    · have out : p ∉ l := fun here => head (safe (inv.core.listed.mpr here))
      rw [if_neg head]
      exact ⟨l, (inv.weaken p).settle out (by decide) (Or.inl (by decide))⟩

/-- In every run of safe steps the run queue is in order. -/
theorem runq_inOrder (gc : Prog → Prop) (s₀ s : Sched) (fresh : Fresh gc s₀) (run : Run Act.exec (Act.Safe gc) s₀ s) :
    InOrder gc s := by
  obtain ⟨l, inv⟩ := run.invariant (fun s => ∃ l, Inv gc s l) ⟨[], fresh.inv⟩ fun ⟨_, inv⟩ safe ran =>
    Act.exec_inv inv safe ran
  exact ⟨l, inv.core.path, inv.core.path.nodup, inv.core.tail, inv.core.ready⟩

/-- Nothing has run, and 0 is the `Prog` of the collector. -/
def boot : Sched := ⟨none, none, fun _ => none, fun _ => .dead, fun _ => none, fun _ => none, fun _ => false, fun _ => none⟩

def collector (p : Prog) : Prop := p = 0

theorem boot_fresh : Fresh collector boot := by
  refine ⟨rfl, rfl, fun _ _ no => ?_, fun _ _ _ no => ?_, fun _ _ no => ?_⟩
  · cases no
  · cases no
  · cases no

theorem boot_unlisted (p : Prog) : ¬boot.Listed p := by
  rintro ⟨l, path, here⟩
  rw [path.eq_nil] at here
  exact List.not_mem_nil here

/-- `Prog` 1 is made, waits to send, and hears that its channel has gone. -/
theorem runq_killcomm :
    ∃ s, Run Act.exec (Act.Safe collector) boot s ∧ s.state 1 = .ready ∧ InOrder collector s := by
  have free : ¬boot.Held 1 := by
    rintro ⟨up, no⟩
    cases no
  have makes : (Act.addrun 1).Safe collector boot := Or.inr ⟨boot_unlisted 1, fun _ => free⟩
  have sends (s : Sched) : (Act.delrun .send).Safe collector s := fun no => nomatch no
  have hears (s : Sched) : (Act.killcomm [1]).Safe collector s := by
    intro p here same
    rw [List.mem_singleton.mp here] at same
    cases same
  have start : Run Act.exec (Act.Safe collector) boot boot := Run.start
  have made := start.step makes rfl
  have gone := (made.step (sends _) rfl).step (hears _) rfl
  exact ⟨_, gone, rfl, runq_inOrder collector boot _ boot_fresh gone⟩

/-- `Prog` 2, whose debugger waits for it in `dbgblock`, is woken by its partner and started by the debugger before its
process has taken it back. -/
def started : List Act :=
  [.addrun 2, .addrun 1, .delrun .send, .pushrun 2, .setAddrun 2 (some .dbgaddrun), .release 0, .addrun 2, .addrun 2,
    .acquire 0]

theorem started_cycle : ∃ s, Run.steps Act.exec started boot = some s ∧ s.runhd = some 2 ∧ s.link 2 = some 1 ∧
    s.link 1 = some 2 := ⟨_, rfl, rfl, rfl, rfl⟩

/-- It is on the run queue twice. -/
theorem runq_twice : ¬∀ s, Run Act.exec (fun _ _ => True) boot s → InOrder collector s := by
  intro all
  obtain ⟨s, ran, head, second, first⟩ := started_cycle
  obtain ⟨l, path, nodup, -⟩ := all s (Run.of_steps ran)
  rw [head] at path
  obtain ⟨l', rfl, path'⟩ := path.eq_cons
  rw [second] at path'
  obtain ⟨l'', rfl, path''⟩ := path'.eq_cons
  rw [first] at path''
  obtain ⟨m, rfl, -⟩ := path''.eq_cons
  exact (List.nodup_cons.mp nodup).1 (List.mem_cons_of_mem 1 List.mem_cons_self)

end Inferno.Emu.Runq
