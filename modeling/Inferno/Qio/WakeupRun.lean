import Inferno.Qio.Wakeup

namespace Inferno.Qio

open Queue Lib

variable {s₀ s s' : Flow} {m m' : Sys} {e : Event}

/-- Each sleeper has a `Wakeup` to come or is seen by the section that has to call it. -/
structure Flow.Awake (s : Flow) : Prop where
  inv : s.sys.Inv
  limit : 2 ≤ s.sys.q.limit
  alone : s.reader ≠ .idle → s.sys.reading = none
  held : s.writer = .asleep → 0 < s.wr ∨ s.sys.q.Held s.sys.reading.isSome
  about : s.writer = .flow → s.sys.q.About
  starved : s.reader = .asleep → 0 < s.rr ∨ s.sys.q.Starved
  hungry : s.reader = .starved → s.sys.q.Hungry

/-- The claim on the queue follows from the invariant. -/
theorem Flow.Awake.noLost (awake : s.Awake) : s.NoLost := by
  refine ⟨fun asleep idle => ?_, fun asleep more => ?_⟩
  · refine (awake.held asleep).imp_right fun held => ?_
    rcases idle with none | closed
    · exact held.copying awake.inv.ok awake.limit none
    · rw [held.2.1] at closed
      nomatch closed
  · exact (awake.starved asleep).resolve_right fun starved => more starved.2.1

/-- A writer asleep is woken by the section or stays in its sight. -/
theorem op_held (awake : s.Awake) (asleep : s.writer = .asleep) (careful : (Action.op e).Careful s)
    (enabled : e.enabled s = true) (ran : e.exec s.sys = some m') :
    0 < s.wr + (e.wakes s.sys).1.toNat ∨ m'.q.Held m'.reading.isSome := by
  rcases awake.held asleep with pending | held
  · exact Or.inl (by omega)
  · obtain ⟨queue, reading⟩ := exec_queue ran
    have idle := exec_idle ran
    rw [queue, reading]
    suffices woken : (e.wakes s.sys).1 = true ∨ (e.queue s.sys).Held (e.reading s.sys).isSome by
      refine woken.imp_left fun woken => ?_
      rw [woken, Bool.toNat_true]
      omega
    cases e with
    | qget => exact qget_held held
    | qdiscard len => exact qdiscard_held awake.limit len held
    | qconsume len => exact qconsume_held (careful.1 asleep) len held
    | qbread len block =>
      rw [idle] at held
      have still : (Event.qbread len block).reading s.sys = none := idle
      rw [still]
      exact qbread_held awake.inv.ok awake.limit (careful.1 asleep) held
    | qread len =>
      rw [idle] at held
      obtain ⟨first, got, step⟩ : ∃ first, (s.sys.q.qreadTake len).value = .got first ∧ (s.sys.q.qreadTake len).q.Held true :=
        qreadTake_held awake.inv.ok awake.limit (careful.1 asleep) held
      refine Or.inr ?_
      simp only [Event.queue, Event.reading, got]
      exact step
    | qreadDone =>
      obtain ⟨r, reading⟩ := Option.isSome_iff_exists.mp idle
      simp only [Event.wakes, Event.queue, Event.reading, reading]
      exact qreadDone_held (awake.inv.fits r reading) held
    | qbwrite b rest =>
      rw [writer_idle enabled] at asleep
      cases asleep
    | qflush | qclose | qhangup => exact Or.inl rfl
    | qpass | qpassnolim | qproduce | qiwrite | qputback | qaddlist => cases enabled

theorem op_about (awake : s.Awake) (about : s.writer = .flow) (careful : (Action.op e).Careful s)
    (enabled : e.enabled s = true) (ran : e.exec s.sys = some m') : m'.q.About := by
  have before := awake.about about
  have idle := exec_idle ran
  rw [(exec_queue ran).1]
  cases e with
  | qget => exact qget_about awake.limit before
  | qdiscard len => exact qdiscard_about len before
  | qconsume len => exact qconsume_about awake.limit len before
  | qbread len block => exact qbread_about awake.limit len block before
  | qread len => exact qreadTake_about len before
  | qreadDone =>
    obtain ⟨r, reading⟩ := Option.isSome_iff_exists.mp idle
    simp only [Event.queue, reading]
    exact qreadDone_about awake.limit (awake.inv.fits r reading)
      (fun clear opened => careful.2.2 about clear opened rfl r reading) before
  | qbwrite b rest =>
    rw [writer_idle enabled] at about
    cases about
  | qflush =>
    have limit := awake.limit
    have pos : (0 : Int) < s.sys.q.limit := by omega
    exact Or.inr (Or.inl pos)
  | qclose | qhangup => exact Or.inr (Or.inr rfl)
  | qpass | qpassnolim | qproduce | qiwrite | qputback | qaddlist => cases enabled

/-- A writer leaves a block and wakes the reader that waits for it. -/
theorem qbwrite_reader (inv : m.Inv) (b : Block) :
    (m.q.Starved → (m.q.qbwrite b).rr = true ∨ (m.q.qbwrite b).q.Starved) ∧ (m.q.Hungry → (m.q.qbwrite b).q.Hungry) := by
  rcases qbwrite_spec inv.ok inv.queued b with ⟨same, _⟩ | ⟨more, freed⟩
  · rw [same]
    exact ⟨Or.inr, id⟩
  · have some : (m.q.qbwrite b).q.blocks ≠ [] := by
      rw [more.blocks]
      exact List.append_ne_nil_of_right_ne_nil _ (List.cons_ne_nil _ _)
    refine ⟨fun starved => Or.inl ?_, fun _ => Or.inr (Or.inl some)⟩
    have kept : ((m.q.link [b]).account [b]).starve = m.q.starve := by
      rw [link]
      split <;> rfl
    rw [qbwrite] at freed ⊢
    split at freed
    · cases freed
    · split at freed
      · cases freed
      · rename_i closed full
        rw [if_neg closed, if_neg full]
        exact kept.trans starved.1

theorem op_starved (awake : s.Awake) (asleep : s.reader = .asleep) (enabled : e.enabled s = true)
    (ran : e.exec s.sys = some m') : 0 < s.rr + (e.wakes s.sys).2.toNat ∨ m'.q.Starved := by
  rcases awake.starved asleep with pending | starved
  · exact Or.inl (by omega)
  · have idle := exec_idle ran
    rw [(exec_queue ran).1]
    suffices woken : (e.wakes s.sys).2 = true ∨ (e.queue s.sys).Starved by
      refine woken.imp_left fun woken => ?_
      rw [woken, Bool.toNat_true]
      omega
    cases e with
    | qget => exact Or.inr ((qget_leaves _).starved starved)
    | qdiscard len => exact Or.inr ((qdiscard_leaves _ len).starved starved)
    | qconsume len => exact Or.inr ((qconsume_leaves _ len).starved starved)
    | qflush => exact Or.inr ⟨starved.1, rfl, starved.2.2⟩
    | qbwrite b rest => exact (qbwrite_reader awake.inv b).1 starved
    | qread =>
      rw [qread_idle enabled] at asleep
      nomatch asleep
    | qbread =>
      rw [qbread_idle enabled] at asleep
      nomatch asleep
    | qreadDone =>
      rw [awake.alone (by rw [asleep]; exact Reader.noConfusion)] at idle
      nomatch idle
    | qclose | qhangup => exact Or.inl rfl
    | qpass | qpassnolim | qproduce | qiwrite | qputback | qaddlist => nomatch enabled

theorem op_hungry (awake : s.Awake) (about : s.reader = .starved) (careful : (Action.op e).Careful s)
    (enabled : e.enabled s = true) (ran : e.exec s.sys = some m') : m'.q.Hungry := by
  have before := awake.hungry about
  have idle := exec_idle ran
  have keep := careful.2.1 about
  rw [(exec_queue ran).1]
  cases e with
  | qget =>
    refine (qget_leaves _).hungry (fun clear opened more none => keep clear opened ?_) before
    exact qget_nil more none
  | qdiscard len =>
    refine (qdiscard_leaves _ len).hungry (fun clear opened more none => keep clear opened ?_) before
    exact qdiscard_nil more none
  | qconsume len =>
    refine (qconsume_leaves _ len).hungry (fun clear opened _ none => keep clear opened ?_) before
    exact qconsume_nil none
  | qflush =>
    have leaves : Leaves s.sys.q s.sys.q.qflush.q := ⟨rfl, id, fun _ => rfl⟩
    exact leaves.hungry (fun clear opened _ _ => keep clear opened trivial) before
  | qbwrite b rest => exact (qbwrite_reader awake.inv b).2 before
  | qread =>
    rw [qread_idle enabled] at about
    nomatch about
  | qbread =>
    rw [qbread_idle enabled] at about
    nomatch about
  | qreadDone =>
    rw [awake.alone (by rw [about]; exact Reader.noConfusion)] at idle
    nomatch idle
  | qclose | qhangup => exact Or.inr (Or.inr rfl)
  | qpass | qpassnolim | qproduce | qiwrite | qputback | qaddlist => nomatch enabled

theorem op_limit (inv : m.Inv) (ran : e.exec m = some m') : m'.q.limit = m.q.limit := by
  rw [(exec_queue ran).1]
  cases e with
  | qget => exact (fixed_qget m.q).limit
  | qdiscard len => exact (fixed_qdiscard m.q len).limit
  | qconsume len => exact (fixed_qconsume m.q len).limit
  | qpass b rest => exact (fixed_qpass m.q b rest).limit
  | qpassnolim b rest => exact (fixed_qpassnolim m.q b rest).limit
  | qproduce data block => exact (fixed_qproduce m.q data block).limit
  | qbread len block =>
    rcases qbread_cases m.q len block with ⟨_, out⟩ | ⟨b, rest, _, ⟨_, out⟩ | ⟨_, _, ⟨id, _, out⟩ | ⟨_, out⟩⟩⟩
    · simp only [Event.queue, out, (fixed_qwait m.q).limit]
    · simp only [Event.queue, out, (fixed_restart _ _).limit, unlink]
    · simp only [Event.queue, out, (fixed_restart _ _).limit, unlink, qputback]
    · simp only [Event.queue, out, unlink]
  | qread len => exact (fixed_qreadTake m.q len).limit
  | qreadDone =>
    cases reading : m.reading with
    | none => simp only [Event.queue, reading]
    | some r =>
      simp only [Event.queue, reading]
      exact (fixed_qreadDone m.q (inv.fits r reading)).limit
  | qbwrite b rest => exact (fixed_qbwrite m.q b).limit
  | qiwrite data block => exact (fixed_qiwrite m.q data block).limit
  | qaddlist b rest => exact (fixed_link m.q (b :: rest)).limit
  | qputback | qflush | qclose | qhangup => rfl

/-- Only sleeping puts a process to sleep. -/
theorem writer_of_asleep {w w' : Writer} (sleeps : w' = .asleep ∨ w' = .flow) (went : e.writer m w = w') : w = w' := by
  cases e with
  | qbwrite b rest =>
    rw [Event.writer] at went
    split at went <;> (subst went; rcases sleeps with sleeps | sleeps <;> nomatch sleeps)
  | _ => exact went

theorem reader_of_asleep {r : Reader} (went : e.reader m r = .asleep) : r = .asleep := by
  cases e with
  | qread len =>
    dsimp only [Event.reader] at went
    split at went <;> nomatch went
  | qbread len block =>
    dsimp only [Event.reader] at went
    split at went <;> nomatch went
  | _ => exact went

theorem qwait_starved {q : Queue} (starved : q.qwait.1 = .starved) : q.qwait.2.starve = true := by
  rw [qwait] at starved ⊢
  split at starved
  · cases starved
  · rename_i none
    rw [if_neg none]
    split at starved
    · dsimp only at starved
      split at starved
      · cases starved
      · split at starved <;> cases starved
    · rename_i opened
      rw [if_neg opened]

/-- A reader that is about to sleep was so before, or has just set `Qstarve`. -/
theorem reader_of_starved {r : Reader} (ran : e.exec m = some m') (went : e.reader m r = .starved) :
    r = .starved ∨ m'.q.starve = true ∧ m'.reading = none := by
  obtain ⟨queue, reading⟩ := exec_queue ran
  have idle := exec_idle ran
  rw [queue, reading]
  cases e with
  | qread len =>
    refine Or.inr ?_
    obtain ⟨p, freed, _, _, _, ⟨_, out⟩ | ⟨first, q', out, _⟩⟩ := qreadTake_cases m.q len
    · simp only [Event.reader, Event.queue, Event.reading, out] at went ⊢
      split at went
      · rename_i starved
        injection starved with starved
        exact ⟨qwait_starved starved, trivial⟩
      · cases went
    · simp only [Event.reader, out] at went
      cases went
  | qbread len block =>
    refine Or.inr ⟨?_, idle⟩
    rcases qbread_cases m.q len block with ⟨_, out⟩ | ⟨b, rest, _, ⟨_, out⟩ | ⟨_, _, ⟨id, _, out⟩ | ⟨_, out⟩⟩⟩
    · simp only [Event.reader, Event.queue, out] at went ⊢
      split at went
      · rename_i starved
        injection starved with starved
        exact qwait_starved starved
      · cases went
    · simp only [Event.reader, out] at went
      cases went
    · simp only [Event.reader, out] at went
      cases went
    · simp only [Event.reader, out] at went
      cases went
  | _ => exact Or.inl went

theorem op_alone (awake : s.Awake) (busy : s.reader ≠ .idle) (enabled : e.enabled s = true)
    (ran : e.exec s.sys = some m') : m'.reading = none := by
  have none := awake.alone busy
  rw [(exec_queue ran).2]
  cases e with
  | qread len =>
    exact absurd (qread_idle enabled) busy
  | qreadDone => rfl
  | _ => exact none

theorem op_awake (awake : s.Awake) (valid : e.Valid s.sys) (careful : (Action.op e).Careful s)
    (went : (Action.op e).exec s = some s') : s'.Awake := by
  rw [Action.exec] at went
  split at went
  · rename_i enabled
    obtain ⟨m', ran, rfl⟩ := Option.map_eq_some_iff.mp went
    obtain ⟨lost, moved, _⟩ := exec_moved awake.inv valid ran
    refine ⟨moved.inv awake.inv, ?_, fun busy => ?_, fun asleep => ?_, fun about => ?_, fun asleep => ?_, fun about => ?_⟩
    · have limit := op_limit awake.inv ran
      have least := awake.limit
      dsimp only
      omega
    · cases after : e.reader s.sys s.reader with
      | idle => exact absurd after busy
      | asleep =>
        have before := reader_of_asleep after
        exact op_alone awake (by rw [before]; exact Reader.noConfusion) enabled ran
      | starved =>
        rcases reader_of_starved ran after with before | ⟨_, none⟩
        · exact op_alone awake (by rw [before]; exact Reader.noConfusion) enabled ran
        · exact none
    · exact op_held awake (writer_of_asleep (Or.inl rfl) asleep) careful enabled ran
    · exact op_about awake (writer_of_asleep (Or.inr rfl) about) careful enabled ran
    · exact op_starved awake (reader_of_asleep asleep) enabled ran
    · rcases reader_of_starved ran about with before | ⟨set, _⟩
      · exact op_hungry awake before careful enabled ran
      · exact Or.inl set
  · nomatch went

/-- Nobody sleeps without a reason, and whoever sleeps is seen. -/
theorem sleepWr_awake (awake : s.Awake) (went : Action.sleepWr.exec s = some s') : s'.Awake := by
  rw [Action.exec] at went
  split at went
  · rename_i about
    injection went with went
    subst went
    refine ⟨awake.inv, awake.limit, awake.alone, fun asleep => ?_, fun flow => ?_, awake.starved, awake.hungry⟩
    · dsimp only at asleep ⊢
      split at asleep
      · nomatch asleep
      · rename_i full
        simp only [qnotfull, Bool.or_eq_true, decide_eq_true_eq, not_or] at full
        have set : s.sys.q.flow = true :=
          (awake.about about).resolve_right fun other => other.elim full.1 full.2
        have mark := (half_le_limit awake.limit).2
        exact Or.inr ⟨set, Bool.eq_false_iff.mpr full.2, Or.inr (by omega)⟩
    · dsimp only at flow
      split at flow <;> nomatch flow
  · nomatch went

theorem sleepRr_awake (awake : s.Awake) (went : Action.sleepRr.exec s = some s') : s'.Awake := by
  rw [Action.exec] at went
  split at went
  · rename_i about
    injection went with went
    subst went
    have none := awake.alone (by rw [about]; exact Reader.noConfusion)
    refine ⟨awake.inv, awake.limit, fun _ => none, awake.held, awake.about, fun asleep => ?_, fun starved => ?_⟩
    · dsimp only at asleep ⊢
      split at asleep
      · nomatch asleep
      · rename_i idle
        simp only [notempty, Bool.or_eq_true, decide_eq_true_eq, not_or, not_not] at idle
        have set : s.sys.q.starve = true :=
          (awake.hungry about).resolve_right fun other => other.elim (fun more => more idle.2) idle.1
        exact Or.inr ⟨set, idle.2, Bool.eq_false_iff.mpr idle.1⟩
    · dsimp only at starved
      split at starved <;> nomatch starved
  · nomatch went

/-- The steps without a section that change one process only. -/
theorem step_awake {a : Action} (awake : s.Awake) (valid : a.Valid s) (careful : a.Careful s) (went : a.exec s = some s') :
    s'.Awake := by
  cases a with
  | op e => exact op_awake awake valid careful went
  | sleepWr => exact sleepWr_awake awake went
  | sleepRr => exact sleepRr_awake awake went
  | test =>
    rw [Action.exec] at went
    split at went
    · injection went with went
      subst went
      refine ⟨awake.inv, awake.limit, awake.alone, fun asleep => ?_, fun flow => ?_, awake.starved, awake.hungry⟩
      · dsimp only at asleep
        split at asleep <;> nomatch asleep
      · dsimp only at flow
        split at flow <;> nomatch flow
    · nomatch went
  | setFlow =>
    rw [Action.exec] at went
    split at went
    · injection went with went
      subst went
      have inv : ({ s.sys with q := { s.sys.q with flow := true } } : Sys).Inv :=
        ⟨⟨awake.inv.ok.len, awake.inv.ok.dlen, awake.inv.ok.last⟩, awake.inv.nodup, awake.inv.known, awake.inv.fits⟩
      exact ⟨inv, awake.limit, awake.alone, fun asleep => (nomatch asleep), fun _ => Or.inl rfl, awake.starved, awake.hungry⟩
    · nomatch went
  | wakeupWr =>
    rw [Action.exec] at went
    split at went
    · injection went with went
      subst went
      refine ⟨awake.inv, awake.limit, awake.alone, fun asleep => ?_, fun flow => ?_, awake.starved, awake.hungry⟩
      · dsimp only at asleep
        split at asleep
        · nomatch asleep
        · rename_i other
          exact absurd asleep other
      · dsimp only at flow
        split at flow
        · nomatch flow
        · exact awake.about flow
    · nomatch went
  | wakeupRr =>
    rw [Action.exec] at went
    split at went
    · injection went with went
      subst went
      refine ⟨awake.inv, awake.limit, fun busy => ?_, awake.held, awake.about, fun asleep => ?_, fun starved => ?_⟩
      · dsimp only at busy
        split at busy
        · exact absurd rfl busy
        · exact awake.alone busy
      · dsimp only at asleep
        split at asleep
        · nomatch asleep
        · rename_i other
          exact absurd asleep other
      · dsimp only at starved
        split at starved
        · nomatch starved
        · exact awake.hungry starved
    · nomatch went

theorem Flow.Fresh.awake (fresh : s.Fresh) : s.Awake := by
  refine ⟨fresh.sys.inv, fresh.limit, fun busy => absurd fresh.reader busy, fun asleep => ?_, fun flow => ?_,
    fun asleep => ?_, fun starved => ?_⟩
  · rw [fresh.writer] at asleep
    nomatch asleep
  · rw [fresh.writer] at flow
    nomatch flow
  · rw [fresh.reader] at asleep
    nomatch asleep
  · rw [fresh.reader] at starved
    nomatch starved

/-- In a run of careful steps no sleeper is forgotten. -/
theorem no_lost_wakeup (fresh : s₀.Fresh) (run : Run Action.exec (fun a s => a.Valid s ∧ a.Careful s) s₀ s) : s.NoLost :=
  (run.invariant Flow.Awake fresh.awake fun awake ⟨valid, careful⟩ went => step_awake awake valid careful went).noLost

def Flow.opened (limit : Int) : Flow := ⟨Sys.opened (qopen limit false false), .idle, .idle, 0, 0⟩

/-- The writer sleeps, and `qget` takes its block and has it to wake. -/
theorem no_lost_wakeup_asleep : ∃ s, Run Action.exec (fun a s => a.Valid s ∧ a.Careful s) (Flow.opened 2) s ∧
    s.writer = .asleep ∧ s.sys.q.blocks = [] ∧ s.wr = 1 ∧ s.NoLost := by
  have fresh : (Flow.opened 2).Fresh := ⟨fresh_opened _ _ _, by decide, rfl, rfl⟩
  have run₀ : Run Action.exec (fun a s => a.Valid s ∧ a.Careful s) (Flow.opened 2) _ := Run.start
  have run₁ := run₀.step (a := Action.op (.qbwrite (newBlock 1 [97, 98]) []))
    ⟨(by decide : (Event.qbwrite (newBlock 1 [97, 98]) []).Valid _),
      fun _ => trivial, fun starved => (nomatch starved), fun flow => (nomatch flow)⟩ rfl
  have run₂ := run₁.step (a := Action.test) ⟨trivial, trivial⟩ rfl
  have run₃ := run₂.step (a := Action.setFlow) ⟨trivial, trivial⟩ rfl
  have run₄ := run₃.step (a := Action.sleepWr) ⟨trivial, trivial⟩ rfl
  have run₅ := run₄.step (a := Action.op .qget)
    ⟨trivial, fun _ => trivial, fun starved => (nomatch starved), fun flow => (nomatch flow)⟩ rfl
  exact ⟨_, run₅, by decide, by decide, by decide, no_lost_wakeup fresh run₅⟩

/-- `Qstarve` is answered before the reader sleeps and the queue is emptied again, so that
the next writer does not wake it. `Qflow` is answered while a `qread` has the
block that fills the queue, so that the writer sleeps and nobody sees it. -/
theorem wakeup_lost :
    (∃ s, Run Action.exec Action.Valid (Flow.opened 4) s ∧
      s.reader = .asleep ∧ ids s.sys.q.blocks = [2] ∧ s.wr = 0 ∧ s.rr = 0) ∧
    ∃ s, Run Action.exec Action.Valid (Flow.opened 4) s ∧
      s.writer = .asleep ∧ s.sys.q.blocks = [] ∧ s.sys.reading.isSome = false ∧ s.wr = 0 ∧ s.rr = 0 := by
  have run₀ : Run Action.exec Action.Valid (Flow.opened 4) _ := Run.start
  constructor
  · have run₁ := run₀.step (a := Action.op (.qread 4)) trivial rfl
    have run₂ := run₁.step (a := Action.op (.qbwrite (newBlock 1 [97]) []))
      (by decide : (Event.qbwrite (newBlock 1 [97]) []).Valid _) rfl
    have run₃ := run₂.step (a := Action.wakeupRr) trivial rfl
    have run₄ := run₃.step (a := Action.test) trivial rfl
    have run₅ := run₄.step (a := Action.op .qget) trivial rfl
    have run₆ := run₅.step (a := Action.sleepRr) trivial rfl
    have run₇ := run₆.step (a := Action.op (.qbwrite (newBlock 2 [98]) []))
      (by decide : (Event.qbwrite (newBlock 2 [98]) []).Valid _) rfl
    exact ⟨_, run₇, by decide, by decide, by decide, by decide⟩
  · have run₁ := run₀.step (a := Action.op (.qbwrite (newBlock 1 [97, 98, 99, 100]) []))
      (by decide : (Event.qbwrite (newBlock 1 [97, 98, 99, 100]) []).Valid _) rfl
    have run₂ := run₁.step (a := Action.wakeupRr) trivial rfl
    have run₃ := run₂.step (a := Action.test) trivial rfl
    have run₄ := run₃.step (a := Action.setFlow) trivial rfl
    have run₅ := run₄.step (a := Action.op (.qread 1)) trivial rfl
    have run₆ := run₅.step (a := Action.op (.qdiscard 1)) trivial rfl
    have run₇ := run₆.step (a := Action.wakeupWr) trivial rfl
    have run₈ := run₇.step (a := Action.op .qreadDone) trivial rfl
    have run₉ := run₈.step (a := Action.sleepWr) trivial rfl
    have run := run₉.step (a := Action.op .qget) trivial rfl
    exact ⟨_, run, by decide, by decide, by decide, by decide, by decide⟩

end Inferno.Qio
