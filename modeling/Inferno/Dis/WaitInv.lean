import Inferno.Dis.WaitComm

namespace Inferno.Dis

open Progq

variable {V : Type} {s s' : Sys V} {p q r : Pid} {d : Dir} {c : Cid}

theorem count_filter_ne (other : r ≠ q) (ps : List Pid) : (ps.filter (· ≠ q)).count r = ps.count r :=
  List.count_filter (by simpa using other)

/-- A Prog stays in place when its nodes and what it is doing are the same. -/
theorem Sys.Placed.congr (placed : s.Placed r)
    (count : ∀ e c, (waiting (s'.queue e c)).count r = (waiting (s.queue e c)).count r)
    (state : (s'.prog r).state = (s.prog r).state) (chan : (s'.prog r).chan = (s.prog r).chan)
    (alt : (s'.prog r).alt = (s.prog r).alt) : s'.Placed r where
  waits e c := by
    rw [← List.count_pos_iff, count, List.count_pos_iff, placed.waits e c, Sys.Blocked, Sys.Blocked, state, chan, alt]
  once e blocked := by
    rw [state] at blocked
    rw [count, chan]
    exact placed.once e blocked

/-- A Prog that is not blocked is in no queue. -/
theorem Sys.Placed.idle (noAlt : (s.prog r).state ≠ .alt) (unblocked : ∀ e : Dir, (s.prog r).state ≠ e.blocked)
    (absent : ∀ e c, r ∉ waiting (s.queue e c)) : s.Placed r where
  waits e c := by
    refine ⟨fun here => absurd here (absent e c), ?_⟩
    rintro (⟨blocked, _⟩ | ⟨alternating, _⟩)
    · exact absurd blocked (unblocked e)
    · exact absurd alternating noAlt
  once e blocked := absurd blocked (unblocked e)

theorem Dir.ready_ne_blocked (e : Dir) : ProgState.ready ≠ e.blocked := by
  cases e <;> exact ProgState.noConfusion

/-- A ready Prog is in no queue. -/
theorem Sys.Placed.absent (placed : s.Placed p) (ready : (s.prog p).state = .ready) (e : Dir) (c : Cid) :
    p ∉ waiting (s.queue e c) := by
  intro here
  rcases (placed.waits e c).mp here with ⟨blocked, _⟩ | ⟨alternating, _⟩
  · exact e.ready_ne_blocked (ready.symm.trans blocked)
  · cases ready.symm.trans alternating

theorem Sys.WaitInv.same (inv : s.WaitInv) (same : SameWaits s s') : s'.WaitInv where
  sound d c := by
    rw [same.queue]
    exact inv.sound d c
  placed r := (inv.placed r).congr (fun e c => by rw [same.queue]) (same.state r) (same.chan r) (same.alt r)
  ok := same.ok inv.ok
  running r member := by
    rw [same.runq] at member
    rw [same.state]
    exact inv.running r member
  nodup := by
    rw [same.runq]
    exact inv.nodup

theorem Cleared.placed_other (cleared : Cleared q s s') (placed : s.Placed r) (other : r ≠ q) : s'.Placed r :=
  placed.congr (fun e c => by rw [cleared.queue, waiting_ofWaiting, count_filter_ne other]) (cleared.state r other)
    (cleared.chan r other) (cleared.alt r other)

theorem Cleared.placed_self (cleared : Cleared q s s') (noAlt : (s'.prog q).state ≠ .alt)
    (unblocked : ∀ e : Dir, (s'.prog q).state ≠ e.blocked) : s'.Placed q :=
  Sys.Placed.idle noAlt unblocked fun e c => by
    rw [cleared.queue, waiting_ofWaiting]
    intro member
    simpa using (List.mem_filter.mp member).2

/-- A Prog was taken out of the queues and is not blocked any more. -/
theorem Sys.WaitInv.cleared (inv : s.WaitInv) (cleared : Cleared q s s') (noAlt : (s'.prog q).state ≠ .alt)
    (unblocked : ∀ e : Dir, (s'.prog q).state ≠ e.blocked) (running : ∀ r ∈ s'.runq, (s'.prog r).state = .ready)
    (nodup : s'.runq.Nodup) : s'.WaitInv where
  sound d c := by
    rw [cleared.queue]
    exact sound_ofWaiting _
  placed r := by
    by_cases same : r = q
    · rw [same]
      exact cleared.placed_self noAlt unblocked
    · exact cleared.placed_other (inv.placed r) same
  ok := cleared.ok inv.ok
  running := running
  nodup := nodup

theorem Sys.WaitInv.not_running (inv : s.WaitInv) (notReady : (s.prog q).state ≠ .ready) : q ∉ s.runq :=
  fun member => notReady (inv.running q member)

theorem Sys.WaitInv.woken (inv : s.WaitInv) (woken : Woken q s s') (notReady : (s.prog q).state ≠ .ready) :
    s'.WaitInv := by
  have absent := inv.not_running notReady
  refine inv.cleared woken.toCleared (by rw [woken.ready]; exact ProgState.noConfusion)
    (fun e => by rw [woken.ready]; exact e.ready_ne_blocked) (fun r member => ?_) ?_
  · rw [woken.runq, List.mem_append, List.mem_singleton] at member
    rcases member with before | rfl
    · rw [woken.state r fun same => absent (same ▸ before)]
      exact inv.running r before
    · exact woken.ready
  · rw [woken.runq]
    exact List.nodup_append.mpr ⟨inv.nodup, List.pairwise_singleton _ q,
      fun r before r' here same => absent (by rw [← List.mem_singleton.mp here, ← same]; exact before)⟩

theorem Sys.WaitInv.notReady_of_waiting (inv : s.WaitInv) (here : q ∈ waiting (s.queue d c)) :
    (s.prog q).state ≠ .ready :=
  fun ready => (inv.placed q).absent ready d c here

/-- The Progs behind the head of the run queue are ready and differ from it. -/
theorem Sys.WaitInv.tail (inv : s.WaitInv) (turn : s.runq.head? = some p) :
    (∀ r ∈ s.runq.tail, r ≠ p ∧ (s.prog r).state = .ready) ∧ s.runq.tail.Nodup := by
  obtain ⟨rest, queued⟩ : ∃ rest, s.runq = p :: rest := by
    cases known : s.runq with
    | nil => simp [known] at turn
    | cons x rest =>
      rw [known] at turn
      cases turn
      exact ⟨rest, rfl⟩
  have nodup := inv.nodup
  rw [queued, List.nodup_cons] at nodup
  rw [queued]
  refine ⟨fun r member => ⟨fun same => nodup.1 (same ▸ member), inv.running r ?_⟩, nodup.2⟩
  rw [queued]
  exact List.mem_cons_of_mem p member

theorem Sys.WaitInv.turn (inv : s.WaitInv) (turn : s.runq.head? = some p) : (s.prog p).state = .ready :=
  inv.running p (List.mem_of_mem_head? turn)

theorem Sys.WaitInv.blocks (inv : s.WaitInv) (turn : s.runq.head? = some p) (blocks : Blocks p d c s s') :
    s'.WaitInv where
  sound e c' := by
    by_cases here : e = d ∧ c' = c
    · obtain ⟨rfl, rfl⟩ := here
      rw [blocks.here]
      exact sound_ofWaiting _
    · rw [blocks.elsewhere e c' here]
      exact inv.sound e c'
  placed r := by
    have absent := (inv.placed p).absent (inv.turn turn)
    by_cases same : r = p
    · subst same
      refine ⟨fun e c' => ?_, fun e blocked => ?_⟩
      · by_cases here : e = d ∧ c' = c
        · obtain ⟨rfl, rfl⟩ := here
          rw [blocks.here, waiting_ofWaiting]
          simp [Sys.Blocked, blocks.state, blocks.chan]
        · rw [blocks.elsewhere e c' here]
          refine ⟨fun there => absurd there (absent e c'), ?_⟩
          rintro (⟨blocked, chan⟩ | ⟨alternating, _⟩)
          · refine absurd ⟨?_, chan.symm.trans blocks.chan⟩ here
            have equal := blocked.symm.trans blocks.state
            cases e <;> cases d <;> first | rfl | cases equal
          · have equal := alternating.symm.trans blocks.state
            cases d <;> cases equal
      · have equal := blocked.symm.trans blocks.state
        have sameDir : e = d := by cases e <;> cases d <;> first | rfl | cases equal
        rw [sameDir, blocks.chan, blocks.here, waiting_ofWaiting, List.count_append,
          List.count_eq_zero.mpr (absent d c), List.count_singleton_self]
    · have unchanged := blocks.others r same
      refine (inv.placed r).congr (fun e c' => ?_) (by rw [unchanged]) (by rw [unchanged]) (by rw [unchanged])
      by_cases here : e = d ∧ c' = c
      · obtain ⟨rfl, rfl⟩ := here
        have notLast : [p].count r = 0 := List.count_eq_zero.mpr (by simpa using same)
        rw [blocks.here, waiting_ofWaiting, List.count_append, notLast, Nat.add_zero]
      · rw [blocks.elsewhere e c' here]
  ok := blocks.ok inv.ok
  running r member := by
    rw [blocks.runq] at member
    obtain ⟨other, ready⟩ := (inv.tail turn).1 r member
    rw [blocks.others r other]
    exact ready
  nodup := by
    rw [blocks.runq]
    exact (inv.tail turn).2

/-- A communication by the running Prog keeps the invariant. -/
theorem Sys.WaitInv.comm {e : Dir} {able : Bool} (inv : s.WaitInv) (turn : s.runq.head? = some p)
    (comm : Comm p d e c able s s') : s'.WaitInv := by
  cases comm with
  | buffered _ same => exact inv.same same
  | blocked _ _ blocks => exact inv.blocks turn blocks
  | partner q first woken => exact inv.woken woken (inv.notReady_of_waiting (List.mem_of_mem_head? first))

theorem others_of_count_one {ps : List Pid} (once : ps.count p = 1) : ps.length ≤ 1 ∨ ∃ r ∈ ps, r ≠ p := by
  by_cases other : ∃ r ∈ ps, r ≠ p
  · exact Or.inr other
  · have all : ps = List.replicate ps.length p :=
      List.eq_replicate_of_mem fun r member => by_contra fun differs => other ⟨r, member, differs⟩
    rw [all, List.count_replicate_self] at once
    exact Or.inl once.le

/-- A Prog blocked on one channel is taken out of its queue. -/
theorem Sys.WaitInv.unblock (inv : s.WaitInv) (blocked : (s.prog p).state = d.blocked) :
    ∃ t, cqdelp p (s.queue d (s.prog p).chan) = some t ∧
      Cleared p s (s.setQueue d (s.prog p).chan t) := by
  have others := others_of_count_one ((inv.placed p).once d blocked)
  refine ⟨_, ?_, (Freed.single rfl).cleared inv.sound fun e c' outside => ?_⟩
  · conv_lhs => rw [(inv.sound d _).eq]
    exact cqdelp_ofWaiting others
  · have here : p ∈ waiting (s.queue d (s.prog p).chan) :=
      ((inv.placed p).waits d _).mpr (Or.inl ⟨blocked, rfl⟩)
    refine (inv.placed p).not_waiting_elsewhere ?_ here fun same => outside ?_
    · rw [blocked]
      cases d <;> exact ProgState.noConfusion
    · rw [same.1, same.2]
      exact List.mem_singleton_self _

/-- Taking a blocked Prog out of the queues. -/
theorem Sys.WaitInv.dequeue (inv : s.WaitInv) (clear : (s.prog p).state = .alt → s.Clear p)
    (blocked : (s.prog p).state = .alt ∨ ∃ e : Dir, (s.prog p).state = e.blocked) :
    ∃ s', s.dequeue p = some s' ∧ Cleared p s s' ∧ s'.runq = s.runq := by
  rcases blocked with alternating | ⟨e, blocked⟩
  · obtain ⟨s', ran, freed⟩ := altdone_freed (s.prog p).alt none none inv.sound (clear alternating)
    refine ⟨s', by simp only [Sys.dequeue, alternating, ran], freed.cleared inv.sound fun e c outside here => ?_,
      freed.runq⟩
    rcases ((inv.placed p).waits e c).mp here with ⟨state, _⟩ | ⟨_, inside⟩
    · rw [alternating] at state
      cases e <;> cases state
    · exact outside (mem_queuesOf_chans.mpr inside)
  · obtain ⟨t, deleted, cleared⟩ := inv.unblock blocked
    refine ⟨_, ?_, cleared, rfl⟩
    cases e with
    | send => simp only [Sys.dequeue, show (s.prog p).state = .send from blocked, deleted, Option.bind_eq_bind,
        Option.bind_some, Option.pure_def]
    | recv => simp only [Sys.dequeue, show (s.prog p).state = .recv from blocked, deleted, Option.bind_eq_bind,
        Option.bind_some, Option.pure_def]

/-- The states in which a Prog is in queues. -/
theorem blocked_cases (state : ProgState) :
    (state = .alt ∨ ∃ e : Dir, state = e.blocked) ∨ state ≠ .alt ∧ ∀ e : Dir, state ≠ e.blocked := by
  cases state with
  | alt => exact Or.inl (Or.inl rfl)
  | send => exact Or.inl (Or.inr ⟨.send, rfl⟩)
  | recv => exact Or.inl (Or.inr ⟨.recv, rfl⟩)
  | _ => exact Or.inr ⟨ProgState.noConfusion, fun e => by cases e <;> exact ProgState.noConfusion⟩

theorem Sys.WaitInv.exprog (inv : s.WaitInv) (clear : (s.prog p).state = .alt → s.Clear p) :
    ∃ s', s.exprog p = some s' ∧ s'.WaitInv := by
  rcases blocked_cases (s.prog p).state with blocked | ⟨noAlt, unblocked⟩
  · obtain ⟨t, ran, cleared, runq⟩ := inv.dequeue clear blocked
    have woken : Woken p s (t.addrun p) :=
      ⟨cleared.then_setProg _ _, by simp [Sys.addrun, Sys.setProg], by simp [Sys.addrun, Sys.setProg, runq]⟩
    refine ⟨t.addrun p, ?_, inv.woken woken ?_⟩
    · rcases blocked with state | ⟨e, state⟩
      · simp [Sys.exprog, state, ran]
      · cases e <;> simp [Sys.exprog, state, Dir.blocked, ran]
    · rcases blocked with state | ⟨e, state⟩
      · rw [state]
        exact ProgState.noConfusion
      · rw [state]
        exact e.ready_ne_blocked.symm
  · refine ⟨s, ?_, inv⟩
    rw [Sys.exprog]
    split
    · exact absurd ‹_› noAlt
    · exact absurd ‹_› (unblocked .send)
    · exact absurd ‹_› (unblocked .recv)
    · rfl

/-- A Prog that is not blocked has nothing to leave. -/
theorem Sys.WaitInv.cleared_idle (inv : s.WaitInv) (noAlt : (s.prog p).state ≠ .alt)
    (unblocked : ∀ e : Dir, (s.prog p).state ≠ e.blocked) : Cleared p s s where
  queue e c := (inv.sound e c).filter_of_not_waiting fun here => by
    rcases ((inv.placed p).waits e c).mp here with ⟨blocked, _⟩ | ⟨alternating, _⟩
    · exact unblocked e blocked
    · exact noAlt alternating
  state _ _ := rfl
  chan _ _ := rfl
  alt _ _ := rfl
  ok fine := fine

/-- A Prog out of the queues and of the run queue may be in any state that is not blocked. -/
theorem Sys.WaitInv.retired (inv : s.WaitInv) (cleared : Cleared p s s') {dead : ProgState} (noAlt : dead ≠ .alt)
    (unblocked : ∀ e : Dir, dead ≠ e.blocked) {runq : List Pid} (nodup : runq.Nodup)
    (others : ∀ r ∈ runq, r ≠ p ∧ r ∈ s.runq) : { s'.setState p dead with runq }.WaitInv := by
  have state : ({ s'.setState p dead with runq }.prog p).state = dead := by simp [Sys.setState, Sys.setProg]
  have gone : Cleared p s { s'.setState p dead with runq } := cleared.then_setProg _ runq
  refine inv.cleared gone (by rwa [state]) (by rwa [state]) (fun r member => ?_) nodup
  obtain ⟨other, before⟩ := others r member
  rw [gone.state r other]
  exact inv.running r before

theorem Sys.WaitInv.killprog (inv : s.WaitInv) (debug : Bool) (clear : (s.prog p).state = .alt → s.Clear p) :
    ∃ s', s.killprog debug p = some s' ∧ s'.WaitInv := by
  have exiting : ProgState.exiting ≠ .alt ∧ ∀ e : Dir, ProgState.exiting ≠ e.blocked :=
    ⟨ProgState.noConfusion, fun e => by cases e <;> exact ProgState.noConfusion⟩
  have dead : (if debug then ProgState.broken else .exiting) ≠ .alt ∧
      ∀ e : Dir, (if debug then ProgState.broken else .exiting) ≠ e.blocked := by
    cases debug
    · exact exiting
    · exact ⟨ProgState.noConfusion, fun e => by cases e <;> exact ProgState.noConfusion⟩
  by_cases turn : s.runq.head? = some p
  · have ready := inv.turn turn
    have idle := inv.cleared_idle (p := p) (by rw [ready]; exact ProgState.noConfusion)
      (fun e => by rw [ready]; exact e.ready_ne_blocked)
    refine ⟨s.delrun p .exiting, by simp [Sys.killprog, turn], ?_⟩
    exact inv.retired idle exiting.1 exiting.2 (inv.tail turn).2
      fun r member => ⟨((inv.tail turn).1 r member).1, List.mem_of_mem_tail member⟩
  · simp only [Sys.killprog, if_neg turn]
    rcases blocked_cases (s.prog p).state with blocked | ⟨noAlt, unblocked⟩
    · obtain ⟨t, ran, cleared, runq⟩ := inv.dequeue clear blocked
      have notReady : (s.prog p).state ≠ .ready := by
        rcases blocked with state | ⟨e, state⟩
        · rw [state]
          exact ProgState.noConfusion
        · rw [state]
          exact e.ready_ne_blocked.symm
      refine ⟨t.setState p (if debug then .broken else .exiting), ?_, ?_⟩
      · rcases blocked with state | ⟨e, state⟩
        · simp [state, ran]
        · cases e <;> simp [state, Dir.blocked, ran]
      · have kept : t.runq.Nodup := by
          rw [runq]
          exact inv.nodup
        refine inv.retired cleared dead.1 dead.2 kept fun r member => ?_
        rw [runq] at member
        exact ⟨fun same => inv.not_running notReady (same ▸ member), member⟩
    · have idle := inv.cleared_idle noAlt unblocked
      have outside : (s.prog p).state ≠ .ready → ∀ r ∈ s.runq, r ≠ p ∧ r ∈ s.runq :=
        fun notReady r member => ⟨fun same => inv.not_running notReady (same ▸ member), member⟩
      cases state : (s.prog p).state with
      | alt => exact absurd state noAlt
      | send => exact absurd state (unblocked .send)
      | recv => exact absurd state (unblocked .recv)
      | ready =>
        refine ⟨_, rfl, inv.retired idle dead.1 dead.2 (inv.nodup.erase p) fun r member => ?_⟩
        exact ⟨((inv.nodup.mem_erase_iff).mp member).1, List.mem_of_mem_erase member⟩
      | release =>
        exact ⟨_, rfl, inv.retired idle exiting.1 exiting.2 inv.nodup (outside (by simp [state]))⟩
      | exiting => exact ⟨s, rfl, inv⟩
      | broken => exact ⟨_, rfl, inv.retired idle dead.1 dead.2 inv.nodup (outside (by simp [state]))⟩
      | debug => exact ⟨_, rfl, inv.retired idle dead.1 dead.2 inv.nodup (outside (by simp [state]))⟩

end Inferno.Dis
