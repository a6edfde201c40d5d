import Inferno.Dis.WaitRelease

namespace Inferno.Dis

open Progq

variable {V : Type} {s s' s'' : Sys V} {p q : Pid} {d : Dir} {c : Cid} {ps : List Pid}

/-- Nothing the wait queues are about has changed. -/
structure SameWaits (s s' : Sys V) : Prop where
  queue : ∀ e c, s'.queue e c = s.queue e c
  state : ∀ r, (s'.prog r).state = (s.prog r).state
  chan : ∀ r, (s'.prog r).chan = (s.prog r).chan
  alt : ∀ r, (s'.prog r).alt = (s.prog r).alt
  runq : s'.runq = s.runq
  ok : (∀ c, (s.chan c).Ok) → ∀ c, (s'.chan c).Ok

theorem SameWaits.refl : SameWaits s s :=
  ⟨fun _ _ => rfl, fun _ => rfl, fun _ => rfl, fun _ => rfl, rfl, fun ok => ok⟩

theorem SameWaits.trans (first : SameWaits s s') (next : SameWaits s' s'') : SameWaits s s'' :=
  ⟨fun e c => (next.queue e c).trans (first.queue e c), fun r => (next.state r).trans (first.state r),
    fun r => (next.chan r).trans (first.chan r), fun r => (next.alt r).trans (first.alt r),
    next.runq.trans first.runq, fun ok => next.ok (first.ok ok)⟩

theorem SameWaits.store (a : Addr) (v : V) : SameWaits s (s.store a v) :=
  ⟨fun _ _ => rfl, fun _ => rfl, fun _ => rfl, fun _ => rfl, rfl, fun ok => ok⟩

theorem SameWaits.setProg {pr : Prog} (state : pr.state = (s.prog p).state) (chan : pr.chan = (s.prog p).chan)
    (alt : pr.alt = (s.prog p).alt) : SameWaits s (s.setProg p pr) := by
  refine ⟨fun _ _ => rfl, fun r => ?_, fun r => ?_, fun r => ?_, rfl, fun ok => ok⟩ <;>
  · by_cases same : r = p
    · subst same
      simp [Sys.setProg, state, chan, alt]
    · simp [Sys.setProg, same]

theorem SameWaits.setChan {ch : Channel V} (send : ch.send = (s.chan c).send) (recv : ch.recv = (s.chan c).recv)
    (fine : (s.chan c).Ok → ch.Ok) : SameWaits s (s.setChan c ch) := by
  refine ⟨fun e c' => ?_, fun _ => rfl, fun _ => rfl, fun _ => rfl, rfl, fun ok c' => ?_⟩ <;>
  by_cases same : c' = c
  · subst same
    cases e <;> simp [Sys.queue, Sys.setChan, Channel.queue, send, recv]
  · simp [Sys.queue, Sys.setChan, same]
  · subst same
    simpa [Sys.setChan] using fine (ok c')
  · simpa [Sys.setChan, same] using ok c'

/-- The Prog `q` has left every queue. -/
structure Cleared (q : Pid) (s s' : Sys V) : Prop where
  queue : ∀ e c, s'.queue e c = ofWaiting ((waiting (s.queue e c)).filter (· ≠ q))
  state : ∀ r, r ≠ q → (s'.prog r).state = (s.prog r).state
  chan : ∀ r, r ≠ q → (s'.prog r).chan = (s.prog r).chan
  alt : ∀ r, r ≠ q → (s'.prog r).alt = (s.prog r).alt
  ok : (∀ c, (s.chan c).Ok) → ∀ c, (s'.chan c).Ok

theorem Cleared.then_same (cleared : Cleared q s s') (same : SameWaits s' s'') : Cleared q s s'' :=
  ⟨fun e c => (same.queue e c).trans (cleared.queue e c), fun r other => (same.state r).trans (cleared.state r other),
    fun r other => (same.chan r).trans (cleared.chan r other), fun r other => (same.alt r).trans (cleared.alt r other),
    fun ok => same.ok (cleared.ok ok)⟩

/-- What becomes of the Prog itself does not matter. -/
theorem Cleared.then_setProg (cleared : Cleared q s s') (pr : Prog) (runq : List Pid) :
    Cleared q s { s'.setProg q pr with runq } := by
  refine ⟨cleared.queue, fun r other => ?_, fun r other => ?_, fun r other => ?_, cleared.ok⟩ <;>
  simp only [Sys.setProg, Function.update_of_ne other]
  · exact cleared.state r other
  · exact cleared.chan r other
  · exact cleared.alt r other

theorem filter_ne_of_not_mem (absent : q ∉ ps) : ps.filter (· ≠ q) = ps := by
  rw [List.filter_eq_self]
  intro r member
  have other : r ≠ q := fun same => absent (same ▸ member)
  simpa using other

theorem Progq.Sound.filter_of_not_waiting {t : Progq} (sound : t.Sound) (absent : q ∉ waiting t) :
    t = ofWaiting ((waiting t).filter (· ≠ q)) := by
  rw [filter_ne_of_not_mem absent]
  exact sound.eq

/-- A Prog taken out of some queues that was in no others has left all. -/
theorem Freed.cleared {L : List (Dir × Cid)} (freed : Freed q L s s') (sound : ∀ e c, (s.queue e c).Sound)
    (absent : ∀ e c, (e, c) ∉ L → q ∉ waiting (s.queue e c)) : Cleared q s s' where
  queue e c := by
    by_cases inside : (e, c) ∈ L
    · exact freed.inside e c inside
    · rw [freed.outside e c inside]
      exact (sound e c).filter_of_not_waiting (absent e c inside)
  state r _ := freed.state r
  chan r _ := freed.chan r
  alt r _ := freed.alt r
  ok := freed.ok

/-- Blocked outside an alternation, a Prog has one node, which its state names. -/
theorem Sys.Placed.not_waiting_elsewhere (placed : s.Placed q) (noAlt : (s.prog q).state ≠ .alt)
    (here : q ∈ waiting (s.queue d c)) {e : Dir} {c' : Cid} (other : ¬ (e = d ∧ c' = c)) :
    q ∉ waiting (s.queue e c') := by
  intro there
  rcases (placed.waits d c).mp here with ⟨state, chan⟩ | ⟨state, _⟩
  · rcases (placed.waits e c').mp there with ⟨state', chan'⟩ | ⟨state', _⟩
    · refine other ⟨?_, chan'.symm.trans chan⟩
      have same := state'.symm.trans state
      cases e <;> cases d <;> first | rfl | cases same
    · exact noAlt state'
  · exact noAlt state

/-- The first Prog of a queue is dequeued and, if it is in an alternation, taken out of the others. -/
theorem released_cleared (sound : ∀ e c, (s.queue e c).Sound) (placed : s.Placed q)
    (first : waiting (s.queue d c) = q :: ps) (clear : s.ClearPartner d c) :
    ∃ t, (s.setQueue d c (ofWaiting ps)).releaseAlt q c d = some t ∧ Cleared q s t ∧ t.runq = s.runq := by
  have inQueue : q ∈ waiting (s.queue d c) := first ▸ List.mem_cons_self
  have popped : cqdel (s.queue d c) = some (ofWaiting ps) := by
    rw [(sound d c).eq, first, cqdel_ofWaiting, List.tail_cons]
  have head : (s.queue d c).head? = some (some q) := by
    conv_lhs => rw [(sound d c).eq, first]
    rfl
  have midSound : ∀ e c', ((s.setQueue d c (ofWaiting ps)).queue e c').Sound := by
    intro e c'
    rw [Sys.queue_setQueue]
    split
    · exact sound_ofWaiting _
    · exact sound e c'
  have midOk : (∀ c, (s.chan c).Ok) → ∀ c', ((s.setQueue d c (ofWaiting ps)).chan c').Ok := by
    intro fine c'
    by_cases same : c' = c
    · subst same
      simpa [Sys.setQueue, Sys.setChan] using (fine c').setQueue d (ofWaiting ps)
    · simpa [Sys.setQueue, Sys.setChan, same] using fine c'
  rw [Sys.releaseAlt]
  by_cases alternating : (s.prog q).state = .alt
  · rw [if_pos (show ((s.setQueue d c (ofWaiting ps)).prog q).state = .alt from alternating)]
    obtain ⟨t, ran, freed⟩ := altdone_freed ((s.setQueue d c (ofWaiting ps)).prog q).alt (some c) (some d) midSound
      (clear q _ head alternating popped)
    refine ⟨t, ran, ⟨fun e c' => ?_, fun r _ => freed.state r, fun r _ => freed.chan r, fun r _ => freed.alt r,
      fun fine => freed.ok (midOk fine)⟩, freed.runq⟩
    by_cases named : c' ∈ (s.prog q).alt.chans e
    · rw [freed.inside e c' (mem_queuesOf_chans.mpr named), Sys.queue_setQueue]
      split
      · rename_i here
        obtain ⟨rfl, rfl⟩ := here
        rw [waiting_ofWaiting, first, List.filter_cons_of_neg (by simp)]
      · rfl
    · have absent : q ∉ waiting (s.queue e c') := by
        intro there
        rcases (placed.waits e c').mp there with ⟨state, _⟩ | ⟨_, inside⟩
        · rw [alternating] at state
          cases e <;> cases state
        · exact named inside
      rw [freed.outside e c' fun inside => named (mem_queuesOf_chans.mp inside), Sys.queue_setQueue, if_neg]
      · exact (sound e c').filter_of_not_waiting absent
      · rintro ⟨rfl, rfl⟩
        exact absent inQueue
  · rw [if_neg (show ((s.setQueue d c (ofWaiting ps)).prog q).state ≠ .alt from alternating)]
    refine ⟨_, rfl, ⟨fun e c' => ?_, fun _ _ => rfl, fun _ _ => rfl, fun _ _ => rfl, midOk⟩, rfl⟩
    rw [Sys.queue_setQueue]
    split
    · rename_i here
      obtain ⟨rfl, rfl⟩ := here
      have once : (waiting (s.queue e c')).count q = 1 := by
        rcases (placed.waits e c').mp inQueue with ⟨state, chan⟩ | ⟨state, _⟩
        · have single := placed.once e state
          rwa [chan] at single
        · exact absurd state alternating
      rw [first, List.count_cons_self] at once
      have gone : q ∉ ps := List.count_eq_zero.mp (by omega)
      rw [first, List.filter_cons_of_neg (by simp), filter_ne_of_not_mem gone]
    · rename_i other
      exact (sound e c').filter_of_not_waiting (placed.not_waiting_elsewhere alternating inQueue other)

/-- `q` has left every queue and is ready to run. -/
structure Woken (q : Pid) (s s' : Sys V) : Prop extends Cleared q s s' where
  ready : (s'.prog q).state = .ready
  runq : s'.runq = s.runq ++ [q]

theorem Cleared.wake (cleared : Cleared q s s') (runq : s'.runq = s.runq) : Woken q s (s'.wake q) where
  toCleared := (cleared.then_setProg _ s'.runq).then_setProg _ _
  ready := by simp [Sys.wake, Sys.addrun, Sys.setProg]
  runq := by simp [Sys.wake, Sys.addrun, Sys.setProg, runq]

/-- The running Prog `p` has gone to wait on one queue. -/
structure Blocks (p : Pid) (d : Dir) (c : Cid) (s s' : Sys V) : Prop where
  here : s'.queue d c = ofWaiting (waiting (s.queue d c) ++ [p])
  elsewhere : ∀ e c', ¬ (e = d ∧ c' = c) → s'.queue e c' = s.queue e c'
  state : (s'.prog p).state = d.blocked
  chan : (s'.prog p).chan = c
  others : ∀ r, r ≠ p → s'.prog r = s.prog r
  runq : s'.runq = s.runq.tail
  ok : (∀ c, (s.chan c).Ok) → ∀ c, (s'.chan c).Ok

/-- How a communication by `p` ends that finds its partners in the queue
`(d, c)`; `able` is whether the buffer would do. -/
inductive Comm (p : Pid) (d e : Dir) (c : Cid) (able : Bool) (s s' : Sys V) : Prop
  | buffered (nobody : waiting (s.queue d c) = []) (same : SameWaits s s')
  | blocked (nobody : waiting (s.queue d c) = []) (unable : able = false) (blocks : Blocks p e c s s')
  | partner (q : Pid) (first : (waiting (s.queue d c)).head? = some q) (woken : Woken q s s')

theorem head_queue (sound : (s.queue d c).Sound) : (s.queue d c).head? = some (waiting (s.queue d c)).head? := by
  conv_lhs => rw [sound.eq]
  exact head_ofWaiting _

theorem setQueue_ok (fine : ∀ c, (s.chan c).Ok) (d : Dir) (c : Cid) (t : Progq) (c' : Cid) :
    ((s.setQueue d c t).chan c').Ok := by
  by_cases same : c' = c
  · subst same
    simpa [Sys.setQueue, Sys.setChan] using (fine c').setQueue d t
  · simpa [Sys.setQueue, Sys.setChan, same] using fine c'

theorem cqadd_of_sound (sound : (s.queue d c).Sound) (p : Pid) :
    cqadd p (s.queue d c) = some (ofWaiting (waiting (s.queue d c) ++ [p])) := by
  conv_lhs => rw [sound.eq]
  exact cqadd_ofWaiting p _

/-- `p` leaves the run queue for the queue `(d, c)`, with its data at `a`. -/
def Sys.block (s : Sys V) (p : Pid) (d : Dir) (a : Addr) (c : Cid) : Sys V :=
  ((s.delrun p d.blocked).setProg p { (s.delrun p d.blocked).prog p with ptr := a, chan := c }).setQueue d c
    (ofWaiting (waiting (s.queue d c) ++ [p]))

theorem cqadd_block (sound : (s.queue d c).Sound) (p : Pid) (a : Addr) :
    (cqadd p (s.queue d c)).bind (fun t => some (Sys.setQueue ((s.delrun p d.blocked).setProg p
      { (s.delrun p d.blocked).prog p with ptr := a, chan := c }) d c t)) = some (s.block p d a c) := by
  rw [cqadd_of_sound sound]
  rfl

theorem block_blocks (s : Sys V) (p : Pid) (d : Dir) (a : Addr) (c : Cid) : Blocks p d c s (s.block p d a c) := by
  refine ⟨?_, fun e c' other => ?_, ?_, ?_, fun r other => ?_, rfl, fun fine => ?_⟩
  · rw [Sys.block, Sys.queue_setQueue, if_pos ⟨rfl, rfl⟩]
  · rw [Sys.block, Sys.queue_setQueue, if_neg other]
    rfl
  · simp [Sys.block, Sys.setQueue, Sys.setChan, Sys.setProg, Sys.delrun]
  · simp [Sys.block, Sys.setQueue, Sys.setChan, Sys.setProg, Sys.delrun]
  · simp [Sys.block, Sys.setQueue, Sys.setChan, Sys.setProg, Sys.delrun, other]
  · exact setQueue_ok (s := (s.delrun p d.blocked).setProg p _) fine d c _

theorem canput_of_cputb (c : Channel V) (v : V) : (c.cputb v).isSome = c.canput := by
  unfold Channel.cputb Channel.canput
  cases c.buf with
  | none => rfl
  | some a => by_cases room : c.size < a.length <;> simp [room]

/-- What `isend` does on regular queues: it returns. -/
theorem isend_comm (sound : ∀ e c, (s.queue e c).Sound) (fine : ∀ c, (s.chan c).Ok) (src : Addr)
    (placed : ∀ q, (waiting (s.queue .recv c)).head? = some q → s.Placed q) (clear : s.ClearPartner .recv c) :
    ∃ s', s.isend p src c = some s' ∧ Comm p .recv .send c (s.chan c).canput s s' := by
  have head : (s.chan c).recv.head? = some (waiting (s.queue .recv c)).head? := head_queue (sound .recv c)
  cases waits : waiting (s.queue .recv c) with
  | nil =>
    rw [waits] at head
    rcases (fine c).cputb (s.mem src) with ⟨full, _⟩ | ⟨ch, put, chOk, _, _, _, _, send, recv⟩
    · refine ⟨s.block p .send src c, ?_, .blocked waits ?_ (block_blocks s p .send src c)⟩
      · simp only [Sys.isend, head, full]
        exact cqadd_block (sound .send c) p src
      · rw [← canput_of_cputb _ (s.mem src), full]
        rfl
    · refine ⟨s.setChan c ch, ?_, .buffered waits (SameWaits.setChan send recv fun _ => chOk)⟩
      simp [Sys.isend, head, put]
  | cons q ps =>
    rw [waits] at head
    have popped : cqdel (s.queue .recv c) = some (ofWaiting ps) := by
      rw [(sound .recv c).eq, waits, cqdel_ofWaiting, List.tail_cons]
    obtain ⟨t, released, cleared, runq⟩ := released_cleared sound (placed q (by rw [waits]; rfl)) waits clear
    refine ⟨_, ?_, .partner q (by rw [waits]; rfl)
      ((cleared.then_same (SameWaits.store (t.prog q).ptr (t.mem src))).wake runq)⟩
    simp [Sys.isend, head, popped, released]

theorem canget_of_cgetb (ok : (s.chan c).Ok) : (s.chan c).cgetb.isSome = (s.chan c).canget := by
  rcases ok.cgetb with ⟨empty, zero⟩ | ⟨v, ch, got, _, _, size, _⟩
  · simp [empty, Channel.canget, zero]
  · simp [got, Channel.canget, size]

/-- The two halves of the exchange `irecv` makes through a buffer. -/
def Sys.takeb (s : Sys V) (c : Cid) (dst : Addr) : Sys V :=
  match (s.chan c).cgetb with
  | some (v, ch) => (s.setChan c ch).store dst v
  | none => s

def Sys.putb (s : Sys V) (c : Cid) (v : V) : Sys V :=
  match (s.chan c).cputb v with
  | some ch => s.setChan c ch
  | none => s

theorem takeb_same (fine : ∀ c, (s.chan c).Ok) (c : Cid) (dst : Addr) : SameWaits s (s.takeb c dst) := by
  rw [Sys.takeb]
  rcases (fine c).cgetb with ⟨empty, _⟩ | ⟨v, ch, got, chOk, _, _, _, send, recv⟩
  · rw [empty]
    exact SameWaits.refl
  · rw [got]
    exact (SameWaits.setChan send recv fun _ => chOk).trans (SameWaits.store dst v)

theorem putb_same (fine : ∀ c, (s.chan c).Ok) (c : Cid) (v : V) : SameWaits s (s.putb c v) := by
  rw [Sys.putb]
  rcases (fine c).cputb v with ⟨full, _⟩ | ⟨ch, put, chOk, _, _, _, _, send, recv⟩
  · rw [full]
    exact SameWaits.refl
  · rw [put]
    exact SameWaits.setChan send recv fun _ => chOk

/-- What `irecv` does on regular queues. -/
theorem irecv_comm (sound : ∀ e c, (s.queue e c).Sound) (fine : ∀ c, (s.chan c).Ok) (dst : Addr)
    (placed : ∀ q, (waiting (s.queue .send c)).head? = some q → s.Placed q) (clear : s.ClearPartner .send c) :
    ∃ s', s.irecv p dst c = some s' ∧ Comm p .send .recv c (s.chan c).canget s s' := by
  have head : (s.chan c).send.head? = some (waiting (s.queue .send c)).head? := head_queue (sound .send c)
  cases waits : waiting (s.queue .send c) with
  | nil =>
    rw [waits] at head
    rcases (fine c).cgetb with ⟨empty, zero⟩ | ⟨v, ch, got, chOk, _, _, _, send, recv⟩
    · refine ⟨s.block p .recv dst c, ?_, .blocked waits ?_ (block_blocks s p .recv dst c)⟩
      · simp only [Sys.irecv, head, empty]
        exact cqadd_block (sound .recv c) p dst
      · rw [← canget_of_cgetb (fine c), empty]
        rfl
    · refine ⟨(s.setChan c ch).store dst v, ?_,
        .buffered waits ((SameWaits.setChan send recv fun _ => chOk).trans (SameWaits.store dst v))⟩
      simp [Sys.irecv, head, got]
  | cons q ps =>
    rw [waits] at head
    have popped : cqdel (s.queue .send c) = some (ofWaiting ps) := by
      rw [(sound .send c).eq, waits, cqdel_ofWaiting, List.tail_cons]
    obtain ⟨t, released, cleared, runq⟩ := released_cleared sound (placed q (by rw [waits]; rfl)) waits clear
    have tOk := cleared.ok fine
    have first : (waiting (s.queue .send c)).head? = some q := by rw [waits]; rfl
    by_cases buffered : (t.chan c).buf.isSome
    · have got := takeb_same tOk c dst
      have exchanged := got.trans (putb_same (got.ok tOk) c ((t.takeb c dst).mem ((t.takeb c dst).prog q).ptr))
      refine ⟨_, ?_, .partner q first ((cleared.then_same exchanged).wake (exchanged.runq.trans runq))⟩
      simp only [Sys.irecv, head, popped, released, buffered, Option.bind_eq_bind, Option.bind_some, List.head?_cons]
      rfl
    · refine ⟨_, ?_, .partner q first
        ((cleared.then_same (SameWaits.store dst (t.mem (t.prog q).ptr))).wake runq)⟩
      simp [Sys.irecv, head, popped, released, buffered]

end Inferno.Dis
