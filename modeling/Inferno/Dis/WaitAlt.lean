import Inferno.Dis.WaitMark

namespace Inferno.Dis

open Progq

variable {V : Type} {s t u v : Sys V} {p q r : Pid} {a : Alt} {d : Dir} {c : Cid}

theorem chans_of_mem_marks (inside : c ∈ s.marks a d) : c ∈ a.chans d := List.mem_of_mem_filter inside

theorem queue_markAll (s : Sys V) (a : Alt) (p : Pid) (d : Dir) (c : Cid) :
    (s.markAll a p).queue d c =
      ofWaiting (waiting (s.queue d c) ++ List.replicate ((s.marks a d).count c) p) := by
  rw [Sys.markAll, queue_mark]
  cases d <;> rfl

theorem markAll_sound (s : Sys V) (a : Alt) (p : Pid) (d : Dir) (c : Cid) : ((s.markAll a p).queue d c).Sound := by
  rw [queue_markAll]
  exact sound_ofWaiting _

theorem markAll_ok (fine : ∀ c, (s.chan c).Ok) (c : Cid) : ((s.markAll a p).chan c).Ok :=
  ⟨(fine c).bounds, (fine c).unbuffered⟩

theorem markAll_placed (placed : s.Placed r) (other : r ≠ p) : (s.markAll a p).Placed r := by
  refine placed.congr (fun e c => ?_) rfl rfl rfl
  rw [queue_markAll, waiting_ofWaiting, List.count_append, List.count_replicate, if_neg, Nat.add_zero]
  simpa using other.symm

/-- Taking `p` out of the queues of its table undoes the marking. -/
theorem Freed.unmarked {ws : Dir → Cid → List Pid}
    (freed : Freed p (queuesOf .send a.sends ++ queuesOf .recv a.recvs) u v)
    (queue : ∀ e c, u.queue e c = ofWaiting (ws e c ++ List.replicate ((s.marks a e).count c) p))
    (absent : ∀ e c, p ∉ ws e c) (e : Dir) (c : Cid) : v.queue e c = ofWaiting (ws e c) := by
  by_cases named : c ∈ a.chans e
  · rw [freed.inside e c (mem_queuesOf_chans.mpr named), queue, waiting_ofWaiting, List.filter_append,
      filter_ne_of_not_mem (absent e c), List.filter_replicate_of_neg (by simp), List.append_nil]
  · rw [freed.outside e c fun inside => named (mem_queuesOf_chans.mp inside), queue,
      List.count_eq_zero.mpr fun inside => named (chans_of_mem_marks inside), List.replicate_zero, List.append_nil]

theorem length_ofWaiting_replicate {k : Nat} (few : k ≤ 1) : (ofWaiting (List.replicate k p)).length ≤ 1 := by
  rcases Nat.le_one_iff_eq_zero_or_eq_one.mp few with rfl | rfl <;> exact le_rfl

theorem clear_of_marked {ws : Dir → Cid → List Pid}
    (queue : ∀ e c, u.queue e c = ofWaiting (ws e c ++ List.replicate ((s.marks a e).count c) p))
    (absent : ∀ e c, p ∉ ws e c) (spare : ∀ e c, 2 ≤ (s.marks a e).count c → ws e c ≠ []) : u.Clear p := by
  intro e c
  rw [queue]
  have apart := absent e c
  cases others : ws e c with
  | nil =>
    refine Or.inl ?_
    have few : (s.marks a e).count c ≤ 1 := by
      by_contra many
      exact spare e c (by omega) others
    exact length_ofWaiting_replicate few
  | cons r rs =>
    rw [others] at apart
    refine Or.inr ⟨some r, List.mem_cons_self, fun same => apart ?_⟩
    rw [Option.some_inj.mp same]
    exact List.mem_cons_self

/-- An alternation that changed nothing but its marks ends where it began. -/
theorem altdone_same (sound : ∀ e c, (s.queue e c).Sound) (absent : ∀ e c, p ∉ waiting (s.queue e c))
    (same : SameWaits (s.markAll a p) u) (spare : s.Spare a none) :
    ∃ v, u.altdone a p none none = some v ∧ SameWaits s v := by
  have queue : ∀ e c, u.queue e c = ofWaiting (waiting (s.queue e c) ++ List.replicate ((s.marks a e).count c) p) :=
    fun e c => (same.queue e c).trans (queue_markAll s a p e c)
  have clear : u.Clear p := clear_of_marked queue absent fun e c many empty => by
    obtain ⟨r, member, _⟩ := spare e c many
    rw [empty] at member
    exact nomatch member
  have uSound : ∀ e c, (u.queue e c).Sound := fun e c => by
    rw [queue]
    exact sound_ofWaiting _
  obtain ⟨v, ran, freed⟩ := altdone_freed a none none uSound clear
  refine ⟨v, ran, ⟨fun e c => ?_, fun r => (freed.state r).trans (same.state r), fun r => (freed.chan r).trans (same.chan r),
    fun r => (freed.alt r).trans (same.alt r), freed.runq.trans same.runq, fun fine => freed.ok (same.ok (markAll_ok fine))⟩⟩
  rw [freed.unmarked queue absent]
  exact (sound e c).eq.symm

/-- One that woke a partner has done no more than that. -/
theorem altdone_woken (absent : ∀ e c, p ∉ waiting (s.queue e c)) (woken : Woken q (s.markAll a p) u) (other : q ≠ p)
    (spare : s.Spare a (some q)) : ∃ v, u.altdone a p none none = some v ∧ Woken q s v := by
  have queue : ∀ e c, u.queue e c =
      ofWaiting ((waiting (s.queue e c)).filter (· ≠ q) ++ List.replicate ((s.marks a e).count c) p) := by
    intro e c
    rw [woken.queue, queue_markAll, waiting_ofWaiting, List.filter_append,
      List.filter_replicate_of_pos (by simpa using other.symm)]
  have gone : ∀ e c, p ∉ (waiting (s.queue e c)).filter (· ≠ q) :=
    fun e c member => absent e c (List.mem_of_mem_filter member)
  have clear : u.Clear p := clear_of_marked queue gone fun e c many empty => by
    obtain ⟨r, member, stays⟩ := spare e c many
    have kept : r ∈ (waiting (s.queue e c)).filter (· ≠ q) :=
      List.mem_filter.mpr ⟨member, by simpa using stays⟩
    rw [empty] at kept
    exact nomatch kept
  have uSound : ∀ e c, (u.queue e c).Sound := fun e c => by
    rw [queue]
    exact sound_ofWaiting _
  obtain ⟨v, ran, freed⟩ := altdone_freed a none none uSound clear
  refine ⟨v, ran, ⟨⟨fun e c => freed.unmarked queue gone e c, fun r apart => ?_, fun r apart => ?_, fun r apart => ?_,
    fun fine => freed.ok (woken.ok (markAll_ok fine))⟩, ?_, ?_⟩⟩
  · exact (freed.state r).trans (woken.state r apart)
  · exact (freed.chan r).trans (woken.chan r apart)
  · exact (freed.alt r).trans (woken.alt r apart)
  · exact (freed.state q).trans woken.ready
  · exact freed.runq.trans woken.runq

theorem Woken.of_same (same : SameWaits s t) (woken : Woken q t u) : Woken q s u where
  queue e c := by rw [woken.queue, same.queue]
  state r other := (woken.state r other).trans (same.state r)
  chan r other := (woken.chan r other).trans (same.chan r)
  alt r other := (woken.alt r other).trans (same.alt r)
  ok fine := woken.ok (same.ok fine)
  ready := woken.ready
  runq := by rw [woken.runq, same.runq]

theorem Sys.ClearPartner.same (clear : s.ClearPartner d c) (same : SameWaits s t) : t.ClearPartner d c := by
  intro q rest head alternating popped e c'
  rw [same.queue] at head popped
  rw [same.state] at alternating
  have before := clear q rest head alternating popped e c'
  rw [Sys.queue_setQueue] at before ⊢
  rwa [same.queue]

/-- What a communication that cannot block does to the queues. -/
theorem Comm.unblocked {e : Dir} {able : Bool} (comm : Comm p d e c able s t)
    (ready : waiting (s.queue d c) ≠ [] ∨ able = true) :
    SameWaits s t ∧ (waiting (s.queue d c)).head? = none ∨
      ∃ q, (waiting (s.queue d c)).head? = some q ∧ Woken q s t := by
  cases comm with
  | buffered nobody same => exact Or.inl ⟨same, by rw [nobody]; rfl⟩
  | blocked nobody unable _ =>
    rcases ready with somebody | able
    · exact absurd nobody somebody
    · cases able.symm.trans unable
  | partner q first woken => exact Or.inr ⟨q, first, woken⟩

theorem partner_eq (sound : ∀ e c, (s.queue e c).Sound) (choice : Choice) :
    choice.partner s = (waiting (s.queue choice.opposite choice.chan)).head? := by
  cases choice <;> simp only [Choice.partner, Choice.opposite, Choice.chan, head_queue (sound _ _), Option.join_some]

theorem Comm.of_same {e : Dir} {able : Bool} (same : SameWaits s t) (comm : Comm p d e c able t u)
    (ready : waiting (s.queue d c) ≠ [] ∨ able = true) :
    SameWaits s u ∧ (waiting (s.queue d c)).head? = none ∨
      ∃ q, (waiting (s.queue d c)).head? = some q ∧ Woken q s u := by
  rw [← same.queue] at ready ⊢
  rcases comm.unblocked ready with ⟨unchanged, nobody⟩ | ⟨q, first, woken⟩
  · exact Or.inl ⟨same.trans unchanged, nobody⟩
  · exact Or.inr ⟨q, first, woken.of_same same⟩

theorem SameWaits.placed (same : SameWaits s t) (placed : s.Placed r) : t.Placed r :=
  placed.congr (fun e c => by rw [same.queue]) (same.state r) (same.chan r) (same.alt r)

theorem SameWaits.sound (same : SameWaits s t) (sound : ∀ e c, (s.queue e c).Sound) (e : Dir) (c : Cid) :
    (t.queue e c).Sound := by
  rw [same.queue]
  exact sound e c

section

variable {pr : Prog} (sound : ∀ e c, (s.queue e c).Sound) (fine : ∀ c, (s.chan c).Ok)
  (same : SameWaits s (s.setProg p pr))
include sound fine same

/-- A ready send returns and does not block, whatever notes were left with `p` before. -/
theorem isend_ready (src : Addr) (placed : ∀ q, (waiting (s.queue .recv c)).head? = some q → s.Placed q)
    (clear : s.ClearPartner .recv c) (ready : s.canSend c = some true) :
    ∃ u, (s.setProg p pr).isend p src c = some u ∧ (SameWaits s u ∧ (waiting (s.queue .recv c)).head? = none ∨
      ∃ q, (waiting (s.queue .recv c)).head? = some q ∧ Woken q s u) := by
  have placed' : ∀ q, (waiting ((s.setProg p pr).queue .recv c)).head? = some q → (s.setProg p pr).Placed q :=
    fun q first => same.placed (placed q first)
  obtain ⟨u, ran, comm⟩ :=
    isend_comm (p := p) (same.sound sound) (same.ok fine) src placed' (clear.same same)
  refine ⟨u, ran, comm.of_same same ?_⟩
  have head : (s.chan c).recv.head? = some (waiting (s.queue .recv c)).head? := head_queue (sound .recv c)
  rw [Sys.canSend, head] at ready
  cases waits : waiting (s.queue .recv c) with
  | nil =>
    rw [waits] at ready
    have room : (s.chan c).canput = true := by simpa using ready
    exact Or.inr room
  | cons q ps => exact Or.inl (List.cons_ne_nil q ps)

theorem irecv_ready (dst : Addr) (placed : ∀ q, (waiting (s.queue .send c)).head? = some q → s.Placed q)
    (clear : s.ClearPartner .send c) (ready : s.canRecv c = some true) :
    ∃ u, (s.setProg p pr).irecv p dst c = some u ∧ (SameWaits s u ∧ (waiting (s.queue .send c)).head? = none ∨
      ∃ q, (waiting (s.queue .send c)).head? = some q ∧ Woken q s u) := by
  have placed' : ∀ q, (waiting ((s.setProg p pr).queue .send c)).head? = some q → (s.setProg p pr).Placed q :=
    fun q first => same.placed (placed q first)
  obtain ⟨u, ran, comm⟩ :=
    irecv_comm (p := p) (same.sound sound) (same.ok fine) dst placed' (clear.same same)
  refine ⟨u, ran, comm.of_same same ?_⟩
  have head : (s.chan c).send.head? = some (waiting (s.queue .send c)).head? := head_queue (sound .send c)
  rw [Sys.canRecv, head] at ready
  cases waits : waiting (s.queue .send c) with
  | nil =>
    rw [waits] at ready
    have filled : (s.chan c).canget = true := by simpa using ready
    exact Or.inr filled
  | cons q ps => exact Or.inl (List.cons_ne_nil q ps)

end

/-- The communication an alternation settled on returns and does not block. -/
theorem altcomm_ready {which : Nat} {choice : Choice} (sound : ∀ e c, (s.queue e c).Sound)
    (fine : ∀ c, (s.chan c).Ok) (placed : ∀ r, r ≠ p → s.Placed r) (other : choice.partner s ≠ some p)
    (clear : s.ClearPartner choice.opposite choice.chan) (picked : s.altpick a which = some (some choice))
    (ready : choice.ready s = true) :
    ∃ t, s.altcomm a which p = some t ∧ (SameWaits s t ∧ choice.partner s = none ∨
      ∃ q, choice.partner s = some q ∧ Woken q s t) := by
  rw [partner_eq sound] at other ⊢
  have partner : ∀ q, (waiting (s.queue choice.opposite choice.chan)).head? = some q → s.Placed q :=
    fun q first => placed q fun same => other (same ▸ first)
  rw [Sys.altcomm, picked]
  cases choice with
  | send n c ptr =>
    have able : s.canSend c = some true := by simpa [Choice.ready] using ready
    have noted : SameWaits s (s.setProg p { s.prog p with which := n }) := SameWaits.setProg rfl rfl rfl
    exact isend_ready (c := c) sound fine noted ptr partner clear able
  | recv n elem c ptr =>
    have able : s.canRecv c = some true := by simpa [Choice.ready] using ready
    cases elem with
    | none =>
      have noted : SameWaits s (s.setProg p { s.prog p with which := n }) := SameWaits.setProg rfl rfl rfl
      exact irecv_ready (c := c) sound fine noted ptr partner clear able
    | some an =>
      have noted : SameWaits s (s.setProg p { s.prog p with which := n, elem := an }) := SameWaits.setProg rfl rfl rfl
      exact irecv_ready (c := c) sound fine noted (ptr + 1) partner clear able

theorem markAll_canSend (s : Sys V) (a : Alt) (p : Pid) (c : Cid) : ((s.markAll a p).canSend c).isSome := by
  rw [Sys.markAll, canSend_mark]
  rfl

theorem markAll_canRecv (s : Sys V) (a : Alt) (p : Pid) (c : Cid) : ((s.markAll a p).canRecv c).isSome := by
  obtain ⟨rdy, test⟩ := canRecv_mark s p (s.marks a .send) (s.marks a .recv) c
  rw [Sys.markAll, test]
  rfl

/-- Marking makes no channel less ready to receive from. -/
theorem countRecv_markAll (sound : ∀ e c, (s.queue e c).Sound) (a : Alt) (p : Pid) (cs : List Cid) :
    s.countRecv cs ≤ (s.markAll a p).countRecv cs := by
  refine List.countP_mono_left fun c _ ready => ?_
  have head : (s.chan c).send.head? = some (waiting (s.queue .send c)).head? := head_queue (sound .send c)
  have marked : ((s.markAll a p).chan c).send.head? =
    some (waiting (s.queue .send c) ++ List.replicate ((s.marks a .send).count c) p).head? := head_ofWaiting _
  have able : ((s.markAll a p).chan c).canget = (s.chan c).canget := rfl
  simp only [Sys.canRecv, head, marked, able, Option.bind_eq_bind, Option.bind_some, Option.pure_def, Option.some_inj,
    decide_eq_true_eq, Bool.or_eq_true] at ready ⊢
  refine ready.imp_left fun somebody => ?_
  obtain ⟨q, first⟩ := Option.isSome_iff_exists.mp somebody
  rw [List.head?_append, first]
  rfl

/-- With a ready alternative counted, `altcomm` finds one. -/
theorem altpick_markAll (sound : ∀ e c, (s.queue e c).Sound) (accepted : ¬ s.Refuses a) {which : Nat}
    (below : which < s.nrdy a p) :
    ∃ choice, (s.markAll a p).altpick a which = some (some choice) ∧ choice.ready (s.markAll a p) = true := by
  have presentSend : ∀ x ∈ a.send, x.1 ≠ none :=
    fun x member nil => accepted (Or.inr (Or.inl ⟨x, member, nil⟩))
  have presentRecv : ∀ r ∈ a.recv, r.1 ≠ .nil := fun r member nil => accepted (Or.inl ⟨r, member, nil⟩)
  have picks := altpick_eq presentSend presentRecv (fun c _ => markAll_canSend s a p c)
    (fun c _ => markAll_canRecv s a p c) which
  have enough := countRecv_markAll sound a p a.recvs
  have bound : which < (a.choices.filter (Choice.ready (s.markAll a p))).length := by
    rw [length_ready_choices]
    rw [Sys.nrdy] at below
    omega
  rw [List.getElem?_eq_getElem bound] at picks
  exact ⟨_, picks, (List.mem_filter.mp (List.getElem_mem bound)).2⟩

end Inferno.Dis
