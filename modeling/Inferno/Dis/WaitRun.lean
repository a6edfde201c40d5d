import Inferno.Dis.WaitAlt

namespace Inferno.Dis

open Progq

variable {V : Type} {s s' : Sys V} {p : Pid} {a : Alt}

/-- `p` waits on every alternative of its table. -/
def Sys.alternating (s : Sys V) (a : Alt) (p : Pid) : Sys V :=
  ((s.markAll a p).delrun p .alt).setProg p { ((s.markAll a p).delrun p .alt).prog p with alt := a }

theorem Sys.WaitInv.alternating (inv : s.WaitInv) (turn : s.runq.head? = some p) (accepted : ¬ s.Refuses a) :
    (s.alternating a p).WaitInv := by
  have absent := (inv.placed p).absent (inv.turn turn)
  have queue : ∀ e c, (s.alternating a p).queue e c = (s.markAll a p).queue e c := fun _ _ => rfl
  have others : ∀ r, r ≠ p → (s.alternating a p).prog r = s.prog r := by
    intro r other
    simp [Sys.alternating, Sys.setProg, Sys.delrun, Sys.markAll, Sys.mark, other]
  have state : ((s.alternating a p).prog p).state = .alt := by simp [Sys.alternating, Sys.setProg, Sys.delrun]
  have table : ((s.alternating a p).prog p).alt = a := by simp [Sys.alternating, Sys.setProg]
  -- an accepted table marks every channel it names
  have marks : ∀ d, s.marks a d = a.chans d := by
    intro d
    refine List.filter_eq_self.mpr fun c named => decide_eq_true ?_
    cases d with
    | send => exact by_contra fun refused => accepted (Or.inr (Or.inr ⟨c, named, refused⟩))
    | recv => trivial
  refine ⟨fun e c => ?_, fun r => ?_, markAll_ok inv.ok, fun r member => ?_, (inv.tail turn).2⟩
  · rw [queue]
    exact markAll_sound s a p e c
  · by_cases same : r = p
    · subst same
      refine ⟨fun e c => ?_, fun e blocked => ?_⟩
      · rw [queue, queue_markAll, waiting_ofWaiting, marks, Sys.Blocked, state, table, List.mem_append]
        have unblocked : ProgState.alt ≠ e.blocked := by cases e <;> exact ProgState.noConfusion
        simp [absent e c, unblocked, List.count_eq_zero]
      · rw [state] at blocked
        cases e <;> cases blocked
    · have kept : (s.markAll a p).Placed r := markAll_placed (inv.placed r) same
      refine kept.congr (fun e c => by rw [queue]) ?_ ?_ ?_ <;> rw [others r same] <;> rfl
  · obtain ⟨other, ready⟩ := (inv.tail turn).1 r member
    rw [others r other]
    exact ready

theorem altrdy_accepted (inv : s.WaitInv) (turn : s.runq.head? = some p) (accepted : ¬ s.Refuses a) :
    s.altrdy a p = some (.inr (s.nrdy a p), s.markAll a p) := by
  obtain ⟨e, n, marked, raised⟩ := altrdyMark_eq inv.sound ((inv.placed p).absent (inv.turn turn)) a
  cases raised.mpr accepted
  rw [Sys.altrdy, marked, altrdyMark_count marked]
  rfl

/-- With nothing ready an `alt` blocks. -/
theorem xecalt_blocks (inv : s.WaitInv) (turn : s.runq.head? = some p) (accepted : ¬ s.Refuses a)
    (idle : s.nrdy a p = 0) (xrand : Nat) : s.xecalt true xrand a p = some (none, s.alternating a p) := by
  rw [Sys.xecalt, altrdy_accepted inv turn accepted, idle]
  rfl

/-- A careful alternation returns and keeps the invariant. -/
theorem Sys.WaitInv.xecalt (inv : s.WaitInv) (turn : s.runq.head? = some p) {block : Bool} {xrand : Nat}
    (careful : (ProgOp.alt block xrand a p).Careful s) :
    ∃ e s', s.xecalt block xrand a p = some (e, s') ∧ s'.WaitInv := by
  obtain ⟨undone, comm⟩ := careful
  have absent := (inv.placed p).absent (inv.turn turn)
  by_cases refused : s.Refuses a
  · obtain ⟨v, done, same⟩ := altdone_same inv.sound absent SameWaits.refl (undone (Or.inl refused))
    obtain ⟨e, n, marked, raised⟩ := altrdyMark_eq inv.sound absent a
    cases e with
    | none => exact absurd refused (raised.mp rfl)
    | some e => exact ⟨some e, v, by simp [Sys.xecalt, Sys.altrdy, marked, done], inv.same same⟩
  · have ready := altrdy_accepted inv turn refused
    cases count : s.nrdy a p with
    | zero =>
      cases block with
      | true => exact ⟨none, s.alternating a p, xecalt_blocks inv turn refused count xrand, inv.alternating turn refused⟩
      | false =>
        have noted : SameWaits (s.markAll a p) ((s.markAll a p).setProg p
            { (s.markAll a p).prog p with which := a.send.length + a.recv.length }) := SameWaits.setProg rfl rfl rfl
        obtain ⟨v, done, same⟩ := altdone_same inv.sound absent noted (undone (Or.inr ⟨count, rfl⟩))
        refine ⟨none, v, ?_, inv.same same⟩
        simp only [Sys.xecalt, ready, count, Option.bind_eq_bind, Option.bind_some, Bool.false_eq_true, if_false]
        rw [done]
        rfl
    | succ n =>
      have below : xrand % (n + 1) < s.nrdy a p := by
        rw [count]
        exact Nat.mod_lt _ (Nat.succ_pos n)
      obtain ⟨choice, picked, able⟩ := altpick_markAll inv.sound refused below
      obtain ⟨notSelf, clear, spare⟩ := comm refused choice (count ▸ picked)
      have placed : ∀ r, r ≠ p → (s.markAll a p).Placed r := fun r other => markAll_placed (inv.placed r) other
      obtain ⟨u, ran, outcome⟩ := altcomm_ready (markAll_sound s a p) (markAll_ok inv.ok) placed notSelf clear picked able
      have finish : ∀ v, u.altdone a p none none = some v → s.xecalt block xrand a p = some (none, v) := by
        intro v done
        rw [Sys.xecalt, ready, count]
        simp [ran, done]
      rcases outcome with ⟨same, nobody⟩ | ⟨q, first, woken⟩
      · rw [nobody] at spare
        obtain ⟨v, done, unchanged⟩ := altdone_same inv.sound absent same spare
        exact ⟨none, v, finish v done, inv.same unchanged⟩
      · rw [first] at spare notSelf
        have other : q ≠ p := fun self => notSelf (congrArg some self)
        obtain ⟨v, done, woke⟩ := altdone_woken absent woken other spare
        refine ⟨none, v, finish v done, inv.woken woke ?_⟩
        have waits : q ∈ waiting ((s.markAll a p).queue choice.opposite choice.chan) := by
          rw [partner_eq (markAll_sound s a p)] at first
          exact List.mem_of_mem_head? first
        rw [queue_markAll, waiting_ofWaiting, List.mem_append] at waits
        rcases waits with before | added
        · exact inv.notReady_of_waiting before
        · exact absurd (List.eq_of_mem_replicate added) other

/-- One careful step returns and keeps the invariant. -/
theorem Sys.WaitInv.step (inv : s.WaitInv) {op : ProgOp} (enabled : op.Enabled s) (careful : op.Careful s) :
    ∃ s', op.exec s = some s' ∧ s'.WaitInv := by
  cases op with
  | isend p src c =>
    obtain ⟨s', ran, comm⟩ := isend_comm (p := p) inv.sound inv.ok src (fun q _ => inv.placed q) careful
    exact ⟨s', ran, inv.comm enabled comm⟩
  | irecv p dst c =>
    obtain ⟨s', ran, comm⟩ := irecv_comm (p := p) inv.sound inv.ok dst (fun q _ => inv.placed q) careful
    exact ⟨s', ran, inv.comm enabled comm⟩
  | alt block xrand a p =>
    obtain ⟨e, s', ran, kept⟩ := inv.xecalt enabled careful
    exact ⟨s', by simp [ProgOp.exec, ran], kept⟩
  | exprog p => exact inv.exprog careful
  | killprog debug p => exact inv.killprog debug careful
  | yield =>
    have placed : ∀ r, { s with runq := s.runq.rotate 1 }.Placed r :=
      fun r => (inv.placed r).congr (fun _ _ => rfl) rfl rfl rfl
    refine ⟨_, rfl, inv.sound, placed, inv.ok, fun r member => ?_, ?_⟩
    · exact inv.running r (List.mem_rotate.mp member)
    · exact List.nodup_rotate.mpr inv.nodup

theorem CarefulRun.waitInv {s₀ s : Sys V} (fresh : s₀.Fresh) (run : CarefulRun s₀ s) : s.WaitInv := by
  induction run with
  | start => exact fresh.waitInv
  | step before enabled careful done ih =>
    obtain ⟨s', ran, kept⟩ := ih.step enabled careful
    cases ran.symm.trans done
    exact kept

/-- Two ready Progs and channels without buffers. -/
def twoReady : Sys Int where
  chan _ := Channel.cnewc 0 0 none
  prog _ := ⟨.ready, 0, 0, ⟨[], []⟩, 0, 0⟩
  runq := [1, 2]
  mem _ := 0

theorem twoReady_fresh : twoReady.Fresh where
  chans _ := ⟨0, 0, none, rfl⟩
  idle _ := ⟨ProgState.noConfusion, fun e => e.ready_ne_blocked⟩
  running _ _ := rfl
  nodup := by decide

def receiveTwo : Alt := ⟨[], [(.chan 0, 11), (.chan 1, 12)]⟩

theorem receiveTwo_count (d : Dir) (c : Cid) : (twoReady.marks receiveTwo d).count c ≤ 1 := by
  refine List.nodup_iff_count_le_one.mp ?_ c
  cases d <;> decide

theorem receiveTwo_careful : (ProgOp.alt true 0 receiveTwo 1).Careful twoReady :=
  ⟨fun _ d c many => absurd many (by have few := receiveTwo_count d c; omega), fun _ _ picked => (nomatch picked)⟩

theorem send_careful : (ProgOp.isend 2 20 0).Careful (twoReady.alternating receiveTwo 1) := by
  intro q t _ _ popped e c
  cases popped
  refine Or.inl ?_
  rw [Sys.queue_setQueue]
  split
  · exact le_rfl
  · have marked : (twoReady.alternating receiveTwo 1).queue e c = _ := queue_markAll twoReady receiveTwo 1 e c
    have empty : waiting (twoReady.queue e c) = [] := by cases e <;> rfl
    rw [marked, empty]
    exact length_ofWaiting_replicate (receiveTwo_count e c)

theorem receiveTwo_waits :
    (ProgOp.alt true 0 receiveTwo 1).exec twoReady = some (twoReady.alternating receiveTwo 1) := by
  have accepted : ¬ twoReady.Refuses receiveTwo := by simp [Sys.Refuses, receiveTwo, Alt.sends]
  exact congrArg (Option.map Prod.snd) (xecalt_blocks twoReady_fresh.waitInv rfl accepted rfl 0)

end Inferno.Dis
