import Inferno.Dis.Delivery

namespace Inferno.Dis

open Progq

variable {V : Type} {s s' : Sys V} {d : Dir} {p q : Pid} {a : Addr} {c : Cid} {v : V} {ps : List Pid}
  {ch : Channel V}

theorem Sys.queue_slept (e : Dir) (c' : Cid) :
    (s.slept d p a c).queue e c' =
      if e = d ∧ c' = c then ofWaiting (waiting (s.queue d c) ++ [p]) else s.queue e c' :=
  Sys.queue_setQueue s d e c c' _

theorem Sys.queue_woken (left : ∀ e, ch.queue e = if e = d then ofWaiting ps else s.queue e c) (e : Dir) (c' : Cid) :
    (s.woken q c ch a v).queue e c' = if e = d ∧ c' = c then ofWaiting ps else s.queue e c' := by
  by_cases same : c' = c
  · subst same
    simp [Sys.queue, Sys.woken, left]
  · simp [Sys.queue, Sys.woken, same]

theorem Sys.Orderly.not_waiting (orderly : s.Orderly) (ready : (s.prog p).state = .ready) (e : Dir) (c' : Cid) :
    p ∉ waiting (s.queue e c') := by
  intro member
  have state := (orderly.blocked e c' p member).1
  rw [ready] at state
  cases e <;> cases state

theorem Sys.Orderly.ready_of_running (orderly : s.Orderly) (running : s.runq.head? = some p) :
    (s.prog p).state = .ready :=
  orderly.running p (List.mem_of_head? running)

/-- Putting the running Prog to sleep keeps queues and Progs in order. -/
theorem Sys.Orderly.slept (orderly : s.Orderly) (running : s.runq.head? = some p) :
    (s.slept d p a c).Orderly := by
  have ready := orderly.ready_of_running running
  have absent := orderly.not_waiting ready
  have others : ∀ r, r ≠ p → (s.slept d p a c).prog r = s.prog r := fun r other => Function.update_of_ne other _ _
  have self : (s.slept d p a c).prog p = { s.prog p with state := d.blocked, ptr := a, chan := c } :=
    Function.update_self _ _ _
  refine ⟨fun r => ?_, fun e c' => ?_, fun e c' r member => ?_, fun e c' => ?_, fun r member => ?_, ?_⟩
  · by_cases same : r = p
    · subst same
      rw [self]
      cases d <;> simp [Dir.blocked]
    · rw [others r same]
      exact orderly.noAlt r
  · rw [Sys.queue_slept]
    split
    · exact sound_ofWaiting _
    · exact orderly.sound e c'
  · rw [Sys.queue_slept] at member
    split at member
    · rename_i here
      rw [waiting_ofWaiting, List.mem_append, List.mem_singleton] at member
      rcases member with old | rfl
      · rw [others r fun same => absent d c (same ▸ old), here.1, here.2]
        exact orderly.blocked d c r old
      · rw [self, here.1, here.2]
        exact ⟨rfl, rfl⟩
    · rw [others r fun same => absent e c' (same ▸ member)]
      exact orderly.blocked e c' r member
  · rw [Sys.queue_slept]
    split
    · rw [waiting_ofWaiting, List.nodup_append]
      refine ⟨orderly.distinct d c, List.nodup_singleton p, fun r old t new => ?_⟩
      rintro rfl
      exact absent d c (List.mem_singleton.mp new ▸ old)
    · exact orderly.distinct e c'
  · have tail : s.runq = p :: s.runq.tail := (List.cons_head?_tail running).symm
    have nodup := orderly.nodup
    rw [tail, List.nodup_cons] at nodup
    have member' : r ∈ s.runq.tail := member
    rw [others r fun same => nodup.1 (same ▸ member')]
    exact orderly.running r (List.mem_of_mem_tail member')
  · exact orderly.nodup.sublist (List.tail_sublist _)

/-- Waking the first Prog of a queue keeps queues and Progs in order. -/
theorem Sys.Orderly.woken (orderly : s.Orderly) (first : waiting (s.queue d c) = q :: ps)
    (left : ∀ e, ch.queue e = if e = d then ofWaiting ps else s.queue e c) :
    (s.woken q c ch a v).Orderly := by
  have inQueue : q ∈ waiting (s.queue d c) := first ▸ List.mem_cons_self
  have blocked := orderly.blocked d c q inQueue
  have distinct := orderly.distinct d c
  rw [first, List.nodup_cons] at distinct
  have others : ∀ r, r ≠ q → (s.woken q c ch a v).prog r = s.prog r := fun r other => Function.update_of_ne other _ _
  have self : (s.woken q c ch a v).prog q = { s.prog q with state := .ready, ptr := 0 } := Function.update_self _ _ _
  -- the woken Prog waits nowhere else, since its state names one queue
  have elsewhere : ∀ e c', q ∈ waiting (s.queue e c') → e = d ∧ c' = c := by
    intro e c' member
    obtain ⟨state, chan⟩ := orderly.blocked e c' q member
    refine ⟨?_, chan.symm.trans blocked.2⟩
    have same := state.symm.trans blocked.1
    cases e <;> cases d <;> first | rfl | cases same
  refine ⟨fun r => ?_, fun e c' => ?_, fun e c' r member => ?_, fun e c' => ?_, fun r member => ?_, ?_⟩
  · by_cases same : r = q
    · subst same
      rw [self]
      simp
    · rw [others r same]
      exact orderly.noAlt r
  · rw [Sys.queue_woken left]
    split
    · exact sound_ofWaiting _
    · exact orderly.sound e c'
  · rw [Sys.queue_woken left] at member
    split at member
    · rename_i here
      rw [waiting_ofWaiting] at member
      rw [others r fun same => distinct.1 (same ▸ member), here.1, here.2]
      exact orderly.blocked d c r (first ▸ List.mem_cons_of_mem _ member)
    · rename_i there
      rw [others r fun same => there (elsewhere e c' (same ▸ member))]
      exact orderly.blocked e c' r member
  · rw [Sys.queue_woken left]
    split
    · rw [waiting_ofWaiting]
      exact distinct.2
    · exact orderly.distinct e c'
  · have member' : r ∈ s.runq ++ [q] := member
    rcases List.mem_append.mp member' with old | new
    · by_cases same : r = q
      · subst same
        rw [self]
      · rw [others r same]
        exact orderly.running r old
    · rw [List.mem_singleton.mp new, self]
  · have fresh : q ∉ s.runq := by
      intro member
      have state := (orderly.running q member).symm.trans blocked.1
      cases d <;> cases state
    refine List.nodup_append.mpr ⟨orderly.nodup, List.nodup_singleton q, fun r old t new => ?_⟩
    rintro rfl
    exact fresh (List.mem_singleton.mp new ▸ old)

/-- Steps that change no queue, no Prog and not the run queue's members. -/
theorem Sys.Orderly.congr (orderly : s.Orderly) (queues : ∀ e c', s'.queue e c' = s.queue e c')
    (progs : s'.prog = s.prog) (runs : s'.runq.Perm s.runq) : s'.Orderly where
  noAlt := by simpa [progs] using orderly.noAlt
  sound e c' := by simpa [queues] using orderly.sound e c'
  blocked e c' := by simpa [queues, progs] using orderly.blocked e c'
  distinct e c' := by simpa [queues] using orderly.distinct e c'
  running r member := by simpa [progs] using orderly.running r (runs.mem_iff.mp member)
  nodup := runs.nodup_iff.mpr orderly.nodup

section Balance

variable {op : ChanOp V} {src dst : Addr}

theorem Channel.Balanced.setQueue_recv (balanced : ch.Balanced) (first : waiting ch.recv = q :: ps) :
    (ch.setQueue .recv (ofWaiting ps)).Balanced := by
  obtain ⟨empty, noSender⟩ := balanced.idle (by simp [first])
  refine ⟨balanced.ok.setQueue _ _, fun _ => ⟨empty, noSender⟩, fun waits => absurd noSender waits⟩

theorem Channel.Balanced.setQueue_send (balanced : ch.Balanced) (first : waiting ch.send = q :: ps) :
    (ch.setQueue .send (ofWaiting ps)).Balanced := by
  have full := balanced.full (by simp [first])
  refine ⟨balanced.ok.setQueue _ _, fun waits => ?_, fun _ n slots => full n slots⟩
  have none := (balanced.idle waits).2
  rw [first] at none
  exact nomatch none

/-- Every step keeps queues, Progs and channels in order. -/
theorem ChanStep.keeps (step : ChanStep s op s') (orderly : s.Orderly) (balanced : ∀ c, (s.chan c).Balanced) :
    s'.Orderly ∧ ∀ c, (s'.chan c).Balanced := by
  have replaced : ∀ (chan : Cid → Channel V) (c : Cid) (ch : Channel V), chan = Function.update s.chan c ch →
      ch.Balanced → ∀ c', (chan c').Balanced := by
    intro chan c ch same good c'
    by_cases here : c' = c
    · subst here
      rwa [same, Function.update_self]
    · rw [same, Function.update_of_ne here]
      exact balanced c'
  cases step with
  | @isend _ p src c running done =>
    rcases isend_cases orderly done with ⟨noRecv, ch, put, rfl⟩ | ⟨noRecv, put, rfl⟩ | ⟨q, ps, first, rfl⟩
    · rcases (balanced c).ok.cputb (s.mem src) with ⟨none, _⟩ | ⟨ch', put', ok, room, _, _, capacity, send, recv⟩
      · rw [none] at put
        cases put
      · cases put.symm.trans put'
        refine ⟨orderly.congr (fun e c' => ?_) rfl (List.Perm.refl _), replaced _ c ch rfl ⟨ok, fun waits => ?_, fun waits => ?_⟩⟩
        · by_cases here : c' = c
          · subst here
            cases e <;> simp [Sys.queue, Sys.setChan, Channel.queue, send, recv]
          · simp [Sys.queue, Sys.setChan, here]
        · rw [recv] at waits
          exact absurd noRecv waits
        · rw [send] at waits
          exact absurd ((balanced c).full waits) room
    · refine ⟨orderly.slept running, replaced _ c _ rfl ⟨(balanced c).ok.setQueue _ _, fun waits => absurd noRecv waits, fun _ => ?_⟩⟩
      rcases (balanced c).ok.cputb (s.mem src) with ⟨_, full⟩ | ⟨ch', put', _⟩
      · exact fun n slots => full n slots
      · rw [put'] at put
        cases put
    · exact ⟨orderly.woken first fun e => Channel.queue_setQueue _ _ e _,
        replaced _ c _ rfl ((balanced c).setQueue_recv first)⟩
  | @irecv _ p dst c running done =>
    rcases irecv_cases orderly (balanced c) done with
      ⟨noSend, v, ch, got, rfl⟩ | ⟨noSend, got, rfl⟩ | ⟨q, ps, first, ⟨_, rfl⟩ | ⟨v, ch, ch', got, put, rfl⟩⟩
    · rcases (balanced c).ok.cgetb with ⟨none, _⟩ | ⟨v', ch', got', ok, _, size, capacity, send, recv⟩
      · rw [none] at got
        cases got
      · cases got.symm.trans got'
        refine ⟨orderly.congr (fun e c' => ?_) rfl (List.Perm.refl _), replaced _ c ch rfl ⟨ok, fun waits => ?_, fun waits => ?_⟩⟩
        · by_cases here : c' = c
          · subst here
            cases e <;> simp [Sys.queue, Sys.setChan, Sys.store, Channel.queue, send, recv]
          · simp [Sys.queue, Sys.setChan, Sys.store, here]
        · rw [recv] at waits
          have := ((balanced c).idle waits).1
          omega
        · rw [send] at waits
          exact absurd noSend waits
    · refine ⟨orderly.slept running, replaced _ c _ rfl ⟨(balanced c).ok.setQueue _ _, fun _ => ⟨?_, noSend⟩, fun waits => absurd noSend waits⟩⟩
      rcases (balanced c).ok.cgetb with ⟨_, empty⟩ | ⟨v', ch', got', _⟩
      · rwa [Channel.setQueue_size]
      · rw [got'] at got
        cases got
    · exact ⟨orderly.woken first fun e => Channel.queue_setQueue _ _ e _,
        replaced _ c _ rfl ((balanced c).setQueue_send first)⟩
    · have left := (balanced c).setQueue_send first
      rcases left.ok.cgetb with ⟨none, _⟩ | ⟨v', mid, got', okMid, _, sizeMid, capacityMid, sendMid, recvMid⟩
      · rw [none] at got
        cases got
      cases got.symm.trans got'
      rcases okMid.cputb (Function.update s.mem dst v (s.prog q).ptr) with
        ⟨none, _⟩ | ⟨last, put', ok, _, _, size, capacity, send, recv⟩
      · rw [none] at put
        cases put
      cases put.symm.trans put'
      refine ⟨orderly.woken first fun e => ?_, replaced _ c _ rfl ⟨ok, fun waits => ?_, fun waits n slots => ?_⟩⟩
      · cases e <;> simp [Channel.queue, Channel.setQueue, Sys.queue, send, recv, sendMid, recvMid]
      · have none := ((balanced c).idle (by simpa [recv, recvMid, Channel.setQueue] using waits)).2
        rw [show waiting (s.chan c).send = q :: ps from first] at none
        cases none
      · have full := (balanced c).full (by rw [show waiting (s.chan c).send = q :: ps from first]; simp) n
          (by rw [← Channel.capacity_setQueue _ .send (ofWaiting ps), ← capacityMid, ← capacity, slots])
        rw [Channel.setQueue_size] at sizeMid
        omega
  | store => exact ⟨orderly.congr (fun _ _ => rfl) rfl (List.Perm.refl _), balanced⟩
  | yield => exact ⟨orderly.congr (fun _ _ => rfl) rfl (List.rotate_perm _ _), balanced⟩

end Balance

end Inferno.Dis
