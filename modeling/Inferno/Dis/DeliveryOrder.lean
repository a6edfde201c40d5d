import Inferno.Dis.DeliveryInv

namespace Inferno.Dis

open Progq

variable {V : Type} {s s' : Sys V} {p q : Pid} {a src dst : Addr} {c c' : Cid} {v : V} {ps : List Pid}
  {op : ChanOp V} {sent received : List V}

/-- Everything sent on `c` was received, is in the buffer, or waits with its sender, in that order. -/
def Sys.Accounts (s : Sys V) (c : Cid) (sent received : List V) : Prop :=
  sent = received ++ ((s.chan c).contents ++ s.pending c)

theorem Sys.pending_congr (queues : waiting (s'.queue .send c) = waiting (s.queue .send c))
    (operands : ∀ r ∈ waiting (s.queue .send c), s'.mem (s'.prog r).ptr = s.mem (s.prog r).ptr) :
    s'.pending c = s.pending c := by
  rw [Sys.pending, Sys.pending, queues]
  exact List.map_congr_left operands

/-- Going to sleep elsewhere, or to receive, leaves what the senders of `c` hold. -/
theorem Sys.Orderly.pending_slept (orderly : s.Orderly) (running : s.runq.head? = some p) {d : Dir}
    (other : ¬ (.send = d ∧ c = c')) : (s.slept d p a c').pending c = s.pending c := by
  refine Sys.pending_congr (by rw [Sys.queue_slept, if_neg other]) fun r member => ?_
  have awake : r ≠ p := fun same =>
    orderly.not_waiting (orderly.ready_of_running running) .send c (same ▸ member)
  change s.mem (Function.update s.prog p _ r).ptr = _
  rw [Function.update_of_ne awake]

theorem Sys.Orderly.pending_slept_send (orderly : s.Orderly) (running : s.runq.head? = some p) :
    (s.slept .send p a c).pending c = s.pending c ++ [s.mem a] := by
  rw [Sys.pending, Sys.queue_slept, if_pos ⟨rfl, rfl⟩, waiting_ofWaiting, List.map_append]
  congr 1
  · refine List.map_congr_left fun r member => ?_
    have awake : r ≠ p := fun same =>
      orderly.not_waiting (orderly.ready_of_running running) .send c (same ▸ member)
    change s.mem (Function.update s.prog p _ r).ptr = _
    rw [Function.update_of_ne awake]
  · change [s.mem (Function.update s.prog p _ p).ptr] = _
    rw [Function.update_self]

/-- After a Prog was woken the other senders' operands are as they were, if
the store went elsewhere. -/
theorem Sys.operand_woken {ch : Channel V} {r : Pid} (other : r ≠ q) (apart : a ≠ (s.prog r).ptr) :
    (s.woken q c ch a v).mem ((s.woken q c ch a v).prog r).ptr = s.mem (s.prog r).ptr := by
  change Function.update s.mem a v (Function.update s.prog q _ r).ptr = _
  rw [Function.update_of_ne other, Function.update_of_ne apart.symm]

/-- A step on another channel. -/
theorem ChanStep.accounts_elsewhere {d : Dir} (orderly : s.Orderly) (elsewhere : c ≠ c')
    (accounts : s.Accounts c sent received) {ch : Channel V} (first : waiting (s.queue d c') = q :: ps)
    (left : ∀ e, ch.queue e = if e = d then ofWaiting ps else s.queue e c')
    (apart : ∀ r ∈ waiting (s.queue .send c), a ≠ (s.prog r).ptr) :
    (s.woken q c' ch a v).Accounts c sent received := by
  have channel : (s.woken q c' ch a v).chan c = s.chan c := Function.update_of_ne elsewhere _ _
  rw [Sys.Accounts, channel, accounts]
  congr 2
  refine (Sys.pending_congr ?_ fun r member => Sys.operand_woken (fun same => ?_) (apart r member)).symm
  · rw [Sys.queue_woken left, if_neg fun here => elsewhere here.2]
  · have blockedHere := (orderly.blocked .send c r member).2
    have blockedThere := (orderly.blocked d c' q (first ▸ List.mem_cons_self)).2
    rw [same, blockedThere] at blockedHere
    exact elsewhere blockedHere.symm

theorem Sys.pending_of_no_sender (none : waiting (s.queue .send c) = []) : s.pending c = [] := by
  rw [Sys.pending, none, List.map_nil]

/-- A send on `c` is accounted for: in the buffer, with the sleeping sender, or
already with the receiver. -/
theorem isend_accounts (orderly : s.Orderly) (balanced : ∀ c, (s.chan c).Balanced)
    (running : s.runq.head? = some p) (done : s.isend p src c' = some s')
    (undisturbed : Undisturbed c s (.isend p src c')) (accounts : s.Accounts c sent received) :
    s'.Accounts c (sent ++ sentBy c s (.isend p src c')) (received ++ receivedBy c s s' (.isend p src c')) := by
  by_cases here : c' = c
  · subst here
    simp only [sentBy, receivedBy, if_true]
    rcases isend_cases orderly done with ⟨noRecv, ch, put, rfl⟩ | ⟨noRecv, put, rfl⟩ | ⟨q, ps, first, rfl⟩
    · rcases (balanced c').ok.cputb (s.mem src) with
        ⟨none, _⟩ | ⟨ch', put', _, room, contents, _, _, send, _⟩
      · rw [none] at put
        exact nomatch put
      cases put.symm.trans put'
      have noSend : waiting (s.queue .send c') = [] := by
        by_contra waits
        exact room ((balanced c').full waits)
      have noSend' : waiting ((s.setChan c' ch).queue .send c') = [] := by
        rw [← noSend]
        simp [Sys.queue, Sys.setChan, Channel.queue, send]
      have channel : (s.setChan c' ch).chan c' = ch := Function.update_self _ _ _
      rw [Sys.Accounts] at accounts ⊢
      rw [noRecv, channel, contents, Sys.pending_of_no_sender noSend', accounts, Sys.pending_of_no_sender noSend]
      simp
    · have channel : (s.slept .send p src c').chan c' = (s.chan c').setQueue .send _ := Function.update_self _ _ _
      rw [Sys.Accounts] at accounts ⊢
      rw [noRecv, channel, Channel.contents_setQueue, orderly.pending_slept_send running, accounts]
      simp
    · obtain ⟨empty, noSend⟩ := (balanced c').idle (by rw [show waiting (s.chan c').recv = q :: ps from first]; simp)
      have noSend' : waiting ((s.woken q c' ((s.chan c').setQueue .recv (ofWaiting ps)) (s.prog q).ptr
          (s.mem src)).queue .send c') = [] := by
        rw [Sys.queue_woken fun e => Channel.queue_setQueue _ _ e _, if_neg (by simp)]
        exact noSend
      have channel : (s.woken q c' ((s.chan c').setQueue .recv (ofWaiting ps)) (s.prog q).ptr (s.mem src)).chan c' =
          (s.chan c').setQueue .recv (ofWaiting ps) := Function.update_self _ _ _
      have delivered : (s.woken q c' ((s.chan c').setQueue .recv (ofWaiting ps)) (s.prog q).ptr (s.mem src)).mem
          (s.prog q).ptr = s.mem src := Function.update_self _ _ _
      rw [Sys.Accounts] at accounts ⊢
      rw [channel, Channel.contents_setQueue, Channel.contents_of_size_zero empty,
        Sys.pending_of_no_sender noSend', accounts, Channel.contents_of_size_zero empty,
        Sys.pending_of_no_sender noSend, first]
      simp [delivered]
  · simp only [sentBy, receivedBy, if_neg here, List.append_nil]
    rcases isend_cases orderly done with ⟨_, ch, _, rfl⟩ | ⟨_, _, rfl⟩ | ⟨q, ps, first, rfl⟩
    · have channel : (s.setChan c' ch).chan c = s.chan c := Function.update_of_ne (Ne.symm here) _ _
      have queues : waiting ((s.setChan c' ch).queue .send c) = waiting (s.queue .send c) := by
        rw [Sys.queue, channel, Sys.queue]
      rw [Sys.Accounts, channel, Sys.pending_congr queues fun _ _ => rfl]
      exact accounts
    · have channel : (s.slept .send p src c').chan c = s.chan c := Function.update_of_ne (Ne.symm here) _ _
      rw [Sys.Accounts, channel, orderly.pending_slept running fun both => here both.2.symm]
      exact accounts
    · refine ChanStep.accounts_elsewhere orderly (Ne.symm here) accounts first
        (fun e => Channel.queue_setQueue _ _ e _) fun r member same => ?_
      refine undisturbed r member (by simp [directSender]) ?_
      simp [storedBy, first, same]

/-- The first sender of a queue is woken and the operands of the rest stay. -/
theorem Sys.Orderly.pending_woken (orderly : s.Orderly) (first : waiting (s.queue .send c) = q :: ps)
    {ch : Channel V} (left : ∀ e, ch.queue e = if e = .send then ofWaiting ps else s.queue e c)
    (apart : ∀ r ∈ ps, dst ≠ (s.prog r).ptr) :
    s.pending c = s.mem (s.prog q).ptr :: (s.woken q c ch dst v).pending c := by
  have distinct := orderly.distinct .send c
  rw [first, List.nodup_cons] at distinct
  rw [Sys.pending, first, Sys.pending, Sys.queue_woken left, if_pos ⟨rfl, rfl⟩, waiting_ofWaiting, List.map_cons]
  congr 1
  refine (List.map_congr_left fun r member => ?_).symm
  exact Sys.operand_woken (fun same => distinct.1 (same ▸ member)) (apart r member)

theorem Sys.Orderly.woken_ready (orderly : s.Orderly) (running : s.runq.head? = some p) {d : Dir}
    (first : waiting (s.queue d c) = q :: ps) {ch : Channel V} :
    ((s.woken q c ch a v).prog p).state = .ready := by
  have ready := orderly.ready_of_running running
  have awake : p ≠ q := fun same => orderly.not_waiting ready d c (first ▸ same ▸ List.mem_cons_self)
  change (Function.update s.prog q _ p).state = _
  rw [Function.update_of_ne awake, ready]

/-- A receive on `c` takes the oldest value that is accounted for, and a sender
it lets go leaves its own behind in the buffer. -/
theorem irecv_accounts_here (orderly : s.Orderly) (balanced : (s.chan c).Balanced)
    (running : s.runq.head? = some p) (done : s.irecv p dst c = some s')
    (undisturbed : Undisturbed c s (.irecv p dst c)) (accounts : s.Accounts c sent received) :
    s'.Accounts c sent (received ++ if (s'.prog p).state = .ready then [s'.mem dst] else []) := by
  have ready := orderly.ready_of_running running
  rw [Sys.Accounts] at accounts ⊢
  rcases irecv_cases orderly balanced done with
    ⟨noSend, v, ch, got, rfl⟩ | ⟨noSend, got, rfl⟩ | ⟨q, ps, first, ⟨unbuffered, rfl⟩ | ⟨v, mid, ch, got, put, rfl⟩⟩
  · rcases balanced.ok.cgetb with ⟨none, _⟩ | ⟨v', ch', got', _, contents, _, _, send, _⟩
    · rw [none] at got
      cases got
    cases got.symm.trans got'
    have noSend' : waiting (((s.setChan c ch).store dst v).queue .send c) = [] := by
      rw [← noSend]
      simp [Sys.queue, Sys.setChan, Sys.store, Channel.queue, send]
    have channel : ((s.setChan c ch).store dst v).chan c = ch := Function.update_self _ _ _
    have delivered : ((s.setChan c ch).store dst v).mem dst = v := Function.update_self _ _ _
    have awake : (((s.setChan c ch).store dst v).prog p).state = .ready := ready
    rw [if_pos awake, delivered, channel, Sys.pending_of_no_sender noSend', accounts, contents,
      Sys.pending_of_no_sender noSend]
    simp
  · have asleep : ((s.slept .recv p dst c).prog p).state = .recv := by
      change (Function.update s.prog p _ p).state = _
      rw [Function.update_self]
      rfl
    have channel : (s.slept .recv p dst c).chan c = (s.chan c).setQueue .recv _ := Function.update_self _ _ _
    rw [if_neg (by rw [asleep]; decide), List.append_nil, channel, Channel.contents_setQueue,
      orderly.pending_slept running (by simp)]
    exact accounts
  · have direct : directSender s (.irecv p dst c : ChanOp V) = some q := by simp [directSender, unbuffered, first]
    have distinct := orderly.distinct .send c
    rw [first, List.nodup_cons] at distinct
    have apart : ∀ r ∈ ps, dst ≠ (s.prog r).ptr := by
      intro r member same
      refine undisturbed r (first ▸ List.mem_cons_of_mem _ member) ?_ (by simp [storedBy, same])
      rw [direct]
      exact fun equal => distinct.1 (Option.some.inj equal ▸ member)
    have contents : ∀ d q, ((s.chan c).setQueue d q).contents = [] := by
      intro d q
      rw [Channel.contents_setQueue, Channel.contents, unbuffered]
    have channel : (s.woken q c ((s.chan c).setQueue .send (ofWaiting ps)) dst (s.mem (s.prog q).ptr)).chan c =
        (s.chan c).setQueue .send (ofWaiting ps) := Function.update_self _ _ _
    have delivered : (s.woken q c ((s.chan c).setQueue .send (ofWaiting ps)) dst (s.mem (s.prog q).ptr)).mem dst =
        s.mem (s.prog q).ptr := Function.update_self _ _ _
    have pending := orderly.pending_woken first (fun e => Channel.queue_setQueue (s.chan c) .send e (ofWaiting ps))
      apart (v := s.mem (s.prog q).ptr)
    rw [if_pos (orderly.woken_ready running first), delivered, channel, contents, accounts, pending,
      ← Channel.contents_setQueue (s.chan c) .send (ofWaiting ps), contents]
    simp
  · have buffered : (s.chan c).buf.isSome := by
      cases at_ : (s.chan c).buf with
      | none => simp [Channel.cgetb, at_] at got
      | some _ => rfl
    have direct : directSender s (.irecv p dst c : ChanOp V) = none := by simp [directSender, buffered]
    have apart : ∀ r ∈ waiting (s.queue .send c), dst ≠ (s.prog r).ptr := by
      intro r member same
      exact undisturbed r member (by rw [direct]; simp) (by simp [storedBy, same])
    have operand : Function.update s.mem dst v (s.prog q).ptr = s.mem (s.prog q).ptr :=
      Function.update_of_ne (apart q (first ▸ List.mem_cons_self)).symm _ _
    have left := balanced.ok.setQueue .send (ofWaiting ps)
    rcases left.cgetb with ⟨none, _⟩ | ⟨v', mid', got', okMid, oldest, _, _, sendMid, recvMid⟩
    · rw [none] at got
      cases got
    cases got.symm.trans got'
    rw [operand] at put
    rcases okMid.cputb (s.mem (s.prog q).ptr) with ⟨none, _⟩ | ⟨ch', put', _, _, newest, _, _, send, recv⟩
    · rw [none] at put
      cases put
    cases put.symm.trans put'
    rw [Channel.contents_setQueue] at oldest
    have queues : ∀ e, ch.queue e = if e = .send then ofWaiting ps else s.queue e c := by
      intro e
      cases e <;> simp [Channel.queue, Channel.setQueue, Sys.queue, send, recv, sendMid, recvMid]
    have channel : (s.woken q c ch dst v).chan c = ch := Function.update_self _ _ _
    have delivered : (s.woken q c ch dst v).mem dst = v := Function.update_self _ _ _
    have pending := orderly.pending_woken first queues
      (fun r member => apart r (first ▸ List.mem_cons_of_mem _ member)) (v := v)
    rw [if_pos (orderly.woken_ready running first), delivered, channel, newest, accounts, oldest, pending]
    simp

theorem irecv_accounts (orderly : s.Orderly) (balanced : ∀ c, (s.chan c).Balanced)
    (running : s.runq.head? = some p) (done : s.irecv p dst c' = some s')
    (undisturbed : Undisturbed c s (.irecv p dst c')) (accounts : s.Accounts c sent received) :
    s'.Accounts c (sent ++ sentBy c s (.irecv p dst c')) (received ++ receivedBy c s s' (.irecv p dst c')) := by
  by_cases here : c' = c
  · subst here
    simp only [sentBy, receivedBy, true_and, List.append_nil]
    exact irecv_accounts_here orderly (balanced c') running done undisturbed accounts
  · simp only [sentBy, receivedBy, here, false_and, if_false, List.append_nil]
    have apart : ∀ r ∈ waiting (s.queue .send c), dst ≠ (s.prog r).ptr := by
      intro r member same
      refine undisturbed r member (fun direct => ?_) (by simp [storedBy, same])
      -- a sender on `c` is not the one a receive on another channel takes from
      have there : r ∈ waiting (s.queue .send c') := by
        simp only [directSender] at direct
        split at direct
        · cases direct
        · exact List.mem_of_head? direct
      have blockedHere := (orderly.blocked .send c r member).2
      rw [(orderly.blocked .send c' r there).2] at blockedHere
      exact here blockedHere
    rcases irecv_cases orderly (balanced c') done with
      ⟨_, v, ch, _, rfl⟩ | ⟨_, _, rfl⟩ | ⟨q, ps, first, ⟨_, rfl⟩ | ⟨v, mid, ch, got, put, rfl⟩⟩
    · have channel : ((s.setChan c' ch).store dst v).chan c = s.chan c := Function.update_of_ne (Ne.symm here) _ _
      have queues : waiting (((s.setChan c' ch).store dst v).queue .send c) = waiting (s.queue .send c) := by
        rw [Sys.queue, channel, Sys.queue]
      rw [Sys.Accounts, channel, Sys.pending_congr queues fun r member =>
        Function.update_of_ne (apart r member).symm _ _]
      exact accounts
    · have channel : (s.slept .recv p dst c').chan c = s.chan c := Function.update_of_ne (Ne.symm here) _ _
      rw [Sys.Accounts, channel, orderly.pending_slept running (by simp)]
      exact accounts
    · exact ChanStep.accounts_elsewhere orderly (Ne.symm here) accounts first
        (fun e => Channel.queue_setQueue _ _ e _) apart
    · have queues : ∀ e, ch.queue e = if e = .send then ofWaiting ps else s.queue e c' := by
        have left := (balanced c').ok.setQueue .send (ofWaiting ps)
        rcases left.cgetb with ⟨none, _⟩ | ⟨v', mid', got', okMid, _, _, _, sendMid, recvMid⟩
        · rw [none] at got
          cases got
        cases got.symm.trans got'
        rcases okMid.cputb (Function.update s.mem dst v (s.prog q).ptr) with
          ⟨none, _⟩ | ⟨ch', put', _, _, _, _, _, send, recv⟩
        · rw [none] at put
          cases put
        cases put.symm.trans put'
        intro e
        cases e <;> simp [Channel.queue, Channel.setQueue, Sys.queue, send, recv, sendMid, recvMid]
      exact ChanStep.accounts_elsewhere orderly (Ne.symm here) accounts first queues apart

theorem ChanStep.accounts (step : ChanStep s op s') (orderly : s.Orderly) (balanced : ∀ c, (s.chan c).Balanced)
    (undisturbed : Undisturbed c s op) (accounts : s.Accounts c sent received) :
    s'.Accounts c (sent ++ sentBy c s op) (received ++ receivedBy c s s' op) := by
  cases step with
  | isend running done => exact isend_accounts orderly balanced running done undisturbed accounts
  | irecv running done => exact irecv_accounts orderly balanced running done undisturbed accounts
  | @store a v =>
    simp only [sentBy, receivedBy, List.append_nil]
    have kept : (s.store a v).pending c = s.pending c := Sys.pending_congr rfl fun r member =>
      Function.update_of_ne (fun same => undisturbed r member (by simp [directSender]) (List.mem_singleton.mpr same)) _ _
    rw [Sys.Accounts, kept]
    exact accounts
  | yield =>
    simp only [sentBy, receivedBy, List.append_nil]
    exact accounts

/-- The invariant of a whole run. -/
theorem CleanRun.invariant {s₀ : Sys V} (fresh : s₀.Fresh) (run : CleanRun c s₀ s sent received) :
    s.Orderly ∧ (∀ c, (s.chan c).Balanced) ∧ s.Accounts c sent received := by
  induction run with
  | start =>
    have empty : waiting (s₀.queue .send c) = [] := by
      rw [fresh.queue]
      rfl
    refine ⟨fresh.orderly, fresh.balanced, ?_⟩
    obtain ⟨len, fill, init, made⟩ := fresh.chans c
    rw [Sys.Accounts, Sys.pending_of_no_sender empty, made, Channel.contents_of_size_zero rfl]
    rfl
  | step before next undisturbed ih =>
    obtain ⟨orderly, balanced, accounts⟩ := ih
    obtain ⟨orderly', balanced'⟩ := next.keeps orderly balanced
    exact ⟨orderly', balanced', next.accounts orderly balanced undisturbed accounts⟩

/-- A regular queue is never a nil pointer, so both operations return. -/
theorem Sys.Orderly.returns (orderly : s.Orderly) (p : Pid) (a : Addr) (c : Cid) :
    (s.isend p a c).isSome ∧ (s.irecv p a c).isSome := by
  have head : ∀ d, (s.queue d c).head? = some (waiting (s.queue d c)).head? := by
    intro d
    conv_lhs => rw [(orderly.sound d c).eq]
    exact head_ofWaiting _
  have added : ∀ d, cqadd p (s.queue d c) = some (ofWaiting (waiting (s.queue d c) ++ [p])) := by
    intro d
    conv_lhs => rw [(orderly.sound d c).eq]
    exact cqadd_ofWaiting _ _
  have popped : ∀ d, cqdel (s.queue d c) = some (ofWaiting (waiting (s.queue d c)).tail) := by
    intro d
    conv_lhs => rw [(orderly.sound d c).eq]
    exact cqdel_ofWaiting _
  have headSend : (s.chan c).send.head? = some (waiting (s.queue .send c)).head? := head .send
  have headRecv : (s.chan c).recv.head? = some (waiting (s.queue .recv c)).head? := head .recv
  constructor
  · rw [Sys.isend, headRecv]
    simp only [Option.bind_eq_bind, Option.bind_some]
    cases (waiting (s.queue .recv c)).head? with
    | none =>
      cases (s.chan c).cputb (s.mem a) with
      | some ch => rfl
      | none =>
        have slept := added .send
        simp only [Option.pure_def]
        change (Option.bind (cqadd p (s.queue .send c)) _).isSome = true
        rw [slept]
        rfl
    | some q =>
      simp only [popped .recv, Option.bind_some, Sys.releaseAlt, Option.pure_def]
      rw [if_neg (by simpa [Sys.setQueue, Sys.setChan] using orderly.noAlt q)]
      rfl
  · rw [Sys.irecv, headSend]
    simp only [Option.bind_eq_bind, Option.bind_some]
    cases (waiting (s.queue .send c)).head? with
    | none =>
      cases (s.chan c).cgetb with
      | some vch => rfl
      | none =>
        have slept := added .recv
        simp only [Option.pure_def]
        change (Option.bind (cqadd p (s.queue .recv c)) _).isSome = true
        rw [slept]
        rfl
    | some q =>
      simp only [popped .send, Option.bind_some, Sys.releaseAlt, Option.pure_def]
      rw [if_neg (by simpa [Sys.setQueue, Sys.setChan] using orderly.noAlt q)]
      simp only [Option.bind_some]
      split <;> rfl

/-- Channel delivery. In a run that does not overwrite the operand of a Prog
while it waits to send, the values received on a channel are a prefix of the
values sent: what is missing is in the buffer or still with its sender, in
order. A Prog waits to receive only at an empty buffer without senders, to send
only at a full one, and no operation meets a nil queue. -/
theorem channel_delivers_in_order {s₀ s : Sys V} {c : Cid} {sent received : List V} (fresh : s₀.Fresh)
    (run : CleanRun c s₀ s sent received) :
    received <+: sent ∧ sent = received ++ ((s.chan c).contents ++ s.pending c) ∧
      (waiting (s.queue .recv c) ≠ [] → (s.chan c).size = 0 ∧ waiting (s.queue .send c) = []) ∧
      (waiting (s.queue .send c) ≠ [] → ∀ a, (s.chan c).buf = some a → (s.chan c).size = a.length) ∧
      ∀ p a c', (s.isend p a c').isSome ∧ (s.irecv p a c').isSome := by
  obtain ⟨orderly, balanced, accounts⟩ := run.invariant fresh
  refine ⟨⟨_, accounts.symm⟩, accounts, (balanced c).idle, fun waits a buffered => ?_, orderly.returns⟩
  exact (balanced c).full waits a.length (by rw [Channel.capacity, buffered, Option.map_some])

/-- Three Progs and channels with one slot each; location 1 holds 10 and 2 holds 20. -/
def oneSlot : Sys Int where
  chan _ := Channel.cnewc 1 0 none
  prog _ := ⟨.ready, 0, 0, ⟨[], []⟩, 0, 0⟩
  runq := [1, 2, 3]
  mem a := if a = 1 then 10 else if a = 2 then 20 else 0

theorem oneSlot_fresh : oneSlot.Fresh :=
  ⟨fun _ => ⟨1, 0, none, rfl⟩, fun _ => ⟨by simp [oneSlot], fun d => by cases d <;> simp [oneSlot, Dir.blocked]⟩, fun _ _ => rfl,
    by decide⟩

/-- One value through the buffer. -/
theorem channel_delivers_one : [10] <+: [(10 : Int)] := by
  have start : CleanRun 0 oneSlot oneSlot [] [] := .start
  have put := start.step (.isend rfl rfl : ChanStep oneSlot (.isend 1 1 0) _) fun q member => nomatch member
  have got := put.step (.irecv rfl rfl : ChanStep _ (.irecv 1 3 0) _) fun q member => nomatch member
  exact (channel_delivers_in_order oneSlot_fresh got).1

/-- Prog 2 waits to send the 20 at location 2 when Prog 3 receives into that
location. The 10 stored there goes back into the buffer and is received twice,
the 20 never. -/
theorem channel_value_duplicated :
    oneSlot.Fresh ∧ ∃ s, ChanRun 0 oneSlot s [10, 20] [10, 10] ∧ ¬ [10, 10] <+: [(10 : Int), 20] := by
  have start : ChanRun 0 oneSlot oneSlot [] [] := .start
  have put := start.step (.isend rfl rfl : ChanStep oneSlot (.isend 1 1 0) _)
  have next := put.step .yield
  have waits := next.step (.isend rfl rfl : ChanStep _ (.isend 2 2 0) _)
  have got := waits.step (.irecv rfl rfl : ChanStep _ (.irecv 3 2 0) _)
  have again := got.step (.irecv rfl rfl : ChanStep _ (.irecv 3 3 0) _)
  exact ⟨oneSlot_fresh, _, again, by decide⟩

end Inferno.Dis
