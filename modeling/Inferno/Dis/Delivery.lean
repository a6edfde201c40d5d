import Inferno.Dis.ChanBuf
import Inferno.Dis.Waitq

namespace Inferno.Dis

open Progq

variable {V : Type}

/-- What happens between two states: a send or a receive by the running Prog,
a store by any other instruction, or the next Prog's turn. -/
inductive ChanOp (V : Type)
  | isend (p : Pid) (src : Addr) (c : Cid)
  | irecv (p : Pid) (dst : Addr) (c : Cid)
  | store (a : Addr) (v : V)
  | yield

inductive ChanStep : Sys V → ChanOp V → Sys V → Prop
  | isend {s s' : Sys V} {p src c} (running : s.runq.head? = some p) (done : s.isend p src c = some s') :
      ChanStep s (.isend p src c) s'
  | irecv {s s' : Sys V} {p dst c} (running : s.runq.head? = some p) (done : s.irecv p dst c = some s') :
      ChanStep s (.irecv p dst c) s'
  | store {s : Sys V} {a v} : ChanStep s (.store a v) (s.store a v)
  | yield {s : Sys V} : ChanStep s .yield { s with runq := s.runq.rotate 1 }

/-- The value a step sends on channel `c`: what the operand holds when `isend` is executed. -/
def sentBy (c : Cid) (s : Sys V) : ChanOp V → List V
  | .isend _ src d => if d = c then [s.mem src] else []
  | _ => []

/-- The value a step delivers on channel `c`: what the receiver's operand holds afterwards. -/
def receivedBy (c : Cid) (s s' : Sys V) : ChanOp V → List V
  | .isend _ _ d =>
    if d = c then (waiting (s.queue .recv c)).head?.toList.map fun q => s'.mem (s.prog q).ptr else []
  | .irecv p dst d => if d = c ∧ (s'.prog p).state = .ready then [s'.mem dst] else []
  | _ => []

/-- The locations a step stores into. -/
def storedBy (s : Sys V) : ChanOp V → List Addr
  | .isend _ _ c => (waiting (s.queue .recv c)).head?.toList.map fun q => (s.prog q).ptr
  | .irecv _ dst _ => [dst]
  | .store a _ => [a]
  | .yield => []

/-- The sender from which a receive takes its value directly. -/
def directSender (s : Sys V) : ChanOp V → Option Pid
  | .irecv _ _ c => if (s.chan c).buf.isSome then none else (waiting (s.queue .send c)).head?
  | _ => none

/-- The step leaves the operands of the Progs that wait to send on `c` alone. -/
def Undisturbed (c : Cid) (s : Sys V) (op : ChanOp V) : Prop :=
  ∀ q ∈ waiting (s.queue .send c), directSender s op ≠ some q → (s.prog q).ptr ∉ storedBy s op

/-- Runs, with the values sent and received on channel `c` so far. -/
inductive ChanRun (c : Cid) (s₀ : Sys V) : Sys V → List V → List V → Prop
  | start : ChanRun c s₀ s₀ [] []
  | step {s s' sent received op} (before : ChanRun c s₀ s sent received) (next : ChanStep s op s') :
      ChanRun c s₀ s' (sent ++ sentBy c s op) (received ++ receivedBy c s s' op)

/-- Runs that never overwrite the operand of a Prog waiting to send on `c`. -/
inductive CleanRun (c : Cid) (s₀ : Sys V) : Sys V → List V → List V → Prop
  | start : CleanRun c s₀ s₀ [] []
  | step {s s' sent received op} (before : CleanRun c s₀ s sent received) (next : ChanStep s op s')
      (undisturbed : Undisturbed c s op) :
      CleanRun c s₀ s' (sent ++ sentBy c s op) (received ++ receivedBy c s s' op)

/-- The part of the invariant that is about queues and Progs. -/
structure Sys.Orderly (s : Sys V) : Prop where
  noAlt : ∀ p, (s.prog p).state ≠ .alt
  sound : ∀ d c, (s.queue d c).Sound
  blocked : ∀ d c, ∀ p ∈ waiting (s.queue d c), (s.prog p).state = d.blocked ∧ (s.prog p).chan = c
  distinct : ∀ d c, (waiting (s.queue d c)).Nodup
  running : ∀ p ∈ s.runq, (s.prog p).state = .ready
  nodup : s.runq.Nodup

/-- The part that is about one channel: Progs wait only where they must. -/
structure Channel.Balanced (ch : Channel V) : Prop where
  ok : ch.Ok
  idle : waiting ch.recv ≠ [] → ch.size = 0 ∧ waiting ch.send = []
  full : waiting ch.send ≠ [] → ch.Full

/-- The values the Progs waiting to send on `c` have yet to hand over. -/
def Sys.pending (s : Sys V) (c : Cid) : List V :=
  (waiting (s.queue .send c)).map fun q => s.mem (s.prog q).ptr

theorem Sys.Fresh.orderly {s : Sys V} (fresh : s.Fresh) : s.Orderly := by
  have empty := fresh.queue
  refine ⟨fun p => (fresh.idle p).1, fun d c => Or.inl (empty d c), fun d c p member => ?_, fun d c => ?_,
    fresh.running, fresh.nodup⟩
  · rw [empty d c] at member
    exact nomatch member
  · rw [empty d c]
    exact List.nodup_nil

theorem Sys.Fresh.balanced {s : Sys V} (fresh : s.Fresh) (c : Cid) : (s.chan c).Balanced := by
  obtain ⟨len, fill, init, made⟩ := fresh.chans c
  rw [made]
  exact ⟨Channel.ok_cnewc len fill init, fun waits => absurd rfl waits, fun waits => absurd rfl waits⟩

/-- The state after `p` has been put to sleep on a queue of channel `c`. -/
def Sys.slept (s : Sys V) (d : Dir) (p : Pid) (a : Addr) (c : Cid) : Sys V :=
  { s.setQueue d c (ofWaiting (waiting (s.queue d c) ++ [p])) with
    prog := Function.update s.prog p { s.prog p with state := d.blocked, ptr := a, chan := c }
    runq := s.runq.tail }

/-- The state after the first Prog of a queue was woken, channel `c` left as
`ch` and `v` stored at `a`. -/
def Sys.woken (s : Sys V) (q : Pid) (c : Cid) (ch : Channel V) (a : Addr) (v : V) : Sys V where
  chan := Function.update s.chan c ch
  prog := Function.update s.prog q { s.prog q with state := .ready, ptr := 0 }
  runq := s.runq ++ [q]
  mem := Function.update s.mem a v

theorem Sys.slept_eq {s : Sys V} {d : Dir} {p : Pid} {a : Addr} {c : Cid} {q : Progq}
    (sound : (s.queue d c).Sound) (added : cqadd p (s.queue d c) = some q) :
    ((s.delrun p d.blocked).setProg p
      { (s.delrun p d.blocked).prog p with ptr := a, chan := c }).setQueue d c q = s.slept d p a c := by
  rw [sound.eq, cqadd_ofWaiting] at added
  cases added
  simp [Sys.slept, Sys.setQueue, Sys.setProg, Sys.setChan, Sys.delrun]

/-- The three things `isend` can do when no Prog is in an alternation. -/
theorem isend_cases {s s' : Sys V} {p : Pid} {src : Addr} {c : Cid} (orderly : s.Orderly)
    (done : s.isend p src c = some s') :
    (waiting (s.queue .recv c) = [] ∧ ∃ ch, (s.chan c).cputb (s.mem src) = some ch ∧ s' = s.setChan c ch) ∨
    (waiting (s.queue .recv c) = [] ∧ (s.chan c).cputb (s.mem src) = none ∧ s' = s.slept .send p src c) ∨
    (∃ q ps, waiting (s.queue .recv c) = q :: ps ∧
      s' = s.woken q c ((s.chan c).setQueue .recv (ofWaiting ps)) (s.prog q).ptr (s.mem src)) := by
  have recvSound := orderly.sound .recv c
  have head : (s.chan c).recv.head? = some (waiting (s.queue .recv c)).head? := by
    change (s.queue .recv c).head? = _
    conv_lhs => rw [recvSound.eq]
    exact head_ofWaiting _
  rw [Sys.isend, head] at done
  simp only [Option.bind_eq_bind, Option.bind_some] at done
  cases waits : waiting (s.queue .recv c) with
  | nil =>
    rw [waits] at done
    cases put : (s.chan c).cputb (s.mem src) with
    | some ch =>
      simp only [List.head?_nil, put, Option.pure_def, Option.some.injEq] at done
      exact Or.inl ⟨rfl, ch, rfl, done.symm⟩
    | none =>
      simp only [List.head?_nil, put, Option.pure_def] at done
      obtain ⟨queue, added, same⟩ := Option.bind_eq_some_iff.mp done
      cases same
      exact Or.inr (Or.inl ⟨rfl, rfl, Sys.slept_eq (orderly.sound .send c) added⟩)
  | cons q ps =>
    rw [waits] at done
    have popped : cqdel (s.queue .recv c) = some (ofWaiting ps) := by
      rw [recvSound.eq, waits, cqdel_ofWaiting, List.tail_cons]
    simp only [List.head?_cons, popped, Option.bind_some] at done
    refine Or.inr (Or.inr ⟨q, ps, rfl, ?_⟩)
    rw [Sys.releaseAlt, if_neg (by simpa [Sys.setQueue, Sys.setChan] using orderly.noAlt q)] at done
    simp only [Option.bind_some, Option.pure_def, Option.some.injEq] at done
    rw [← done]
    simp [Sys.woken, Sys.wake, Sys.addrun, Sys.setProg, Sys.store, Sys.setQueue, Sys.setChan]

/-- The three things `irecv` can do. With a sender waiting on a full buffer the
oldest value is delivered and the sender's operand is read after that store. -/
theorem irecv_cases {s s' : Sys V} {p : Pid} {dst : Addr} {c : Cid} (orderly : s.Orderly)
    (balanced : (s.chan c).Balanced) (done : s.irecv p dst c = some s') :
    (waiting (s.queue .send c) = [] ∧ ∃ v ch, (s.chan c).cgetb = some (v, ch) ∧
      s' = (s.setChan c ch).store dst v) ∨
    (waiting (s.queue .send c) = [] ∧ (s.chan c).cgetb = none ∧ s' = s.slept .recv p dst c) ∨
    (∃ q ps, waiting (s.queue .send c) = q :: ps ∧
      ((s.chan c).buf = none ∧
        s' = s.woken q c ((s.chan c).setQueue .send (ofWaiting ps)) dst (s.mem (s.prog q).ptr) ∨
      ∃ v ch ch', ((s.chan c).setQueue .send (ofWaiting ps)).cgetb = some (v, ch) ∧
        ch.cputb (Function.update s.mem dst v (s.prog q).ptr) = some ch' ∧ s' = s.woken q c ch' dst v)) := by
  have sendSound := orderly.sound .send c
  have head : (s.chan c).send.head? = some (waiting (s.queue .send c)).head? := by
    change (s.queue .send c).head? = _
    conv_lhs => rw [sendSound.eq]
    exact head_ofWaiting _
  rw [Sys.irecv, head] at done
  simp only [Option.bind_eq_bind, Option.bind_some] at done
  cases waits : waiting (s.queue .send c) with
  | nil =>
    rw [waits] at done
    cases got : (s.chan c).cgetb with
    | some vch =>
      simp only [List.head?_nil, got, Option.pure_def, Option.some.injEq] at done
      exact Or.inl ⟨rfl, vch.1, vch.2, rfl, done.symm⟩
    | none =>
      simp only [List.head?_nil, got, Option.pure_def] at done
      obtain ⟨queue, added, same⟩ := Option.bind_eq_some_iff.mp done
      cases same
      exact Or.inr (Or.inl ⟨rfl, rfl, Sys.slept_eq (orderly.sound .recv c) added⟩)
  | cons q ps =>
    rw [waits] at done
    have popped : cqdel (s.queue .send c) = some (ofWaiting ps) := by
      rw [sendSound.eq, waits, cqdel_ofWaiting, List.tail_cons]
    simp only [List.head?_cons, popped, Option.bind_some] at done
    refine Or.inr (Or.inr ⟨q, ps, rfl, ?_⟩)
    rw [Sys.releaseAlt, if_neg (by simpa [Sys.setQueue, Sys.setChan] using orderly.noAlt q)] at done
    simp only [Option.bind_some, Option.pure_def] at done
    have left : (s.setQueue .send c (ofWaiting ps)).chan c = ((s.chan c).setQueue .send (ofWaiting ps)) := by
      simp [Sys.setQueue, Sys.setChan]
    rw [left] at done
    have okLeft := balanced.ok.setQueue .send (ofWaiting ps)
    cases buffered : (s.chan c).buf with
    | none =>
      simp only [Channel.setQueue_buf, buffered, Option.isSome_none, Bool.false_eq_true, if_false,
        Option.some.injEq] at done
      refine Or.inl ⟨rfl, ?_⟩
      rw [← done]
      simp [Sys.woken, Sys.wake, Sys.addrun, Sys.setProg, Sys.store, Sys.setQueue, Sys.setChan]
    | some a =>
      have full : (s.chan c).size = a.length :=
        balanced.full (by rw [show waiting (s.chan c).send = q :: ps from waits]; simp) a.length
          (by rw [Channel.capacity, buffered, Option.map_some])
      have inside := (balanced.ok.bounds a buffered).1
      rcases okLeft.cgetb with ⟨_, empty⟩ | ⟨v, ch, got, okGot, _, size, capacity, _, _⟩
      · rw [Channel.setQueue_size] at empty
        omega
      · have slots : ch.capacity = some a.length := by
          rw [capacity, Channel.capacity_setQueue, Channel.capacity, buffered, Option.map_some]
        rw [Channel.setQueue_size] at size
        rcases okGot.cputb (Function.update s.mem dst v (s.prog q).ptr) with
          ⟨_, stillFull⟩ | ⟨ch', put, _⟩
        · have := stillFull a.length slots
          omega
        · refine Or.inr ⟨v, ch, ch', got, put, ?_⟩
          simp only [Channel.setQueue_buf, buffered, Option.isSome_some, if_true, got] at done
          have operand : ((((s.setQueue .send c (ofWaiting ps)).setChan c ch).store dst v).chan c).cputb
              ((((s.setQueue .send c (ofWaiting ps)).setChan c ch).store dst v).mem
                (((((s.setQueue .send c (ofWaiting ps)).setChan c ch).store dst v).prog q).ptr)) = some ch' := by
            simpa [Sys.setQueue, Sys.setChan, Sys.store] using put
          simp only [operand, Option.some.injEq] at done
          rw [← done]
          simp [Sys.woken, Sys.wake, Sys.addrun, Sys.setProg, Sys.store, Sys.setQueue, Sys.setChan]

end Inferno.Dis
