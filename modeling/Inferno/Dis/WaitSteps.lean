import Inferno.Dis.AltAgree
import Inferno.Dis.ChanBuf

namespace Inferno.Dis

open Progq

variable {V : Type}

namespace Sys

def setState (s : Sys V) (p : Pid) (state : ProgState) : Sys V := s.setProg p { s.prog p with state }

/-- The switch at the head of `exprog` and `killprog`: a blocked Prog leaves the
queues it is in. -/
def dequeue (p : Pid) (s : Sys V) : Option (Sys V) :=
  match (s.prog p).state with
  | .alt => altdone (s.prog p).alt p none none s
  | .send => do return s.setQueue .send (s.prog p).chan (← cqdelp p (s.queue .send (s.prog p).chan))
  | .recv => do return s.setQueue .recv (s.prog p).chan (← cqdelp p (s.queue .recv (s.prog p).chan))
  | _ => some s

/-- `exprog`: a blocked Prog becomes ready to meet its exception. -/
def exprog (p : Pid) (s : Sys V) : Option (Sys V) := do
  match (s.prog p).state with
  | .alt | .send | .recv => return (← s.dequeue p).addrun p
  | _ => return s

/-- `killprog`. The running Prog exits at the end of its instruction; any other
is deleted, or kept broken when it is debugged. -/
def killprog (debug : Bool) (p : Pid) (s : Sys V) : Option (Sys V) := do
  if s.runq.head? = some p then return s.delrun p .exiting
  let dead : ProgState := if debug then .broken else .exiting
  match (s.prog p).state with
  | .alt | .send | .recv => return (← s.dequeue p).setState p dead
  | .ready => return { s.setState p dead with runq := s.runq.erase p }
  | .release => return s.setState p .exiting
  | .exiting => return s
  | .broken | .debug => return s.setState p dead

end Sys

/-- The operations that touch the queues, and the next Prog's turn. -/
inductive ProgOp
  | isend (p : Pid) (src : Addr) (c : Cid)
  | irecv (p : Pid) (dst : Addr) (c : Cid)
  | alt (block : Bool) (xrand : Nat) (a : Alt) (p : Pid)
  | exprog (p : Pid)
  | killprog (debug : Bool) (p : Pid)
  | yield

namespace ProgOp

/-- `none` is a nil dereference. -/
def exec (s : Sys V) : ProgOp → Option (Sys V)
  | isend p src c => s.isend p src c
  | irecv p dst c => s.irecv p dst c
  | alt block xrand a p => (s.xecalt block xrand a p).map Prod.snd
  | exprog p => s.exprog p
  | killprog debug p => s.killprog debug p
  | yield => some { s with runq := s.runq.rotate 1 }

/-- Instructions are executed by the Prog at the head of the run queue. -/
def Enabled (s : Sys V) : ProgOp → Prop
  | isend p _ _ => s.runq.head? = some p
  | irecv p _ _ => s.runq.head? = some p
  | alt _ _ _ p => s.runq.head? = some p
  | _ => True

end ProgOp

/-- No queue consists of two nodes or more that are all `p`'s. -/
def Sys.Clear (s : Sys V) (p : Pid) : Prop :=
  ∀ d c, (s.queue d c).length ≤ 1 ∨ ∃ f ∈ s.queue d c, f ≠ some p

/-- If the first Prog of a queue is to be taken out of an alternation, the
queues are clear of it once its node there is gone. -/
def Sys.ClearPartner (s : Sys V) (d : Dir) (c : Cid) : Prop :=
  ∀ q t, (s.queue d c).head? = some (some q) → (s.prog q).state = .alt → cqdel (s.queue d c) = some t →
    (s.setQueue d c t).Clear q

/-- The channels of a table in one direction. -/
def Alt.chans (a : Alt) : Dir → List Cid
  | .send => a.sends
  | .recv => a.recvs

/-- `altrdy` queues the Prog on a channel, unless to send where it is itself
the first to receive. -/
def Sys.Admits (s : Sys V) (a : Alt) : Dir → Cid → Prop
  | .send, c => c ∈ a.recvs → waiting (s.queue .recv c) ≠ []
  | .recv, _ => True

instance (s : Sys V) (a : Alt) : (d : Dir) → (c : Cid) → Decidable (s.Admits a d c)
  | .send, c => inferInstanceAs (Decidable (c ∈ a.recvs → waiting (s.queue .recv c) ≠ []))
  | .recv, _ => instDecidableTrue

def Sys.marks (s : Sys V) (a : Alt) (d : Dir) : List Cid := (a.chans d).filter fun c => s.Admits a d c

/-- `p` queued once more for each channel in the two lists. -/
def Sys.mark (s : Sys V) (p : Pid) (sends recvs : List Cid) : Sys V :=
  { s with chan := fun c => { s.chan c with
    send := ofWaiting (waiting (s.chan c).send ++ List.replicate (sends.count c) p)
    recv := ofWaiting (waiting (s.chan c).recv ++ List.replicate (recvs.count c) p) } }

/-- The state in which `p` waits on all its alternatives. -/
def Sys.markAll (s : Sys V) (a : Alt) (p : Pid) : Sys V := s.mark p (s.marks a .send) (s.marks a .recv)

/-- The tables for which `altrdy` raises an exception. -/
def Sys.Refuses (s : Sys V) (a : Alt) : Prop :=
  (∃ r ∈ a.recv, r.1 = .nil) ∨ (∃ x ∈ a.send, x.1 = none) ∨ ∃ c ∈ a.sends, ¬ s.Admits a .send c

/-- The number of alternatives `altrdy` counts as ready. -/
def Sys.nrdy (s : Sys V) (a : Alt) (p : Pid) : Nat := s.countRecv a.recvs + (s.markAll a p).countSend a.sends

/-- Wherever a table queues its Prog more than once another Prog waits too,
one that does not leave as the partner. -/
def Sys.Spare (s : Sys V) (a : Alt) (partner : Option Pid) : Prop :=
  ∀ d c, 2 ≤ (s.marks a d).count c → ∃ r ∈ waiting (s.queue d c), some r ≠ partner

/-- The queue a choice finds its partner in. -/
def Choice.opposite : Choice → Dir
  | .send .. => .recv
  | .recv .. => .send

def Choice.chan : Choice → Cid
  | .send _ c _ => c
  | .recv _ _ c _ => c

/-- `altdone` never meets a queue of two nodes or more that are all of the Prog
it takes out, and an alternation never communicates with itself. -/
def ProgOp.Careful (s : Sys V) : ProgOp → Prop
  | .isend _ _ c => s.ClearPartner .recv c
  | .irecv _ _ c => s.ClearPartner .send c
  | .alt block xrand a p =>
    (s.Refuses a ∨ s.nrdy a p = 0 ∧ block = false → s.Spare a none) ∧
    (¬ s.Refuses a → ∀ choice, (s.markAll a p).altpick a (xrand % s.nrdy a p) = some (some choice) →
      choice.partner (s.markAll a p) ≠ some p ∧
      (s.markAll a p).ClearPartner choice.opposite choice.chan ∧
      s.Spare a (choice.partner (s.markAll a p)))
  | .exprog p => (s.prog p).state = .alt → s.Clear p
  | .killprog _ p => (s.prog p).state = .alt → s.Clear p
  | .yield => True

/-- Runs of such steps. -/
inductive CarefulRun (s₀ : Sys V) : Sys V → Prop
  | start : CarefulRun s₀ s₀
  | step {s s' : Sys V} {op : ProgOp} (before : CarefulRun s₀ s) (enabled : op.Enabled s) (careful : op.Careful s)
      (done : op.exec s = some s') : CarefulRun s₀ s'

/-- `p` is blocked on channel `c` in direction `d`. -/
def Sys.Blocked (s : Sys V) (p : Pid) (d : Dir) (c : Cid) : Prop :=
  (s.prog p).state = d.blocked ∧ (s.prog p).chan = c ∨ (s.prog p).state = .alt ∧ c ∈ (s.prog p).alt.chans d

/-- The wait queues are as they should be: never nil, with an empty node only
when it is the only one, and with exactly the Progs blocked there. -/
structure Sys.WaitqOk (s : Sys V) : Prop where
  nonnil : ∀ d c, s.queue d c ≠ []
  head : ∀ d c, none ∈ s.queue d c → (s.queue d c).length = 1
  member : ∀ d c p, some p ∈ s.queue d c ↔ s.Blocked p d c

/-- What one Prog's nodes look like. -/
structure Sys.Placed (s : Sys V) (p : Pid) : Prop where
  waits : ∀ d c, p ∈ waiting (s.queue d c) ↔ s.Blocked p d c
  once : ∀ d : Dir, (s.prog p).state = d.blocked → (waiting (s.queue d (s.prog p).chan)).count p = 1

/-- The invariant of a run. -/
structure Sys.WaitInv (s : Sys V) : Prop where
  sound : ∀ d c, (s.queue d c).Sound
  placed : ∀ p, s.Placed p
  ok : ∀ c, (s.chan c).Ok
  running : ∀ p ∈ s.runq, (s.prog p).state = .ready
  nodup : s.runq.Nodup

theorem Sys.WaitInv.waitqOk {s : Sys V} (inv : s.WaitInv) : s.WaitqOk where
  nonnil d c := by
    rcases inv.sound d c with single | ⟨nonempty, _⟩
    · rw [single]
      exact List.cons_ne_nil _ _
    · exact nonempty
  head d c empty := by
    rcases inv.sound d c with single | ⟨_, full⟩
    · rw [single, List.length_singleton]
    · exact absurd rfl (full none empty)
  member d c p := mem_waiting.symm.trans ((inv.placed p).waits d c)

theorem Sys.Fresh.waitInv {s : Sys V} (fresh : s.Fresh) : s.WaitInv where
  sound d c := Or.inl (fresh.queue d c)
  placed p := by
    have idle := fresh.idle p
    refine ⟨fun d c => ?_, fun d blocked => absurd blocked (idle.2 d)⟩
    rw [fresh.queue d c]
    refine ⟨fun member => (nomatch member), ?_⟩
    rintro (⟨blocked, _⟩ | ⟨alternating, _⟩)
    · exact absurd blocked (idle.2 d)
    · exact absurd alternating idle.1
  ok c := by
    obtain ⟨len, fill, init, made⟩ := fresh.chans c
    rw [made]
    exact Channel.ok_cnewc len fill init
  running := fresh.running
  nodup := fresh.nodup

end Inferno.Dis
