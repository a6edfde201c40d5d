import Mathlib

namespace Inferno.Dis

abbrev Pid := Nat
abbrev Cid := Nat
abbrev Addr := Nat

/-- A list of `Progq` nodes, each with its `prog` or nil. The empty list is a
nil pointer, which no code expects to meet. -/
abbrev Progq := List (Option Pid)

/-- `cqadd`: fill the empty first node or append one. `none` is a nil dereference. -/
def cqadd (p : Pid) : Progq → Option Progq
  | [] => none
  | none :: q => some (some p :: q)
  | some f :: q => some (some f :: q ++ [some p])

/-- `cqdel`: drop the first node, or empty the only one. -/
def cqdel : Progq → Option Progq
  | [] => none
  | [_] => some [none]
  | _ :: q => some q

/-- `cqdelp`: the only node is emptied, of several all that hold `p` are freed. -/
def cqdelp (p : Pid) : Progq → Option Progq
  | [] => none
  | [f] => some [if f = some p then none else f]
  | q => some (q.filter (· ≠ some p))

/-- The two directions of a communication. -/
inductive Dir
  | send | recv
deriving DecidableEq

/-- A channel of values `V`. `buf` is nil for an unbuffered one; `init` is what
`initmem` leaves in a slot, nil when the element type has no pointers. -/
structure Channel (V : Type) where
  buf : Option (List V)
  init : Option V
  send : Progq
  recv : Progq
  front : Nat
  size : Nat

namespace Channel

variable {V : Type}

/-- `cnewc` for `len` elements that start as `fill`. -/
def cnewc (len : Int) (fill : V) (init : Option V) : Channel V where
  buf := if 0 < len then some (List.replicate len.toNat fill) else none
  init := init
  send := [none]
  recv := [none]
  front := 0
  size := 0

/-- `freeptrs` and `initmem` on the slot a value was moved out of, if its type
has pointers. -/
def vacate (c : Channel V) (a : List V) : List V :=
  match c.init with
  | none => a
  | some h => a.set c.front h

/-- `cgetb`: the value moved out of the buffer; `none` is its return of 0. -/
def cgetb (c : Channel V) : Option (V × Channel V) := do
  let a ← c.buf
  if 0 < c.size then
    let v ← a[c.front]?
    let front := c.front + 1
    return (v, { c with
      buf := some (c.vacate a), front := if front = a.length then 0 else front, size := c.size - 1 })
  else none

/-- `cputb`: the buffer after `v` is stored; `none` is its return of 0. -/
def cputb (c : Channel V) (v : V) : Option (Channel V) := do
  let a ← c.buf
  if c.size < a.length then
    let r := c.front + c.size
    let r := if a.length ≤ r then r - a.length else r
    return { c with buf := some (a.set r v), size := c.size + 1 }
  else none

def queue (c : Channel V) : Dir → Progq
  | .send => c.send
  | .recv => c.recv

def setQueue (c : Channel V) (d : Dir) (q : Progq) : Channel V :=
  match d with
  | .send => { c with send := q }
  | .recv => { c with recv := q }

theorem queue_setQueue (c : Channel V) (d e : Dir) (q : Progq) :
    (c.setQueue d q).queue e = if e = d then q else c.queue e := by
  cases d <;> cases e <;> rfl

@[simp] theorem setQueue_buf (c : Channel V) (d : Dir) (q : Progq) : (c.setQueue d q).buf = c.buf := by
  cases d <;> rfl

@[simp] theorem setQueue_size (c : Channel V) (d : Dir) (q : Progq) : (c.setQueue d q).size = c.size := by
  cases d <;> rfl

@[simp] theorem setQueue_front (c : Channel V) (d : Dir) (q : Progq) : (c.setQueue d q).front = c.front := by
  cases d <;> rfl

/-- The macros `CANGET` and `CANPUT`. -/
def canget (c : Channel V) : Bool := 0 < c.size

def canput (c : Channel V) : Bool :=
  match c.buf with
  | none => false
  | some a => c.size < a.length

end Channel

/-- `enum ProgState`. -/
inductive ProgState
  | alt | send | recv | debug | ready | release | exiting | broken
deriving DecidableEq

/-- A receive alternative: nil, a channel, or an array of channels and nils. -/
inductive RecvAlt
  | nil
  | chan (c : Cid)
  | array (cs : List (Option Cid))
deriving DecidableEq

/-- An `Alt` table: the send and receive alternatives, each with its data pointer. -/
structure Alt where
  send : List (Option Cid × Addr)
  recv : List (RecvAlt × Addr)
deriving DecidableEq

/-- The parts of a `Prog` the channel operations use. `alt` is `R.s` of a Prog
in `Palt`; `which` and `elem` are the words an alternation stores through
`R.d` and at the start of an array alternative's data. -/
structure Prog where
  state : ProgState
  ptr : Addr
  chan : Cid
  alt : Alt
  which : Nat
  elem : Nat

/-- Channels, Progs, the run queue and the memory operands point into. -/
structure Sys (V : Type) where
  chan : Cid → Channel V
  prog : Pid → Prog
  runq : List Pid
  mem : Addr → V

namespace Sys

variable {V : Type}

def setChan (s : Sys V) (c : Cid) (ch : Channel V) : Sys V :=
  { s with chan := Function.update s.chan c ch }

def setProg (s : Sys V) (p : Pid) (pr : Prog) : Sys V :=
  { s with prog := Function.update s.prog p pr }

def queue (s : Sys V) (d : Dir) (c : Cid) : Progq := (s.chan c).queue d

def setQueue (s : Sys V) (d : Dir) (c : Cid) (q : Progq) : Sys V := s.setChan c ((s.chan c).setQueue d q)

def store (s : Sys V) (a : Addr) (v : V) : Sys V := { s with mem := Function.update s.mem a v }

/-- `addrun` of a Prog without a callback of its own. -/
def addrun (s : Sys V) (p : Pid) : Sys V :=
  { s.setProg p { s.prog p with state := .ready } with runq := s.runq ++ [p] }

/-- `p->ptr = nil` and `addrun(p)` for the partner of a communication. -/
def wake (s : Sys V) (p : Pid) : Sys V := (s.setProg p { s.prog p with ptr := 0 }).addrun p

/-- `delrun`: the running Prog leaves the run queue. -/
def delrun (s : Sys V) (p : Pid) (state : ProgState) : Sys V :=
  { s.setProg p { s.prog p with state } with runq := s.runq.tail }

/-- `if(c->send->prog) cqdelp(&c->send, p)`, or the same for `recv`. -/
def unqueue (s : Sys V) (d : Dir) (p : Pid) (c : Cid) : Option (Sys V) := do
  let head ← (s.queue d c).head?
  match head with
  | none => return s
  | some _ => return s.setQueue d c (← cqdelp p (s.queue d c))

/-- The loop of `altdone` over the send alternatives from number `n` on. `sr` is
0 in the source for `some .send` and -1 for `none`; `sel` is the channel that
made the communication, until it is met. -/
def altdoneSend (p : Pid) (sr : Option Dir) :
    List (Option Cid × Addr) → Nat → Option Cid → Sys V → Option (Option Cid × Sys V)
  | [], _, sel, s => some (sel, s)
  | (none, _) :: rest, n, sel, s => altdoneSend p sr rest (n + 1) sel s
  | (some c, ptr) :: rest, n, sel, s => do
    let s ← s.unqueue .send p c
    if sr = some .send ∧ sel = some c then
      altdoneSend p sr rest (n + 1) none (s.setProg p { s.prog p with ptr, which := n })
    else altdoneSend p sr rest (n + 1) sel s

/-- `altunmark` from element `n` on of the array alternative numbered `dn`. -/
def altunmark (ptr : Addr) (p : Pid) (sr : Option Dir) (dn : Nat) :
    List (Option Cid) → Nat → Option Cid → Sys V → Option (Option Cid × Sys V)
  | [], _, sel, s => some (sel, s)
  | none :: rest, n, sel, s => altunmark ptr p sr dn rest (n + 1) sel s
  | some c :: rest, n, sel, s => do
    let s ← s.unqueue .recv p c
    if sr = some .recv ∧ sel = some c then
      altunmark ptr p sr dn rest (n + 1) none
        (s.setProg p { s.prog p with ptr := ptr + 1, which := dn, elem := n })
    else altunmark ptr p sr dn rest (n + 1) sel s

/-- The loop of `altdone` over the receive alternatives. -/
def altdoneRecv (p : Pid) (sr : Option Dir) :
    List (RecvAlt × Addr) → Nat → Option Cid → Sys V → Option (Sys V)
  | [], _, _, s => some s
  | (.nil, _) :: rest, n, sel, s => altdoneRecv p sr rest (n + 1) sel s
  | (.array cs, ptr) :: rest, n, sel, s => do
    let (sel, s) ← altunmark ptr p sr n cs 0 sel s
    altdoneRecv p sr rest (n + 1) sel s
  | (.chan c, ptr) :: rest, n, sel, s => do
    let s ← s.unqueue .recv p c
    if sr = some .recv ∧ sel = some c then
      altdoneRecv p sr rest (n + 1) none (s.setProg p { s.prog p with ptr, which := n })
    else altdoneRecv p sr rest (n + 1) sel s

def altdone (a : Alt) (p : Pid) (sel : Option Cid) (sr : Option Dir) (s : Sys V) : Option (Sys V) := do
  let (sel, s) ← altdoneSend p sr a.send 0 sel s
  altdoneRecv p sr a.recv a.send.length sel s

/-- The partner of a communication is released, out of its alternation if it is in one. -/
def releaseAlt (s : Sys V) (q : Pid) (c : Cid) (sr : Dir) : Option (Sys V) :=
  if (s.prog q).state = .alt then altdone (s.prog q).alt q (some c) (some sr) s else some s

/-- `isend` by the running Prog `p` of the value at `src`. A nil channel raises
before anything is done. -/
def isend (p : Pid) (src : Addr) (c : Cid) (s : Sys V) : Option (Sys V) := do
  let head ← (s.chan c).recv.head?
  match head with
  | none =>
    match (s.chan c).cputb (s.mem src) with
    | some ch => return s.setChan c ch
    | none =>
      let s := s.delrun p .send
      let s := s.setProg p { s.prog p with ptr := src, chan := c }
      return s.setQueue .send c (← cqadd p (s.queue .send c))
  | some q =>
    let s := s.setQueue .recv c (← cqdel (s.queue .recv c))
    let s ← s.releaseAlt q c .recv
    let s := s.store (s.prog q).ptr (s.mem src)
    return s.wake q

/-- `irecv` by the running Prog `p` into `dst`. -/
def irecv (p : Pid) (dst : Addr) (c : Cid) (s : Sys V) : Option (Sys V) := do
  let head ← (s.chan c).send.head?
  match head with
  | none =>
    match (s.chan c).cgetb with
    | some (v, ch) => return (s.setChan c ch).store dst v
    | none =>
      let s := s.delrun p .recv
      let s := s.setProg p { s.prog p with ptr := dst, chan := c }
      return s.setQueue .recv c (← cqadd p (s.queue .recv c))
  | some q =>
    let s := s.setQueue .send c (← cqdel (s.queue .send c))
    let s ← s.releaseAlt q c .send
    if (s.chan c).buf.isSome then
      -- the oldest value goes to the receiver, the sender's into the slot it leaves
      let s := match (s.chan c).cgetb with
        | some (v, ch) => (s.setChan c ch).store dst v
        | none => s
      let s := match (s.chan c).cputb (s.mem (s.prog q).ptr) with
        | some ch => s.setChan c ch
        | none => s
      return s.wake q
    else
      let s := s.store dst (s.mem (s.prog q).ptr)
      return s.wake q

theorem queue_setQueue (s : Sys V) (d e : Dir) (c c' : Cid) (q : Progq) :
    (s.setQueue d c q).queue e c' = if e = d ∧ c' = c then q else s.queue e c' := by
  by_cases same : c' = c
  · subst same
    simp [queue, setQueue, setChan, Channel.queue_setQueue]
  · simp [queue, setQueue, setChan, same]

end Sys

end Inferno.Dis
