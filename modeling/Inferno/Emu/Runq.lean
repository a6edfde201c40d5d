import Inferno.Lib.Path
import Inferno.Lib.Run

namespace Inferno.Emu.Runq

open Lib

/-- A `Prog`, and a kernel process. -/
abbrev Prog := Nat
abbrev Proc := Nat

/-- `ProgState`. A `Prog` is `dead` before `newprog` and after `delprog`. -/
inductive ProgState
  | alt
  | send
  | recv
  | debug
  | ready
  | release
  | exiting
  | broken
  | dead
deriving DecidableEq

/-- What `p->addrun` may be. -/
inductive Wake
  | cwakeme
  | dbgaddrun
deriving DecidableEq

/-- The run queue of `isched`, the fields of `Prog` that its functions use, and what a process puts back in `acquire`:
`up->iprog` of an interpreter, else `up->prog`, which is at the head whenever its process calls `release`. -/
structure Sched where
  runhd : Option Prog
  runtl : Option Prog
  link : Prog → Option Prog
  state : Prog → ProgState
  addrunf : Prog → Option Wake
  kill : Prog → Option String
  killed : Prog → Bool
  back : Proc → Option Prog

/-- What `propex` does of `killprog`: the `Prog` that get the exception; or another one is killed first, and in
`delprog` the interpreter is released. -/
inductive Propex
  | exprogs (ps : List Prog)
  | kills

def changup : String := "channel hangup"
def altgup : String := "alt channel hungup"

namespace Sched

def setState (s : Sched) (p : Prog) (st : ProgState) : Sched := { s with state := Function.update s.state p st }

def setLink (s : Sched) (p : Prog) (next : Option Prog) : Sched := { s with link := Function.update s.link p next }

def setAddrun (s : Sched) (p : Prog) (w : Option Wake) : Sched :=
  { s with addrunf := Function.update s.addrunf p w }

def setKill (s : Sched) (p : Prog) (msg : String) : Sched := { s with kill := Function.update s.kill p (some msg) }

/-- `p->kill = ""` and `p->flags |= Pkilled`. -/
def mark (s : Sched) (p : Prog) : Sched := { s.setKill p "" with killed := Function.update s.killed p true }

/-- `none` is a nil dereference or a panic, here and below. -/
def addrun (s : Sched) (p : Prog) : Option Sched :=
  match s.addrunf p with
  | some .cwakeme => some (s.setAddrun p none)
  | some .dbgaddrun => some ((s.setState p .debug).setAddrun p none)
  | none =>
    let s := (s.setState p .ready).setLink p none
    match s.runhd, s.runtl with
    | none, _ => some { s with runhd := some p, runtl := some p }
    | some _, some t => some { s.setLink t (some p) with runtl := some p }
    | some _, none => none

def delrun (s : Sched) (st : ProgState) : Option Sched :=
  match s.runhd with
  | none => none
  | some p =>
    let s := s.setState p st
    some { s with runhd := s.link p, runtl := if s.link p = none then none else s.runtl }

/-- `delrunq`, which looks at `n` of the queue at most. -/
def delrunq (n : Nat) (s : Sched) (p : Prog) : Sched :=
  match Path.search s.link (· == p) n none s.runhd with
  | (_, none) => s
  | (prev, some _) =>
    let s := match prev with
      | none => { s with runhd := s.link p }
      | some t => s.setLink t (s.link p)
    if s.runtl = some p then { s with runtl := prev } else s

def delruntail (n : Nat) (s : Sched) (st : ProgState) : Option Sched :=
  match s.runtl with
  | none => none
  | some p => some ((s.delrunq n p).setState p st)

/-- `p->link = isched.runhd`, and what follows. -/
def pushHead (s : Sched) (p : Prog) : Sched :=
  let s := (s.setState p .ready).setLink p s.runhd
  { s with runhd := some p, runtl := if s.runhd = none then some p else s.runtl }

def pushrun (s : Sched) (p : Prog) : Option Sched := if s.addrunf p = none then some (s.pushHead p) else none

/-- The end of `acquire`. -/
def acquire (s : Sched) (up : Proc) : Option Sched :=
  match s.back up with
  | none => none
  | some p => some { s.pushHead p with back := Function.update s.back up none }

/-- The start of `release`, with `isave`. -/
def release (s : Sched) (up : Proc) : Option Sched :=
  match s.back up, s.runhd with
  | none, some p => (s.delrun .release).map fun s => { s with back := Function.update s.back up (some p) }
  | _, _ => none

def exprog (s : Sched) (p : Prog) (exc : String) : Option Sched :=
  let except (s : Sched) : Sched := if s.kill p = none then s.setKill p exc else s
  match s.state p with
  | .alt | .send | .recv => (s.addrun p).map except
  | .ready | .release => some (except s)
  | .exiting | .broken | .debug => some s
  | .dead => none

/-- `killprog` behind its `switch`. -/
def killrest (s : Sched) (p : Prog) (debug : Bool) (propex : Propex) : Option Sched :=
  if s.addrunf p ≠ none then (·.setAddrun p none) <$> (s.mark p).addrun p
  else if debug then some (s.setState p .broken)
  else
    match propex with
    | .kills => some s
    | .exprogs ps => (·.setState p .exiting) <$> ps.foldlM (fun s f => s.exprog f "killed") s

def killprog (n : Nat) (s : Sched) (p : Prog) (debug : Bool) (propex : Propex) : Option Sched :=
  if s.runhd = some p then some ((s.mark p).setState p .exiting)
  else
    match s.state p with
    | .exiting => some s
    | .release => some ((s.mark p).setState p .exiting)
    | .dead => none
    | .ready => (s.delrunq n p).killrest p debug propex
    | .alt | .send | .recv | .debug | .broken => s.killrest p debug propex

/-- A turn of `killcomm` with `p` of the queue. -/
def killcomm1 (s : Sched) (p : Prog) : Option Sched :=
  match s.state p with
  | .send | .recv => (s.setKill p changup).addrun p
  | .alt => (s.setKill p altgup).addrun p
  | _ => some s

def killcomm (s : Sched) (ps : List Prog) : Option Sched := ps.foldlM killcomm1 s

/-- `vmachine` puts the `Prog` that has run behind the others. -/
def rotate (s : Sched) : Option Sched :=
  match s.runhd, s.runtl with
  | none, _ => some s
  | some _, none => none
  | some r, some t =>
    if r = t then some s
    else some { (s.setLink r none).setLink t (some r) with runhd := s.link r, runtl := some r }

/-- The end of `delprog`. -/
def delprog (s : Sched) (p : Prog) : Sched :=
  let s := if s.runhd = some p then { s with runhd := s.link p, runtl := if s.link p = none then none else s.runtl }
    else s
  s.setState p .dead

/-- The queue ends after `n` at most. -/
def Ends (n : Nat) (s : Sched) : Prop := (Path.follow s.link (n + 1) s.runhd).length ≤ n

instance (n : Nat) (s : Sched) : Decidable (s.Ends n) := inferInstanceAs (Decidable (_ ≤ _))

end Sched

/-- What is called. `addrun` is called by `newprog`, `isend`, `irecv`, by the debugger for a `Prog` that is `debug`,
and for `up->prog`; `delrun` by `isend`, `irecv`, `xecalt` and `dbgxec`; `setAddrun` is `p->addrun = w` of `cblock` and
`dbgblock`; `exiting` and `delprog` are what is left of `killprog` after `propex`, and the ends of a `Prog`. -/
inductive Act
  | addrun (p : Prog)
  | delrun (st : ProgState)
  | delrunq (n : Nat) (p : Prog)
  | delruntail (n : Nat) (st : ProgState)
  | pushrun (p : Prog)
  | acquire (up : Proc)
  | release (up : Proc)
  | killprog (n : Nat) (p : Prog) (debug : Bool) (propex : Propex)
  | exprog (p : Prog) (exc : String)
  | killcomm (ps : List Prog)
  | rotate
  | setAddrun (p : Prog) (w : Option Wake)
  | exiting (p : Prog)
  | delprog (p : Prog)

def Act.exec (a : Act) (s : Sched) : Option Sched :=
  match a with
  | addrun p => s.addrun p
  | delrun st => s.delrun st
  | delrunq n p => if s.Ends n then some (s.delrunq n p) else none
  | delruntail n st => if s.Ends n then s.delruntail n st else none
  | pushrun p => s.pushrun p
  | acquire up => s.acquire up
  | release up => s.release up
  | killprog n p debug propex => if s.Ends n then s.killprog n p debug propex else none
  | exprog p exc => s.exprog p exc
  | killcomm ps => s.killcomm ps
  | rotate => s.rotate
  | setAddrun p w => some (s.setAddrun p w)
  | exiting p => some (s.setState p .exiting)
  | delprog p => some (s.delprog p)

end Inferno.Emu.Runq
