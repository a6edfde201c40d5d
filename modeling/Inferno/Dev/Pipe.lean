import Inferno.Fd.Fgrp
import Inferno.Qio.Stream

namespace Inferno.Dev

section Pipe

open Qio

inductive End
  | data0
  | data1
deriving DecidableEq

def End.other : End → End
  | data0 => data1
  | data1 => data0

namespace Pipe

/-- A channel of the pipe; `file` is `none` for the directory. -/
structure Chan where
  file : Option End
  isOpen : Bool
deriving DecidableEq

/-- What has become of an end since both were last closed: nothing, or it is open,
or its last channel was closed once. -/
inductive Life
  | fresh
  | opened
  | closed
deriving DecidableEq

end Pipe

/-- A `Pipe` and the channels on it. `reader` is the channel of a `qread` that is
between its two sections. The last three are not in the source: they are about the
time since both ends were last closed, `wrote` the blocks that were written on an
end, `got` the bytes that were read on it. -/
structure Pipe where
  q : End → Sys
  qref : End → Nat
  ref : Nat
  user : String
  chans : List (Option Pipe.Chan)
  reader : End → Option Nat
  life : End → Pipe.Life
  wrote : End → List (List UInt8)
  got : End → List UInt8

/-- `up->env->user` is `user`. -/
def devpermcheck (user eve fileuid : String) (perm omode : Nat) : Bool :=
  let perm := if user = fileuid then perm else if user = eve then perm <<< 3 else perm <<< 6
  let t := [0o400, 0o200, 0o600, 0o100].getD (omode % 4) 0
  t &&& perm == t

namespace Pipe

def pipeqsize : Int := 32 * 1024
def perm : Nat := 0o660

/-- `pipeattach`, with the channel that it returns. -/
def pipeattach (user : String) : Pipe where
  q _ := Sys.opened (Queue.qopen pipeqsize false false)
  qref _ := 0
  ref := 1
  user := user
  chans := [some ⟨none, false⟩]
  reader _ := none
  life _ := .fresh
  wrote _ := []
  got _ := []

/-- A section of an operation on a queue. -/
def onq (p : Pipe) (e : End) (ev : Event) : Option Pipe :=
  if ev.Valid (p.q e) then (ev.exec (p.q e)).map fun m => { p with q := Function.update p.q e m } else none

/-- `devwalk` with `pipegen`: the file that the names lead to. -/
def walkTo : Option End → List String → Option (Option End)
  | file, [] => some file
  | some _, _ :: _ => none
  | none, name :: names =>
    if name = "." ∨ name = ".." then walkTo none names
    else if name = "data" then walkTo (some .data0) names
    else if name = "data1" then walkTo (some .data1) names
    else none

/-- `devclone` panics on an open channel. -/
def pipewalk (p : Pipe) (c : Chan) (names : List String) : Option Pipe :=
  if c.file.isSome ∧ names ≠ [] then some p
  else if c.isOpen then none
  else
    match walkTo c.file names with
    | none => some p
    | some file => some { p with ref := p.ref + 1, chans := p.chans ++ [some ⟨file, false⟩] }

def setChan (p : Pipe) (i : Nat) (c : Option Chan) : Pipe := { p with chans := p.chans.set i c }

/-- The `Chan` is one that was walked to. -/
def pipeopen (p : Pipe) (i : Nat) (c : Chan) (omode : Nat) (user eve : String) : Pipe :=
  match c.file with
  | none => if omode = Fd.oread then p.setChan i (some ⟨none, true⟩) else p
  | some e =>
    if Fd.openmode omode = none ∨ ¬devpermcheck user eve p.user perm omode then p
    else { p.setChan i (some ⟨some e, true⟩) with
      qref := Function.update p.qref e (p.qref e + 1)
      life := Function.update p.life e (if p.life e = .fresh then .opened else p.life e) }

/-- Closing either side hangs up the stream. -/
def hangup (p : Pipe) (e : End) : Option Pipe :=
  let p := { p with qref := Function.update p.qref e (p.qref e - 1) }
  if p.qref e = 0 then
    ((p.onq e.other (.qhangup "")).bind fun p => p.onq e .qclose).map fun p =>
      { p with life := Function.update p.life e .closed }
  else some p

/-- If both sides are closed, they are reusable. -/
def reopen (p : Pipe) : Option Pipe :=
  if p.qref .data0 = 0 ∧ p.qref .data1 = 0 then
    if (p.q .data0).q.locked ∨ (p.q .data1).q.locked then none
    else some { p with
      q := fun e => { p.q e with q := (p.q e).q.qreopen, accepted := [], delivered := [] }
      life := fun _ => .fresh
      wrote := fun _ => []
      got := fun _ => [] }
  else some p

/-- A `Chan` is closed when no call has it any more. The structure is freed with
the last one. -/
def pipeclose (p : Pipe) (i : Nat) (c : Chan) : Option Pipe :=
  if p.reader .data0 = some i ∨ p.reader .data1 = some i then none
  else
    let hung := match c.file, c.isOpen with
      | some e, true => p.hangup e
      | _, _ => some p
    (hung.bind reopen).map fun p => { p.setChan i none with ref := p.ref - 1 }

/-- The first section of `qread`. -/
def piperead (p : Pipe) (i : Nat) (e : End) (n : Nat) : Option Pipe :=
  (p.onq e (.qread n)).map fun p =>
    { p with reader := Function.update p.reader e (if (p.q e).reading.isSome then some i else none) }

/-- The second section of `qread`. -/
def readDone (p : Pipe) (e : End) : Option Pipe :=
  match (p.q e).reading with
  | none => none
  | some r =>
    (p.onq e .qreadDone).map fun p' =>
      { p' with
        reader := Function.update p.reader e none
        got := Function.update p.got e (p.got e ++ ((p.q e).q.qreadDone r.first r.len).value.2) }

def pipebread (p : Pipe) (e : End) (n : Nat) (block : Option Nat) : Option Pipe :=
  (p.onq e (.qbread n block)).map fun p' =>
    match ((p.q e).q.qbread n block).value with
    | .got b => { p' with got := Function.update p.got e (p.got e ++ b.data) }
    | _ => p'

/-- One block of `pipewrite` or `pipebwrite`, on the end `e`. -/
def pipebwrite (p : Pipe) (e : End) (b : Block) : Option Pipe :=
  (p.onq e.other (.qbwrite b [])).map fun p' =>
    if ((p.q e.other).q.qbwrite b).freed = [] then
      { p' with wrote := Function.update p.wrote e (p.wrote e ++ [b.data]) }
    else p'

end Pipe

/-- What processes do with the channel `c`. -/
inductive PipeAct
  | walk (c : Nat) (names : List String)
  | opens (c omode : Nat) (user eve : String)
  | close (c : Nat)
  | read (c n : Nat)
  | readDone (c : Nat)
  | bread (c n : Nat) (block : Option Nat)
  | bwrite (c : Nat) (b : Block)

namespace PipeAct

/-- The end that an open channel is on; a directory is read, but not written. -/
def side (p : Pipe) (c : Nat) : Option End := ((p.chans[c]?).join.filter Pipe.Chan.isOpen).bind Pipe.Chan.file

def exec (a : PipeAct) (p : Pipe) : Option Pipe :=
  match a with
  | walk c names => ((p.chans[c]?).join).bind fun ch => p.pipewalk ch names
  | opens c omode user eve => ((p.chans[c]?).join.filter fun ch => !ch.isOpen).map fun ch => p.pipeopen c ch omode user eve
  | close c => ((p.chans[c]?).join).bind fun ch => p.pipeclose c ch
  | read c n => (side p c).bind fun e => p.piperead c e n
  | readDone c => (side p c).bind fun e => if p.reader e = some c then p.readDone e else none
  | bread c n block => (side p c).bind fun e => p.pipebread e n block
  | bwrite c b => (side p c).bind fun e => p.pipebwrite e b

end PipeAct

end Pipe

section PipeStrand

open Qio Queue

namespace Pipe

variable {m m' : Sys} {life : Life} {wrote : List (List UInt8)} {got : List UInt8} {b : Block} {n : Nat}

/-- The queue of an end, with what was written on the other end and read on this one. -/
structure Strand (m : Sys) (life : Life) (wrote : List (List UInt8)) (got : List UInt8) : Prop where
  inv : m.Inv
  stream : m.q.msg = false
  order : life ≠ .closed → m.InOrder
  dead : life = .closed → m.q.closed = true ∧ m.q.blocks = [] ∧ m.reading = none ∧ m.delivered <+: m.accepted
  read : m.delivered = got
  written : m.accepted = wrote.flatten
  none : life = .fresh → wrote = [] → m.q.blocks = []

theorem Strand.before (strand : Strand m life wrote got) : got <+: wrote.flatten := by
  rw [← strand.read, ← strand.written]
  by_cases alive : life = .closed
  · exact (strand.dead alive).2.2.2
  · exact (strand.order alive).before

theorem strand_opened (limit : Int) : Strand (Sys.opened (qopen limit false false)) .fresh [] [] where
  inv := (fresh_opened _ _ _).inv
  stream := rfl
  order _ := inOrder_idle rfl rfl rfl
  dead no := nomatch no
  read := rfl
  written := rfl
  none _ _ := rfl

theorem qwait_closed (q : Queue) : q.qwait.2.closed = q.closed := by
  unfold qwait
  split
  · rfl
  · split
    · dsimp only
      split
      · rfl
      · split <;> rfl
    · rfl

theorem qreadTake_empty {q : Queue} (empty : q.blocks = []) (len : Nat) :
    q.qreadTake len = ⟨.wait q.qwait.1, q.qwait.2, [], false, false⟩ := by
  have same : (if q.coalesce then dropEmpty q.blocks q [] else (q, [])) = (q, []) := by
    rw [empty]
    split <;> rfl
  -- with this the match is decided
  have not := qwait_not_ready empty
  simp only [qreadTake, same]

theorem Strand.keep (strand : Strand m life wrote got) {ev : Event} (streams : ev.Streams m) (ran : ev.exec m = some m') :
    m'.Inv ∧ (life ≠ .closed → m'.InOrder) := by
  obtain ⟨lost, step, _⟩ := exec_moved strand.inv streams.1 ran
  exact ⟨step.inv strand.inv, fun alive => exec_inOrder strand.inv (strand.order alive) streams ran⟩

theorem Strand.piperead (strand : Strand m life wrote got) (used : life ≠ .fresh) (ran : (Event.qread n).exec m = some m') :
    Strand m' life wrote got := by
  obtain ⟨inv, order⟩ := strand.keep (show (Event.qread n).Streams m from ⟨trivial, trivial⟩) ran
  have queue := (exec_queue ran).1
  have stream : m'.q.msg = false := by
    rw [queue]
    exact (fixed_qreadTake m.q n).msg.trans strand.stream
  have same : m'.delivered = m.delivered ∧ m'.accepted = m.accepted := by
    have free := exec_free ran
    have idle : m.reading = .none := exec_idle ran
    simp only [Event.exec, free, idle, Option.isSome_none, Bool.false_eq_true, if_false] at ran
    split at ran <;> (cases ran; exact ⟨rfl, rfl⟩)
  refine ⟨inv, stream, order, fun closed => ?_, same.1.trans strand.read, same.2.trans strand.written, fun fresh => absurd fresh used⟩
  obtain ⟨dead, empty, idle, before⟩ := strand.dead closed
  have reading := (exec_queue ran).2
  simp only [Event.queue, Event.reading, qreadTake_empty empty] at queue reading
  rw [queue, reading, same.1, same.2]
  exact ⟨(qwait_closed m.q).trans dead, (sameBlocks_qwait m.q).blocks.trans empty, rfl, before⟩

theorem Strand.readDone (strand : Strand m life wrote got) (used : life ≠ .fresh) {r : Reading} (reading : m.reading = some r)
    (ran : Event.qreadDone.exec m = some m') :
    Strand m' life wrote (got ++ (m.q.qreadDone r.first r.len).value.2) ∧ m'.reading = .none := by
  obtain ⟨inv, order⟩ := strand.keep (show Event.qreadDone.Streams m from ⟨trivial, trivial⟩) ran
  have free := exec_free ran
  simp only [Event.exec, free, reading, Bool.false_eq_true, if_false, Option.some.injEq] at ran
  have stream := (fixed_qreadDone m.q (strand.inv.fits r reading)).msg.trans strand.stream
  subst ran
  refine ⟨⟨inv, stream, order, fun closed => ?_, congrArg (· ++ _) strand.read, strand.written, fun fresh => absurd fresh used⟩, rfl⟩
  have idle := (strand.dead closed).2.2.1
  rw [reading] at idle
  cases idle

theorem Strand.bread (strand : Strand m life wrote got) (used : life ≠ .fresh) {block : Option Nat}
    (valid : (Event.qbread n block).Valid m) (ran : (Event.qbread n block).exec m = some m') :
    Strand m' life wrote (match (m.q.qbread n block).value with | .got b => got ++ b.data | _ => got) ∧
      m'.reading = .none := by
  obtain ⟨inv, order⟩ := strand.keep ⟨valid, trivial⟩ ran
  have idle : m.reading = .none := exec_idle ran
  have queue := (exec_queue ran).1
  have reading : m'.reading = .none := (exec_queue ran).2.trans idle
  have stream : m'.q.msg = false := by
    rw [queue]
    rcases qbread_cases m.q n block with ⟨_, out⟩ | ⟨b, rest, _, ⟨_, out⟩ | ⟨_, _, ⟨id, _, out⟩ | ⟨_, out⟩⟩⟩ <;>
      rw [Event.queue, out]
    · exact (fixed_qwait m.q).msg.trans strand.stream
    · exact ((sameFlags_unlink m.q b rest).fixed.restart _).msg.trans strand.stream
    · have fixed : Fixed m.q ((m.q.unlink b rest).qputback (newBlock id (b.data.drop n))) := ⟨rfl, rfl, rfl, rfl⟩
      exact (fixed.restart _).msg.trans strand.stream
    · exact strand.stream
  have same : m'.accepted = m.accepted ∧
      m'.delivered = (match (m.q.qbread n block).value with | .got b => m.delivered ++ b.data | _ => m.delivered) := by
    have free := exec_free ran
    have alloc : (if m.q.splits n = true then block.elim m m.alloc else m).accepted = m.accepted ∧
        (if m.q.splits n = true then block.elim m m.alloc else m).delivered = m.delivered := by
      split
      · cases block <;> exact ⟨rfl, rfl⟩
      · exact ⟨rfl, rfl⟩
    cases value : (m.q.qbread n block).value with
    | got b =>
      simp only [Event.exec, free, idle, value, Option.isSome_none, Bool.false_eq_true, if_false, Option.some.injEq] at ran
      subst ran
      exact ⟨alloc.1, congrArg (· ++ b.data) alloc.2⟩
    | wait why | failed =>
      simp only [Event.exec, free, idle, value, Option.isSome_none, Bool.false_eq_true, if_false, Option.some.injEq] at ran
      subst ran
      exact alloc
  refine ⟨⟨inv, stream, order, fun closed => ?_, ?_, same.1.trans strand.written, fun fresh => absurd fresh used⟩, reading⟩
  · obtain ⟨dead, empty, _, before⟩ := strand.dead closed
    rcases qbread_cases m.q n block with ⟨_, out⟩ | ⟨b, rest, front, _⟩
    · simp only [Event.queue, out] at queue same
      rw [queue, same.1, same.2]
      exact ⟨(qwait_closed m.q).trans dead, (sameBlocks_qwait m.q).blocks.trans empty, reading, before⟩
    · rw [empty] at front
      cases front
  · rw [same.2, strand.read]

theorem Strand.bwrite (strand : Strand m life wrote got) (valid : (Event.qbwrite b []).Valid m)
    (ran : (Event.qbwrite b []).exec m = some m') :
    Strand m' life (if (m.q.qbwrite b).freed = [] then wrote ++ [b.data] else wrote) got ∧ m'.reading = m.reading := by
  obtain ⟨inv, order⟩ := strand.keep ⟨valid, trivial⟩ ran
  have free := exec_free ran
  simp only [Event.exec, free, Bool.false_eq_true, if_false, Option.some.injEq] at ran
  have stream := (fixed_qbwrite m.q b).msg.trans strand.stream
  subst ran
  refine ⟨⟨inv, stream, order, fun closed => ?_, strand.read, ?_, fun fresh nothing => ?_⟩, rfl⟩
  · obtain ⟨dead, empty, idle, before⟩ := strand.dead closed
    have refused : m.q.qbwrite b = ⟨.none, m.q, [b.id], false, false⟩ := by rw [qbwrite, if_pos dead]
    simp only [Sys.wrote, Sys.hand, refused, List.cons_ne_nil, if_false]
    exact ⟨dead, empty, idle, before⟩
  · simp only [Sys.wrote, Sys.hand]
    split
    · rw [strand.written, List.flatten_append, List.flatten_singleton]
    · exact strand.written
  · split at nothing
    · exact absurd nothing (List.append_ne_nil_of_right_ne_nil _ (List.cons_ne_nil _ _))
    · rename_i refused
      rcases qbwrite_spec strand.inv.ok strand.inv.queued b with ⟨same, _⟩ | ⟨_, freed⟩
      · simp only [Sys.wrote, same]
        exact strand.none fresh nothing
      · exact absurd freed refused

theorem Strand.hangup (strand : Strand m life wrote got) (ran : (Event.qhangup "").exec m = some m') :
    Strand m' life wrote got ∧ m'.reading = m.reading ∧ m'.q.blocks = m.q.blocks := by
  obtain ⟨lost, step, _⟩ := exec_moved strand.inv (show (Event.qhangup "").Valid m from trivial) ran
  have free := exec_free ran
  simp only [Event.exec, free, Bool.false_eq_true, if_false, Option.some.injEq] at ran
  subst ran
  refine ⟨⟨step.inv strand.inv, strand.stream, fun alive => ?_, fun closed => ?_, strand.read, strand.written, strand.none⟩, rfl, rfl⟩
  · have old := strand.order alive
    exact ⟨old.stream, old.whole, old.before⟩
  · obtain ⟨_, empty, idle, before⟩ := strand.dead closed
    exact ⟨rfl, empty, idle, before⟩

theorem Strand.close (strand : Strand m life wrote got) (idle : m.reading = .none) (ran : Event.qclose.exec m = some m') :
    Strand m' .closed wrote got := by
  obtain ⟨lost, step, _⟩ := exec_moved strand.inv (show Event.qclose.Valid m from trivial) ran
  have free := exec_free ran
  have before := strand.before
  rw [← strand.read, ← strand.written] at before
  simp only [Event.exec, free, Bool.false_eq_true, if_false, Option.some.injEq] at ran
  subst ran
  exact ⟨step.inv strand.inv, strand.stream, fun alive => absurd rfl alive, fun _ => ⟨rfl, rfl, idle, before⟩, strand.read,
    strand.written, fun fresh => by cases fresh⟩

theorem Strand.reopen (strand : Strand m life wrote got) (empty : m.q.blocks = []) (idle : m.reading = .none) :
    Strand { m with q := m.q.qreopen, accepted := [], delivered := [] } .fresh [] [] := by
  have step : Moved m { m with q := m.q.qreopen } [] := moved_flags strand.inv ⟨rfl, rfl, rfl, rfl⟩
  have inv := step.inv strand.inv
  refine ⟨⟨inv.ok, inv.nodup, inv.known, inv.fits⟩, strand.stream, fun _ => ?_, fun no => (nomatch no), rfl, rfl, fun _ _ => empty⟩
  refine inOrder_idle idle strand.stream ?_
  simp only [qreopen, empty]
  rfl

theorem Strand.opens (strand : Strand m .fresh wrote got) : Strand m .opened wrote got :=
  ⟨strand.inv, strand.stream, fun _ => strand.order nofun, fun no => (nomatch no), strand.read, strand.written, fun no => nomatch no⟩

end Pipe

end PipeStrand

end Inferno.Dev
