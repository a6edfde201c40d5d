import Inferno.Export.Buffers

namespace Inferno.Export

/-- What the handlers look at in a `Chan`: `COPEN`, `c->mode`, whether the qid is
of a directory, whether `exisroot` holds, and `c->iounit`. -/
structure Chan where
  opened : Bool
  mode : Nat
  dir : Bool
  root : Bool
  iounit : Nat
deriving DecidableEq

/-- Entries and channels are numbered in the order in which they are made. -/
structure Fid where
  fid : Int32
  ref : Int
  attached : Bool
  chan : Option Nat
  offset : Int
deriving DecidableEq

/-- The fid table of an export, and the channels: `chanRef` is `c->r.ref`. `closed`
is not in the source: the channels closed, in order. `crashed` is set where the
source would use a nil channel or one that has been freed. -/
structure Fids where
  fid : Nat → Fid
  made : Nat
  hash : Nat → List Nat
  chan : Nat → Chan
  chanRef : Nat → Nat
  opens : Nat
  closed : List Nat
  msize : Int
  crashed : Bool

/-- How `findmount` and `cunique` end in `exmount`. -/
inductive Mounted
  | no
  | raises
  | yes (c : Chan)

/-- A device's `open` may return the channel that it was given, or another. -/
inductive Opened
  | raises
  | same (c : Chan)
  | other (c : Chan)

/-- What the devices do in one request. `none` and `false` are errors that are
raised; `walk` is that of each name. `valid` is the end of `validname` or `validstat`. -/
structure Devs where
  errstr : String
  clone : Option Chan
  walk : Nat → Option Chan
  mount : Mounted
  createdir : Option Chan
  open_ : Opened
  create : Option Chan
  valid : Bool
  io : Option Int
  remove : Bool

inductive Reply
  | error (ename : String)
  | ok
  | walk (nwqid : Nat)
  | opened (iounit : Int)
  | count (n : Int)
deriving DecidableEq

def enofid : String := "no such fid"
def eseekdir : String := "can't seek on a directory"
def eopen : String := "walk of open fid"
def emode : String := "open/create -- unknown mode"
def edupfid : String := "fid in use"
def eaccess : String := "read/write -- not open in suitable mode"
def ecount : String := "read/write -- count too big"
def eisdir : String := "file is a directory"
def efilename : String := "file name syntax"
def eshortstat : String := "stat buffer too small"
def enegoff : String := "negative i/o offset"

def nfidhash : Nat := 32
def bit16sz : Int := 2
def oread : Nat := 0
def owrite : Nat := 1
def ordwr : Nat := 2

/-- `f->fid = fid`, an `int` from a `ulong`. -/
def ulongInt (fid : UInt64) : Int32 := fid.toUInt32.toInt32

/-- The `ulong` that `f->fid` is compared as. -/
def intUlong (fid : Int32) : UInt64 := fid.toInt64.toUInt64

namespace Fids

variable (s : Fids)

def bucket (fid : UInt64) : Nat := fid.toNat % nfidhash

def setFid (f : Nat) (v : Fid) : Fids := { s with fid := Function.update s.fid f v }

def setChan (f : Nat) (c : Nat) : Fids := s.setFid f { s.fid f with chan := some c }

def detach (f : Nat) : Fids := s.setFid f { s.fid f with attached := false }

def setOffset (f : Nat) (offset : Int) : Fids := s.setFid f { s.fid f with offset }

def find (fid : UInt64) : Option Nat := (s.hash (bucket fid)).find? fun f => intUlong (s.fid f).fid == fid

/-- A channel with one reference. -/
def newchan (c : Chan) : Fids :=
  { s with chan := Function.update s.chan s.opens c, chanRef := Function.update s.chanRef s.opens 1,
           opens := s.opens + 1 }

def incref (c : Nat) : Fids := { s with chanRef := Function.update s.chanRef c (s.chanRef c + 1) }

def cclose (c : Nat) : Fids :=
  if s.chanRef c = 0 then { s with crashed := true }
  else
    { s with chanRef := Function.update s.chanRef c (s.chanRef c - 1),
             closed := if s.chanRef c = 1 then s.closed ++ [c] else s.closed }

def exmkfid (fid : UInt64) : Option (Nat × Fids) :=
  match s.find fid with
  | some _ => none
  | none =>
    let f := s.made
    some (f, { s.setFid f ⟨ulongInt fid, 1, true, none, 0⟩ with
      made := f + 1, hash := Function.update s.hash (bucket fid) (f :: s.hash (bucket fid)) })

def exgetfid (fid : UInt64) : Option (Nat × Fids) :=
  match s.find fid with
  | none => none
  | some f =>
    if (s.fid f).attached then some (f, s.setFid f { s.fid f with ref := (s.fid f).ref + 1 }) else none

def exputfid (f : Nat) : Fids :=
  let s := s.setFid f { s.fid f with ref := (s.fid f).ref - 1 }
  if (s.fid f).ref = 0 ∧ (s.fid f).attached = false then
    let b := bucket (intUlong (s.fid f).fid)
    let c := (s.fid f).chan
    let s := { s with hash := Function.update s.hash b ((s.hash b).erase f) }
    c.elim s s.cclose
  else s

/-- With the channel, whether it is that of a mount point. -/
def exmount (c : Nat) (d : Devs) : Option (Nat × Bool) × Fids :=
  if (s.chan c).opened then (some (c, false), s.incref c)
  else
    match d.mount with
    | .no => (some (c, false), s.incref c)
    | .raises => (none, s)
    | .yes ch => (some (s.opens, true), s.newchan ch)

/-- The device's `open`; where it returns another channel it has closed the first. -/
def devopen (c : Nat) (d : Devs) : Option Nat × Fids :=
  match d.open_ with
  | .raises => (none, s)
  | .same ch => (some c, { s with chan := Function.update s.chan c ch })
  | .other ch => (some s.opens, (s.newchan ch).cclose c)

def createdir (c : Nat) (d : Devs) : Option Nat × Fids :=
  match d.createdir with
  | none => (none, s)
  | some ch => (some s.opens, (s.newchan ch).cclose c)

def cunique (c : Nat) (d : Devs) : Option Nat × Fids :=
  if s.chanRef c = 1 then (some c, s)
  else
    match d.clone with
    | none => (none, s)
    | some ch => (some s.opens, (s.newchan ch).cclose c)

def exattach (fid : UInt32) (d : Devs) : Reply × Fids :=
  match s.exmkfid fid.toUInt64 with
  | none => (.error edupfid, s)
  | some (f, s) =>
    match d.clone with
    | none => (.error d.errstr, (s.detach f).exputfid f)
    | some ch => (.ok, ((s.newchan ch).setChan f s.opens).exputfid f)

def exclunk (fid : UInt32) : Reply × Fids :=
  match s.exgetfid fid.toUInt64 with
  | none => (.error enofid, s)
  | some (f, s) => (.ok, (s.detach f).exputfid f)

/-- How a handler begins that uses `f->chan`. -/
def withFid (fid : UInt32) (k : Fids → Nat → Nat → Reply × Fids) : Reply × Fids :=
  match s.exgetfid fid.toUInt64 with
  | none => (.error enofid, s)
  | some (f, s) =>
    match (s.fid f).chan with
    | none => (.error "", { s with crashed := true })
    | some c => k s f c

/-- The loop of `Exwalk`, with the number of names that it walked. -/
def walkLoop (d : Devs) : Nat → List String → Nat → Fids → Option Nat × Nat × Fids
  | i, [], c, s => (some c, i, s)
  | i, name :: names, c, s =>
    if (s.chan c).root ∧ (name = "" ∨ name = "..") then walkLoop d (i + 1) names c s
    else
      match d.walk i with
      | none => (none, i, s.cclose c)
      | some ch => walkLoop d (i + 1) names s.opens ((s.newchan ch).cclose c)

/-- Where `cclone` raises the request has not yet an error label of its own. -/
def exwalk (fid newfid : UInt32) (names : List String) (d : Devs) : Reply × Fids :=
  s.withFid fid fun s f c₀ =>
    if (s.chan c₀).opened then (.error eopen, s.exputfid f)
    else
      match d.clone with
      | none => (.error d.errstr, s)
      | some ch =>
        match walkLoop d 0 names s.opens (s.newchan ch) with
        | (none, n, s) => (if n = 0 then .error d.errstr else .walk n, s.exputfid f)
        | (some c, n, s) =>
          if newfid = fid then (.walk n, ((s.cclose c₀).setChan f c).exputfid f)
          else
            match s.exmkfid newfid.toUInt64 with
            | none => (.error edupfid, (s.cclose c).exputfid f)
            | some (nf, s) => (.walk n, ((s.setChan nf c).exputfid nf).exputfid f)

/-- Where `exmount` raises the request has not yet an error label of its own. -/
def exopen (fid : UInt32) (d : Devs) : Reply × Fids :=
  s.withFid fid fun s f c₀ =>
    if (s.chan c₀).opened then (.error emode, s.exputfid f)
    else
      match s.exmount c₀ d with
      | (none, s) => (.error d.errstr, s)
      | (some (c, _), s) =>
        match s.devopen c d with
        | (none, s) => (.error d.errstr, (s.cclose c).exputfid f)
        | (some c, s) =>
          let s := ((s.cclose c₀).setChan f c).setOffset f 0
          (.opened (exiounit (s.msize - iohdrsz) s.msize (s.chan c).iounit), s.exputfid f)

/-- `Excreate` from `create` on. -/
def createIn (f : Nat) (c₀ c : Nat) (d : Devs) : Reply × Fids :=
  match d.create with
  | none => (.error d.errstr, (s.cclose c).exputfid f)
  | some ch =>
    let s := (({ s with chan := Function.update s.chan c ch } : Fids).cclose c₀).setChan f c
    (.opened (exiounit (s.msize - iohdrsz) s.msize (s.chan c).iounit), s.exputfid f)

def excreate (fid : UInt32) (name : String) (d : Devs) : Reply × Fids :=
  s.withFid fid fun s f c₀ =>
    if (s.chan c₀).opened then (.error emode, s.exputfid f)
    else if d.valid = false then (.error d.errstr, s.exputfid f)
    else if name = "." ∨ name = ".." then (.error efilename, s.exputfid f)
    else
      match s.exmount c₀ d with
      | (none, s) => (.error d.errstr, s.exputfid f)
      | (some (c, false), s) => s.createIn f c₀ c d
      | (some (c, true), s) =>
        match s.createdir c d with
        | (none, s) => (.error d.errstr, (s.cclose c).exputfid f)
        | (some dc, s) =>
          match s.cunique dc d with
          | (none, s) => (.error d.errstr, ((s.cclose dc).cclose c).exputfid f)
          | (some c, s) => s.createIn f c₀ c d

/-- By the time of the loop of the source `f->offset` is `t->offset` in a directory, so it is left after one read. -/
def exread (fid : UInt32) (count : Nat) (offset : Int) (d : Devs) : Reply × Fids :=
  s.withFid fid fun s f c =>
    if (s.chan c).opened = false then (.error emode, s.exputfid f)
    else if (s.chan c).mode ≠ oread ∧ (s.chan c).mode ≠ ordwr then (.error eaccess, s.exputfid f)
    else if countTooBig s.msize count then (.error ecount, s.exputfid f)
    else if offset < 0 then (.error enegoff, s.exputfid f)
    else if (s.chan c).dir ∧ offset ≠ (s.fid f).offset ∧ offset ≠ 0 then (.error eseekdir, s.exputfid f)
    else
      let s := if (s.chan c).dir ∧ offset ≠ (s.fid f).offset then s.setOffset f 0 else s
      match d.io with
      | none => (.error d.errstr, s.exputfid f)
      | some n => (.count n, (s.setOffset f (offset + n)).exputfid f)

def exwrite (fid : UInt32) (count : Nat) (offset : Int) (d : Devs) : Reply × Fids :=
  s.withFid fid fun s f c =>
    if (s.chan c).opened = false then (.error emode, s.exputfid f)
    else if (s.chan c).mode ≠ owrite ∧ (s.chan c).mode ≠ ordwr then (.error eaccess, s.exputfid f)
    else if (s.chan c).dir then (.error eisdir, s.exputfid f)
    else if countTooBig s.msize count then (.error ecount, s.exputfid f)
    else if offset < 0 then (.error enegoff, s.exputfid f)
    else
      match d.io with
      | none => (.error d.errstr, s.exputfid f)
      | some n => (.count n, s.exputfid f)

/-- Where `exmount` raises the request has not yet an error label of its own. -/
def exstat (fid : UInt32) (d : Devs) : Reply × Fids :=
  s.withFid fid fun s f c₀ =>
    match s.exmount c₀ d with
    | (none, s) => (.error d.errstr, s)
    | (some (c, _), s) =>
      match d.io with
      | none => (.error d.errstr, (s.cclose c).exputfid f)
      | some n => (if n ≤ bit16sz then .error eshortstat else .count n, (s.cclose c).exputfid f)

def exwstat (fid : UInt32) (d : Devs) : Reply × Fids :=
  s.withFid fid fun s f c₀ =>
    if d.valid = false then (.error d.errstr, s.exputfid f)
    else
      match s.exmount c₀ d with
      | (none, s) => (.error d.errstr, s.exputfid f)
      | (some (c, _), s) => (if d.io.isSome then .ok else .error d.errstr, (s.cclose c).exputfid f)

def exremove (fid : UInt32) (d : Devs) : Reply × Fids :=
  s.withFid fid fun s f c₀ =>
    match s.exmount c₀ d with
    | (none, s) => (.error d.errstr, (s.detach f).exputfid f)
    | (some (c, _), s) => (if d.remove then .ok else .error d.errstr, ((s.cclose c).detach f).exputfid f)

end Fids

end Inferno.Export
