import Inferno.Lib.Run

namespace Inferno.Fd

def deltafd : Nat := 20
def maxnfd : Nat := 4000

def enofd : String := "no free file descriptors"
def ebadfd : String := "fd out of range or not open"
def ebadusefd : String := "inappropriate use of fd"
def eperm : String := "permission denied"
def ebadarg : String := "bad arg in system call"
def enomem : String := "out of memory: kernel"

def oread : Nat := 0
def ordwr : Nat := 2
def otrunc : Nat := 0x10
def oexcl : Nat := 0x1000

/-- A `Fgrp`. The slots are numbered from 0, and a `Chan` is a number. -/
structure Fgrp where
  fd : List (Option Nat)
  maxfd : Nat
  minfd : Nat
deriving DecidableEq

/-- `auth` and `cmsg` are `qid.type & QTAUTH` and `flag & CMSG`. -/
structure Chan where
  ref : Nat
  mode : Nat
  auth : Bool
  cmsg : Bool
deriving DecidableEq

namespace Fgrp

def nfd (f : Fgrp) : Nat := f.fd.length

def slot (f : Fgrp) (i : Nat) : Option Nat := (f.fd[i]?).join

/-- `newfgrp(nil)`. -/
def newfgrp : Fgrp := ⟨List.replicate deltafd none, 0, 0⟩

/-- `none` for the return of -1. `more` is whether `malloc` finds memory. -/
def growfd (f : Fgrp) (fd : Nat) (more : Bool) : Option Fgrp :=
  if fd < f.nfd then some f
  else
    let n := min (f.nfd + deltafd) maxnfd
    if fd ≥ n ∨ ¬more then none else some { f with fd := f.fd ++ List.replicate (n - f.nfd) none }

/-- Where the loop of `newfd` stops. -/
def scan (f : Fgrp) : Nat := f.minfd + (f.fd.drop f.minfd).findIdx Option.isNone

/-- `none` for the error that `exhausted` raises. -/
def newfd (f : Fgrp) (c : Nat) (more : Bool) : Option (Fgrp × Nat) :=
  let i := f.scan
  match (if i ≥ f.nfd then f.growfd i more else some f) with
  | none => none
  | some f => some ({ fd := f.fd.set i (some c), maxfd := max f.maxfd i, minfd := i + 1 }, i)

/-- The loop of `fdclose` from `i` down, with `maxfd` as it is. -/
def lower (fd : List (Option Nat)) : Nat → Nat → Nat
  | 0, maxfd => maxfd
  | i + 1, maxfd => if fd[i]? = some none then lower fd i i else maxfd

/-- The section of `fdclose` for a slot that is not empty. -/
def clear (f : Fgrp) (fd : Nat) : Fgrp where
  fd := f.fd.set fd none
  maxfd := if fd = f.maxfd then lower (f.fd.set fd none) fd f.maxfd else f.maxfd
  minfd := min f.minfd fd

/-- The section of `kdup` for a chosen descriptor, once the slots reach that far. -/
def put (f : Fgrp) (fd c : Nat) : Fgrp := { f with fd := f.fd.set fd (some c), maxfd := max f.maxfd fd }

/-- The copy that `dupfgrp` makes. -/
def dup (f : Fgrp) : Fgrp where
  fd := (List.range (if f.maxfd ≥ deltafd then (f.maxfd + 1 + deltafd - 1) / deltafd * deltafd else deltafd)).map fun i =>
    if i ≤ f.maxfd then f.slot i else none
  maxfd := f.maxfd
  minfd := f.minfd

/-- The slots that `dupfgrp` copies. -/
def chans (f : Fgrp) : List Nat := (List.range (f.maxfd + 1)).filterMap f.slot

end Fgrp

/-- `none` for `error(Ebadarg)`. -/
def openmode (o : Nat) : Option Nat :=
  if o ≥ 0x73 then none
  else
    let o := o % 16
    if o > 3 then none else if o = 3 then some oread else some o

/-- The tables, the channels that are not free, and the references that calls in
progress have. -/
structure Fds where
  fgrp : List Fgrp
  chan : Nat → Option Chan
  held : List Nat

/-- The descriptors that a call hands out, or the error of a call that fails. -/
def Ret : Type := Except String (List Nat)

/-- What the pipe device does for `kpipe`: the channels of the attach and of its
clone, those that the walks lead to, and whether the opens succeed. -/
structure Pipes where
  attach : Except String Nat
  clone : Except String Nat
  walk₀ : Except String Nat
  walk₁ : Except String Nat
  open₀ : Except String Unit
  open₁ : Except String Unit

def Pipes.works (dev : Pipes) : Bool :=
  dev.attach.isOk && dev.clone.isOk && dev.walk₀.isOk && dev.walk₁.isOk && dev.open₀.isOk && dev.open₁.isOk

namespace Fds

def setFgrp (s : Fds) (g : Nat) (f : Fgrp) : Fds := { s with fgrp := s.fgrp.set g f }

def incref (s : Fds) (c : Nat) : Fds :=
  { s with chan := Function.update s.chan c ((s.chan c).map fun ch => { ch with ref := ch.ref + 1 }) }

/-- `none` for the panic on a channel that is free. -/
def cclose (s : Fds) (c : Nat) : Option Fds :=
  match s.chan c with
  | none => none
  | some ch =>
    some { s with chan := Function.update s.chan c (if ch.ref ≤ 1 then none else some { ch with ref := ch.ref - 1 }) }

/-- `newchan`, for a channel that is free. -/
def newchan (s : Fds) (c : Nat) (ch : Chan) : Option Fds :=
  match s.chan c with
  | none => some { s with chan := Function.update s.chan c (some { ch with ref := 1 }) }
  | some _ => none

/-- What `namec` returns: a new channel, or one more reference to a channel that
is there (`#d`). -/
def name (s : Fds) (c : Nat) (ch : Chan) : Fds :=
  match s.chan c with
  | none => { s with chan := Function.update s.chan c (some { ch with ref := 1 }) }
  | some _ => s.incref c

def closeAll : List Nat → Fds → Option Fds
  | [], s => some s
  | c :: cs, s => (s.cclose c).bind (closeAll cs)

/-- The handlers of errors: the channels of the call are closed. -/
def fail (s : Fds) (cs : List Nat) (err : String) : Option (Fds × Ret) :=
  (closeAll cs s).map fun s => (s, .error err)

/-- `mode` is `none` for a negative one. -/
def usable (ch : Chan) (mode : Option Nat) (chkmnt : Bool) : Bool :=
  !(chkmnt && ch.cmsg) &&
    match mode with
    | none => true
    | some mode => ch.mode == ordwr || !(mode &&& otrunc != 0 && ch.mode == oread) && mode - (mode &&& otrunc) == ch.mode

/-- `fdtochan` with `iref`, and the channel. -/
def fdtochan (s : Fds) (f : Fgrp) (fd : Int) (mode : Option Nat) (chkmnt : Bool) : Option (Fds × Except String Nat) :=
  match (if fd < 0 ∨ f.maxfd < fd then none else f.slot fd.toNat) with
  | none => some (s, .error ebadfd)
  | some c =>
    match s.chan c with
    | none => none
    | some ch =>
      if usable ch mode chkmnt then some (s.incref c, .ok c)
      else ((s.incref c).cclose c).map fun s => (s, .error ebadusefd)

/-- The end of `kopen` and `kcreate`, from `namec` on. -/
def install (s : Fds) (g : Nat) (f : Fgrp) (file : Except String (Nat × Chan)) (more : Bool) : Option (Fds × Ret) :=
  match file with
  | .error err => some (s, .error err)
  | .ok (c, ch) =>
    match f.newfd c more with
    | none => (s.name c ch).fail [c] enofd
    | some (f, fd) => some ((s.name c ch).setFgrp g f, .ok [fd])

def kopen (s : Fds) (g : Nat) (f : Fgrp) (mode : Nat) (file : Except String (Nat × Chan)) (more : Bool) : Option (Fds × Ret) :=
  if openmode mode = none then some (s, .error ebadarg) else s.install g f file more

def kcreate (s : Fds) (g : Nat) (f : Fgrp) (mode : Nat) (file : Except String (Nat × Chan)) (more : Bool) : Option (Fds × Ret) :=
  if openmode (mode - (mode &&& oexcl)) = none then some (s, .error ebadarg) else s.install g f file more

/-- The handler of `kdup` only returns -1. -/
def kdup (s : Fds) (g : Nat) (f : Fgrp) (old new : Int) (more : Bool) : Option (Fds × Ret) :=
  match s.fdtochan f old none false with
  | none => none
  | some (s, .error err) => some (s, .error err)
  | some (s, .ok c) =>
    if (s.chan c).any Chan.auth then some (s, .error eperm)
    else if new = -1 then
      match f.newfd c more with
      | none => s.fail [c] enofd
      | some (f, fd) => some (s.setFgrp g f, .ok [fd])
    else
      match (if new < 0 then none else f.growfd new.toNat more) with
      | none => s.fail [c] ebadfd
      | some f => (closeAll (f.slot new.toNat).toList (s.setFgrp g (f.put new.toNat c))).map fun s => (s, .ok [new.toNat])

/-- `kpipe` up to the descriptors: its two channels. -/
def pipe (s : Fds) (dev : Pipes) (dir data : Chan) : Option (Fds × Except String (Nat × Nat)) :=
  let failed (cs : List Nat) (err : String) (s : Fds) := (closeAll cs s).map fun s => (s, Except.error err)
  match dev.attach with
  | .error err => some (s, .error err)
  | .ok c₀ =>
    (s.newchan c₀ dir).bind fun s =>
    match dev.clone with
    | .error err => failed [c₀] err s
    | .ok c₁ =>
      (s.newchan c₁ dir).bind fun s =>
      match dev.walk₀ with
      | .error err => failed [c₀, c₁] err s
      | .ok d₀ =>
        ((s.newchan d₀ data).bind fun s => s.cclose c₀).bind fun s =>
        match dev.walk₁ with
        | .error err => failed [d₀, c₁] err s
        | .ok d₁ =>
          ((s.newchan d₁ data).bind fun s => s.cclose c₁).bind fun s =>
          match dev.open₀, dev.open₁ with
          | .ok _, .ok _ => some (s, .ok (d₀, d₁))
          | .error err, _ | _, .error err => failed [d₀, d₁] err s

/-- `more₀` and `more₁` are for the two calls of `newfd`. -/
def kpipe (s : Fds) (g : Nat) (f : Fgrp) (dev : Pipes) (dir data : Chan) (more₀ more₁ : Bool) : Option (Fds × Ret) :=
  match s.pipe dev dir data with
  | none => none
  | some (s, .error err) => some (s, .error err)
  | some (s, .ok (c₀, c₁)) =>
    match f.newfd c₀ more₀ with
    | none => s.fail [c₀, c₁] enofd
    | some (f, fd₀) =>
      match f.newfd c₁ more₁ with
      | none => (s.setFgrp g { f with fd := f.fd.set fd₀ none }).fail [c₀, c₁] enofd
      | some (f, fd₁) => some (s.setFgrp g f, .ok [fd₀, fd₁])

/-- `kclose`; `fdtochan` is called without `iref`, for its checks only. -/
def kclose (s : Fds) (g : Nat) (f : Fgrp) (fd : Int) : Option (Fds × Ret) :=
  match (if fd < 0 ∨ f.maxfd < fd then none else f.slot fd.toNat) with
  | none => some (s, .error ebadfd)
  | some c => ((s.setFgrp g (f.clear fd.toNat)).cclose c).map fun s => (s, .ok [])

/-- `more` is for its calls of `malloc`. -/
def dupfgrp (s : Fds) (f : Fgrp) (more : Bool) : Fds × Ret :=
  if more then ({ f.chans.foldl incref s with fgrp := s.fgrp ++ [f.dup] }, .ok []) else (s, .error enomem)

end Fds

/-- Calls of processes with the group `g`. `start` and `finish` are a call that has
the channel of a descriptor in between, such as `kread`. -/
inductive FdCall
  | kopen (g mode : Nat) (file : Except String (Nat × Chan)) (more : Bool)
  | kcreate (g mode : Nat) (file : Except String (Nat × Chan)) (more : Bool)
  | kdup (g : Nat) (old new : Int) (more : Bool)
  | kpipe (g : Nat) (dev : Pipes) (dir data : Chan) (more₀ more₁ : Bool)
  | kclose (g : Nat) (fd : Int)
  | dupfgrp (g : Nat) (more : Bool)
  | start (g : Nat) (fd : Int) (mode : Option Nat) (chkmnt : Bool)
  | finish (c : Nat)

namespace FdCall

def run (e : FdCall) (s : Fds) : Option (Fds × Ret) :=
  match e with
  | kopen g mode file more => (s.fgrp[g]?).bind fun f => s.kopen g f mode file more
  | kcreate g mode file more => (s.fgrp[g]?).bind fun f => s.kcreate g f mode file more
  | kdup g old new more => (s.fgrp[g]?).bind fun f => s.kdup g f old new more
  | kpipe g dev dir data more₀ more₁ => (s.fgrp[g]?).bind fun f => s.kpipe g f dev dir data more₀ more₁
  | kclose g fd => (s.fgrp[g]?).bind fun f => s.kclose g f fd
  | dupfgrp g more => (s.fgrp[g]?).map fun f => s.dupfgrp f more
  | start g fd mode chkmnt => (s.fgrp[g]?).bind fun f =>
    match s.fdtochan f fd mode chkmnt with
    | none => none
    | some (s, .error err) => some (s, .error err)
    | some (s, .ok c) => some ({ s with held := c :: s.held }, .ok [])
  | finish c => if c ∈ s.held then ({ s with held := s.held.erase c }.cclose c).map fun s => (s, .ok []) else none

def exec (e : FdCall) (s : Fds) : Option Fds := (e.run s).map Prod.fst

/-- A new descriptor, and not one that the caller has chosen. -/
def hands : FdCall → Bool
  | kopen .. | kcreate .. | kpipe .. => true
  | kdup _ _ new _ => new == -1
  | _ => false

def group : FdCall → Nat
  | kopen g .. | kcreate g .. | kdup g .. | kpipe g .. | kclose g .. | dupfgrp g .. | start g .. => g
  | finish _ => 0

end FdCall

def Fds.init : Fds := ⟨[Fgrp.newfgrp], fun _ => none, []⟩

end Inferno.Fd
