import Inferno.Fd.Fgrp
import Inferno.Strings.Fields

namespace Inferno.Dev

open Strings

def sha1dlen : Nat := 20
def captimeout : Nat := 15
def capidletime : Nat := 60
def eisdir : String := "file is a directory"

/-- `'@'`. -/
def atSign : UInt8 := 0x40

abbrev Hash := Vector UInt8 sha1dlen

/-- A hash in the list. `id` is not in the source: the number of the hashes written before it. -/
structure Caps where
  hash : Hash
  time : Nat
  id : Nat

inductive CapQid
  | dir
  | hash
  | use
deriving DecidableEq

/-- `opener` is not in the source: the name of the user that opened the channel. -/
structure CapChan where
  path : CapQid
  mode : Nat
  opener : List UInt8

/-- What happened, for the statements only: a hash was written on a channel that `opener`
opened, `capwatch` went over the list, or the text `text` written by `up` took the hash `id`
from it, and the name of the user became `name` if there is one. -/
inductive CapEvent
  | hash (id : Nat) (hash : Hash) (opener : List UInt8)
  | timeout
  | use (up : Nat) (text : List UInt8) (id : Nat) (name : Option (List UInt8))

namespace CapEvent

def isHash : CapEvent → Bool
  | .hash _ _ _ => true
  | _ => false

def isTimeout : CapEvent → Bool
  | .timeout => true
  | _ => false

def uses (id : Nat) : CapEvent → Bool
  | .use _ _ id' _ => id' == id
  | _ => false

end CapEvent

/-- `allcaps`, the process `capwatch`, the names of the users of the processes, and the
channels on the device. `events` has the last event first. -/
structure Cap where
  caps : List Caps
  kpstarted : Bool
  idletime : Nat
  eve : List UInt8
  user : Nat → List UInt8
  chan : List CapChan
  events : List CapEvent

namespace Cap

def written (s : Cap) : Nat := s.events.countP CapEvent.isHash

/-- The loop of `capwatch` over the list. -/
def expire (caps : List Caps) : List Caps :=
  caps.filterMap fun c => if c.time + 1 > captimeout then none else some { c with time := c.time + 1 }

/-- One turn of `capwatch`, after `osmillisleep`. -/
def capwatch (s : Cap) : Cap :=
  let caps := expire s.caps
  let idletime := if caps.isEmpty then s.idletime + 1 else 0
  { s with caps, idletime, kpstarted := !(caps.isEmpty && idletime > capidletime), events := .timeout :: s.events }

def iseve (s : Cap) (up : Nat) : Bool := s.eve == s.user up

def capopen (s : Cap) (up : Nat) (path : CapQid) (omode : Nat) : Cap × Option String :=
  let c : CapChan := ⟨path, omode, s.user up⟩
  if path = .dir then if omode ≠ Fd.oread then (s, some eisdir) else ({ s with chan := s.chan ++ [c] }, none)
  else if path = .hash ∧ s.iseve up = false then (s, some Fd.eperm)
  else match Fd.openmode omode with
    | none => (s, some Fd.ebadarg)
    | some mode => ({ s with chan := s.chan ++ [{ c with mode }] }, none)

/-- `none` for the return of -1; `more` is whether `malloc` finds memory. A `capwatch` that starts has not been idle. -/
def capwritehash (s : Cap) (opener a : List UInt8) (more : Bool) : Option Cap :=
  if size : a.length = sha1dlen then
    if more then
      let hash : Hash := ⟨a.toArray, size⟩
      some { s with
        caps := ⟨hash, 0, s.written⟩ :: s.caps
        kpstarted := true
        idletime := if s.kpstarted then s.idletime else 0
        events := .hash s.written hash opener :: s.events }
    else none
  else none

/-- What `capwriteuse` has when it takes the lock. -/
structure Use where
  n : Nat
  users₀ : List UInt8
  users₁ : List UInt8
  digest : Hash

section Hmac

variable (hmacSha1 : List UInt8 → List UInt8 → Hash)

/-- `capwriteuse` up to its `qlock`, `none` for a return of -1. The bytes of `buf` from the NUL on are not looked at. -/
def parseuse (a : List UInt8) : Option Use :=
  if a.length ≥ 127 then none
  else
    let buf := a ++ [0]
    match strrchr buf atSign with
    | none => none
    | some p =>
      let buf := buf.set p 0
      let key := cstr buf (p + 1)
      let text := cstr buf 0
      if key.length = 0 ∨ text.length = 0 then none
      else
        let digest := hmacSha1 text key
        let f := getfields 3 false [atSign.toNat] buf 0
        let users₀ := cstr f.buf (f.args.getD 0 0)
        let users₁ := if f.narg = 1 then users₀ else cstr f.buf (f.args.getD 1 0)
        if f.narg ≠ 1 ∧ f.narg ≠ 2 then none
        else if users₀ = [] ∨ users₁ = [] then none
        else some ⟨f.narg, users₀, users₁, digest⟩

/-- `false` for a return of -1. -/
def capwriteuse (s : Cap) (up : Nat) (a : List UInt8) : Cap × Bool :=
  match parseuse hmacSha1 a with
  | none => (s, false)
  | some use =>
    match s.caps.find? (·.hash = use.digest) with
    | none => (s, false)
    | some c =>
      let s := { s with caps := s.caps.eraseP (·.hash = use.digest) }
      if use.n = 2 ∧ s.user up ≠ use.users₀ then ({ s with events := .use up a c.id none :: s.events }, false)
      else ({ s with user := Function.update s.user up use.users₁,
                     events := .use up a c.id (some use.users₁) :: s.events }, true)

def capwrite (s : Cap) (up : Nat) (c : CapChan) (buf : List UInt8) (more : Bool) : Cap × Except String Nat :=
  match c.path with
  | .hash => match s.capwritehash c.opener buf more with
    | none => (s, .error Fd.ebadarg)
    | some s => (s, .ok buf.length)
  | .use =>
    let (s, ok) := s.capwriteuse hmacSha1 up buf
    (s, if ok then .ok buf.length else .error "invalid capability")
  | .dir => (s, .error Fd.ebadarg)

end Hmac

def init (eve : List UInt8) (user : Nat → List UInt8) : Cap := ⟨[], false, 0, eve, user, [], []⟩

end Cap

/-- Steps of the processes `up`, which may write on any channel, and of `capwatch`. -/
inductive CapAct
  | open_ (up : Nat) (path : CapQid) (omode : Nat)
  | write (up c : Nat) (buf : List UInt8) (more : Bool)
  | timeout

def CapAct.exec (hmacSha1 : List UInt8 → List UInt8 → Hash) (a : CapAct) (s : Cap) : Option Cap :=
  match a with
  | open_ up path omode => some (s.capopen up path omode).1
  | write up c buf more => (s.chan[c]?).map fun c => (s.capwrite hmacSha1 up c buf more).1
  | timeout => if s.kpstarted then some s.capwatch else none

namespace Cap

/-- The name of the user of `up` after the events, which has it changed by nothing else. -/
def userOf (user : Nat → List UInt8) (up : Nat) : List CapEvent → List UInt8
  | [] => user up
  | .use up' _ _ (some name) :: events => if up' = up then name else userOf user up events
  | _ :: events => userOf user up events

/-- What must hold of an event after the `earlier` ones. A text takes a hash only if it is the
hash of what stands before its last `@`, with what stands after it, was written by then, is not
expired and was not taken. Only `name@key`, and `u@name@key` of a process whose user is `u`,
change a name, to `name`. -/
def Sound (hmacSha1 : List UInt8 → List UInt8 → Hash) (eve : List UInt8) (user : Nat → List UInt8)
    (earlier : List CapEvent) : CapEvent → Prop
  | .hash id _ opener => id = earlier.countP CapEvent.isHash ∧ opener = eve
  | .timeout => True
  | .use up text id name => (∀ e ∈ earlier, e.uses id = false) ∧ ∃ part key opener between first,
      cstr text 0 = part ++ atSign :: key ∧ atSign ∉ key ∧
      earlier = between ++ .hash id (hmacSha1 part key) opener :: first ∧
      between.countP CapEvent.isTimeout ≤ captimeout ∧
      ∀ v, name = some v → atSign ∉ v ∧ (part = v ∨
        part = userOf user up earlier ++ atSign :: v ∧ atSign ∉ userOf user up earlier)

/-- Hashes, by the numbers under which they were written, allow one change each. -/
structure Ok (hmacSha1 : List UInt8 → List UInt8 → Hash) (user : Nat → List UInt8) (s : Cap) : Prop where
  users : ∀ up, s.user up = userOf user up s.events
  sound : ∀ later e earlier, s.events = later ++ e :: earlier → Sound hmacSha1 s.eve user earlier e
  once : ∀ id, s.events.countP (CapEvent.uses id) ≤ 1
  watched : s.caps ≠ [] → s.kpstarted = true

end Cap

end Inferno.Dev
