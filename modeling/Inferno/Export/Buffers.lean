import Inferno.Lib.Run
import Inferno.Styx.FcallCodec

namespace Inferno.Export

open Styx

/-- A message of exportfs, with its strings and data. -/
abbrev XMsg := Msg (Option (List UInt8)) (List UInt8)

def iohdrsz : Nat := 24
def msghdrsz : Nat := 7
def maxfdata : Nat := 8192
def maxrpcdef : Nat := iohdrsz + maxfdata
def maxrpcmax : Nat := iohdrsz + 64 * 1024

/-- Conversion to `int` and to `ulong`. -/
def s32 (v : Int) : Int := v.bmod (2 ^ 32)
def ulong (v : Int) : Nat := (v % 2 ^ 64).toNat

/-- The characters of a message text. -/
def text (s : String) : Option (List UInt8) := some (s.toList.map fun c => UInt8.ofNat c.toNat)

/-- Where a request is. `looping` is `Exread` after its tests, `opening` is
`exiounit` after its first look at `fs->msize`. -/
inductive Phase
  | reading
  | queued
  | looping (dir : Bool)
  | opening (iounit : Int)
  | answered (out : XMsg)
  | sent

/-- An `Exq`: the size of its buffer, the message in it and where it is. -/
structure Req where
  bsize : Nat
  tag : UInt16
  msg : XMsg
  phase : Phase

/-- What the claims about sizes are about: `len` bytes stored at `off` of a
buffer, where `bound` is asked for; a reply with the message size last agreed;
and a size of i/o announced under `fs->msize`. -/
inductive Event
  | store (bsize off len bound : Nat)
  | reply (len : Nat) (agreed : Option Nat)
  | announce (iounit : Nat) (msize : Int)
  deriving DecidableEq

/-- An `Export`: `fs->msize`, the offsets of its fids, its requests. `agreed` is
the size in the last `Rversion` sent that took a version. -/
structure Fs where
  msize : Int
  agreed : Option Nat
  reqs : Nat → Option Req
  made : Nat
  foffset : Nat → Int
  log : List Event

/-- `t->count > fs->msize-IOHDRSZ`, an `int` against a `ulong`. -/
def countTooBig (msize : Int) (count : Nat) : Bool := ulong (msize - iohdrsz) < count

def strcmpLe : List UInt8 → List UInt8 → Bool
  | [], _ => true
  | _ :: _, [] => false
  | a :: as, b :: bs => a < b || (a == b && strcmpLe as bs)

/-- `VERSION9P`, "9P2000". -/
def version9p : List UInt8 := [57, 80, 50, 48, 48, 48]

/-- The size `Exversion` answers with. -/
def rmsize (ioiounit : Int) (msize : Nat) : Nat :=
  let m := if msize > maxrpcmax then maxrpcmax else msize
  if ioiounit ≠ 0 ∧ ioiounit > 64 ∧ ioiounit < m then ioiounit.toNat else m

/-- `Exversion` takes the version. -/
def speaks (version : List UInt8) : Bool :=
  let v := version.takeWhile (· ≠ 46)
  v.take 2 == [57, 80] && strcmpLe version9p v

/-- `exreply`: the length of what is written to the connection. -/
def exreply (msize : Int) (r : Req) (out : XMsg) : Nat :=
  match convS2M ⟨r.tag, out⟩ r.bsize with
  | some bytes => bytes.length
  | none =>
    let ename := if msize = 0 then "Tversion not seen" else "failed to convert R-message"
    match convS2M ⟨r.tag, .rerror (text ename)⟩ r.bsize with
    | some bytes => bytes.length
    | none => 0

/-- `exiounit`, with the two values of `fs->msize` it sees. -/
def exiounit (first : Int) (msize : Int) (ciounit : Nat) : Int :=
  if ciounit ≠ 0 ∧ ciounit < ulong msize then s32 ciounit else first

namespace Fs

def put (s : Fs) (q : Nat) (r : Req) : Fs := { s with reqs := Function.update s.reqs q (some r) }

def note (s : Fs) (e : Event) : Fs := { s with log := s.log ++ [e] }

/-- `exportproc` gets a buffer for the next message. -/
def alloc (s : Fs) : Fs :=
  let msize := if s.msize = 0 then maxrpcdef else s.msize.toNat
  { s.put s.made ⟨msize, 0, .rflush, .reading⟩ with made := s.made + 1 }

/-- The message arrives. -/
def recv (s : Fs) (q : Nat) (r : Req) (tag : UInt16) (msg : XMsg) : Fs :=
  s.put q { r with tag := tag, msg := msg, phase := .queued }

def answer (s : Fs) (q : Nat) (r : Req) (out : XMsg) : Fs := s.put q { r with phase := .answered out }

/-- `Exversion` on a channel with `iounit`. -/
def exversion (s : Fs) (q : Nat) (r : Req) (ioiounit : Int) (msize : Nat) (version : List UInt8) : Fs :=
  let m := rmsize ioiounit msize
  if m < 64 then s.answer q r (.rerror (text "message size too small"))
  else if speaks version then
    { s with msize := m }.answer q r (.rversion (UInt64.ofNat m) (some version9p))
  else s.answer q r (.rversion (UInt64.ofNat m) (text "unknown"))

/-- The tests of `Exread` on an open fid, `dir` when it is a directory. -/
def exreadTests (s : Fs) (q : Nat) (r : Req) (fid : Nat) (offset : Int) (count : Nat) (dir : Bool) : Fs :=
  if countTooBig s.msize count then s.answer q r (.rerror (text "read/write -- count too big"))
  else if offset < 0 then s.answer q r (.rerror (text "negative i/o offset"))
  else if dir = true ∧ offset ≠ s.foffset fid then
    if offset ≠ 0 then s.answer q r (.rerror (text "can't seek on a directory"))
    else { s with foffset := Function.update s.foffset fid 0 }.put q { r with phase := .looping dir }
  else s.put q { r with phase := .looping dir }

/-- The number of bytes the loop of `Exread` asks the device for, and whether it seeks. -/
def want (s : Fs) (fid : Nat) (offset : Int) (count : Nat) (dir : Bool) : Int × Bool :=
  if dir = true ∧ s.foffset fid ≠ offset then
    let n := s32 (offset - s.foffset fid)
    (if n > maxfdata then maxfdata else n, true)
  else (s32 count, false)

/-- One turn of the loop of `Exread`, in which the device returns `data`. -/
def exreadLoop (s : Fs) (q : Nat) (r : Req) (fid : Nat) (offset : Int) (count : Nat) (dir : Bool)
    (data : List UInt8) : Fs :=
  let (n, seek) := s.want fid offset count dir
  let off := if seek then s.foffset fid else offset
  let s := { s.note (.store r.bsize iohdrsz n.toNat count) with
    foffset := Function.update s.foffset fid (off + data.length) }
  if data = [] ∨ seek = false then s.answer q r (.rread (UInt64.ofNat data.length) data) else s

/-- `q->out.nstat`, a `ushort`. -/
def nstat (r : Req) : Nat := (r.bsize - (msghdrsz + 2)) % 2 ^ 16

def exstat (s : Fs) (q : Nat) (r : Req) (stat : List UInt8) : Fs :=
  let s := s.note (.store r.bsize (msghdrsz + 2) (nstat r) (nstat r))
  if stat.length ≤ 2 then s.answer q r (.rerror (text "stat buffer too small"))
  else s.answer q r (.rstat (UInt16.ofNat stat.length) stat)

/-- The end of `Exopen` and `Excreate`. -/
def exopened (s : Fs) (q : Nat) (r : Req) (first : Int) (ciounit : Nat) (qid : Qid) : Fs :=
  let iounit := exiounit first s.msize ciounit
  let s := s.note (.announce (iounit % 2 ^ 32).toNat s.msize)
  match r.msg with
  | .topen fid _ => { s with foffset := Function.update s.foffset fid.toNat 0 }.answer q r
      (.ropen qid (UInt64.ofNat (ulong iounit)))
  | _ => s.answer q r (.rcreate qid (UInt64.ofNat (ulong iounit)))

def send (s : Fs) (q : Nat) (r : Req) (out : XMsg) : Fs :=
  let s := (s.note (.reply (exreply s.msize r out) s.agreed)).put q { r with phase := .sent }
  match out with
  | .rversion m version => if version = some version9p then { s with agreed := some m.toNat } else s
  | _ => s

def init : Fs := ⟨0, none, fun _ => none, 0, fun _ => 0, []⟩

end Fs

/-- `other` is any other handler, or any handler that fails. -/
inductive BAct
  | alloc
  | recv (q : Nat) (tag : UInt16) (msg : XMsg)
  | version (q : Nat) (ioiounit : Int)
  | readTests (q : Nat) (dir : Bool)
  | readLoop (q : Nat) (data : List UInt8)
  | stat (q : Nat) (dir : List UInt8)
  | iounit (q : Nat)
  | opened (q : Nat) (ciounit : Nat) (qid : Qid)
  | other (q : Nat) (out : XMsg)
  | send (q : Nat)

def isRerror : XMsg → Bool
  | .rerror _ => true
  | _ => false

/-- The messages with a handler above. -/
def special (type : Nat) : Bool := type == 100 || type == 112 || type == 114 || type == 116 || type == 124

def BAct.exec (a : BAct) (s : Fs) : Option Fs :=
  match a with
  | alloc => some s.alloc
  | recv q tag msg => do
    let r ← s.reqs q
    match r.phase with
    | .reading => some (s.recv q r tag msg)
    | _ => none
  | version q ioiounit => do
    let r ← s.reqs q
    match r.phase, r.msg with
    | .queued, .tversion msize v => some (s.exversion q r ioiounit msize.toNat (v.getD []))
    | _, _ => none
  | readTests q dir => do
    let r ← s.reqs q
    match r.phase, r.msg with
    | .queued, .tread fid offset count => some (s.exreadTests q r fid.toNat offset.toInt count.toNat dir)
    | _, _ => none
  | readLoop q data => do
    let r ← s.reqs q
    match r.phase, r.msg with
    | .looping dir, .tread fid offset count =>
      if data.length ≤ (s.want fid.toNat offset.toInt count.toNat dir).1.toNat then
        some (s.exreadLoop q r fid.toNat offset.toInt count.toNat dir data)
      else none
    | _, _ => none
  | stat q dir => do
    let r ← s.reqs q
    match r.phase, r.msg with
    | .queued, .tstat _ => if dir.length ≤ Fs.nstat r then some (s.exstat q r dir) else none
    | _, _ => none
  | iounit q => do
    let r ← s.reqs q
    match r.phase, r.msg with
    | .queued, .topen _ _ => some (s.put q { r with phase := .opening (s.msize - iohdrsz) })
    | .queued, .tcreate _ _ _ _ => some (s.put q { r with phase := .opening (s.msize - iohdrsz) })
    | _, _ => none
  | opened q ciounit qid => do
    let r ← s.reqs q
    match r.phase with
    | .opening first => some (s.exopened q r first ciounit qid)
    | _ => none
  | other q out => do
    let r ← s.reqs q
    match r.phase with
    | .queued =>
      if isRerror out || (!special r.msg.type && out.type == r.msg.type + 1) then some (s.answer q r out) else none
    | .looping _ => if isRerror out then some (s.answer q r out) else none
    | .opening _ => if isRerror out then some (s.answer q r out) else none
    | _ => none
  | send q => do
    let r ← s.reqs q
    match r.phase with
    | .answered out => some (s.send q r out)
    | _ => none

def Event.Ok : Event → Prop
  | .store bsize off len bound => off + len ≤ bsize ∧ len ≤ bound
  | .reply len agreed => ∀ a, agreed = some a → len ≤ a
  | .announce iounit msize => countTooBig msize iounit = false

/-- Where the sizes could go wrong: a read that the current `fs->msize` allows
and the older buffer of its request has no room for, a directory read whose
offset another read has moved, a reply longer than the agreed size in an older
and larger buffer, and an `iounit` within a header of `fs->msize` or computed
across a change of it. -/
def BAct.Safe (a : BAct) (s : Fs) : Prop :=
  match a with
  | readTests q _ => ∀ r fid offset count, s.reqs q = some r → r.msg = .tread fid offset count →
      ¬(r.bsize < iohdrsz + count.toNat ∧ countTooBig s.msize count.toNat = false)
  | readLoop q _ => ∀ r fid offset count, s.reqs q = some r → r.msg = .tread fid offset count →
      r.phase = .looping true → s.foffset fid.toNat ≠ offset.toInt →
      min (s32 (offset.toInt - s.foffset fid.toNat)) maxfdata ≤ count.toNat
  | opened q ciounit _ => ∀ r first, s.reqs q = some r → r.phase = .opening first →
      if ciounit ≠ 0 ∧ ciounit < s.msize then ciounit ≤ s.msize - iohdrsz
      else first ≤ s.msize - iohdrsz ∧ (first < 0 → s.msize = 0)
  | send q => ∀ r out a, s.reqs q = some r → r.phase = .answered out → s.agreed = some a →
      ¬(a < sizeS2M ⟨r.tag, out⟩ ∧ sizeS2M ⟨r.tag, out⟩ ≤ r.bsize)
  | _ => True

end Inferno.Export
