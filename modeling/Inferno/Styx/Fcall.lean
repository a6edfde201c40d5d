import Inferno.Lib.Cursor

namespace Inferno.Styx

open Inferno.Lib

/-- `Qid` of `lib9.h`. -/
structure Qid where
  path : UInt64
  vers : UInt32
  type : UInt8
deriving DecidableEq

/-- The fields an `Fcall` carries, by message type. `S` is a string and `B` a
run of bytes: values for the sender, positions in the buffer once decoded.
A `ulong` has 64 bits. -/
inductive Msg (S B : Type)
  | tversion (msize : UInt64) (version : S)
  | rversion (msize : UInt64) (version : S)
  | tauth (afid : UInt64) (uname aname : S)
  | rauth (aqid : Qid)
  | tattach (fid afid : UInt64) (uname aname : S)
  | rattach (qid : Qid)
  | rerror (ename : S)
  | tflush (oldtag : UInt16)
  | rflush
  | twalk (fid newfid : UInt64) (wname : List S)
  | rwalk (wqid : List Qid)
  | topen (fid : UInt64) (mode : UInt8)
  | ropen (qid : Qid) (iounit : UInt64)
  | tcreate (fid : UInt64) (name : S) (perm : UInt64) (mode : UInt8)
  | rcreate (qid : Qid) (iounit : UInt64)
  | tread (fid : UInt64) (offset : Int64) (count : UInt64)
  | rread (count : UInt64) (data : B)
  | twrite (fid : UInt64) (offset : Int64) (count : UInt64) (data : B)
  | rwrite (count : UInt64)
  | tclunk (fid : UInt64)
  | rclunk
  | tremove (fid : UInt64)
  | rremove
  | tstat (fid : UInt64)
  | rstat (nstat : UInt16) (stat : B)
  | twstat (fid : UInt64) (nstat : UInt16) (stat : B)
  | rwstat
deriving DecidableEq

structure Fcall (S B : Type) where
  tag : UInt16
  msg : Msg S B
deriving DecidableEq

/-- A sender's message; a nil string is `none`. -/
abbrev Sent := Fcall (Option (List UInt8)) (List UInt8)

/-- A decoded message, whose strings and data are positions in the buffer. -/
abbrev Received := Fcall Nat Nat

def maxwelem : Nat := 16

/-- The message numbers of `fcall.h`. -/
def Msg.type {S B : Type} : Msg S B → Nat
  | tversion .. => 100
  | rversion .. => 101
  | tauth .. => 102
  | rauth .. => 103
  | tattach .. => 104
  | rattach .. => 105
  | rerror .. => 107
  | tflush .. => 108
  | rflush => 109
  | twalk .. => 110
  | rwalk .. => 111
  | topen .. => 112
  | ropen .. => 113
  | tcreate .. => 114
  | rcreate .. => 115
  | tread .. => 116
  | rread .. => 117
  | twrite .. => 118
  | rwrite .. => 119
  | tclunk .. => 120
  | rclunk => 121
  | tremove .. => 122
  | rremove => 123
  | tstat .. => 124
  | rstat .. => 125
  | twstat .. => 126
  | rwstat => 127

/-- `PBIT8` to `PBIT64`. -/
def pbit8 (v : Nat) : List UInt8 := leBytes 1 v
def pbit16 (v : Nat) : List UInt8 := leBytes 2 v
def pbit32 (v : Nat) : List UInt8 := leBytes 4 v
def pbit64 (v : Nat) : List UInt8 := leBytes 8 v

def qidsz : Nat := 1 + 4 + 8

def stringsz : Option (List UInt8) → Nat
  | none => 2
  | some s => 2 + s.length

def pstring : Option (List UInt8) → List UInt8
  | none => pbit16 0
  | some s => pbit16 s.length ++ s

def pqid (q : Qid) : List UInt8 := pbit8 q.type.toNat ++ pbit32 q.vers.toNat ++ pbit64 q.path.toNat

/-- The sum `sizeS2M` builds up after the header, before it is cut to a `uint`. -/
def Msg.size : Msg (Option (List UInt8)) (List UInt8) → Nat
  | .tversion _ version => 4 + stringsz version
  | .tflush _ => 2
  | .tauth _ uname aname => 4 + stringsz uname + stringsz aname
  | .tattach _ _ uname aname => 4 + 4 + stringsz uname + stringsz aname
  | .twalk _ _ wname => 4 + 4 + 2 + (wname.map stringsz).sum
  | .topen _ _ => 4 + 1
  | .tcreate _ name _ _ => 4 + stringsz name + 4 + 1
  | .tread _ _ _ => 4 + 8 + 4
  | .twrite _ _ count _ => 4 + 8 + 4 + count.toNat
  | .tclunk _ => 4
  | .tremove _ => 4
  | .tstat _ => 4
  | .twstat _ nstat _ => 4 + 2 + nstat.toNat
  | .rversion _ version => 4 + stringsz version
  | .rerror ename => stringsz ename
  | .rflush => 0
  | .rauth _ => qidsz
  | .rattach _ => qidsz
  | .rwalk wqid => 2 + wqid.length * qidsz
  | .ropen _ _ => qidsz + 4
  | .rcreate _ _ => qidsz + 4
  | .rread count _ => 4 + count.toNat
  | .rwrite _ => 4
  | .rclunk => 0
  | .rremove => 0
  | .rstat nstat _ => 2 + nstat.toNat
  | .rwstat => 0

def sizeS2M (f : Sent) : Nat := (4 + 1 + 2 + f.msg.size) % 2 ^ 32

/-- What `convS2M` stores after the header, one piece for each advance of `p`;
`none` is its return of 0 on too many elements. -/
def Msg.pieces : Msg (Option (List UInt8)) (List UInt8) → Option (List (List UInt8))
  | .tversion msize version => some [pbit32 msize.toNat, pstring version]
  | .tflush oldtag => some [pbit16 oldtag.toNat]
  | .tauth afid uname aname => some [pbit32 afid.toNat, pstring uname, pstring aname]
  | .tattach fid afid uname aname =>
    some [pbit32 fid.toNat, pbit32 afid.toNat, pstring uname, pstring aname]
  | .twalk fid newfid wname =>
    if wname.length > maxwelem then none
    else some (pbit32 fid.toNat :: pbit32 newfid.toNat :: pbit16 wname.length :: wname.map pstring)
  | .topen fid mode => some [pbit32 fid.toNat, pbit8 mode.toNat]
  | .tcreate fid name perm mode =>
    some [pbit32 fid.toNat, pstring name, pbit32 perm.toNat, pbit8 mode.toNat]
  | .tread fid offset count =>
    some [pbit32 fid.toNat, pbit64 offset.toUInt64.toNat, pbit32 count.toNat]
  | .twrite fid offset count data =>
    some [pbit32 fid.toNat, pbit64 offset.toUInt64.toNat, pbit32 count.toNat, data.take count.toNat]
  | .tclunk fid => some [pbit32 fid.toNat]
  | .tremove fid => some [pbit32 fid.toNat]
  | .tstat fid => some [pbit32 fid.toNat]
  | .twstat fid nstat stat => some [pbit32 fid.toNat, pbit16 nstat.toNat, stat.take nstat.toNat]
  | .rversion msize version => some [pbit32 msize.toNat, pstring version]
  | .rerror ename => some [pstring ename]
  | .rflush => some []
  | .rauth aqid => some [pqid aqid]
  | .rattach qid => some [pqid qid]
  | .rwalk wqid =>
    if wqid.length > maxwelem then none else some (pbit16 wqid.length :: wqid.map pqid)
  | .ropen qid iounit => some [pqid qid, pbit32 iounit.toNat]
  | .rcreate qid iounit => some [pqid qid, pbit32 iounit.toNat]
  | .rread count data => some [pbit32 count.toNat, data.take count.toNat]
  | .rwrite count => some [pbit32 count.toNat]
  | .rclunk => some []
  | .rremove => some []
  | .rstat nstat stat => some [pbit16 nstat.toNat, stat.take nstat.toNat]
  | .rwstat => some []

/-- `convS2M` into a buffer of `nap` bytes: the bytes from `ap` on that it
stores when it returns their number, `none` when it returns 0. -/
def convS2M (f : Sent) (nap : Nat) : Option (List UInt8) := do
  let size := sizeS2M f
  if size = 0 then none
  if size > nap then none
  let pieces ← f.msg.pieces
  let stored := (pbit32 size :: pbit8 f.msg.type :: pbit16 f.tag.toNat :: pieces).flatten
  if size ≠ stored.length then none
  return stored

/-- `GBIT8` to `GBIT64`, each with the advance of `p` that follows it. -/
def gbit (n : Nat) : Dec Nat := return leNat (← next n)

def gbit8 : Dec UInt8 := return UInt8.ofNat (← gbit 1)
def gbit16 : Dec UInt16 := return UInt16.ofNat (← gbit 2)
def gbit32 : Dec UInt64 := return UInt64.ofNat (← gbit 4)
def gbit64 : Dec UInt64 := return UInt64.ofNat (← gbit 8)

/-- `memmove(p, p+1, n); p[n] = '\0'`. -/
def moveDown (mem : ByteMem) (p n : Nat) : ByteMem := fun a =>
  if p ≤ a ∧ a < p + n then mem (a + 1) else if a = p + n then 0 else mem a

/-- `gstring`: the string is moved down over its count and gets a NUL. -/
def gstring (ep : Nat) : Dec Nat := do
  need ep 2
  let n ← gbit 2
  need ep n
  fun c => (some (c.p - 1), ⟨moveDown c.mem (c.p - 1) n, c.p + n⟩)

def gqid (ep : Nat) : Dec Qid := do
  need ep qidsz
  let type ← gbit8
  let vers ← gbit 4
  let path ← gbit64
  return ⟨path, UInt32.ofNat vers, type⟩

/-- The current position as a pointer to `n` bytes, which are skipped. -/
def gdata (ep n : Nat) : Dec Nat := do
  need ep n
  fun c => (some c.p, ⟨c.mem, c.p + n⟩)

def gmany {α : Type} (get : Dec α) : Nat → Dec (List α)
  | 0 => return []
  | n + 1 => do
    let a ← get
    let rest ← gmany get n
    return a :: rest

/-- The switch of `convM2S`. -/
def gmsg (ep : Nat) : Nat → Dec (Msg Nat Nat)
  | 100 => do need ep 4; let msize ← gbit32; let version ← gstring ep; return .tversion msize version
  | 108 => do need ep 2; let oldtag ← gbit16; return .tflush oldtag
  | 102 => do
    need ep 4
    let afid ← gbit32
    let uname ← gstring ep
    let aname ← gstring ep
    return .tauth afid uname aname
  | 104 => do
    need ep 4
    let fid ← gbit32
    need ep 4
    let afid ← gbit32
    let uname ← gstring ep
    let aname ← gstring ep
    return .tattach fid afid uname aname
  | 110 => do
    need ep (4 + 4 + 2)
    let fid ← gbit32
    let newfid ← gbit32
    let nwname ← gbit 2
    if nwname > maxwelem then Dec.fail
    let wname ← gmany (gstring ep) nwname
    return .twalk fid newfid wname
  | 112 => do need ep (4 + 1); let fid ← gbit32; let mode ← gbit8; return .topen fid mode
  | 114 => do
    need ep 4
    let fid ← gbit32
    let name ← gstring ep
    need ep (4 + 1)
    let perm ← gbit32
    let mode ← gbit8
    return .tcreate fid name perm mode
  | 116 => do
    need ep (4 + 8 + 4)
    let fid ← gbit32
    let offset ← gbit64
    let count ← gbit32
    return .tread fid offset.toInt64 count
  | 118 => do
    need ep (4 + 8 + 4)
    let fid ← gbit32
    let offset ← gbit64
    let count ← gbit32
    let data ← gdata ep count.toNat
    return .twrite fid offset.toInt64 count data
  | 120 => do need ep 4; let fid ← gbit32; return .tclunk fid
  | 122 => do need ep 4; let fid ← gbit32; return .tremove fid
  | 124 => do need ep 4; let fid ← gbit32; return .tstat fid
  | 126 => do
    need ep (4 + 2)
    let fid ← gbit32
    let nstat ← gbit16
    let stat ← gdata ep nstat.toNat
    return .twstat fid nstat stat
  | 101 => do need ep 4; let msize ← gbit32; let version ← gstring ep; return .rversion msize version
  | 107 => do let ename ← gstring ep; return .rerror ename
  | 109 => return .rflush
  | 103 => do let aqid ← gqid ep; return .rauth aqid
  | 105 => do let qid ← gqid ep; return .rattach qid
  | 111 => do
    need ep 2
    let nwqid ← gbit 2
    if nwqid > maxwelem then Dec.fail
    let wqid ← gmany (gqid ep) nwqid
    return .rwalk wqid
  | 113 => do let qid ← gqid ep; need ep 4; let iounit ← gbit32; return .ropen qid iounit
  | 115 => do let qid ← gqid ep; need ep 4; let iounit ← gbit32; return .rcreate qid iounit
  | 117 => do
    need ep 4
    let count ← gbit32
    let data ← gdata ep count.toNat
    return .rread count data
  | 119 => do need ep 4; let count ← gbit32; return .rwrite count
  | 121 => return .rclunk
  | 123 => return .rremove
  | 125 => do
    need ep 2
    let nstat ← gbit16
    let stat ← gdata ep nstat.toNat
    return .rstat nstat stat
  | 127 => return .rwstat
  | _ => Dec.fail

/-- `convM2S` up to the tests after its switch. -/
def convM2SFields (nap : Nat) : Dec (Nat × Received) := do
  need nap (4 + 1 + 2)
  let size ← gbit 4
  if size < 4 + 1 + 2 then Dec.fail
  let type ← gbit 1
  let tag ← gbit16
  let msg ← gmsg nap type
  return (size, ⟨tag, msg⟩)

/-- The size and message `convM2S` returns, `none` for 0, and the buffer it leaves. -/
def convM2S (mem : ByteMem) (nap : Nat) : Option (Nat × Received) × ByteMem :=
  match convM2SFields nap ⟨mem, 0⟩ with
  | (some (size, f), c) => (if c.p > nap then none else if size = c.p then some (size, f) else none, c.mem)
  | (none, c) => (none, c.mem)

/-- The C string at `p`, looked at for at most `fuel` bytes. -/
def cstring (mem : ByteMem) : Nat → Nat → List UInt8
  | 0, _ => []
  | fuel + 1, p => if mem p = 0 then [] else mem p :: cstring mem fuel (p + 1)

/-- Replace the strings and the data of a message; data come with their count. -/
def Msg.map {S B S' B' : Type} (str : S → S') (bytes : Nat → B → B') : Msg S B → Msg S' B'
  | .tversion msize version => .tversion msize (str version)
  | .rversion msize version => .rversion msize (str version)
  | .tauth afid uname aname => .tauth afid (str uname) (str aname)
  | .rauth aqid => .rauth aqid
  | .tattach fid afid uname aname => .tattach fid afid (str uname) (str aname)
  | .rattach qid => .rattach qid
  | .rerror ename => .rerror (str ename)
  | .tflush oldtag => .tflush oldtag
  | .rflush => .rflush
  | .twalk fid newfid wname => .twalk fid newfid (wname.map str)
  | .rwalk wqid => .rwalk wqid
  | .topen fid mode => .topen fid mode
  | .ropen qid iounit => .ropen qid iounit
  | .tcreate fid name perm mode => .tcreate fid (str name) perm mode
  | .rcreate qid iounit => .rcreate qid iounit
  | .tread fid offset count => .tread fid offset count
  | .rread count data => .rread count (bytes count.toNat data)
  | .twrite fid offset count data => .twrite fid offset count (bytes count.toNat data)
  | .rwrite count => .rwrite count
  | .tclunk fid => .tclunk fid
  | .rclunk => .rclunk
  | .tremove fid => .tremove fid
  | .rremove => .rremove
  | .tstat fid => .tstat fid
  | .rstat nstat stat => .rstat nstat (bytes nstat.toNat stat)
  | .twstat fid nstat stat => .twstat fid nstat (bytes nstat.toNat stat)
  | .rwstat => .rwstat

/-- The values a decoded message points at; its strings end within the first
`nap` bytes of the buffer. -/
def Msg.at (mem : ByteMem) (nap : Nat) (m : Msg Nat Nat) : Msg (Option (List UInt8)) (List UInt8) :=
  m.map (fun p => some (cstring mem nap p)) fun n p => readBytes mem p n

def Received.resolve (mem : ByteMem) (nap : Nat) (f : Received) : Sent := ⟨f.tag, f.msg.at mem nap⟩

end Inferno.Styx
