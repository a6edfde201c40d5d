import Inferno.Strings.Utf

namespace Inferno.Styxlib

open Strings

/-- A Limbo string, by its characters; `nil` is the empty one. -/
abbrev Str := List Nat

/-- `Sys->Qid`. An `int` is unbounded here, and cut where it is stored. -/
structure Qid where
  path : Int64
  vers : Int
  qtype : Int
deriving DecidableEq, Inhabited

/-- `Sys->Dir`. -/
structure Dir where
  name : Str
  uid : Str
  gid : Str
  muid : Str
  qid : Qid
  mode : Int
  atime : Int
  mtime : Int
  length : Int64
  dtype : Int
  dev : Int
deriving DecidableEq, Inhabited

def STR : Nat := 2
def TAG : Nat := 2
def FID : Nat := 4
def QID : Nat := 1 + 4 + 8
def LEN : Nat := 2
def COUNT : Nat := 4
def OFFSET : Nat := 8
def H : Nat := 4 + 1 + 2
def BIT8SZ : Nat := 1
def BIT32SZ : Nat := 4
def BIT64SZ : Nat := 8
def STATFIXLEN : Nat := 2 + QID + 5 * 2 + 4 * 4 + 8
def MAXWELEM : Nat := 16
def NOFID : Int := -1

/-- The pick of a `Tmsg`. -/
inductive Treq
  | readerror (error : Str)
  | version (msize : Int) (version : Str)
  | auth (afid : Int) (uname aname : Str)
  | attach (fid afid : Int) (uname aname : Str)
  | flush (oldtag : Int)
  | walk (fid newfid : Int) (names : List Str)
  | open_ (fid mode : Int)
  | create (fid : Int) (name : Str) (perm mode : Int)
  | read (fid : Int) (offset : Int64) (count : Int)
  | write (fid : Int) (offset : Int64) (data : List UInt8)
  | clunk (fid : Int)
  | stat (fid : Int)
  | remove (fid : Int)
  | wstat (fid : Int) (stat : Dir)
deriving DecidableEq

structure Tmsg where
  tag : Int
  req : Treq
deriving DecidableEq

/-- The pick of an `Rmsg`. -/
inductive Rrep
  | readerror (error : Str)
  | version (msize : Int) (version : Str)
  | auth (aqid : Qid)
  | attach (qid : Qid)
  | flush
  | error (ename : Str)
  | clunk
  | remove
  | wstat
  | walk (qids : List Qid)
  | create (qid : Qid) (iounit : Int)
  | open_ (qid : Qid) (iounit : Int)
  | read (data : List UInt8)
  | write (count : Int)
  | stat (stat : Dir)
deriving DecidableEq

structure Rmsg where
  tag : Int
  rep : Rrep
deriving DecidableEq

/-- `ttag2type`. -/
def Treq.mtype : Treq → Nat
  | readerror _ => 0
  | version .. => 100
  | auth .. => 102
  | attach .. => 104
  | flush _ => 108
  | walk .. => 110
  | open_ .. => 112
  | create .. => 114
  | read .. => 116
  | write .. => 118
  | clunk _ => 120
  | remove _ => 122
  | stat _ => 124
  | wstat .. => 126

/-- `rtag2type`. -/
def Rrep.mtype : Rrep → Nat
  | readerror _ => 0
  | version .. => 101
  | auth _ => 103
  | attach _ => 105
  | error _ => 107
  | flush => 109
  | walk _ => 111
  | open_ .. => 113
  | create .. => 115
  | read _ => 117
  | write _ => 119
  | clunk => 121
  | remove => 123
  | stat _ => 125
  | wstat => 127

/-- `hdrlen`, an array of 128. -/
def hdrlen : Nat → Nat
  | 100 => H + COUNT + STR
  | 101 => H + COUNT + STR
  | 102 => H + FID + STR + STR
  | 103 => H + QID
  | 104 => H + FID + FID + STR + STR
  | 105 => H + QID
  | 107 => H + STR
  | 108 => H + TAG
  | 109 => H
  | 110 => H + FID + FID + LEN
  | 111 => H + LEN
  | 112 => H + FID + BIT8SZ
  | 113 => H + QID + COUNT
  | 114 => H + FID + STR + BIT32SZ + BIT8SZ
  | 115 => H + QID + COUNT
  | 116 => H + FID + OFFSET + COUNT
  | 117 => H + COUNT
  | 118 => H + FID + OFFSET + COUNT
  | 119 => H + COUNT
  | 120 => H + FID
  | 121 => H
  | 122 => H + FID
  | 123 => H
  | 124 => H + FID
  | 125 => H + LEN
  | 126 => H + FID + LEN
  | 127 => H
  | _ => 0

def utflen (s : Str) : Nat :=
  s.foldl (fun n c => if c > 0x7F then if c > 0x7FF then if c > 0xFFFF then n + 3 else n + 2 else n + 1 else n) s.length

def packdirsize (d : Dir) : Nat := STATFIXLEN + utflen d.name + utflen d.uid + utflen d.gid + utflen d.muid

/-- `byte v`. -/
def byte (v : Int) : UInt8 := UInt8.ofNat (v % 256).toNat

/-- `a[o:] = bytes`, and the assignments to one byte after the other. `none` where it raises. -/
def put (a : List UInt8) (o : Nat) (bytes : List UInt8) : Option (List UInt8) :=
  if o + bytes.length ≤ a.length then some (a.take o ++ bytes ++ a.drop (o + bytes.length)) else none

section Pack

-- what new memory holds
variable (junk : UInt8)

/-- `array[n] of byte`; with its headers it does not reach 2^31 bytes. -/
def newarray (n : Nat) : Option (List UInt8) := if n + 64 < 2 ^ 31 then some (List.replicate n junk) else none

def p16 (a : List UInt8) (o : Nat) (v : Int) : Option (List UInt8) := put a o [byte v, byte (v >>> (8 : Nat))]

def p32 (a : List UInt8) (o : Nat) (v : Int) : Option (List UInt8) :=
  put a o [byte v, byte (v >>> (8 : Nat)), byte (v >>> (16 : Nat)), byte (v >>> (24 : Nat))]

def p64 (a : List UInt8) (o : Nat) (b : Int64) : Option (List UInt8) := do
  let a ← p32 a o b.toInt
  p32 a (o + 4) (b.toInt >>> (32 : Nat))

def pqid (a : List UInt8) (o : Nat) (q : Qid) : Option (List UInt8) := do
  let a ← put a o [byte q.qtype]
  let a ← p32 a (o + 1) q.vers
  p64 a (o + 5) q.path

def pstring (a : List UInt8) (o : Nat) (s : Str) : Option (List UInt8 × Nat) := do
  let sa := cvtca junk s
  let n := sa.length
  let a ← p16 a o n
  let a ← put a (o + 2) sa
  return (a, o + LEN + n)

def packdir (f : Dir) : Option (List UInt8) := do
  let ds := packdirsize f
  let a ← newarray junk ds
  let a ← p16 a 0 (ds - LEN)
  let a ← p16 a 2 f.dtype
  let a ← p32 a 4 f.dev
  let a ← pqid a 8 f.qid
  let a ← p32 a 21 f.mode
  let a ← p32 a 25 f.atime
  let a ← p32 a 29 f.mtime
  let a ← p64 a 33 f.length
  let (a, i) ← pstring junk a (33 + BIT64SZ) f.name
  let (a, i) ← pstring junk a i f.uid
  let (a, i) ← pstring junk a i f.gid
  let (a, i) ← pstring junk a i f.muid
  if i ≠ a.length then none
  return a

def Tmsg.packedsize (t : Tmsg) : Nat :=
  if t.req.mtype ≤ 0 then 0
  else
    let ml := hdrlen t.req.mtype
    match t.req with
    | .version _ version => ml + utflen version
    | .auth _ uname aname => ml + (utflen uname + utflen aname)
    | .attach _ _ uname aname => ml + (utflen uname + utflen aname)
    | .walk _ _ names => names.foldl (fun ml name => ml + (STR + utflen name)) ml
    | .create _ name _ _ => ml + utflen name
    | .write _ _ data => ml + data.length
    | .wstat _ stat => ml + packdirsize stat
    | _ => ml

/-- The part of `pack` before its pick. -/
def packhdr (ds mtype : Nat) (tag : Int) : Option (List UInt8) := do
  let d ← newarray junk ds
  let d ← p32 d 0 ds
  let d ← put d 4 [byte mtype]
  p16 d 5 tag

def Tmsg.pack (t : Tmsg) : Option (List UInt8) := do
  let ds := t.packedsize
  if ds ≤ 0 then return []
  let d ← packhdr junk ds t.req.mtype t.tag
  match t.req with
  | .readerror _ => none
  | .version msize version =>
    let d ← p32 d H msize
    return (← pstring junk d (H + COUNT) version).1
  | .auth afid uname aname =>
    let d ← p32 d H afid
    let (d, o) ← pstring junk d (H + FID) uname
    return (← pstring junk d o aname).1
  | .flush oldtag => p16 d H oldtag
  | .attach fid afid uname aname =>
    let d ← p32 d H fid
    let d ← p32 d (H + FID) afid
    let (d, o) ← pstring junk d (H + 2 * FID) uname
    return (← pstring junk d o aname).1
  | .walk fid newfid names =>
    let d ← p32 d H fid
    let d ← p32 d (H + FID) newfid
    let d ← p16 d (H + 2 * FID) names.length
    let (d, _) ← names.foldlM (fun (d, o) name => pstring junk d o name) (d, H + 2 * FID + LEN)
    return d
  | .open_ fid mode =>
    let d ← p32 d H fid
    put d (H + FID) [byte mode]
  | .create fid name perm mode =>
    let d ← p32 d H fid
    let (d, o) ← pstring junk d (H + FID) name
    let d ← p32 d o perm
    put d (o + BIT32SZ) [byte mode]
  | .read fid offset count =>
    let d ← p32 d H fid
    let d ← p64 d (H + FID) offset
    p32 d (H + FID + OFFSET) count
  | .write fid offset data =>
    let d ← p32 d H fid
    let d ← p64 d (H + FID) offset
    let d ← p32 d (H + FID + OFFSET) data.length
    put d (H + FID + OFFSET + COUNT) data
  | .clunk fid => p32 d H fid
  | .remove fid => p32 d H fid
  | .stat fid => p32 d H fid
  | .wstat fid stat =>
    let d ← p32 d H fid
    let stat ← packdir junk stat
    let d ← p16 d (H + FID) stat.length
    put d (H + FID + LEN) stat

def Rmsg.packedsize (r : Rmsg) : Nat :=
  if r.rep.mtype ≤ 0 then 0
  else
    let ml := hdrlen r.rep.mtype
    match r.rep with
    | .version _ version => ml + utflen version
    | .error ename => ml + utflen ename
    | .walk qids => ml + QID * qids.length
    | .read data => ml + data.length
    | .stat stat => ml + packdirsize stat
    | _ => ml

def Rmsg.pack (r : Rmsg) : Option (List UInt8) := do
  let ps := r.packedsize
  if ps ≤ 0 then return []
  let d ← packhdr junk ps r.rep.mtype r.tag
  match r.rep with
  | .readerror _ => none
  | .version msize version =>
    let d ← p32 d H msize
    return (← pstring junk d (H + BIT32SZ) version).1
  | .auth aqid => pqid d H aqid
  | .flush => return d
  | .clunk => return d
  | .remove => return d
  | .wstat => return d
  | .error ename => return (← pstring junk d H ename).1
  | .attach qid => pqid d H qid
  | .walk qids =>
    let d ← p16 d H qids.length
    let (d, _) ← qids.foldlM (fun (d, o) qid => (pqid d o qid).map (·, o + QID)) (d, H + LEN)
    return d
  | .create qid iounit =>
    let d ← pqid d H qid
    p32 d (H + QID) iounit
  | .open_ qid iounit =>
    let d ← pqid d H qid
    p32 d (H + QID) iounit
  | .read data =>
    let d ← p32 d H data.length
    put d (H + 4) data
  | .write count => p32 d H count
  | .stat stat =>
    let stat ← packdir junk stat
    let d ← p16 d H stat.length
    put d (H + 2) stat

end Pack

/-- `int a[i]`. -/
def get (a : List UInt8) (i : Nat) : Option Nat := a[i]?.map UInt8.toNat

def g16 (a : List UInt8) (i : Nat) : Option Nat := do
  let b1 ← get a (i + 1)
  let b0 ← get a i
  return b1 <<< 8 ||| b0

def g32 (a : List UInt8) (i : Nat) : Option Nat := do
  let b3 ← get a (i + 3)
  let b2 ← get a (i + 2)
  let b1 ← get a (i + 1)
  let b0 ← get a i
  return ((b3 <<< 8 ||| b2) <<< 8 ||| b1) <<< 8 ||| b0

def g64 (a : List UInt8) (i : Nat) : Option Int64 := do
  let b0 ← g32 a i
  let b1 ← g32 a (i + 4)
  return Int64.ofNat (b1 <<< 32 ||| (b0 &&& 0xFFFFFFFF))

def gqid (a : List UInt8) (i : Nat) : Option Qid := do
  let qtype ← get a i
  let vers ← g32 a (i + 1)
  let path ← g64 a (i + BIT8SZ + BIT32SZ)
  return ⟨path, vers, qtype⟩

def gstring (a : List UInt8) (o : Int) : Option (Str × Int) :=
  if o < 0 ∨ o + STR > a.length then some ([], -1)
  else do
    let l ← g16 a o.toNat
    let o := o.toNat + STR
    let e := o + l
    if e > a.length then return ([], -1)
    return (runesOf ((a.drop o).take l), e)

/-- `unpackdir`, with the part of the entry that it has when it gives up. -/
def unpackdir (a : List UInt8) : Option (Nat × Dir) :=
  if a.length < STATFIXLEN then some (0, default)
  else do
    let sz := (← g16 a 0) + LEN
    if a.length < sz then return (0, default)
    let dtype ← g16 a 2
    let dev ← g32 a 4
    let qid ← gqid a 8
    let mode ← g32 a 21
    let atime ← g32 a 25
    let mtime ← g32 a 29
    let length ← g64 a 33
    let (name, i) ← gstring a 41
    let (uid, i) ← gstring a i
    let (gid, i) ← gstring a i
    let (muid, i) ← gstring a i
    let dir : Dir := ⟨name, uid, gid, muid, qid, mode, atime, mtime, length, dtype, dev⟩
    if i ≠ sz then return (0, dir)
    return (sz, dir)

/-- The loop over the names of a walk; `none` in the result where it gives up. -/
def gnames (a : List UInt8) : Nat → Int → Option (Option (List Str × Int))
  | 0, o => some (some ([], o))
  | n + 1, o => do
    let (name, o) ← gstring a o
    if o ≤ 0 then return none
    match ← gnames a n o with
    | none => return none
    | some (names, o) => return some (name :: names, o)

def gqids (a : List UInt8) : Nat → Nat → Option (List Qid × Nat)
  | 0, o => some ([], o)
  | n + 1, o => do
    let qid ← gqid a o
    let (qids, o) ← gqids a n (o + QID)
    return (qid :: qids, o)

/-- The start of both `unpack`s: the message without what follows it, its type and its tag, or what is returned instead.
`parity` is the type's last bit. -/
def unpackhdr (f : List UInt8) (parity : Nat) : Option (Int ⊕ List UInt8 × Nat × Nat) :=
  if f.length < H then some (.inl 0)
  else do
    let size ← g16 f 0
    let size := size ||| (← g16 f 2) <<< 16
    if f.length < size then return .inl 0
    let f := if f.length ≠ size then f.take size else f
    let mtype ← get f 4
    if mtype ≥ 128 ∨ mtype % 2 ≠ parity ∨ size < hdrlen mtype then return .inl (-1)
    let tag ← g16 f 5
    return .inr (f, mtype, tag)

/-- The cases of `Tmsg.unpack`; `none` in the result is a break. -/
def Tmsg.decode (f : List UInt8) (fid : Nat) : Nat → Option (Option (Int × Treq))
  | 100 => do
    let (version, o) ← gstring f (H + COUNT : Nat)
    if o ≤ 0 then return none
    return some (o, .version fid version)
  | 102 => do
    let (uname, o1) ← gstring f (H + FID : Nat)
    let (aname, o2) ← gstring f o1
    if o2 ≤ 0 then return none
    return some (o2, .auth fid uname aname)
  | 108 => do
    let oldtag ← g16 f H
    return some ((H + TAG : Nat), .flush oldtag)
  | 104 => do
    let afid ← g32 f (H + FID)
    let (uname, o1) ← gstring f (H + 2 * FID : Nat)
    let (aname, o2) ← gstring f o1
    if o2 ≤ 0 then return none
    return some (o2, .attach fid afid uname aname)
  | 110 => do
    let newfid ← g32 f (H + FID)
    let n ← g16 f (H + 2 * FID)
    if n > MAXWELEM then return none
    match ← gnames f n (H + 2 * FID + LEN : Nat) with
    | none => return none
    | some (names, o) => return some (o, .walk fid newfid names)
  | 112 => do
    let mode ← get f (H + FID)
    return some ((H + FID + BIT8SZ : Nat), .open_ fid mode)
  | 114 => do
    let (name, o) ← gstring f (H + FID : Nat)
    if o ≤ 0 ∨ o + BIT32SZ + BIT8SZ > f.length then return none
    let perm ← g32 f o.toNat
    let mode ← get f (o.toNat + BIT32SZ)
    return some (o + BIT32SZ + 1, .create fid name perm mode)
  | 116 => do
    let offset ← g64 f (H + FID)
    let count ← g32 f (H + FID + OFFSET)
    return some ((H + FID + OFFSET + COUNT : Nat), .read fid offset count)
  | 118 => do
    let offset ← g64 f (H + FID)
    let count ← g32 f (H + FID + OFFSET)
    let o := H + FID + OFFSET + COUNT
    if (count : Int) > f.length - o then return none
    return some ((o + count : Nat), .write fid offset ((f.drop o).take count))
  | 120 => return some ((H + FID : Nat), .clunk fid)
  | 122 => return some ((H + FID : Nat), .remove fid)
  | 124 => return some ((H + FID : Nat), .stat fid)
  | 126 => do
    -- the shift is of a byte
    let n := (((← get f (H + FID + 1)) <<< 8) % 256) ||| (← get f (H + FID))
    if f.length < H + FID + LEN + n then return none
    let (ds, stat) ← unpackdir (f.drop (H + FID + LEN))
    if ds ≠ n then return none
    return some ((H + FID + LEN + n : Nat), .wstat fid stat)
  | _ => return none

def Tmsg.unpack (f : List UInt8) : Option (Int × Option Tmsg) := do
  match ← unpackhdr f 0 with
  | .inl r => return (r, none)
  | .inr (f, mtype, tag) =>
    let fid ← if hdrlen mtype ≥ H + FID then g32 f H else some 0
    match ← Tmsg.decode f fid mtype with
    | none => return (-1, none)
    | some (n, req) => return (n, some ⟨tag, req⟩)

/-- The cases of `Rmsg.unpack`. -/
def Rmsg.decode (f : List UInt8) : Nat → Option (Option (Int × Rrep))
  | 101 => do
    let msize ← g32 f H
    let (version, o) ← gstring f (H + BIT32SZ : Nat)
    if o ≤ 0 then return none
    return some (o, .version msize version)
  | 103 => do
    let aqid ← gqid f H
    return some ((H + QID : Nat), .auth aqid)
  | 109 => return some (H, .flush)
  | 107 => do
    let (ename, o) ← gstring f H
    if o ≤ 0 then return none
    return some (o, .error ename)
  | 121 => return some (H, .clunk)
  | 123 => return some (H, .remove)
  | 127 => return some (H, .wstat)
  | 105 => do
    let qid ← gqid f H
    return some ((H + QID : Nat), .attach qid)
  | 111 => do
    let nqid ← g16 f H
    if f.length < H + LEN + nqid * QID then return none
    let (qids, o) ← gqids f nqid (H + LEN)
    return some (o, .walk qids)
  | 113 => do
    let qid ← gqid f H
    let iounit ← g32 f (H + QID)
    return some ((H + QID + COUNT : Nat), .open_ qid iounit)
  | 115 => do
    let qid ← gqid f H
    let iounit ← g32 f (H + QID)
    return some ((H + QID + COUNT : Nat), .create qid iounit)
  | 117 => do
    let count ← g32 f H
    if f.length < H + COUNT + count then return none
    return some ((H + COUNT + count : Nat), .read ((f.drop (H + COUNT)).take count))
  | 119 => do
    let count ← g32 f H
    return some ((H + COUNT : Nat), .write count)
  | 125 => do
    let n ← g16 f H
    if f.length < H + LEN + n then return none
    let (ds, d) ← unpackdir (f.drop (H + LEN))
    if ds ≤ 0 then return none
    if ds ≠ n then return none
    return some ((H + LEN + n : Nat), .stat d)
  | _ => return none

def Rmsg.unpack (f : List UInt8) : Option (Int × Option Rmsg) := do
  match ← unpackhdr f 1 with
  | .inl r => return (r, none)
  | .inr (f, mtype, tag) =>
    match ← Rmsg.decode f mtype with
    | none => return (-1, none)
    | some (n, rep) => return (n, some ⟨tag, rep⟩)

end Inferno.Styxlib
