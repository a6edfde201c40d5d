import Inferno.Styxlib.Pack

namespace Inferno.Styxservers

open Styxlib

def str (s : String) : Str := s.toList.map Char.toNat

def CHANHASHSIZE : Nat := 32
def DIRREADSIZE : Nat := STATFIXLEN + 4 * 20
def IOHDRSZ : Nat := 24
def MAXRPC : Nat := IOHDRSZ + 8192
def VERSION : Str := str "9P2000"

def OREAD : Int := 0
def OWRITE : Int := 1
def ORDWR : Int := 2
def OEXEC : Int := 3
def OTRUNC : Int := 16
def ORCLOSE : Int := 64
def QTDIR : Int := 0x80
def DMDIR : Int := 2 ^ 31

def Einuse : Str := str "fid already in use"
def Ebadfid : Str := str "bad fid"
def Eopen : Str := str "fid already opened"
def Enotdir : Str := str "not a directory"
def Eperm : Str := str "permission denied"
def Ebadarg : Str := str "bad argument"
def Eoffset : Str := str "read/write -- bad offset"
def Ecount : Str := str "read/write -- count negative or exceeds msgsize"
def Enotopen : Str := str "read/write -- on non open fid"
def Eaccess : Str := str "read/write -- not open in suitable mode"

/-- `Fid`; its `isopen` is 0 or 1. -/
structure Fid where
  fid : Int
  path : Int64
  qtype : Int
  isopen : Int
  mode : Int
  doffset : Int × Int
  uname : Str
  param : Str
  data : List UInt8
deriving DecidableEq

/-- `oc.clone(c)`. -/
def Fid.clone (oc c : Fid) : Fid :=
  { c with path := oc.path, qtype := oc.qtype, isopen := oc.isopen, mode := oc.mode, doffset := oc.doffset, uname := oc.uname,
           param := oc.param, data := oc.data }

def Fid.walk (c : Fid) (qid : Qid) : Fid := { c with path := qid.path, qtype := qid.qtype }

def Fid.open_ (c : Fid) (mode : Int) (qid : Qid) : Fid :=
  { c with isopen := 1, mode := mode, doffset := (0, 0), path := qid.path, qtype := qid.qtype }

/-- The process behind the navigator's channel, with what it has in memory: the answers to each `Navop`.
A `Readdir` is answered by entries up to a nil. -/
structure Navigator (σ : Type) where
  stat : σ → Int64 → (Option Dir × Str) × σ
  walk : σ → Int64 → Str → (Option Dir × Str) × σ
  readdir : σ → Int64 → Int → Int → List Dir × σ

/-- `Styxserver`, as `new` makes it: without a `replychan`. `t` is what the navigator has in memory, `fd` what was written. -/
structure Styxserver (σ : Type) where
  fids : Fin CHANHASHSIZE → List Fid
  t : σ
  rootpath : Int64
  msize : Int
  fd : List (List UInt8)

def Styxserver.new {σ : Type} (t : σ) (rootpath : Int64) : Styxserver σ := ⟨fun _ => [], t, rootpath, 0, []⟩

/-- `fid & (CHANHASHSIZE-1)`. -/
def slot (fid : Int) : Fin CHANHASHSIZE := ⟨(fid % CHANHASHSIZE).toNat, by unfold CHANHASHSIZE; omega⟩

def openmode (o : Int) : Int :=
  let o := Int.land o (Int.lnot (OTRUNC + ORCLOSE))
  if o > ORDWR then -1 else o

/-- `access[omode & 3]`. -/
def access (omode : Int) : Int :=
  match (omode % 4).toNat with
  | 0 => 0o400
  | 1 => 0o200
  | 2 => 0o600
  | _ => 0o100

def openok (uname : Str) (omode perm : Int) (fuid fgid : Str) : Bool :=
  let t := access omode
  let trunc := Int.land omode OTRUNC ≠ 0
  if trunc ∧ Int.land perm DMDIR ≠ 0 then false
  else
    let t := if trunc then Int.lor t 0o200 else t
    if uname = fuid ∧ Int.land t perm = t then true
    else if uname = fgid ∧ Int.land t (perm <<< (3 : Nat)) = t then true
    else Int.land t (perm <<< (6 : Nat)) = t

/-- The loop of `compatible` over a version's characters after "9P": what stands before the first dot, if these are digits. -/
def digits : Str → Option Str
  | [] => some []
  | c :: v => if c = 0x2E then some [] else if 0x30 ≤ c ∧ c ≤ 0x39 then (digits v).map (c :: ·) else none

/-- `styx->compatible` of a `Tversion`'s fields. -/
def compatible (tmsize : Int) (v : Str) (msize : Int) (version : Str) : Int × Str :=
  let version := if version = [] then VERSION else version
  let msize := if tmsize < msize then tmsize else msize
  if v.length < 2 ∨ v.take 2 ≠ str "9P" then (msize, str "unknown")
  else
    match digits (v.drop 2) with
    | none => (msize, str "unknown")
    | some more =>
      let v := str "9P" ++ more
      if v < VERSION then (msize, str "unknown")
      else if v < version then (msize, v)
      else (msize, version)

namespace Styxserver

variable {σ : Type} (junk : UInt8) (nav : Navigator σ) (srv : Styxserver σ)

/-- `replydirect`; `none` where `pack` raises. -/
def replydirect (m : Rmsg) : Option (Styxserver σ) := do
  let m := if srv.msize = 0 then ⟨m.tag, .error (str "Tversion not seen")⟩ else m
  let d ← m.pack junk
  if srv.msize ≠ 0 ∧ d.length > srv.msize then
    let d ← Rmsg.pack junk ⟨m.tag, .error (str "Styx reply didn't fit")⟩
    return { srv with fd := srv.fd ++ [d] }
  return { srv with fd := srv.fd ++ [d] }

def reply (m : Rmsg) : Option (Styxserver σ) := srv.replydirect junk m

def error (tag : Int) (ename : Str) : Option (Styxserver σ) := srv.reply junk ⟨tag, .error ename⟩

def iounit : Int :=
  let n := srv.msize - IOHDRSZ
  if n ≤ 0 then 0 else n

def getfid (fid : Int) : Option Fid := (srv.fids (slot fid)).find? (·.fid = fid)

/-- The list comes out the other way round. -/
def delfid (c : Fid) : Styxserver σ :=
  { srv with fids := Function.update srv.fids (slot c.fid) ((srv.fids (slot c.fid)).filter (·.fid ≠ c.fid)).reverse }

def newfid (fid : Int) : Option (Fid × Styxserver σ) :=
  match srv.getfid fid with
  | some _ => none
  | none =>
    let c : Fid := ⟨fid, -1, 0, 0, 0, (0, 0), [], [], []⟩
    some (c, { srv with fids := Function.update srv.fids (slot fid) (c :: srv.fids (slot fid)) })

/-- The first of a number is another. -/
def assign (c : Fid) : List Fid → List Fid
  | [] => []
  | b :: l => if b.fid = c.fid then c :: l else b :: assign c l

/-- What is assigned to the fields of a fid that `getfid` or `newfid` gave. -/
def setfid (c : Fid) : Styxserver σ :=
  { srv with fids := Function.update srv.fids (slot c.fid) (assign c (srv.fids (slot c.fid))) }

def attach (tag fid : Int) (uname aname : Str) : Option (Styxserver σ) :=
  let ((d, err), t) := nav.stat srv.t srv.rootpath
  let srv := { srv with t := t }
  match d with
  | none => srv.error junk tag err
  | some d =>
    if Int.land d.qid.qtype QTDIR = 0 then srv.error junk tag Enotdir
    else
      match srv.newfid fid with
      | none => srv.error junk tag Einuse
      | some (c, srv) =>
        (srv.setfid { c with uname := uname, param := aname, path := d.qid.path, qtype := d.qid.qtype }).reply junk
          ⟨tag, .attach d.qid⟩

def walk1 (t : σ) (c : Fid) (name : Str) : (Option Dir × Str) × σ :=
  match nav.stat t c.path with
  | ((none, err), t) => ((none, err), t)
  | ((some d, _), t) =>
    if Int.land d.qid.qtype QTDIR = 0 then ((none, Enotdir), t)
    else if ¬openok c.uname OEXEC d.mode d.uid d.gid then ((none, Eperm), t)
    else nav.walk t d.qid.path name

/-- The loop of `walk`: where it ends, with the qids it found, and the error that stopped it. -/
def walknames : List Str → σ → Fid → (Fid × List Qid × Option Str) × σ
  | [], t, c => ((c, [], none), t)
  | name :: names, t, c =>
    match walk1 nav t c name with
    | ((none, err), t) => ((c, [], some err), t)
    | ((some d, _), t) =>
      match walknames names t (c.walk d.qid) with
      | ((c, qids, stop), t) => ((c, d.qid :: qids, stop), t)

/-- The rest of `walk`, from the allocation of `qids` on. -/
def walkfrom (tag fid newfid : Int) (names : List Str) (c : Fid) : Option (Styxserver σ) :=
  if 24 * names.length + 64 ≥ 2 ^ 31 then none
  else
    match walknames nav names srv.t c with
    | ((c', qids, stop), t) =>
      let srv := { srv with t := t }
      match stop with
      | some err =>
        let srv := srv.setfid { c' with path := c.path, qtype := c.qtype }
        let srv := if newfid ≠ fid then srv.delfid c' else srv
        if qids.length = 0 then srv.error junk tag err else srv.reply junk ⟨tag, .walk qids⟩
      | none => (srv.setfid c').reply junk ⟨tag, .walk qids⟩

def walk (tag fid newfid : Int) (names : List Str) : Option (Styxserver σ) :=
  match srv.getfid fid with
  | none => srv.error junk tag Ebadfid
  | some c =>
    if c.isopen ≠ 0 then srv.error junk tag Eopen
    else if newfid ≠ fid then
      match srv.newfid newfid with
      | none => srv.error junk tag Einuse
      | some (nc, srv) => (srv.setfid (c.clone nc)).walkfrom junk nav tag fid newfid names (c.clone nc)
    else srv.walkfrom junk nav tag fid newfid names c

/-- `canopen`, and what the navigator has in memory after it. -/
def canopen (fid mode : Int) : (Str ⊕ Fid × Int × Dir) × σ :=
  match srv.getfid fid with
  | none => (.inl Ebadfid, srv.t)
  | some c =>
    if c.isopen ≠ 0 then (.inl Eopen, srv.t)
    else
      match nav.stat srv.t c.path with
      | ((none, err), t) => (.inl err, t)
      | ((some f, _), t) =>
        let omode := openmode mode
        if omode = -1 then (.inl Ebadarg, t)
        else if omode ≠ OREAD ∧ Int.land f.qid.qtype QTDIR ≠ 0 then (.inl Eperm, t)
        else if ¬openok c.uname mode f.mode f.uid f.gid then (.inl Eperm, t)
        else if Int.land mode ORCLOSE ≠ 0 then
          match nav.walk t c.path (str "..") with
          | ((none, _), t) => (.inl Eperm, t)
          | ((some dir, _), t) =>
            if dir.qid.path = f.qid.path ∧ dir.qid.qtype = f.qid.qtype ∨ ¬openok c.uname OWRITE dir.mode dir.uid dir.gid then
              (.inl Eperm, t)
            else (.inr (c, Int.lor omode ORCLOSE, f), t)
        else (.inr (c, omode, f), t)

def open_ (tag fid mode : Int) : Option (Styxserver σ) :=
  match srv.canopen nav fid mode with
  | (.inl err, t) => { srv with t := t }.error junk tag err
  | (.inr (c, mode, f), t) =>
    ({ srv with t := t }.setfid (c.open_ mode f.qid)).reply junk ⟨tag, .open_ f.qid srv.iounit⟩

def canread (fid : Int) (offset : Int64) (count : Int) : Str ⊕ Fid :=
  match srv.getfid fid with
  | none => .inl Ebadfid
  | some c =>
    if c.isopen = 0 then .inl Enotopen
    else if c.mode % 4 ≠ OREAD ∧ c.mode % 4 ≠ ORDWR then .inl Eaccess
    else if count < 0 ∨ count > srv.msize - IOHDRSZ then .inl Ecount
    else if offset < 0 then .inl Eoffset
    else .inr c

/-- What `read` has at the head of its loops; `count` is its message's. -/
structure Reading where
  offset : Int
  index : Int
  count : Int
  p : Nat
  a : List UInt8

/-- The loop over what `readdir` gave; the flag is set by the break. -/
def readents (junk : UInt8) (moffset : Int) : List Dir → Reading → Option (Reading × Bool)
  | [], r => some (r, false)
  | d :: ds, r =>
    let size : Int := packdirsize d
    if r.offset + size < moffset then readents junk moffset ds { r with offset := r.offset + size, index := r.index + 1 }
    else if r.count - size < 0 then some ({ r with count := r.count - size }, true)
    else do
      let de ← packdir junk d
      let a ← put r.a r.p de
      readents junk moffset ds ⟨r.offset + size, r.index + 1, r.count - size, r.p + packdirsize d, a⟩

/-- What is left to do: offset to skip and room to fill. -/
def Reading.left (moffset : Int) (r : Reading) : Nat := (moffset - r.offset).toNat + r.count.toNat

theorem readents_left {junk : UInt8} {moffset : Int} : ∀ {ds : List Dir} {r r' : Reading},
    readents junk moffset ds r = some (r', false) → r'.left moffset ≤ r.left moffset ∧ (ds ≠ [] → r'.left moffset < r.left moffset)
  | [], r, r', ran => by
    obtain ⟨rfl, -⟩ := Prod.mk.inj (Option.some.inj ran)
    exact ⟨Nat.le_refl _, fun some_ => absurd rfl some_⟩
  | d :: ds, r, r', ran => by
    have positive : 0 < packdirsize d := by
      unfold packdirsize STATFIXLEN
      omega
    unfold readents at ran
    dsimp only at ran
    split at ran
    · have rest := (readents_left ran).1
      unfold Reading.left at rest ⊢
      dsimp only at rest
      omega
    · split at ran
      · nomatch (Prod.mk.inj (Option.some.inj ran)).2
      · obtain ⟨de, -, ran⟩ := Option.bind_eq_some_iff.mp ran
        obtain ⟨a, -, ran⟩ := Option.bind_eq_some_iff.mp ran
        have rest := (readents_left ran).1
        unfold Reading.left at rest ⊢
        dsimp only at rest
        omega

/-- `Navigator.readdir`. -/
def readdir (t : σ) (path : Int64) (offset count : Int) : List Dir × σ :=
  let (ds, t) := nav.readdir t path offset count
  (ds.take count.toNat, t)

/-- `Dread`. -/
def dread (path : Int64) (moffset : Int) (t : σ) (r : Reading) : Option (Reading × σ) :=
  match readdir nav t path r.index ((r.count + DIRREADSIZE - 1).tdiv DIRREADSIZE) with
  | ([], t) => some (r, t)
  | (d :: ds, t) =>
    match _ran : readents junk moffset (d :: ds) r with
    | none => none
    | some (r', true) => some (r', t)
    | some (r', false) => dread path moffset t r'
termination_by r.left moffset
decreasing_by exact (readents_left _ran).2 (List.cons_ne_nil d ds)

def read (tag fid : Int) (offset : Int64) (count : Int) : Option (Styxserver σ) :=
  match srv.canread fid offset count with
  | .inl err => srv.error junk tag err
  | .inr c =>
    if Int.land c.qtype QTDIR = 0 then srv.error junk tag Eperm
    else if count ≤ 0 then srv.reply junk ⟨tag, .read []⟩
    else do
      let a ← newarray junk count.toNat
      let (from_, index) := if offset.toInt ≠ c.doffset.1 then (0, 0) else c.doffset
      let (r, t) ← dread junk nav c.path offset.toInt srv.t ⟨from_, index, count, 0, a⟩
      ({ srv with t := t }.setfid { c with doffset := (r.offset, r.index) }).reply junk ⟨tag, .read (r.a.take r.p)⟩

def stat (tag fid : Int) : Option (Styxserver σ) :=
  match srv.getfid fid with
  | none => srv.error junk tag Ebadfid
  | some c =>
    match nav.stat srv.t c.path with
    | ((none, err), t) => { srv with t := t }.error junk tag err
    | ((some d, _), t) => { srv with t := t }.reply junk ⟨tag, .stat d⟩

def remove (tag fid : Int) : Option (Styxserver σ) :=
  match srv.getfid fid with
  | none => srv.error junk tag Ebadfid
  | some c => (srv.delfid c).error junk tag Eperm

def clunk (tag fid : Int) : Option (Styxserver σ) :=
  match srv.getfid fid with
  | none => srv.error junk tag Ebadfid
  | some c => (srv.delfid c).reply junk ⟨tag, .clunk⟩

def version (tag msize : Int) (ver : Str) : Option (Styxserver σ) :=
  let srv := if srv.msize ≤ 0 then { srv with msize := MAXRPC } else srv
  let (msize, ver) := compatible msize ver srv.msize VERSION
  if msize < 256 then srv.error junk tag (str "message size too small")
  else { srv with msize := msize }.reply junk ⟨tag, .version msize ver⟩

/-- `none` where it does not come back: it raises, or exits on a nil or a `Readerror`. -/
def default_ : Option Tmsg → Option (Styxserver σ)
  | none => none
  | some ⟨tag, req⟩ =>
    match req with
    | .readerror _ => none
    | .version msize ver => srv.version junk tag msize ver
    | .auth _ _ _ => srv.error junk tag (str "authentication not required")
    | .flush _ => srv.reply junk ⟨tag, .flush⟩
    | .walk fid newfid names => srv.walk junk nav tag fid newfid names
    | .open_ fid mode => srv.open_ junk nav tag fid mode
    | .create _ _ _ _ => srv.error junk tag Eperm
    | .read fid offset count => srv.read junk nav tag fid offset count
    | .write _ _ _ => srv.error junk tag Eperm
    | .clunk fid => srv.clunk junk tag fid
    | .stat fid => srv.stat junk nav tag fid
    | .remove fid => srv.remove junk tag fid
    | .wstat _ _ => srv.error junk tag Eperm
    | .attach fid _ uname aname => srv.attach junk nav tag fid uname aname

end Styxserver

end Inferno.Styxservers
