import Mathlib

namespace Inferno.Emu

/-- A path name or one of its elements. -/
abbrev Name := List Char

def isdotdot (s : Name) : Bool := s == ['.', '.']

/-- The end of a path element. -/
def sep (s : Name) : Bool := s.head? == some '/' || s.isEmpty

/-- `..` takes the last element off the path that `cleanname` has written, which is kept reversed; what lies before
`dotdot` stays. -/
def backtrack (dotdot : Nat) : Name → Name
  | [] => []
  | c :: q => if q.length > dotdot ∧ c ≠ '/' then backtrack dotdot q else q

/-- The loop of `cleanname` at `p`: `first` says that this is where the name starts. The path written and
`erasedprefix`. -/
def cleanLoop (rooted : Bool) : Nat → Name → Name → Nat → Bool → Bool → Name × Bool
  | 0, _, q, _, _, erased => (q, erased)
  | _ + 1, [], q, _, _, erased => (q, erased)
  | fuel + 1, c :: p, q, dotdot, first, erased =>
    let slash (q : Name) : Name := if q.isEmpty then q else '/' :: q
    if c = '/' then cleanLoop rooted fuel p q dotdot false erased
    else if c = '.' ∧ sep p then cleanLoop rooted fuel p q dotdot false (erased || first)
    else if c = '.' ∧ p.head? = some '.' ∧ sep p.tail then
      let (q, dotdot) :=
        if q.length > dotdot then (backtrack dotdot q, dotdot)
        else if rooted then (q, dotdot)
        else ('.' :: '.' :: slash q, ('.' :: '.' :: slash q).length)
      cleanLoop rooted fuel p.tail q dotdot false (erased || (q.isEmpty && !rooted))
    else
      let element := (c :: p).takeWhile (· ≠ '/')
      cleanLoop rooted fuel ((c :: p).dropWhile (· ≠ '/')) (element.reverse ++ slash q) dotdot false erased

def cleanname (name : Name) : Name :=
  let rooted := name.head? == some '/'
  let (q, erased) := cleanLoop rooted name.length (if rooted then name.tail else name) [] 0 (!rooted) false
  let clean := if rooted then '/' :: q.reverse else if q.isEmpty then ['.'] else q.reverse
  if erased ∧ clean.head? = some '#' then '.' :: '/' :: clean else clean

def cleancname (n : Name) : Name :=
  if n.head? = some '#' then
    let p := n.dropWhile (· ≠ '/')
    if p.isEmpty then n
    else
      let clean := cleanname p
      let device := n.takeWhile (· ≠ '/')
      if clean = ['/'] ∧ n.tail.head? ≠ some '/' then device else device ++ clean
  else cleanname n

def addelem (n s : Name) : Name :=
  if s = ['.'] then n
  else
    let n := if n ≠ [] ∧ n.getLast? ≠ some '/' ∧ s.head? ≠ some '/' then n ++ ['/'] else n
    if isdotdot s then cleancname (n ++ s) else n ++ s

structure Qid where
  path : Nat
  vers : Nat
  type : UInt8
  deriving DecidableEq

/-- A channel: the number of its device type, the device and the file. -/
structure Chan where
  type : Nat
  dev : Nat
  qid : Qid
  deriving DecidableEq

/-- The `QTDIR` bit. -/
def Chan.isDir (c : Chan) : Bool := c.qid.type &&& 0x80 != 0

def eqchantdqid (a : Chan) (type dev : Nat) (qid : Qid) : Bool := a.qid.path == qid.path && a.type == type && a.dev == dev

def eqchan (a b : Chan) : Bool := eqchantdqid a b.type b.dev b.qid

/-- A mount point and what is mounted on it, first to last. -/
structure Mhead where
  point : Chan
  name : Name
  mount : Chan
  next : List Chan

/-- All that is mounted on a mount point. -/
def Mhead.mounts (m : Mhead) : List Chan := m.mount :: m.next

def mnthash : Nat := 32

structure Pgrp where
  mnthash : Fin mnthash → List Mhead

namespace Pgrp

def findmount (pg : Pgrp) (type dev : Nat) (qid : Qid) : Option Mhead :=
  (pg.mnthash ⟨qid.path % Emu.mnthash, Nat.mod_lt _ (by decide)⟩).find? fun m => eqchantdqid m.point type dev qid

def domount (pg : Pgrp) (c : Chan) (mh : Option Mhead) : Chan × Option Mhead :=
  match pg.findmount c.type c.dev c.qid with
  | some m => (m.mount, some m)
  | none => (c, mh)

/-- The mount point from which `c` was entered, by its name. -/
def undomount (pg : Pgrp) (c : Chan) (name : Name) : Chan :=
  ((List.finRange Emu.mnthash).flatMap pg.mnthash).foldl
    (fun c f => if f.name = name ∧ f.mounts.any (eqchan c) then f.point else c) c

end Pgrp

structure Walkqid where
  clone : Option Chan
  qid : List Qid

/-- The loop of `devwalk`, where `look` finds a name in a directory. -/
def devwalkLoop (look : Chan → Name → Option Qid) (nc : Chan) : List Name → Walkqid
  | [] => ⟨some nc, []⟩
  | n :: names =>
    match if nc.isDir then look nc n else none with
    | some q => ⟨(devwalkLoop look { nc with qid := q } names).clone, q :: (devwalkLoop look { nc with qid := q } names).qid⟩
    | none => ⟨none, []⟩

/-- A walk by `look`: nil when the first name fails, and without a clone when a later one does. -/
def walkBy (look : Chan → Name → Option Qid) (c : Chan) (names : List Name) : Option Walkqid :=
  if names ≠ [] ∧ (devwalkLoop look c names).qid = [] then none else some (devwalkLoop look c names)

/-- `devwalk` with the generator of a device, which knows its names and its `..`. -/
def devwalk (gen : Chan → Name → Option Qid) (c : Chan) (names : List Name) : Option Walkqid :=
  walkBy (fun c n => if n = ['.'] then some c.qid else gen c n) c names

/-- A walk that takes the names one at a time, each with a walk of its own. -/
def byOne (walk : Chan → List Name → Option Walkqid) (c : Chan) : List Name → Walkqid
  | [] => ⟨some c, []⟩
  | n :: names =>
    match (walk c [n]).bind Walkqid.clone with
    | some c' => ⟨(byOne walk c' names).clone, c'.qid :: (byOne walk c' names).qid⟩
    | none => ⟨none, []⟩

/-- The walks of the devices. Each device is a tree: only directories have names in them, a walk stays on the device,
and a walk of several names is that of one name after the other, nil when the first one fails. -/
structure Devtab where
  walk : Chan → List Name → Option Walkqid
  single : ∀ c n wq, walk c [n] = some wq → c.isDir ∧ ∃ q, wq = ⟨some { c with qid := q }, [q]⟩
  list : ∀ c n names, walk c (n :: names) = if walk c [n] = none then none else some (byOne walk c (n :: names))

def maxwelem : Nat := 16

def enotdir : String := "not a directory"
def edoesnotexist : String := "does not exist"

/-- `*nerror`, and the error string where `walk` sets it. -/
structure WalkError where
  nerror : Nat
  errstr : Option String

/-- The walk at `c` or, where it fails, in the rest of the union; with the device type and the device. -/
def walkUnion (dev : Devtab) (c : Chan) (mh : Option Mhead) (names : List Name) : Option (Walkqid × Nat × Nat) :=
  match dev.walk c names with
  | some wq => some (wq, c.type, c.dev)
  | none => (mh.elim [] Mhead.next).findSome? fun f => (dev.walk f names).map fun wq => (wq, f.type, f.dev)

/-- The first mount point among the files walked through. -/
def firstMount (pg : Pgrp) (type dev : Nat) : List Qid → Option (Nat × Mhead)
  | [] => none
  | q :: qs =>
    match pg.findmount type dev q with
    | some m => some (0, m)
    | none => (firstMount pg type dev qs).map fun (i, m) => (i + 1, m)

/-- The names to ask the device for: a `..` at the front, or those before the next `..`. -/
def batch (names : List Name) : List Name :=
  if names.head?.any isdotdot then names.take 1 else (names.take maxwelem).takeWhile (!isdotdot ·)

/-- The channel and the mount head for the next round of `walk`, the name so far and the names passed. -/
abbrev Round := Except WalkError (Chan × Option Mhead × Name × Nat)

/-- After the walk of a `..`. -/
def landDotdot (pg : Pgrp) (cname : Name) (nhave : Nat) (wq : Walkqid) : Round :=
  match wq.clone with
  | none => .error ⟨nhave + 1, none⟩
  | some clone => .ok (pg.undomount clone (addelem cname ['.', '.']), none, addelem cname ['.', '.'], 1)

/-- After the walk of other names: at the first mount point before the last of them, or at the last. -/
def land (pg : Pgrp) (nomount : Bool) (cname : Name) (nhave : Nat) (names : List Name) (wq : Walkqid) (type dev : Nat) :
    Round :=
  match if nomount then none else firstMount pg type dev (wq.qid.take (names.length - 1)) with
  | some (i, m) => .ok (m.mount, some m, (names.take (i + 1)).foldl addelem cname, i + 1)
  | none =>
    match wq.clone with
    | none =>
      if wq.qid.getLast?.all (·.type &&& 0x80 != 0) then .error ⟨nhave + wq.qid.length + 1, some edoesnotexist⟩
      else .error ⟨nhave + wq.qid.length, some enotdir⟩
    | some clone => .ok (clone, none, (names.take wq.qid.length).foldl addelem cname, wq.qid.length)

/-- One round of the loop in `walk`, `nhave` names down the path. -/
def walkRound (dev : Devtab) (pg : Pgrp) (nomount : Bool) (c : Chan) (mh : Option Mhead) (cname : Name) (nhave : Nat)
    (names : List Name) : Round :=
  if !c.isDir then .error ⟨nhave, some enotdir⟩
  else if names.head?.any isdotdot then
    (walkUnion dev c (if nomount then none else mh) (batch names)).elim (.error ⟨nhave + 1, none⟩) fun (wq, _) =>
      landDotdot pg cname nhave wq
  else
    let (c, mh) := if nomount then (c, none) else pg.domount c mh
    (walkUnion dev c mh (batch names)).elim (.error ⟨nhave + 1, none⟩) fun (wq, type, dv) =>
      land pg nomount cname nhave (batch names) wq type dv

def walkLoop (dev : Devtab) (pg : Pgrp) (nomount : Bool) : Nat → Chan → Option Mhead → Name → Nat → List Name →
    Except WalkError (Chan × Name)
  | _, c, _, cname, _, [] => .ok (c, cname)
  | 0, _, _, _, nhave, _ => .error ⟨nhave, none⟩
  | fuel + 1, c, mh, cname, nhave, n :: names =>
    match walkRound dev pg nomount c mh cname nhave (n :: names) with
    | .error e => .error e
    | .ok (c, mh, cname, k) => walkLoop dev pg nomount fuel c mh cname (nhave + k) ((n :: names).drop k)

/-- `walk` from a channel and its name. Every round takes at least one name. -/
def walk (dev : Devtab) (pg : Pgrp) (c : Chan) (cname : Name) (names : List Name) (nomount : Bool) :
    Except WalkError (Chan × Name) :=
  walkLoop dev pg nomount names.length c none cname 0 names

/-- A call of `walk` for each name. -/
def walkEach (dev : Devtab) (pg : Pgrp) : Chan → Name → List Name → Option (Chan × Name)
  | c, cname, [] => some (c, cname)
  | c, cname, n :: names =>
    match walk dev pg c cname [n] false with
    | .ok (c, cname) => walkEach dev pg c cname names
    | .error _ => none

end Inferno.Emu
