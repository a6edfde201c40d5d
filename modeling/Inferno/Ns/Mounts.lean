import Inferno.Lib.Path

namespace Inferno.Ns

open Lib

/-- A `Mount` and an `Mhead`, by their addresses. -/
abbrev Mref := Nat
abbrev Href := Nat

def morder : Nat := 3
def mrepl : Nat := 0
def mafter : Nat := 2
def mcreate : Nat := 4

/-- What `eqchan` compares when only the path of the qid matters. -/
structure Ident where
  type : Nat
  dev : Nat
  path : UInt64
deriving DecidableEq

/-- A `Chan`. `addr` tells channels apart, `dir` is `QTDIR` of the type of its qid. -/
structure Chan where
  addr : Nat
  ident : Ident
  dir : Bool
  mchan : Option Ident
deriving DecidableEq

/-- The fields of a `Mount` that are not links or ids. `chan` is `to`. -/
structure Mount where
  head : Href
  chan : Chan
  mflag : Nat
  spec : Option (List UInt8)
deriving DecidableEq

def eqchan (a b : Chan) : Bool := a.ident = b.ident

/-- `MOUNTH`: the bucket of a qid. -/
def mounth (path : UInt64) : Fin 32 := Fin.ofNat 32 (path.toNat &&& 31)

/-- `incref` returns the `long` count as an `int`, which is assigned to a `ulong`. -/
def increfId (ref : Nat) : Nat :=
  if ref % 2 ^ 32 < 2 ^ 31 then ref % 2 ^ 32 else ref % 2 ^ 32 + (2 ^ 64 - 2 ^ 32)

/-- The mount tables of all name spaces, and `mountid.ref`. An address is never
used twice. `ns` says that the write lock of a name space is held. -/
structure Mounts where
  mnthash : Nat → Fin 32 → Option Href
  ns : Nat → Bool
  fromChan : Href → Chan
  mount : Href → Option Mref
  hash : Href → Option Href
  mounts : Mref → Mount
  next : Mref → Option Mref
  mountid : Mref → Nat
  copy : Mref → Option Mref
  order : Mref → Option Mref
  live : Mref → Bool
  pgrps : Nat
  heads : Nat
  made : Nat
  ref : Nat

namespace Mounts

def wlock (w : Mounts) (p : Nat) : Mounts := { w with ns := Function.update w.ns p true }

def wunlock (w : Mounts) (p : Nat) : Mounts := { w with ns := Function.update w.ns p false }

/-- `newmount`, where there is memory. -/
def newmount (w : Mounts) (mh : Href) (chan : Chan) (flag : Nat) (spec : Option (List UInt8)) : Mref × Mounts :=
  (w.made, { w with
    mounts := Function.update w.mounts w.made ⟨mh, chan, flag, spec⟩
    next := Function.update w.next w.made none
    mountid := Function.update w.mountid w.made (increfId (w.ref + 1))
    copy := Function.update w.copy w.made none
    order := Function.update w.order w.made none
    live := Function.update w.live w.made true
    made := w.made + 1
    ref := w.ref + 1 })

/-- `mountfree`; a list has no more nodes than were made. -/
def mountfree : Nat → Mounts → Option Mref → Mounts
  | 0, w, _ => w
  | _ + 1, w, none => w
  | n + 1, w, some m =>
    mountfree n { w with mountid := Function.update w.mountid m 0, live := Function.update w.live m false } (w.next m)

/-- The search for the head of `c`: the link that points to it, where `none` is
the bucket itself, and the head. -/
def find (w : Mounts) (p : Nat) (c : Chan) : Option Href × Option Href :=
  Path.search w.hash (fun m => eqchan (w.fromChan m) c) w.heads none (w.mnthash p (mounth c.ident.path))

/-- `*l = v`. -/
def setChain (w : Mounts) (p : Nat) (b : Fin 32) (l v : Option Href) : Mounts :=
  match l with
  | none => { w with mnthash := Function.update w.mnthash p (Function.update (w.mnthash p) b v) }
  | some t => { w with hash := Function.update w.hash t v }

def newmhead (w : Mounts) (old : Chan) : Href × Mounts :=
  (w.heads, { w with
    fromChan := Function.update w.fromChan w.heads old
    mount := Function.update w.mount w.heads none
    hash := Function.update w.hash w.heads none
    heads := w.heads + 1 })

/-- The first part of `cmount`: the head of `old`, made where there is none. `mem`
is the number of times that `newmount` finds memory before it raises `Enomem`;
what is left is returned with the head. -/
def headOf (w : Mounts) (p : Nat) (old : Chan) (order mem : Nat) : Mounts × Option (Href × Nat) :=
  match w.find p old with
  | (_, some m) => (w, some (m, mem))
  | (l, none) =>
    let (m, w) := w.newmhead old
    let w := w.setChain p (mounth old.ident.path) l (some m)
    if order ≠ mrepl then
      match mem with
      | 0 => (w, none)
      | mem + 1 =>
        let (n, w) := w.newmount m old 0 none
        ({ w with mount := Function.update w.mount m (some n) }, some (m, mem))
    else (w, some (m, mem))

/-- The loop that copies a union, `*h` being the link of `x`, with whether
`newmount` found memory every time. -/
def copyUnion (m : Href) (flg : Nat) : Nat → Mounts → Nat → Mref → Option Mref → Mounts × Bool
  | 0, w, _, _, _ => (w, true)
  | _ + 1, w, _, _, none => (w, true)
  | _ + 1, w, 0, _, some _ => (w, false)
  | n + 1, w, mem + 1, x, some um =>
    let (f, w) := w.newmount m (w.mounts um).chan flg (w.mounts um).spec
    let w := { w with next := Function.update w.next x (some f) }
    copyUnion m flg n w mem f (w.next um)

/-- The elements after the first of what is mounted on `mh`. -/
def restOf (w : Mounts) (mh : Option Href) : Option Mref := (mh.bind w.mount).bind w.next

/-- `mountfree(m->mount); m->mount = nil`. -/
def freeList (w : Mounts) (m : Href) : Mounts :=
  let w := mountfree w.made w (w.mount m)
  { w with mount := Function.update w.mount m none }

/-- `MREPL` frees what is mounted on `m`. -/
def clear (w : Mounts) (m : Href) (order : Nat) : Mounts :=
  if (w.mount m).isSome ∧ order = mrepl then w.freeList m else w

def setCreate (w : Mounts) (nm : Mref) (flag : Nat) : Mounts :=
  if flag &&& mcreate ≠ 0 then
    let node := w.mounts nm
    { w with mounts := Function.update w.mounts nm { node with mflag := node.mflag ||| mcreate } }
  else w

/-- The list from `nm` is joined to that of `m`. -/
def join (w : Mounts) (m : Href) (nm : Mref) (order : Nat) : Mounts :=
  match w.mount m, decide (order = mafter) with
  | some first, true => { w with next := Function.update w.next (Path.last w.next w.made first) (some nm) }
  | old, _ =>
    { w with next := Function.update w.next (Path.last w.next w.made nm) old,
             mount := Function.update w.mount m (some nm) }

/-- The second part of `cmount`. -/
def mountOn (w : Mounts) (m : Href) (new : Chan) (umh : Option Href) (flag : Nat) (spec : Option (List UInt8))
    (mem : Nat) : Mounts × Option Nat :=
  match mem with
  | 0 => (w, none)
  | mem + 1 =>
    let order := flag &&& morder
    let (nm, w) := w.newmount m new flag spec
    let flg := if order = mrepl then mafter else order
    match copyUnion m flg w.made w mem nm (w.restOf umh) with
    | (w, false) => (w, none)
    | (w, true) =>
      let w := ((w.clear m order).setCreate nm flag).join m nm order
      (w, some (w.mountid nm))

/-- `cmount` raises `Emount`. -/
def refuses (w : Mounts) (new : Chan) (umh : Option Href) (old : Chan) (flag : Nat) : Bool :=
  new.dir != old.dir || (!old.dir && flag &&& morder != mrepl) ||
    (flag &&& mcreate != 0 &&
      match umh.bind w.mount with
      | none => false
      | some first => (w.next first).isSome || (w.mounts first).mflag &&& mcreate == 0)

/-- `cmount`, where `umh` is `new->umh`, with the mount id or `none` where it raises. -/
def cmount (w : Mounts) (p : Nat) (new : Chan) (umh : Option Href) (old : Chan) (flag : Nat)
    (spec : Option (List UInt8)) (mem : Nat) : Mounts × Option Nat :=
  if w.refuses new umh old flag then (w, none)
  else
    match (w.wlock p).headOf p old (flag &&& morder) mem with
    | (w, none) => (w, none)
    | (w, some (m, mem)) => (w.wunlock p).mountOn m new umh flag spec mem

/-- The loop of `cunmount` over the list of a head: the link that points to the
element, where `none` is `&m->mount`, and the element. -/
def findMount (w : Mounts) (m : Href) (c : Chan) : Option Mref × Option Mref :=
  Path.search w.next (fun f => eqchan (w.mounts f).chan c || (w.mounts f).chan.mchan == some c.ident) w.made none
    (w.mount m)

/-- `*p = v`, where `none` is `&m->mount` and a node its `next`. -/
def setList (w : Mounts) (m : Href) (p v : Option Mref) : Mounts :=
  match p with
  | none => { w with mount := Function.update w.mount m v }
  | some t => { w with next := Function.update w.next t v }

/-- `*p = f->next; f->next = 0; mountfree(f)`. -/
def takeOut (w : Mounts) (m : Href) (p : Option Mref) (f : Mref) : Mounts :=
  let w := w.setList m p (w.next f)
  let w := { w with next := Function.update w.next f none }
  mountfree w.made w (some f)

/-- `cunmount`, with whether it returns and does not raise. -/
def cunmount (w : Mounts) (p : Nat) (mnt : Chan) (mounted : Option Chan) : Mounts × Bool :=
  match w.find p mnt with
  | (_, none) => (w, false)
  | (l, some m) =>
    match mounted with
    | none =>
      ((w.setChain p (mounth mnt.ident.path) l (w.hash m)).freeList m, true)
    | some c =>
      match w.findMount m c with
      | (_, none) => (w, false)
      | (k, some f) =>
        let w := w.takeOut m k f
        if w.mount m = none then (w.setChain p (mounth mnt.ident.path) l (w.hash m), true) else (w, true)

end Mounts

/-- A `Mount` in a table. -/
structure Elem where
  ref : Mref
  mountid : Nat
  node : Mount
deriving DecidableEq

/-- An `Mhead` in a table, with its list. -/
structure Union where
  ref : Href
  fromChan : Chan
  mount : List Elem
deriving DecidableEq

namespace Mounts

def elem (w : Mounts) (x : Mref) : Elem := ⟨x, w.mountid x, w.mounts x⟩

def listOf (w : Mounts) (m : Href) : List Elem := (Path.follow w.next w.made (w.mount m)).map w.elem

/-- The `Mhead`s of a bucket in the order of the hash chain. -/
def table (w : Mounts) (p : Nat) (b : Fin 32) : List Union :=
  (Path.follow w.hash w.heads (w.mnthash p b)).map fun m => ⟨m, w.fromChan m, w.listOf m⟩

def unions (w : Mounts) (p : Nat) : List Union := (List.finRange 32).flatMap (w.table p)

/-- What is mounted on a directory. -/
def mounted (w : Mounts) (p : Nat) (c : Chan) : Option (List Elem) :=
  ((w.table p (mounth c.ident.path)).find? fun u => eqchan u.fromChan c).map Union.mount

end Mounts

end Inferno.Ns
