import Inferno.Lib.Run
import Inferno.Ns.Cunmount

namespace Inferno.Ns

open Lib

/-- The state in `pgrpcpy`: the list `order` of the originals, and the number of
times that there is memory. -/
structure Copying where
  w : Mounts
  first : Option Mref
  mem : Nat

namespace Mounts

/-- `pgrpinsert`, with the list after it. -/
def pgrpinsert (w : Mounts) (first : Option Mref) (m : Mref) : Mounts × Option Mref :=
  let w := { w with order := Function.update w.order m none }
  match Path.search w.order (fun f => decide (w.mountid m < w.mountid f)) w.made none first with
  | (l, f) =>
    let links := Path.setLink (Function.update w.order m f) first l (some m)
    ({ w with order := links.1 }, links.2)

/-- The body of the loop over the list of a head, `*link` being `mh->mount` or
the link of the last copy. The copy is the next `Mount` made. -/
def copyMount (w : Mounts) (mh : Href) (first link : Option Mref) (m : Mref) : Mounts × Option Mref :=
  let node := w.mounts m
  let (n, w) := w.newmount mh node.chan node.mflag node.spec
  let (w, first) := { w with copy := Function.update w.copy m (some n) }.pgrpinsert first m
  (w.setList mh link (some n), first)

/-- The loop, with whether there was memory. -/
def copyMounts (mh : Href) : Nat → Copying → Option Mref → Option Mref → Copying × Bool
  | 0, s, _, _ => (s, true)
  | _ + 1, s, _, none => (s, true)
  | _ + 1, ⟨w, first, 0⟩, _, some _ => (⟨w, first, 0⟩, false)
  | n + 1, ⟨w, first, mem + 1⟩, link, some m =>
    let copied := w.copyMount mh first link m
    copyMounts mh n ⟨copied.1, copied.2, mem⟩ (some w.made) (copied.1.next m)

/-- The copy of a hash chain, `*l` being the bucket or the link of the last copy. -/
def copyHeads (dst : Nat) (i : Fin 32) : Nat → Copying → Option Href → Option Href → Copying × Bool
  | 0, s, _, _ => (s, true)
  | _ + 1, s, _, none => (s, true)
  | _ + 1, ⟨w, first, 0⟩, _, some _ => (⟨w, first, 0⟩, false)
  | n + 1, ⟨w, first, mem + 1⟩, l, some f =>
    let mh := w.heads
    let w := (w.newmhead (w.fromChan f)).2.setChain dst i l (some mh)
    match copyMounts mh w.made ⟨w, first, mem⟩ none (w.mount f) with
    | (s, false) => (s, false)
    | (s, true) => copyHeads dst i n s (some mh) (s.w.hash f)

def copyBuckets (dst src : Nat) : List (Fin 32) → Copying → Copying × Bool
  | [], s => (s, true)
  | i :: is, s =>
    match copyHeads dst i s.w.heads s none (s.w.mnthash src i) with
    | (s, false) => (s, false)
    | (s, true) => copyBuckets dst src is s

/-- The loop that allocates mount ids for the copies. -/
def renumber : Nat → Mounts → Option Mref → Mounts
  | 0, w, _ => w
  | _ + 1, w, none => w
  | n + 1, w, some m =>
    renumber n { w with mountid := (w.copy m).elim w.mountid fun c => Function.update w.mountid c w.ref
                        ref := w.ref + 1 } (w.order m)

/-- `pgrpcpy`, with whether it returns and does not raise `Enomem`. -/
def pgrpcpy (w : Mounts) (dst src mem : Nat) : Mounts × Bool :=
  match copyBuckets dst src (List.finRange 32) ⟨w, none, mem⟩ with
  | (s, false) => (s.w, false)
  | (s, true) => (renumber s.w.made s.w s.first, true)

/-- `newpgrp` and `pgrpcpy` into it, as in the fork of a name space. -/
def fork (w : Mounts) (src mem : Nat) : Mounts × Bool :=
  { w with pgrps := w.pgrps + 1 }.pgrpcpy w.pgrps src mem

def init : Mounts where
  mnthash := fun _ _ => none
  ns := fun _ => false
  fromChan := fun _ => ⟨0, ⟨0, 0, 0⟩, false, none⟩
  mount := fun _ => none
  hash := fun _ => none
  mounts := fun _ => ⟨0, ⟨0, ⟨0, 0, 0⟩, false, none⟩, 0, none⟩
  next := fun _ => none
  mountid := fun _ => 0
  copy := fun _ => none
  order := fun _ => none
  live := fun _ => false
  pgrps := 0
  heads := 0
  made := 0
  ref := 0

end Mounts

/-- `cmount` and `cunmount` are in the name space of the process. -/
inductive NAct
  | newpgrp
  | cmount (p : Nat) (new : Chan) (umh : Option Href) (old : Chan) (flag : Nat) (spec : Option (List UInt8)) (mem : Nat)
  | cunmount (p : Nat) (mnt : Chan) (mounted : Option Chan)
  | fork (src mem : Nat)

/-- The lock of the name space must be free. -/
def NAct.exec (a : NAct) (w : Mounts) : Option Mounts :=
  match a with
  | newpgrp => some { w with pgrps := w.pgrps + 1 }
  | cmount p new umh old flag spec mem =>
    if p < w.pgrps ∧ w.ns p = false ∧ ∀ k ∈ umh, k < w.heads then some (w.cmount p new umh old flag spec mem).1 else none
  | cunmount p mnt mounted => if p < w.pgrps ∧ w.ns p = false then some (w.cunmount p mnt mounted).1 else none
  | fork src mem => if src < w.pgrps ∧ w.ns src = false then some (w.fork src mem).1 else none

end Inferno.Ns
