import Inferno.Lib.Path
import Inferno.Lib.Run

namespace Inferno.Emu

open Lib

/-- The address of a `Prog` or of a `Progs`. -/
abbrev Ref := Nat

/-- All `Prog` and `Progs`, one function a field. `live` says which `Prog` are allocated and
`used` which `Progs` are in the forest; `pflags` and `gflags` are their `flags`. -/
structure Groups where
  live : Ref → Bool
  pid : Ref → Nat
  pflags : Ref → UInt32
  kill : Ref → Option String
  group : Ref → Option Ref
  grpprev : Ref → Option Ref
  grpnext : Ref → Option Ref
  used : Ref → Bool
  id : Ref → Nat
  gflags : Ref → UInt32
  parent : Ref → Option Ref
  child : Ref → Option Ref
  sib : Ref → Option Ref
  head : Ref → Option Ref
  tail : Ref → Option Ref
  pidnum : Nat

/-- `f` with the value `v` at `x`. -/
abbrev set {β : Type} (f : Ref → β) (x : Ref) (v : β) : Ref → β := Function.update f x v

@[simp] theorem set_self {β : Type} (f : Ref → β) (x : Ref) (v : β) : set f x v x = v := Function.update_self _ _ _

theorem set_ne {β : Type} {x y : Ref} (other : y ≠ x) (f : Ref → β) (v : β) : set f x v y = f y :=
  Function.update_of_ne other _ _

theorem set_apply {β : Type} (f : Ref → β) (x y : Ref) (v : β) : set f x v y = if y = x then v else f y :=
  Function.update_apply _ _ _ _

def ppropagate : UInt32 := 1
def pnotifyleader : UInt32 := 2
def prestrict : UInt32 := 4
def prestricted : UInt32 := 8
def pkilled : UInt32 := 16
def pprivatemem : UInt32 := 32

namespace Groups

/-- The first part of `delgrp`: `p` leaves the list of `g`. -/
def leave (s : Groups) (p g : Ref) : Groups :=
  let s := match s.grpprev p with
    | some t => { s with grpnext := set s.grpnext t (s.grpnext p) }
    | none => { s with head := set s.head g (s.grpnext p) }
  let s := match s.grpnext p with
    | some t => { s with grpprev := set s.grpprev t (s.grpprev p) }
    | none => { s with tail := set s.tail g (s.grpprev p) }
  { s with
    grpprev := set s.grpprev p none
    grpnext := set s.grpnext p none
    group := set s.group p none }

/-- The loop for the link to `g`, at the `sib` of `c`, and `*l = g->sib`. -/
def unsib (s : Groups) (g : Ref) : Nat → Ref → Option Groups
  | 0, _ => none
  | n + 1, c =>
    match s.sib c with
    | none => some { s with sib := set s.sib c (s.sib g) }
    | some d => if d = g then some { s with sib := set s.sib c (s.sib g) } else s.unsib g n d

/-- `g` leaves the subgroups of `pg`. -/
def unchild (s : Groups) (n : Nat) (g pg : Ref) : Option Groups :=
  match s.child pg with
  | none => some { s with child := set s.child pg (s.sib g) }
  | some c => if c = g then some { s with child := set s.child pg (s.sib g) } else s.unsib g n c

/-- One round of the loop over the subgroups of `g`, for `cg`. -/
def regroup (s : Groups) (g cg : Ref) (pg : Option Ref) : Groups :=
  let s := { s with child := set s.child g (s.sib cg) }
  let s := { s with parent := set s.parent cg pg }
  match pg with
  | none => s
  | some q => { s with sib := set s.sib cg (s.child q), child := set s.child q (some cg) }

/-- The subgroups of `g` are put in `pg`. -/
def moveup (g : Ref) (pg : Option Ref) : Nat → Groups → Option Groups
  | 0, _ => none
  | n + 1, s =>
    match s.child g with
    | none => some s
    | some cg => moveup g pg n (s.regroup g cg pg)

/-- One round of the loop over groups with no `Prog`. -/
def drop (s : Groups) (n : Nat) (g : Ref) : Option (Groups × Option Ref) := do
  let pg := s.parent g
  let s ← match pg with
    | none => some s
    | some q => s.unchild n g q
  let s ← moveup g pg n s
  pure ({ s with used := set s.used g false }, pg)

/-- The loop itself: the group that is left. -/
def dropAll (m : Nat) : Nat → Groups → Ref → Option (Groups × Option Ref)
  | 0, _, _ => none
  | n + 1, s, g => do
    let (s, pg) ← s.drop m g
    match pg with
    | none => pure (s, none)
    | some q => if s.head q = none then dropAll m n s q else pure (s, some q)

/-- There are no more groups than pids, which bounds the loops. -/
def delgrp (s : Groups) (p : Ref) : Option (Groups × Option Ref) :=
  match s.group p with
  | none => some (s, none)
  | some g =>
    let s := s.leave p g
    if s.head g = none then dropAll (s.pidnum + 1) (s.pidnum + 1) s g else some (s, some g)

/-- The new group of `p`, below `pg`. -/
def found (s : Groups) (p g : Ref) (pg : Option Ref) : Groups :=
  let s := { s with
    used := set s.used g true
    head := set s.head g (some p)
    tail := set s.tail g (some p)
    group := set s.group p (some g) }
  let s := match pg with
    | none => s
    | some q => { s with sib := set s.sib g (s.child q), child := set s.child q (some g) }
  { s with parent := set s.parent g pg }

/-- A `Progs` from `malloc`, which clears it, with the fields that `newgrp` sets before `delgrp`. -/
def mkgrp (s : Groups) (p g : Ref) : Groups :=
  { s with
    id := set s.id g (s.pid p)
    gflags := set s.gflags g (match s.group p with
      | none => 0
      | some h => s.gflags h &&& pprivatemem)
    parent := set s.parent g none
    child := set s.child g none
    sib := set s.sib g none
    head := set s.head g none
    tail := set s.tail g none
    pflags := set s.pflags p (s.pflags p &&& ~~~(ppropagate ||| pnotifyleader)) }

/-- `g` is what `malloc` returns; without memory there is an error and nothing changes. -/
def newgrp (s : Groups) (p : Ref) (g : Option Ref) : Option Groups :=
  if ∃ h ∈ s.group p, s.id h = s.pid p then some s
  else
    match g with
    | none => some s
    | some g => do
      let (s, pg) ← (s.mkgrp p g).delgrp p
      pure (s.found p g pg)

/-- `none` is a nil dereference. -/
def addgrp (s : Groups) (n p : Ref) : Option Groups :=
  let s := { s with group := set s.group n (s.group p) }
  match s.group n with
  | none => some s
  | some g =>
    let s := { s with grpnext := set s.grpnext n none }
    match s.head g, s.tail g with
    | none, _ => some { s with
        grpprev := set s.grpprev n none
        head := set s.head g (some n)
        tail := set s.tail g (some n) }
    | some _, some t => some { s with
        grpprev := set s.grpprev n (some t)
        grpnext := set s.grpnext t (some n)
        tail := set s.tail g (some n) }
    | some _, none => none

/-- A `Prog` from `malloc` and its pid. -/
def mkprog (s : Groups) (n : Ref) : Groups :=
  { s with
    live := set s.live n true
    pid := set s.pid n (s.pidnum + 1)
    pflags := set s.pflags n 0
    kill := set s.kill n none
    group := set s.group n none
    grpprev := set s.grpprev n none
    grpnext := set s.grpnext n none
    pidnum := s.pidnum + 1 }

/-- `newprog` of a `Prog` that `disinit` starts; every failure is a panic. -/
def newprog₀ (s : Groups) (n g : Option Ref) : Option Groups :=
  match n, g with
  | some n, some g => if s.pidnum + 1 < 2 ^ 31 then (s.mkprog n).newgrp n (some g) else none
  | _, _ => none

/-- `n->flags` of a `Prog` that `p` spawns. -/
def inherit (s : Groups) (n p : Ref) : Groups :=
  let flags := s.pflags p
  { s with pflags := set s.pflags n (if flags &&& prestrict ≠ 0 then flags ||| prestricted else flags) }

/-- `p->flags |= p->group->flags & Pkilled`. -/
def condemn (s : Groups) (p : Ref) : Groups :=
  match s.group p with
  | none => s
  | some g => { s with pflags := set s.pflags p (s.pflags p ||| (s.gflags g &&& pkilled)) }

/-- `newprog` of a `Prog` that `p` spawns. A killed `p` and want of memory are errors,
and running out of pids is a panic. -/
def newprog (s : Groups) (p : Ref) (n : Option Ref) : Option Groups :=
  let s := s.condemn p
  if (s.kill p).isSome then some s
  else if s.pflags p &&& pkilled ≠ 0 then some s
  else
    match n with
    | none => some s
    | some n =>
      if s.pidnum + 1 < 2 ^ 31 then ((s.mkprog n).addgrp n p).map fun s => s.inherit n p else none

def delprog (s : Groups) (p : Ref) : Option Groups := do
  let (s, _) ← s.delgrp p
  pure { s with live := set s.live p false }

def grpleader (s : Groups) (p : Ref) : Option Ref := do
  let g ← s.group p
  let l ← s.head g
  if s.pid l = s.id g then some l else none

end Groups

end Inferno.Emu
