import Inferno.Lib.Climb

namespace Inferno.Icurses

def NoId : Int64 := -1

def RootId : Int64 := 0

/-- The fields of `IcView->Node` that the tree functions use. -/
structure Node where
  id : Int64
  kind : String
  parentid : Int64
  visible : Int64
  enabled : Int64
  focusable : Int64
  dirty : Int64
  children : List Int64
deriving DecidableEq

/-- `IcView->Tree`. A `ref` to a node of it is the node's id. -/
structure Tree where
  rootid : Int64
  nodes : List Node
  focusid : Int64
  activegroupid : Int64
  activewindowid : Int64
  nextid : Int64
deriving DecidableEq

def appendchild (a : List Int64) (s : Int64) : List Int64 := if s < 0 then a else a ++ [s]

def prependchild (a : List Int64) (s : Int64) : List Int64 := if s < 0 then a else s :: a

def removechildid (a : List Int64) (s : Int64) : List Int64 := a.filter (· ≠ s)

def removenodeid (a : List Node) (id : Int64) : List Node := if id < 0 then a else a.filter (·.id ≠ id)

def newroot : Node :=
  { id := RootId, kind := "root", parentid := NoId, visible := 1, enabled := 1, focusable := 0, dirty := 0, children := [] }

def newtree : Tree :=
  { rootid := newroot.id, nodes := [newroot], focusid := NoId, activegroupid := NoId, activewindowid := NoId
    nextid := RootId + 1 }

def allocid (t : Tree) : Tree × Int64 :=
  let id := if t.nextid ≤ RootId then RootId + 1 else t.nextid
  ({ t with nextid := id + 1 }, id)

namespace Node

def show_ (v : Node) : Node := { v with visible := 1, dirty := 1 }

def hide (v : Node) : Node := { v with visible := 0, dirty := 1 }

def enable (v : Node) : Node := { v with enabled := 1, dirty := 1 }

def disable (v : Node) : Node := { v with enabled := 0, dirty := 1 }

def haschild (v : Node) (childid : Int64) : Bool := childid ∈ v.children

def addchild (v : Node) (childid : Int64) : Node :=
  if childid < 0 then v
  else if v.haschild childid then v
  else { v with children := appendchild v.children childid, dirty := 1 }

def removechild (v : Node) (childid : Int64) : Node :=
  if childid < 0 then v else { v with children := removechildid v.children childid, dirty := 1 }

end Node

namespace Tree

def find (t : Tree) (id : Int64) : Option Node := if id < 0 then none else t.nodes.find? (·.id = id)

/-- The node `id` is written through its `ref`. -/
def upd (t : Tree) (id : Int64) (f : Node → Node) : Tree :=
  { t with nodes := t.nodes.map fun n => if n.id = id then f n else n }

def addchildnode (t : Tree) (parentid : Int64) (n : Node) : Tree × Int64 :=
  if parentid < 0 then (t, -1)
  else if n.id < 0 then (t, -1)
  else if (t.find n.id).isSome then (t, -1)
  else match t.find parentid with
    | none => (t, -1)
    | some _ =>
      let t := { t with nodes := t.nodes ++ [{ n with parentid := parentid }] }
      let t := t.upd parentid (·.addchild n.id)
      (if n.id ≥ t.nextid then { t with nextid := n.id + 1 } else t, 0)

/-- The loop of `isdescendant`. -/
def isdescendantLoop (t : Tree) (ancestorid : Int64) : Nat → Option Node → Bool
  | _, none => false
  | 0, some _ => false
  | guard + 1, some n =>
    if n.parentid = ancestorid then true
    else if n.parentid = NoId then false
    else t.isdescendantLoop ancestorid guard (t.find n.parentid)

def isdescendant (t : Tree) (id ancestorid : Int64) : Bool :=
  if id < 0 ∨ ancestorid < 0 then false
  else t.isdescendantLoop ancestorid (t.nodes.length + 1) (t.find id)

def reparent (t : Tree) (id parentid : Int64) : Tree × Int64 :=
  if id < 0 ∨ parentid < 0 then (t, -1)
  else if id = t.rootid then (t, -1)
  else if id = parentid then (t, -1)
  else match t.find id with
    | none => (t, -1)
    | some n => match t.find parentid with
      | none => (t, -1)
      | some _ =>
        if t.isdescendant parentid id then (t, -1)
        else
          let t := t.upd n.parentid (·.removechild id)
          let t := t.upd id fun n => { n with parentid := parentid }
          let t := t.upd parentid (·.addchild id)
          let t := t.upd id fun n => { n with dirty := 1 }
          (t.upd parentid fun n => { n with dirty := 1 }, 0)

/-- `none` where the recursion is deeper than `fuel`. -/
def dropnode : Nat → Tree → Option Node → Option Tree
  | 0, _, _ => none
  | _ + 1, t, none => some t
  | fuel + 1, t, some n => do
    let t ← n.children.foldlM (fun t cid => dropnode fuel t (t.find cid)) t
    some { t with nodes := removenodeid t.nodes n.id }

/-- Whether `id` is `ancestorid` or below it. -/
def holds (t : Tree) (ancestorid id : Int64) : Bool := id = ancestorid || t.isdescendant id ancestorid

/-- What `removetree` does about the ids that the tree keeps. -/
def forget (t : Tree) (id : Int64) : Tree :=
  let t := if t.holds id t.focusid then { t with focusid := NoId } else t
  let t := if t.holds id t.activegroupid then { t with activegroupid := NoId } else t
  if t.holds id t.activewindowid then { t with activewindowid := NoId } else t

def removetree (t : Tree) (id : Int64) : Option (Tree × Int64) :=
  if id < 0 then some (t, -1)
  else if id = t.rootid then some (t, -1)
  else match t.find id with
    | none => some (t, -1)
    | some n => do
      let t := (t.upd n.parentid (·.removechild id)).forget id
      let t ← dropnode (t.nodes.length + 1) t (some n)
      some (t, 0)

def bringtofront (t : Tree) (id : Int64) : Tree × Int64 :=
  match t.find id with
  | none => (t, -1)
  | some n => match t.find n.parentid with
    | none => (t, -1)
    | some p =>
      let t := t.upd p.id fun p => { p with children := appendchild (removechildid p.children id) id, dirty := 1 }
      (t.upd id fun n => { n with dirty := 1 }, 0)

def sendtoback (t : Tree) (id : Int64) : Tree × Int64 :=
  match t.find id with
  | none => (t, -1)
  | some n => match t.find n.parentid with
    | none => (t, -1)
    | some p =>
      let t := t.upd p.id fun p => { p with children := prependchild (removechildid p.children id) id, dirty := 1 }
      (t.upd id fun n => { n with dirty := 1 }, 0)

def activatewindow (t : Tree) (id : Int64) : Tree × Int64 :=
  if id < 0 then (t, -1)
  else match t.find id with
    | none => (t, -1)
    | some _ => { t with activewindowid := id }.bringtofront id

/-- The loop of `isvisibletree` and of `isenabledtree`, which look at one field each. -/
def flagTree (t : Tree) (flag : Node → Int64) : Nat → Option Node → Bool
  | _, none => false
  | 0, some _ => false
  | guard + 1, some n =>
    if flag n = 0 then false
    else if n.parentid = NoId then true
    else t.flagTree flag guard (t.find n.parentid)

def isvisibletree (t : Tree) (id : Int64) : Bool :=
  if id < 0 then false else t.flagTree Node.visible (t.nodes.length + 1) (t.find id)

def isenabledtree (t : Tree) (id : Int64) : Bool :=
  if id < 0 then false else t.flagTree Node.enabled (t.nodes.length + 1) (t.find id)

/-- `showhidekids` and `enablekids`, with what they do to a node. -/
def eachkid (change : Node → Node) : Nat → Tree → Int64 → Option Tree
  | 0, _, _ => none
  | fuel + 1, t, id => match t.find id with
    | none => some t
    | some n => n.children.foldlM (eachkid change fuel) (t.upd id change)

def showhidekids (t : Tree) (id visible : Int64) : Option Tree :=
  eachkid (fun n => { n with visible := visible, dirty := 1 }) (t.nodes.length + 1) t id

def enablekids (t : Tree) (id enabled : Int64) : Option Tree :=
  eachkid (fun n => { n with enabled := enabled, dirty := 1 }) (t.nodes.length + 1) t id

def showtree (t : Tree) (id : Int64) : Option Tree := t.showhidekids id 1

def hidetree (t : Tree) (id : Int64) : Option Tree := t.showhidekids id 0

def enabletree (t : Tree) (id : Int64) : Option Tree := t.enablekids id 1

def disabletree (t : Tree) (id : Int64) : Option Tree := t.enablekids id 0

def focusableok (t : Tree) : Option Node → Bool
  | none => false
  | some n => if n.focusable = 0 then false else t.isvisibletree n.id && t.isenabledtree n.id

def collectfocus (t : Tree) : Nat → Int64 → List Int64 → Option (List Int64)
  | 0, _, _ => none
  | fuel + 1, id, a => match t.find id with
    | none => some a
    | some n =>
      let a := if t.focusableok (some n) then appendchild a n.id else a
      n.children.foldlM (fun a cid => match t.find cid with
        | none => some a
        | some c => t.collectfocus fuel c.id a) a

def focuslist (t : Tree) : Option (List Int64) := t.collectfocus (t.nodes.length + 1) t.rootid []

/-- The loop of `setfocus`, which has no guard of its own. -/
def setfocusLoop : Nat → Tree → Option Node → Option Tree
  | _, t, none => some t
  | 0, _, some _ => none
  | fuel + 1, t, some n =>
    if n.kind = "window" then some (t.activatewindow n.id).1
    else setfocusLoop fuel t (t.find n.parentid)

def setfocus (t : Tree) (id : Int64) : Option (Tree × Int64) :=
  match t.find id with
  | none => some (t, -1)
  | some n =>
    if t.focusableok (some n) then do
      let t := { t with focusid := id }
      let t ← setfocusLoop (t.nodes.length + 1) t (t.find n.parentid)
      some (t, 0)
    else some (t, -1)

def nextfocus (t : Tree) : Option (Tree × Int64) := do
  let a ← t.focuslist
  if a = [] then some ({ t with focusid := NoId }, NoId)
  else
    let next := match a.findIdx? (· = t.focusid) with
      | none => a.head?
      | some cur => a[(cur + 1) % a.length]?
    let id ← next
    let (t, _) ← t.setfocus id
    some (t, t.focusid)

def prevfocus (t : Tree) : Option (Tree × Int64) := do
  let a ← t.focuslist
  if a = [] then some ({ t with focusid := NoId }, NoId)
  else
    let next := match a.findIdx? (· = t.focusid) with
      | none => a.head?
      | some 0 => a[a.length - 1]?
      | some cur => a[cur - 1]?
    let id ← next
    let (t, _) ← t.setfocus id
    some (t, t.focusid)

end Tree

/-- The calls, each with its arguments; `show_`, `hide`, `enable` and `disable` are of a node of the tree. -/
inductive Op
  | allocid
  | addchildnode (parentid : Int64) (n : Node) (fresh : n.children = [])
  | reparent (id parentid : Int64)
  | removetree (id : Int64)
  | bringtofront (id : Int64)
  | sendtoback (id : Int64)
  | activatewindow (id : Int64)
  | setfocus (id : Int64)
  | nextfocus
  | prevfocus
  | show_ (id : Int64)
  | hide (id : Int64)
  | enable (id : Int64)
  | disable (id : Int64)
  | showtree (id : Int64)
  | hidetree (id : Int64)
  | enabletree (id : Int64)
  | disabletree (id : Int64)

/-- The tree after a call, and what the call returns. `none` where it does not return. -/
def exec (t : Tree) : Op → Option (Tree × Int64)
  | .allocid => some (allocid t)
  | .addchildnode parentid n _ => some (t.addchildnode parentid n)
  | .reparent id parentid => some (t.reparent id parentid)
  | .removetree id => t.removetree id
  | .bringtofront id => some (t.bringtofront id)
  | .sendtoback id => some (t.sendtoback id)
  | .activatewindow id => some (t.activatewindow id)
  | .setfocus id => t.setfocus id
  | .nextfocus => t.nextfocus
  | .prevfocus => t.prevfocus
  | .show_ id => some (t.upd id Node.show_, 0)
  | .hide id => some (t.upd id Node.hide, 0)
  | .enable id => some (t.upd id Node.enable, 0)
  | .disable id => some (t.upd id Node.disable, 0)
  | .showtree id => (t.showtree id).map (·, 0)
  | .hidetree id => (t.hidetree id).map (·, 0)
  | .enabletree id => (t.enabletree id).map (·, 0)
  | .disabletree id => (t.disabletree id).map (·, 0)

end Inferno.Icurses
