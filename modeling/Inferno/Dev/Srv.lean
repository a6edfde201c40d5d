import Inferno.Dev.Pipe
import Inferno.Lib.Slots

namespace Inferno.Dev

open Lib

namespace Srv

def ORCLOSE : Nat := 0x40
def DMEXCL : Nat := 0x20000000
def DMDIR : Nat := 0x80000000

/-- `dir` is `none` for a directory. The flags are fields of their own; a channel
pointer is `H` from the time its flag is set. -/
structure SrvFile where
  name : String
  user : String
  perm : Nat
  path : Nat
  ref : Int
  spec : String
  dir : Option Nat
  opens : Int
  orclose : Bool
  rdclose : Bool
  wrclose : Bool
  removed : Bool

/-- `aux`, the two parts of `qid`, and `flag & COPEN`. -/
structure Chan where
  aux : Nat
  path : Nat
  isDir : Bool
  isOpen : Bool
deriving DecidableEq

end Srv

/-- `dev`, with the files by their addresses and the channels on them. An address
is one allocation, `entry` is the list of a directory, and `pathgen` does not wrap. -/
structure Srv where
  file : List (Option Srv.SrvFile)
  entry : Nat → List Nat
  devices : List Nat
  pathgen : Nat
  chan : List (Option Srv.Chan)

namespace Srv

/-- The rest of a new file is zero. -/
def SrvFile.new (name user : String) (perm path : Nat) (ref : Int) (spec : String) (dir : Option Nat) : SrvFile :=
  ⟨name, user, perm, path, ref, spec, dir, 0, false, false, false, false⟩

def get (s : Srv) (a : Nat) : Option SrvFile := look s.file a

def put (s : Srv) (a : Nat) (f : SrvFile) : Srv := { s with file := s.file.set a (some f) }

def free (s : Srv) (a : Nat) : Srv := { s with file := s.file.set a none }

def addChan (s : Srv) (a : Nat) (f : SrvFile) (path : Nat) (isDir : Bool) : Srv :=
  { s.put a { f with ref := f.ref + 1 } with chan := s.chan ++ [some ⟨a, path, isDir, false⟩] }

def srvcanattach (d : SrvFile) (user : String) : Bool := d.user == user || d.perm &&& 2 != 0

/-- `more` is whether `malloc` finds memory. -/
def srvattach (s : Srv) (spec user : String) (pgrpid : Nat) (more : Bool) : Srv :=
  match (if spec = "" then none else s.devices.find? fun a => (s.get a).any (·.spec == spec)) with
  | some a =>
    match s.get a with
    | none => s
    | some d => if srvcanattach d user then s.addChan a d d.path d.dir.isNone else s
  | none =>
    if more then
      let name := String.ofList (("srv" ++ toString pgrpid).toList.take 15)
      let d := SrvFile.new name user (DMDIR ||| 0o770) s.pathgen 1 spec none
      { s with
        file := s.file ++ [some d]
        devices := s.file.length :: s.devices
        pathgen := s.pathgen + 1
        chan := s.chan ++ [some ⟨s.file.length, s.pathgen, true, false⟩] }
    else s

/-- The entry of a name, as the loop of `devwalk` over `srvgen` finds it. -/
def lookup (s : Srv) (d : Nat) (name : String) : Option Nat :=
  (s.entry d).find? fun a => (s.get a).any (·.name == name)

/-- `devwalk` from a directory: `qid` of the clone, if all names are walked. -/
def devwalk (s : Srv) (d path : Nat) : List String → Option (Nat × Bool)
  | [] => some (path, true)
  | name :: names =>
    if name = "." ∨ name = ".." then devwalk s d path names
    else
      match (s.lookup d name).bind s.get with
      | none => none
      | some f => if names = [] then some (f.path, false) else none

/-- `none` is the panic. A walk from a file fails in `isdir`. -/
def srvwalk (s : Srv) (c : Chan) (names : List String) : Option Srv :=
  if names = [] then (s.get c.aux).map fun f => s.addChan c.aux f c.path c.isDir
  else if !c.isDir then some s
  else
    match s.devwalk c.aux c.path names with
    | none => some s
    | some (path, isDir) =>
      match (s.entry c.aux).find? fun a => (s.get a).any (·.path == path) with
      | none => none
      | some a => (s.get a).map fun f => s.addChan a f path isDir

def setOpen (s : Srv) (i : Nat) (c : Chan) : Srv := { s with chan := s.chan.set i (some { c with isOpen := true }) }

def srvopen (s : Srv) (i : Nat) (c : Chan) (omode : Nat) (user eve : String) : Option Srv :=
  if Fd.openmode omode = none then some s
  else if c.isDir then some (if omode = Fd.oread then s.setOpen i c else s)
  else
    (s.get c.aux).map fun f =>
      if !devpermcheck user eve f.user f.perm omode then s
      else if omode &&& ORCLOSE != 0 && f.user != user then s
      else if f.perm &&& DMEXCL != 0 && f.opens != 0 then s
      else (s.put c.aux { f with opens := f.opens + 1, orclose := f.orclose || omode &&& ORCLOSE != 0 }).setOpen i c

/-- `none` here and below is the use of a file that is freed. -/
def srvputdir (s : Srv) (a : Nat) : Option Srv :=
  (s.get a).map fun d =>
    if d.ref - 1 ≠ 0 then s.put a { d with ref := d.ref - 1 }
    else { s.free a with devices := s.devices.erase a }

def srvdelete (s : Srv) (a : Nat) : Option Srv :=
  (s.get a).map fun f =>
    if f.removed then s
    else
      { s.put a { f with ref := f.ref - 1, removed := true } with
        entry := f.dir.elim s.entry fun d => Function.update s.entry d ((s.entry d).erase a) }

def srvchkref (s : Srv) (a : Nat) : Option Srv :=
  (s.get a).bind fun f =>
    if f.ref ≠ 0 then some s
    else (f.dir.elim (some s) s.srvputdir).map fun s => s.free a

def unref (s : Srv) (a : Nat) : Option Srv := (s.get a).map fun f => s.put a { f with ref := f.ref - 1 }

/-- `srvcancelreqs` answers requests, and leaves the files alone. -/
def srvfree (s : Srv) (a : Nat) (rd : Bool) : Option Srv :=
  (s.get a).bind fun f =>
    let f := { f with rdclose := f.rdclose || rd, wrclose := f.wrclose || !rd }
    let s := s.put a f
    if f.rdclose && f.wrclose then ((s.unref a).bind fun s => s.srvdelete a).bind fun s => s.srvchkref a
    else some s

/-- `srvclunk` of a file. -/
def clunkFile (s : Srv) (i : Nat) (c : Chan) (remove : Bool) (user : String) : Option Srv :=
  (s.get c.aux).bind fun f =>
    let s := { s with chan := s.chan.set i none }
    let last := c.isOpen && f.opens == 1
    let opens := if c.isOpen then f.opens - 1 else f.opens
    let s := s.put c.aux { f with opens, ref := f.ref - 1 }
    let remove := remove || last && f.orclose
    let noperm := remove && (f.dir.bind s.get).any (·.user != user)
    (if remove && !noperm then s.srvdelete c.aux else some s).bind fun s => s.srvchkref c.aux

/-- The channel is gone, also after an error (`kremove`). -/
def srvclunk (s : Srv) (i : Nat) (c : Chan) (remove : Bool) (user : String) : Option Srv :=
  if c.isDir then { s with chan := s.chan.set i none }.srvputdir c.aux
  else s.clunkFile i c remove user

def enlist (s : Srv) (d : Nat) (f : SrvFile) : Srv :=
  { s with
    file := s.file ++ [some f]
    entry := Function.update s.entry d (s.file.length :: s.entry d)
    pathgen := s.pathgen + 1 }

/-- `c` is the channel that `namec` returns, which is closed afterwards like any other. -/
def srvf2c (s : Srv) (c : Chan) (file user : String) (more : Bool) : Option Srv :=
  if '/' ∈ file.toList ∨ file.utf8ByteSize ≥ 64 ∨ file = "." ∨ file = ".." then some s
  else if !c.isDir then some s
  else if (s.lookup c.aux file).isSome then some s
  else if !more then some s
  else
    (s.get c.aux).map fun d =>
      (s.put c.aux { d with ref := d.ref + 1 }).enlist c.aux (SrvFile.new file user (0o666 &&& d.perm) s.pathgen 2 "" (some c.aux))

def init : Srv := ⟨[], fun _ => [], [], 1, []⟩

end Srv

inductive SrvAct
  | attach (spec user : String) (pgrpid : Nat) (more : Bool)
  | walk (c : Nat) (names : List String)
  | opens (c omode : Nat) (user eve : String)
  | clunk (c : Nat) (remove : Bool) (user : String)
  | f2c (c : Nat) (file user : String) (more : Bool)
  | final (a : Nat) (rd : Bool)

/-- Channels that are open are not walked nor opened; each of the two channels of
a file is finalised once. -/
def SrvAct.exec (e : SrvAct) (s : Srv) : Option Srv :=
  match e with
  | attach spec user pgrpid more => some (s.srvattach spec user pgrpid more)
  | walk c names => (look s.chan c).bind fun ch => if ch.isOpen then none else s.srvwalk ch names
  | opens c omode user eve => (look s.chan c).bind fun ch => if ch.isOpen then none else s.srvopen c ch omode user eve
  | clunk c remove user => (look s.chan c).bind fun ch => s.srvclunk c ch remove user
  | f2c c file user more => (look s.chan c).bind fun ch => s.srvf2c ch file user more
  | final a rd => (s.get a).bind fun f => if f.dir.isNone || (if rd then f.rdclose else f.wrclose) then none else s.srvfree a rd

end Inferno.Dev
