import Inferno.Dis.Disexc

namespace Inferno.Dis

/-- `ematch`: equal strings, or a pattern that ends in `*` and whose part
before it starts the exception. -/
def ematch (pat exp : List UInt8) : Bool :=
  if pat = exp then true
  else if pat.length = 0 then false
  else if pat.getLast? = some 0x2A then
    if pat.length = 1 then true else pat.dropLast.isPrefixOf exp
  else false

/-- A loaded module: its code address, counted in instructions, and the part
of its object file that holds the exception tables. -/
structure Module where
  excs : List Exc
  prog : Int
  image : List UInt8
  written : disexc excs = some image

/-- Limbo sets `HASEXCEPT` only when there are entries. -/
def Module.htab (m : Module) : Option (List Handler) :=
  if m.excs = [] then none else (parseExcepts m.image).map Prod.fst

/-- The links of a stack frame. -/
structure Frame where
  lr : Int
  mr : Option Module

/-- The registers `handler` reads. `FP` is the list of frames from the
running one outwards; two frame pointers are equal when as many frames are left. -/
structure Reg where
  M : Module
  PC : Int
  FP : List Frame

/-- `p->exval`: nil or a string, or an exception value, whose first word is
its name. -/
inductive Exval
  | string (s : List UInt8)
  | exception (name : List UInt8)
deriving DecidableEq

/-- A raised exception: the text given to `handler`, never empty, and `p->exval`. -/
structure Raised where
  estr : List UInt8
  exval : Option Exval
  nonempty : estr ≠ []

def isStr : Option Exval → Bool
  | some (.exception _) => false
  | _ => true

/-- The exception becomes the string `*(String**)v`. -/
def asString : Option Exval → Option Exval
  | some (.exception name) => some (.string name)
  | v => v

/-- `pc = PC - m->prog; pc--`. -/
def pcIn (m : Module) (pc : Int) : Int := intptr (intptr (pc - m.prog) - 1)

def nopc : Int := 0xffffffff

def etabSearch (estr : List UInt8) (str : Bool) : List Except → Int → Option Int
  | [], _ => none
  | e :: etab, ne =>
    if ematch e.s estr && (str && ne ≤ 0 || !str && 0 < ne) then some (intptr e.pc)
    else etabSearch estr str etab (ne - 1)

/-- The scan of one module's `htab`: `eoff` and `newpc` of what was found. The
comparisons of `pc` are unsigned, `ne` is an `int`. -/
def htabSearch (estr : List UInt8) (str : Bool) (pc : Int) : List Handler → Option (Int × Int)
  | [] => none
  | h :: htab =>
    if uintptr pc < h.pc1 ∨ h.pc2 ≤ uintptr pc then htabSearch estr str pc htab
    else
      match etabSearch estr str h.etab (h.ne.bmod (2 ^ 32)) with
      | some newpc => some (intptr h.eoff, newpc)
      | none =>
        if intptr h.wild ≠ nopc then some (intptr h.eoff, intptr h.wild)
        else htabSearch estr str pc htab

/-- Where the search ended: the frames from `fp` on, `eoff`, `newpc` and `p->exval`. -/
structure Found where
  fp : List Frame
  eoff : Int
  newpc : Int
  exval : Option Exval

def frameSearch (x : Raised) (m : Module) (pc : Int) (exval : Option Exval) : Option (Int × Int) :=
  m.htab.bind (htabSearch x.estr (isStr exval) pc)

/-- The loop that looks for a handler. Below the running frame an exception
that no entry takes becomes a string and the same frame is searched again. -/
def lookup (x : Raised) (rfp : Nat) (m : Module) (pc : Int) (exval : Option Exval) :
    List Frame → Option Found
  | [] => none
  | f :: fp =>
    match frameSearch x m pc exval with
    | some (eoff, newpc) => some ⟨f :: fp, eoff, newpc, exval⟩
    | none =>
      let retry := !isStr exval && decide ((f :: fp).length ≠ rfp)
      let exval := if retry then asString exval else exval
      match if retry then frameSearch x m pc exval else none with
      | some (eoff, newpc) => some ⟨f :: fp, eoff, newpc, exval⟩
      | none =>
        let m := f.mr.getD m
        lookup x rfp m (pcIn m f.lr) exval fp

/-- The loop that pops frames down to `fp`, restoring `R.M` from `mr`. -/
def unwind (fp : Nat) (m : Module) : List Frame → Module × List Frame
  | [] => (m, [])
  | f :: fs => if (f :: fs).length = fp then (m, f :: fs) else unwind fp (f.mr.getD m) fs

/-- The state `handler` resumes in: module, code index, frames, and the value
stored at offset `eoff` of the frame. -/
structure Resumed where
  M : Module
  pc : Int
  FP : List Frame
  eoff : Int
  value : Exval

/-- `handler`; `none` is the return of 0. -/
def handler (r : Reg) (x : Raised) : Option Resumed :=
  if x.estr = [] then none
  else do
    let found ← lookup x r.FP.length r.M (pcIn r.M r.PC) x.exval r.FP
    let (m, fp) := unwind found.fp.length r.M r.FP
    return ⟨m, found.newpc, fp, found.eoff, found.exval.getD (.string x.estr)⟩

/-- One search of one frame: the module the frame runs in, its pc there, the
frames from it outwards and the exception as it then stands. -/
structure Attempt where
  m : Module
  pc : Int
  fp : List Frame
  exval : Option Exval

/-- The searches of a raise, innermost frame first. An exception is looked up
as itself in the raising frame and in its caller, and from there as a string. -/
def attempts (rfp : Nat) (m : Module) (pc : Int) (exval : Option Exval) : List Frame → List Attempt
  | [] => []
  | f :: fp =>
    let outer := f.mr.getD m
    if !isStr exval && decide ((f :: fp).length ≠ rfp) then
      ⟨m, pc, f :: fp, exval⟩ :: ⟨m, pc, f :: fp, asString exval⟩ ::
        attempts rfp outer (pcIn outer f.lr) (asString exval) fp
    else ⟨m, pc, f :: fp, exval⟩ :: attempts rfp outer (pcIn outer f.lr) exval fp

def Reg.attempts (r : Reg) (x : Raised) : List Attempt :=
  Dis.attempts r.FP.length r.M (pcIn r.M r.PC) x.exval r.FP

/-- The entries `disexc` wrote for the attempt's module. -/
def Attempt.entries (a : Attempt) : List Exc := a.m.excs.filter Exc.reach

def Exc.InRange (e : Exc) (pc : Int) : Prop := (e.pc1 : Int) ≤ pc ∧ pc < e.pc2

instance (e : Exc) (pc : Int) : Decidable (e.InRange pc) := inferInstanceAs (Decidable (_ ∧ _))

/-- The arm of an entry that takes the exception: the first matching
qualifier of its kind, else the wildcard. -/
def Exc.arm (e : Exc) (estr : List UInt8) (exval : Option Exval) : Option Nat :=
  match e.labs.find? fun lab => lab.exc != isStr exval && ematch (cname lab.name) estr with
  | some lab => some lab.pc
  | none => e.iwild

/-- Some entry covers the attempt's pc and has an arm for the exception. -/
def Attempt.Caught (a : Attempt) (x : Raised) : Prop :=
  ∃ e ∈ a.entries, e.InRange a.pc ∧ e.arm x.estr a.exval ≠ none

/-- Dispatch as it should be: control resumes in the innermost frame with an
entry that catches, at an arm of such an entry, and nowhere if none catches. -/
def Dispatches (r : Reg) (x : Raised) : Prop :=
  match handler r x with
  | none => ∀ a ∈ r.attempts x, ¬ a.Caught x
  | some s => ∃ before a after, r.attempts x = before ++ a :: after ∧ (∀ b ∈ before, ¬ b.Caught x) ∧
      ∃ e ∈ a.entries, e.InRange a.pc ∧ ∃ pc : Nat, e.arm x.estr a.exval = some pc ∧
        s.M = a.m ∧ s.FP = a.fp ∧ s.pc = pc ∧ s.eoff = e.offset ∧ s.value = a.exval.getD (.string x.estr)

/-- The first entry that covers a frame's pc, in the order of the search. -/
def firstInRange (searches : List Attempt) : Option (Attempt × Exc) :=
  searches.findSome? fun a => (a.entries.find? fun e => e.InRange a.pc).map (Prod.mk a)

end Inferno.Dis
