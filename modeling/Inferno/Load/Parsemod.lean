import Inferno.Dis.Disexc
import Inferno.Dis.Inst
import Inferno.Dis.Ptrs
import Inferno.Lib.Cursor

namespace Inferno.Load

open Lib Dis

def xmagic : Int := 819248
def smagic : Int := 923426

/-- `DADEPTH`, the size of `dastack`. -/
def dadepth : Nat := 4

def exNomem : String := "out of memory: main"

/-- Why there is no module: an error with its text, `error` raised by the heap, reading outside of `code`, or not enough
steps for the items of the data section, which go back where a length is negative. -/
inductive Fail
  | bad (text : String)
  | raised
  | outside
  | steps
deriving DecidableEq

/-- What `parsemod` reads at the places where it goes to the type table or into an array: the id of a descriptor, the
type 0 of the module data, the type of an array, the index of an item with the length of its array, the type of a link,
the type of a handler with the `n` left over, and the entry. -/
inductive Field
  | desc (id : Int)
  | mp
  | array (v : Int)
  | index (v len : Int)
  | link (de : Int)
  | handler (n descid : Int)
  | entry (isize entry entryt : Int)
deriving DecidableEq

/-- An index into the type table, or one into an array of a length. -/
inductive Access
  | type (i : Int)
  | data (v len : Int)
deriving DecidableEq

/-- `p` is where `istream` is in `code`. -/
structure St where
  p : Nat
  mem : ByteMem
  fields : List Field
  accesses : List Access

abbrev Parse := EStateM Fail St

/-- The rest of the system. Functions that allocate give an address and the memory after. -/
structure Env where
  verifysigner : Nat → Int → Bool
  mustbesigned : Bool
  malloc : ByteMem → Int → Option (Nat × ByteMem)
  dtype : ByteMem → Int → List UInt8 → Option (Nat × ByteMem)
  heapz : ByteMem → Nat → Option (Nat × ByteMem)
  nheap : ByteMem → Int → Option (Nat × ByteMem)
  initarray : ByteMem → Nat → Nat → ByteMem
  c2string : ByteMem → List UInt8 → Int → Option (Nat × ByteMem)
  tarray : Nat
  cflag : Bool
  dontcompile : Bool
  compile : Bool
  /-- What the variable `n` holds before it is set. -/
  n : Int

def bad {α : Type} (text : String) : Parse α := throw (.bad text)

/-- An address modulo the size of memory. -/
def ptr (a : Int) : Nat := (a % 2 ^ 64).toNat

def peek64 (mem : ByteMem) (a : Nat) : Nat := leNat ((List.range 8).map fun i => mem (ptr (a + i)))

def poke64 (mem : ByteMem) (a : Nat) (v : Int) : ByteMem := fun b =>
  (leBytes 8 (ptr v)).getD (ptr (b - a)) (mem b)

section Stream

variable (code : List UInt8)

/-- What `f` reads from `istream`. -/
def isp {α : Type} (f : List UInt8 → Option (α × List UInt8)) : Parse α := fun s =>
  match f (code.drop s.p) with
  | some (a, rest) => .ok a { s with p := code.length - rest.length }
  | none => .error .outside s

/-- `istream += n`. -/
def advance (n : Int) : Parse Unit := fun s =>
  if 0 ≤ s.p + n then .ok () { s with p := (s.p + n).toNat } else .error .outside s

def byte : List UInt8 → Option (UInt8 × List UInt8)
  | c :: istream => some (c, istream)
  | [] => none

def bytes (n : Nat) (istream : List UInt8) : Option (List UInt8 × List UInt8) :=
  if n ≤ istream.length then some (istream.take n, istream.drop n) else none

def disw : List UInt8 → Option (Int × List UInt8)
  | b0 :: b1 :: b2 :: b3 :: istream => some (Dis.disw [b0, b1, b2, b3], istream)
  | _ => none

end Stream

def look {α : Type} (f : ByteMem → α) : Parse α := fun s => .ok (f s.mem) s

def change (f : ByteMem → ByteMem) : Parse Unit := fun s => .ok () { s with mem := f s.mem }

/-- An allocation, which fails with `fail`. -/
def alloc (f : ByteMem → Option (Nat × ByteMem)) (fail : Fail) : Parse Nat := fun s =>
  match f s.mem with
  | some (a, mem) => .ok a { s with mem := mem }
  | none => .error fail s

/-- The address of `m->type[i]`. -/
def typeAt (field : Field) (type : Nat) (i : Int) : Parse Nat := fun s =>
  .ok (ptr (type + 8 * i)) { s with fields := field :: s.fields, accesses := .type i :: s.accesses }

/-- The table is not used. -/
def noType (field : Field) : Parse Unit := fun s => .ok () { s with fields := field :: s.fields }

/-- `m->type[i]` where `used` holds. -/
def typeIf (used : Prop) [Decidable used] (field : Field) (type : Nat) (i : Int) : Parse (Option Nat) := do
  if used then do
    let a ← typeAt field type i
    let pt ← look (peek64 · a)
    return some pt
  else do
    noType field
    return none

/-- `ary->data+v*ary->t->size`. -/
def dataAt (ary : Nat) (v len : Int) : Parse Nat := fun s =>
  .ok (ptr (peek64 s.mem (ptr (ary + 24)) + v * intptr (peek64 s.mem (ptr (peek64 s.mem (ptr (ary + 8)) + 24)))))
    { s with fields := .index v len :: s.fields, accesses := .data v len :: s.accesses }

structure Link where
  name : List UInt8
  sig : Int
  frame : Option Nat
  pc : Int

structure Import where
  sig : Int
  name : List UInt8

/-- The type is not set where `parsemod` leaves it as `malloc` gave it. -/
structure Handler extends Dis.Handler where
  t : Option Nat

structure Module where
  rt : Int
  ss : Int
  prog : List ProgInst
  ntype : Int
  type : Nat
  origmp : Nat
  name : List UInt8
  ext : List Link
  ldt : List (List Import)
  htab : List Handler
  entry : Int
  entryt : Option Nat

section Parsemod

variable (env : Env) (code : List UInt8)

/-- The signature of a signed module, or the test that there may be none. -/
def magic (length : Nat) : Parse Int := do
  let magic ← isp code operand
  if magic = smagic then do
    let siglen ← isp code operand
    let p ← fun s => .ok s.p s
    let n : Int := length - p
    if n < 0 ∨ siglen > n then bad "corrupt signature"
    else if !env.verifysigner p siglen then bad "security violation"
    else do
      advance siglen
      return n
  else if magic = xmagic then
    if env.mustbesigned then bad "security violation: not signed" else return env.n
  else bad "bad magic"

/-- The type descriptors. -/
def descs (type : Nat) (hsize : Int) : Nat → Parse Unit
  | 0 => return
  | left + 1 => do
    let id ← isp code operand
    if id > hsize then bad "heap id range"
    else do
      let tsz ← isp code operand
      let tnp ← isp code operand
      if tsz < 0 ∨ tnp < 0 ∨ tnp > 128 * 1024 then bad "implausible Dis file"
      else do
        let map ← isp code (bytes tnp.toNat)
        let pt ← alloc (env.dtype · tsz map) (.bad exNomem)
        let a ← typeAt (.desc id) type id
        change (poke64 · a pt)
        descs type hsize left

def modData (type : Nat) (dsize : Int) : Parse Nat := do
  if dsize ≠ 0 then do
    let a ← typeAt .mp type 0
    let pt ← look (peek64 · a)
    let size ← look fun mem => intptr (peek64 mem (ptr (pt + 24)))
    if pt = 0 ∨ size ≠ dsize then bad "bad desc for mp" else alloc (env.heapz · pt) .raised
  else return H

/-- The items `DEFB`, `DEFW`, and `DEFL` and `DEFF`, which have the same bytes. -/
def defb (si : Nat) : Nat → Parse Unit
  | 0 => return
  | n + 1 => do
    let c ← isp code byte
    change fun mem b => if b = si then c else mem b
    defb (ptr (si + 1)) n

def defw (si : Nat) : Nat → Parse Unit
  | 0 => return
  | n + 1 => do
    let v ← isp code disw
    change (poke64 · si v)
    defw (ptr (si + 8)) n

def defl (si : Nat) : Nat → Parse Unit
  | 0 => return
  | n + 1 => do
    let hi ← isp code disw
    let lo ← isp code disw
    change (poke64 · si (hi * 2 ^ 32 + lo % 2 ^ 32))
    defl (ptr (si + 8)) n

/-- The header of the array that `nheap` gives, with its elements set to zero. -/
def arrayMem (pt ary : Nat) (v size : Int) (mem : ByteMem) : ByteMem :=
  let mem := poke64 mem (ptr (ary - 16)) env.tarray
  let mem := poke64 mem (ptr (ary + 8)) pt
  let mem := poke64 mem ary v
  let mem := poke64 mem (ptr (ary + 16)) H
  let mem := poke64 mem (ptr (ary + 24)) (ary + 32)
  let mem : ByteMem := fun b => if ptr (b - (ary + 32)) < ptr (size * v) then 0 else mem b
  env.initarray mem pt ary

def defa (type : Nat) (ntype : Int) (si : Nat) : Parse Unit := do
  let v ← isp code disw
  if v < 0 ∨ v > ntype then bad "bad array type"
  else do
    let a ← typeAt (.array v) type v
    let pt ← look (peek64 · a)
    let v ← isp code disw
    let size ← look fun mem => intptr (peek64 mem (ptr (pt + 24)))
    let ary ← alloc (env.nheap · ((32 + size * v).bmod (2 ^ 32))) .raised
    change (arrayMem env pt ary v size)
    change (poke64 · si ary)

/-- The address of the element that the items after it go to. -/
def dind (si : Nat) (depth : Nat) : Parse Nat := do
  let ary ← look (peek64 · si)
  let t ← look fun mem => peek64 mem (ptr (ary - 16))
  if ary = H ∨ t ≠ env.tarray then bad "ind not array"
  else do
    let v ← isp code disw
    let len ← look fun mem => intptr (peek64 mem ary)
    if v > len ∨ v < 0 ∨ depth ≥ dadepth then bad "array init range" else dataAt ary v len

/-- The length in the byte of an item, or after it. -/
def itemLen (sm : UInt8) : Parse Int :=
  if sm.toNat % 16 = 0 then isp code operand else return (sm.toNat % 16 : Nat)

/-- The data section, with the `n` of its last item. -/
def data (type : Nat) (ntype : Int) : Nat → Nat → List Nat → Int → Parse Int
  | 0, _, _, _ => throw .steps
  | steps + 1, addr, dastack, n => do
    let sm ← isp code byte
    if sm = 0 then return n
    else do
      let n ← itemLen code sm
      let v ← isp code operand
      let si := ptr (addr + v)
      match sm.toNat / 16 with
      | 3 => do
        let p ← fun s => .ok s.p s
        let s ← alloc (env.c2string · (code.drop p) n) .raised
        advance n
        change (poke64 · si s)
        data type ntype steps addr dastack n
      | 1 => do
        defb code si n.toNat
        data type ntype steps addr dastack n
      | 2 => do
        defw code si n.toNat
        data type ntype steps addr dastack n
      | 8 | 4 => do
        defl code si n.toNat
        data type ntype steps addr dastack n
      | 5 => do
        defa env code type ntype si
        data type ntype steps addr dastack n
      | 6 => do
        let next ← dind env code si dastack.length
        data type ntype steps next (addr :: dastack) n
      | 7 =>
        match dastack with
        | [] => bad "pop range"
        | addr :: dastack => data type ntype steps addr dastack n
      | _ => bad "bad data item"

/-- The name stands in the next 128 bytes. -/
def modName : Parse (List UInt8) := do
  let mod ← fun s => .ok (code.drop s.p) s
  if 0 ∉ mod.take 128 then bad "bad module name" else isp code getString

/-- The exported links. -/
def links (type : Nat) : Nat → Parse (List Link)
  | 0 => return []
  | left + 1 => do
    let pc ← isp code operand
    let de ← isp code operand
    let v ← isp code disw
    let pt ← typeIf (de ≠ -1) (.link de) type de
    let name ← isp code getString
    let ext ← links type left
    return ⟨name, v, pt, pc⟩ :: ext

def imports : Nat → Parse (List Import)
  | 0 => return []
  | left + 1 => do
    let sig ← isp code disw
    let name ← isp code getString
    let rest ← imports left
    return ⟨sig, name⟩ :: rest

/-- The imports, with the last count. -/
def ldt : Nat → Int → Parse (List (List Import) × Int)
  | 0, n => return ([], n)
  | left + 1, _ => do
    let n ← isp code operand
    let i1 ← imports code n.toNat
    let (rest, last) ← ldt left n
    return (i1 :: rest, last)

def parseLdt (rt n : Int) : Parse (List (List Import) × Int) := do
  if rt / 2 ^ 6 % 2 = 1 then do
    let nl ← isp code operand
    let found ← ldt code nl.toNat n
    advance 1
    return found
  else return ([], n)

/-- The handlers. The test is of the `n` left over: at first that of the imports or the data, then the number of labels
of the handler before. -/
def handlers (type : Nat) : Nat → Int → Parse (List Handler)
  | 0, _ => return []
  | left + 1, n => do
    let eoff ← isp code operand
    let pc1 ← isp code operand
    let pc2 ← isp code operand
    let descid ← isp code operand
    let t ← typeIf (n ≠ -1) (.handler n descid) type descid
    let n ← isp code operand
    let ne := n / 2 ^ 16
    let n := n % 2 ^ 16
    let etab ← isp code (parseEtab n.toNat)
    let wild ← isp code operand
    let htab ← handlers type left n
    return ⟨⟨uintptr eoff, uintptr pc1, uintptr pc2, descid, uintptr ne, etab, uintptr wild⟩, t⟩ :: htab

def parseHandlers (type : Nat) (rt n : Int) : Parse (List Handler) := do
  if rt / 2 ^ 5 % 2 = 1 then do
    let nh ← isp code operand
    let htab ← handlers code type nh.toNat n
    advance 1
    return htab
  else return []

/-- The entry and its type. -/
def parseEntry (type : Nat) (isize hsize entry entryt : Int) : Parse (Int × Option Nat) := do
  let pt ← typeIf (entry < isize ∧ entryt < hsize) (.entry isize entry entryt) type entryt
  return (if pt.isSome then entry else 0, pt)

/-- What follows the header, with `steps` for the data section. -/
def body (steps : Nat) (rt ss n isize dsize hsize lsize entry entryt : Int) : Parse Module := do
  let prog ← isp code (parseProg isize isize.toNat)
  let type ← alloc (env.malloc · (8 * hsize)) (.bad exNomem)
  descs env code type hsize hsize.toNat
  let origmp ← modData env type dsize
  let n ← data env code type hsize steps origmp [] n
  let name ← modName code
  let ext ← links code type lsize.toNat
  if rt / 2 ^ 4 % 2 = 1 then bad "obsolete dis"
  else do
    let (ldt, n) ← parseLdt code rt n
    let htab ← parseHandlers code type rt n
    let (entry, entryt) ← parseEntry type isize hsize entry entryt
    if !env.cflag ∧ rt % 2 = 1 ∧ !env.dontcompile ∧ !env.compile then bad "compiler required"
    else return ⟨rt, ss, prog, hsize, type, origmp, name, ext, ldt, htab, entry, entryt⟩

def parsemod (steps length : Nat) : Parse Module := do
  let n ← magic env code length
  let rt ← isp code operand
  let ss ← isp code operand
  let isize ← isp code operand
  let dsize ← isp code operand
  let hsize ← isp code operand
  let lsize ← isp code operand
  let entry ← isp code operand
  let entryt ← isp code operand
  if isize < 0 ∨ dsize < 0 ∨ hsize < 0 ∨ lsize < 0 then bad "implausible Dis file"
  else body env code steps rt ss n isize dsize hsize lsize entry entryt

end Parsemod

end Inferno.Load
