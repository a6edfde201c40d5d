import Inferno.Lib.Cursor
import Inferno.Lib.Run

namespace Inferno.Strings

open Lib

def sizeofHeap : Nat := 32
def sizeofString : Nat := 32
def sizeofRune : Nat := 4

/-- The bytes of a `String` before its characters; `sizeofString` counts `STRUCTALIGN` bytes of these too. -/
def offData : Nat := 24

/-- What a function gives that may call `error` with a text. -/
abbrev OrError (α : Type) : Type := Except String α

def exBounds : String := "array bounds error"
def exHeap : String := "out of memory: heap"

/-- A number as a C `int`. -/
def int (v : Int) : Int := v.bmod (2 ^ 32)

/-- A number as a `u32`, and as a `size_t`. -/
def u32 (v : Int) : Nat := (v % 2 ^ 32).toNat
def sizeT (v : Int) : Nat := (v % 2 ^ 64).toNat

/-- A `String` in its block of the heap: the block has `msize` bytes, and `data` are those from the characters on. -/
structure Str where
  ref : Nat
  len : Int
  max : Int
  msize : Nat
  data : ByteMem
  deriving Inhabited

/-- The bytes of the block from the characters on. -/
def Str.size (x : Str) : Nat := x.msize - (sizeofHeap + offData)

/-- What `poolalloc` gives out: `msize` bytes, with whatever they held before. -/
structure Block where
  msize : Nat
  junk : ByteMem

/-- The strings of the heap by address and the pointers the program holds, `none` for `H`. `next` counts the calls
of `nheap`, and `overran` is set once something is stored outside a block. -/
structure State where
  heap : Nat → Option Str
  next : Nat
  slots : List (Option Nat)
  overran : Bool

/-- A C function: it may raise an exception, which keeps what it has done so far. -/
abbrev M := EStateM String State

/-- `mem` with `bytes` at `off`. -/
def poke (mem : ByteMem) (off : Nat) (bytes : List UInt8) : ByteMem := fun i =>
  if off ≤ i then bytes.getD (i - off) (mem i) else mem i

namespace State

def set (s : State) (p : Nat) (x : Str) : State := { s with heap := Function.update s.heap p (some x) }

/-- The state after a call of `nheap` that has given no block. -/
def skip (s : State) : State := { s with next := s.next + 1 }

def spoil (s : State) (outside : Bool) : State := { s with overran := s.overran || outside }

/-- The string at `p` becomes `f` of it; `outside` tells whether this writes outside its block. -/
def change (s : State) (p : Nat) (outside : Str → Bool) (f : Str → Str) : State :=
  match s.heap p with
  | some x => (s.set p (f x)).spoil (outside x)
  | none => s.spoil true

end State

/-- The pointer in a slot. -/
def slot (d : Nat) : M (Option Nat) := do return (← get).slots.getD d none

def setSlot (d : Nat) (p : Option Nat) : M Unit := modify fun s => { s with slots := s.slots.set d p }

def load (p : Nat) : M Str := do
  match (← get).heap p with
  | some x => return x
  | none =>
    modify fun s => s.spoil true
    return default

/-- The fields `len` and `max` are set. -/
def setHeader (p : Nat) (len max : Int) : M Unit :=
  modify fun s => s.change p (fun x => x.msize < sizeofHeap + offData) fun x => { x with len, max }

def store (p off : Nat) (bytes : List UInt8) : M Unit :=
  modify fun s => s.change p (fun x => x.size < off + bytes.length) fun x =>
    { x with data := poke x.data off bytes }

def storeRunes (p at_ : Nat) (runes : List Nat) : M Unit :=
  store p (at_ * sizeofRune) (runes.flatMap (leBytes sizeofRune))

/-- `memmove` from the characters of one string to those of another, in bytes. -/
def memmove (p off q off' n : Nat) : M Unit := do
  let y ← load q
  store p off (readBytes y.data off' n)

/-- One reference to a string less. -/
def destroy : Option Nat → M Unit
  | none => return
  | some p => modify fun s =>
    match s.heap p with
    | some x =>
      if x.ref > 1 then s.set p { x with ref := x.ref - 1 }
      else { s with heap := Function.update s.heap p none }
    | none => s.spoil true

section Alloc

variable (pool : Nat → Nat → Option Block)

def nheap (n : Int) : M Nat := do
  let s ← get
  set s.skip
  match pool s.next (sizeT (sizeofHeap + n)) with
  | none => throw exHeap
  | some b =>
    modify fun t => t.set s.next { ref := 1, len := 0, max := 0, msize := b.msize, data := b.junk }
    return s.next

def newstring (nb : Int) : M Nat := do
  let p ← nheap pool (int (sizeofString + nb))
  let h ← load p
  setHeader p nb (int h.msize - (sizeofString + sizeofHeap : Nat))
  return p

def newrunes (nr : Int) : M Nat := do
  if nr = 0 then return ← newstring pool nr
  let nr := if nr < 0 then int (-nr) else nr
  let p ← nheap pool (int (sizeofString + nr * sizeofRune))
  let h ← load p
  setHeader p (-nr) (sizeT (int h.msize - (sizeofString + sizeofHeap : Nat)) / sizeofRune)
  return p

/-- `stringdup`, which every caller has given a string that is not nil. -/
def stringdup (p : Nat) : M Nat := do
  let x ← load p
  if x.len ≥ 0 then
    let q ← newstring pool (int x.len)
    memmove q 0 p 0 x.len.toNat
    return q
  let q ← newrunes pool (int (-x.len))
  memmove q 0 p 0 (-x.len * sizeofRune).toNat
  return q

/-- The characters of an ASCII string, as runes. -/
def cvtup (p at_ q : Nat) : M Unit := do
  let y ← load q
  storeRunes p at_ ((readBytes y.data 0 y.len.toNat).map UInt8.toNat)

/-- `splitc` on the string `p` in the slot `d`. -/
def splitc (d p : Nat) (expand : Bool) : M Nat := do
  let x ← load p
  let q ← if expand ∧ x.len > 0 then do
      let q ← newrunes pool (int x.len)
      cvtup q 0 p
      pure q
    else stringdup pool p
  destroy (some p)
  setSlot d (some q)
  return q

end Alloc

end Inferno.Strings
