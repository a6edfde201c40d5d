import Inferno.Lib.Cursor

namespace Inferno.Lib9

open Lib

def slash : UInt8 := 0x2F
def dot : UInt8 := 0x2E
def hash : UInt8 := 0x23

/-- `SEP`. -/
def sep (c : UInt8) : Bool := c == slash || c == 0

/-- A buffer that a function writes in place, and the end of what it has written so far. -/
structure Buf where
  mem : ByteMem
  hi : Nat

def Buf.put (b : Buf) (i : Nat) (c : UInt8) : Buf where
  mem := Function.update b.mem i c
  hi := max b.hi (i + 1)

/-- The variables of `cleanname` with the buffer. -/
structure Cur where
  b : Buf
  p : Nat
  q : Nat
  dotdot : Nat
  erasedPrefix : Bool

/-- `while(--q > dotdot && *q != '/')`. -/
def back (mem : ByteMem) (dotdot : Nat) : Nat → Nat
  | 0 => 0
  | q + 1 => if q > dotdot ∧ mem q ≠ slash then back mem dotdot q else q

/-- `while((*q = *p) != '/' && *q != 0) p++, q++`. -/
def copyElem : Nat → Cur → Cur
  | 0, s => s
  | fuel + 1, s =>
    let b := s.b.put s.q (s.b.mem s.p)
    if b.mem s.q ≠ slash ∧ b.mem s.q ≠ 0 then copyElem fuel { s with b := b, p := s.p + 1, q := s.q + 1 }
    else { s with b := b }

/-- `*q++ = c`. -/
def Cur.push (s : Cur) (c : UInt8) : Cur := { s with b := s.b.put s.q c, q := s.q + 1 }

/-- The element `..`. -/
def up (rooted : Bool) (s : Cur) : Cur :=
  let s : Cur := { s with p := s.p + 2 }
  let s : Cur :=
    if s.q > s.dotdot then { s with q := back s.b.mem s.dotdot s.q }
    else if !rooted then
      let s : Cur := if s.q ≠ 0 then s.push slash else s
      let s : Cur := (s.push dot).push dot
      { s with dotdot := s.q }
    else s
  if s.q = 0 then { s with erasedPrefix := true } else s

/-- A real element. -/
def real (rooted : Bool) (fuel : Nat) (s : Cur) : Cur :=
  copyElem fuel (if s.q ≠ rooted.toNat then s.push slash else s)

/-- One turn of the loop of `cleanname`. -/
def turn (rooted : Bool) (fuel : Nat) (s : Cur) : Cur :=
  let c (i : Nat) : UInt8 := s.b.mem (s.p + i)
  if c 0 = slash then { s with p := s.p + 1 }
  else if c 0 = dot ∧ sep (c 1) then { s with p := s.p + 1, erasedPrefix := s.erasedPrefix || s.p == 0 }
  else if c 0 = dot ∧ c 1 = dot ∧ sep (c 2) then up rooted s
  else real rooted fuel s

def loop (rooted : Bool) : Nat → Cur → Cur
  | 0, s => s
  | fuel + 1, s => if s.b.mem s.p = 0 then s else loop rooted fuel (turn rooted (fuel + 2) s)

def strlen (mem : ByteMem) : Nat → Nat → Nat
  | 0, i => i
  | fuel + 1, i => if mem i = 0 then i else strlen mem fuel (i + 1)

/-- `memmove(name + d, name, n)`. -/
def Buf.shift (b : Buf) (d n : Nat) : Buf where
  mem i := if d ≤ i ∧ i < d + n then b.mem (i - d) else b.mem i
  hi := max b.hi (d + n)

/-- `cleanname` of what stands at the start of the buffer, whose length bounds the loops. -/
def cleanname (length : Nat) (mem : ByteMem) : Buf :=
  let rooted := mem 0 == slash
  let start := rooted.toNat
  let s := loop rooted length ⟨⟨mem, 0⟩, start, start, start, false⟩
  let s := if s.q = 0 then s.push dot else s
  let b := s.b.put s.q 0
  if s.erasedPrefix ∧ b.mem 0 = hash then
    ((b.shift 2 (strlen b.mem (length + 1) 0 + 1)).put 0 dot).put 1 slash
  else b

/-- An element of a name, and whether the name starts with it. -/
abbrev Elem := List UInt8 × Bool

/-- The elements that are kept, the last one first: a `..` takes off the nearest real element, or is kept itself in a
name that does not start at the root. -/
def keep (rooted : Bool) (kept : List Elem) (e : Elem) : List Elem :=
  if e.1 = [] ∨ e.1 = [dot] then kept
  else if e.1 = [dot, dot] then
    match kept with
    | [] => if rooted then [] else [e]
    | top :: rest => if top.1 = [dot, dot] then e :: top :: rest else rest
  else e :: kept

/-- The elements of a name. -/
def elems (first : Bool) (name : List UInt8) : List Elem :=
  match name.splitOn slash with
  | [] => []
  | e :: es => (e, first) :: es.map (·, false)

def rootedName (name : List UInt8) : Bool := name.head? == some slash

def keptElems (name : List UInt8) : List Elem := (elems true name).foldl (keep (rootedName name)) []

/-- Kept elements as a name. -/
def text (rooted : Bool) (kept : List Elem) : List UInt8 :=
  (if rooted then [slash] else []) ++ [slash].intercalate (kept.reverse.map Prod.fst)

/-- The name without `./` before it. -/
def bareName (name : List UInt8) : List UInt8 :=
  let clean := text (rootedName name) (keptElems name)
  if clean = [] then [dot] else clean

/-- The lexical normal form: an unrooted name gets `./` where it would begin with `#` and its first element is another
one than before. -/
def normal (name : List UInt8) : List UInt8 :=
  if !rootedName name ∧ (bareName name).head? = some hash ∧ (keptElems name).getLast?.all (!·.2) then
    dot :: slash :: bareName name
  else bareName name

/-- The same with `./` only where the name did not begin with `#`. -/
def normalByName (name : List UInt8) : List UInt8 :=
  if !rootedName name ∧ (bareName name).head? = some hash ∧ name.head? ≠ some hash then
    dot :: slash :: bareName name
  else bareName name

/-- The buffer holds a name and its terminator. -/
def Named (mem : ByteMem) (name : List UInt8) : Prop := ∀ i c, (name ++ [0])[i]? = some c → mem i = c

end Inferno.Lib9
