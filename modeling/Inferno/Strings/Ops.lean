import Inferno.Strings.Heap

namespace Inferno.Strings

open Lib

def utfmax : Nat := 4
def runeself : Int := 0x80
def runeerror : Nat := 0xFFFD
def runemax : Nat := 0x10FFFF

/-- `T(i)` of `rune.c`, a byte with `i` leading ones, and `RuneX(i)`, the largest rune of `i` bytes. -/
def leading (i : Nat) : Nat := 256 - 2 ^ (8 - i)
def runeX (i : Nat) : Nat := 2 ^ (7 - i + (i - 1) * 6) - 1

/-- The loop of `chartorune`: `l` are the bits of the first `i` bytes. The rune and its bytes. -/
def chartoruneLoop (str : ByteMem) : Nat → Nat → Nat → Nat × Nat
  | 0, _, _ => (runeerror, 1)
  | fuel + 1, i, l =>
    let c₀ := (str 0).toNat
    let c := (str i).toNat ^^^ 0x80
    if c &&& 0xC0 ≠ 0 then (runeerror, 1)
    else
      let l := l <<< 6 ||| c
      if c₀ < leading (i + 2) then
        let l := l &&& runeX (i + 1)
        if i = 1 ∧ (c₀ < leading 2 ∨ l ≤ runeX 0) then (runeerror, 1)
        else if i ≠ 1 ∧ (l ≤ runeX i ∨ l > runemax) then (runeerror, 1)
        else if i = 2 ∧ 0xD800 ≤ l ∧ l ≤ 0xDFFF then (runeerror, 1)
        else (l, i + 1)
      else chartoruneLoop str fuel (i + 1) l

def chartorune (str : ByteMem) : Nat × Nat :=
  let c := (str 0).toNat
  if c < 0x80 then (c, 1) else chartoruneLoop str (utfmax - 1) 1 c

def fullrune (str : ByteMem) (n : Nat) : Bool :=
  let c := (str 0).toNat
  if n = 0 then false
  else if c < 0x80 then true
  else if c < leading 3 then n ≥ 2
  else if c < leading 4 then n ≥ 3
  else n ≥ utfmax

/-- `c2string` counts the runes between `p` and `ecs`, up to one that is not complete. -/
def countRunes (cs : ByteMem) (ecs : Nat) : Nat → Nat → Nat
  | 0, _ => 0
  | fuel + 1, p =>
    let str : ByteMem := fun i => cs (p + i)
    if p ≥ ecs then 0
    else if (cs p).toNat < 0x80 then countRunes cs ecs fuel (p + 1) + 1
    else if p + utfmax ≤ ecs ∨ fullrune str (ecs - p) then countRunes cs ecs fuel (p + (chartorune str).2) + 1
    else 0

/-- The runes that `c2string` then decodes. -/
def decodeRunes : Nat → ByteMem → List Nat
  | 0, _ => []
  | nc + 1, cs => (chartorune cs).1 :: decodeRunes nc fun i => cs ((chartorune cs).2 + i)

def ofBytes (bytes : List UInt8) : ByteMem := fun i => bytes.getD i 0

/-- The runes of a text, `none` when it is ASCII. -/
def runeCount (bytes : List UInt8) : Option Nat :=
  match bytes.findIdx? (fun b => b.toNat ≥ 0x80) with
  | none => none
  | some p => some (p + countRunes (ofBytes bytes) bytes.length bytes.length p)

section Alloc

variable (pool : Nat → Nat → Option Block)

/-- A new ASCII string, filled. -/
def fillString (bytes : List UInt8) : M Nat := do
  let p ← newstring pool bytes.length
  store p 0 bytes
  return p

/-- A new string of `nr` runes, filled. -/
def fillRunes (nr : Nat) (runes : List Nat) : M Nat := do
  let p ← newrunes pool nr
  storeRunes p 0 runes
  return p

def c2string (cs : List UInt8) : M Nat :=
  match runeCount cs with
  | none => fillString pool cs
  | some nc => fillRunes pool nc (decodeRunes nc (ofBytes cs))

/-- `insc` where the string has runes, `l` of them: the rune `r` at `v`. -/
def inscRune (p l v : Nat) (r : Int) : M Nat := do
  let x ← load p
  if v < l then
    storeRunes p v [u32 r]
    return p
  if v = l ∧ v < x.max then
    setHeader p (-(v + 1)) x.max
    storeRunes p v [u32 r]
    return p
  if v ≠ l then throw exBounds
  let q ← newstring pool (int (u32 (v + 1 + v / 4) * sizeofRune))
  memmove q 0 p 0 (l * sizeofRune)
  storeRunes q v [u32 r]
  let y ← load q
  setHeader q (-(v + 1)) (sizeT y.max / sizeofRune)
  return q

/-- `insc` where the string is ASCII, of length `l`. -/
def inscAscii (p l v : Nat) (r : Int) : M Nat := do
  let x ← load p
  if v < l then
    store p v [UInt8.ofNat (u32 r)]
    return p
  if v = l ∧ v < x.max then
    setHeader p (v + 1) x.max
    store p v [UInt8.ofNat (u32 r)]
    return p
  if v ≠ l then throw exBounds
  let q ← newstring pool (int (u32 (v + 1 + v / 4)))
  memmove q 0 p 0 l
  store q v [UInt8.ofNat (u32 r)]
  let y ← load q
  setHeader q (v + 1) y.max
  return q

/-- The string that `insc` stores in, before the index is looked at. -/
def inscTarget (d : Nat) (expand : Bool) : M Nat := do
  match ← slot d with
  | none =>
    let p ← newstring pool 0
    let x ← load p
    if expand then setHeader p x.len (sizeT x.max / sizeofRune)
    return p
  | some p =>
    let x ← load p
    if x.ref > 1 ∨ (expand ∧ x.len > 0) then splitc pool d p expand else return p

def insc (d : Nat) (m r : Int) : M Unit := do
  let v := u32 m
  let expand := decide (r ≥ runeself)
  let p ← inscTarget pool d expand
  let x ← load p
  let q ← if x.len < 0 ∨ expand then inscRune pool p (-x.len).toNat v r
    else inscAscii pool p x.len.toNat v r
  let old ← slot d
  if old ≠ some q then
    destroy old
    setSlot d (some q)

def slicer (start v : Nat) : Option Nat → M (Option Nat)
  | none => if start = 0 ∧ v = 0 then return none else throw exBounds
  | some p => do
    let x ← load p
    let nc : Int := u32 ((v : Int) - start)
    if x.len < 0 then
      if v < start ∨ (v : Int) > -x.len then throw exBounds
      if nc = 0 then return none
      let q ← newrunes pool (int nc)
      memmove q 0 p (start * sizeofRune) (nc * sizeofRune).toNat
      return some q
    if v < start ∨ (v : Int) > x.len then throw exBounds
    if nc = 0 then return none
    let q ← newstring pool (int nc)
    memmove q 0 p start nc.toNat
    return some q

/-- The string to which `addstring` copies: `p` itself, or one of `new` with the characters of `p`. -/
def addTarget (inPlace : Bool) (p : Nat) (new : M Nat) (bytes : Nat) : M Nat := do
  if inPlace then return p
  let q ← new
  memmove q 0 p 0 bytes
  return q

/-- The `l` runes of `n` are counted and those from `l₁` on are copied from `q`. -/
def appendRunes (n q l₁ : Nat) (l : Int) : M Unit := do
  let z ← load n
  setHeader n (-l) z.max
  let y ← load q
  if y.len < 0 then memmove n (l₁ * sizeofRune) q 0 (-y.len * sizeofRune).toNat
  else cvtup n l₁ q

def appendAscii (n q l₁ : Nat) (l : Int) : M Unit := do
  let z ← load n
  setHeader n l z.max
  let y ← load q
  memmove n l₁ q 0 y.len.toNat

/-- The characters that `addstring` asks for. -/
def addRoom (append : Bool) (l : Int) : Int := if append then l + l / 4 else l

/-- `addstring` of two strings, neither of them nil. -/
def addPair (p q : Nat) (append : Bool) : M Nat := do
  let x ← load p
  let y ← load q
  if x.len < 0 then
    let l₁ := (-x.len).toNat
    let l : Int := if y.len < 0 then l₁ - y.len else l₁ + y.len
    let n ← addTarget (append && l ≤ x.max) p (newrunes pool (int (addRoom append l))) (l₁ * sizeofRune)
    appendRunes n q l₁ l
    return n
  if y.len < 0 then
    let l₂ := (-y.len).toNat
    let l := x.len + l₂
    let n ← newrunes pool (int (addRoom append l))
    let z ← load n
    setHeader n (-l) z.max
    cvtup n 0 p
    memmove n (x.len.toNat * sizeofRune) q 0 (l₂ * sizeofRune)
    return n
  let l₁ := x.len.toNat
  let l := l₁ + y.len
  let n ← addTarget (append && l ≤ x.max) p (newstring pool (int (addRoom append l))) l₁
  appendAscii n q l₁ l
  return n

def addstring (s₁ s₂ : Option Nat) (append : Bool) : M (Option Nat) := do
  match s₁, s₂ with
  | none, none => return none
  | none, some q => some <$> stringdup pool q
  | some p, s₂ =>
    let x ← load p
    let append := append && !decide (x.ref > 1)
    match s₂ with
    | none => if append then return some p else some <$> stringdup pool p
    | some q => some <$> addPair pool p q append

/-- The pointer `p` replaces the one in the slot `d`. -/
def assign (d : Nat) (p : Option Nat) : M Unit := do
  destroy (← slot d)
  setSlot d p

def slicec (d : Nat) (start v : Int) : M Unit := do
  let p ← slicer pool (u32 start) (u32 v) (← slot d)
  assign d p

def addc (d m s : Nat) : M Unit := do
  let p ← addstring pool (← slot m) (← slot s) (m == d)
  if p ≠ (← slot d) then assign d p

def cvtac (d : Nat) (a : Option (List UInt8)) : M Unit := do
  match a with
  | none => assign d none
  | some bytes => assign d (some (← c2string pool bytes))

def movp (d s : Nat) : M Unit := do
  let p ← slot s
  match p with
  | none => pure ()
  | some p => modify fun t => t.change p (fun _ => false) fun x => { x with ref := x.ref + 1 }
  let old ← slot d
  setSlot d p
  destroy old

end Alloc

end Inferno.Strings
