import Inferno.Strings.Utf

namespace Inferno.Sexprs

open Strings

/-- A Limbo string, by its characters; `nil` is the empty one. -/
abbrev Text := List Nat

/-- `ref Sexp`. -/
inductive Sexp
  | nil
  | string (s hint : Text)
  | binary (data : List UInt8) (hint : Text)
  | list (l : List Sexp)

/-- What is raised: a `Syntax`, the VM's "array bounds error", or nothing, where the steps allowed for a loop are used up. -/
inductive Err
  | malformed (diag : String) (pos : Int)
  | bounds
  | steps
deriving DecidableEq

/-- What `read` asks of its type: bytes, or something negative where there are no more. -/
class Source (τ : Type) where
  getb : EStateM Err τ Int
  ungetb : EStateM Err τ Unit
  offset : τ → Int
  getb_lt : ∀ {t t' c}, getb t = .ok c t' → c < 256

/-- An `Iobuf` of `bufio->aopen`. -/
structure Iobuf where
  buffer : List UInt8
  index : Int
  size : Int
  bufpos : Int
deriving DecidableEq

def Iobuf.aopen (b : List UInt8) : Iobuf := ⟨b, 0, b.length, 0⟩

/-- `getb`; there is nothing from which `readchunk` could fill it. -/
def Iobuf.getb : EStateM Err Iobuf Int := fun b =>
  if b.index = b.size then .ok (-1) { b with bufpos := b.bufpos + b.index, index := 0, size := 0 }
  else if b.index < 0 then .error .bounds b
  else
    match b.buffer[b.index.toNat]? with
    | none => .error .bounds b
    | some c => .ok c.toNat { b with index := b.index + 1 }

def Iobuf.ungetb : EStateM Err Iobuf Unit := fun b => .ok () { b with index := b.index - 1 }

def Iobuf.offset (b : Iobuf) : Int := b.bufpos + b.index

theorem Iobuf.getb_lt {b b' : Iobuf} {c : Int} (got : Iobuf.getb b = .ok c b') : c < 256 := by
  unfold Iobuf.getb at got
  split at got
  · cases got
    decide
  · split at got
    · nomatch got
    · split at got
      · nomatch got
      · rename_i byte _
        cases got
        have := byte.toNat_lt
        omega

instance : Source Iobuf := ⟨Iobuf.getb, Iobuf.ungetb, Iobuf.offset, Iobuf.getb_lt⟩

section Base

/-- `t64d`. -/
def t64d (c : Nat) : Nat :=
  if c = 0x2B then 62
  else if c = 0x2F then 63
  else if 0x30 ≤ c ∧ c ≤ 0x39 then c - 0x30 + 52
  else if 0x41 ≤ c ∧ c ≤ 0x5A then c - 0x41
  else if 0x61 ≤ c ∧ c ≤ 0x7A then c - 0x61 + 26
  else 255

/-- The loop of `base64->dec`. -/
def dec64 : Text → Nat → Nat → List UInt8
  | [], b24, i =>
    match i with
    | 2 => [UInt8.ofNat (b24 >>> 16)]
    | 3 => [UInt8.ofNat (b24 >>> 16), UInt8.ofNat (b24 >>> 8)]
    | _ => []
  | c :: s, b24, i =>
    if c > 0xFF ∨ t64d c = 255 then dec64 s b24 i
    else
      match i with
      | 0 => dec64 s (t64d c <<< 18) 1
      | 1 => dec64 s (b24 ||| t64d c <<< 12) 2
      | 2 => dec64 s (b24 ||| t64d c <<< 6) 3
      | _ =>
        let b24 := b24 ||| t64d c
        UInt8.ofNat (b24 >>> 16) :: UInt8.ofNat (b24 >>> 8) :: UInt8.ofNat b24 :: dec64 s b24 0

def hexdigit (c : Nat) : Option Nat :=
  if 0x30 ≤ c ∧ c ≤ 0x39 then some (c - 0x30)
  else if 0x41 ≤ c ∧ c ≤ 0x46 then some (c - 0x41 + 10)
  else if 0x61 ≤ c ∧ c ≤ 0x66 then some (c - 0x61 + 10)
  else none

/-- The loop of `base16->dec`, in which what is no digit shifts `n` too. -/
def dec16 : Text → Nat → Nat → List UInt8
  | [], _, _ => []
  | c :: s, n, j =>
    match hexdigit c with
    | none => dec16 s (n <<< 4) j
    | some d => if j + 1 = 2 then UInt8.ofNat (n <<< 4 ||| d) :: dec16 s 0 0 else dec16 s (n <<< 4 ||| d) (j + 1)

end Base

def Maxtoken : Nat := 1024 * 1024
def Here : Int := -1

def isspace (c : Int) : Bool := c = 0x20 ∨ c = 0x0D ∨ c = 0x09 ∨ c = 0x0A

def isdigit (c : Int) : Bool := 0x30 ≤ c ∧ c ≤ 0x39

def istokenc (c : Int) : Bool :=
  isdigit c ∨ 0x61 ≤ c ∧ c ≤ 0x7A ∨ 0x41 ≤ c ∧ c ≤ 0x5A ∨ c = 0x2D ∨ c = 0x2E ∨ c = 0x2F ∨ c = 0x5F ∨ c = 0x3A ∨ c = 0x2A ∨
    c = 0x2B ∨ c = 0x3D

def istextual (a : List UInt8) : Bool := a.all fun c => ¬((c.toNat < 0x20 ∧ ¬isspace c.toNat) ∨ c.toNat ≥ 0x7F)

def sform (a : List UInt8) (hint : Text) : Sexp := if istextual a then .string (runesOf a) hint else .binary a hint

def hex (c : Int) : Int :=
  if isdigit c then c - 0x30
  else if 0x61 ≤ c ∧ c ≤ 0x66 then 10 + (c - 0x61)
  else if 0x41 ≤ c ∧ c ≤ 0x46 then 10 + (c - 0x41)
  else -1

namespace Rd

variable {τ : Type} [Source τ]

def getb : EStateM Err τ Int := Source.getb

def ungetb : EStateM Err τ Unit := Source.ungetb

def offset : EStateM Err τ Int := return Source.offset (← get)

def raise {α : Type} (diag : String) (pos : Int) : EStateM Err τ α := throw (.malformed diag pos)

def ws : Nat → EStateM Err τ Int
  | 0 => throw .steps
  | n + 1 => do
    let c ← getb
    if isspace c then ws n else return c

/-- The loop of `toclosing`; `s` are the characters before it. -/
def toclosingfrom (end_ p0 : Int) : Nat → EStateM Err τ Text
  | 0 => throw .steps
  | n + 1 => do
    let c ← getb
    if c = end_ then return []
    if c < 0 then raise ("missing closing '" ++ String.singleton (Char.ofNat end_.toNat) ++ "'") p0
    return c.toNat :: (← toclosingfrom end_ p0 n)

def toclosing (steps : Nat) (end_ : Int) : EStateM Err τ Text := do
  let p0 ← offset
  toclosingfrom end_ p0 steps

/-- An octal escape from its digit `c` on; `i` more may follow. -/
def octal (e0 : Int) : Nat → Int → Nat → EStateM Err τ Nat
  | 0, c, oct => do
    if ¬(0x30 ≤ c ∧ c ≤ 0x37) then raise "illegal octal escape" e0
    return oct <<< 3 ||| (c - 0x30).toNat
  | i + 1, c, oct => do
    if ¬(0x30 ≤ c ∧ c ≤ 0x37) then raise "illegal octal escape" e0
    octal e0 i (← getb) (oct <<< 3 ||| (c - 0x30).toNat)

/-- What follows a backslash: `none` if it stands for no character, and a negative one for the break. -/
def escape : EStateM Err τ (Option Int) := do
  let e0 ← offset
  let c ← getb
  if c < 0 then return some c
  match c with
  | 0x0D => do
    if (← getb) ≠ 0x0A then ungetb
    return none
  | 0x0A => do
    if (← getb) ≠ 0x0D then ungetb
    return none
  | 0x62 => return some 0x08
  | 0x66 => return some 0x0C
  | 0x6E => return some 0x0A
  | 0x72 => return some 0x0D
  | 0x74 => return some 0x09
  | 0x76 => return some 0x0B
  | 0x78 => do
    let c0 := hex (← getb)
    let c1 := hex (← getb)
    if c0 < 0 ∨ c1 < 0 then raise "illegal hex escape" e0
    return some (c0.toNat <<< 4 ||| c1.toNat : Nat)
  | c => if 0x30 ≤ c ∧ c ≤ 0x37 then return some (((← octal e0 2 c 0) &&& 0xFF : Nat) : Int) else return some c

def unquotefrom (p0 : Int) : Nat → EStateM Err τ Text
  | 0 => throw .steps
  | n + 1 => do
    let c ← getb
    if c = 0x22 then return []
    if c < 0 then raise "unclosed quoted string" p0
    if c = 0x5C then
      match ← escape with
      | none => unquotefrom p0 n
      | some c => if c < 0 then return [] else return c.toNat :: (← unquotefrom p0 n)
    else return c.toNat :: (← unquotefrom p0 n)

def unquote (steps : Nat) : EStateM Err τ Text := do
  let p0 ← offset
  unquotefrom p0 steps

/-- The loop over a token's first digits: the character after them, and what `dec` and `decs` become. -/
def digits : Nat → Int → Int64 → Text → EStateM Err τ (Int × Int64 × Text)
  | 0, _, _, _ => throw .steps
  | n + 1, c, dec, decs => do
    if isdigit c then digits n (← getb) (dec * 10 + Int64.ofInt c - 0x30) (decs ++ [c.toNat]) else return (c, dec, decs)

/-- The loop over raw bytes. -/
def raw : Nat → EStateM Err τ (List UInt8)
  | 0 => return []
  | n + 1 => do
    let c ← getb
    if c < 0 then raise "missing bytes in raw token" Here
    return UInt8.ofNat c.toNat :: (← raw n)

/-- The loop over a token, with the character that ends it. -/
def token : Nat → Int → EStateM Err τ (Text × Int)
  | 0, _ => throw .steps
  | n + 1, c => do
    if istokenc c then
      let (s, e) ← token n (← getb)
      return (c.toNat :: s, e)
    else return ([], c)

/-- The decimal before a token: the character after it, and what `dec` and `decs` are by then. -/
def decimal (steps : Nat) (c : Int) : EStateM Err τ (Int × Int64 × Text) := do
  if isdigit c then
    let (c, dec, decs) ← digits steps c 0 []
    if dec < 0 ∨ dec.toInt > Maxtoken then raise "implausible token length" Here
    return (c, dec, decs)
  else return (c, -1, [])

def simplestring (steps : Nat) (c : Int) (hint : Text) : EStateM Err τ Sexp := do
  let (c, dec, decs) ← decimal steps c
  if c = 0x22 then return .string (← unquote steps) hint
  else if c = 0x7C then return sform (dec64 (← toclosing steps c) 0 0) hint
  else if c = 0x23 then return sform (dec16 (← toclosing steps c) 0 0) hint
  else if c = 0x3A ∧ dec ≥ 0 then return sform (← raw dec.toInt.toNat) hint
  else
    if decs ≠ [] then raise "token can't start with a digit" Here
    let (s, c) ← token steps c
    if s = [] then raise "missing token" Here
    if c ≥ 0 then ungetb
    return .string s hint

/-- The loop over a list's elements, with the parser of an item. -/
def items (item : EStateM Err τ Sexp) (p0 : Int) : Nat → EStateM Err τ (List Sexp)
  | 0 => throw .steps
  | n + 1 => do
    let c ← ws n
    if c = 0x29 then return []
    if c < 0 then raise "unclosed '('" p0
    ungetb
    let e ← item
    return e :: (← items item p0 n)

/-- A parser of something inside: it raises here what it raises there. -/
def inside {ρ : Type} (m : EStateM Err ρ Sexp) (r : ρ) : EStateM Err τ Sexp := fun t =>
  match m r with
  | .ok e _ => .ok e t
  | .error e _ => .error e t

end Rd

open Rd in
def parseitem : Nat → (τ : Type) → [Source τ] → EStateM Err τ Sexp
  | 0, _, _ => throw .steps
  | n + 1, τ, _ => do
    let p0 ← offset
    let c ← ws n
    if c < 0 then return .nil
    if c = 0x7B then
      let a ← toclosing n 0x7D
      inside (parseitem n Iobuf) (Iobuf.aopen (dec64 a 0 0))
    else if c = 0x28 then return .list (← items (parseitem n τ) p0 n)
    else if c = 0x5B then
      let e ← simplestring n (← getb) []
      let c ← ws n
      if c ≠ 0x5D then
        if c ≥ 0 then ungetb
        raise "missing ] in display hint" p0
      match e with
      | .string s _ => simplestring n (← ws n) s
      | _ => raise "illegal display hint" Here
    else simplestring n c []

/-- `read`: an expression or a diagnostic, and the source after it. `none` where something else is raised, or the steps are used up. -/
def Sexp.read {τ : Type} [Source τ] (steps : Nat) (t : τ) : Option ((Sexp ⊕ String) × τ) :=
  match parseitem steps τ t with
  | .ok e t => some (.inl e, t)
  | .error (.malformed diag pos) t =>
    let pos := if pos < 0 then pos + Source.offset t else pos
    some (.inr (diag ++ " at offset " ++ toString pos), t)
  | .error _ _ => none

/-- `unpack`: what was read, and the bytes after it. -/
def Sexp.unpack (steps : Nat) (a : List UInt8) : Option ((Sexp ⊕ String) × List UInt8) :=
  match read steps (Iobuf.aopen a) with
  | some (r, f) => some (r, a.drop f.offset.toNat)
  | none => none

end Inferno.Sexprs
