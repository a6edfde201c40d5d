import Inferno.Json.Value
import Inferno.Lib.Raise
import Inferno.Lib9.Ifmt
import Inferno.Strings.Utf

namespace Inferno.Json

open Lib

def chars (s : String) : Chars := s.toList.map Char.toNat

def EOF : Int := -1
def ERROR : Int := -2

/-- An `Iobuf` as its reader sees it: the characters read, the last one first, and those that `getc` gives yet; after
them it gives `stop`, and `%r` is `errstr`. -/
structure Iobuf where
  past : Chars
  next : Chars
  stop : Int
  errstr : Chars
  ends : stop = EOF ∨ stop = ERROR

def Iobuf.offset (b : Iobuf) : Nat := Strings.runenlen b.past

structure Parse where
  input : Iobuf
  eof : Int

/-- `Syntax`; or nothing is raised, but the steps allowed for a loop are used up. -/
inductive Raise
  | malformed (e : Chars)
  | steps

abbrev Reader := EStateM Raise Parse

namespace Parse

def getc : Reader Int := fun p =>
  if p.eof ≠ 0 then .ok p.eof p
  else match p.input.next with
    | [] => .ok p.input.stop { p with eof := p.input.stop }
    | c :: next => .ok c { p with input := { p.input with past := c :: p.input.past, next := next } }

def unget (c : Int) : Reader Unit := fun p =>
  if 0 ≤ c then match p.input.past with
    | [] => .ok () p
    | c :: past => .ok () { p with input := { p.input with past := past, next := c :: p.input.next } }
  else .ok () p

end Parse

open Parse

def isspace (c : Int) : Bool := c = 0x20 ∨ c = 0x09 ∨ c = 0x0A ∨ c = 0x0D

def isdigit (c : Int) : Bool := 0x30 ≤ c ∧ c ≤ 0x39

def islower (c : Int) : Bool := 0x61 ≤ c ∧ c ≤ 0x7A

/-- The loops that read while `ok` holds: what they read, and the character that ends them. -/
def span (ok : Int → Bool) : Nat → Reader (Chars × Int)
  | 0 => throw .steps
  | steps + 1 => do
    let c ← getc
    if ok c then
      let (s, last) ← span ok steps
      return (c.toNat :: s, last)
    else return ([], c)

def getns (steps : Nat) : Reader Int := do
  let (_, c) ← span isspace steps
  return c

def raise {α : Type} (e : Chars) : Reader α := throw (.malformed e)

def readerror {α : Type} : Reader α := do raise (chars "read error: " ++ (← get).input.errstr)

def readdigits (steps : Nat) : Reader Chars := do
  let c ← getc
  if !isdigit c then raise (chars "expected integer literal")
  else
    let (s, last) ← span isdigit steps
    unget last
    return c.toNat :: s

def hex (c : Int) : Reader Nat :=
  if 0x30 ≤ c ∧ c ≤ 0x39 then return (c - 0x30).toNat
  else if 0x61 ≤ c ∧ c ≤ 0x66 then return 10 + (c - 0x61).toNat
  else if 0x41 ≤ c ∧ c ≤ 0x46 then return 10 + (c - 0x41).toNat
  else raise (chars "invalid hex digit")

/-- The digits after `\u`. -/
def hexes : Nat → Nat → Reader Nat
  | 0, c => return c
  | n + 1, c => do
    let h ← hex (← getc)
    hexes n (c <<< 4 ||| h)

/-- The character that `c` after a backslash stands for. -/
def escape (c : Int) : Reader Nat :=
  if c = 0x62 then return 0x08
  else if c = 0x66 then return 0x0C
  else if c = 0x6E then return 0x0A
  else if c = 0x72 then return 0x0D
  else if c = 0x74 then return 0x09
  else if c = 0x75 then hexes 4 0
  else return c.toNat

def unterminated (c : Int) : Reader Chars := if c = ERROR then readerror else raise (chars "unterminated string")

def readstring (delim : Int) : Nat → Reader Chars
  | 0 => throw .steps
  | steps + 1 => do
    let c ← getc
    if c = delim then return []
    else if c < 0 then unterminated c
    else if c = 0x5C then
      let c ← getc
      if c < 0 then unterminated c
      else
        let c ← escape c
        return c :: (← readstring delim steps)
    else return c.toNat :: (← readstring delim steps)

/-- `big s`. -/
def big (s : Chars) : BitVec 64 :=
  let digits (s : Chars) : BitVec 64 := s.foldl (fun n c => n * 10 + BitVec.ofNat 64 (c - 0x30)) 0
  match s with
  | 0x2D :: s => -digits s
  | s => digits s

def decimal (n : Nat) : Chars := (Lib9.Ifmt.numeral .d n).map Char.toNat

/-- `%.4ux`. -/
def ux4 (c : Nat) : Chars :=
  let digits := (Lib9.Ifmt.numeral .x c).map Char.toNat
  List.replicate (4 - digits.length) 0x30 ++ digits

def readsign (c : Int) : Reader Chars :=
  if c = 0x2D then return [0x2D]
  else do
    unget c
    return []

/-- The digits of a fraction, and the character after the number. -/
def readfrac (steps : Nat) (c : Int) : Reader (Chars × Int) :=
  if c = 0x2E then do
    let fracp ← readdigits steps
    let c ← getc
    return (fracp, c)
  else return ([], c)

/-- The letter of an exponent, with a sign. -/
def readexpsign (e c : Int) : Reader Chars :=
  if c = 0x2D ∨ c = 0x2B then return [e.toNat, c.toNat]
  else do
    unget c
    return [e.toNat]

def readexp (steps : Nat) (e : Int) : Reader Chars :=
  if e = 0x65 ∨ e = 0x45 then do
    let c ← getc
    let exp ← readexpsign e c
    let digits ← readdigits steps
    return exp ++ digits
  else do
    unget e
    return []

/-- The loop `read` over what stands up to `close`, or nothing; with the character that ends it. -/
def unlessclosed {α : Type} (close : Int) (read : Reader (List α × Int)) (c : Int) : Reader (List α × Int) :=
  if c ≠ close then do
    unget c
    read
  else return ([], c)

section Read

variable (real : Chars → Real)

/-- A value that begins with the character `c`, a sign or a digit. -/
def readnumber (steps : Nat) (c : Int) : Reader Shape := do
  let sign ← readsign c
  let digits ← readdigits steps
  let c ← getc
  let (fracp, c) ← readfrac steps c
  let exp ← readexp steps c
  let intp := sign ++ digits
  if fracp ≠ [] ∨ exp ≠ [] then return .real (canon (real (intp ++ chars "." ++ fracp ++ exp)))
  else return .int (big intp)

/-- A value that begins with the letter `c`. -/
def readliteral (steps : Nat) (c : Int) : Reader Shape := do
  let (s, last) ← span islower steps
  unget last
  let s := c.toNat :: s
  if s = chars "true" then return .true
  else if s = chars "false" then return .false
  else if s = chars "null" then return .null
  else raise (chars "invalid literal: " ++ s)

mutual

/-- The value is described by its structure: all its references are new ones. -/
def readval : Nat → Reader Shape
  | 0 => throw .steps
  | steps + 1 => do
    let c ← getns steps
    if c < 0 then
      if c = EOF then raise (chars "unexpected end-of-input") else readerror
    else if c = 0x7B then
      let c ← getns steps
      let (l, c) ← unlessclosed 0x7D (readpairs steps) c
      if c ≠ 0x7D then raise (chars "missing '\x7d' at end of object") else return .object l
    else if c = 0x5B then
      let c ← getns steps
      let (a, c) ← unlessclosed 0x5D (readelems steps) c
      if c ≠ 0x5D then raise (chars "missing ']' at end of array") else return .array a
    else if c = 0x22 then return .string (← readstring c steps)
    else if c = 0x2D ∨ isdigit c then readnumber real steps c
    else if islower c then readliteral steps c
    else raise (chars "unexpected character #" ++ ux4 c.toNat)

/-- The loop over pairs, with the character that ends it. -/
def readpairs : Nat → Reader (List (Chars × Shape) × Int)
  | 0 => throw .steps
  | steps + 1 => do
    let c ← getns steps
    if c ≠ 0x22 then raise (chars "missing member name")
    else
      let name ← readstring c steps
      if (← getns steps) ≠ 0x3A then raise (chars "missing ':'")
      else
        let v ← readval steps
        let c ← getns steps
        if c = 0x2C then
          let (l, c) ← readpairs steps
          return ((name, v) :: l, c)
        else return ([(name, v)], c)

/-- The loop over elements, with the character that ends it. -/
def readelems : Nat → Reader (List Shape × Int)
  | 0 => throw .steps
  | steps + 1 => do
    let v ← readval steps
    let c ← getns steps
    if c = 0x2C then
      let (l, c) ← readelems steps
      return (v :: l, c)
    else return ([v], c)

end

/-- The value and the diagnostic, and how the input is left; none is that the steps are used up. -/
def readjson (input : Iobuf) : Option ((Option Shape × Option Chars) × Iobuf) :=
  let steps := 2 * input.next.length + 4
  let read : Reader (Option Shape) := do
    let c ← getns steps
    if c = EOF then return none
    else
      unget c
      return some (← readval real steps)
  match read ⟨input, 0⟩ with
  | .ok v p => some ((v, none), p.input)
  | .error (.malformed e) p =>
    some ((none, some (chars "JSON syntax error (offset " ++ decimal p.input.offset ++ chars "): " ++ e)), p.input)
  | .error .steps _ => none

end Read

def needesc (c : Nat) : Bool := c = 0x22 ∨ c = 0x5C ∨ c = 0x2F ∨ c ≤ 0x1F

def escout (c : Nat) : Chars :=
  if c = 0x22 then chars "\\\""
  else if c = 0x5C then chars "\\\\"
  else if c = 0x2F then chars "\\/"
  else if c = 0x08 then chars "\\b"
  else if c = 0x0C then chars "\\f"
  else if c = 0x0A then chars "\\n"
  else if c = 0x09 then chars "\\t"
  else if c = 0x0D then chars "\\r"
  else chars "\\u" ++ ux4 c

/-- `quote`, and what `writestring` writes. -/
def quote (s : Chars) : Chars := 0x22 :: s.flatMap (fun c => if needesc c then escout c else [c]) ++ [0x22]

/-- `string` of a big. -/
def bigtext (v : BitVec 64) : Chars := (if v.toInt < 0 then [0x2D] else []) ++ decimal v.toInt.natAbs

section Write

variable (realtext : Real → Chars) (comma colon : Chars)

mutual

/-- The text of a value with `comma` between its parts and `colon` after a label. -/
def JValue.render : JValue → Chars
  | .nil => chars "null"
  | .true _ => chars "true"
  | .false _ => chars "false"
  | .null _ => chars "null"
  | .int _ value => bigtext value
  | .real _ value => realtext value
  | .string _ s => quote s
  | .array _ a => 0x5B :: renderArray a ++ [0x5D]
  | .object _ mem => 0x7B :: renderObject mem ++ [0x7D]

def renderArray : List JValue → Chars
  | [] => []
  | v :: a => v.render ++ (if a.isEmpty then [] else comma) ++ renderArray a

def renderObject : List (Chars × JValue) → Chars
  | [] => []
  | p :: mem => renderPair p ++ (if mem.isEmpty then [] else comma) ++ renderObject mem

def renderPair : Chars × JValue → Chars
  | (n, v) => quote n ++ colon ++ v.render

end

/-- What `writejson` writes where the output takes it. -/
def writeval : JValue → Chars := JValue.render realtext (chars ",") (chars ":")

def JValue.text : JValue → Chars := JValue.render realtext (chars ", ") (chars ": ")

end Write

end Inferno.Json
