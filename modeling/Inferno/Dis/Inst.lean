import Inferno.Dis.Operand

namespace Inferno.Dis

/-- The addressing modes of `limbo.h`. -/
inductive AMode
  | imm | mp | mpind | fp | fpind | pc | desc | off | noff | err | none | ldt
deriving DecidableEq

/-- Limbo's `InstAddr`; `iface` is `decl->iface->offset`. -/
structure InstAddr where
  reg : Int
  offset : Int
  iface : Int

/-- Limbo's `Inst`. -/
structure Inst where
  op : Nat
  sm : AMode
  mm : AMode
  dm : AMode
  s : InstAddr
  m : InstAddr
  d : InstAddr

/-- `INOOP` is `MAXDIS+2`. -/
def inoop : Nat := 177

/-- The table `dismode`. -/
def AMode.dismode : AMode → Nat
  | .mp => 0x00
  | .fp => 0x01
  | .mpind => 0x04
  | .fpind => 0x05
  | .err | .none => 0x03
  | .imm | .pc | .desc | .off | .noff | .ldt => 0x02

/-- The table `disregmode`. -/
def AMode.disregmode : AMode → Nat
  | .fp => 0x80
  | .mp => 0xC0
  | .mpind | .fpind | .err | .none => 0x00
  | .imm | .pc | .desc | .off | .noff | .ldt => 0x40

/-- `disbcon` is `discon` into the instruction buffer. -/
def disbcon (val : Int) : Option (List UInt8) := discon val

/-- What is written for a constant has one, two or four bytes, and `operand` reads it back and nothing more. -/
def RoundTrips (con : Int → Option (List UInt8)) (v : Int) : Prop :=
  ∀ bytes, con v = some bytes → (bytes.length = 1 ∨ bytes.length = 2 ∨ bytes.length = 4) ∧
    ∀ rest, operand (bytes ++ rest) = some (v, rest)

theorem length_of_discon {v : Int} {bytes : List UInt8} (written : discon v = some bytes) :
    bytes.length = 1 ∨ bytes.length = 2 ∨ bytes.length = 4 := by
  unfold discon at written
  split_ifs at written
  · cases written
    exact Or.inl rfl
  · cases written
    exact Or.inr (Or.inl rfl)
  · cases written
    exact Or.inr (Or.inr rfl)

/-- A constant whose bits 29 to 31 are the sign of a number of 30 bits is written though it has more. -/
theorem discon_far {v : Int} (far : v < -2 ^ 29) (bits : v / 2 ^ 29 % 8 = 7) : ∃ bytes, discon v = some bytes := by
  unfold discon
  rw [if_neg (by omega), if_neg (by omega), if_neg (by omega)]
  exact ⟨_, rfl⟩

/-- Both writers stop at what `operand` cannot give back but for numbers below -2^29 with the bits 29 to 31 set. -/
theorem constants_exact (v : Int) :
    RoundTrips discon v ∧ RoundTrips disbcon v ↔ (v < -2 ^ 29 → v / 2 ^ 29 % 8 ≠ 7) := by
  refine ⟨fun both far bits => ?_, fun near => and_self_iff.mpr fun bytes written => ?_⟩
  · obtain ⟨bytes, written⟩ := discon_far far bits
    have back := (both.1 bytes written).2 []
    rw [operand_discon_bmod written, Option.some.injEq, Prod.mk.injEq] at back
    have low := (bmod30_of_discon written).mp back.1
    omega
  · refine ⟨length_of_discon written, fun rest => ?_⟩
    rw [operand_discon_bmod written, (bmod30_of_discon written).mpr ?_]
    by_contra far
    unfold discon at written
    rw [if_neg (by omega), if_neg (by omega), if_pos (Or.inl ⟨by omega, near (by omega)⟩)] at written
    nomatch written

/-- The number -2^33 - 1 is written as -1 is in four bytes. -/
theorem constants_lost : ¬(RoundTrips discon (-2 ^ 33 - 1) ∧ RoundTrips disbcon (-2 ^ 33 - 1)) := by
  intro both
  have back := (both.1 [0xFF, 0xFF, 0xFF, 0xFF] (by decide)).2 []
  exact absurd back (by decide)

def disaddr (m : AMode) (a : InstAddr) : Option (List UInt8) :=
  match m with
  | .none | .err => disbcon 0
  | .imm | .pc | .desc => disbcon a.offset
  | .off => disbcon a.iface
  | .noff => disbcon (-(a.iface + 1))
  | .fp | .mp | .ldt => disbcon a.reg
  | .fpind | .mpind => do
    let reg ← disbcon a.reg
    let offset ← disbcon a.offset
    return reg ++ offset

def Inst.add (i : Inst) : Nat := i.sm.dismode <<< 3 ||| i.dm.dismode ||| i.mm.disregmode

/-- An operand with mode `Anone` is not written. -/
def disopnd (m : AMode) (a : InstAddr) : Option (List UInt8) :=
  if m = .none then some [] else disaddr m a

/-- One turn of the loop in `disinst`. -/
def disinst1 (i : Inst) : Option (List UInt8) := do
  let m ← disopnd i.mm i.m
  let s ← disopnd i.sm i.s
  let d ← disopnd i.dm i.d
  return UInt8.ofNat i.op :: UInt8.ofNat i.add :: (m ++ (s ++ d))

def disinst : List Inst → Option (List UInt8)
  | [] => some []
  | i :: rest =>
    if i.op = inoop then disinst rest
    else do
      let bytes ← disinst1 i
      let more ← disinst rest
      return bytes ++ more

/-- The loader's `Adr`. `ins` is the pointer `brpatch` puts in. -/
inductive Adr
  | ind (v : Int)
  | i (f s : Nat)
  | ins (k : Nat)
deriving DecidableEq

/-- The loader's `Inst`; `reg` is a `ushort`. -/
structure ProgInst where
  op : Nat
  add : Nat
  reg : Nat
  s : Adr
  d : Adr
deriving DecidableEq

/-- The opcodes `brpatch` lists: `ICALL`, `ISPAWN`, `IJMP` and the branches. -/
def isBranch (op : Nat) : Bool :=
  op == 4 || op == 6 || op == 13 || (87 ≤ op && op ≤ 110) || (129 ≤ op && op ≤ 134)

/-- `brpatch`. `none` is "bad branch addr". -/
def brpatch (nprog : Int) (op : Nat) (v : Int) : Option Adr :=
  if isBranch op then if v < 0 ∨ nprog ≤ v then none else some (.ins v.toNat) else some (.ind v)

def ushort (v : Int) : Nat := (v % 2 ^ 16).toNat

def parseInd (istream : List UInt8) : Option (Adr × List UInt8) := do
  let (v, istream) ← operand istream
  return (.ind v, istream)

def parseIndirect (istream : List UInt8) : Option (Adr × List UInt8) := do
  let (f, istream) ← operand istream
  let (s, istream) ← operand istream
  return (.i (ushort f) (ushort s), istream)

/-- The switch on `UXSRC(ip->add)`. -/
def parseSrc (mode : Nat) (istream : List UInt8) : Option (Adr × List UInt8) :=
  match mode with
  | 0 | 1 | 2 => parseInd istream
  | 4 | 5 => parseIndirect istream
  | _ => some (.ind 0, istream)

/-- The switch on `UXDST(ip->add)`. -/
def parseDst (nprog : Int) (op mode : Nat) (istream : List UInt8) : Option (Adr × List UInt8) :=
  match mode with
  | 0 | 1 => parseInd istream
  | 2 => do
    let (v, istream) ← operand istream
    let d ← brpatch nprog op v
    return (d, istream)
  | 4 | 5 => parseIndirect istream
  | _ => some (.ind 0, istream)

/-- The switch on `ip->add & ARM`. -/
def parseReg (arm : Nat) (istream : List UInt8) : Option (Nat × List UInt8) :=
  if arm = 0 then some (0, istream)
  else do
    let (v, istream) ← operand istream
    return (ushort v, istream)

/-- One turn of the instruction loop of `parsemod`. -/
def parseInst (nprog : Int) : List UInt8 → Option (ProgInst × List UInt8)
  | op :: add :: istream => do
    let (reg, istream) ← parseReg (add.toNat &&& 0xC0) istream
    let (s, istream) ← parseSrc (add.toNat >>> 3 &&& 7) istream
    let (d, istream) ← parseDst nprog op.toNat (add.toNat &&& 7) istream
    return (⟨op.toNat, add.toNat, reg, s, d⟩, istream)
  | _ => none

def parseProg (nprog : Int) : Nat → List UInt8 → Option (List ProgInst × List UInt8)
  | 0, istream => some ([], istream)
  | n + 1, istream => do
    let (ip, istream) ← parseInst nprog istream
    let (prog, istream) ← parseProg nprog n istream
    return (ip :: prog, istream)

/-- An operand as the VM uses it: a constant, an offset in the module data or
the frame, an indirection through one of them, or an instruction. -/
inductive Opnd
  | none
  | imm (v : Int)
  | mp (off : Int)
  | fp (off : Int)
  | mpind (f s : Int)
  | fpind (f s : Int)
  | ins (k : Nat)
deriving DecidableEq

/-- What the compiler means by a mode and an address. -/
def AMode.opnd (m : AMode) (a : InstAddr) : Opnd :=
  match m with
  | .imm | .pc | .desc => .imm a.offset
  | .off => .imm a.iface
  | .noff => .imm (-(a.iface + 1))
  | .ldt => .imm a.reg
  | .fp => .fp a.reg
  | .mp => .mp a.reg
  | .fpind => .fpind a.reg a.offset
  | .mpind => .mpind a.reg a.offset
  | .none | .err => .none

def Inst.src (i : Inst) : Opnd := i.sm.opnd i.s
def Inst.mid (i : Inst) : Opnd := i.mm.opnd i.m

/-- The constant destination of a branch is an instruction. -/
def Opnd.target (op : Nat) : Opnd → Opnd
  | .imm v => if isBranch op then .ins v.toNat else .imm v
  | o => o

def Inst.dst (i : Inst) : Opnd := (i.dm.opnd i.d).target i.op

/-- The operand decoders of `dec.c`, by mode. -/
def Adr.opnd (mode : Nat) (a : Adr) : Opnd :=
  match mode, a with
  | 0, .ind v => .mp v
  | 1, .ind v => .fp v
  | 2, .ind v => .imm v
  | 2, .ins k => .ins k
  | 4, .i f s => .mpind f s
  | 5, .i f s => .fpind f s
  | _, _ => .none

def ProgInst.src (ip : ProgInst) : Opnd := ip.s.opnd (ip.add >>> 3 &&& 7)
def ProgInst.dst (ip : ProgInst) : Opnd := ip.d.opnd (ip.add &&& 7)

/-- `R.t = (short)R.PC->reg` for a constant, `R.PC->reg` as an offset. -/
def ProgInst.mid (ip : ProgInst) : Opnd :=
  match ip.add &&& 0xC0 with
  | 0x40 => .imm ((ip.reg : Int).bmod (2 ^ 16))
  | 0x80 => .fp ip.reg
  | 0xC0 => .mp ip.reg
  | _ => .none

/-- The loaded instruction is the compiled one. -/
structure ProgInst.Same (ip : ProgInst) (i : Inst) : Prop where
  op : ip.op = i.op
  src : ip.src = i.src
  mid : ip.mid = i.mid
  dst : ip.dst = i.dst

/-- The two offsets of an indirection are below `MaxReg`. -/
def AMode.Resolved (m : AMode) (a : InstAddr) : Prop :=
  m ≠ .err ∧ (m = .fpind ∨ m = .mpind →
    0 ≤ a.reg ∧ a.reg < 2 ^ 16 ∧ 0 ≤ a.offset ∧ a.offset < 2 ^ 16)

/-- The middle operands that `resolvepcs` leaves in place. -/
def AMode.MidResolved (m : AMode) (a : InstAddr) : Prop :=
  match m with
  | .none => True
  | .imm | .pc | .desc => -0x8000 ≤ a.offset ∧ a.offset ≤ 0x7fff
  | .off | .noff => -0x8000 ≤ a.iface ∧ a.iface ≤ 0x7fff
  | .fp | .mp | .ldt => 0 ≤ a.reg ∧ a.reg ≤ 0x7fff
  | .fpind | .mpind | .err => False

/-- An instruction of a list that went through `resolvepcs`: opcodes are bytes,
large operands are rewritten or fatal, and branches lead to instructions. -/
structure Inst.Resolved (nprog : Nat) (i : Inst) : Prop where
  op : i.op < 2 ^ 8
  src : i.sm.Resolved i.s
  mid : i.mm.MidResolved i.m
  dst : i.dm.Resolved i.d
  branch : ∀ v, i.dm.opnd i.d = .imm v → isBranch i.op = true → 0 ≤ v ∧ v < nprog

/-- The 30 bits of a constant in the file hold the operand. -/
def Opnd.Fits : Opnd → Prop
  | .imm v | .fp v | .mp v => -2 ^ 29 ≤ v
  | _ => True

instance (o : Opnd) : Decidable o.Fits := by
  cases o <;> unfold Opnd.Fits <;> infer_instance

def Inst.Fits (i : Inst) : Prop := i.src.Fits ∧ (i.dm.opnd i.d).Fits

end Inferno.Dis
