import Inferno.Dis.Operand

namespace Inferno.Dis

/-- A qualifier of an `exception` block: its kind (`Texception` or string),
the name `disexc` prints for it and the pc of its arm. -/
structure ExLabel where
  exc : Bool
  name : List UInt8
  pc : Nat
deriving DecidableEq

/-- Limbo's `Except`: the pcs `getpc` gives for `p1` and `p2`, whether `reach`
marked them, and the case. `matchcmp` sorts exceptions before strings. -/
structure Exc where
  reach1 : Bool
  reach2 : Bool
  offset : Nat
  pc1 : Nat
  pc2 : Nat
  desc : Option Nat
  labs : List ExLabel
  iwild : Option Nat
  sorted : labs.Pairwise fun a b => b.exc = true → a.exc = true

/-- `installexc` counts the qualifiers that are exceptions. -/
def Exc.ne (e : Exc) : Nat := e.labs.countP (·.exc)

def Exc.reach (e : Exc) : Bool := e.reach1 || e.reach2

/-- `Bprint(bout, "%s", ...)` stops at the first NUL. -/
def cname (name : List UInt8) : List UInt8 := name.takeWhile (· ≠ 0)

def disexcLabs : List ExLabel → Option (List UInt8)
  | [] => some []
  | lab :: labs => do
    let pc ← discon lab.pc
    let rest ← disexcLabs labs
    return cname lab.name ++ 0 :: (pc ++ rest)

/-- One entry of `disexc`; `c->nlab|(e->ne<<16)` is an `int`. -/
def disexcEntry (e : Exc) : Option (List UInt8) := do
  let offset ← discon e.offset
  let pc1 ← discon e.pc1
  let pc2 ← discon e.pc2
  let desc ← discon (e.desc.elim (-1) Int.ofNat)
  let n ← discon (((e.labs.length ||| e.ne <<< 16 : Nat) : Int).bmod (2 ^ 32))
  let labs ← disexcLabs e.labs
  let wild ← discon (e.iwild.elim (-1) Int.ofNat)
  return offset ++ (pc1 ++ (pc2 ++ (desc ++ (n ++ (labs ++ wild)))))

def disexcEntries : List Exc → Option (List UInt8)
  | [] => some []
  | e :: es => do
    let entry ← disexcEntry e
    let rest ← disexcEntries es
    return entry ++ rest

/-- Entries neither of whose ends is reached are not written. -/
def disexc (es : List Exc) : Option (List UInt8) := do
  let n ← discon (es.filter Exc.reach).length
  let entries ← disexcEntries (es.filter Exc.reach)
  let last ← discon 0
  return n ++ (entries ++ last)

/-- Conversion of the loader's `s32` to `uintptr`, and back to `intptr`. -/
def uintptr (v : Int) : Int := v % 2 ^ 64
def intptr (v : Int) : Int := v.bmod (2 ^ 64)

/-- The loader's `Except`. -/
structure Except where
  s : List UInt8
  pc : Int
deriving DecidableEq

/-- The loader's `Handler`. `etab` lists the entries before the one whose `s`
is nil, `wild` is the pc of that one. -/
structure Handler where
  eoff : Int
  pc1 : Int
  pc2 : Int
  descid : Int
  ne : Int
  etab : List Except
  wild : Int
deriving DecidableEq

/-- `strdup(istream)` followed by `while(*istream++)`. -/
def getString : List UInt8 → Option (List UInt8 × List UInt8)
  | [] => none
  | c :: istream =>
    if c = 0 then some ([], istream)
    else do
      let (s, istream) ← getString istream
      return (c :: s, istream)

def parseEtab : Nat → List UInt8 → Option (List Except × List UInt8)
  | 0, istream => some ([], istream)
  | n + 1, istream => do
    let (s, istream) ← getString istream
    let (pc, istream) ← operand istream
    let (etab, istream) ← parseEtab n istream
    return (⟨s, uintptr pc⟩ :: etab, istream)

/-- One turn of the loop over `htab` in `parsemod`. -/
def parseHandler (istream : List UInt8) : Option (Handler × List UInt8) := do
  let (eoff, istream) ← operand istream
  let (pc1, istream) ← operand istream
  let (pc2, istream) ← operand istream
  let (descid, istream) ← operand istream
  let (n, istream) ← operand istream
  let (etab, istream) ← parseEtab (n % 2 ^ 16).toNat istream
  let (wild, istream) ← operand istream
  return (⟨uintptr eoff, uintptr pc1, uintptr pc2, descid, uintptr (n / 2 ^ 16), etab, uintptr wild⟩, istream)

def parseHtab : Nat → List UInt8 → Option (List Handler × List UInt8)
  | 0, istream => some ([], istream)
  | nh + 1, istream => do
    let (h, istream) ← parseHandler istream
    let (htab, istream) ← parseHtab nh istream
    return (h :: htab, istream)

/-- The `HASEXCEPT` part of `parsemod`. -/
def parseExcepts (istream : List UInt8) : Option (List Handler × List UInt8) := do
  let (nh, istream) ← operand istream
  let (htab, istream) ← parseHtab nh.toNat istream
  return (htab, istream.drop 1)

/-- The label counts survive the word they share: `nlab` in 16 bits below `ne`. -/
def Exc.Fits (e : Exc) : Prop := e.labs.length < 2 ^ 16 ∧ e.ne < 2 ^ 15

/-- The loader's record of a written entry. -/
def Exc.handler (e : Exc) : Handler where
  eoff := e.offset
  pc1 := e.pc1
  pc2 := e.pc2
  descid := e.desc.elim (-1) Int.ofNat
  ne := e.ne
  etab := e.labs.map fun lab => ⟨cname lab.name, lab.pc⟩
  wild := e.iwild.elim (2 ^ 64 - 1) Int.ofNat

theorem uintptr_of_discon {v : Nat} {bytes : List UInt8} (written : discon v = some bytes) :
    uintptr v = v := by
  have upper := lt_of_discon written
  simp only [uintptr]
  omega

theorem operand_discon_nat {v : Nat} {bytes : List UInt8} (written : discon v = some bytes)
    (rest : List UInt8) : operand (bytes ++ rest) = some ((v : Int), rest) :=
  operand_discon (by omega) written rest

theorem operand_discon_elim {v : Option Nat} {bytes : List UInt8}
    (written : discon (v.elim (-1) Int.ofNat) = some bytes) (rest : List UInt8) :
    operand (bytes ++ rest) = some (v.elim (-1) Int.ofNat, rest) := by
  refine operand_discon ?_ written rest
  cases v with
  | none => decide
  | some v => simp only [Option.elim_some, Int.ofNat_eq_natCast]; omega

theorem getString_cname (name rest : List UInt8) :
    getString (cname name ++ 0 :: rest) = some (cname name, rest) := by
  induction name with
  | nil => rfl
  | cons c name ih =>
    by_cases nul : c = 0
    · simp only [cname, List.takeWhile_cons, nul, ne_eq, not_true_eq_false, decide_false]
      rfl
    · have head : cname (c :: name) = c :: cname name := by simp [cname, nul]
      rw [head, List.cons_append, getString, if_neg nul, ih]
      rfl

theorem parseEtab_disexcLabs {labs : List ExLabel} {bytes : List UInt8}
    (written : disexcLabs labs = some bytes) (rest : List UInt8) :
    parseEtab labs.length (bytes ++ rest) =
      some (labs.map fun lab => ⟨cname lab.name, lab.pc⟩, rest) := by
  induction labs generalizing bytes with
  | nil =>
    cases written
    rfl
  | cons lab labs ih =>
    simp only [disexcLabs, Option.bind_eq_bind, Option.bind_eq_some_iff, Option.pure_def,
      Option.some.injEq] at written
    obtain ⟨pc, atPc, more, atMore, rfl⟩ := written
    rw [List.length_cons, parseEtab, List.append_assoc, List.cons_append, getString_cname]
    simp only [Option.bind_eq_bind, Option.bind_some, List.append_assoc]
    rw [operand_discon_nat atPc]
    simp only [Option.bind_some]
    rw [ih atMore, Option.bind_some, uintptr_of_discon atPc]
    rfl

theorem countWord_of_fits {e : Exc} (fits : e.Fits) :
    ((e.labs.length ||| e.ne <<< 16 : Nat) : Int).bmod (2 ^ 32) = e.ne * 2 ^ 16 + e.labs.length := by
  obtain ⟨nlab, ne⟩ := fits
  have joined : e.labs.length ||| e.ne <<< 16 = e.ne * 2 ^ 16 + e.labs.length := by
    rw [Nat.or_comm, ← Nat.shiftLeft_add_eq_or_of_lt nlab, Nat.shiftLeft_eq]
  rw [joined, Int.bmod_eq_of_le] <;> push_cast <;> omega

theorem parseHandler_disexcEntry {e : Exc} {bytes : List UInt8} (fits : e.Fits)
    (written : disexcEntry e = some bytes) (rest : List UInt8) :
    parseHandler (bytes ++ rest) = some (e.handler, rest) := by
  simp only [disexcEntry, Option.bind_eq_bind, Option.bind_eq_some_iff, Option.pure_def,
    Option.some.injEq, countWord_of_fits fits] at written
  obtain ⟨offset, atOffset, pc1, atPc1, pc2, atPc2, desc, atDesc, n, atN, labs, atLabs, wild, atWild, rfl⟩ :=
    written
  have count := lt_of_discon atN
  have nlab : (((e.ne : Int) * 2 ^ 16 + e.labs.length) % 2 ^ 16).toNat = e.labs.length := by
    have := fits.1
    omega
  have ne : uintptr (((e.ne : Int) * 2 ^ 16 + e.labs.length) / 2 ^ 16) = e.ne := by
    have := fits.1
    simp only [uintptr]
    omega
  have wildPc : uintptr (e.iwild.elim (-1) Int.ofNat) = e.iwild.elim (2 ^ 64 - 1) Int.ofNat := by
    cases at_ : e.iwild with
    | none => rfl
    | some pc =>
      rw [at_] at atWild
      exact uintptr_of_discon atWild
  simp only [parseHandler, List.append_assoc, Option.bind_eq_bind]
  rw [operand_discon_nat atOffset, Option.bind_some, operand_discon_nat atPc1, Option.bind_some,
    operand_discon_nat atPc2, Option.bind_some, operand_discon_elim atDesc, Option.bind_some,
    operand_discon (by omega) atN, Option.bind_some]
  dsimp only
  rw [nlab, parseEtab_disexcLabs atLabs, Option.bind_some, operand_discon_elim atWild, Option.bind_some]
  dsimp only
  rw [ne, wildPc, uintptr_of_discon atOffset, uintptr_of_discon atPc1, uintptr_of_discon atPc2]
  rfl

theorem parseHtab_disexcEntries {es : List Exc} {bytes : List UInt8} (fits : ∀ e ∈ es, e.Fits)
    (written : disexcEntries es = some bytes) (rest : List UInt8) :
    parseHtab es.length (bytes ++ rest) = some (es.map Exc.handler, rest) := by
  induction es generalizing bytes with
  | nil =>
    cases written
    rfl
  | cons e es ih =>
    simp only [disexcEntries, Option.bind_eq_bind, Option.bind_eq_some_iff, Option.pure_def,
      Option.some.injEq] at written
    obtain ⟨entry, atEntry, more, atMore, rfl⟩ := written
    rw [List.length_cons, parseHtab, List.append_assoc,
      parseHandler_disexcEntry (fits e List.mem_cons_self) atEntry]
    simp only [Option.bind_eq_bind, Option.bind_some]
    rw [ih (fun d member => fits d (List.mem_cons_of_mem _ member)) atMore]
    rfl

/-- What `disexc` writes for entries whose counts fit is what `parsemod`
reads: the reached entries in order, each with its labels and its wildcard. -/
theorem parseExcepts_disexc {es : List Exc} {bytes : List UInt8} (fits : ∀ e ∈ es, e.Fits)
    (written : disexc es = some bytes) (rest : List UInt8) :
    parseExcepts (bytes ++ rest) = some ((es.filter Exc.reach).map Exc.handler, rest) := by
  simp only [disexc, Option.bind_eq_bind, Option.bind_eq_some_iff, Option.pure_def,
    Option.some.injEq] at written
  obtain ⟨n, atN, entries, atEntries, last, atLast, rfl⟩ := written
  have reached : ∀ e ∈ es.filter Exc.reach, e.Fits :=
    fun e member => fits e (List.mem_filter.mp member).1
  have nul : last = [0] := by
    cases atLast
    rfl
  simp only [parseExcepts, List.append_assoc, Option.bind_eq_bind]
  rw [operand_discon_nat atN, Option.bind_some]
  dsimp only
  rw [Int.toNat_natCast, parseHtab_disexcEntries reached atEntries, nul]
  rfl

end Inferno.Dis
