import Mathlib

namespace Inferno.Dis

section Datum

/-- `IBY2WD` and `IBY2LG` of `isa.h` on a host with 8-byte pointers. -/
def iby2wd : Nat := 8
def iby2lg : Nat := 8

/-- One byte of the C expression `v >> k` stored through a `uchar*`. -/
def ucharShift (v : Int) (k : Nat) : UInt8 := UInt8.ofNat ((v / 2 ^ k) % 256).toNat

/-- An initialised item of a module's data section: `DEFW` carries the four
bytes of each word, `DEFL` the eight bytes of each long. -/
inductive Datum
  | defw (off : Nat) (bytes : List UInt8)
  | defl (off : Nat) (bytes : List UInt8)

/-- Limbo's `disint`: only the low 32 bits of `v` are written. -/
def disint (off : Nat) (v : Int) : Datum :=
  .defw off [ucharShift v 24, ucharShift v 16, ucharShift v 8, ucharShift v 0]

/-- Limbo's `disbig`: the high word first, both truncated to `u32`. -/
def disbig (off : Nat) (v : Int) : Datum :=
  let hi := v / 2 ^ 32
  .defl off [ucharShift hi 24, ucharShift hi 16, ucharShift hi 8, ucharShift hi 0,
    ucharShift v 24, ucharShift v 16, ucharShift v 8, ucharShift v 0]

/-- The loader's `disw`, a big-endian signed 32-bit word. -/
def disw : List UInt8 → Int
  | b0 :: b1 :: b2 :: b3 :: _ =>
    (b0.toNat * 2 ^ 24 + b1.toNat * 2 ^ 16 + b2.toNat * 2 ^ 8 + b3.toNat : Int).bmod (2 ^ 32)
  | _ => 0

/-- Module data as `WORD`s, indexed by byte offset. Every access below is
aligned to `IBY2WD`, so no two words overlap. -/
abbrev Mem := Nat → Int

/-- `parsemod` on one data item. A `DEFW` word is sign extended into the
64-bit slot; a `DEFL` long is `hi << 32 | (u32)lo`. -/
def loadDatum (mem : Mem) : Datum → Mem
  | .defw off bytes => Function.update mem off (disw bytes)
  | .defl off bytes => Function.update mem off (disw bytes * 2 ^ 32 + disw (bytes.drop 4) % 2 ^ 32)

def loadData (mem : Mem) (items : List Datum) : Mem := items.foldl loadDatum mem

def Datum.off : Datum → Nat
  | .defw off _ => off
  | .defl off _ => off

theorem toNat_ucharShift (v : Int) (k : Nat) :
    ((ucharShift v k).toNat : Int) = (v / 2 ^ k) % 256 := by
  have nonneg : 0 ≤ (v / 2 ^ k) % 256 := Int.emod_nonneg _ (by decide)
  have small : (v / 2 ^ k) % 256 < 256 := Int.emod_lt_of_pos _ (by decide)
  simp only [ucharShift, UInt8.toNat_ofNat']
  omega

theorem disw_cons (b0 b1 b2 b3 : UInt8) (rest : List UInt8) :
    disw (b0 :: b1 :: b2 :: b3 :: rest) =
      (b0.toNat * 2 ^ 24 + b1.toNat * 2 ^ 16 + b2.toNat * 2 ^ 8 + b3.toNat : Int).bmod (2 ^ 32) := rfl

theorem disw_shifts (v : Int) (rest : List UInt8) :
    disw (ucharShift v 24 :: ucharShift v 16 :: ucharShift v 8 :: ucharShift v 0 :: rest) =
      v.bmod (2 ^ 32) := by
  have b24 := toNat_ucharShift v 24
  have b16 := toNat_ucharShift v 16
  have b8 := toNat_ucharShift v 8
  have b0 := toNat_ucharShift v 0
  rw [disw_cons, b24, b16, b8, b0]
  have assembled : v / 2 ^ 24 % 256 * 2 ^ 24 + v / 2 ^ 16 % 256 * 2 ^ 16 + v / 2 ^ 8 % 256 * 2 ^ 8 +
      v / 2 ^ 0 % 256 = v % 2 ^ 32 := by omega
  rw [assembled]
  simp only [Int.bmod_def]
  split <;> split <;> omega

theorem loadDatum_disint (mem : Mem) (off : Nat) (v : Int) :
    loadDatum mem (disint off v) = Function.update mem off (v.bmod (2 ^ 32)) := by
  simp only [loadDatum, disint, disw_shifts]

theorem loadDatum_disbig (mem : Mem) (off : Nat) (v : Int) :
    loadDatum mem (disbig off v) = Function.update mem off (v.bmod (2 ^ 64)) := by
  simp only [loadDatum, disbig, disw_shifts, List.drop_succ_cons, List.drop_zero]
  congr 1
  simp only [Int.bmod_def]
  split <;> split <;> split <;> omega

theorem loadDatum_of_ne (mem : Mem) (d : Datum) {a : Nat} (ne : a ≠ d.off) :
    loadDatum mem d a = mem a := by
  cases d <;> simp only [loadDatum, Datum.off] at * <;> exact Function.update_of_ne ne _ _

/-- Items that lie elsewhere leave a word alone. -/
theorem loadData_of_forall_ne (items : List Datum) {m : Mem} {a : Nat}
    (apart : ∀ d ∈ items, a ≠ d.off) : loadData m items a = m a := by
  induction items generalizing m with
  | nil => rfl
  | cons d rest ih =>
    rw [loadData, List.foldl_cons, ← loadData, ih (fun e he => apart e (List.mem_cons_of_mem _ he))]
    exact loadDatum_of_ne m d (apart d (List.mem_cons_self ..))

end Datum

section Operand

/-- Limbo's `discon`: one, two or four bytes, told apart by the two top bits
of the first. `none` is the fatal "overflow in constant"; below zero that
test reads bits 29 to 31 only. -/
def discon (val : Int) : Option (List UInt8) :=
  if -64 ≤ val ∧ val ≤ 63 then some [ucharShift (val % 128) 0]
  else if -8192 ≤ val ∧ val ≤ 8191 then some [ucharShift (val / 2 ^ 8 % 64 + 0x80) 0, ucharShift val 0]
  else if val < 0 ∧ val / 2 ^ 29 % 8 ≠ 7 ∨ 0 < val ∧ val / 2 ^ 29 ≠ 0 then none
  else some [ucharShift (val / 2 ^ 24 % 64 + 0xC0) 0, ucharShift val 16, ucharShift val 8, ucharShift val 0]

/-- `c |= ~0x3F` when bit 5 of `c` is set, `c &= 0x3F` when it is not. -/
def extend6 (c : Nat) : Int := if c / 32 % 2 = 1 then (c % 64 : Int) - 64 else (c % 64 : Int)

/-- The loader's `operand`: the constant at the head of the stream and the
stream after it. `none` stands for reading past the end of the file. -/
def operand : List UInt8 → Option (Int × List UInt8)
  | [] => none
  | c :: rest =>
    if c.toNat < 0x40 then some (c.toNat, rest)
    else if c.toNat < 0x80 then some ((c.toNat : Int) - 0x80, rest)
    else if c.toNat < 0xC0 then
      match rest with
      | c1 :: rest => some (extend6 c.toNat * 2 ^ 8 + c1.toNat, rest)
      | _ => none
    else
      match rest with
      | c1 :: c2 :: c3 :: rest =>
        some (extend6 c.toNat * 2 ^ 24 + c1.toNat * 2 ^ 16 + c2.toNat * 2 ^ 8 + c3.toNat, rest)
      | _ => none

/-- The six bits under a tag come back with their sign. -/
theorem extend6_ucharShift (w : Int) {tag : Int} (top : tag = 0x80 ∨ tag = 0xC0) :
    extend6 (ucharShift (w % 64 + tag) 0).toNat = (w + 32) % 64 - 32 := by
  have c := toNat_ucharShift (w % 64 + tag) 0
  unfold extend6
  rcases top with rfl | rfl <;> split_ifs <;> omega

theorem bmod30_eq (v : Int) : v.bmod (2 ^ 30) = (v + 2 ^ 29) % 2 ^ 30 - 2 ^ 29 := by
  rw [Int.bmod_def]
  split <;> omega

/-- The two-byte form holds 14 bits. -/
theorem operand_two {v : Int} (lower : -8192 ≤ v) (upper : v ≤ 8191) (rest : List UInt8) :
    operand (ucharShift (v / 2 ^ 8 % 64 + 0x80) 0 :: ucharShift v 0 :: rest) = some (v, rest) := by
  obtain ⟨low, high⟩ : 0x80 ≤ (ucharShift (v / 2 ^ 8 % 64 + 0x80) 0).toNat ∧
      (ucharShift (v / 2 ^ 8 % 64 + 0x80) 0).toNat < 0xC0 := by
    have c := toNat_ucharShift (v / 2 ^ 8 % 64 + 0x80) 0
    constructor <;> omega
  simp only [operand]
  rw [if_neg (not_lt.2 (le_trans (by decide) low)), if_neg (not_lt.2 low), if_pos high,
    extend6_ucharShift _ (Or.inl rfl), toNat_ucharShift]
  have assembled : ((v / 2 ^ 8 + 32) % 64 - 32) * 2 ^ 8 + v / 2 ^ 0 % 256 = v := by omega
  rw [assembled]

/-- The four-byte form holds 30 bits. -/
theorem operand_four (v : Int) (rest : List UInt8) :
    operand (ucharShift (v / 2 ^ 24 % 64 + 0xC0) 0 :: ucharShift v 16 :: ucharShift v 8 ::
      ucharShift v 0 :: rest) = some (v.bmod (2 ^ 30), rest) := by
  have top : 0xC0 ≤ (ucharShift (v / 2 ^ 24 % 64 + 0xC0) 0).toNat := by
    have c := toNat_ucharShift (v / 2 ^ 24 % 64 + 0xC0) 0
    omega
  simp only [operand]
  rw [if_neg (not_lt.2 (le_trans (by decide) top)), if_neg (not_lt.2 (le_trans (by decide) top)),
    if_neg (not_lt.2 top), extend6_ucharShift _ (Or.inr rfl), toNat_ucharShift, toNat_ucharShift, toNat_ucharShift]
  have assembled : ((v / 2 ^ 24 + 32) % 64 - 32) * 2 ^ 24 + v / 2 ^ 16 % 256 * 2 ^ 16 +
      v / 2 ^ 8 % 256 * 2 ^ 8 + v / 2 ^ 0 % 256 = (v + 2 ^ 29) % 2 ^ 30 - 2 ^ 29 := by omega
  rw [assembled, bmod30_eq]

/-- What `discon` accepts from the compiler's non-negative constants and from
its `-1` comes back from `operand`, whatever follows in the stream. -/
theorem operand_discon {v : Int} {bytes : List UInt8} (lower : -8192 ≤ v)
    (written : discon v = some bytes) (rest : List UInt8) :
    operand (bytes ++ rest) = some (v, rest) := by
  unfold discon at written
  split_ifs at written with one two wide
  · cases written
    have c := toNat_ucharShift (v % 128) 0
    simp only [List.cons_append, List.nil_append, operand]
    by_cases sign : 0 ≤ v
    · rw [if_pos (by omega)]
      simp only [Option.some.injEq, Prod.mk.injEq, and_true]
      omega
    · rw [if_neg (by omega), if_pos (by omega)]
      simp only [Option.some.injEq, Prod.mk.injEq, and_true]
      omega
  · cases written
    exact operand_two two.1 two.2 rest
  · cases written
    have narrow : v.bmod (2 ^ 30) = v := by
      rw [bmod30_eq]
      omega
    exact (operand_four v rest).trans (by rw [narrow])

theorem lt_of_discon {v : Int} {bytes : List UInt8} (written : discon v = some bytes) : v < 2 ^ 29 := by
  unfold discon at written
  split_ifs at written with one two wide <;> omega

theorem bmod30_of_discon {v : Int} {bytes : List UInt8} (written : discon v = some bytes) :
    v.bmod (2 ^ 30) = v ↔ -2 ^ 29 ≤ v := by
  have upper := lt_of_discon written
  rw [bmod30_eq]
  constructor <;> intro h <;> omega

/-- The reader recovers 30 bits of whatever `discon` accepts. -/
theorem operand_discon_bmod {v : Int} {bytes : List UInt8} (written : discon v = some bytes)
    (rest : List UInt8) : operand (bytes ++ rest) = some (v.bmod (2 ^ 30), rest) := by
  rcases lt_or_ge v (-8192) with low | lower
  · unfold discon at written
    rw [if_neg (by omega), if_neg (by omega)] at written
    split_ifs at written
    cases written
    exact operand_four v rest
  · rw [operand_discon lower written, (bmod30_of_discon written).mpr (by omega)]

end Operand

end Inferno.Dis
