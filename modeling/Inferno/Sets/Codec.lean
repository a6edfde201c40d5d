import Inferno.Sets.Set
import Inferno.Lib9.Ifmt

namespace Inferno.Sets

namespace Set

def bytes (s : Set) (n : Int) : List (BitVec 8) :=
  let m := (s.limit >>> 3) + 1
  let n := if m > n then m else n.toNat
  (List.range n).map fun i =>
    match s.a[i >>> 2]? with
    | none => s.m.setWidth 8
    | some w => (w.sshiftRight ((i &&& 3) <<< 3)).setWidth 8

end Set

/-- `int d[i]`. -/
def int (d : List (BitVec 8)) (i : Nat) : BitVec 64 := (d.getD i 0).setWidth 64

def bytes2set (d : List (BitVec 8)) : Set :=
  if d.length = 0 then set
  else
    let n := d.length >>> 2
    let a := (List.range n).map fun i =>
      let j := i <<< 2
      int d j + (int d (j + 1) <<< 8) + (int d (j + 2) <<< 16) + (int d (j + 3) <<< 24)
    let msb := ~~~((d.getD (d.length - 1) 0 >>> 7).setWidth 64 - 1#64)
    let j := n <<< 2
    let rest := match d.length &&& 3 with
      | 1 => [int d j ||| (msb &&& 0xffffff00)]
      | 2 => [int d j ||| (int d (j + 1) <<< 8) ||| (msb &&& 0xffff0000)]
      | 3 => [int d j ||| (int d (j + 1) <<< 8) ||| (int d (j + 2) <<< 16) ||| (msb &&& 0xff000000)]
      | _ => []
    ⟨msb, a ++ rest⟩

/-- `sprint("%.*ux", prec, v)`: the format takes an `uint`, which is the low half of an int. -/
def ux (prec : Nat) (v : BitVec 64) : List Char :=
  let digits := Lib9.Ifmt.numeral .x (v.toNat % 2 ^ 32)
  List.replicate (prec - digits.length) '0' ++ digits

/-- The inner loop of `str`; `t` is zero when `sig` is. -/
def sigLoop (m w t : BitVec 64) : Nat → Option Nat
  | 0 => none
  | sig + 1 =>
    if t = 0 then none
    else if m &&& t ≠ w &&& t then some (sig + 1)
    else sigLoop m w (t.sshiftRight 4 &&& 0x0fffffff) sig

namespace Set

/-- The outer loop of `str`, with the element and the digits of it that it breaks at. -/
def strLoop (s : Set) : Nat → Option (Nat × Nat)
  | 0 => none
  | i + 1 => match sigLoop s.m (s.a.getD i 0) (0xf#64 <<< (BPW - 4)) 8 with
    | some sig => some (i, sig)
    | none => s.strLoop i

def str (s : Set) : List Char :=
  (match s.strLoop s.a.length with
    | none => []
    | some (i, sig) =>
      let top := s.a.getD i 0
      let top := if sig < 8 then top &&& ((1#64 <<< (sig <<< 2)) - 1#64) else top
      ux sig top ++ (s.a.take i).reverse.flatMap (ux 8)) ++ [':', if s.m &&& 1 = 0 then '0' else '1']

end Set

def hexval (c : Char) : Nat :=
  if '0' ≤ c ∧ c ≤ '9' then c.toNat - '0'.toNat
  else if 'a' ≤ c ∧ c ≤ 'f' then c.toNat - ('a'.toNat - 10)
  else if 'A' ≤ c ∧ c ≤ 'F' then c.toNat - ('A'.toNat - 10)
  else 0

def hex2int (s : List Char) (fill : BitVec 64) : BitVec 64 :=
  s.foldl (fun n c => n <<< 4 ||| BitVec.ofNat 64 (hexval c)) fill

/-- The loop of `str2set`. -/
def str2setLoop (str : List Char) (msb : BitVec 64) (i : Nat) : List (BitVec 64) :=
  if i = 0 then []
  else
    let j := i - 8
    hex2int ((str.take i).drop j) msb :: str2setLoop str msb j
termination_by i
decreasing_by omega

def str2set (str : List Char) : Set :=
  let n := str.length
  if n < 2 ∨ str.getD (n - 2) ' ' ≠ ':' then set
  else
    let c := str.getD (n - 1) ' '
    if c ≠ '0' ∧ c ≠ '1' then set
    else
      let msb := ~~~(BitVec.ofNat 64 c.toNat - BitVec.ofNat 64 '1'.toNat)
      ⟨msb, str2setLoop str msb (n - 2)⟩

open Inferno.Sets.Set

variable {s s' : Set} {d : List (BitVec 8)} {n k i : Nat} {m w : BitVec 64}

example : (set.add 5 |>.addlist [40, 70] |>.invert).str = "bffffffeffffffffdf:1".toList := by decide

/-- The four bytes of an element. -/
theorem word4_bit (b0 b1 b2 b3 : BitVec 8) (i : Nat) :
    (b0.setWidth 64 + (b1.setWidth 64 <<< 8) + (b2.setWidth 64 <<< 16) + (b3.setWidth 64 <<< 24)).getLsbD i =
      if i < 8 then b0.getLsbD i else if i < 16 then b1.getLsbD (i - 8) else if i < 24 then b2.getLsbD (i - 16)
      else if i < 32 then b3.getLsbD (i - 24) else false := by
  have value : (b0.setWidth 64 + (b1.setWidth 64 <<< 8) + (b2.setWidth 64 <<< 16) + (b3.setWidth 64 <<< 24)).toNat =
      2 ^ 8 * (2 ^ 8 * (2 ^ 8 * b3.toNat + b2.toNat) + b1.toNat) + b0.toNat := by
    have lt0 := b0.isLt
    have lt1 := b1.isLt
    have lt2 := b2.isLt
    have lt3 := b3.isLt
    simp only [BitVec.toNat_add, BitVec.toNat_setWidth, BitVec.toNat_shiftLeft, Nat.shiftLeft_eq]
    omega
  rw [← BitVec.testBit_toNat, value, Nat.testBit_two_pow_mul_add _ b0.isLt, Nat.testBit_two_pow_mul_add _ b1.isLt,
    Nat.testBit_two_pow_mul_add _ b2.isLt, BitVec.testBit_toNat, BitVec.testBit_toNat, BitVec.testBit_toNat,
    BitVec.testBit_toNat]
  by_cases byte0 : i < 8
  · rw [if_pos byte0, if_pos byte0]
  by_cases byte1 : i < 16
  · rw [if_neg byte0, if_neg byte0, if_pos (by omega), if_pos byte1]
  by_cases byte2 : i < 24
  · rw [if_neg byte0, if_neg byte0, if_neg (by omega), if_neg byte1, if_pos (by omega), if_pos byte2, Nat.sub_sub]
  rw [if_neg byte0, if_neg byte0, if_neg (by omega), if_neg byte1, if_neg (by omega), if_neg byte2, Nat.sub_sub,
    Nat.sub_sub]
  by_cases byte3 : i < 32
  · rw [if_pos byte3]
  · rw [if_neg byte3]
    exact BitVec.getLsbD_of_ge b3 _ (by omega)

theorem int_bit (d : List (BitVec 8)) (i r : Nat) : (int d i).getLsbD r = (d.getD i 0).getLsbD r := by
  rw [int, BitVec.getLsbD_setWidth]
  by_cases word : r < 64
  · rw [decide_eq_true word, Bool.true_and]
  · rw [decide_eq_false word, Bool.false_and, BitVec.getLsbD_of_ge _ _ (by omega)]

/-- A byte in its place. -/
theorem int_shift (d : List (BitVec 8)) (i r b : Nat) (low : r < 32) :
    (int d i <<< (8 * b)).getLsbD r = (decide (r / 8 = b) && (d.getD i 0).getLsbD (r % 8)) := by
  rw [BitVec.getLsbD_shiftLeft, int_bit, decide_eq_true (by lia), Bool.true_and]
  by_cases here : r / 8 = b
  · have rest : r - 8 * b = r % 8 := by lia
    rw [decide_eq_true here, decide_eq_false (by lia), rest]
    rfl
  · rw [decide_eq_false here, Bool.false_and]
    by_cases below : r < 8 * b
    · rw [decide_eq_true below]
      rfl
    · rw [BitVec.getLsbD_of_ge _ _ (by lia), Bool.and_false]

theorem int_low (d : List (BitVec 8)) (i r : Nat) (low : r < 32) :
    (int d i).getLsbD r = (decide (r / 8 = 0) && (d.getD i 0).getLsbD (r % 8)) := by
  have whole := int_shift d i r 0 low
  rwa [Nat.mul_zero, BitVec.shiftLeft_zero] at whole

theorem mask_bits (b : Nat) (some : b = 1 ∨ b = 2 ∨ b = 3) (mask : BitVec 64)
    (same : mask = 0xffffffff#64 &&& ~~~((1#64 <<< (8 * b)) - 1#64)) (r : Nat) (low : r < 32) :
    mask.getLsbD r = decide (b ≤ r / 8) := by
  subst same
  have all : ∀ r < 32, ∀ b < 4, (0xffffffff#64 &&& ~~~((1#64 <<< (8 * b)) - 1#64)).getLsbD r = decide (b ≤ r / 8) := by
    decide
  exact all r low b (by lia)

/-- The bits that `bytes2set` sets in the `q`th element: those of the bytes, and above them those of `msb`. -/
theorem bytes2set_word (some : d.length ≠ 0) (q r : Nat) (low : r < 32) :
    ((bytes2set d).a.getD q (bytes2set d).m).getLsbD r =
      if 4 * q + r / 8 < d.length then (d.getD (4 * q + r / 8) 0).getLsbD (r % 8)
      else (bytes2set d).m.getLsbD r := by
  have four : d.length &&& 3 = d.length % 4 := Nat.and_two_pow_sub_one_eq_mod _ 2
  have quarter : d.length >>> 2 = d.length / 4 := Nat.shiftRight_eq_div_pow _ 2
  simp only [bytes2set, if_neg some, quarter, four]
  generalize ~~~((d.getD (d.length - 1) 0 >>> 7).setWidth 64 - 1#64) = msb
  have times (i : Nat) : i <<< 2 = 4 * i := by rw [Nat.shiftLeft_eq, Nat.mul_comm]
  simp only [times]
  have part : r / 8 = 0 ∨ r / 8 = 1 ∨ r / 8 = 2 ∨ r / 8 = 3 := by lia
  by_cases full : q < d.length / 4
  · rw [List.getD_append _ _ _ _ (by simpa using full), List.getD_eq_getElem _ _ (by simpa using full),
      List.getElem_map, List.getElem_range, if_pos (by lia)]
    unfold int
    rw [word4_bit]
    rcases part with byte | byte | byte | byte
    · have rest : r % 8 = r := by lia
      rw [if_pos (by lia), byte, rest]
      rfl
    · have rest : r % 8 = r - 8 := by lia
      rw [if_neg (by lia), if_pos (by lia), byte, rest]
    · have rest : r % 8 = r - 16 := by lia
      rw [if_neg (by lia), if_neg (by lia), if_pos (by lia), byte, rest]
    · have rest : r % 8 = r - 24 := by lia
      rw [if_neg (by lia), if_neg (by lia), if_neg (by lia), if_pos (by lia), byte, rest]
  rw [List.getD_append_right _ _ _ _ (by simpa using full), List.length_map, List.length_range]
  by_cases last : q = d.length / 4
  · subst last
    rw [Nat.sub_self]
    have part4 : d.length % 4 = 0 ∨ d.length % 4 = 1 ∨ d.length % 4 = 2 ∨ d.length % 4 = 3 := by lia
    rcases part4 with t | t | t | t <;> simp only [t, List.getD_cons_zero, List.getD_nil]
    · rw [if_neg (by lia)]
    · rw [BitVec.getLsbD_or, int_low _ _ _ low, BitVec.getLsbD_and,
        mask_bits 1 (by decide) 0xffffff00 (by decide) r low]
      rcases part with byte | byte | byte | byte
      · rw [if_pos (by lia), byte]
        simp
      all_goals
        rw [if_neg (by lia), byte]
        simp
    · rw [BitVec.getLsbD_or, BitVec.getLsbD_or, int_low _ _ _ low, int_shift _ _ _ 1 low, BitVec.getLsbD_and,
        mask_bits 2 (by decide) 0xffff0000 (by decide) r low]
      rcases part with byte | byte | byte | byte
      iterate 2
        rw [if_pos (by lia), byte]
        simp
      all_goals
        rw [if_neg (by lia), byte]
        simp
    · rw [BitVec.getLsbD_or, BitVec.getLsbD_or, BitVec.getLsbD_or, int_low _ _ _ low, int_shift _ _ _ 1 low,
        int_shift _ _ _ 2 low, BitVec.getLsbD_and, mask_bits 3 (by decide) 0xff000000 (by decide) r low]
      rcases part with byte | byte | byte | byte
      iterate 3
        rw [if_pos (by lia), byte]
        simp
      rw [if_neg (by lia), byte]
      simp
  · rw [List.getD_eq_default, if_neg (by lia)]
    have one : 1 ≤ q - d.length / 4 := by lia
    refine le_trans ?_ one
    split <;> simp

/-- The sign that the last byte gives. -/
theorem bytes2set_m (some : d.length ≠ 0) (i : Nat) (word : i < 64) :
    (bytes2set d).m.getLsbD i = (d.getD (d.length - 1) 0).getLsbD 7 := by
  simp only [bytes2set, if_neg some]
  generalize d.getD (d.length - 1) 0 = last
  have top : last >>> 7 = if last.getLsbD 7 then 1#8 else 0#8 := by
    refine BitVec.eq_of_getLsbD_eq fun j small => ?_
    rw [BitVec.getLsbD_ushiftRight]
    by_cases zero : j = 0
    · rw [zero]
      cases last.getLsbD 7 <;> rfl
    · rw [BitVec.getLsbD_of_ge _ _ (by omega)]
      have none (b : BitVec 8) (bit : b = 1#8 ∨ b = 0#8) : b.getLsbD j = false := by
        rcases bit with rfl | rfl
        · rw [show (1#8) = BitVec.twoPow 8 0 from rfl, BitVec.getLsbD_twoPow, decide_eq_false (Ne.symm zero),
            Bool.and_false]
        · exact BitVec.getLsbD_zero
      cases last.getLsbD 7 with
      | true => exact (none _ (.inl rfl)).symm
      | false => exact (none _ (.inr rfl)).symm
  rw [top]
  cases last.getLsbD 7 with
  | true =>
    rw [if_pos rfl, show ~~~((1#8).setWidth 64 - 1#64) = BitVec.allOnes 64 from rfl, BitVec.getLsbD_allOnes,
      decide_eq_true word]
  | false =>
    rw [if_neg Bool.false_ne_true, show ~~~((0#8).setWidth 64 - 1#64) = 0#64 from rfl, BitVec.getLsbD_zero]

/-- The elements that `bytes2set` makes have nothing above their 32 bits. -/
theorem bytes2set_high (d : List (BitVec 8)) : ∀ w ∈ (bytes2set d).a, ∀ i, 32 ≤ i → w.getLsbD i = false := by
  intro w member i high
  have byte (j b : Nat) (small : b ≤ 2) : (int d j <<< (8 * b)).getLsbD i = false := by
    rw [BitVec.getLsbD_shiftLeft, int_bit, BitVec.getLsbD_of_ge _ _ (by omega), Bool.and_false]
  have byte0 (j : Nat) : (int d j).getLsbD i = false := by
    rw [int_bit, BitVec.getLsbD_of_ge _ _ (by omega)]
  have mask (m b : BitVec 64) (low : b.toNat < 2 ^ 32) : (m &&& b).getLsbD i = false := by
    have off : b.getLsbD i = false := Nat.testBit_lt_two_pow (low.trans_le (Nat.pow_le_pow_right (by decide) high))
    rw [BitVec.getLsbD_and, off, Bool.and_false]
  unfold bytes2set at member
  split at member
  · nomatch member
  · rcases List.mem_append.1 member with full | rest
    · obtain ⟨q, -, rfl⟩ := List.mem_map.1 full
      unfold int
      rw [word4_bit, if_neg (by omega), if_neg (by omega), if_neg (by omega), if_neg (by omega)]
    · split at rest
      · rw [List.mem_singleton.1 rest, BitVec.getLsbD_or, byte0, mask _ _ (by decide)]
        rfl
      · rw [List.mem_singleton.1 rest, BitVec.getLsbD_or, BitVec.getLsbD_or, byte0, byte _ 1 (by decide),
          mask _ _ (by decide)]
        rfl
      · rw [List.mem_singleton.1 rest, BitVec.getLsbD_or, BitVec.getLsbD_or, BitVec.getLsbD_or, byte0,
          byte _ 1 (by decide), byte _ 2 (by decide), mask _ _ (by decide)]
        rfl
      · nomatch rest

theorem bytes2set_some (some : d.length ≠ 0) : (bytes2set d).a ≠ [] := by
  intro none
  have four : d.length &&& 3 = d.length % 4 := Nat.and_two_pow_sub_one_eq_mod _ 2
  have quarter : d.length >>> 2 = d.length / 4 := Nat.shiftRight_eq_div_pow _ 2
  simp only [bytes2set, if_neg some, quarter, four] at none
  obtain ⟨full, rest⟩ := List.append_eq_nil_iff.1 none
  have few : d.length / 4 = 0 := by simpa using full
  have part4 : d.length % 4 = 1 ∨ d.length % 4 = 2 ∨ d.length % 4 = 3 := by omega
  rcases part4 with t | t | t <;> rw [t] at rest <;> nomatch rest

/-- The last byte is below 128. -/
def Low (d : List (BitVec 8)) : Prop := (d.getD (d.length - 1) 0).getLsbD 7 = false

theorem good_bytes2set (low : Low d) : Good (bytes2set d) := by
  by_cases none : d.length = 0
  · rw [bytes2set, if_pos none]
    exact good_set
  have m (i : Nat) (word : i < 64) : (bytes2set d).m.getLsbD i = false := (bytes2set_m none i word).trans low
  refine ⟨fun i word => (m i word).trans (m 0 (by decide)).symm, fun q i word high => ?_⟩
  rw [inf, m 0 (by decide), List.getD_eq_getElem?_getD]
  cases there : (bytes2set d).a[q]? with
  | none => exact m i word
  | some w => exact bytes2set_high d w (List.mem_of_getElem? there) i high

theorem bytes2set_bit (some : d.length ≠ 0) (n : Nat) : (bytes2set d).bit n =
    if n / 8 < d.length then (d.getD (n / 8) 0).getLsbD (n % 8) else (d.getD (d.length - 1) 0).getLsbD 7 := by
  have place : 4 * (n / 32) + n % 32 / 8 = n / 8 := by lia
  have rest : n % 32 % 8 = n % 8 := by lia
  rw [bit, bytes2set_word some _ _ (by lia), place, rest, bytes2set_m some _ (by lia)]

theorem bytes_length (s : Set) (n : Int) : s.limit / 8 < (s.bytes n).length := by
  have eighth : s.limit >>> 3 = s.limit / 8 := Nat.shiftRight_eq_div_pow _ 3
  unfold bytes
  rw [List.length_map, List.length_range, eighth]
  split <;> omega

/-- The bits of a byte. -/
theorem bytes_bit (good : Good s) {n : Int} (inside : i < (s.bytes n).length) (k : Nat) (low : k < 8) :
    ((s.bytes n).getD i 0).getLsbD k = s.bit (8 * i + k) := by
  have place : (8 * i + k) / 32 = i / 4 := by lia
  have rest : (8 * i + k) % 32 = 8 * (i % 4) + k := by lia
  have quarter : i >>> 2 = i / 4 := Nat.shiftRight_eq_div_pow _ 2
  have shift : (i &&& 3) <<< 3 = 8 * (i % 4) := by
    rw [Nat.shiftLeft_eq, Nat.and_two_pow_sub_one_eq_mod i 2, Nat.mul_comm]
  simp only [bytes] at inside ⊢
  rw [List.getD_eq_getElem _ _ inside, List.getElem_map, List.getElem_range, quarter, shift, bit, place, rest,
    List.getD_eq_getElem?_getD]
  cases s.a[i / 4]? with
  | none =>
    dsimp only [Option.getD_none]
    rw [BitVec.getLsbD_setWidth, decide_eq_true low, Bool.true_and, good.m _ (by lia), good.m _ (by lia)]
  | some w =>
    dsimp only [Option.getD_some]
    rw [BitVec.getLsbD_setWidth, decide_eq_true low, Bool.true_and, BitVec.getLsbD_sshiftRight,
      decide_eq_false (by lia), if_pos (by lia)]
    rfl

/-- The bytes of a set say what it holds. -/
theorem bytes2set_bytes_bit (good : Good s) (n : Int) (k : Nat) : (bytes2set (s.bytes n)).bit k = s.bit k := by
  have long := bytes_length s n
  have some : (s.bytes n).length ≠ 0 := by omega
  rw [bytes2set_bit some]
  split
  · next inside =>
    have whole : 8 * (k / 8) + k % 8 = k := Nat.div_add_mod k 8
    rw [bytes_bit good inside _ (Nat.mod_lt _ (by decide)), whole]
  · rw [bytes_bit good (by omega) 7 (by decide), bit_limit good (by omega), bit_limit good (by omega)]

theorem low_bytes (good : Good s) (n : Int) : Low (s.bytes n) ↔ s.inf = false := by
  have long := bytes_length s n
  rw [Low, bytes_bit good (by omega) 7 (by decide), bit_limit good (by omega)]

/-- The bytes of a set give it back exactly where the last of them is below 128. -/
theorem bytes2set_bytes (good : Good s) (n : Int) : (bytes2set (s.bytes n)).eq s = true ↔ Low (s.bytes n) := by
  constructor
  · intro same
    have long := bytes_length s n
    have word := (eq_words _ _).1 same 0
    obtain ⟨w, a, nonempty⟩ := List.exists_cons_of_ne_nil (bytes2set_some (d := s.bytes n) (by omega))
    have high := bytes2set_high (s.bytes n) w (by rw [nonempty]; exact List.mem_cons_self) 32 (Nat.le_refl _)
    rw [nonempty, List.getD_cons_zero] at word
    rw [low_bytes good, ← good.a 0 32 (by decide) (Nat.le_refl _), ← word]
    exact high
  · intro low
    exact (eq_iff (good_bytes2set low) good).2 (bytes2set_bytes_bit good n)

/-- The last `k` hexadecimal digits of a number. -/
def nibbles : Nat → Nat → List Nat
  | 0, _ => []
  | k + 1, x => nibbles k (x / 16) ++ [x % 16]

theorem nibbles_length (k : Nat) : ∀ x, (nibbles k x).length = k := by
  induction k with
  | zero => exact fun _ => rfl
  | succ k ih => exact fun x => by rw [nibbles, List.length_append, ih, List.length_singleton]

theorem nibbles_zero (k : Nat) : nibbles k 0 = List.replicate k 0 := by
  induction k with
  | zero => rfl
  | succ k ih =>
    rw [nibbles, Nat.zero_div, ih, List.replicate_succ']

/-- A number is padded to `k` digits. -/
theorem numeral_nibbles (k : Nat) (some : 0 < k) : ∀ x < 16 ^ k,
    (Lib9.Ifmt.numeral .x x).length ≤ k ∧
      List.replicate (k - (Lib9.Ifmt.numeral .x x).length) '0' ++ Lib9.Ifmt.numeral .x x =
        (nibbles k x).map (Lib9.Ifmt.conv .x) := by
  induction k with
  | zero => nomatch some
  | succ k ih =>
    intro x small
    by_cases one : x < 16
    · have text : Lib9.Ifmt.numeral .x x = [Lib9.Ifmt.conv .x x] := by
        unfold Lib9.Ifmt.numeral
        split
        · next zero => rw [zero]; rfl
        · next more =>
          rw [show Lib9.Ifmt.base .x = 16 from rfl, Nat.digits_of_lt 16 x more one]
          rfl
      rw [text, nibbles, Nat.div_eq_of_lt one, nibbles_zero, Nat.mod_eq_of_lt one, List.map_append, List.map_replicate]
      exact ⟨Nat.succ_le_succ (Nat.zero_le k), rfl⟩
    · have more : 0 < k := by
        rcases Nat.eq_zero_or_pos k with rfl | pos
        · rw [Nat.zero_add, Nat.pow_one] at small
          lia
        · exact pos
      have part : x / 16 < 16 ^ k := by
        rw [Nat.div_lt_iff_lt_mul (by decide), ← Nat.pow_succ]
        exact small
      obtain ⟨fits, padded⟩ := ih more (x / 16) part
      have text : Lib9.Ifmt.numeral .x x = Lib9.Ifmt.numeral .x (x / 16) ++ [Lib9.Ifmt.conv .x (x % 16)] := by
        unfold Lib9.Ifmt.numeral
        rw [if_neg (by lia), if_neg (by lia), show Lib9.Ifmt.base .x = 16 from rfl,
          Nat.digits_def' (by decide) (by lia), List.reverse_cons, List.map_append]
        rfl
      rw [text, List.length_append, List.length_singleton, Nat.add_sub_add_right, ← List.append_assoc, padded, nibbles,
        List.map_append]
      exact ⟨Nat.succ_le_succ fits, rfl⟩

theorem ux_nibbles (k : Nat) (some : 0 < k) (w : BitVec 64) (small : w.toNat % 2 ^ 32 < 16 ^ k) :
    ux k w = (nibbles k (w.toNat % 2 ^ 32)).map (Lib9.Ifmt.conv .x) :=
  (numeral_nibbles k some _ small).2

theorem hexval_conv : ∀ x < 16, hexval (Lib9.Ifmt.conv .x x) = x := by decide

/-- The bits of the digits, and above them those of `fill`. -/
theorem hex2int_bit (fill : BitVec 64) (k : Nat) : ∀ (x i : Nat), i < 64 →
    (hex2int ((nibbles k x).map (Lib9.Ifmt.conv .x)) fill).getLsbD i =
      if i < 4 * k then x.testBit i else fill.getLsbD (i - 4 * k) := by
  induction k with
  | zero => exact fun x i _ => rfl
  | succ k ih =>
    intro x i word
    have last : hex2int ((nibbles (k + 1) x).map (Lib9.Ifmt.conv .x)) fill =
        hex2int ((nibbles k (x / 16)).map (Lib9.Ifmt.conv .x)) fill <<< 4 ||| BitVec.ofNat 64 (x % 16) := by
      rw [nibbles, List.map_append, hex2int, List.foldl_append, List.map_singleton, List.foldl_cons, List.foldl_nil,
        hexval_conv _ (Nat.mod_lt x (by decide))]
      rfl
    have split16 : x.testBit i = if i < 4 then (x % 16).testBit i else (x / 16).testBit (i - 4) := by
      have parts : x = 2 ^ 4 * (x / 16) + x % 16 := (Nat.div_add_mod x 16).symm
      conv => lhs; rw [parts]
      exact Nat.testBit_two_pow_mul_add _ (Nat.mod_lt x (by decide)) i
    rw [last, BitVec.getLsbD_or, BitVec.getLsbD_shiftLeft, BitVec.getLsbD_ofNat, decide_eq_true word, Bool.true_and,
      Bool.true_and, split16]
    by_cases low : i < 4
    · rw [decide_eq_true low, if_pos low, if_pos (by omega)]
      rfl
    · have none : (x % 16).testBit i = false := Nat.testBit_lt_two_pow
        ((Nat.mod_lt x (by decide)).trans_le (Nat.pow_le_pow_right (by decide) (Nat.not_lt.1 low) : 2 ^ 4 ≤ 2 ^ i))
      have shift : i - 4 - 4 * k = i - 4 * (k + 1) := by omega
      rw [decide_eq_false low, if_neg low, none, Bool.or_false, ih _ _ (by omega), shift]
      by_cases inside : i < 4 * (k + 1)
      · rw [if_pos inside, if_pos (by omega)]
        rfl
      · rw [if_neg inside, if_neg (by omega)]
        rfl

theorem hexval_lt (c : Char) : hexval c < 16 := by
  unfold hexval
  split
  · next low =>
    have most : c.toNat ≤ 57 := low.2
    have zero : '0'.toNat = 48 := rfl
    omega
  split
  · next low =>
    have most : c.toNat ≤ 102 := low.2
    have a : 'a'.toNat = 97 := rfl
    omega
  split
  · next low =>
    have most : c.toNat ≤ 70 := low.2
    have a : 'A'.toNat = 65 := rfl
    omega
  · decide

/-- Above its digits a word goes on with `fill`, whatever the digits are. -/
theorem hex2int_high : ∀ (t : List Char) (fill : BitVec 64) (i : Nat), i < 64 → 4 * t.length ≤ i →
    (hex2int t fill).getLsbD i = fill.getLsbD (i - 4 * t.length)
  | [], fill, i, _, _ => rfl
  | c :: t, fill, i, word, high => by
    rw [List.length_cons] at high ⊢
    have rest := hex2int_high t (fill <<< 4 ||| BitVec.ofNat 64 (hexval c)) i word (by omega)
    have digit : (hexval c).testBit (i - 4 * t.length) = false :=
      Nat.testBit_lt_two_pow ((hexval_lt c).trans_le (Nat.pow_le_pow_right (by decide) (by omega) : 2 ^ 4 ≤ _))
    have shift : i - 4 * t.length - 4 = i - 4 * (t.length + 1) := by omega
    rw [BitVec.getLsbD_or, BitVec.getLsbD_shiftLeft, BitVec.getLsbD_ofNat, digit, decide_eq_true (by omega),
      decide_eq_false (by omega), Bool.and_false, Bool.or_false, shift] at rest
    exact rest

theorem str2setLoop_mem (str : List Char) (msb : BitVec 64) (i : Nat) :
    ∀ w ∈ str2setLoop str msb i, ∃ t : List Char, t.length ≤ 8 ∧ w = hex2int t msb := by
  induction i using Nat.strong_induction_on with
  | _ i ih =>
    intro w member
    rw [str2setLoop] at member
    split at member
    · nomatch member
    · rcases List.mem_cons.1 member with rfl | later
      · refine ⟨_, ?_, rfl⟩
        rw [List.length_drop, List.length_take]
        omega
      · exact ih _ (by omega) w later

theorem good_fill {msb : BitVec 64} (uniform : ∀ i < 64, msb.getLsbD i = msb.getLsbD 0) {a : List (BitVec 64)}
    (each : ∀ w ∈ a, ∃ t : List Char, t.length ≤ 8 ∧ w = hex2int t msb) : Good ⟨msb, a⟩ := by
  refine ⟨uniform, fun q i word high => ?_⟩
  rw [List.getD_eq_getElem?_getD]
  cases there : a[q]? with
  | none => exact uniform i word
  | some w =>
    obtain ⟨t, short, rfl⟩ := each w (List.mem_of_getElem? there)
    exact (hex2int_high t msb i word (by omega)).trans (uniform _ (by omega))

theorem good_str2set (str : List Char) : Good (str2set str) := by
  simp only [str2set]
  split
  · exact good_set
  split
  · exact good_set
  · next digit =>
    refine good_fill (fun i word => ?_) (str2setLoop_mem _ _ _)
    rw [not_and_or, not_not, not_not] at digit
    rcases digit with zero | one
    · rw [zero, show ~~~(BitVec.ofNat 64 '0'.toNat - BitVec.ofNat 64 '1'.toNat) = 0#64 from rfl,
        BitVec.getLsbD_zero, BitVec.getLsbD_zero]
    · rw [one, show ~~~(BitVec.ofNat 64 '1'.toNat - BitVec.ofNat 64 '1'.toNat) = BitVec.allOnes 64 from rfl,
        BitVec.getLsbD_allOnes, BitVec.getLsbD_allOnes, decide_eq_true word]
      rfl

/-- The mask of the `k`th digit. -/
def digitMask : Nat → BitVec 64
  | 0 => 0
  | k + 1 => 0xf#64 <<< (4 * k)

theorem digitMask_next : ∀ k < 8, (digitMask (k + 1)).sshiftRight 4 &&& 0x0fffffff = digitMask k := by decide

theorem digitMask_bit : ∀ k < 8, ∀ r < 4, (digitMask (k + 1)).getLsbD (4 * k + r) = true := by decide

theorem digitMask_some : ∀ k < 8, digitMask (k + 1) ≠ 0 := by decide

theorem digit_same {k : Nat} (small : k < 8) (same : m &&& digitMask (k + 1) = w &&& digitMask (k + 1))
    (low : 4 * k ≤ i) (high : i < 4 * (k + 1)) : w.getLsbD i = m.getLsbD i := by
  have bit := congrArg (·.getLsbD i) same
  have place : 4 * k + (i - 4 * k) = i := by omega
  have inside := digitMask_bit k small (i - 4 * k) (by omega)
  rw [place] at inside
  simp only [BitVec.getLsbD_and, inside, Bool.and_true] at bit
  exact bit.symm

theorem sigLoop_spec (m w : BitVec 64) : ∀ sig ≤ 8, match sigLoop m w (digitMask sig) sig with
    | none => ∀ i < 4 * sig, w.getLsbD i = m.getLsbD i
    | some k => 0 < k ∧ k ≤ sig ∧ ∀ i, 4 * k ≤ i → i < 4 * sig → w.getLsbD i = m.getLsbD i
  | 0, _ => fun i none => absurd none (Nat.not_lt_zero i)
  | sig + 1, small => by
    rw [sigLoop, if_neg (digitMask_some sig small)]
    by_cases same : m &&& digitMask (sig + 1) = w &&& digitMask (sig + 1)
    · have rest := sigLoop_spec m w sig (Nat.le_of_succ_le small)
      rw [if_neg (not_not.2 same), digitMask_next sig small]
      cases found : sigLoop m w (digitMask sig) sig with
      | none =>
        rw [found] at rest
        intro i high
        by_cases below : i < 4 * sig
        · exact rest i below
        · exact digit_same small same (Nat.not_lt.1 below) high
      | some k =>
        rw [found] at rest
        obtain ⟨pos, most, above⟩ := rest
        refine ⟨pos, Nat.le_succ_of_le most, fun i low high => ?_⟩
        by_cases below : i < 4 * sig
        · exact above i low below
        · exact digit_same small same (Nat.not_lt.1 below) high
    · rw [if_pos same]
      exact ⟨Nat.succ_pos sig, Nat.le_refl _, fun i low high => absurd high (Nat.not_lt.2 low)⟩

/-- What `str` leaves out is as `m` says. -/
theorem strLoop_spec (s : Set) : ∀ n, match s.strLoop n with
    | none => ∀ q < n, ∀ r < 32, (s.a.getD q 0).getLsbD r = s.m.getLsbD r
    | some (i, sig) => i < n ∧ 0 < sig ∧ sig ≤ 8 ∧
      (∀ r, 4 * sig ≤ r → r < 32 → (s.a.getD i 0).getLsbD r = s.m.getLsbD r) ∧
      ∀ q, i < q → q < n → ∀ r < 32, (s.a.getD q 0).getLsbD r = s.m.getLsbD r
  | 0 => fun q none => absurd none (Nat.not_lt_zero q)
  | n + 1 => by
    have digits := sigLoop_spec s.m (s.a.getD n 0) 8 (Nat.le_refl 8)
    rw [show digitMask 8 = 0xf#64 <<< (BPW - 4) from rfl] at digits
    rw [strLoop]
    cases found : sigLoop s.m (s.a.getD n 0) (0xf#64 <<< (BPW - 4)) 8 with
    | some sig =>
      rw [found] at digits
      exact ⟨Nat.lt_succ_self n, digits.1, digits.2.1, fun r low high => digits.2.2 r low high,
        fun q above below => absurd below (by omega)⟩
    | none =>
      rw [found] at digits
      have rest := strLoop_spec s n
      dsimp only
      cases found' : s.strLoop n with
      | none =>
        rw [found'] at rest
        intro q below r high
        rcases Nat.lt_succ_iff_lt_or_eq.1 below with before | rfl
        · exact rest q before r high
        · exact digits r high
      | some there =>
        rw [found'] at rest
        obtain ⟨inside, pos, most, top, above⟩ := rest
        refine ⟨Nat.lt_succ_of_lt inside, pos, most, top, fun q after below r high => ?_⟩
        rcases Nat.lt_succ_iff_lt_or_eq.1 below with before | rfl
        · exact above q after before r high
        · exact digits r high

theorem ux_length (some : 0 < k) (small : w.toNat % 2 ^ 32 < 16 ^ k) : (ux k w).length = k := by
  rw [ux_nibbles k some w small, List.length_map, nibbles_length]

theorem ux_words_length (words : List (BitVec 64)) : (words.reverse.flatMap (ux 8)).length = 8 * words.length := by
  rw [List.length_flatMap, ← List.length_reverse]
  generalize words.reverse = words
  induction words with
  | nil => rfl
  | cons w words ih =>
    have eight : (ux 8 w).length = 8 := ux_length (by decide) (Nat.mod_lt _ (by decide))
    rw [List.map_cons, List.sum_cons, ih, eight, List.length_cons]
    omega

/-- Words of eight digits, the last of them first. -/
theorem str2setLoop_words (msb : BitVec 64) {top : List Char} (some : 0 < top.length) (short : top.length ≤ 8) :
    ∀ (words : List (BitVec 64)) (rest : List Char),
      str2setLoop (top ++ words.reverse.flatMap (ux 8) ++ rest) msb (top.length + 8 * words.length) =
        words.map (fun w => hex2int (ux 8 w) msb) ++ [hex2int top msb]
  | [], rest => by
    have zero : top.length - 8 = 0 := by omega
    have done (str : List Char) : str2setLoop str msb 0 = [] := by rw [str2setLoop, if_pos rfl]
    rw [List.length_nil, Nat.mul_zero, Nat.add_zero, str2setLoop, if_neg (by omega), zero]
    dsimp only
    rw [done, List.reverse_nil, List.flatMap_nil, List.append_nil, List.drop_zero, List.take_left]
    rfl
  | w :: words, rest => by
    have eight (w : BitVec 64) : (ux 8 w).length = 8 := ux_length (by decide) (Nat.mod_lt _ (by decide))
    have next : top.length + 8 * (words.length + 1) - 8 = top.length + 8 * words.length := by omega
    have text : top ++ (w :: words).reverse.flatMap (ux 8) ++ rest =
        top ++ words.reverse.flatMap (ux 8) ++ (ux 8 w ++ rest) := by
      rw [List.reverse_cons, List.flatMap_append, List.flatMap_singleton, List.append_assoc, List.append_assoc,
        List.append_assoc]
    have before : (top ++ words.reverse.flatMap (ux 8)).length = top.length + 8 * words.length := by
      rw [List.length_append, ux_words_length]
    have piece : ((top ++ words.reverse.flatMap (ux 8) ++ (ux 8 w ++ rest)).take
        (top.length + 8 * (words.length + 1))).drop (top.length + 8 * words.length) = ux 8 w := by
      rw [List.drop_take, ← before, List.drop_left]
      have room : top.length + 8 * (words.length + 1) - (top ++ words.reverse.flatMap (ux 8)).length =
          (ux 8 w).length := by
        rw [before, eight]
        omega
      rw [room, List.take_left]
    rw [List.length_cons, str2setLoop, if_neg (by omega), next, text]
    dsimp only
    rw [piece, str2setLoop_words msb some short words (ux 8 w ++ rest), List.map_cons, List.cons_append]

theorem ux_bit (fill : BitVec 64) (some : 0 < k) (small : w.toNat % 2 ^ 32 < 16 ^ k) (low : i < 32) :
    (hex2int (ux k w) fill).getLsbD i = if i < 4 * k then w.getLsbD i else fill.getLsbD (i - 4 * k) := by
  rw [ux_nibbles k some w small, hex2int_bit fill k _ i (by omega), Nat.testBit_mod_two_pow, decide_eq_true low,
    Bool.true_and, BitVec.testBit_toNat]

/-- The digits of an element that `str` prints. -/
def topDigits (w : BitVec 64) (sig : Nat) : BitVec 64 :=
  if sig < 8 then w &&& ((1#64 <<< (sig <<< 2)) - 1#64) else w

theorem topDigits_small (most : k ≤ 8) : (topDigits w k).toNat % 2 ^ 32 < 16 ^ k := by
  unfold topDigits
  split
  · next less =>
    have mask : ∀ k < 8, ((1#64 <<< (k <<< 2)) - 1#64).toNat < 16 ^ k := by decide
    refine (Nat.mod_le _ _).trans_lt (lt_of_le_of_lt ?_ (mask k less))
    rw [BitVec.toNat_and]
    exact Nat.and_le_right
  · next full =>
    have eight : k = 8 := by omega
    rw [eight]
    exact Nat.mod_lt _ (by decide)

theorem topDigits_bit (low : i < 4 * k) : (topDigits w k).getLsbD i = w.getLsbD i := by
  unfold topDigits
  split
  · next less =>
    have mask : ∀ k < 8, ∀ i < 4 * k, ((1#64 <<< (k <<< 2)) - 1#64).getLsbD i = true := by decide
    rw [BitVec.getLsbD_and, mask k less i low, Bool.and_true]
  · rfl

/-- The sign that `str` prints. -/
theorem sign_m (good : Good s) : ~~~(BitVec.ofNat 64 (if s.m &&& 1 = 0 then '0' else '1').toNat -
    BitVec.ofNat 64 '1'.toNat) = s.m := by
  have odd : s.m &&& 1 = 0 ↔ s.inf = false := by
    rw [show (1 : BitVec 64) = BitVec.twoPow 64 0 from rfl, BitVec.and_twoPow, inf]
    cases s.m.getLsbD 0 <;> decide
  refine BitVec.eq_of_getLsbD_eq fun i word => ?_
  rw [good.m i word]
  by_cases none : s.m &&& 1 = 0
  · rw [if_pos none, odd.1 none, show ~~~(BitVec.ofNat 64 '0'.toNat - BitVec.ofNat 64 '1'.toNat) = 0#64 from rfl,
      BitVec.getLsbD_zero]
  · have some : s.inf = true := Bool.eq_true_of_not_eq_false (mt odd.2 none)
    rw [if_neg none, some,
      show ~~~(BitVec.ofNat 64 '1'.toNat - BitVec.ofNat 64 '1'.toNat) = BitVec.allOnes 64 from rfl,
      BitVec.getLsbD_allOnes, decide_eq_true word]

/-- A text with a sign is read by `str2setLoop`. -/
theorem str2set_sign (good : Good s) (digits : List Char) :
    str2set (digits ++ [':', if s.m &&& 1 = 0 then '0' else '1']) =
      ⟨s.m, str2setLoop (digits ++ [':', if s.m &&& 1 = 0 then '0' else '1']) s.m digits.length⟩ := by
  have length : (digits ++ [':', if s.m &&& 1 = 0 then '0' else '1']).length = digits.length + 2 :=
    List.length_append
  have colon : (digits ++ [':', if s.m &&& 1 = 0 then '0' else '1']).getD digits.length ' ' = ':' := by
    rw [List.getD_append_right _ _ _ _ (Nat.le_refl _), Nat.sub_self]
    rfl
  have sign : (digits ++ [':', if s.m &&& 1 = 0 then '0' else '1']).getD (digits.length + 1) ' ' =
      if s.m &&& 1 = 0 then '0' else '1' := by
    rw [List.getD_append_right _ _ _ _ (Nat.le_add_right _ 1), Nat.add_sub_cancel_left]
    rfl
  have digit : ¬((if s.m &&& 1 = 0 then '0' else '1') ≠ '0' ∧ (if s.m &&& 1 = 0 then '0' else '1') ≠ '1') := by
    by_cases zero : s.m &&& 1 = 0
    · rw [if_pos zero]
      exact fun neither => neither.1 rfl
    · rw [if_neg zero]
      exact fun neither => neither.2 rfl
  have one : digits.length + 2 - 1 = digits.length + 1 := rfl
  simp only [str2set, length, Nat.add_sub_cancel, one, colon, sign]
  rw [if_neg (by simp), if_neg digit, sign_m good]

/-- The text of a set says what it holds. -/
theorem str2set_str_bit (good : Good s) (n : Nat) : (str2set s.str).bit n = s.bit n := by
  have shape := strLoop_spec s s.a.length
  have word (q : Nat) (inside : q < s.a.length) : s.a.getD q s.m = s.a.getD q 0 := by
    rw [List.getD_eq_getElem _ _ inside, List.getD_eq_getElem _ _ inside]
  rw [str, str2set_sign good]
  cases found : s.strLoop s.a.length with
  | none =>
    rw [found] at shape
    rw [List.length_nil, str2setLoop, if_pos rfl, bit, List.getD_nil, bit]
    by_cases inside : n / 32 < s.a.length
    · rw [word _ inside, shape _ inside _ (Nat.mod_lt n (by decide))]
    · rw [List.getD_eq_default _ _ (Nat.not_lt.1 inside)]
  | some there =>
    obtain ⟨i, sig⟩ := there
    rw [found] at shape
    obtain ⟨inside, pos, most, top, above⟩ := shape
    have length : (ux sig (topDigits (s.a.getD i 0) sig)).length = sig := ux_length pos (topDigits_small most)
    have taken : (s.a.take i).length = i := List.length_take_of_le (Nat.le_of_lt inside)
    have whole : (ux sig (topDigits (s.a.getD i 0) sig) ++ (s.a.take i).reverse.flatMap (ux 8)).length =
        (ux sig (topDigits (s.a.getD i 0) sig)).length + 8 * (s.a.take i).length := by
      rw [List.length_append, ux_words_length]
    dsimp only
    rw [show (if sig < 8 then s.a.getD i 0 &&& ((1#64 <<< (sig <<< 2)) - 1#64) else s.a.getD i 0) =
      topDigits (s.a.getD i 0) sig from rfl, whole, str2setLoop_words s.m (by lia) (by lia), bit]
    dsimp only
    have low : n % 32 < 32 := Nat.mod_lt n (by decide)
    rcases Nat.lt_trichotomy (n / 32) i with before | here | after
    · rw [List.getD_append _ _ _ _ (by rw [List.length_map, taken]; exact before),
        List.getD_eq_getElem _ _ (by rw [List.length_map, taken]; exact before), List.getElem_map, List.getElem_take,
        ux_bit _ (by decide) (Nat.mod_lt _ (by decide)) low, if_pos low, bit,
        List.getD_eq_getElem _ _ (before.trans inside)]
    · rw [List.getD_append_right _ _ _ _ (by rw [List.length_map, taken, here]), List.length_map, taken, here,
        Nat.sub_self, List.getD_cons_zero, ux_bit _ pos (topDigits_small most) low, bit, here, word i inside]
      split
      · next digit => exact topDigits_bit digit
      · next high =>
        rw [top _ (Nat.not_lt.1 high) low, good.m _ (by lia), good.m _ (by lia)]
    · rw [List.getD_append_right _ _ _ _ (by rw [List.length_map, taken]; lia), List.length_map, taken,
        List.getD_eq_default _ _ (by rw [List.length_singleton]; lia), bit]
      by_cases inside' : n / 32 < s.a.length
      · rw [word _ inside', above _ after inside' _ low]
      · rw [List.getD_eq_default _ _ (Nat.not_lt.1 inside')]

theorem str2set_str (good : Good s) : (str2set s.str).eq s = true :=
  (eq_iff (good_str2set _) good).2 (str2set_str_bit good)

/-- The sets of the module's functions, where `bytes2set` has a last byte below 128. -/
inductive Built : Set → Prop
  | set : Built Sets.set
  | add (s : Set) (n : Nat) : Built s → Built (s.add n)
  | addlist (s : Set) (ns : List Nat) : Built s → Built (s.addlist ns)
  | del (s : Set) (n : Nat) : Built s → Built (s.del n)
  | invert (s : Set) : Built s → Built s.invert
  | X (s1 s2 : Set) (o : Nat) : Built s1 → Built s2 → Built (s1.X o s2)
  | bytes2set (d : List (BitVec 8)) : Low d → Built (Sets.bytes2set d)
  | str2set (str : List Char) : Built (Sets.str2set str)

theorem Built.good (built : Built s) : Good s := by
  induction built with
  | set => exact good_set
  | add s n _ ih => exact good_add ih
  | addlist s ns _ ih => exact good_addlist ih ns
  | del s n _ ih => exact good_del ih
  | invert s _ ih => exact good_invert ih
  | X s1 s2 o _ _ ih1 ih2 => exact good_X ih1 ih2
  | bytes2set d low => exact good_bytes2set low
  | str2set str => exact good_str2set str

/-- `holds` is the bit of a number. -/
theorem holds_eq (good : Good s) (n : Nat) : decide (s.holds n ≠ 0) = s.bit n := by
  rw [Bool.eq_iff_iff, decide_eq_true_iff]
  exact holds_bit good

theorem same_iff (good : Good s) (good' : Good s') :
    (∀ n, s.holds n ≠ 0 ↔ s'.holds n ≠ 0) ↔ ∀ n, s.bit n = s'.bit n :=
  forall_congr' fun n => by rw [holds_bit good, holds_bit good']; exact Bool.eq_iff_iff.symm

end Inferno.Sets
