import Mathlib

namespace Inferno.Lib9.Ifmt

/-- The verb. -/
inductive Verb where
  | d | x | X | b | o
deriving DecidableEq

/-- The flags, the width and the precision of a `Fmt`, as `_ifmt` reads them. -/
structure Fmt where
  r : Verb
  comma : Bool
  sharp : Bool
  zero : Bool
  left : Bool
  sign : Bool
  space : Bool
  unsigned : Bool
  width : Int
  prec : Int

section Code

def base : Verb → Nat
  | .d => 10
  | .x | .X => 16
  | .b => 2
  | .o => 8

def conv (r : Verb) (i : Nat) : Char :=
  (if r = .X then "0123456789ABCDEF" else "0123456789abcdef").toList.getD i '0'

/-- What is pushed from `buf + 69` down, and the counter `n`. -/
structure Buf where
  out : List Char
  n : Nat

/-- The offset of `p` in `buf`. -/
def Buf.p (s : Buf) : Int := 69 - s.out.length

def Buf.put (s : Buf) (c : Char) : Buf := { s with out := c :: s.out }

def Buf.count (s : Buf) (k : Nat) : Buf := { s with n := s.n + k }

theorem base_pos (r : Verb) : 1 < base r := by cases r <;> decide

/-- The loop over the digits. -/
def digits (r : Verb) (comma : Bool) (vu : Nat) (s : Buf) : Buf :=
  if vu = 0 then s
  else
    let s := if comma && s.n % 4 = 3 then (s.put ',').count 1 else s
    digits r comma (vu / base r) ((s.put (conv r (vu % base r))).count 1)
termination_by vu
decreasing_by exact Nat.div_lt_self (by omega) (base_pos r)

/-- A loop that pads with zeros. -/
def zeros (w : Int) (s : Buf) : Buf :=
  if s.n < w ∧ 3 < s.p then zeros w ((s.put '0').count 1) else s
termination_by 66 - s.out.length
decreasing_by
  unfold Buf.p at *
  simp only [Buf.put, Buf.count, List.length_cons]
  omega

/-- The sign and the value without it, of the 64 bits `vu`. -/
def magnitude (f : Fmt) (vu : Nat) : Bool × Nat :=
  if !f.unsigned && 2 ^ 63 ≤ vu then (true, 2 ^ 64 - vu) else (false, vu)

def number (f : Fmt) (vu : Nat) : Buf :=
  let s := digits f.r f.comma vu ⟨[], 0⟩
  if s.n = 0 then ⟨'0' :: s.out, 1⟩ else s

/-- The flag `FmtSharp` as it is left: an octal number that begins with a zero needs no other one. -/
def sharpIn (f : Fmt) (s : Buf) : Bool := f.sharp && !(decide (base f.r = 8) && decide (s.out.head? = some '0'))

def countSign (f : Fmt) (neg : Bool) (s : Buf) : Buf := if neg || f.sign || f.space then s.count 1 else s

def countPrefix (f : Fmt) (sharp : Bool) (s : Buf) : Buf :=
  if sharp then (if base f.r = 16 then s.count 2 else if base f.r = 8 then s.count 1 else s) else s

def putPrefix (f : Fmt) (sharp : Bool) (s : Buf) : Buf :=
  if sharp then
    let s := if base f.r = 16 then s.put (if f.r = .X then 'X' else 'x') else s
    if base f.r = 16 || base f.r = 8 then s.put '0' else s
  else s

def putSign (f : Fmt) (neg : Bool) (s : Buf) : Buf :=
  if neg then s.put '-' else if f.sign then s.put '+' else if f.space then s.put ' ' else s

/-- What is in the buffer at the end, and `n`. -/
def ifmt (f : Fmt) (vu : Nat) : Buf :=
  let (neg, vu) := magnitude f vu
  let s := zeros f.prec (number f vu)
  let sharp := sharpIn f s
  let s := countPrefix f sharp (countSign f neg s)
  let s := if f.zero && !f.left then zeros f.width s else s
  putSign f neg (putPrefix f sharp s)

/-- The text that is passed on. -/
def text (f : Fmt) (vu : Nat) : List Char := (ifmt f vu).out.take (ifmt f vu).n

end Code

/-- The digits of the value, the most significant one first. -/
def numeral (r : Verb) (v : Nat) : List Char :=
  if v = 0 then ['0'] else ((base r).digits v).reverse.map (conv r)

def signOf (f : Fmt) (neg : Bool) : List Char :=
  if neg then ['-'] else if f.sign then ['+'] else if f.space then [' '] else []

def prefixOf (f : Fmt) : List Char :=
  if f.sharp && base f.r = 16 then ['0', if f.r = .X then 'X' else 'x'] else []

/-- What the 64 bits stand for. -/
def value (f : Fmt) (vu : Nat) : Int := if f.unsigned then vu else (BitVec.ofNat 64 vu).toInt

/-- The buffer holds all that is written, and the text is the value: a sign, a prefix, zeros, and the digits
with commas. -/
def Right (f : Fmt) (vu : Nat) : Prop :=
  (ifmt f vu).out.length ≤ 70 ∧ ∃ k body, text f vu = signOf f (value f vu < 0) ++ prefixOf f ++
    List.replicate k '0' ++ body ∧ body.filter (· ≠ ',') = numeral f.r (value f vu).natAbs ∧
    (f.comma = false → ',' ∉ body)

/-- In binary with commas the digits fit: 53 of them, and one less behind a sign. -/
def Fits (f : Fmt) (vu : Nat) : Prop :=
  f.r = .b → f.comma = true →
    (value f vu).natAbs < 2 ^ 53 ∧ (signOf f (value f vu < 0) ≠ [] → (value f vu).natAbs < 2 ^ 52)

variable {f : Fmt} {r : Verb} {comma neg sharp : Bool} {s : Buf} {w : Int} {v : Nat}

theorem conv_ne_comma (r : Verb) (i : Nat) (small : i < 16) : conv r i ≠ ',' := by
  have all : ∀ i < 16, conv r i ≠ ',' := by cases r <;> decide
  exact all i small

theorem base_le (r : Verb) : base r ≤ 16 := by cases r <;> decide

/-- What `k` digits take with their commas. -/
def count (comma : Bool) (k : Nat) : Nat := if comma then k + (k - 1) / 3 else k

/-- The separator that goes in front of the next digit. -/
def separator (comma : Bool) (n : Nat) : List Char := if comma && decide (n % 4 = 3) then [','] else []

theorem count_succ (comma : Bool) (k : Nat) :
    count comma (k + 1) = count comma k + (separator comma (count comma k)).length + 1 := by
  cases comma with
  | false => rfl
  | true =>
    simp only [count, separator, if_true, Bool.true_and, decide_eq_true_eq]
    split
    · simp only [List.length_cons, List.length_nil]
      omega
    · simp only [List.length_nil]
      omega

theorem digits_more (r : Verb) (comma : Bool) (v : Nat) (s : Buf) (more : v ≠ 0) : ∃ s' : Buf,
    digits r comma v s = digits r comma (v / base r) s' ∧
    s'.out = conv r (v % base r) :: (separator comma s.n ++ s.out) ∧ s'.n = s.n + (separator comma s.n).length + 1 := by
  refine ⟨_, by rw [digits, if_neg more], ?_, ?_⟩
  all_goals
    unfold separator
    by_cases sep : (comma && decide (s.n % 4 = 3)) = true
    · simp only [if_pos sep]
      rfl
    · simp only [if_neg sep]
      rfl

/-- The digits of `v` go in front of what is there, with commas between them. -/
theorem digits_spec (r : Verb) (comma : Bool) (v : Nat) (s : Buf) (k : Nat) (start : s.n = count comma k) : ∃ front,
    (digits r comma v s).out = front ++ s.out ∧ (digits r comma v s).n = s.n + front.length ∧
    s.n + front.length = count comma (k + ((base r).digits v).length) ∧
    front.filter (· ≠ ',') = ((base r).digits v).reverse.map (conv r) ∧ (comma = false → ',' ∉ front) := by
  induction v using Nat.strong_induction_on generalizing s k with
  | _ v ih =>
    by_cases done : v = 0
    · subst done
      rw [digits, if_pos rfl, Nat.digits_zero]
      exact ⟨[], rfl, rfl, start, rfl, fun _ => List.not_mem_nil⟩
    obtain ⟨s', step, put, counted⟩ := digits_more r comma v s done
    have one := base_pos r
    have digit := conv_ne_comma r (v % base r) ((Nat.mod_lt v (by omega)).trans_le (base_le r))
    have all : (base r).digits v = v % base r :: (base r).digits (v / base r) :=
      Nat.digits_def' one (Nat.pos_of_ne_zero done)
    obtain ⟨front, out, n, wide, digs, plain⟩ := ih (v / base r) (Nat.div_lt_self (by omega) one) s' (k + 1) (by
      rw [counted, count_succ, start])
    have length : s.n + (front ++ conv r (v % base r) :: separator comma s.n).length = s'.n + front.length := by
      rw [List.length_append, List.length_cons, counted]
      omega
    rw [step, all]
    refine ⟨front ++ conv r (v % base r) :: separator comma s.n, ?_, n.trans length.symm, ?_, ?_, fun none mem => ?_⟩
    · rw [out, put, List.append_assoc]
      rfl
    · rw [length, wide, List.length_cons]
      congr 1
      omega
    · have sep : (separator comma s.n).filter (· ≠ ',') = [] := by
        unfold separator
        split <;> rfl
      rw [List.filter_append, digs, List.filter_cons_of_pos (by exact decide_eq_true digit), sep, List.reverse_cons,
        List.map_append]
      rfl
    · have sep : separator comma s.n = [] := by rw [none]; rfl
      rw [sep] at mem
      rcases List.mem_append.1 mem with before | now
      · exact plain none before
      · exact digit (List.mem_singleton.1 now).symm

/-- How many digits there are; a zero has one. -/
def ndigits (r : Verb) (v : Nat) : Nat := max 1 ((base r).digits v).length

theorem number_spec (f : Fmt) (v : Nat) : ∃ body, number f v = ⟨body, body.length⟩ ∧
    body.length = count f.comma (ndigits f.r v) ∧ body.filter (· ≠ ',') = numeral f.r v ∧
    (f.comma = false → ',' ∉ body) := by
  obtain ⟨front, out, n, wide, digs, plain⟩ := digits_spec f.r f.comma v ⟨[], 0⟩ 0 (by cases f.comma <;> rfl)
  rw [List.append_nil] at out
  rw [Nat.zero_add] at n wide
  rw [Nat.zero_add] at wide
  by_cases zero : v = 0
  · subst zero
    refine ⟨['0'], ?_, ?_, rfl, fun _ => by decide⟩
    · rw [number, digits, if_pos rfl]
      rfl
    · rw [ndigits, Nat.digits_zero]
      cases f.comma <;> rfl
  · have some : ((base f.r).digits v).length ≠ 0 := fun none =>
      zero (Nat.digits_eq_nil_iff_eq_zero.1 (List.length_eq_zero_iff.1 none))
    have many : ndigits f.r v = ((base f.r).digits v).length := by
      rw [ndigits]
      omega
    have pos : front.length ≠ 0 := by
      rw [wide, count]
      split <;> omega
    refine ⟨front, ?_, wide.trans (by rw [many]), ?_, plain⟩
    · have whole : digits f.r f.comma v ⟨[], 0⟩ = ⟨front, front.length⟩ := by rw [← n, ← out]
      simp only [number, whole, if_neg pos]
    · rw [digs, numeral, if_neg zero]

/-- A loop of zeros stops where the buffer is nearly full. -/
theorem zeros_spec (w : Int) (s : Buf) : ∃ k, (zeros w s).out = List.replicate k '0' ++ s.out ∧
    (zeros w s).n = s.n + k ∧ (k = 0 ∨ k + s.out.length ≤ 66) := by
  induction s using zeros.induct w with
  | case1 s more ih =>
    obtain ⟨k, out, n, room⟩ := ih
    rw [zeros, if_pos more]
    refine ⟨k + 1, ?_, ?_, .inr ?_⟩
    · rw [out, List.replicate_succ', List.append_assoc]
      rfl
    · rw [n]
      simp only [Buf.count, Buf.put]
      omega
    · have space := more.2
      simp only [Buf.p, Buf.count, Buf.put, List.length_cons] at room space
      omega
  | case2 s more =>
    rw [zeros, if_neg more]
    exact ⟨0, rfl, rfl, .inl rfl⟩

/-- The prefix as it is written. -/
def prefixText (f : Fmt) (sharp : Bool) : List Char :=
  if sharp then (if base f.r = 16 then ['0', if f.r = .X then 'X' else 'x'] else if base f.r = 8 then ['0'] else [])
  else []

theorem countPrefix_spec (f : Fmt) (sharp : Bool) (s : Buf) :
    countPrefix f sharp s = ⟨s.out, s.n + (prefixText f sharp).length⟩ := by
  unfold countPrefix prefixText
  repeat' split
  all_goals rfl

theorem putPrefix_spec (f : Fmt) (sharp : Bool) (s : Buf) :
    putPrefix f sharp s = ⟨prefixText f sharp ++ s.out, s.n⟩ := by
  cases sharp with
  | false => rfl
  | true => cases kind : f.r <;> simp [putPrefix, prefixText, base, kind, Buf.put]

theorem countSign_spec (f : Fmt) (neg : Bool) (s : Buf) :
    countSign f neg s = ⟨s.out, s.n + (signOf f neg).length⟩ := by
  unfold countSign signOf
  cases neg <;> cases f.sign <;> cases f.space <;> rfl

theorem putSign_spec (f : Fmt) (neg : Bool) (s : Buf) : putSign f neg s = ⟨signOf f neg ++ s.out, s.n⟩ := by
  unfold putSign signOf
  cases neg <;> cases f.sign <;> cases f.space <;> rfl

/-- Beyond `0x` the prefix is a zero of an octal number. -/
theorem prefix_spec (f : Fmt) (s : Buf) : ∃ z, prefixText f (sharpIn f s) = prefixOf f ++ List.replicate z '0' ∧
    (prefixOf f).length + z ≤ 2 ∧ (base f.r = 2 → (prefixOf f).length + z = 0) := by
  by_cases hex : base f.r = 16
  · refine ⟨0, ?_, ?_, fun two => absurd (hex.symm.trans two) (by decide)⟩
    · cases sharp : f.sharp <;> simp [prefixText, sharpIn, prefixOf, hex, sharp]
    · unfold prefixOf
      split <;> simp only [List.length_cons, List.length_nil, Nat.zero_le, Nat.reduceAdd, le_refl]
  · have plain : prefixOf f = [] := by simp [prefixOf, hex]
    rw [plain]
    by_cases one : (sharpIn f s && decide (base f.r = 8)) = true
    · rw [Bool.and_eq_true, decide_eq_true_eq] at one
      exact ⟨1, by simp [prefixText, one], by decide, fun two => absurd (one.2.symm.trans two) (by decide)⟩
    · refine ⟨0, ?_, by decide, fun _ => rfl⟩
      cases sharp : sharpIn f s with
      | false => rfl
      | true =>
        rw [sharp, Bool.true_and, decide_eq_true_eq] at one
        simp [prefixText, hex, one]

theorem ndigits_le {r : Verb} {v k : Nat} (some : 0 < k) : ndigits r v ≤ k ↔ v < base r ^ k := by
  rw [ndigits, max_le_iff, Nat.digits_length_le_iff (base_pos r)]
  exact ⟨And.right, fun small => ⟨some, small⟩⟩

theorem magnitude_eq (f : Fmt) {vu : Nat} (bits : vu < 2 ^ 64) :
    magnitude f vu = (decide (value f vu < 0), (value f vu).natAbs) := by
  unfold magnitude value
  cases f.unsigned with
  | true => rfl
  | false =>
    have all : (BitVec.ofNat 64 vu).toInt = if vu < 2 ^ 63 then (vu : Int) else vu - 2 ^ 64 := by
      rw [BitVec.toInt_eq_toNat_cond, BitVec.toNat_ofNat, Nat.mod_eq_of_lt bits]
      split <;> split <;> omega
    by_cases high : 2 ^ 63 ≤ vu
    · have neg : ((vu : Int) - 2 ^ 64) < 0 := by omega
      rw [all, if_neg (Nat.not_lt.2 high), if_pos (by simpa using high), if_neg Bool.false_ne_true,
        decide_eq_true neg]
      exact congrArg _ (by omega)
    · rw [if_neg (by simpa using high), if_neg Bool.false_ne_true, all, if_pos (Nat.not_le.1 high)]
      have pos : ¬ (vu : Int) < 0 := by omega
      exact Prod.ext (decide_eq_false pos).symm rfl

theorem value_lt (f : Fmt) {vu : Nat} (bits : vu < 2 ^ 64) : (value f vu).natAbs < 2 ^ 64 := by
  have whole : (value f vu).natAbs = (magnitude f vu).2 := by rw [magnitude_eq f bits]
  rw [whole, magnitude]
  split
  · next high =>
    have pos := (Bool.and_eq_true _ _).mp high
    have some : 2 ^ 63 ≤ vu := of_decide_eq_true pos.2
    exact Nat.sub_lt (by decide) (by omega)
  · exact bits

/-- Outside binary, and in binary without commas, the number leaves room. -/
theorem body_le (f : Fmt) {v : Nat} (bits : v < 2 ^ 64) (narrow : f.r = .b → f.comma = false) :
    count f.comma (ndigits f.r v) ≤ if f.r = .b then 64 else 29 := by
  split
  · next bin =>
    rw [narrow bin]
    have few := (ndigits_le (r := f.r) (k := 64) (by decide)).2 (by rw [bin]; exact bits)
    exact few
  · next other =>
    have wide : 2 ^ 64 ≤ base f.r ^ 22 := by
      cases kind : f.r with
      | b => exact absurd kind other
      | _ => decide
    have few := (ndigits_le (r := f.r) (k := 22) (by decide)).2 (bits.trans_le wide)
    unfold count
    split <;> lia

/-- What is written: the sign, the prefix, the zeros and the number, and `n` counts it. -/
theorem ifmt_spec (f : Fmt) (vu : Nat) (body : List Char)
    {neg : Bool} {v : Nat} (mag : magnitude f vu = (neg, v)) (number : number f v = ⟨body, body.length⟩) : ∃ k,
    ifmt f vu = ⟨signOf f neg ++ prefixOf f ++ List.replicate k '0' ++ body,
      (signOf f neg).length + (prefixOf f).length + k + body.length⟩ ∧
    ((prefixOf f).length + k + body.length ≤ 68 ∨ (prefixOf f).length + k ≤ 2) ∧
    (base f.r = 2 → (prefixOf f).length + k + body.length ≤ 66 ∨ (prefixOf f).length + k = 0) := by
  obtain ⟨k, out, n, room⟩ := zeros_spec f.prec ⟨body, body.length⟩
  have first : zeros f.prec (Ifmt.number f v) = ⟨List.replicate k '0' ++ body, k + body.length⟩ := by
    rw [number, Nat.add_comm, ← n, ← out]
  obtain ⟨z, octal, few, none⟩ := prefix_spec f ⟨List.replicate k '0' ++ body, k + body.length⟩
  have length := congrArg List.length octal
  have widened (s : Buf) : ∃ m, (m = 0 ∨ m + s.out.length ≤ 66) ∧
      (if f.zero && !f.left then zeros f.width s else s) = ⟨List.replicate m '0' ++ s.out, s.n + m⟩ := by
    obtain ⟨m, out, n, room⟩ := zeros_spec f.width s
    split
    · exact ⟨m, room, by rw [← out, ← n]⟩
    · exact ⟨0, .inl rfl, rfl⟩
  obtain ⟨m, most, wide⟩ := widened ⟨List.replicate k '0' ++ body,
    k + body.length + (signOf f neg).length +
      (prefixText f (sharpIn f ⟨List.replicate k '0' ++ body, k + body.length⟩)).length⟩
  have zeros :
      List.replicate (z + m + k) '0' = List.replicate z '0' ++ (List.replicate m '0' ++ List.replicate k '0') := by
    rw [List.replicate_append_replicate, List.replicate_append_replicate, Nat.add_assoc]
  refine ⟨z + m + k, ?_, ?_, fun two => ?_⟩
  · simp only [ifmt, mag]
    rw [first, countSign_spec, countPrefix_spec, wide, putPrefix_spec, putSign_spec, octal, zeros]
    simp only [List.append_assoc, List.length_append, List.length_replicate, Buf.mk.injEq, true_and]
    omega
  · simp only [List.length_append, List.length_replicate] at most room
    omega
  · have gone := none two
    simp only [List.length_append, List.length_replicate] at most room
    omega

/-- The buffer is left intact and the text is the value, except for a long binary number with commas. -/
theorem ifmt_right (f : Fmt) (vu : Nat) (bits : vu < 2 ^ 64) : Right f vu ↔ Fits f vu := by
  obtain ⟨body, whole, length, digs, plain⟩ := number_spec f (value f vu).natAbs
  obtain ⟨k, all, room, bare⟩ := ifmt_spec f vu body (magnitude_eq f bits) whole
  have small := value_lt f bits
  have sign : (signOf f (value f vu < 0)).length ≤ 1 := by
    unfold signOf
    repeat' split
    all_goals decide
  have full : text f vu = signOf f (value f vu < 0) ++ prefixOf f ++ List.replicate k '0' ++ body := by
    rw [text, all]
    refine List.take_of_length_le ?_
    simp only [List.length_append, List.length_replicate]
    exact Nat.le_refl _
  have size : (ifmt f vu).out.length =
      (signOf f (value f vu < 0)).length + (prefixOf f).length + k + body.length := by
    rw [all]
    simp only [List.length_append, List.length_replicate]
  have enough : Right f vu ↔ (ifmt f vu).out.length ≤ 70 :=
    ⟨And.left, fun fits => ⟨fits, k, body, full, digs, plain⟩⟩
  rw [enough, size, Fits]
  by_cases wide : f.r = .b ∧ f.comma = true
  · obtain ⟨bin, comma⟩ := wide
    have two : base f.r = 2 := by rw [bin]; rfl
    have left := bare two
    have few (k : Nat) (some : 0 < k) := ndigits_le (r := f.r) (v := (value f vu).natAbs) some
    have most := few 53 (by decide)
    have less := few 52 (by decide)
    rw [comma, count, if_pos rfl] at length
    rw [two] at most less
    rw [← most, ← less, ← List.length_pos_iff]
    constructor
    · intro fits _ _
      lia
    · intro fits
      have := fits bin comma
      lia
  · have narrow : f.r = .b → f.comma = false := fun bin => Bool.eq_false_iff.2 fun comma => wide ⟨bin, comma⟩
    have few := body_le f small narrow
    rw [← length] at few
    refine iff_of_true ?_ fun bin comma => absurd ⟨bin, comma⟩ wide
    split at few
    · next bin =>
      have left := bare (by rw [bin]; rfl)
      lia
    · lia

/-- All 64 bits in binary with commas take 85 characters. -/
theorem ifmt_wrong : ¬ ∀ f vu, vu < 2 ^ 64 → Right f vu := by
  intro all
  have right := all ⟨.b, true, false, false, false, false, false, true, 0, 0⟩ (2 ^ 64 - 1) (by decide)
  have fits := right.1
  have long : (ifmt ⟨.b, true, false, false, false, false, false, true, 0, 0⟩ (2 ^ 64 - 1)).out.length = 85 := by
    decide +kernel
  omega

theorem ifmt_right_most :
    2 ^ 64 - 1 < 2 ^ 64 ∧ Right ⟨.x, true, true, true, false, true, false, true, 100, 0⟩ (2 ^ 64 - 1) :=
  ⟨by decide, (ifmt_right _ _ (by decide)).2 fun bin => nomatch bin⟩

end Inferno.Lib9.Ifmt
