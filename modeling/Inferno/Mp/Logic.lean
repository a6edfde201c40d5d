import Inferno.Mp.Shift

namespace Inferno.Mp

open Lib Mem Store

/-- `(int)x>>31|1`: -1 if the top bit of `x` is set, and 1 otherwise. -/
def signOf (x : UInt32) : Int := (x.toInt32 >>> 31 ||| 1).toInt

/-- The digit that `mplogic` makes of two, but for the carry. -/
def logicDigit (fl d1 d2 : UInt32) : UInt32 :=
  let d1 := if fl &&& 2 ≠ 0 then d1 ^^^ 0xffffffff else d1
  let d2 := if fl &&& 8 ≠ 0 then d2 ^^^ 0xffffffff else d2
  let d := d1 ||| d2
  if fl &&& 32 ≠ 0 then d ^^^ 0xffffffff else d

section Digits

-- what is made of two digits
variable (op : UInt32 → UInt32 → UInt32)

/-- The loop of `mplogic` and of `mpxor`, with `k` digits of the second operand left. -/
def logicLoop : Nat → Nat → Ptr → Ptr → Ptr → UInt32 → UInt32 → UInt32 → Mem → Mem × UInt32
  | 0, _, _, _, _, _, _, co, m => (m, co)
  | n + 1, k, dp1, dp2, dpo, c1, c2, co, m =>
    let d1 := m.word dp1 - c1
    let d2 := if 0 < k then m.word dp2 - c2 else 0
    let c1 := if d1 ≠ 0xffffffff then 0 else c1
    let c2 := if d2 ≠ 0xffffffff then 0 else c2
    let d := op d1 d2 + co
    let co := if d ≠ 0 then 0 else co
    logicLoop n (k - 1) (dp1 + 1) (dp2 + 1) (dpo + 1) c1 c2 co (m.set dpo d)

/-- How `mplogic` and `mpxor` go on once `b1` is the longer operand. -/
def logicDigits (c1 c2 co : UInt32) (b1 b2 sum : Nat) (s : Store) : Store :=
  let s := mpbits sum ((s.obj b1).top * 32 + 1) s
  let n := (s.obj b1).top
  let (m, co) := logicLoop op n (s.obj b2).top (s.obj b1).p (s.obj b2).p (s.obj sum).p c1 c2 co s.mem
  let s := ({ s with mem := m } : Store).upd sum { s.obj sum with top := n }
  let s :=
    if co ≠ 0 then
      ({ s with mem := s.mem.set ((s.obj sum).p + n) co } : Store).upd sum { s.obj sum with top := n + 1 }
    else s
  mpnorm sum s

end Digits

/-- The flags once the longer operand is the first one. -/
def swapFlags (fl : UInt32) : UInt32 :=
  (fl >>> 2 &&& (0x03 : UInt32)) ||| (fl <<< 2 &&& (0x0c : UInt32)) ||| (fl &&& 0x30)

def mplogic (fl : UInt32) (b1 b2 sum : Nat) (s : Store) : Store :=
  if (s.obj b1).flags || (s.obj b2).flags || (s.obj sum).flags then { s with fatal := true }
  else
    let fl := if (s.obj b1).sign < 0 then fl ^^^ 0x03 else fl
    let fl := if (s.obj b2).sign < 0 then fl ^^^ 0x0c else fl
    let sign := signOf (((fl ||| fl >>> 2) ^^^ fl >>> 4) <<< 30)
    let s := s.upd sum { s.obj sum with sign := sign }
    let fl := if sign < 0 then fl ^^^ 0x30 else fl
    if (s.obj b2).top > (s.obj b1).top then
      let fl := swapFlags fl
      logicDigits (logicDigit fl) (fl &&& 1) (fl >>> 2 &&& 1) (fl >>> 4 &&& 1) b2 b1 sum s
    else logicDigits (logicDigit fl) (fl &&& 1) (fl >>> 2 &&& 1) (fl >>> 4 &&& 1) b1 b2 sum s

def mpor : Nat → Nat → Nat → Store → Store := mplogic 0

def mpand : Nat → Nat → Nat → Store → Store := mplogic 0x2a

def mpbic : Nat → Nat → Nat → Store → Store := mplogic 0x22

/-- `mpxor` once `b1` is the longer operand. -/
def mpxorSorted (b1 b2 sum : Nat) (s : Store) : Store :=
  let fl := (UInt32.ofInt (s.obj b1).sign &&& 10) ^^^ (UInt32.ofInt (s.obj b2).sign &&& 12)
  let s := s.upd sum { s.obj sum with sign := signOf (fl <<< 28) }
  logicDigits (· ^^^ ·) (fl >>> 1 &&& 1) (fl >>> 2 &&& 1) (fl >>> 3 &&& 1) b1 b2 sum s

def mpxor (b1 b2 sum : Nat) (s : Store) : Store :=
  if (s.obj b1).flags || (s.obj b2).flags || (s.obj sum).flags then { s with fatal := true }
  else if (s.obj b2).top > (s.obj b1).top then mpxorSorted b2 b1 sum s
  else mpxorSorted b1 b2 sum s

def mpnot (mpzero mpone b r : Nat) (s : Store) : Store :=
  let s := mpadd mpzero b mpone r s
  if (s.obj r).top ≠ 0 then s.upd r { s.obj r with sign := Int.xor (s.obj r).sign (-2) } else s

section Loop

variable {f : Bool → Bool → Bool} {op : UInt32 → UInt32 → UInt32} {m m' : Mem} {dp1 dp2 dpo : Ptr} {n k : Nat}
  {x c c1 c2 co co' : UInt32}

/-- A bitwise operation on numbers, by their lowest digits and the others. -/
theorem bitwise_digits (zero : f false false = false) {x y a b : Nat} (xLt : x < 2 ^ 32) (yLt : y < 2 ^ 32) :
    Nat.bitwise f (x + 2 ^ 32 * a) (y + 2 ^ 32 * b) = Nat.bitwise f x y + 2 ^ 32 * Nat.bitwise f a b := by
  have low : Nat.bitwise f x y < 2 ^ 32 := Nat.bitwise_lt_two_pow xLt yLt
  refine Nat.eq_of_testBit_eq fun i => ?_
  rw [Nat.testBit_bitwise zero, Nat.add_comm x, Nat.add_comm y, Nat.add_comm (Nat.bitwise f x y),
    Nat.testBit_two_pow_mul_add _ xLt, Nat.testBit_two_pow_mul_add _ yLt, Nat.testBit_two_pow_mul_add _ low]
  split
  · rw [Nat.testBit_bitwise zero]
  · rw [Nat.testBit_bitwise zero]

/-- A digit of a number less the borrow. -/
theorem borrow_step {a : Nat} (le : c.toNat ≤ 1) (some_ : c.toNat ≤ x.toNat + 2 ^ 32 * a) :
    let c' := if x - c ≠ 0xffffffff then 0 else c
    c'.toNat ≤ 1 ∧ c'.toNat ≤ a ∧ x.toNat + 2 ^ 32 * a - c.toNat = (x - c).toNat + 2 ^ 32 * (a - c'.toNat) := by
  have bound := x.toNat_lt
  simp only [Ne, ← UInt32.toNat_inj, UInt32.toNat_sub]
  split <;> simp_all <;> lia

/-- A digit of the output and the carry that is added to it. -/
theorem carry_step (le : co.toNat ≤ 1) :
    let co' := if x + co ≠ 0 then 0 else co
    co'.toNat ≤ 1 ∧ x.toNat + co.toNat = (x + co).toNat + 2 ^ 32 * co'.toNat := by
  have bound := x.toNat_lt
  simp only [Ne, ← UInt32.toNat_inj, UInt32.toNat_add]
  split <;> simp_all <;> omega

/-- The loop works bitwise on the numbers less the borrows, and adds the carry. -/
theorem logicLoop_spec (zero : f false false = false) (bits : ∀ x y, (op x y).toNat = Nat.bitwise f x.toNat y.toNat)
    (unit₁ : c1.toNat ≤ 1) (unit₂ : c2.toNat ≤ 1) (unit_ : co.toNat ≤ 1) (some₁ : c1.toNat ≤ m.val dp1 n)
    (some₂ : c2.toNat ≤ m.val dp2 (min k n)) (ahead₁ : Ahead dpo dp1 n) (ahead₂ : Ahead dpo dp2 n)
    (value : logicLoop op n k dp1 dp2 dpo c1 c2 co m = (m', co')) :
    Writes m m' dpo n ∧ co'.toNat ≤ 1 ∧ m'.val dpo n + 2 ^ (32 * n) * co'.toNat =
      Nat.bitwise f (m.val dp1 n - c1.toNat) (m.val dp2 (min k n) - c2.toNat) + co.toNat := by
  induction n generalizing k dp1 dp2 dpo c1 c2 co m with
  | zero =>
    obtain ⟨rfl, rfl⟩ := Prod.mk.inj value
    exact ⟨Writes.refl, unit_, by simp [val]⟩
  | succ n ih =>
    -- the digits of the second operand, which may have come to its end
    obtain ⟨y, digits₂, read⟩ : ∃ y : UInt32,
        m.val dp2 (min k (n + 1)) = y.toNat + 2 ^ 32 * m.val (dp2 + 1) (min (k - 1) n) ∧
          (if 0 < k then m.word dp2 - c2 else 0) = y - c2 := by
      cases k with
      | zero =>
        have none_ : c2 = 0 := UInt32.toNat_inj.mp (Nat.le_zero.mp (by simpa [val] using some₂))
        exact ⟨0, by simp [val], by simp [none_]⟩
      | succ k =>
        refine ⟨m.word dp2, ?_, if_pos k.succ_pos⟩
        rw [Nat.succ_sub_one, Nat.succ_min_succ]
        rfl
    rw [val_cons] at some₁
    rw [digits₂] at some₂
    simp only [logicLoop, read] at value
    obtain ⟨unit₁', some₁', digit₁⟩ := borrow_step unit₁ some₁
    obtain ⟨unit₂', some₂', digit₂⟩ := borrow_step unit₂ some₂
    obtain ⟨unit', carry⟩ := carry_step (x := op (m.word dp1 - c1) (y - c2)) unit_
    rw [bits] at carry
    generalize (if m.word dp1 - c1 ≠ 0xffffffff then 0 else c1) = c1' at unit₁' some₁' digit₁ value
    generalize (if y - c2 ≠ 0xffffffff then 0 else c2) = c2' at unit₂' some₂' digit₂ value
    generalize (if op (m.word dp1 - c1) (y - c2) + co ≠ 0 then 0 else co) = co₁ at unit' carry value
    generalize op (m.word dp1 - c1) (y - c2) + co = d at carry value
    have kept : (m.set dpo d).val (dp2 + 1) (min (k - 1) n) = m.val (dp2 + 1) (min (k - 1) n) := by
      refine Ahead.val_set ?_
      unfold Ahead at ahead₂ ⊢
      lia
    obtain ⟨writes, last, rest⟩ := ih unit₁' unit₂' unit' (by rwa [ahead₁.val_set]) (by rwa [kept]) ahead₁.step ahead₂.step
      value
    obtain ⟨all, here⟩ := writes.cons
    refine ⟨all, last, ?_⟩
    rw [kept, ahead₁.val_set] at rest
    rw [val_cons m dp1, digits₂, digit₁, digit₂, bitwise_digits zero (UInt32.toNat_lt _) (UInt32.toNat_lt _), val_cons,
      here, two_pow_succ, Nat.mul_assoc]
    lia

end Loop

section Values

variable {s : Store} {b b1 b2 c n k sum : Nat} {f : Bool → Bool → Bool} {op : UInt32 → UInt32 → UInt32}

/-- The digits that an operand has got, if it is the result, are 0. -/
theorem mpbits_grown (ok : s.Ok) (live : s.live c) (liveB : s.live b) (low : (s.obj b).top ≤ k)
    (high : k ≤ ((mpbits c n s).obj b).top) : (mpbits c n s).mem.val ((mpbits c n s).obj b).p k = s.mag b := by
  have operand := (mpbits_operand (n := n) ok live liveB).1
  obtain ⟨j, rfl⟩ := Nat.exists_eq_add_of_le low
  rw [val_add, operand]
  obtain ⟨frame, -, -, top, -, zeros⟩ := mpbits_spec (n := n) ok live
  have none_ : (mpbits c n s).mem.val (((mpbits c n s).obj b).p + (s.obj b).top) j = 0 := by
    by_cases same : b = c
    · subst same
      refine val_zero fun i less => ?_
      rw [Ptr.add_add]
      exact zeros _ (Nat.le_add_right ..) (by omega)
    · rw [frame.obj b liveB same] at high
      obtain rfl : j = 0 := by omega
      rfl
  rw [none_, Nat.mul_zero, Nat.add_zero]

theorem logicDigits_spec (c1 c2 co : UInt32) (zero : f false false = false)
    (bits : ∀ x y, (op x y).toNat = Nat.bitwise f x.toNat y.toNat)
    (ok : s.Ok) (live₁ : s.live b1) (live₂ : s.live b2) (live : s.live sum) (sorted : (s.obj b2).top ≤ (s.obj b1).top)
    (units : c1.toNat ≤ 1 ∧ c2.toNat ≤ 1 ∧ co.toNat ≤ 1) (some₁ : c1.toNat ≤ s.mag b1) (some₂ : c2.toNat ≤ s.mag b2)
    (sign : (s.obj sum).sign = 1 ∨ (s.obj sum).sign = -1) :
    Frame (· = sum) s (logicDigits op c1 c2 co b1 b2 sum s) ∧ (logicDigits op c1 c2 co b1 b2 sum s).Number sum ∧
      (logicDigits op c1 c2 co b1 b2 sum s).int sum =
        (s.obj sum).sign * (Nat.bitwise f (s.mag b1 - c1.toNat) (s.mag b2 - c2.toNat) + co.toNat : Nat) ∧
      ((logicDigits op c1 c2 co b1 b2 sum s).obj sum).flags = (s.obj sum).flags := by
  unfold logicDigits
  dsimp only
  obtain ⟨grown, sign', flags, top, -, -⟩ := mpbits_spec (n := (s.obj b1).top * 32 + 1) ok live
  have value₁ := mpbits_grown (n := (s.obj b1).top * 32 + 1) ok live live₁ (mpbits_operand ok live live₁).2.2 le_rfl
  have value₂ := fun k => mpbits_grown (k := k) (n := (s.obj b1).top * 32 + 1) ok live live₂
  have longer := (mpbits_operand (n := (s.obj b1).top * 32 + 1) ok live live₁).2.2
  have longer₂ := (mpbits_operand (n := (s.obj b1).top * 32 + 1) ok live live₂).2.2
  have room : ((mpbits sum ((s.obj b1).top * 32 + 1) s).obj b1).top = (s.obj b1).top ∨
      ((mpbits sum ((s.obj b1).top * 32 + 1) s).obj b1).top ≤
        ((mpbits sum ((s.obj b1).top * 32 + 1) s).obj sum).top := by
    by_cases same : b1 = sum
    · exact Or.inr (by rw [same])
    · exact Or.inl (by rw [grown.obj b1 live₁ same])
  rw [show digits ((s.obj b1).top * 32 + 1) = (s.obj b1).top + 1 by unfold digits; lia] at top
  generalize mpbits sum ((s.obj b1).top * 32 + 1) s = s₁ at grown sign' flags top value₁ value₂ longer longer₂ room ⊢
  have live' := grown.live sum live
  have size := grown.ok.top sum live'
  rcases looped : logicLoop op (s₁.obj b1).top (s₁.obj b2).top (s₁.obj b1).p (s₁.obj b2).p (s₁.obj sum).p c1 c2 co
    s₁.mem with ⟨m, co'⟩
  dsimp only
  have shorter : (s.obj b2).top ≤ min (s₁.obj b2).top (s₁.obj b1).top :=
    Nat.le_min.mpr ⟨longer₂, sorted.trans longer⟩
  obtain ⟨writes, unit_, total⟩ := logicLoop_spec zero bits units.1 units.2.1 units.2.2 (by rw [value₁]; exact some₁)
    (by rw [value₂ _ shorter (Nat.min_le_left ..)]; exact some₂) (ahead grown.ok (grown.live b1 live₁) live' _)
    (ahead grown.ok (grown.live b2 live₂) live' _) looped
  rw [value₁, value₂ _ shorter (Nat.min_le_left ..)] at total
  have small : Nat.bitwise f (s.mag b1 - c1.toNat) (s.mag b2 - c2.toNat) < 2 ^ (32 * (s.obj b1).top) := by
    have power : 2 ^ (32 * (s.obj b2).top) ≤ 2 ^ (32 * (s.obj b1).top) := Nat.pow_le_pow_right (by decide) (by lia)
    have mag₁ := s.mag_lt b1
    have mag₂ := s.mag_lt b2
    exact Nat.bitwise_lt_two_pow (by lia) (by lia)
  rw [← total]
  by_cases none_ : co' = 0
  · rw [if_neg (not_not.mpr none_)]
    obtain ⟨frame, number, -, int, flags'⟩ := settle (s₁.obj sum).sign (s₁.obj b1).top grown.ok live' writes (by lia)
      (by lia) (by rw [sign']; exact sign)
    refine ⟨grown.trans frame fun _ _ => id, number, int.trans ?_, flags'.trans flags⟩
    rw [sign', none_, UInt32.toNat_zero, Nat.mul_zero, Nat.add_zero]
  · -- the carry is a digit of its own, for which there is room
    have one : co'.toNat = 1 := by
      have some_ : co'.toNat ≠ 0 := fun zero => none_ (UInt32.toNat_inj.mp zero)
      lia
    have exact_ : (s₁.obj b1).top = (s.obj b1).top := by
      by_contra more
      have power : 2 ^ (32 * (s.obj b1).top) < 2 ^ (32 * (s₁.obj b1).top) := Nat.pow_lt_pow_right (by decide) (by lia)
      rw [one] at total
      lia
    have last : Writes m (m.set ((s₁.obj sum).p + (s₁.obj b1).top) co') (s₁.obj sum).p ((s₁.obj b1).top + 1) :=
      Writes.set ⟨rfl, by simp, by simp⟩
    have value : (m.set ((s₁.obj sum).p + (s₁.obj b1).top) co').val (s₁.obj sum).p ((s₁.obj b1).top + 1) =
        m.val (s₁.obj sum).p (s₁.obj b1).top + 2 ^ (32 * (s₁.obj b1).top) * co'.toNat := by
      rw [val_succ, set_self]
      exact congrArg (· + _) (val_set_above (Or.inr le_rfl) le_rfl co')
    rw [if_pos none_, upd_self, upd_upd, upd_mem]
    obtain ⟨frame, number, -, int, flags'⟩ := settle (s₁.obj sum).sign ((s₁.obj b1).top + 1) grown.ok live'
      ((writes.widen ⟨rfl, le_rfl, by lia⟩).trans last) (by lia) (by lia) (by rw [sign']; exact sign)
    refine ⟨grown.trans frame fun _ _ => id, number, int.trans ?_, flags'.trans flags⟩
    rw [sign', value]

end Values

section Signs

variable {g : Bool → Bool → Bool}

/-- What a bitwise operation on integers does to the bits that their signs leave. -/
def signedBit (g : Bool → Bool → Bool) (neg₁ neg₂ a b : Bool) : Bool := g (neg₁ ^^ a) (neg₂ ^^ b) ^^ g neg₁ neg₂

@[simp] theorem signedBit_false (neg₁ neg₂ : Bool) : signedBit g neg₁ neg₂ false false = false := by
  simp [signedBit]

/-- An integer by its sign and the bits that the sign leaves. -/
def signed (neg : Bool) (n : Nat) : Int := if neg then Int.negSucc n else Int.ofNat n

theorem natBitwise_eq (h : Bool → Bool → Bool) (m n : Nat) : Int.natBitwise h m n =
    (if h false false then -1 else 1) *
      ((Nat.bitwise (fun a b => h a b ^^ h false false) m n + (h false false).toNat : Nat) : Int) := by
  unfold Int.natBitwise
  cases h false false
  · simp
  · simp [Int.negSucc_eq]

theorem bitwise_signed (neg₁ neg₂ : Bool) (m n : Nat) : Int.bitwise g (signed neg₁ m) (signed neg₂ n) =
    (if g neg₁ neg₂ then -1 else 1) *
      ((Nat.bitwise (signedBit g neg₁ neg₂) m n + (g neg₁ neg₂).toNat : Nat) : Int) := by
  have bits : Int.bitwise g (signed neg₁ m) (signed neg₂ n) =
      Int.natBitwise (fun a b => g (neg₁ ^^ a) (neg₂ ^^ b)) m n := by
    cases neg₁ <;> cases neg₂ <;> simp [signed, Int.bitwise]
  rw [bits, natBitwise_eq]
  simp only [Bool.xor_false]
  rfl

theorem natBitwise_swap (h : Bool → Bool → Bool) (m n : Nat) :
    Int.natBitwise (fun a b => h b a) m n = Int.natBitwise h n m := by
  have swap (h : Bool → Bool → Bool) : Nat.bitwise (fun a b => h b a) m n = Nat.bitwise h n m :=
    congrFun (congrFun (Nat.bitwise_swap (f := h)) m) n
  unfold Int.natBitwise
  rw [swap h, swap fun a b => !h a b]

/-- The operands the other way round. -/
theorem bitwise_swap (x y : Int) : Int.bitwise (fun a b => g b a) x y = Int.bitwise g y x := by
  cases x with
  | ofNat m =>
    cases y with
    | ofNat n => exact natBitwise_swap g m n
    | negSucc n => exact natBitwise_swap (fun a b => g (!a) b) m n
  | negSucc m =>
    cases y with
    | ofNat n => exact natBitwise_swap (fun a b => g a !b) m n
    | negSucc n => exact natBitwise_swap (fun a b => g (!a) !b) m n

/-- Whether an object is negative. -/
def Store.neg (s : Store) (b : Nat) : Bool := (s.obj b).sign < 0

variable {s : Store} {b b1 b2 c sum : Nat} {op : UInt32 → UInt32 → UInt32} {c1 c2 co : UInt32} {fl : UInt32}

theorem Store.Number.signed (number : s.Number b) :
    (s.neg b).toNat ≤ s.mag b ∧ s.int b = Mp.signed (s.neg b) (s.mag b - (s.neg b).toNat) := by
  unfold neg Mp.signed
  rcases number.toShaped.int_cases with ⟨sign, int⟩ | ⟨sign, int⟩
  · rw [sign, int]
    exact ⟨Nat.zero_le _, rfl⟩
  · have some_ := number.some_of_neg sign
    rw [sign, int]
    refine ⟨Nat.one_le_iff_ne_zero.mpr some_, ?_⟩
    simp only [Int.reduceNeg, Int.reduceLT, decide_true, if_true, Bool.toNat_true, Int.negSucc_eq]
    lia

theorem upd_sign (sign : Int) (b : Nat) : (s.upd c { s.obj c with sign := sign }).mag b = s.mag b ∧
    ((s.upd c { s.obj c with sign := sign }).obj b).top = (s.obj b).top := by
  have top : ((s.upd c { s.obj c with sign := sign }).obj b).top = (s.obj b).top := by
    by_cases same : b = c
    · rw [same, upd_self]
    · rw [upd_of_ne same]
  refine ⟨?_, top⟩
  rw [mag, mag, top, upd_p (by rfl), upd_mem]

/-- The loop gives the operation on the integers, when its parts are what their signs ask for. -/
theorem logicDigits_number (ok : s.Ok) (first : s.Number b1) (second : s.Number b2) (live : s.live sum)
    (sorted : (s.obj b2).top ≤ (s.obj b1).top)
    (bits : ∀ x y, (op x y).toNat = Nat.bitwise (signedBit g (s.neg b1) (s.neg b2)) x.toNat y.toNat)
    (carries : c1.toNat = (s.neg b1).toNat ∧ c2.toNat = (s.neg b2).toNat ∧ co.toNat = (g (s.neg b1) (s.neg b2)).toNat)
    {sign : Int} (signs : sign = if g (s.neg b1) (s.neg b2) then -1 else 1) :
    let s' := logicDigits op c1 c2 co b1 b2 sum (s.upd sum { s.obj sum with sign := sign })
    Frame (· = sum) s s' ∧ s'.Number sum ∧ s'.int sum = Int.bitwise g (s.int b1) (s.int b2) ∧
      (s'.obj sum).flags = (s.obj sum).flags := by
  intro s'
  obtain ⟨units, units', units''⟩ := carries
  obtain ⟨some₁, int₁⟩ := first.signed
  obtain ⟨some₂, int₂⟩ := second.signed
  have changed := upd_frame (o := { s.obj sum with sign := sign }) ok live rfl rfl (ok.top sum live)
  obtain ⟨mag₁, top₁⟩ := upd_sign (s := s) (c := sum) sign b1
  obtain ⟨mag₂, top₂⟩ := upd_sign (s := s) (c := sum) sign b2
  have unit_ : sign = 1 ∨ sign = -1 := by
    rw [signs]
    split
    · exact Or.inr rfl
    · exact Or.inl rfl
  have small (b : Bool) : b.toNat ≤ 1 := Bool.toNat_le b
  obtain ⟨frame, number, int, flags⟩ := logicDigits_spec c1 c2 co (signedBit_false _ _) bits changed.ok
    (changed.live b1 first.live) (changed.live b2 second.live) (changed.live sum live) (by rw [top₁, top₂]; exact sorted)
    (by rw [units, units', units'']; exact ⟨small _, small _, small _⟩) (by rw [mag₁, units]; exact some₁)
    (by rw [mag₂, units']; exact some₂) (by rw [upd_self]; exact unit_)
  refine ⟨changed.trans frame fun _ _ => id, number, int.trans ?_, flags.trans (by rw [upd_self])⟩
  rw [upd_self, mag₁, mag₂, units, units', units'', int₁, int₂, bitwise_signed]
  exact congrArg (· * _) signs

/-- The bits that `logicDigit` makes. -/
def logicBit (fl : UInt32) (a b : Bool) : Bool :=
  ((decide (fl &&& 2 ≠ 0) ^^ a) || (decide (fl &&& 8 ≠ 0) ^^ b)) ^^ decide (fl &&& 32 ≠ 0)

theorem logicDigit_bits (zero : logicBit fl false false = false) (x y : UInt32) :
    (logicDigit fl x y).toNat = Nat.bitwise (logicBit fl) x.toNat y.toNat := by
  refine Nat.eq_of_testBit_eq fun i => ?_
  rw [Nat.testBit_bitwise zero]
  have invert (p : Prop) [Decidable p] (d : UInt32) (less : i < 32) :
      (if p then d ^^^ 0xffffffff else d).toNat.testBit i = (decide p ^^ d.toNat.testBit i) := by
    by_cases holds : p
    · have ones : (0xffffffff : UInt32).toNat.testBit i = true := by
        rw [show (0xffffffff : UInt32).toNat = 2 ^ 32 - 1 from rfl, Nat.testBit_two_pow_sub_one]
        exact decide_eq_true less
      simp only [holds, if_true, UInt32.toNat_xor, Nat.testBit_xor, ones, decide_true, Bool.xor_comm]
    · simp [holds]
  by_cases less : i < 32
  · unfold logicDigit logicBit
    dsimp only
    rw [invert _ _ less, UInt32.toNat_or, Nat.testBit_or, invert _ _ less, invert _ _ less, Bool.xor_comm]
  · have high (d : UInt32) : d.toNat.testBit i = false :=
      Nat.testBit_lt_two_pow (d.toNat_lt.trans_le (Nat.pow_le_pow_right (by decide) (Nat.not_lt.mp less)))
    rw [high, high, high, zero]

/-- The flags of `mplogic` once they are adjusted to the signs of the operands, and the sign of the result. -/
def adjusted (fl : UInt32) (neg₁ neg₂ : Bool) : UInt32 × Int :=
  let fl := if neg₁ then fl ^^^ 0x03 else fl
  let fl := if neg₂ then fl ^^^ 0x0c else fl
  let sign := signOf (((fl ||| fl >>> 2) ^^^ fl >>> 4) <<< 30)
  (if sign < 0 then fl ^^^ 0x30 else fl, sign)

/-- The flags ask for the operation on what the signs leave of the operands. -/
structure Asks (g : Bool → Bool → Bool) (neg₁ neg₂ : Bool) (fl : UInt32) : Prop where
  bit : ∀ a b, logicBit fl a b = signedBit g neg₁ neg₂ a b
  borrow₁ : (fl &&& 1).toNat = neg₁.toNat
  borrow₂ : (fl >>> 2 &&& 1).toNat = neg₂.toNat
  carry : (fl >>> 4 &&& 1).toNat = (g neg₁ neg₂).toNat

theorem Asks.digit {neg₁ neg₂ : Bool} (asks : Asks g neg₁ neg₂ fl) (x y : UInt32) :
    (logicDigit fl x y).toNat = Nat.bitwise (signedBit g neg₁ neg₂) x.toNat y.toNat := by
  have same : logicBit fl = signedBit g neg₁ neg₂ := funext fun a => funext (asks.bit a)
  rw [logicDigit_bits (by rw [same, signedBit_false]), same]

/-- The flags of `mplogic` that make it an operation on integers, whatever the signs of the operands and their order. -/
structure Makes (fl : UInt32) (g : Bool → Bool → Bool) : Prop where
  sign : ∀ neg₁ neg₂, (adjusted fl neg₁ neg₂).2 = if g neg₁ neg₂ then -1 else 1
  asks : ∀ neg₁ neg₂, Asks g neg₁ neg₂ (adjusted fl neg₁ neg₂).1
  swapped : ∀ neg₁ neg₂, Asks (fun a b => g b a) neg₂ neg₁ (swapFlags (adjusted fl neg₁ neg₂).1)

theorem makes_or : Makes 0 or where
  sign := by decide
  asks neg₁ neg₂ := by constructor <;> revert neg₁ neg₂ <;> decide
  swapped neg₁ neg₂ := by constructor <;> revert neg₁ neg₂ <;> decide

theorem makes_and : Makes 0x2a and where
  sign := by decide
  asks neg₁ neg₂ := by constructor <;> revert neg₁ neg₂ <;> decide
  swapped neg₁ neg₂ := by constructor <;> revert neg₁ neg₂ <;> decide

theorem makes_diff : Makes 0x22 (fun a b => a && not b) where
  sign := by decide
  asks neg₁ neg₂ := by constructor <;> revert neg₁ neg₂ <;> decide
  swapped neg₁ neg₂ := by constructor <;> revert neg₁ neg₂ <;> decide

theorem mplogic_eq (plain : (s.obj b1).flags = false ∧ (s.obj b2).flags = false ∧ (s.obj sum).flags = false) :
    mplogic fl b1 b2 sum s =
      (let (fl, sign) := adjusted fl (s.neg b1) (s.neg b2)
       let s' := s.upd sum { s.obj sum with sign := sign }
       if (s.obj b2).top > (s.obj b1).top then
         logicDigits (logicDigit (swapFlags fl)) (swapFlags fl &&& 1) (swapFlags fl >>> 2 &&& 1)
           (swapFlags fl >>> 4 &&& 1) b2 b1 sum s'
       else logicDigits (logicDigit fl) (fl &&& 1) (fl >>> 2 &&& 1) (fl >>> 4 &&& 1) b1 b2 sum s') := by
  unfold mplogic
  rw [plain.1, plain.2.1, plain.2.2, if_neg (by decide)]
  simp only [adjusted, neg, decide_eq_true_eq, (upd_sign _ _).2]

/-- The logical operations, of objects without flags. -/
theorem mplogic_spec (makes : Makes fl g) (ok : s.Ok) (first : s.Number b1) (second : s.Number b2) (live : s.live sum)
    (plain : (s.obj b1).flags = false ∧ (s.obj b2).flags = false ∧ (s.obj sum).flags = false) :
    Frame (· = sum) s (mplogic fl b1 b2 sum s) ∧ (mplogic fl b1 b2 sum s).Number sum ∧
      (mplogic fl b1 b2 sum s).int sum = Int.bitwise g (s.int b1) (s.int b2) ∧
      ((mplogic fl b1 b2 sum s).obj sum).flags = (s.obj sum).flags := by
  have sign := makes.sign (s.neg b1) (s.neg b2)
  have asks := makes.asks (s.neg b1) (s.neg b2)
  have swapped := makes.swapped (s.neg b1) (s.neg b2)
  rw [mplogic_eq plain]
  generalize adjusted fl (s.neg b1) (s.neg b2) = made at sign asks swapped ⊢
  obtain ⟨fl', sign'⟩ := made
  dsimp only at sign asks swapped ⊢
  split
  · rename_i longer
    rw [show g = fun a b => (fun a b => g b a) b a from rfl, bitwise_swap]
    exact logicDigits_number ok second first live longer.le swapped.digit
      ⟨swapped.borrow₁, swapped.borrow₂, swapped.carry⟩ sign
  · rename_i shorter
    exact logicDigits_number ok first second live (Nat.not_lt.mp shorter) asks.digit
      ⟨asks.borrow₁, asks.borrow₂, asks.carry⟩ sign

theorem mpxorSorted_spec (ok : s.Ok) (first : s.Number b1) (second : s.Number b2) (live : s.live sum)
    (sorted : (s.obj b2).top ≤ (s.obj b1).top) :
    Frame (· = sum) s (mpxorSorted b1 b2 sum s) ∧ (mpxorSorted b1 b2 sum s).Number sum ∧
      (mpxorSorted b1 b2 sum s).int sum = Int.bitwise xor (s.int b1) (s.int b2) ∧
      ((mpxorSorted b1 b2 sum s).obj sum).flags = (s.obj sum).flags := by
  have mask (b : Nat) (number : s.Number b) (mask : UInt32) : UInt32.ofInt (s.obj b).sign &&& mask =
      if s.neg b then mask else 1 &&& mask := by
    unfold neg
    rcases number.sign with sign | sign
    · rw [sign]
      rfl
    · rw [sign]
      exact UInt32.neg_one_and
  have plain : signedBit xor (s.neg b1) (s.neg b2) = xor := by
    funext a b
    cases s.neg b1 <;> cases s.neg b2 <;> cases a <;> cases b <;> rfl
  unfold mpxorSorted
  dsimp only
  rw [mask b1 first, mask b2 second]
  refine logicDigits_number ok first second live sorted (fun x y => ?_) ?_ ?_
  · rw [plain, UInt32.toNat_xor]
    rfl
  · cases s.neg b1 <;> cases s.neg b2 <;> decide
  · cases s.neg b1 <;> cases s.neg b2 <;> decide

theorem mpxor_spec (ok : s.Ok) (first : s.Number b1) (second : s.Number b2) (live : s.live sum)
    (plain : (s.obj b1).flags = false ∧ (s.obj b2).flags = false ∧ (s.obj sum).flags = false) :
    Frame (· = sum) s (mpxor b1 b2 sum s) ∧ (mpxor b1 b2 sum s).Number sum ∧
      (mpxor b1 b2 sum s).int sum = Int.xor (s.int b1) (s.int b2) ∧
      ((mpxor b1 b2 sum s).obj sum).flags = (s.obj sum).flags := by
  unfold mpxor
  rw [if_neg (by rw [plain.1, plain.2.1, plain.2.2]; decide), ← Int.bitwise_xor]
  split
  · rename_i longer
    rw [← bitwise_swap, show (fun a b => xor b a) = xor from funext fun a => funext fun b => Bool.xor_comm b a]
    exact mpxorSorted_spec ok second first live longer.le
  · rename_i shorter
    exact mpxorSorted_spec ok first second live (Nat.not_lt.mp shorter)

theorem mpnot_spec {mpzero mpone r : Nat} (statics : s.Statics mpzero mpone) (ok : s.Ok) (number : s.Number b)
    (live : s.live r) : Frame (· = r) s (mpnot mpzero mpone b r s) ∧ (mpnot mpzero mpone b r s).Number r ∧
    (mpnot mpzero mpone b r s).int r = Int.lnot (s.int b) ∧
    ((mpnot mpzero mpone b r s).obj r).flags = (s.obj r).flags := by
  unfold mpnot
  dsimp only
  obtain ⟨frame, number', int, flags⟩ :=
    mpadd_spec ok statics.zero_number number.toShaped statics.one_number.1.toShaped live
  rw [statics.one_number.2] at int
  generalize mpadd mpzero b mpone r s = s₁ at frame number' int flags ⊢
  have not_ : Int.lnot (s.int b) = -s₁.int r := by
    rw [int]
    cases s.int b with
    | ofNat n => exact Int.negSucc_eq n
    | negSucc n => rw [Int.negSucc_eq]; exact (by simp : ((n : Nat) : Int) = -(-((n : Int) + 1) + 1))
  split
  · rename_i some_
    have flip : Int.xor (s₁.obj r).sign (-2) = -(s₁.obj r).sign := by
      rcases number'.sign with sign | sign <;> rw [sign] <;> rfl
    obtain ⟨changed, number'', int', flags'⟩ := resign (Int.xor (s₁.obj r).sign (-2)) frame.ok number'.toShaped
      (by rw [flip]; rcases number'.sign with sign | sign <;> rw [sign] <;> decide)
      fun none_ => absurd (number'.mag_eq_zero.mp none_) some_
    refine ⟨frame.trans changed fun _ _ => id, number'', int'.trans ?_, flags'.trans flags⟩
    rw [not_, flip, Store.int, neg_mul]
  · rename_i none_
    have zero : s₁.int r = 0 := by
      rw [Store.int, number'.mag_eq_zero.mpr (not_not.mp none_)]
      simp
    exact ⟨frame, number', by rw [not_, zero, neg_zero], flags⟩

end Signs

end Inferno.Mp
