import Inferno.Lib.Limb

namespace Inferno.Mp

open Lib

/-- A turn of the first loop of `mpvecadd`: the digit it stores, and the new carry. -/
def addDigits (x y carry : UInt32) : UInt32 × UInt32 :=
  let x := x + carry
  let carry : UInt32 := if x < carry then 1 else 0
  let x := x + y
  (x, if x < y then carry + 1 else carry)

/-- A turn of the second loop. -/
def addCarry (x carry : UInt32) : UInt32 × UInt32 :=
  let x := x + carry
  (x, if x < carry then 1 else 0)

def mpvecaddLoop : Nat → Ptr → Ptr → Ptr → UInt32 → Mem → Mem × UInt32
  | 0, _, _, _, carry, m => (m, carry)
  | n + 1, a, b, sum, carry, m =>
    let (x, carry) := addDigits (m.word a) (m.word b) carry
    mpvecaddLoop n (a + 1) (b + 1) (sum + 1) carry (m.set sum x)

def mpvecaddRest : Nat → Ptr → Ptr → UInt32 → Mem → Mem × UInt32
  | 0, _, _, carry, m => (m, carry)
  | n + 1, a, sum, carry, m =>
    let (x, carry) := addCarry (m.word a) carry
    mpvecaddRest n (a + 1) (sum + 1) carry (m.set sum x)

def mpvecadd (a : Ptr) (alen : Nat) (b : Ptr) (blen : Nat) (sum : Ptr) (m : Mem) : Mem :=
  let (m, carry) := mpvecaddLoop blen a b sum 0 m
  let (m, carry) := mpvecaddRest (alen - blen) (a + blen) (sum + blen) carry m
  m.set (sum + alen) carry

/-- A turn of the first loop of `mpvecsub`. -/
def subDigits (x y borrow : UInt32) : UInt32 × UInt32 :=
  let y := y + borrow
  let borrow : UInt32 := if y < borrow then 1 else 0
  (x - y, if x < y then borrow + 1 else borrow)

def subBorrow (x borrow : UInt32) : UInt32 × UInt32 :=
  let y := x - borrow
  (y, if y > x then 1 else 0)

def mpvecsubLoop : Nat → Ptr → Ptr → Ptr → UInt32 → Mem → Mem × UInt32
  | 0, _, _, _, borrow, m => (m, borrow)
  | n + 1, a, b, diff, borrow, m =>
    let (x, borrow) := subDigits (m.word a) (m.word b) borrow
    mpvecsubLoop n (a + 1) (b + 1) (diff + 1) borrow (m.set diff x)

def mpvecsubRest : Nat → Ptr → Ptr → UInt32 → Mem → Mem × UInt32
  | 0, _, _, borrow, m => (m, borrow)
  | n + 1, a, diff, borrow, m =>
    let (x, borrow) := subBorrow (m.word a) borrow
    mpvecsubRest n (a + 1) (diff + 1) borrow (m.set diff x)

def mpvecsub (a : Ptr) (alen : Nat) (b : Ptr) (blen : Nat) (diff : Ptr) (m : Mem) : Mem :=
  let (m, borrow) := mpvecsubLoop blen a b diff 0 m
  (mpvecsubRest (alen - blen) (a + blen) (diff + blen) borrow m).1

/-- Whether one of the words of `a` from `alen` on, `n` of them, is not 0: the loops of `mpveccmp` for the longer vector. -/
def anyDigit (m : Mem) (a : Ptr) (alen : Nat) : Nat → Bool
  | 0 => false
  | n + 1 => m.word (a + (alen + n)) ≠ 0 || anyDigit m a alen n

def mpveccmpLoop (m : Mem) (a b : Ptr) : Nat → Int
  | 0 => 0
  | n + 1 =>
    let x := m.word (a + n) - m.word (b + n)
    if x = 0 then mpveccmpLoop m a b n else if x > m.word (a + n) then -1 else 1

def mpveccmp (a : Ptr) (alen : Nat) (b : Ptr) (blen : Nat) (m : Mem) : Int :=
  if anyDigit m a blen (alen - blen) then 1
  else if anyDigit m b alen (blen - alen) then -1
  else mpveccmpLoop m a b (min alen blen)

theorem addDigits_spec {x y carry : UInt32} (le : carry.toNat ≤ 1) :
    (addDigits x y carry).1.toNat + 2 ^ 32 * (addDigits x y carry).2.toNat = x.toNat + y.toNat + carry.toNat ∧
      (addDigits x y carry).2.toNat ≤ 1 := by
  have xLt := x.toNat_lt
  have yLt := y.toNat_lt
  simp only [addDigits, UInt32.lt_iff_toNat_lt, UInt32.toNat_add]
  split <;> split <;> simp <;> omega

theorem addCarry_spec {x carry : UInt32} (le : carry.toNat ≤ 1) :
    (addCarry x carry).1.toNat + 2 ^ 32 * (addCarry x carry).2.toNat = x.toNat + carry.toNat ∧
      (addCarry x carry).2.toNat ≤ 1 := by
  have xLt := x.toNat_lt
  simp only [addCarry, UInt32.lt_iff_toNat_lt, UInt32.toNat_add]
  split <;> simp <;> omega

theorem subDigits_spec {x y borrow : UInt32} (le : borrow.toNat ≤ 1) :
    (subDigits x y borrow).1.toNat + y.toNat + borrow.toNat = x.toNat + 2 ^ 32 * (subDigits x y borrow).2.toNat ∧
      (subDigits x y borrow).2.toNat ≤ 1 := by
  have xLt := x.toNat_lt
  have yLt := y.toNat_lt
  simp only [subDigits, UInt32.lt_iff_toNat_lt, UInt32.toNat_add, UInt32.toNat_sub]
  split <;> split <;> simp <;> omega

theorem subBorrow_spec {x borrow : UInt32} (le : borrow.toNat ≤ 1) :
    (subBorrow x borrow).1.toNat + borrow.toNat = x.toNat + 2 ^ 32 * (subBorrow x borrow).2.toNat ∧
      (subBorrow x borrow).2.toNat ≤ 1 := by
  have xLt := x.toNat_lt
  simp only [subBorrow, gt_iff_lt, UInt32.lt_iff_toNat_lt, UInt32.toNat_sub]
  split <;> simp <;> omega

section Loops

open Mem

variable {m m' : Mem} {carry' borrow' : UInt32}

/-- The first digits of a loop, in terms of the rest. -/
theorem two_pow_succ (n : Nat) : 2 ^ (32 * (n + 1)) = 2 ^ 32 * 2 ^ (32 * n) := by
  rw [Nat.mul_succ, Nat.add_comm, pow_add]

theorem mpvecaddLoop_spec (n : Nat) (a b sum : Ptr) (carry : UInt32) (m : Mem) (le : carry.toNat ≤ 1) (aheadA : Ahead sum a n)
    (aheadB : Ahead sum b n) (value : mpvecaddLoop n a b sum carry m = (m', carry')) :
    Writes m m' sum n ∧ carry'.toNat ≤ 1 ∧
      m'.val sum n + 2 ^ (32 * n) * carry'.toNat = m.val a n + m.val b n + carry.toNat := by
  induction n generalizing a b sum carry m with
  | zero =>
    cases value
    exact ⟨Writes.refl, le, by simp [val]⟩
  | succ n ih =>
    obtain ⟨digit, le'⟩ := addDigits_spec (x := m.word a) (y := m.word b) le
    rcases step : addDigits (m.word a) (m.word b) carry with ⟨x, carry₁⟩
    rw [step] at digit le'
    dsimp only at digit le'
    simp only [mpvecaddLoop, step] at value
    obtain ⟨writes, last, sums⟩ := ih _ _ _ _ _ le' aheadA.step aheadB.step value
    obtain ⟨all, here⟩ := writes.cons
    refine ⟨all, last, ?_⟩
    rw [aheadA.val_set, aheadB.val_set] at sums
    simp only [val, here, two_pow_succ, Nat.mul_assoc]
    omega

theorem mpvecaddRest_spec (n : Nat) (a sum : Ptr) (carry : UInt32) (m : Mem) (le : carry.toNat ≤ 1) (aheadA : Ahead sum a n)
    (value : mpvecaddRest n a sum carry m = (m', carry')) :
    Writes m m' sum n ∧ carry'.toNat ≤ 1 ∧ m'.val sum n + 2 ^ (32 * n) * carry'.toNat = m.val a n + carry.toNat := by
  induction n generalizing a sum carry m with
  | zero =>
    cases value
    exact ⟨Writes.refl, le, by simp [val]⟩
  | succ n ih =>
    obtain ⟨digit, le'⟩ := addCarry_spec (x := m.word a) le
    rcases step : addCarry (m.word a) carry with ⟨x, carry₁⟩
    rw [step] at digit le'
    dsimp only at digit le'
    simp only [mpvecaddRest, step] at value
    obtain ⟨writes, last, sums⟩ := ih _ _ _ _ le' aheadA.step value
    obtain ⟨all, here⟩ := writes.cons
    refine ⟨all, last, ?_⟩
    rw [aheadA.val_set] at sums
    simp only [val, here, two_pow_succ, Nat.mul_assoc]
    omega

/-- `mpvecadd` writes one digit more than the longer vector has. -/
theorem mpvecadd_spec {a b sum : Ptr} {alen blen : Nat} (le : blen ≤ alen) (aheadA : Ahead sum a alen)
    (aheadB : Ahead sum b blen) (value : mpvecadd a alen b blen sum m = m') :
    Writes m m' sum (alen + 1) ∧ m'.val sum (alen + 1) = m.val a alen + m.val b blen := by
  obtain ⟨rest, rfl⟩ := Nat.exists_eq_add_of_le le
  unfold mpvecadd at value
  rcases first : mpvecaddLoop blen a b sum 0 m with ⟨m₁, carry₁⟩
  rcases second : mpvecaddRest rest (a + blen) (sum + blen) carry₁ m₁ with ⟨m₂, carry₂⟩
  simp only [first, Nat.add_sub_cancel_left, second] at value
  have aheadLow : Ahead sum a blen := by
    unfold Ahead at aheadA ⊢
    omega
  obtain ⟨writes₁, le₁, sum₁⟩ := mpvecaddLoop_spec blen a b sum 0 m (Nat.zero_le _) aheadLow aheadB first
  obtain ⟨writes₂, le₂, sum₂⟩ := mpvecaddRest_spec rest (a + blen) (sum + blen) carry₁ m₁ le₁ aheadA.rest second
  rw [writes₁.val_eq aheadA.apart] at sum₂
  subst value
  have low : Writes m m₁ sum (blen + rest + 1) := writes₁.widen ⟨rfl, le_rfl, by omega⟩
  have high : Writes m₁ m₂ sum (blen + rest + 1) := writes₂.widen ⟨rfl, by simp, by simp only [Ptr.add_off]; omega⟩
  have last : Writes m₂ (m₂.set (sum + (blen + rest)) carry₂) (sum + (blen + rest)) 1 := Writes.set ⟨rfl, le_rfl, by simp⟩
  have top : Writes m₂ (m₂.set (sum + (blen + rest)) carry₂) sum (blen + rest + 1) :=
    last.widen ⟨rfl, by simp, by simp only [Ptr.add_off]; omega⟩
  refine ⟨low.trans (high.trans top), ?_⟩
  have lowVal : (m₂.set (sum + (blen + rest)) carry₂).val sum blen = m₁.val sum blen := by
    rw [last.val_eq (by simp only [Apart, Ptr.add_off]; omega), writes₂.val_eq (by simp only [Apart, Ptr.add_off]; omega)]
  have highVal : (m₂.set (sum + (blen + rest)) carry₂).val (sum + blen) rest = m₂.val (sum + blen) rest :=
    last.val_eq (by simp only [Apart, Ptr.add_off]; omega)
  rw [val_succ, val_add, lowVal, highVal, set_self, val_add m a, Nat.mul_add, pow_add]
  rw [UInt32.toNat_zero] at sum₁
  linear_combination sum₁ + 2 ^ (32 * blen) * sum₂

theorem mpvecsubLoop_spec (n : Nat) (a b diff : Ptr) (borrow : UInt32) (m : Mem) (le : borrow.toNat ≤ 1)
    (aheadA : Ahead diff a n) (aheadB : Ahead diff b n) (value : mpvecsubLoop n a b diff borrow m = (m', borrow')) :
    Writes m m' diff n ∧ borrow'.toNat ≤ 1 ∧
      m'.val diff n + m.val b n + borrow.toNat = m.val a n + 2 ^ (32 * n) * borrow'.toNat := by
  induction n generalizing a b diff borrow m with
  | zero =>
    cases value
    exact ⟨Writes.refl, le, by simp [val]⟩
  | succ n ih =>
    obtain ⟨digit, le'⟩ := subDigits_spec (x := m.word a) (y := m.word b) le
    rcases step : subDigits (m.word a) (m.word b) borrow with ⟨x, borrow₁⟩
    rw [step] at digit le'
    dsimp only at digit le'
    simp only [mpvecsubLoop, step] at value
    obtain ⟨writes, last, sums⟩ := ih _ _ _ _ _ le' aheadA.step aheadB.step value
    obtain ⟨all, here⟩ := writes.cons
    refine ⟨all, last, ?_⟩
    rw [aheadA.val_set, aheadB.val_set] at sums
    simp only [val, here, two_pow_succ, Nat.mul_assoc]
    omega

theorem mpvecsubRest_spec (n : Nat) (a diff : Ptr) (borrow : UInt32) (m : Mem) (le : borrow.toNat ≤ 1)
    (aheadA : Ahead diff a n) (value : mpvecsubRest n a diff borrow m = (m', borrow')) :
    Writes m m' diff n ∧ borrow'.toNat ≤ 1 ∧ m'.val diff n + borrow.toNat = m.val a n + 2 ^ (32 * n) * borrow'.toNat := by
  induction n generalizing a diff borrow m with
  | zero =>
    cases value
    exact ⟨Writes.refl, le, by simp [val]⟩
  | succ n ih =>
    obtain ⟨digit, le'⟩ := subBorrow_spec (x := m.word a) le
    rcases step : subBorrow (m.word a) borrow with ⟨x, borrow₁⟩
    rw [step] at digit le'
    dsimp only at digit le'
    simp only [mpvecsubRest, step] at value
    obtain ⟨writes, last, sums⟩ := ih _ _ _ _ le' aheadA.step value
    obtain ⟨all, here⟩ := writes.cons
    refine ⟨all, last, ?_⟩
    rw [aheadA.val_set] at sums
    simp only [val, here, two_pow_succ, Nat.mul_assoc]
    omega

theorem mpvecsub_spec {a b diff : Ptr} {alen blen : Nat} (le : blen ≤ alen) (aheadA : Ahead diff a alen)
    (aheadB : Ahead diff b blen) (above : m.val b blen ≤ m.val a alen) (value : mpvecsub a alen b blen diff m = m') :
    Writes m m' diff alen ∧ m'.val diff alen + m.val b blen = m.val a alen := by
  obtain ⟨rest, rfl⟩ := Nat.exists_eq_add_of_le le
  unfold mpvecsub at value
  rcases first : mpvecsubLoop blen a b diff 0 m with ⟨m₁, borrow₁⟩
  rcases second : mpvecsubRest rest (a + blen) (diff + blen) borrow₁ m₁ with ⟨m₂, borrow₂⟩
  simp only [first, Nat.add_sub_cancel_left, second] at value
  have aheadLow : Ahead diff a blen := by
    unfold Ahead at aheadA ⊢
    omega
  obtain ⟨writes₁, le₁, diff₁⟩ := mpvecsubLoop_spec blen a b diff 0 m (Nat.zero_le _) aheadLow aheadB first
  obtain ⟨writes₂, le₂, diff₂⟩ := mpvecsubRest_spec rest (a + blen) (diff + blen) borrow₁ m₁ le₁ aheadA.rest second
  rw [writes₁.val_eq aheadA.apart] at diff₂
  subst value
  have low : Writes m m₁ diff (blen + rest) := writes₁.widen ⟨rfl, le_rfl, by omega⟩
  have high : Writes m₁ m₂ diff (blen + rest) := writes₂.widen ⟨rfl, by simp, by simp only [Ptr.add_off]; omega⟩
  refine ⟨low.trans high, ?_⟩
  have lowVal : m₂.val diff blen = m₁.val diff blen := writes₂.val_eq (by simp only [Apart, Ptr.add_off]; omega)
  have total : m₂.val diff (blen + rest) + m.val b blen = m.val a (blen + rest) + 2 ^ (32 * (blen + rest)) * borrow₂.toNat := by
    rw [val_add, lowVal, val_add m a, Nat.mul_add, pow_add]
    rw [UInt32.toNat_zero] at diff₁
    linear_combination diff₁ + 2 ^ (32 * blen) * diff₂
  have bound := val_lt m₂ diff (blen + rest)
  have none_ : borrow₂.toNat = 0 := by
    by_contra some_
    have one : borrow₂.toNat = 1 := by omega
    rw [one] at total
    omega
  rw [none_] at total
  omega

end Loops

section Compare

open Mem

variable {m : Mem} {a b : Ptr}

theorem anyDigit_iff {alen n : Nat} : anyDigit m a alen n = true ↔ 0 < m.val (a + alen) n := by
  induction n with
  | zero => simp [anyDigit, val]
  | succ n ih =>
    have digit : m.word (a + (alen + n)) ≠ 0 ↔ 0 < (m.word (a + (alen + n))).toNat := by
      rw [Ne, ← UInt32.toNat_inj]
      simp [Nat.pos_iff_ne_zero]
    have power : 0 < 2 ^ (32 * n) := Nat.two_pow_pos _
    simp only [anyDigit, Bool.or_eq_true, decide_eq_true_eq, ih, digit, val_succ, Ptr.add_add]
    constructor
    · rintro (here | there)
      · have := Nat.mul_pos power here
        omega
      · omega
    · intro some_
      by_contra none_
      obtain ⟨here, there⟩ := not_or.mp none_
      simp [Nat.eq_zero_of_not_pos here, Nat.eq_zero_of_not_pos there] at some_

theorem sign_sub_of_lt {x y : Nat} (less : x < y) : Int.sign ((x : Int) - y) = -1 :=
  Int.sign_eq_neg_one_of_neg (by omega)

theorem sign_sub_of_gt {x y : Nat} (less : y < x) : Int.sign ((x : Int) - y) = 1 :=
  Int.sign_eq_one_of_pos (by omega)

theorem mpveccmpLoop_spec (n : Nat) : mpveccmpLoop m a b n = Int.sign ((m.val a n : Int) - m.val b n) := by
  induction n with
  | zero => simp [mpveccmpLoop, val]
  | succ n ih =>
    have lowA := val_lt m a n
    have lowB := val_lt m b n
    have digits : ∀ x y : UInt32, (x - y = 0 ↔ x.toNat = y.toNat) ∧ (x - y > x ↔ x.toNat < y.toNat) := fun x y => by
      have xLt := x.toNat_lt
      have yLt := y.toNat_lt
      rw [← UInt32.toNat_inj, gt_iff_lt, UInt32.lt_iff_toNat_lt, UInt32.toNat_sub, UInt32.toNat_zero]
      omega
    obtain ⟨same, less⟩ := digits (m.word (a + n)) (m.word (b + n))
    simp only [mpveccmpLoop, same, less, val_succ]
    split
    · rename_i equal
      rw [ih, equal]
      congr 1
      push_cast
      ring
    · split
      · rename_i below
        refine (sign_sub_of_lt ?_).symm
        have step := Nat.mul_le_mul_left (2 ^ (32 * n)) (Nat.succ_le_of_lt below)
        rw [Nat.mul_succ] at step
        omega
      · refine (sign_sub_of_gt ?_).symm
        have step := Nat.mul_le_mul_left (2 ^ (32 * n)) (Nat.succ_le_of_lt (by omega : (m.word (b + n)).toNat < (m.word (a + n)).toNat))
        rw [Nat.mul_succ] at step
        omega

theorem mpveccmp_spec (a : Ptr) (alen : Nat) (b : Ptr) (blen : Nat) (m : Mem) :
    mpveccmp a alen b blen m = Int.sign ((m.val a alen : Int) - m.val b blen) := by
  have longer : ∀ {a b : Ptr} {n k : Nat}, 0 < m.val (a + n) k → m.val b n < m.val a (n + k) := fun {a b n k} some_ => by
    have bound := val_lt m b n
    have power := Nat.mul_le_mul_left (2 ^ (32 * n)) some_
    rw [val_add]
    omega
  unfold mpveccmp
  simp only [anyDigit_iff]
  rcases Nat.le_total blen alen with le | le
  · obtain ⟨k, rfl⟩ := Nat.exists_eq_add_of_le le
    rw [Nat.add_sub_cancel_left, Nat.min_eq_right le, Nat.sub_eq_zero_of_le le]
    simp only [val, lt_irrefl, if_false]
    split
    · rename_i some_
      exact (sign_sub_of_gt (longer some_)).symm
    · rename_i none_
      rw [mpveccmpLoop_spec, val_add, Nat.eq_zero_of_not_pos none_, Nat.mul_zero, Nat.add_zero]
  · obtain ⟨k, rfl⟩ := Nat.exists_eq_add_of_le le
    rw [Nat.add_sub_cancel_left, Nat.min_eq_left le, Nat.sub_eq_zero_of_le le]
    simp only [val, lt_irrefl, if_false]
    split
    · rename_i some_
      exact (sign_sub_of_lt (longer some_)).symm
    · rename_i none_
      rw [mpveccmpLoop_spec, val_add, Nat.eq_zero_of_not_pos none_, Nat.mul_zero, Nat.add_zero]

end Compare

end Inferno.Mp
