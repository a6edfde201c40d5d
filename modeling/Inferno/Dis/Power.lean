import Mathlib

namespace Inferno.Dis

/-- What an instruction leaves: its result, or the exception into which `trapFPE` turns a division by zero. -/
inductive Power where
  | value (r : Int64)
  | fault
  deriving DecidableEq

/-- The loop of `iexpw` and `iexpl`, whose words both have 64 bits; `none` where it still runs after as many rounds. -/
def powLoop : Nat → Int64 → Int64 → Int64 → Option Int64
  | 0, _, _, _ => none
  | rounds + 1, x, n, r =>
    let r := if n &&& 1 ≠ 0 then r * x else r
    let n := n >>> 1
    if n = 0 then some r else powLoop rounds (x * x) n r

def iexp (rounds : Nat) (x n : Int64) : Option Power := do
  let inv := decide (n < 0)
  let n := if inv then -n else n
  let r ← powLoop rounds x n 1
  if inv then
    return if r = 0 then .fault else .value (1 / r)
  return .value r

def iexpw (rounds : Nat) (x n : Int64) : Option Power := iexp rounds x n

def iexpl (rounds : Nat) (x n : Int64) : Option Power := iexp rounds x n

theorem toInt_half (n : Int64) : (n >>> 1).toInt = n.toInt / 2 := by
  have eq : (n >>> 1).toBitVec = n.toBitVec.sshiftRight 1 := by
    rw [Int64.toBitVec_shiftRight]
    rfl
  rw [← Int64.toInt_toBitVec, eq, BitVec.toInt_sshiftRight, Int.shiftRight_eq_div_pow]
  rfl

theorem low_bit (n : Int64) : n &&& 1 ≠ 0 ↔ n.toInt % 2 = 1 := by
  have bit : (n &&& 1).toBitVec.toNat = n.toBitVec.toNat % 2 := by
    rw [Int64.toBitVec_and, BitVec.toNat_and]
    exact Nat.and_two_pow_sub_one_eq_mod _ 1
  have zero : n &&& 1 = 0 ↔ (n &&& 1).toBitVec.toNat = 0 := by
    rw [← Int64.toBitVec_inj, ← BitVec.toNat_inj]
    rfl
  have parity : (n.toBitVec.toNat : Int) % 2 = n.toInt % 2 := by
    rw [← Int64.toInt_toBitVec, BitVec.toInt_eq_toNat_bmod, Int.bmod_def]
    omega
  rw [Ne, zero, bit]
  omega

theorem eq_zero_iff (n : Int64) : n = 0 ↔ n.toInt = 0 := Int64.toInt_inj.symm

/-- The rounds of `n` multiply by the power: `b * a ^ n`, cut to 64 bits. -/
theorem powLoop_power {rounds : Nat} {a b : Int} {n : Int64} (enough : n.toInt < 2 ^ rounds) (nonneg : 0 ≤ n.toInt)
    (some_ : 0 < rounds) : powLoop rounds (.ofInt a) n (.ofInt b) = some (.ofInt (b * a ^ n.toInt.toNat)) := by
  induction rounds generalizing a b n with
  | zero => lia
  | succ rounds ih =>
    have half := toInt_half n
    have step : (if n &&& 1 ≠ 0 then Int64.ofInt b * Int64.ofInt a else .ofInt b) =
        .ofInt (b * a ^ (n.toInt % 2).toNat) := by
      by_cases odd : n.toInt % 2 = 1
      · rw [if_pos ((low_bit n).mpr odd), odd, Int.toNat_one, pow_one, Int64.ofInt_mul]
      · have even : n.toInt % 2 = 0 := by lia
        rw [if_neg (mt (low_bit n).mp odd), even, Int.toNat_zero, pow_zero, mul_one]
    rw [powLoop, step]
    by_cases last : n >>> 1 = 0
    · rw [eq_zero_iff, half] at last
      rw [if_pos ((eq_zero_iff _).mpr (half.trans last)), show (n.toInt % 2).toNat = n.toInt.toNat by lia]
    · rw [eq_zero_iff, half] at last
      rw [if_neg (fun same => last (half ▸ (eq_zero_iff _).mp same)), ← Int64.ofInt_mul,
        ih (by rw [half, pow_succ] at *; lia) (by lia) (by
          rcases Nat.eq_zero_or_pos rounds with rfl | pos
          · simp only [Nat.zero_add, pow_one] at enough
            lia
          · exact pos),
        half, ← sq, ← pow_mul, mul_assoc, ← pow_add]
      congr 4
      lia

/-- A negative number stays one when it is halved, so the loop does not end. -/
theorem powLoop_negative (rounds : Nat) {x n r : Int64} (neg : n.toInt < 0) : powLoop rounds x n r = none := by
  induction rounds generalizing x n r with
  | zero => rfl
  | succ rounds ih =>
    have half := toInt_half n
    rw [powLoop, if_neg (fun same => by rw [eq_zero_iff, half] at same; omega)]
    exact ih (by omega)

/-- A power of 2 divides a power of `x` as often as its factors 2 together give. -/
theorem two_pow_dvd_pow {x : Int} (nonzero : x ≠ 0) (k m : Nat) : 2 ^ k ∣ x ^ m ↔ ∃ j, 2 ^ j ∣ x ∧ k ≤ j * m := by
  refine ⟨fun divides => ?_, fun ⟨j, twos, enough⟩ => ?_⟩
  · have finite : FiniteMultiplicity 2 x := Int.finiteMultiplicity_iff.mpr ⟨by decide, nonzero⟩
    obtain ⟨u, split, odd⟩ := finite.exists_eq_pow_mul_and_not_dvd
    generalize multiplicity 2 x = j at split
    refine ⟨j, ⟨u, split⟩, ?_⟩
    rw [split, mul_pow, ← pow_mul] at divides
    have rest := Int.prime_two.pow_dvd_of_dvd_mul_right k (mt Int.prime_two.dvd_of_dvd_pow odd) divides
    exact (pow_dvd_pow_iff (by decide) Int.prime_two.not_unit).mp rest
  · calc (2 : Int) ^ k ∣ 2 ^ (j * m) := pow_dvd_pow 2 enough
      _ = (2 ^ j) ^ m := pow_mul 2 j m
      _ ∣ x ^ m := pow_dvd_pow_of_dvd twos m

theorem two_pow_dvd_iff {k : Nat} {a : Int} : 2 ^ k ∣ a ↔ (k : ℕ∞) ≤ emultiplicity 2 a := pow_dvd_iff_le_emultiplicity

/-- For an odd number near neither 1 nor -1, no 64 factors 2 are next to it. -/
theorem odd_far {x : Int} (odd : ¬2 ∣ x) (far : ¬2 ^ 64 ∣ x - 1 ∧ ¬2 ^ 64 ∣ x + 1) : ¬2 ^ 65 ∣ (x - 1) * (x + 1) := by
  intro divides
  have split : ∃ u, ¬2 ∣ u ∧ (x - 1 = 2 * u ∨ x + 1 = 2 * u) := by
    by_cases four : x % 4 = 3
    · exact ⟨(x - 1) / 2, by omega, by omega⟩
    · exact ⟨(x + 1) / 2, by omega, by omega⟩
  have strip : ∀ {u v : Int}, ¬2 ∣ u → 2 ^ 65 ∣ 2 * u * v → 2 ^ 64 ∣ v := by
    intro u v odd divides
    rw [mul_assoc, pow_succ' 2 64, mul_dvd_mul_iff_left (by decide)] at divides
    exact Int.prime_two.pow_dvd_of_dvd_mul_left 64 odd divides
  obtain ⟨u, odd, left | right⟩ := split
  · rw [left] at divides
    exact far.2 (strip odd divides)
  · rw [right, mul_comm] at divides
    exact far.1 (strip odd divides)

/-- An odd number whose power is 1 or -1 but for multiples of `2 ^ 64`. -/
theorem odd_pow_unit {x : Int} (odd : ¬2 ∣ x) (low : -2 ^ 63 ≤ x) (high : x < 2 ^ 63) (proper : x ≠ 1 ∧ x ≠ -1) (m : Nat) :
    2 ^ 64 ∣ x ^ m - 1 ∨ 2 ^ 64 ∣ x ^ m + 1 ↔ 2 ^ 65 ∣ (x - 1) * (x + 1) * m := by
  have far : ¬2 ^ 64 ∣ x - 1 ∧ ¬2 ^ 64 ∣ x + 1 := by lia
  rcases Nat.even_or_odd m with even | odd_
  · have lifted := Int.two_pow_sub_pow (x := x) (y := 1) (by lia) odd even
    rw [one_pow] at lifted
    have four : 4 ∣ x ^ m - 1 := by
      obtain ⟨k, rfl⟩ := even
      have square : 4 ∣ x ^ 2 - 1 := by
        obtain ⟨k, rfl⟩ : ∃ k, x = 2 * k + 1 := ⟨x / 2, by lia⟩
        exact ⟨k ^ 2 + k, by ring⟩
      rw [← two_mul, pow_mul]
      exact square.trans (sub_one_dvd_pow_sub_one (x ^ 2) k)
    have counts : 2 ^ 64 ∣ x ^ m - 1 ↔ 2 ^ 65 ∣ (x - 1) * (x + 1) * m := by
      rw [two_pow_dvd_iff, two_pow_dvd_iff, emultiplicity_mul Int.prime_two, emultiplicity_mul Int.prime_two,
        add_comm (emultiplicity 2 (x - 1)), ← lifted]
      exact (ENat.add_le_add_iff_right ENat.one_ne_top).symm
    rw [← counts, or_iff_left]
    lia
  · have indivisible : ¬(2 : Int) ∣ m := by
      obtain ⟨k, rfl⟩ := odd_
      lia
    have one : 2 ^ 64 ∣ x ^ m - 1 ↔ 2 ^ 64 ∣ x - 1 := by
      have same := emultiplicity_pow_sub_pow_of_prime Int.prime_two (x := x) (y := 1) (by lia) odd
        (fun divides => indivisible divides)
      rw [two_pow_dvd_iff, two_pow_dvd_iff, ← same, one_pow]
    have minus : 2 ^ 64 ∣ x ^ m + 1 ↔ 2 ^ 64 ∣ x + 1 := by
      have same := emultiplicity_pow_sub_pow_of_prime Int.prime_two (x := x) (y := -1) (by lia) odd
        (fun divides => indivisible divides)
      rw [two_pow_dvd_iff, two_pow_dvd_iff, ← sub_neg_eq_add x 1, ← same, odd_.neg_one_pow, sub_neg_eq_add]
    rw [one, minus]
    refine iff_of_false (by lia) fun divides => ?_
    exact odd_far odd far (Int.prime_two.pow_dvd_of_dvd_mul_right 65 indivisible divides)

theorem ofInt_eq_iff {p v : Int} (low : -2 ^ 63 ≤ v) (high : v < 2 ^ 63) :
    Int64.ofInt p = .ofInt v ↔ 2 ^ 64 ∣ p - v := by
  rw [← Int64.toInt_inj, Int64.toInt_ofInt, Int64.toInt_ofInt_of_le low high]
  simp only [Int64.size, Int.bmod_def]
  omega

theorem tdiv_large {k : Int} (proper : k ≠ 1 ∧ k ≠ -1) : Int.tdiv 1 k = 0 := by
  rcases lt_trichotomy k 0 with neg | rfl | pos
  · rw [← neg_neg k, Int.tdiv_neg, Int.tdiv_eq_zero_of_lt (by decide) (by omega), neg_zero]
  · rfl
  · exact Int.tdiv_eq_zero_of_lt (by decide) (by omega)

theorem one_div_large {r : Int64} (proper : r ≠ 1 ∧ r ≠ -1) : 1 / r = 0 := by
  have large : r.toInt ≠ 1 ∧ r.toInt ≠ -1 :=
    ⟨fun same => proper.1 (Int64.toInt_inj.mp same), fun same => proper.2 (Int64.toInt_inj.mp same)⟩
  rw [eq_zero_iff, Int64.toInt_div_of_ne_left _ _ (by decide)]
  exact tdiv_large large

theorem pow_large {x : Int} (proper : x ≠ 1 ∧ x ≠ -1) {m : Nat} (some_ : m ≠ 0) : x ^ m ≠ 1 ∧ x ^ m ≠ -1 := by
  have unit : ∀ v : Int, IsUnit v → x ^ m ≠ v := by
    rintro v unit rfl
    rcases Int.isUnit_iff.mp ((isUnit_pow_iff some_).mp unit) with one | minus
    · exact proper.1 one
    · exact proper.2 minus
  exact ⟨unit 1 isUnit_one, unit (-1) isUnit_one.neg⟩

/-- What `iexp` leaves for the power `p` of a negative exponent. -/
def reciprocal (p : Int) : Power := if Int64.ofInt p = 0 then .fault else .value (1 / .ofInt p)

/-- The powers that 64 bits keep well enough for the division: not taken for 0, and not for 1 or -1. -/
def Kept (x : Int) (m : Nat) : Prop :=
  (∀ j : Nat, 2 ^ j ∣ x → j * m < 64) ∧ (2 ∣ x ∨ x = 1 ∨ x = -1 ∨ ¬2 ^ 65 ∣ (x - 1) * (x + 1) * m)

theorem reciprocal_even {x : Int} (even : 2 ∣ x) (nonzero : x ≠ 0) {m : Nat} (some_ : m ≠ 0) :
    reciprocal (x ^ m) = .value (.ofInt (Int.tdiv 1 (x ^ m))) ↔ Kept x m := by
  have even' : 2 ∣ x ^ m := even.trans (dvd_pow_self x some_)
  have vanishes : Int64.ofInt (x ^ m) = 0 ↔ ∃ j : Nat, 2 ^ j ∣ x ∧ 64 ≤ j * m := by
    have multiple := @ofInt_eq_iff (x ^ m) 0 (by decide) (by decide)
    rw [sub_zero] at multiple
    exact multiple.trans (two_pow_dvd_pow nonzero 64 m)
  have proper : Int64.ofInt (x ^ m) ≠ 1 ∧ Int64.ofInt (x ^ m) ≠ -1 := by
    refine ⟨fun same => ?_, fun same => ?_⟩
    · have := (@ofInt_eq_iff _ 1 (by decide) (by decide)).mp same
      omega
    · have := (@ofInt_eq_iff _ (-1) (by decide) (by decide)).mp same
      omega
  rw [tdiv_large (pow_large (by omega) some_), reciprocal, one_div_large proper]
  unfold Kept
  by_cases zero : Int64.ofInt (x ^ m) = 0
  · obtain ⟨j, twos, enough⟩ := vanishes.mp zero
    rw [if_pos zero]
    exact iff_of_false nofun fun kept => absurd (kept.1 j twos) (by omega)
  · rw [if_neg zero]
    refine iff_of_true rfl ⟨fun j twos => ?_, Or.inl even⟩
    by_contra enough
    exact zero (vanishes.mpr ⟨j, twos, by omega⟩)

theorem reciprocal_odd {x : Int} (odd : ¬2 ∣ x) (low : -2 ^ 63 ≤ x) (high : x < 2 ^ 63) {m : Nat} (some_ : m ≠ 0) :
    reciprocal (x ^ m) = .value (.ofInt (Int.tdiv 1 (x ^ m))) ↔ Kept x m := by
  have twos : ∀ j : Nat, 2 ^ j ∣ x → j * m < 64 := by
    intro j divides
    cases j with
    | zero => lia
    | succ j => exact absurd ((dvd_pow_self 2 (Nat.succ_ne_zero j)).trans divides) odd
  by_cases unit : x = 1 ∨ x = -1
  · have power : x ^ m = 1 ∨ x ^ m = -1 := by
      rcases unit with rfl | rfl
      · exact Or.inl (one_pow m)
      · exact neg_one_pow_eq_or Int m
    refine iff_of_true ?_ ⟨twos, by tauto⟩
    rcases power with one | minus
    · rw [one]
      decide
    · rw [minus]
      decide
  · have proper : x ≠ 1 ∧ x ≠ -1 := not_or.mp unit
    have one : Int64.ofInt (x ^ m) = 1 ↔ 2 ^ 64 ∣ x ^ m - 1 :=
      @ofInt_eq_iff (x ^ m) 1 (by decide) (by decide)
    have minus : Int64.ofInt (x ^ m) = -1 ↔ 2 ^ 64 ∣ x ^ m + 1 := by
      have multiple := @ofInt_eq_iff (x ^ m) (-1) (by decide) (by decide)
      rwa [sub_neg_eq_add] at multiple
    have units := odd_pow_unit odd low high proper m
    rw [← one, ← minus] at units
    have nonzero : Int64.ofInt (x ^ m) ≠ 0 := by
      intro zero
      have := (@ofInt_eq_iff _ 0 (by decide) (by decide)).mp zero
      have odd' : ¬2 ∣ x ^ m := mt Int.prime_two.dvd_of_dvd_pow odd
      lia
    rw [tdiv_large (pow_large proper some_), reciprocal, if_neg nonzero]
    unfold Kept
    by_cases wraps : Int64.ofInt (x ^ m) = 1 ∨ Int64.ofInt (x ^ m) = -1
    · refine iff_of_false ?_ (by tauto)
      rcases wraps with same | same
      · rw [same]
        decide
      · rw [same]
        decide
    · rw [one_div_large (not_or.mp wraps)]
      exact iff_of_true rfl (by tauto)

theorem iexp_nonneg (x : Int64) {n : Int64} (nonneg : 0 ≤ n.toInt) {rounds : Nat} (enough : 64 ≤ rounds) :
    iexp rounds x n = some (.value (.ofInt (x.toInt ^ n.toInt.toNat))) := by
  have loop := @powLoop_power rounds x.toInt 1 n
    (lt_of_lt_of_le n.toInt_lt (pow_le_pow_right₀ (by decide) (by omega))) nonneg (by omega)
  rw [Int64.ofInt_toInt, one_mul] at loop
  have inv : decide (n < 0) = false := decide_eq_false (by rw [Int64.lt_iff_toInt_lt]; exact not_lt.mpr nonneg)
  simp only [iexp, inv, Bool.false_eq_true, if_false]
  exact congrArg (Option.bind · _) loop

theorem iexp_negative (x : Int64) {n : Int64} (neg : n.toInt < 0) (low : -2 ^ 63 < n.toInt) {rounds : Nat}
    (enough : 64 ≤ rounds) : iexp rounds x n = some (reciprocal (x.toInt ^ (-n.toInt).toNat)) := by
  have negated : (-n).toInt = -n.toInt := by
    rw [Int64.toInt_neg]
    exact Int.bmod_eq_of_le (by omega) (by omega)
  have loop := @powLoop_power rounds x.toInt 1 (-n)
    (lt_of_lt_of_le (-n).toInt_lt (pow_le_pow_right₀ (by decide) (by omega))) (by omega) (by omega)
  rw [Int64.ofInt_toInt, one_mul, negated] at loop
  have inv : decide (n < 0) = true := decide_eq_true (by rw [Int64.lt_iff_toInt_lt]; exact neg)
  simp only [iexp, inv, if_true]
  exact congrArg (Option.bind · _) loop

theorem iexp_least (x : Int64) {n : Int64} (least : n.toInt = -2 ^ 63) (rounds : Nat) : iexp rounds x n = none := by
  have negated : (-n).toInt < 0 := by
    rw [Int64.toInt_neg, least]
    decide
  have inv : decide (n < 0) = true := decide_eq_true (by rw [Int64.lt_iff_toInt_lt, least]; decide)
  simp only [iexp, inv, if_true]
  exact congrArg (Option.bind · _) (powLoop_negative rounds negated)

/-- The instruction ends, with the power for an exponent that is not negative and with the truncated quotient
of 1 by the power for one that is, or, where that power is zero, with the exception. -/
def Exponentiates (op : Nat → Int64 → Int64 → Option Power) (x n : Int64) : Prop :=
  ∃ out, (∃ k, ∀ rounds, k ≤ rounds → op rounds x n = some out) ∧
    (0 ≤ n.toInt → out = .value (.ofInt (x.toInt ^ n.toInt.toNat))) ∧
    (n.toInt < 0 → x.toInt ≠ 0 → out = .value (.ofInt (Int.tdiv 1 (x.toInt ^ (-n.toInt).toNat)))) ∧
    (n.toInt < 0 → x.toInt = 0 → out = .fault)

/-- The operands for which the instructions do. -/
def Plain (x n : Int64) : Prop :=
  0 ≤ n.toInt ∨ -2 ^ 63 < n.toInt ∧ (x.toInt = 0 ∨ Kept x.toInt (-n.toInt).toNat)

theorem iexp_exact (x n : Int64) : Exponentiates iexp x n ↔ Plain x n := by
  by_cases nonneg : 0 ≤ n.toInt
  · refine iff_of_true ⟨_, ⟨64, fun rounds => iexp_nonneg x nonneg⟩, fun _ => rfl, ?_, ?_⟩ (Or.inl nonneg)
    · exact fun neg => absurd nonneg (not_le.mpr neg)
    · exact fun neg => absurd nonneg (not_le.mpr neg)
  have neg : n.toInt < 0 := not_le.mp nonneg
  by_cases least : n.toInt = -2 ^ 63
  · refine iff_of_false (fun ⟨out, ⟨k, ends⟩, _⟩ => ?_) fun plain => ?_
    · have := ends k (Nat.le_refl k)
      rw [iexp_least x least] at this
      nomatch this
    · rcases plain with plain | ⟨low, -⟩
      · exact nonneg plain
      · omega
  have low : -2 ^ 63 < n.toInt := lt_of_le_of_ne n.le_toInt (Ne.symm least)
  have some_ : (-n.toInt).toNat ≠ 0 := by omega
  have ends : Exponentiates iexp x n ↔ (x.toInt ≠ 0 → reciprocal (x.toInt ^ (-n.toInt).toNat) =
      .value (.ofInt (Int.tdiv 1 (x.toInt ^ (-n.toInt).toNat)))) := by
    refine ⟨fun ⟨out, ⟨k, ends⟩, _, quotient, _⟩ nonzero => ?_, fun quotient => ?_⟩
    · have at_ := (iexp_negative x neg low (Nat.le_max_left 64 k)).symm.trans (ends _ (Nat.le_max_right 64 k))
      rw [Option.some.inj at_]
      exact quotient neg nonzero
    · refine ⟨_, ⟨64, fun rounds => iexp_negative x neg low⟩, fun pos => absurd pos nonneg, fun _ => quotient, ?_⟩
      intro _ zero
      rw [zero, zero_pow some_]
      rfl
  rw [ends]
  unfold Plain
  by_cases zero : x.toInt = 0
  · exact iff_of_true (fun nonzero => absurd zero nonzero) (Or.inr ⟨low, Or.inl zero⟩)
  · have kept : reciprocal (x.toInt ^ (-n.toInt).toNat) = .value (.ofInt (Int.tdiv 1 (x.toInt ^ (-n.toInt).toNat))) ↔
        Kept x.toInt (-n.toInt).toNat := by
      by_cases even : 2 ∣ x.toInt
      · exact reciprocal_even even zero some_
      · exact reciprocal_odd even x.le_toInt x.toInt_lt some_
    rw [kept]
    tauto

end Inferno.Dis
