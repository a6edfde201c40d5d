import Mathlib

namespace Inferno.Sets

/-- `Set`: an int has 64 bits, and an element of `a` stands for 32 numbers. -/
structure Set where
  m : BitVec 64
  a : List (BitVec 64)
deriving DecidableEq

def BPW : Nat := 32
def SHIFT : Nat := 5
def MASK : Nat := 31

def swapops : List Nat :=
  [0b0000, 0b0001, 0b0100, 0b0101, 0b0010, 0b0011, 0b0110, 0b0111, 0b1000, 0b1001, 0b1100, 0b1101, 0b1010, 0b1011,
    0b1110, 0b1111]

def op (o : Nat) (a b : BitVec 64) : BitVec 64 :=
  match o % 16 with
  | 0b0000 => 0
  | 0b0001 => ~~~(a ||| b)
  | 0b0010 => a &&& ~~~b
  | 0b0011 => ~~~b
  | 0b0100 => ~~~a &&& b
  | 0b0101 => ~~~a
  | 0b0110 => a ^^^ b
  | 0b0111 => ~~~(a &&& b)
  | 0b1000 => a &&& b
  | 0b1001 => ~~~(a ^^^ b)
  | 0b1010 => a
  | 0b1011 => a ||| ~~~b
  | 0b1100 => b
  | 0b1101 => ~~~a ||| b
  | 0b1110 => a ||| b
  | _ => ~~~0

def topbitLoop (b n : Nat) (mask v : BitVec 64) : Nat :=
  if n = 0 then b
  else if v &&& mask ≠ 0 then topbitLoop (b + n) (n / 2) (mask.sshiftRight (n / 2)) (v.sshiftRight n)
  else topbitLoop b (n / 2) (mask.sshiftRight (n / 2)) v
termination_by n
decreasing_by all_goals omega

def topbit (v : BitVec 64) : Nat := if v = 0 then 0 else topbitLoop 1 16 0xffff0000 v

/-- `set`. -/
def set : Set := ⟨0, []⟩

namespace Set

def X (s1 : Set) (o : Nat) (s2 : Set) : Set :=
  let (s1, s2, o) := if s1.a.length > s2.a.length then (s2, s1, swapops.getD (o % 16) 0) else (s1, s2, o)
  ⟨op o s1.m s2.m, List.zipWith (op o) s1.a s2.a ++ (s2.a.drop s1.a.length).map (op o s1.m)⟩

def invert (s : Set) : Set := ⟨~~~s.m, s.a.map (~~~·)⟩

def copy (s : Set) (n : Int) : Set :=
  if 0 ≤ n ∧ (n.toNat >>> SHIFT) + 1 > s.a.length then
    ⟨s.m, s.a ++ List.replicate ((n.toNat >>> SHIFT) + 1 - s.a.length) s.m⟩
  else s

/-- `r.a[n >> SHIFT] |= 1 << (n & MASK)`. -/
def setbit (r : Set) (n : Nat) : Set := { r with a := r.a.modify (n >>> SHIFT) (· ||| 1#64 <<< (n &&& MASK)) }

/-- `r.a[n >> SHIFT] &= ~(1 << (n & MASK))`. -/
def clrbit (r : Set) (n : Nat) : Set := { r with a := r.a.modify (n >>> SHIFT) (· &&& ~~~(1#64 <<< (n &&& MASK))) }

def add (s : Set) (n : Nat) : Set := if s.m ≠ 0 ∧ n >>> SHIFT ≥ s.a.length then s else (s.copy n).setbit n

def addlist (s : Set) (ns : List Nat) : Set :=
  let r :=
    if s.m = 0 then s.copy (ns.foldl (fun (max : Int) (n : Nat) => if n > max then (n : Int) else max) (-1))
    else s.copy (-1)
  ns.foldl (fun r n => if n >>> SHIFT < r.a.length then r.setbit n else r) r

def del (s : Set) (n : Nat) : Set := if s.m = 0 ∧ n >>> SHIFT ≥ s.a.length then s else (s.copy n).clrbit n

def holds (s : Set) (n : Nat) : BitVec 64 :=
  match s.a[n >>> SHIFT]? with
  | none => s.m
  | some w => w &&& 1#64 <<< (n &&& MASK)

def limitLoop (s : Set) : Nat → Nat
  | 0 => 0
  | i + 1 =>
    let w := s.a.getD i 0
    if w ≠ s.m then (i <<< SHIFT) + topbit (s.m ^^^ w) else s.limitLoop i

def limit (s : Set) : Nat := s.limitLoop s.a.length

def eq (s1 s2 : Set) : Bool :=
  let (s1, s2) := if s1.a.length > s2.a.length then (s2, s1) else (s1, s2)
  (s1.a.zip s2.a).all (fun p => p.1 = p.2) && (s2.a.drop s1.a.length).all (s1.m = ·) && s1.m = s2.m

end Set

/-- The boolean function of an operation. -/
def opbit (o : Nat) (a b : Bool) : Bool := (o % 16).testBit (a.toNat + 2 * b.toNat)

namespace Set

/-- Membership beyond the array. -/
def inf (s : Set) : Bool := s.m.getLsbD 0

/-- The bit of a number. -/
def bit (s : Set) (n : Nat) : Bool := (s.a.getD (n / 32) s.m).getLsbD (n % 32)

/-- What is above the 32 bits of an element, and all of `m`, goes on as `m` says. -/
structure Good (s : Set) : Prop where
  m : ∀ i < 64, s.m.getLsbD i = s.inf
  a : ∀ d, ∀ i < 64, 32 ≤ i → (s.a.getD d s.m).getLsbD i = s.inf

theorem shift_eq (n : Nat) : n >>> SHIFT = n / 32 := Nat.shiftRight_eq_div_pow n 5

theorem mask_eq (n : Nat) : n &&& MASK = n % 32 := Nat.and_two_pow_sub_one_eq_mod n 5

variable {s s1 s2 : Set} {n k o : Nat} {b : Bool}

theorem op_bit (o : Nat) (a b : BitVec 64) (n : Nat) (word : n < 64) :
    (op o a b).getLsbD n = opbit o (a.getLsbD n) (b.getLsbD n) := by
  have small : o % 16 < 16 := Nat.mod_lt o (by decide)
  unfold op opbit
  generalize o % 16 = k at small
  interval_cases k <;>
    simp only [BitVec.ofNat_eq_ofNat, BitVec.getLsbD_not, BitVec.getLsbD_or, BitVec.getLsbD_and, BitVec.getLsbD_xor,
      BitVec.getLsbD_zero, word, decide_true, Bool.true_and] <;>
    cases a.getLsbD n <;> cases b.getLsbD n <;> rfl

theorem opbit_swap (o : Nat) (a b : Bool) : opbit (swapops.getD (o % 16) 0) b a = opbit o a b := by
  have small : o % 16 < 16 := Nat.mod_lt o (by decide)
  unfold opbit
  generalize o % 16 = k at small
  interval_cases k <;> cases a <;> cases b <;> rfl

/-- The elements of a result, and how it goes on. -/
theorem getD_zip (f : BitVec 64 → BitVec 64 → BitVec 64) (m1 m2 : BitVec 64) : ∀ (xs ys : List (BitVec 64)) (d : Nat),
    xs.length ≤ ys.length →
      (List.zipWith f xs ys ++ (ys.drop xs.length).map (f m1)).getD d (f m1 m2) = f (xs.getD d m1) (ys.getD d m2)
  | [], ys, d, _ => by
    simp only [List.zipWith_nil_left, List.nil_append, List.length_nil, List.drop_zero,
      List.getD_eq_getElem?_getD, List.getElem?_map]
    cases ys[d]? <;> rfl
  | x :: xs, [], d, short => nomatch short
  | x :: xs, y :: ys, 0, _ => rfl
  | x :: xs, y :: ys, d + 1, short => getD_zip f m1 m2 xs ys d (Nat.le_of_succ_le_succ short)

theorem bit_X (s1 s2 : Set) (o n : Nat) : (s1.X o s2).bit n = opbit o (s1.bit n) (s2.bit n) := by
  have word : n % 32 < 64 := by omega
  by_cases more : s2.a.length < s1.a.length
  · simp only [X, bit, gt_iff_lt, if_pos more]
    rw [getD_zip _ _ _ _ _ _ (Nat.le_of_lt more), op_bit _ _ _ _ word, opbit_swap]
  · simp only [X, bit, gt_iff_lt, if_neg more]
    rw [getD_zip _ _ _ _ _ _ (Nat.not_lt.1 more), op_bit _ _ _ _ word]

theorem bit_invert (s : Set) (n : Nat) : s.invert.bit n = !s.bit n := by
  have word : n % 32 < 64 := by omega
  unfold invert bit
  rw [List.getD_map, BitVec.getLsbD_not, decide_eq_true word, Bool.true_and]

theorem m_copy (s : Set) (i : Int) : (s.copy i).m = s.m := by
  unfold copy
  split <;> rfl

theorem getD_copy (s : Set) (i : Int) (d : Nat) : (s.copy i).a.getD d s.m = s.a.getD d s.m := by
  unfold copy
  split
  · by_cases inside : d < s.a.length
    · rw [List.getD_append _ _ _ _ inside]
    · rw [List.getD_append_right _ _ _ _ (Nat.not_lt.1 inside), List.getD_eq_default _ _ (Nat.not_lt.1 inside),
        List.getD_eq_getElem?_getD, List.getElem?_replicate]
      split <;> rfl
  · rfl

theorem bit_copy (s : Set) (i : Int) (n : Nat) : (s.copy i).bit n = s.bit n := by
  rw [bit, bit, m_copy, getD_copy]

theorem copy_length (s : Set) (n : Nat) : n / 32 < (s.copy n).a.length := by
  unfold copy
  rw [Int.toNat_natCast, shift_eq]
  split
  · rw [List.length_append, List.length_replicate]
    omega
  · next no =>
    simp only [Int.natCast_nonneg, true_and, Nat.not_lt] at no
    omega

/-- An element is changed. -/
theorem getD_modify (f : BitVec 64 → BitVec 64) (a : List (BitVec 64)) (m : BitVec 64) (d e : Nat)
    (inside : d < a.length) : (a.modify d f).getD e m = if d = e then f (a.getD e m) else a.getD e m := by
  simp only [List.getD_eq_getElem?_getD, List.getElem?_modify]
  split
  · next same =>
    rw [← same, List.getElem?_eq_getElem inside]
    rfl
  · cases a[e]? <;> rfl

theorem mask_bit {k i : Nat} (small : k < 64) : (1#64 <<< k).getLsbD i = decide (i = k) := by
  rw [← BitVec.twoPow_eq, BitVec.getLsbD_twoPow]
  by_cases same : i = k
  · simp [same, small]
  · simp [same, Ne.symm same]

theorem bit_setbit (s : Set) (inside : n / 32 < s.a.length) : (s.setbit n).bit k = (decide (k = n) || s.bit k) := by
  unfold setbit bit
  rw [shift_eq, mask_eq, getD_modify _ _ _ _ _ inside]
  split
  · next same =>
    rw [BitVec.getLsbD_or, mask_bit (by omega), Bool.or_comm]
    congr 1
    exact decide_eq_decide.2 ⟨fun _ => by omega, fun _ => by omega⟩
  · next other =>
    rw [decide_eq_false fun same => other (by rw [same]), Bool.false_or]

theorem bit_clrbit (s : Set) (inside : n / 32 < s.a.length) : (s.clrbit n).bit k = (!decide (k = n) && s.bit k) := by
  unfold clrbit bit
  rw [shift_eq, mask_eq, getD_modify _ _ _ _ _ inside]
  split
  · next same =>
    rw [BitVec.getLsbD_and, BitVec.getLsbD_not, decide_eq_true (by omega), Bool.true_and, mask_bit (by omega),
      Bool.and_comm]
    congr 2
    exact decide_eq_decide.2 ⟨fun _ => by omega, fun _ => by omega⟩
  · next other =>
    rw [decide_eq_false fun same => other (by rw [same]), Bool.not_false, Bool.true_and]

/-- Beyond the array. -/
theorem bit_beyond (good : Good s) (beyond : s.a.length ≤ n / 32) : s.bit n = s.inf := by
  unfold bit
  rw [List.getD_eq_default _ _ beyond]
  exact good.m _ (by omega)

theorem inf_iff (good : Good s) : s.inf = true ↔ s.m ≠ 0 := by
  constructor
  · intro some zero
    rw [inf, zero] at some
    nomatch some
  · intro some
    by_contra none
    refine some (BitVec.eq_of_getLsbD_eq fun i less => ?_)
    rw [good.m i less, Bool.eq_false_iff.2 none]
    exact BitVec.getLsbD_zero.symm

theorem bit_add (good : Good s) : (s.add n).bit k = (decide (k = n) || s.bit k) := by
  unfold add
  split
  · next full =>
    by_cases same : k = n
    · rw [shift_eq] at full
      rw [same, bit_beyond good full.2, (inf_iff good).2 full.1, Bool.or_true]
    · rw [decide_eq_false same, Bool.false_or]
  · rw [bit_setbit _ (copy_length s n), bit_copy]

theorem bit_del (good : Good s) : (s.del n).bit k = (!decide (k = n) && s.bit k) := by
  unfold del
  split
  · next none =>
    by_cases same : k = n
    · rw [shift_eq] at none
      have out : s.inf = false := Bool.eq_false_iff.2 fun some => (inf_iff good).1 some none.1
      rw [same, bit_beyond good none.2, out, Bool.and_false]
    · rw [decide_eq_false same, Bool.not_false, Bool.true_and]
  · rw [bit_clrbit _ (copy_length s n), bit_copy]

theorem holds_bit (good : Good s) : s.holds n ≠ 0 ↔ s.bit n = true := by
  unfold holds
  rw [shift_eq, mask_eq]
  split
  · next beyond =>
    rw [bit_beyond good (List.getElem?_eq_none_iff.1 beyond), inf_iff good]
  · next w there =>
    have small : n % 32 < 64 := by omega
    unfold bit
    rw [List.getD_eq_getElem?_getD, there, Option.getD_some, ← BitVec.twoPow_eq, BitVec.and_twoPow]
    cases w.getLsbD (n % 32) with
    | false => simp
    | true =>
      refine iff_of_true (fun zero => ?_) rfl
      have bit := congrArg (·.getLsbD (n % 32)) zero
      simp [small] at bit

/-- The loop of `addlist`. -/
theorem bit_setbits (k : Nat) : ∀ (ns : List Nat) (r : Set),
    let r' := ns.foldl (fun r n => if n >>> SHIFT < r.a.length then r.setbit n else r) r
    r'.a.length = r.a.length ∧ r'.m = r.m ∧ r'.bit k = (decide (k ∈ ns ∧ k / 32 < r.a.length) || r.bit k)
  | [], r => ⟨rfl, rfl, by simp⟩
  | n :: ns, r => by
    have set : (if n >>> SHIFT < r.a.length then r.setbit n else r).a.length = r.a.length ∧
        (if n >>> SHIFT < r.a.length then r.setbit n else r).m = r.m ∧
        (if n >>> SHIFT < r.a.length then r.setbit n else r).bit k =
          (decide (k = n ∧ k / 32 < r.a.length) || r.bit k) := by
      rw [shift_eq]
      split
      · next inside =>
        refine ⟨List.length_modify .., rfl, ?_⟩
        rw [bit_setbit r inside]
        congr 1
        exact decide_eq_decide.2 ⟨fun same => ⟨same, same ▸ inside⟩, And.left⟩
      · next outside =>
        refine ⟨rfl, rfl, ?_⟩
        have no : ¬(k = n ∧ k / 32 < r.a.length) := fun both => outside (both.1 ▸ both.2)
        rw [decide_eq_false no, Bool.false_or]
    obtain ⟨length, m, bits⟩ := bit_setbits k ns (if n >>> SHIFT < r.a.length then r.setbit n else r)
    refine ⟨length.trans set.1, m.trans set.2.1, ?_⟩
    rw [List.foldl_cons, bits, set.1, set.2.2, ← Bool.or_assoc, ← Bool.decide_or]
    congr 1
    refine decide_eq_decide.2 ?_
    rw [List.mem_cons, ← or_and_right, or_comm]

theorem max_le : ∀ (ns : List Nat) (max : Int),
    max ≤ ns.foldl (fun (max : Int) (n : Nat) => if n > max then (n : Int) else max) max ∧
      ∀ n ∈ ns, (n : Int) ≤ ns.foldl (fun (max : Int) (n : Nat) => if n > max then (n : Int) else max) max
  | [], max => ⟨Int.le_refl _, fun n none => absurd none List.not_mem_nil⟩
  | a :: ns, max => by
    obtain ⟨least, each⟩ := max_le ns (if (a : Int) > max then (a : Int) else max)
    have both : max ≤ (if (a : Int) > max then (a : Int) else max) ∧
        (a : Int) ≤ if (a : Int) > max then (a : Int) else max := by
      split <;> omega
    rw [List.foldl_cons]
    refine ⟨both.1.trans least, fun n member => ?_⟩
    rcases List.mem_cons.1 member with rfl | later
    · exact both.2.trans least
    · exact each n later

theorem bit_addlist (good : Good s) (ns : List Nat) : (s.addlist ns).bit k = (decide (k ∈ ns) || s.bit k) := by
  have start : ∀ r : Set, (∀ n, r.bit n = s.bit n) → (k ∈ ns → k / 32 < r.a.length ∨ s.bit k = true) →
      (ns.foldl (fun r n => if n >>> SHIFT < r.a.length then r.setbit n else r) r).bit k =
        (decide (k ∈ ns) || s.bit k) := by
    intro r same covered
    rw [(bit_setbits k ns r).2.2, same]
    by_cases member : k ∈ ns
    · rcases covered member with inside | there
      · simp [member, inside]
      · rw [there, Bool.or_true, Bool.or_true]
    · simp [member]
  unfold addlist
  by_cases none : s.m = 0
  · simp only [if_pos none]
    refine start _ (bit_copy s _) fun member => .inl ?_
    have most := (max_le ns (-1)).2 k member
    have room := copy_length s (ns.foldl (fun (max : Int) (n : Nat) => if n > max then (n : Int) else max) (-1)).toNat
    rw [Int.toNat_of_nonneg (by omega)] at room
    omega
  · simp only [if_neg none]
    refine start _ (bit_copy s _) fun member => ?_
    by_cases inside : k / 32 < s.a.length
    · exact .inl inside
    · exact .inr ((bit_beyond good (Nat.not_lt.1 inside)).trans ((inf_iff good).2 none))

theorem good_set : Good set := ⟨fun i _ => by simp [set, inf], fun d i _ _ => by simp [set, inf]⟩

theorem good_X (good1 : Good s1) (good2 : Good s2) : Good (s1.X o s2) := by
  have m (i : Nat) (word : i < 64) : (s1.X o s2).m.getLsbD i = opbit o s1.inf s2.inf := by
    by_cases more : s2.a.length < s1.a.length
    · simp only [X, gt_iff_lt, if_pos more]
      rw [op_bit _ _ _ _ word, opbit_swap, good1.m i word, good2.m i word]
    · simp only [X, gt_iff_lt, if_neg more]
      rw [op_bit _ _ _ _ word, good1.m i word, good2.m i word]
  refine ⟨fun i word => (m i word).trans (m 0 (by decide)).symm, fun d i word high => ?_⟩
  rw [inf, m 0 (by decide)]
  by_cases more : s2.a.length < s1.a.length
  · simp only [X, gt_iff_lt, if_pos more]
    rw [getD_zip _ _ _ _ _ _ (Nat.le_of_lt more), op_bit _ _ _ _ word, opbit_swap, good1.a d i word high,
      good2.a d i word high]
  · simp only [X, gt_iff_lt, if_neg more]
    rw [getD_zip _ _ _ _ _ _ (Nat.not_lt.1 more), op_bit _ _ _ _ word, good1.a d i word high, good2.a d i word high]

theorem good_invert (good : Good s) : Good s.invert := by
  have m (i : Nat) (word : i < 64) : s.invert.m.getLsbD i = !s.inf := by
    rw [invert, BitVec.getLsbD_not, decide_eq_true word, Bool.true_and, good.m i word]
  refine ⟨fun i word => (m i word).trans (m 0 (by decide)).symm, fun d i word high => ?_⟩
  rw [inf, m 0 (by decide), invert, List.getD_map, BitVec.getLsbD_not, decide_eq_true word, Bool.true_and,
    good.a d i word high]

theorem good_copy (good : Good s) (i : Int) : Good (s.copy i) := by
  have inf : (s.copy i).inf = s.inf := congrArg (·.getLsbD 0) (m_copy s i)
  refine ⟨fun j word => ?_, fun d j word high => ?_⟩
  · rw [inf, m_copy, good.m j word]
  · rw [inf, m_copy, getD_copy, good.a d j word high]

/-- A change of one element's low bits. -/
theorem good_modify (good : Good s) {f : BitVec 64 → BitVec 64}
    (low : ∀ (w : BitVec 64) (i : Nat), i < 64 → 32 ≤ i → (f w).getLsbD i = w.getLsbD i) {d : Nat}
    (inside : d < s.a.length) : Good { s with a := s.a.modify d f } := by
  refine ⟨good.m, fun e i word high => ?_⟩
  dsimp only
  rw [getD_modify _ _ _ _ _ inside]
  split
  · rw [low _ i word high]
    exact good.a e i word high
  · exact good.a e i word high

theorem good_setbit (good : Good s) (inside : n / 32 < s.a.length) : Good (s.setbit n) := by
  rw [setbit, shift_eq]
  refine good_modify good (fun w i word high => ?_) inside
  rw [mask_eq, BitVec.getLsbD_or, mask_bit (by omega), decide_eq_false (by omega), Bool.or_false]

theorem good_clrbit (good : Good s) (inside : n / 32 < s.a.length) : Good (s.clrbit n) := by
  rw [clrbit, shift_eq]
  refine good_modify good (fun w i word high => ?_) inside
  rw [mask_eq, BitVec.getLsbD_and, BitVec.getLsbD_not, decide_eq_true word, Bool.true_and, mask_bit (by omega),
    decide_eq_false (by omega), Bool.not_false, Bool.and_true]

theorem good_add (good : Good s) : Good (s.add n) := by
  unfold add
  split
  · exact good
  · exact good_setbit (good_copy good _) (copy_length s n)

theorem good_del (good : Good s) : Good (s.del n) := by
  unfold del
  split
  · exact good
  · exact good_clrbit (good_copy good _) (copy_length s n)

theorem good_setbits : ∀ (ns : List Nat) {r : Set}, Good r →
    Good (ns.foldl (fun r n => if n >>> SHIFT < r.a.length then r.setbit n else r) r)
  | [], r, good => good
  | n :: ns, r, good => by
    refine good_setbits ns ?_
    dsimp only
    rw [shift_eq]
    split
    · next inside => exact good_setbit good inside
    · exact good

theorem good_addlist (good : Good s) (ns : List Nat) : Good (s.addlist ns) := by
  unfold addlist
  refine good_setbits ns ?_
  split <;> exact good_copy good _

/-- Sets with the same members have the same elements. -/
theorem bits_iff (good1 : Good s1) (good2 : Good s2) :
    (∀ n, s1.bit n = s2.bit n) ↔ ∀ d, s1.a.getD d s1.m = s2.a.getD d s2.m := by
  constructor
  · intro same d
    have far := same (32 * (s1.a.length + s2.a.length))
    rw [bit_beyond good1 (by omega), bit_beyond good2 (by omega)] at far
    refine BitVec.eq_of_getLsbD_eq fun i word => ?_
    by_cases low : i < 32
    · have here := same (32 * d + i)
      unfold bit at here
      have div : (32 * d + i) / 32 = d := by omega
      have mod : (32 * d + i) % 32 = i := by omega
      rwa [div, mod] at here
    · rw [good1.a d i word (Nat.not_lt.1 low), good2.a d i word (Nat.not_lt.1 low), far]
  · intro same n
    rw [bit, bit, same]

theorem all_iff (m1 m2 : BitVec 64) : ∀ xs ys : List (BitVec 64), xs.length ≤ ys.length →
    (((xs.zip ys).all (fun p => p.1 = p.2) && (ys.drop xs.length).all (m1 = ·) && decide (m1 = m2)) = true ↔
      ∀ d, xs.getD d m1 = ys.getD d m2)
  | [], ys, _ => by
    simp only [List.zip_nil_left, List.all_nil, Bool.true_and, List.length_nil, List.drop_zero, Bool.and_eq_true,
      List.all_eq_true, decide_eq_true_eq, List.getD_nil]
    constructor
    · rintro ⟨all, same⟩ d
      rw [List.getD_eq_getElem?_getD]
      cases there : ys[d]? with
      | none => exact same
      | some w => exact all w (List.mem_of_getElem? there)
    · intro all
      refine ⟨fun w member => ?_, ?_⟩
      · obtain ⟨d, inside, rfl⟩ := List.getElem_of_mem member
        rw [all d, List.getD_eq_getElem _ _ inside]
      · rw [all ys.length, List.getD_eq_default _ _ (Nat.le_refl _)]
  | x :: xs, [], short => nomatch short
  | x :: xs, y :: ys, short => by
    have rest := all_iff m1 m2 xs ys (Nat.le_of_succ_le_succ short)
    rw [List.zip_cons_cons, List.all_cons, List.length_cons, List.drop_succ_cons, Bool.and_assoc, Bool.and_assoc,
      Bool.and_eq_true, ← Bool.and_assoc, rest, decide_eq_true_eq]
    constructor
    · rintro ⟨same, all⟩ (_ | d)
      · exact same
      · exact all d
    · exact fun all => ⟨all 0, fun d => all (d + 1)⟩

theorem eq_words (s1 s2 : Set) : s1.eq s2 = true ↔ ∀ d, s1.a.getD d s1.m = s2.a.getD d s2.m := by
  by_cases more : s2.a.length < s1.a.length
  · simp only [eq, gt_iff_lt, if_pos more]
    rw [all_iff _ _ _ _ (Nat.le_of_lt more)]
    exact forall_congr' fun d => eq_comm
  · simp only [eq, gt_iff_lt, if_neg more]
    exact all_iff _ _ _ _ (Nat.not_lt.1 more)

theorem eq_iff (good1 : Good s1) (good2 : Good s2) : s1.eq s2 = true ↔ ∀ n, s1.bit n = s2.bit n :=
  (eq_words s1 s2).trans (bits_iff good1 good2).symm

theorem ones_bit {n i : Nat} (small : n ≤ 16) :
    (0xffff#64 <<< n).getLsbD i = (decide (n ≤ i) && decide (i < n + 16)) := by
  have ones : (0xffff#64).getLsbD (i - n) = decide (i - n < 16) := by
    rw [BitVec.getLsbD_ofNat, show (0xffff : Nat) = 2 ^ 16 - 1 from rfl, Nat.testBit_two_pow_sub_one, ← Bool.decide_and]
    exact decide_eq_decide.2 ⟨And.right, fun less => ⟨by omega, less⟩⟩
  rw [BitVec.getLsbD_shiftLeft, ones, ← decide_not, ← Bool.decide_and, ← Bool.decide_and, ← Bool.decide_and]
  exact decide_eq_decide.2 ⟨fun _ => by omega, fun _ => by omega⟩

/-- The test of a step of `topbit`. -/
theorem and_ones {n : Nat} {v : BitVec 64} (small : n ≤ 16) (low : v.toNat < 2 ^ (2 * n)) :
    v &&& 0xffff#64 <<< n ≠ 0 ↔ 2 ^ n ≤ v.toNat := by
  constructor
  · intro some
    by_contra less
    refine some (BitVec.eq_of_getLsbD_eq fun i _ => ?_)
    rw [BitVec.getLsbD_and, ones_bit small]
    by_cases high : n ≤ i
    · have off : v.getLsbD i = false :=
        Nat.testBit_lt_two_pow ((Nat.not_le.1 less).trans_le (Nat.pow_le_pow_right (by decide) high))
      rw [off, Bool.false_and]
      exact BitVec.getLsbD_zero.symm
    · rw [decide_eq_false high, Bool.false_and, Bool.and_false]
      exact BitVec.getLsbD_zero.symm
  · intro high zero
    have pos : v.toNat ≠ 0 := by
      have := Nat.two_pow_pos n
      omega
    have top : v.getLsbD v.toNat.log2 = true := Nat.testBit_log2 pos
    have least := (Nat.le_log2 pos).2 high
    have most := (Nat.log2_lt pos).2 low
    have bit := congrArg (·.getLsbD v.toNat.log2) zero
    rw [BitVec.getLsbD_and, ones_bit small, top, decide_eq_true least, decide_eq_true (by omega)] at bit
    exact absurd (bit.trans BitVec.getLsbD_zero) (by decide)

theorem topbit_step (n : Nat) (mask : BitVec 64) {v : BitVec 64} (b : Nat) (small : n ≤ 16) (pos : n ≠ 0)
    (ones : mask = 0xffff#64 <<< n) (some : v.toNat ≠ 0) (low : v.toNat < 2 ^ (2 * n)) :
    ∃ b' v', topbitLoop b n mask v =
      topbitLoop b' (n / 2) (mask.sshiftRight (n / 2)) v' ∧ v'.toNat ≠ 0 ∧ v'.toNat < 2 ^ n ∧
      b' + v'.toNat.log2 = b + v.toNat.log2 := by
  subst ones
  rw [topbitLoop, if_neg pos]
  by_cases high : 2 ^ n ≤ v.toNat
  · rw [if_pos ((and_ones small low).2 high)]
    have shift : (v.sshiftRight n).toNat = v.toNat / 2 ^ n := by
      have word : v.toNat < 2 ^ 63 := low.trans_le (Nat.pow_le_pow_right (by decide) (by omega))
      have sign : v.msb = false := by
        rw [BitVec.msb_eq_decide]
        exact decide_eq_false (Nat.not_le.2 word)
      rw [BitVec.sshiftRight_eq_of_msb_false sign, BitVec.toNat_ushiftRight, Nat.shiftRight_eq_div_pow]
    have double : 2 ^ (2 * n) = 2 ^ n * 2 ^ n := by rw [Nat.two_mul, Nat.pow_add]
    have some' : v.toNat / 2 ^ n ≠ 0 := by
      have := (Nat.one_le_div_iff (Nat.two_pow_pos n)).2 high
      omega
    have least := (Nat.le_log2 some).2 high
    have log : (v.toNat / 2 ^ n).log2 = v.toNat.log2 - n := by
      refine (Nat.log2_eq_iff some').2 ⟨?_, ?_⟩
      · rw [Nat.le_div_iff_mul_le (Nat.two_pow_pos n), ← Nat.pow_add, Nat.sub_add_cancel least]
        exact Nat.log2_self_le some
      · rw [Nat.div_lt_iff_lt_mul (Nat.two_pow_pos n), ← Nat.pow_add]
        have sum : v.toNat.log2 - n + 1 + n = v.toNat.log2 + 1 := by omega
        rw [sum]
        exact Nat.lt_log2_self
    refine ⟨b + n, v.sshiftRight n, rfl, shift ▸ some', ?_, ?_⟩
    · rw [shift, Nat.div_lt_iff_lt_mul (Nat.two_pow_pos n), ← double]
      exact low
    · rw [shift, log]
      omega
  · rw [if_neg fun some => high ((and_ones small low).1 some)]
    exact ⟨b, v, rfl, some, Nat.not_le.1 high, rfl⟩

theorem topbit_spec {v : BitVec 64} (some : v ≠ 0) (low : v.toNat < 2 ^ 32) : topbit v = 1 + v.toNat.log2 := by
  have nonzero : v.toNat ≠ 0 := fun zero => some (BitVec.eq_of_toNat_eq zero)
  obtain ⟨b1, v1, eq1, some1, low1, log1⟩ :=
    topbit_step 16 0xffff0000#64 1 (by decide) (by decide) (by decide) nonzero low
  obtain ⟨b2, v2, eq2, some2, low2, log2⟩ := topbit_step 8 0xffff00#64 b1 (by decide) (by decide) (by decide) some1 low1
  obtain ⟨b3, v3, eq3, some3, low3, log3⟩ := topbit_step 4 0xffff0#64 b2 (by decide) (by decide) (by decide) some2 low2
  obtain ⟨b4, v4, eq4, some4, low4, log4⟩ := topbit_step 2 0x3fffc#64 b3 (by decide) (by decide) (by decide) some3 low3
  obtain ⟨b5, v5, eq5, some5, low5, log5⟩ := topbit_step 1 0x1fffe#64 b4 (by decide) (by decide) (by decide) some4 low4
  have one : v5.toNat = 1 := by omega
  rw [one] at log5
  have last : topbitLoop b5 (1 / 2) ((0x1fffe#64).sshiftRight (1 / 2)) v5 = b5 := by
    rw [topbitLoop, if_pos rfl]
  have whole : topbitLoop 1 16 0xffff0000#64 v = b5 :=
    eq1.trans (eq2.trans (eq3.trans (eq4.trans (eq5.trans last))))
  rw [topbit, if_neg some]
  have zero : Nat.log2 1 = 0 := rfl
  exact whole.trans (by omega)

/-- The top bit of a difference of two elements is the last number at which they differ. -/
theorem topbit_bits {v : BitVec 64} (some : v ≠ 0) (low : ∀ i < 64, 32 ≤ i → v.getLsbD i = false) :
    0 < topbit v ∧ topbit v ≤ 32 ∧ v.getLsbD (topbit v - 1) = true ∧ ∀ i, topbit v ≤ i → v.getLsbD i = false := by
  have small : v.toNat < 2 ^ 32 := by
    refine Nat.lt_pow_two_of_testBit _ fun i high => ?_
    by_cases word : i < 64
    · exact low i word high
    · exact BitVec.getLsbD_of_ge v i (Nat.not_lt.1 word)
  have nonzero : v.toNat ≠ 0 := fun zero => some (BitVec.eq_of_toNat_eq zero)
  rw [topbit_spec some small]
  refine ⟨by omega, ?_, ?_, fun i high => ?_⟩
  · have := (Nat.log2_lt nonzero).2 small
    omega
  · rw [Nat.add_sub_cancel_left]
    exact Nat.testBit_log2 nonzero
  · refine Nat.testBit_lt_two_pow (Nat.lt_of_lt_of_le Nat.lt_log2_self (Nat.pow_le_pow_right (by decide) ?_))
    omega

/-- The numbers below `32 * k` that are not as `m` says are below the limit, and the last of them is just below. -/
theorem limitLoop_spec (good : Good s) : ∀ k, k ≤ s.a.length → (∀ n, s.limitLoop k ≤ n → n / 32 < k → s.bit n = s.inf) ∧
    (s.limitLoop k = 0 ∨ 0 < s.limitLoop k ∧ s.bit (s.limitLoop k - 1) ≠ s.inf)
  | 0, _ => ⟨fun n _ none => absurd none (Nat.not_lt_zero _), Or.inl rfl⟩
  | k + 1, inside => by
    have word : s.a.getD k 0 = s.a.getD k s.m := by
      rw [List.getD_eq_getElem _ _ inside, List.getD_eq_getElem _ _ inside]
    rw [limitLoop, word, Nat.shiftLeft_eq]
    split
    · next other =>
      have some : s.m ^^^ s.a.getD k s.m ≠ 0 := fun zero => other (BitVec.xor_eq_zero_iff.1 zero).symm
      have bits (i : Nat) : (s.m ^^^ s.a.getD k s.m).getLsbD i = (s.m.getLsbD i ^^ (s.a.getD k s.m).getLsbD i) :=
        BitVec.getLsbD_xor
      obtain ⟨pos, most, top, above⟩ := topbit_bits some fun i word high => by
        rw [bits, good.m i word, good.a k i word high, Bool.xor_self]
      generalize topbit (s.m ^^^ s.a.getD k s.m) = t at *
      have base : k * 2 ^ SHIFT = 32 * k := Nat.mul_comm ..
      rw [base]
      refine ⟨fun n least below => ?_, Or.inr ⟨by omega, ?_⟩⟩
      · have here : n / 32 = k := by omega
        have same := above (n % 32) (by omega)
        rw [bits, good.m _ (by omega), bne_eq_false_iff_eq] at same
        rw [bit, here, ← same]
      · have here : (32 * k + t - 1) / 32 = k := by omega
        have rest : (32 * k + t - 1) % 32 = t - 1 := by omega
        rw [bits, good.m _ (by omega), bne_iff_ne] at top
        rw [bit, here, rest]
        exact top.symm
    · next same =>
      obtain ⟨above, top⟩ := limitLoop_spec good k (Nat.le_of_succ_le inside)
      refine ⟨fun n least below => ?_, top⟩
      by_cases here : n / 32 = k
      · rw [bit, here, Decidable.not_not.1 same]
        exact good.m _ (by omega)
      · exact above n least (by omega)

theorem bit_limit (good : Good s) (high : s.limit ≤ n) : s.bit n = s.inf := by
  by_cases inside : n / 32 < s.a.length
  · exact (limitLoop_spec good _ (Nat.le_refl _)).1 n high inside
  · exact bit_beyond good (Nat.not_lt.1 inside)

/-- The least bound beyond which membership is constant. -/
theorem limit_iff (good : Good s) : s.limit ≤ k ↔ ∀ i j, k ≤ i → k ≤ j → s.bit i = s.bit j := by
  constructor
  · intro least i j high high'
    rw [bit_limit good (least.trans high), bit_limit good (least.trans high')]
  · intro same
    by_contra less
    have ends : s.limit = 0 ∨ 0 < s.limit ∧ s.bit (s.limit - 1) ≠ s.inf := (limitLoop_spec good _ (Nat.le_refl _)).2
    rcases ends with zero | ⟨pos, top⟩
    · omega
    · refine top ?_
      rw [same (s.limit - 1) (32 * s.a.length + k) (by omega) (by omega)]
      exact bit_beyond good (by omega)

end Set

end Inferno.Sets
