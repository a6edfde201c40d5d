import Inferno.Mp.Logic

namespace Inferno.Mp

open Lib Mem Store

/-- The loop of `mptrunc` and of `mpxtend` that negates, with `k` digits of the operand left. -/
def negLoop : Nat → Nat → Ptr → Ptr → UInt32 → Mem → Mem
  | 0, _, _, _, _, m => m
  | n + 1, k, src, dst, c, m =>
    let x := if 0 < k then ~~~(m.word src - c) else 0xffffffff
    negLoop n (k - 1) (src + 1) (dst + 1) (if x ≠ 0 then 0 else c) (m.set dst x)

/-- `(1<<m) - 1`. -/
def lowBits (m : Nat) : UInt32 := (1 <<< UInt32.ofNat m) - 1

def mptrunc (b n r : Nat) (s : Store) : Store :=
  if (s.obj b).flags || (s.obj r).flags then { s with fatal := true }
  else
    let s := mpbits r n s
    let s := s.upd r { s.obj r with top := digits n }
    let d := n / 32
    let m := n % 32
    if (s.obj b).sign = -1 then
      let mem := negLoop (s.obj r).top (s.obj b).top (s.obj b).p (s.obj r).p 1 s.mem
      let mem := if m ≠ 0 then mem.set ((s.obj r).p + d) (mem.word ((s.obj r).p + d) &&& lowBits m) else mem
      mpnorm r (({ s with mem := mem } : Store).upd r { s.obj r with sign := 1 })
    else if (s.obj b).sign = 1 then
      if d ≥ (s.obj b).top then mpnorm r (mpassign b r s)
      else
        let mem := if b ≠ r then rightDigits d (s.obj b).p (s.obj r).p s.mem else s.mem
        let mem := if m ≠ 0 then mem.set ((s.obj r).p + d) (mem.word ((s.obj b).p + d) &&& lowBits m) else mem
        mpnorm r (({ s with mem := mem } : Store).upd r { s.obj r with sign := 1 })
    else mpnorm r (s.upd r { s.obj r with sign := 1 })

/-- `mpxtend` of a number of bits that is not 0. -/
def mpxtend (b n r : Nat) (s : Store) : Store :=
  let d := (n - 1) / 32
  let m := (n - 1) % 32
  if d ≥ (s.obj b).top then mpassign b r s
  else
    let s := mptrunc b n r s
    let s := mpbits r n s
    if s.mem.word ((s.obj r).p + d) &&& (1 <<< UInt32.ofNat m) = 0 then mpnorm r s
    else
      let mem := s.mem.set ((s.obj r).p + d) (s.mem.word ((s.obj r).p + d) ||| -(1 <<< UInt32.ofNat m))
      let mem := negLoop (s.obj r).top (s.obj r).top (s.obj r).p (s.obj r).p 1 mem
      mpnorm r (({ s with mem := mem } : Store).upd r { s.obj r with sign := -1 })

def mpasr (mpzero mpone b : Nat) (n : Int) (r : Nat) (s : Store) : Store :=
  if (s.obj b).sign > 0 ∨ n ≤ 0 then mpright b n r s
  else
    let s := mpadd mpzero b mpone r s
    let s := mpright r n r s
    mpsub mpzero r mpone r s

section Loop

variable {m m' : Mem} {src dst p : Ptr} {n k d : Nat} {x c : UInt32}

/-- A digit that is negated, with what is still to be added to it. -/
theorem neg_step (le : c.toNat ≤ 1) :
    let c' := if ~~~(x - c) ≠ 0 then 0 else c
    c'.toNat ≤ 1 ∧ c'.toNat ≤ c.toNat ∧ (c'.toNat = 1 → x.toNat = 0) ∧
      (~~~(x - c)).toNat + x.toNat + 1 + 2 ^ 32 * c'.toNat = c.toNat + 2 ^ 32 := by
  have bound := x.toNat_lt
  have not_ : (~~~(x - c)).toNat = 2 ^ 32 - 1 - (x - c).toNat := UInt32.toNat_not _
  simp only [Ne, ← UInt32.toNat_inj, not_, UInt32.toNat_sub]
  split <;> simp_all <;> omega

/-- The loop gives the two's complement, and a carry beyond the last digit if the number is 0. -/
theorem negLoop_spec (le : c.toNat ≤ 1) (some_ : n ≤ k ∨ c.toNat ≤ m.val src (min k n)) (ahead : Ahead dst src n)
    (value : negLoop n k src dst c m = m') : Writes m m' dst n ∧ ∃ c' ≤ 1,
    m'.val dst n + m.val src (min k n) + 1 + 2 ^ (32 * n) * c' = c.toNat + 2 ^ (32 * n) := by
  induction n generalizing k src dst c m with
  | zero =>
    subst value
    refine ⟨Writes.refl, c.toNat, le, ?_⟩
    simp only [val, Nat.min_zero, Nat.mul_zero, pow_zero]
    lia
  | succ n ih =>
    -- the digit that is read, which is 0 beyond the last one
    obtain ⟨y, digits, read⟩ : ∃ y : UInt32,
        m.val src (min k (n + 1)) = y.toNat + 2 ^ 32 * m.val (src + 1) (min (k - 1) n) ∧
          (if 0 < k then ~~~(m.word src - c) else 0xffffffff) = ~~~(y - c) := by
      cases k with
      | zero =>
        have none_ : c = 0 := UInt32.toNat_inj.mp (Nat.le_zero.mp (by simpa [val] using some_))
        exact ⟨0, by simp [val], by simp [none_]; rfl⟩
      | succ k =>
        refine ⟨m.word src, ?_, if_pos k.succ_pos⟩
        rw [Nat.succ_sub_one, Nat.succ_min_succ]
        rfl
    rw [digits] at some_ ⊢
    simp only [negLoop, read] at value
    obtain ⟨le', less, none_, digit⟩ := neg_step (x := y) le
    generalize (if ~~~(y - c) ≠ 0 then 0 else c) = c₁ at le' less none_ digit value
    generalize ~~~(y - c) = x at digit value
    have kept : (m.set dst x).val (src + 1) (min (k - 1) n) = m.val (src + 1) (min (k - 1) n) := by
      refine Ahead.val_set ?_
      unfold Ahead at ahead ⊢
      lia
    obtain ⟨writes, c', last, rest⟩ := ih le' (by rw [kept]; lia) ahead.step value
    obtain ⟨all, here⟩ := writes.cons
    refine ⟨all, c', last, ?_⟩
    rw [kept] at rest
    rw [val_cons, here, two_pow_succ, Nat.mul_assoc]
    lia

theorem toNat_bit (less : k < 32) : ((1 : UInt32) <<< UInt32.ofNat k).toNat = 2 ^ k := by
  rw [UInt32.toNat_shiftLeft, toNat_shift less, Nat.shiftLeft_eq, UInt32.toNat_one, Nat.one_mul]
  exact Nat.mod_eq_of_lt (Nat.pow_lt_pow_right (by decide) less)

theorem toNat_lowBits (less : k < 32) : (x &&& lowBits k).toNat = x.toNat % 2 ^ k := by
  have mask : (lowBits k).toNat = 2 ^ k - 1 := by
    unfold lowBits
    rw [UInt32.toNat_sub_of_le, toNat_bit less]
    · rfl
    · rw [UInt32.le_iff_toNat_le, toNat_bit less]
      exact Nat.one_le_two_pow
  rw [UInt32.toNat_and, mask, Nat.and_two_pow_sub_one_eq_mod]

theorem val_mod (le : k ≤ n) : m.val p n % 2 ^ (32 * k) = m.val p k := by
  obtain ⟨j, rfl⟩ := Nat.exists_eq_add_of_le le
  rw [val_add, Nat.add_mul_mod_self_left, Nat.mod_eq_of_lt (val_lt ..)]

theorem mod_digit {low : Nat} (less : low < 2 ^ (32 * d)) (x j : Nat) :
    (low + 2 ^ (32 * d) * x) % 2 ^ (32 * d + j) = low + 2 ^ (32 * d) * (x % 2 ^ j) := by
  rw [pow_add, Nat.mod_mul, Nat.add_mul_mod_self_left, Nat.mod_eq_of_lt less, Nat.add_mul_div_left _ _ (Nat.two_pow_pos _),
    Nat.div_eq_of_lt less, Nat.zero_add]

/-- The last digit less its high bits. -/
theorem masked_val (src : Ptr) (m' : Mem) (below : m'.val dst d = m.val src d) (word : x = m.word (src + d)) :
    let m'' := if n % 32 ≠ 0 then m'.set (dst + d) (x &&& lowBits (n % 32)) else m'
    n / 32 = d → Writes m' m'' dst (digits n) ∧ m''.val dst (digits n) = m.val src (digits n) % 2 ^ n := by
  intro m'' whole
  have split := Nat.div_add_mod n 32
  by_cases none_ : n % 32 = 0
  · have many : digits n = d := by
      unfold digits
      omega
    have same : m'' = m' := if_neg (not_not.mpr none_)
    rw [same, many, below, show n = 32 * d by omega, Nat.mod_eq_of_lt (val_lt ..)]
    exact ⟨Writes.refl, rfl⟩
  · have many : digits n = d + 1 := by
      unfold digits
      omega
    have same : m'' = m'.set (dst + d) (x &&& lowBits (n % 32)) := if_pos none_
    rw [same, many]
    refine ⟨Writes.set ⟨rfl, by simp, by simp⟩, ?_⟩
    have kept : (m'.set (dst + d) (x &&& lowBits (n % 32))).val dst d = m'.val dst d :=
      val_set_above (Or.inr le_rfl) le_rfl _
    have power : 2 ^ n = 2 ^ (32 * d + n % 32) := congrArg _ (by omega)
    rw [val_succ, kept, below, set_self, toNat_lowBits (Nat.mod_lt _ (by decide)), val_succ, word, power,
      mod_digit (val_lt ..)]

end Loop

section Values

variable {s s' : Store} {b n r : Nat}

/-- The digits of the operand, which may be the result, once this has as many as `n` bits need. -/
theorem trunc_room (ok : s.Ok) (number : s.Number b) (live : s.live r)
    (value : (mpbits r n s).upd r { (mpbits r n s).obj r with top := digits n } = s') :
    Frame (· = r) s s' ∧ (s'.obj b).sign = (s.obj b).sign ∧ (s'.obj r).flags = (s.obj r).flags ∧
      (s'.obj r).top = digits n ∧ ((s'.obj b).top < digits n → s.mag b < 2 ^ (32 * (s'.obj b).top)) ∧
      ∀ j, j ≤ (s'.obj b).top → j ≤ digits n → s'.mem.val (s'.obj b).p j = s.mag b % 2 ^ (32 * j) := by
  obtain ⟨grown, sign, flags, top, -, -⟩ := mpbits_spec (n := n) ok live
  have operand := mpbits_operand (n := n) ok live number.live
  have digits_ := mpbits_grown (n := n) ok live number.live operand.2.2 le_rfl
  generalize mpbits r n s = s₁ at grown sign flags top operand digits_ value
  have live₁ := grown.live r live
  have room := grown.ok.top r live₁
  have place := upd_p (s := s₁) (c := r) (o := { s₁.obj r with top := digits n }) rfl b
  have changed := upd_frame (o := { s₁.obj r with top := digits n }) grown.ok live₁ rfl rfl (by dsimp only; omega)
  rw [value] at place changed
  have mem : s'.mem = s₁.mem := by rw [← value]; rfl
  have self : s'.obj r = { s₁.obj r with top := digits n } := by rw [← value, upd_self]
  have kept : (s'.obj b).sign = (s.obj b).sign ∧
      ((s'.obj b).top = (s₁.obj b).top ∧ (s₁.obj b).top = (s.obj b).top ∨
        (s'.obj b).top = digits n ∧ digits n ≤ (s₁.obj b).top) := by
    by_cases same : b = r
    · subst same
      rw [self]
      exact ⟨sign, Or.inr ⟨rfl, by omega⟩⟩
    · rw [changed.obj b (grown.live b number.live) same, grown.obj b number.live same]
      exact ⟨rfl, Or.inl ⟨rfl, rfl⟩⟩
  refine ⟨grown.trans changed fun _ _ => id, kept.1, by rw [self]; exact flags, by rw [self], ?_, fun j low high => ?_⟩
  · intro less
    rcases kept.2 with ⟨top', same⟩ | ⟨top', -⟩
    · rw [top', same]
      exact s.mag_lt b
    · omega
  · rw [mem, place, ← digits_, val_mod (by omega)]

/-- A number of few digits, by any more of its bits. -/
theorem mod_of_few {x top d : Nat} (few : top < d → x < 2 ^ (32 * top)) (le : top ≤ n / 32) (le' : n ≤ 32 * d) :
    x % 2 ^ (32 * top) = x % 2 ^ n := by
  by_cases whole : n = 32 * top
  · rw [whole]
  · by_cases less : top < d
    · have power : 2 ^ (32 * top) ≤ 2 ^ n := Nat.pow_le_pow_right (by decide) (by omega)
      rw [Nat.mod_eq_of_lt (few less), Nat.mod_eq_of_lt ((few less).trans_le power)]
    · omega

theorem mptrunc_spec (ok : s.Ok) (number : s.Number b) (live : s.live r)
    (plain : (s.obj b).flags = false ∧ (s.obj r).flags = false) :
    Frame (· = r) s (mptrunc b n r s) ∧ (mptrunc b n r s).Number r ∧ (mptrunc b n r s).int r = s.int b % 2 ^ n ∧
      ((mptrunc b n r s).obj r).flags = (s.obj r).flags := by
  unfold mptrunc
  rw [if_neg (by rw [plain.1, plain.2]; decide)]
  dsimp only
  obtain ⟨s₁, value⟩ : ∃ s₁, (mpbits r n s).upd r { mpbits r n s |>.obj r with top := digits n } = s₁ := ⟨_, rfl⟩
  obtain ⟨frame, sign, flags, top, few, digits_⟩ := trunc_room ok number live value
  rw [value, sign, top]
  have live₁ := frame.live r live
  have liveB := frame.live b number.live
  have room := frame.ok.top r live₁
  have bits : n ≤ 32 * digits n ∧ n / 32 ≤ digits n ∧ digits n ≤ n / 32 + 1 := by
    unfold digits
    lia
  have divides : 2 ^ n ∣ 2 ^ (32 * digits n) := Nat.pow_dvd_pow 2 bits.1
  rcases number.toShaped.int_cases with ⟨plus, int⟩ | ⟨minus, int⟩
  · rw [plus, if_neg (by decide), if_pos rfl]
    have reduced : ((s.mag b % 2 ^ n : Nat) : Int) = s.int b % 2 ^ n := by
      rw [int]
      norm_cast
    by_cases fits : n / 32 ≥ (s₁.obj b).top
    · rw [if_pos fits]
      obtain ⟨frame', sign', top', flags', words⟩ := mpassign_spec frame.ok liveB live₁
      rw [sign, plus] at sign'
      obtain ⟨frame'', number', -, int', flags''⟩ := mpnorm_number frame'.ok (frame'.live r live₁) (Or.inl sign')
      refine ⟨(frame.trans frame' fun _ _ => id).trans frame'' fun _ _ => id, number', int'.trans ?_,
        flags''.trans (flags'.trans flags)⟩
      rw [Store.int, mag, sign', top', val_words words, one_mul, ← reduced, digits_ _ le_rfl (by lia),
        mod_of_few few fits bits.1]
    · rw [if_neg fits]
      obtain ⟨m, copied⟩ : ∃ m, (if b ≠ r then rightDigits (n / 32) (s₁.obj b).p (s₁.obj r).p s₁.mem else s₁.mem) = m :=
        ⟨_, rfl⟩
      rw [copied]
      obtain ⟨writes, below, word⟩ : Writes s₁.mem m (s₁.obj r).p (n / 32) ∧
          m.val (s₁.obj r).p (n / 32) = s₁.mem.val (s₁.obj b).p (n / 32) ∧
          m.word ((s₁.obj b).p + n / 32) = s₁.mem.word ((s₁.obj b).p + n / 32) := by
        split at copied
        · rename_i other
          obtain ⟨writes, below⟩ := rightDigits_spec (ahead frame.ok liveB live₁ _) copied
          exact ⟨writes, below, writes.word _ (Or.inl fun blk => other (frame.ok.apart b r liveB live₁ blk))⟩
        · rename_i same
          obtain rfl := not_not.mp same
          subst copied
          exact ⟨Writes.refl, rfl, rfl⟩
      obtain ⟨writes', total⟩ := masked_val (n := n) (s₁.obj b).p m below word rfl
      rw [digits_ _ (by lia) le_rfl, Nat.mod_mod_of_dvd _ divides] at total
      obtain ⟨frame', number', -, int', flags'⟩ := settle 1 (digits n) frame.ok live₁
        ((writes.widen ⟨rfl, le_rfl, by lia⟩).trans writes') (by lia) (by lia) (Or.inl rfl)
      refine ⟨frame.trans frame' fun _ _ => id, number', int'.trans ?_, flags'.trans flags⟩
      rw [total, one_mul, reduced]
  · rw [minus, if_pos rfl]
    obtain ⟨m, negated⟩ : ∃ m, negLoop (digits n) (s₁.obj b).top (s₁.obj b).p (s₁.obj r).p 1 s₁.mem = m := ⟨_, rfl⟩
    rw [negated]
    -- what the loop reads of the operand
    have read : s₁.mem.val (s₁.obj b).p (min (s₁.obj b).top (digits n)) = s.mag b % 2 ^ (32 * digits n) := by
      rw [digits_ _ (Nat.min_le_left ..) (Nat.min_le_right ..)]
      rcases Nat.lt_or_ge (s₁.obj b).top (digits n) with less | ge
      · rw [Nat.min_eq_left less.le]
        exact mod_of_few few (by lia) (by lia)
      · rw [Nat.min_eq_right ge]
    have some_ : digits n ≤ (s₁.obj b).top ∨
        (1 : UInt32).toNat ≤ s₁.mem.val (s₁.obj b).p (min (s₁.obj b).top (digits n)) := by
      rcases Nat.lt_or_ge (s₁.obj b).top (digits n) with less | ge
      · right
        have power : 2 ^ (32 * (s₁.obj b).top) ≤ 2 ^ (32 * digits n) := Nat.pow_le_pow_right (by decide) (by lia)
        rw [read, Nat.mod_eq_of_lt ((few less).trans_le power)]
        exact Nat.one_le_iff_ne_zero.mpr (number.some_of_neg minus)
      · exact Or.inl ge
    obtain ⟨writes, c', -, complement⟩ := negLoop_spec (by decide) some_ (ahead frame.ok liveB live₁ _) negated
    rw [read] at complement
    obtain ⟨writes', total⟩ := masked_val (n := n) (s₁.obj r).p m rfl rfl rfl
    obtain ⟨frame', number', -, int', flags'⟩ := settle 1 (digits n) frame.ok live₁ (writes.trans writes') (by lia)
      (by lia) (Or.inl rfl)
    refine ⟨frame.trans frame' fun _ _ => id, number', int'.trans ?_, flags'.trans flags⟩
    rw [total, one_mul, int]
    obtain ⟨q, power⟩ := divides
    have whole := Nat.div_add_mod (s.mag b) (2 ^ (32 * digits n))
    rw [UInt32.toNat_one] at complement
    have sum : ((m.val (s₁.obj r).p (digits n) : Nat) : Int) =
        -(s.mag b : Int) + 2 ^ n * (q * (1 - c' + (s.mag b / 2 ^ (32 * digits n) : Nat))) := by
      generalize s.mag b / 2 ^ (32 * digits n) = w at whole ⊢
      generalize s.mag b % 2 ^ (32 * digits n) = rest at whole complement
      rw [power] at complement whole
      zify at complement whole
      linear_combination complement - whole
    push_cast
    rw [sum, Int.add_mul_emod_self_left]

/-- A digit whose bit `k` is its highest one, with that bit copied to the ones above. -/
theorem extend_digit {k : Nat} {w : UInt32} (less : k < 32) (low : w.toNat < 2 ^ (k + 1)) :
    (w &&& (1 <<< UInt32.ofNat k) = 0 ↔ w.toNat < 2 ^ k) ∧
      (2 ^ k ≤ w.toNat → (w ||| -(1 <<< UInt32.ofNat k)).toNat + 2 ^ (k + 1) = w.toNat + 2 ^ 32) := by
  have bit := toNat_bit less
  have power : 2 ^ (k + 1) = 2 * 2 ^ k := pow_succ' 2 k
  constructor
  · rw [← UInt32.toNat_inj, UInt32.toNat_and, bit, UInt32.toNat_zero, Nat.and_two_pow]
    have zero : (w.toNat.testBit k).toNat * 2 ^ k = 0 ↔ w.toNat.testBit k = false := by
      have some_ := Nat.two_pow_pos k
      cases w.toNat.testBit k <;> simp
    rw [zero, Nat.testBit_eq_decide_div_mod_eq, decide_eq_false_iff_not]
    have quotient : w.toNat / 2 ^ k < 2 := Nat.div_lt_of_lt_mul (by omega)
    rw [← Nat.div_eq_zero_iff_lt (Nat.two_pow_pos k)]
    generalize w.toNat / 2 ^ k = q at quotient
    omega
  · intro high
    obtain ⟨rest, split⟩ := Nat.exists_eq_add_of_le high
    have small : rest < 2 ^ k := by omega
    have above : 2 ^ 32 = 2 ^ (k + 1) * 2 ^ (31 - k) := by rw [← pow_add]; congr 1; omega
    have ones := Nat.two_pow_pos (31 - k)
    obtain ⟨j, many⟩ := Nat.exists_eq_succ_of_ne_zero ones.ne'
    have neg : (-((1 : UInt32) <<< UInt32.ofNat k)).toNat = 2 ^ (k + 1) * j + 2 ^ k := by
      rw [UInt32.toNat_neg, bit, show UInt32.size = 2 ^ (k + 1) * 2 ^ (31 - k) from above, many, Nat.mul_succ,
        Nat.mod_eq_of_lt (by omega)]
      omega
    have same : w.toNat ||| 2 ^ k = w.toNat := by
      rw [split, ← Nat.mul_one (2 ^ k), Nat.two_pow_add_eq_or_of_lt small, Nat.or_right_comm, Nat.or_self]
    rw [UInt32.toNat_or, neg, Nat.two_pow_add_eq_or_of_lt (by omega), Nat.or_comm (2 ^ (k + 1) * j), ← Nat.or_assoc, same,
      Nat.or_comm, ← Nat.two_pow_add_eq_or_of_lt low, above, many, Nat.mul_succ]
    omega

/-- The number of `n` bits that is left, with its sign. -/
theorem mpxtend_spec (some_ : n ≠ 0) (ok : s.Ok) (number : s.Number b) (live : s.live r)
    (plain : (s.obj b).flags = false ∧ (s.obj r).flags = false) :
    Frame (· = r) s (mpxtend b n r s) ∧ (mpxtend b n r s).Number r ∧
      (-2 ^ (n - 1) ≤ (mpxtend b n r s).int r ∧ (mpxtend b n r s).int r < 2 ^ (n - 1) ∧
        (mpxtend b n r s).int r % 2 ^ n = s.int b % 2 ^ n) ∧
      ((mpxtend b n r s).obj r).flags = (s.obj r).flags := by
  unfold mpxtend
  dsimp only
  have double : (2 : Int) ^ n = 2 * 2 ^ (n - 1) := by
    rw [← pow_succ', Nat.sub_add_cancel (Nat.pos_of_ne_zero some_)]
  by_cases few : (n - 1) / 32 ≥ (s.obj b).top
  · rw [if_pos few]
    obtain ⟨frame, number', int, flags⟩ := mpassign_number ok number live
    rw [int]
    refine ⟨frame, number', ?_, flags⟩
    have power : 2 ^ (32 * (s.obj b).top) ≤ 2 ^ (n - 1) := Nat.pow_le_pow_right (by decide) (by lia)
    have bound : ((s.mag b : Nat) : Int) < 2 ^ (n - 1) := by exact_mod_cast (s.mag_lt b).trans_le power
    rcases number.toShaped.int_cases with ⟨-, int⟩ | ⟨-, int⟩
    · rw [int]
      exact ⟨by lia, by lia, rfl⟩
    · rw [int]
      exact ⟨by lia, by lia, rfl⟩
  rw [if_neg few]
  obtain ⟨frame, number', int, flags⟩ := mptrunc_spec (n := n) ok number live plain
  generalize mptrunc b n r s = s₁ at frame number' int flags ⊢
  have live₁ := frame.live r live
  have positive : (0 : Int) < 2 ^ n := pow_pos (by decide) n
  have low := Int.emod_nonneg (s.int b) positive.ne'
  have high := Int.emod_lt_of_pos (s.int b) positive
  have emod : s.int b % 2 ^ n % 2 ^ n = s.int b % 2 ^ n := Int.emod_emod_of_dvd _ dvd_rfl
  rw [← int] at low high emod
  have plus : (s₁.obj r).sign = 1 ∧ s₁.int r = s₁.mag r := by
    rcases number'.toShaped.int_cases with plus | ⟨minus, int'⟩
    · exact plus
    · have digit := number'.some_of_neg minus
      lia
  obtain ⟨sign, mag⟩ := plus
  have magLt : s₁.mag r < 2 ^ n := by
    rw [mag] at high
    exact_mod_cast high
  have many : digits n = (n - 1) / 32 + 1 := by
    unfold digits
    lia
  have fits : (s₁.obj r).top ≤ digits n := by
    by_contra more
    have le := number'.le_mag (by lia)
    have power : 2 ^ n ≤ 2 ^ (32 * ((s₁.obj r).top - 1)) := by
      unfold digits at more
      exact Nat.pow_le_pow_right (by decide) (by lia)
    lia
  obtain ⟨grown, sign', flags', top, -, -⟩ := mpbits_spec (n := n) frame.ok live₁
  have value := mpbits_grown (n := n) (k := digits n) frame.ok live₁ live₁ fits (by lia)
  generalize mpbits r n s₁ = s₂ at grown sign' flags' top value ⊢
  rw [Nat.max_eq_right fits] at top
  have live₂ := grown.live r live₁
  have room := grown.ok.top r live₂
  rw [top]
  -- the number by its last digit and the ones below
  have split : 2 ^ n = 2 ^ (32 * ((n - 1) / 32)) * 2 ^ ((n - 1) % 32 + 1) := by
    rw [← pow_add]
    exact congrArg _ (by lia)
  have split' : 2 ^ (n - 1) = 2 ^ (32 * ((n - 1) / 32)) * 2 ^ ((n - 1) % 32) := by
    rw [← pow_add]
    exact congrArg _ (by lia)
  have parts := value
  rw [many, val_succ] at parts
  have below := val_lt s₂.mem (s₂.obj r).p ((n - 1) / 32)
  have word : (s₂.mem.word ((s₂.obj r).p + (n - 1) / 32)).toNat < 2 ^ ((n - 1) % 32 + 1) :=
    Nat.lt_of_mul_lt_mul_left (a := 2 ^ (32 * ((n - 1) / 32))) (by lia)
  obtain ⟨test, extended⟩ := extend_digit (k := (n - 1) % 32) (Nat.mod_lt _ (by decide)) word
  generalize s₂.mem.word ((s₂.obj r).p + (n - 1) / 32) = w at parts word test extended ⊢
  by_cases nonneg : w.toNat < 2 ^ ((n - 1) % 32)
  · rw [if_pos (test.mpr nonneg)]
    obtain ⟨frame', number'', mag', int', flags''⟩ :=
      mpnorm_number grown.ok live₂ (by rw [sign', sign]; exact Or.inl rfl)
    have same : (mpnorm r s₂).int r = s₁.int r := by
      rw [int', Store.int, Store.mag, top, value, sign', Store.int]
    refine ⟨frame.trans (grown.trans frame' fun _ _ => id) fun _ _ => id, number'', ?_,
      flags''.trans (flags'.trans flags)⟩
    have less : s₁.mag r < 2 ^ (n - 1) := by
      rw [← parts, split']
      have le := Nat.mul_le_mul_left (2 ^ (32 * ((n - 1) / 32))) (Nat.succ_le_of_lt nonneg)
      rw [Nat.mul_succ] at le
      lia
    have less' : ((s₁.mag r : Nat) : Int) < 2 ^ (n - 1) := by exact_mod_cast less
    rw [same]
    exact ⟨by lia, by lia, by rw [emod, int]⟩
  · rw [if_neg fun zero => nonneg (test.mp zero)]
    have extended := extended (Nat.not_lt.mp nonneg)
    generalize w ||| -(1 <<< UInt32.ofNat ((n - 1) % 32)) = w' at extended ⊢
    obtain ⟨m, negated⟩ : ∃ m, negLoop (digits n) (digits n) (s₂.obj r).p (s₂.obj r).p 1
        (s₂.mem.set ((s₂.obj r).p + (n - 1) / 32) w') = m := ⟨_, rfl⟩
    rw [negated]
    have wrote : Writes s₂.mem (s₂.mem.set ((s₂.obj r).p + (n - 1) / 32) w') (s₂.obj r).p (digits n) :=
      Writes.set ⟨rfl, by simp, by rw [many]; simp⟩
    obtain ⟨writes, c', -, complement⟩ := negLoop_spec (by decide) (Or.inl le_rfl) Ahead.self negated
    have kept : (s₂.mem.set ((s₂.obj r).p + (n - 1) / 32) w').val (s₂.obj r).p ((n - 1) / 32) =
        s₂.mem.val (s₂.obj r).p ((n - 1) / 32) := val_set_above (Or.inr le_rfl) le_rfl w'
    have set : (s₂.mem.set ((s₂.obj r).p + (n - 1) / 32) w').val (s₂.obj r).p (digits n) + 2 ^ n =
        s₁.mag r + 2 ^ (32 * digits n) := by
      have part : 2 ^ (32 * ((n - 1) / 32)) * w'.toNat + 2 ^ n =
          2 ^ (32 * ((n - 1) / 32)) * w.toNat + 2 ^ (32 * digits n) := by
        rw [split, many, Nat.mul_succ, pow_add 2 (32 * ((n - 1) / 32)) 32, ← Nat.mul_add, extended, Nat.mul_add]
      rw [← parts, many, val_succ, kept, set_self, ← many]
      lia
    rw [Nat.min_self, UInt32.toNat_one] at complement
    obtain ⟨frame', number'', -, int', flags''⟩ := settle (-1) (digits n) grown.ok live₂ (wrote.trans writes) (by lia)
      (by lia) (Or.inr rfl)
    refine ⟨frame.trans (grown.trans frame' fun _ _ => id) fun _ _ => id, number'', ?_,
      flags''.trans (flags'.trans flags)⟩
    have above : 2 ^ (n - 1) ≤ s₁.mag r := by
      rw [← parts, split']
      have part := Nat.mul_le_mul_left (2 ^ (32 * ((n - 1) / 32))) (Nat.not_lt.mp nonneg)
      lia
    have positive' := Nat.two_pow_pos (n - 1)
    have le : 2 ^ n ≤ 2 ^ (32 * digits n) := Nat.pow_le_pow_right (by decide) (by unfold digits; lia)
    have none_ : c' = 0 := by
      by_contra more
      have part := Nat.mul_le_mul_left (2 ^ (32 * digits n)) (Nat.one_le_iff_ne_zero.mpr more)
      lia
    rw [none_] at complement
    have above' : (2 : Int) ^ (n - 1) ≤ ((s₁.mag r : Nat) : Int) := by exact_mod_cast above
    have value' : ((m.val (s₂.obj r).p (digits n) : Nat) : Int) = 2 ^ n - s₁.int r := by
      have sum : m.val (s₂.obj r).p (digits n) + s₁.mag r = 2 ^ n := by lia
      rw [mag, ← Nat.cast_ofNat, ← Nat.cast_pow, ← sum]
      push_cast
      ring
    rw [int', value', neg_one_mul, neg_sub]
    refine ⟨by lia, by lia, ?_⟩
    rw [Int.sub_emod_right, emod, int]

/-- A negative number, made one more and one less again, so that the division rounds down. -/
theorem tdiv_floor {x : Int} (neg : x < 0) (n : Nat) : (x + 1).tdiv (2 ^ n) - 1 = x / 2 ^ n := by
  obtain ⟨k, rfl⟩ := Int.eq_negSucc_of_lt_zero neg
  have power : (2 : Int) ^ n = ((2 ^ n : Nat) : Int) := by norm_cast
  rw [power, Int.negSucc_ediv _ (by exact_mod_cast Nat.two_pow_pos n), Int.negSucc_eq, neg_add, Int.neg_add_cancel_right,
    Int.neg_tdiv, Int.tdiv_eq_ediv_of_nonneg (Int.natCast_nonneg k)]
  change -((k : Int) / _) - 1 = -((k : Int) / _ + 1)
  ring

theorem mpasr_spec {mpzero mpone : Nat} {n : Int} (statics : s.Statics mpzero mpone) (ok : s.Ok) (number : s.Number b)
    (live : s.live r) (other : r ≠ mpzero ∧ r ≠ mpone) : Frame (· = r) s (mpasr mpzero mpone b n r s) ∧
    (mpasr mpzero mpone b n r s).int r = if 0 ≤ n then s.int b / 2 ^ n.toNat else s.int b * 2 ^ (-n).toNat := by
  unfold mpasr
  by_cases first : (s.obj b).sign > 0 ∨ n ≤ 0
  · rw [if_pos first]
    obtain ⟨frame, -, int⟩ := mpright_spec n ok number live
    refine ⟨frame, int.trans ?_⟩
    unfold scaled
    split
    · split
      · obtain rfl : n = 0 := by omega
        simp
      · rfl
    · have plus : 0 ≤ s.int b := by
        rcases number.toShaped.int_cases with ⟨-, int⟩ | ⟨minus, -⟩
        · omega
        · omega
      rw [if_pos (by omega), neg_neg, Int.tdiv_eq_ediv_of_nonneg plus]
  · rw [if_neg first]
    dsimp only
    have neg : s.int b < 0 := by
      rcases number.toShaped.int_cases with ⟨plus, -⟩ | ⟨minus, int⟩
      · omega
      · have digit := number.some_of_neg minus
        omega
    obtain ⟨one, oneInt⟩ := statics.one_number
    obtain ⟨frame, number', int, -⟩ := mpadd_spec ok statics.zero_number number.toShaped one.toShaped live
    generalize mpadd mpzero b mpone r s = s₁ at frame number' int ⊢
    obtain ⟨frame', shaped, int'⟩ := mpright_spec n frame.ok number' (frame.live r live)
    generalize mpright r n r s₁ = s₂ at frame' shaped int' ⊢
    have both : Frame (· = r) s s₂ := frame.trans frame' fun _ _ => id
    have statics' := statics.frame both ok ⟨fun same => other.1 same.symm, fun same => other.2 same.symm⟩
    obtain ⟨one', oneInt'⟩ := statics'.one_number
    have digit : s₂.mag mpone ≠ 0 := fun zero => by
      rw [Store.int, zero] at oneInt'
      simp at oneInt'
    obtain ⟨frame'', -, int'', -⟩ := mpsub_shaped frame'.ok statics'.zero_number shaped one'.toShaped
      (fun _ => by omega) (both.live r live)
    refine ⟨both.trans frame'' fun _ _ => id, int''.trans ?_⟩
    rw [int', oneInt', int, oneInt, scaled, if_neg (by omega), neg_neg, if_pos (by omega), tdiv_floor neg]

end Values

end Inferno.Mp
