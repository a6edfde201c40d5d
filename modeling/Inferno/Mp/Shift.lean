import Inferno.Mp.Add

namespace Inferno.Mp

open Lib Mem Store

/-- The loop of `mpleft` for whole digits. -/
def leftDigits : Nat → Ptr → Ptr → Mem → Mem
  | 0, _, _, m => m
  | n + 1, src, dst, m => leftDigits n src dst (m.set (dst + n) (m.word (src + n)))

/-- The other loop of `mpleft`, and the digit after it. -/
def leftBits (l r : UInt32) : Nat → Ptr → Ptr → UInt32 → Mem → Mem
  | 0, _, dst, last, m => m.set dst (last <<< l)
  | n + 1, src, dst, last, m =>
    let this := m.word (src + n)
    leftBits l r n src dst this (m.set (dst + (n + 1)) (last <<< l ||| this >>> r))

/-- `mpleft` of a shift that is not negative. -/
def mpleftNat (b shift res : Nat) (s : Store) : Store :=
  let s := s.upd res { s.obj res with sign := (s.obj b).sign }
  if (s.obj b).top = 0 then s.upd res { s.obj res with top := 0 }
  else
    let otop := (s.obj b).top
    let s := mpbits res (otop * 32 + shift) s
    let s := s.upd res { s.obj res with top := digits (otop * 32 + shift) }
    let d := shift / 32
    let l := shift - d * 32
    let r := 32 - l
    let m :=
      if l = 0 then leftDigits otop (s.obj b).p ((s.obj res).p + d) s.mem
      else leftBits (UInt32.ofNat l) (UInt32.ofNat r) otop (s.obj b).p ((s.obj res).p + d) 0 s.mem
    let m := m.fill (s.obj res).p d 0
    ({ s with mem := m } : Store).upd res { s.obj res with top := normTop m (s.obj res).p (s.obj res).top }

def rightDigits : Nat → Ptr → Ptr → Mem → Mem
  | 0, _, _, m => m
  | n + 1, src, dst, m => rightDigits n (src + 1) (dst + 1) (m.set dst (m.word src))

def rightBits (l r : UInt32) : Nat → Ptr → Ptr → UInt32 → Mem → Mem
  | 0, _, dst, last, m => m.set dst (last >>> r)
  | n + 1, src, dst, last, m =>
    let this := m.word src
    rightBits l r n (src + 1) (dst + 1) this (m.set dst (this <<< l ||| last >>> r))

/-- `mpright` of a shift that is not negative. -/
def mprightNat (b shift res : Nat) (s : Store) : Store :=
  let s := s.upd res { s.obj res with sign := (s.obj b).sign }
  if (s.obj b).top = 0 then s.upd res { s.obj res with top := 0 }
  else
    let s := if res ≠ b then mpbits res ((s.obj b).top * 32 - shift) s else s
    let d := shift / 32
    let r := shift - d * 32
    let l := 32 - r
    if d ≥ (s.obj b).top then s.upd res { s.obj res with top := 0 }
    else
      let n := (s.obj b).top - d
      let m :=
        if r = 0 then rightDigits n ((s.obj b).p + d) (s.obj res).p s.mem
        else rightBits (UInt32.ofNat l) (UInt32.ofNat r) (n - 1) ((s.obj b).p + (d + 1)) (s.obj res).p
          (s.mem.word ((s.obj b).p + d)) s.mem
      let i := normTop m (s.obj res).p n
      ({ s with mem := m } : Store).upd res { s.obj res with top := i, sign := if i = 0 then 1 else (s.obj res).sign }

/-- A negative shift is one to the other side. -/
def mpleft (b : Nat) (shift : Int) (res : Nat) (s : Store) : Store :=
  if (s.obj b).top ≠ 0 ∧ shift < 0 then
    mprightNat b (-shift).toNat res (s.upd res { s.obj res with sign := (s.obj b).sign })
  else mpleftNat b shift.toNat res s

def mpright (b : Nat) (shift : Int) (res : Nat) (s : Store) : Store :=
  if (s.obj b).top ≠ 0 ∧ shift < 0 then
    mpleftNat b (-shift).toNat res (s.upd res { s.obj res with sign := (s.obj b).sign })
  else mprightNat b shift.toNat res s

section Loops

variable {m m' : Mem} {src dst : Ptr} {n k l : Nat} {last this : UInt32}

/-- Words written from the top down, beginning at `dst`, leave alone the lower ones that are read later. -/
def Behind (src dst : Ptr) : Prop := src.blk ≠ dst.blk ∨ src.off ≤ dst.off

theorem val_set_above (behind : Behind src dst) (le : n ≤ k) (x : UInt32) :
    (m.set (dst + k) x).val src n = m.val src n := by
  have wrote : Writes m (m.set (dst + k) x) (dst + k) 1 := Writes.set ⟨rfl, le_rfl, by simp⟩
  refine wrote.val_eq ?_
  unfold Behind at behind
  simp only [Apart, Ptr.add_blk, Ptr.add_off]
  omega

theorem leftDigits_spec (behind : Behind src dst) (value : leftDigits n src dst m = m') :
    Writes m m' dst n ∧ m'.val dst n = m.val src n := by
  induction n generalizing m with
  | zero =>
    cases value
    exact ⟨Writes.refl, rfl⟩
  | succ n ih =>
    obtain ⟨writes, low⟩ := ih value
    have wrote : Writes m (m.set (dst + n) (m.word (src + n))) dst (n + 1) := Writes.set ⟨rfl, by simp, by simp⟩
    refine ⟨wrote.trans (writes.widen ⟨rfl, le_rfl, by omega⟩), ?_⟩
    have top : m'.word (dst + n) = m.word (src + n) :=
      (writes.word _ (Or.inr (Or.inr le_rfl))).trans set_self
    rw [val_succ, val_succ, low, top, val_set_above behind le_rfl]

theorem rightDigits_spec (ahead : Ahead dst src n) (value : rightDigits n src dst m = m') :
    Writes m m' dst n ∧ m'.val dst n = m.val src n := by
  induction n generalizing src dst m with
  | zero =>
    cases value
    exact ⟨Writes.refl, rfl⟩
  | succ n ih =>
    obtain ⟨writes, rest⟩ := ih ahead.step value
    obtain ⟨all, here⟩ := writes.cons
    exact ⟨all, by rw [val_cons, val_cons, here, rest, ahead.val_set]⟩

theorem toNat_shift (less : k < 32) : (UInt32.ofNat k).toNat % 32 = k := by
  rw [UInt32.toNat_ofNat', Nat.mod_eq_of_lt (a := k) (by omega), Nat.mod_eq_of_lt less]

theorem toNat_high (less : k < 32) : (last >>> UInt32.ofNat k).toNat = last.toNat / 2 ^ k := by
  rw [UInt32.toNat_shiftRight, toNat_shift less, Nat.shiftRight_eq_div_pow]

theorem toNat_low (sum : l + k = 32) (some_ : 0 < k) :
    (last <<< UInt32.ofNat l).toNat = 2 ^ l * (last.toNat % 2 ^ k) := by
  rw [UInt32.toNat_shiftLeft, toNat_shift (by omega), Nat.shiftLeft_eq, Nat.mul_comm,
    show 2 ^ 32 = 2 ^ l * 2 ^ k by rw [← pow_add, sum], Nat.mul_mod_mul_left]

/-- A digit made of the low bits of one and the high bits of another. -/
theorem toNat_shifts (sum : l + k = 32) (some_ : 0 < l ∧ 0 < k) :
    (this <<< UInt32.ofNat l ||| last >>> UInt32.ofNat k).toNat =
      2 ^ l * (this.toNat % 2 ^ k) + last.toNat / 2 ^ k := by
  have low : last.toNat / 2 ^ k < 2 ^ l := Nat.div_lt_of_lt_mul (by
    rw [← pow_add, Nat.add_comm, sum]
    exact last.toNat_lt)
  rw [UInt32.toNat_or, toNat_low sum some_.2, toNat_high (by omega), Nat.two_pow_add_eq_or_of_lt low]

/-- The number of `last` and the words after it, shifted to the right. -/
theorem rightBits_spec {r : Nat} (sum : l + r = 32) (some_ : 0 < l ∧ 0 < r) (ahead : Ahead dst src n)
    (value : rightBits (UInt32.ofNat l) (UInt32.ofNat r) n src dst last m = m') :
    Writes m m' dst (n + 1) ∧ m'.val dst (n + 1) = (last.toNat + 2 ^ 32 * m.val src n) / 2 ^ r := by
  induction n generalizing src dst last m with
  | zero =>
    subst value
    unfold rightBits
    refine ⟨Writes.set ⟨rfl, le_rfl, Nat.lt_succ_self _⟩, ?_⟩
    rw [val_one, set_self, toNat_high (by omega), val, Nat.mul_zero, Nat.add_zero]
  | succ n ih =>
    obtain ⟨writes, rest⟩ := ih ahead.step value
    obtain ⟨all, here⟩ := writes.cons
    refine ⟨all, ?_⟩
    rw [val_cons, here, rest, ahead.val_set, toNat_shifts sum some_, val_cons m src]
    generalize m.val (src + 1) n = above
    generalize (m.word src).toNat = this
    have power : 2 ^ 32 = 2 ^ l * 2 ^ r := by rw [← pow_add, sum]
    have bits : (this + 2 ^ 32 * above) % 2 ^ r = this % 2 ^ r := by
      rw [power, Nat.mul_comm (2 ^ l), Nat.mul_assoc, Nat.add_mul_mod_self_left]
    have whole := Nat.div_add_mod (this + 2 ^ 32 * above) (2 ^ r)
    rw [bits] at whole
    generalize (this + 2 ^ 32 * above) / 2 ^ r = high at whole ⊢
    rw [← whole, power, show last.toNat + 2 ^ l * 2 ^ r * (2 ^ r * high + this % 2 ^ r) =
      last.toNat + 2 ^ r * (2 ^ l * (2 ^ r * high + this % 2 ^ r)) by ring,
      Nat.add_mul_div_left _ _ (Nat.two_pow_pos r)]
    ring

/-- The number of the words and of `last` above them, shifted to the left. -/
theorem leftBits_spec {r : Nat} (sum : l + r = 32) (some_ : 0 < l ∧ 0 < r) (behind : Behind src dst)
    (value : leftBits (UInt32.ofNat l) (UInt32.ofNat r) n src dst last m = m') :
    Writes m m' dst (n + 1) ∧
      m'.val dst (n + 1) = (m.val src n + 2 ^ (32 * n) * last.toNat) * 2 ^ l % 2 ^ (32 * (n + 1)) := by
  have power : 2 ^ 32 = 2 ^ l * 2 ^ r := by rw [← pow_add, sum]
  induction n generalizing last m with
  | zero =>
    subst value
    unfold leftBits
    refine ⟨Writes.set ⟨rfl, le_rfl, Nat.lt_succ_self _⟩, ?_⟩
    rw [val_one, set_self, toNat_low sum some_.2]
    simp only [val, Nat.mul_zero, pow_zero, Nat.one_mul, Nat.zero_add, Nat.mul_one]
    rw [power, Nat.mul_comm last.toNat, Nat.mul_mod_mul_left]
  | succ n ih =>
    obtain ⟨writes, rest⟩ := ih value
    generalize made : last <<< UInt32.ofNat l ||| m.word (src + n) >>> UInt32.ofNat r = x at writes rest
    have wrote : Writes m (m.set (dst + (n + 1)) x) dst (n + 1 + 1) := Writes.set ⟨rfl, by simp, by simp⟩
    refine ⟨wrote.trans (writes.widen ⟨rfl, le_rfl, by omega⟩), ?_⟩
    have top : m'.word (dst + (n + 1)) = x := (writes.word _ (Or.inr (Or.inr le_rfl))).trans set_self
    rw [val_succ, rest, top, ← made, toNat_shifts sum some_, val_set_above behind (Nat.le_succ n), val_succ m src n]
    have below := val_lt m src n
    generalize m.val src n = low at below
    have digit := (m.word (src + n)).toNat_lt
    generalize (m.word (src + n)).toNat = this at digit
    -- what the digits below push into this one
    have carry : (low + 2 ^ (32 * n) * this) * 2 ^ l / 2 ^ (32 * (n + 1)) = this / 2 ^ r := by
      rw [two_pow_succ, power, Nat.mul_comm _ (2 ^ l), Nat.mul_assoc, Nat.mul_div_mul_left _ _ (Nat.two_pow_pos l),
        Nat.mul_comm (2 ^ r), ← Nat.div_div_eq_div_mul, Nat.add_mul_div_left _ _ (Nat.two_pow_pos _),
        Nat.div_eq_of_lt below, Nat.zero_add]
    have digits : (low + 2 ^ (32 * n) * this + 2 ^ (32 * (n + 1)) * last.toNat) * 2 ^ l =
        (low + 2 ^ (32 * n) * this) * 2 ^ l + 2 ^ (32 * (n + 1)) * (2 ^ l * last.toNat) := by ring
    have high : (this / 2 ^ r + 2 ^ l * last.toNat) % 2 ^ 32 = 2 ^ l * (last.toNat % 2 ^ r) + this / 2 ^ r := by
      have small : this / 2 ^ r < 2 ^ l := Nat.div_lt_of_lt_mul (by rwa [Nat.mul_comm, ← power])
      rw [power, Nat.mod_mul, Nat.add_mul_mod_self_left, Nat.mod_eq_of_lt small,
        Nat.add_mul_div_left _ _ (Nat.two_pow_pos l), Nat.div_eq_of_lt small, Nat.zero_add, Nat.add_comm]
    rw [digits, two_pow_succ (n + 1), Nat.mul_comm (2 ^ 32), Nat.mod_mul, Nat.add_mul_mod_self_left,
      Nat.add_mul_div_left _ _ (Nat.two_pow_pos _), carry, high]

end Loops

section Shifts

variable {s s' : Store} {b res : Nat} {m : Mem} {shift : Nat}

/-- `mpnorm`, with the fields that an object is given before. -/
theorem mpnorm_upd (c top : Nat) (sign : Int) :
    mpnorm c (({ s with mem := m } : Store).upd c { s.obj c with sign := sign, top := top }) =
      ({ s with mem := m } : Store).upd c { s.obj c with
        top := normTop m (s.obj c).p top, sign := if normTop m (s.obj c).p top = 0 then 1 else sign } := by
  simp only [mpnorm, Store.upd, Function.update_idem, Function.update_self]
  rfl

/-- The sign of the operand goes to the result first, which may be the operand. -/
theorem sign_first (ok : s.Ok) (live : s.live res) (value : s.upd res { s.obj res with sign := (s.obj b).sign } = s') :
    Frame (· = res) s s' ∧ s'.obj b = s.obj b ∧ s'.mem = s.mem ∧ (s'.obj res).sign = (s.obj b).sign ∧
      (s'.obj res).flags = (s.obj res).flags := by
  subst value
  refine ⟨upd_frame ok live rfl rfl (ok.top res live), ?_, rfl, by rw [upd_self], by rw [upd_self]⟩
  by_cases same : b = res
  · rw [same, upd_self]
  · rw [upd_of_ne same]

/-- An object without digits. -/
theorem emptied (ok : s.Ok) (live : s.live res) (unit_ : (s.obj res).sign = 1 ∨ (s.obj res).sign = -1)
    (value : s.upd res { s.obj res with top := 0 } = s') : Frame (· = res) s s' ∧ s'.Shaped res ∧ s'.mag res = 0 ∧
    (s'.obj res).top = 0 ∧ (s'.obj res).sign = (s.obj res).sign ∧ (s'.obj res).flags = (s.obj res).flags := by
  subst value
  have frame := upd_frame (o := { s.obj res with top := 0 }) ok live rfl rfl (Nat.zero_le _)
  refine ⟨frame, ⟨frame.live res live, by rw [upd_self]; exact unit_, fun i above => ?_⟩, ?_, ?_⟩
  · rw [upd_self] at above
    exact absurd above.symm (Nat.succ_ne_zero i)
  · rw [mag, upd_self]
    rfl
  · rw [upd_self]
    exact ⟨rfl, rfl, rfl⟩

/-- The digits that `mpright` leaves. -/
theorem right_val {p : Ptr} {top d r : Nat} (split : shift = 32 * d + r) (less : d < top) :
    m.val p top / 2 ^ shift = m.val (p + d) (top - d) / 2 ^ r := by
  obtain ⟨n, rfl⟩ := Nat.exists_eq_add_of_le less.le
  rw [Nat.add_sub_cancel_left, val_add, split, pow_add, ← Nat.div_div_eq_div_mul,
    Nat.add_mul_div_left _ _ (Nat.two_pow_pos _), Nat.div_eq_of_lt (val_lt ..), Nat.zero_add]

/-- What `mpright` shifts, after the result has got its room. -/
theorem right_room (ok : s.Ok) (liveB : s.live b) (live : s.live res)
    (grown : (if res ≠ b then mpbits res ((s.obj b).top * 32 - shift) s else s) = s') :
    Frame (· = res) s s' ∧ (s'.obj b).top = (s.obj b).top ∧ s'.mag b = s.mag b ∧
      (s'.obj res).sign = (s.obj res).sign ∧ (s'.obj res).flags = (s.obj res).flags ∧
      (s.obj b).top - shift / 32 ≤ (s'.obj res).size := by
  subst grown
  split
  · rename_i other
    obtain ⟨frame, sign, flags, top, -, -⟩ := mpbits_spec (n := (s.obj b).top * 32 - shift) ok live
    have room := frame.ok.top res (frame.live res live)
    refine ⟨frame, by rw [frame.obj b liveB other.symm], frame.mag ok liveB other.symm, sign, flags, ?_⟩
    unfold digits at top
    omega
  · rename_i same
    obtain rfl := not_not.mp same
    have room := ok.top res live
    exact ⟨Frame.refl ok, rfl, rfl, rfl, rfl, by omega⟩

theorem mprightNat_spec (shift : Nat) (ok : s.Ok) (shaped : s.Shaped b) (live : s.live res) :
    Frame (· = res) s (mprightNat b shift res s) ∧ (mprightNat b shift res s).Shaped res ∧
      (mprightNat b shift res s).mag res = s.mag b / 2 ^ shift ∧
      (mprightNat b shift res s).int res = (s.obj b).sign * (s.mag b / 2 ^ shift : Nat) ∧
      ((mprightNat b shift res s).obj res).flags = (s.obj res).flags := by
  unfold mprightNat
  dsimp only
  obtain ⟨signed, object, mem, sign, flags⟩ := sign_first (b := b) ok live rfl
  generalize s.upd res { s.obj res with sign := (s.obj b).sign } = s₁ at signed object mem sign flags ⊢
  have live₁ := signed.live res live
  have mag₁ : s₁.mag b = s.mag b := by rw [mag, object, mem, mag]
  by_cases none_ : (s₁.obj b).top = 0
  · rw [if_pos none_]
    have zero : s.mag b = 0 := shaped.mag_eq_zero.mpr (by rw [← object]; exact none_)
    obtain ⟨frame, shaped', mag', -, -, flags'⟩ := emptied signed.ok live₁ (by rw [sign]; exact shaped.sign) rfl
    rw [zero, Nat.zero_div]
    exact ⟨signed.trans frame fun _ _ => id, shaped', mag', by rw [Store.int, mag']; simp, flags'.trans flags⟩
  rw [if_neg none_]
  obtain ⟨s₂, room⟩ : ∃ s₂, (if res ≠ b then mpbits res ((s₁.obj b).top * 32 - shift) s₁ else s₁) = s₂ := ⟨_, rfl⟩
  rw [room]
  obtain ⟨frame, top₂, mag₂, sign₂, flags₂, le⟩ := right_room signed.ok (signed.live b shaped.live) live₁ room
  rw [mag₁] at mag₂
  have live₂ := frame.live res live₁
  have unit_ : (s₂.obj res).sign = 1 ∨ (s₂.obj res).sign = -1 := by rw [sign₂, sign]; exact shaped.sign
  by_cases gone : shift / 32 ≥ (s₂.obj b).top
  · rw [if_pos gone]
    obtain ⟨frame', shaped', mag', -, -, flags'⟩ := emptied frame.ok live₂ unit_ rfl
    have zero : s.mag b / 2 ^ shift = 0 := by
      refine Nat.div_eq_of_lt ((mag₂ ▸ s₂.mag_lt b).trans_le (Nat.pow_le_pow_right (by decide) ?_))
      omega
    rw [zero]
    exact ⟨signed.trans (frame.trans frame' fun _ _ => id) fun _ _ => id, shaped', mag',
      by rw [Store.int, mag']; simp, flags'.trans (flags₂.trans flags)⟩
  rw [if_neg gone]
  obtain ⟨m, shifted⟩ : ∃ m, (if shift - shift / 32 * 32 = 0 then
      rightDigits ((s₂.obj b).top - shift / 32) ((s₂.obj b).p + shift / 32) (s₂.obj res).p s₂.mem
    else
      rightBits (UInt32.ofNat (32 - (shift - shift / 32 * 32))) (UInt32.ofNat (shift - shift / 32 * 32))
        ((s₂.obj b).top - shift / 32 - 1) ((s₂.obj b).p + (shift / 32 + 1)) (s₂.obj res).p
        (s₂.mem.word ((s₂.obj b).p + shift / 32)) s₂.mem) = m := ⟨_, rfl⟩
  rw [shifted, ← mpnorm_upd]
  obtain ⟨writes, value⟩ : Writes s₂.mem m (s₂.obj res).p ((s₂.obj b).top - shift / 32) ∧
      m.val (s₂.obj res).p ((s₂.obj b).top - shift / 32) = s.mag b / 2 ^ shift := by
    have ahead' (k j : Nat) : Ahead (s₂.obj res).p ((s₂.obj b).p + k) j := by
      by_cases same : b = res
      · subst same
        exact Or.inr (Or.inl (Nat.le_add_right ..))
      · exact Or.inl fun blk => same (frame.ok.apart b res (frame.live b (signed.live b shaped.live)) live₂ blk)
    have split := Nat.div_add_mod shift 32
    have rest : shift - shift / 32 * 32 = shift % 32 := by omega
    rw [rest] at shifted
    rw [← mag₂, mag, right_val (r := shift % 32) split.symm (not_le.mp gone)]
    split at shifted
    · rename_i whole
      obtain ⟨writes, value⟩ := rightDigits_spec (ahead' _ _) shifted
      exact ⟨writes, by rw [value, whole, pow_zero, Nat.div_one]⟩
    · rename_i some_
      obtain ⟨n, many⟩ := Nat.exists_eq_succ_of_ne_zero (Nat.sub_ne_zero_of_lt (not_le.mp gone))
      rw [many, Nat.succ_sub_one] at shifted
      obtain ⟨writes, value⟩ := rightBits_spec (by omega) (by omega) (ahead' _ _) shifted
      rw [many, Nat.succ_eq_add_one, val_cons s₂.mem, Ptr.add_add]
      exact ⟨writes, value⟩
  obtain ⟨frame', number, mag', int', flags'⟩ := settle (s₂.obj res).sign ((s₂.obj b).top - shift / 32) frame.ok live₂
    writes (by omega) (by omega) unit_
  rw [value] at mag' int'
  refine ⟨signed.trans (frame.trans frame' fun _ _ => id) fun _ _ => id, number.toShaped, mag',
    int'.trans (by rw [sign₂, sign]), flags'.trans (flags₂.trans flags)⟩

/-- The number that the loops of `mpleft` write, with `d` digits below that are 0. -/
theorem left_val {src p : Ptr} {top d l : Nat} {m' : Mem} (behind : Behind src (p + d)) (less : l < 32) (value :
    (if l = 0 then leftDigits top src (p + d) m
      else leftBits (UInt32.ofNat l) (UInt32.ofNat (32 - l)) top src (p + d) 0 m) = m') :
    Writes m (m'.fill p d 0) p (digits (32 * (top + d) + l)) ∧
      (m'.fill p d 0).val p (digits (32 * (top + d) + l)) = m.val src top * 2 ^ (32 * d + l) := by
  have many : digits (32 * (top + d) + l) = if l = 0 then top + d else top + d + 1 := by
    unfold digits
    split <;> omega
  have low : (m'.fill p d 0).val p d = 0 := fill_zero (i := 0) (by omega)
  have filled : Writes m' (m'.fill p d 0) p d := fill_writes
  have joined {k : Nat} (writes : Writes m m' (p + d) k) : Writes m (m'.fill p d 0) p (d + k) ∧
      (m'.fill p d 0).val p (d + k) = 2 ^ (32 * d) * m'.val (p + d) k := by
    have above : Writes m m' p (d + k) := writes.widen ⟨rfl, by simp, by simp only [Ptr.add_off]; omega⟩
    refine ⟨above.trans (filled.widen ⟨rfl, le_rfl, by omega⟩), ?_⟩
    rw [val_add, low, Nat.zero_add, filled.val_eq (p := p + d) (by simp only [Apart, Ptr.add_off]; omega)]
  rw [many, pow_add]
  split at value
  · rename_i whole
    obtain ⟨writes, digits⟩ := leftDigits_spec behind value
    obtain ⟨all, total⟩ := joined writes
    rw [if_pos whole, Nat.add_comm top, whole]
    exact ⟨all, by rw [total, digits]; ring⟩
  · rename_i some_
    obtain ⟨writes, digits⟩ := leftBits_spec (l := l) (r := 32 - l) (by omega) (by omega) behind value
    obtain ⟨all, total⟩ := joined writes
    have bound : m.val src top * 2 ^ l < 2 ^ (32 * (top + 1)) := by
      rw [Nat.mul_succ, pow_add]
      exact Nat.mul_lt_mul'' (val_lt ..) (Nat.pow_lt_pow_right (by decide) less)
    rw [UInt32.toNat_zero, Nat.mul_zero, Nat.add_zero (m.val src top), Nat.mod_eq_of_lt bound] at digits
    rw [if_neg some_, show top + d + 1 = d + (top + 1) by omega]
    exact ⟨all, by rw [total, digits]; ring⟩

theorem mpleftNat_spec (shift : Nat) (ok : s.Ok) (number : s.Number b) (live : s.live res) :
    Frame (· = res) s (mpleftNat b shift res s) ∧ (mpleftNat b shift res s).Number res ∧
      (mpleftNat b shift res s).int res = s.int b * 2 ^ shift ∧
      ((mpleftNat b shift res s).obj res).flags = (s.obj res).flags := by
  unfold mpleftNat
  dsimp only
  obtain ⟨signed, object, mem, sign, flags⟩ := sign_first (b := b) ok live rfl
  generalize s.upd res { s.obj res with sign := (s.obj b).sign } = s₁ at signed object mem sign flags ⊢
  have live₁ := signed.live res live
  have liveB := signed.live b number.live
  have mag₁ : s₁.mag b = s.mag b := by rw [mag, object, mem, mag]
  by_cases none_ : (s₁.obj b).top = 0
  · rw [if_pos none_]
    rw [object] at none_
    have zero : s.mag b = 0 := number.mag_eq_zero.mpr none_
    obtain ⟨frame, shaped', mag', top', sign', flags'⟩ := emptied signed.ok live₁ (by rw [sign]; exact number.sign) rfl
    refine ⟨signed.trans frame fun _ _ => id, ⟨shaped', fun _ => ?_⟩, ?_, flags'.trans flags⟩
    · rw [sign', sign]
      exact number.zero none_
    · rw [Store.int, mag', Store.int, zero]
      simp
  rw [if_neg none_]
  have some_ : s.mag b ≠ 0 := fun zero => none_ (by rw [object]; exact number.mag_eq_zero.mp zero)
  generalize top : (s₁.obj b).top = otop
  obtain ⟨grown, sign₂, flags₂, top₂, -, -⟩ := mpbits_spec (n := otop * 32 + shift) signed.ok live₁
  have value₂ := (mpbits_operand (n := otop * 32 + shift) signed.ok live₁ liveB).1
  generalize mpbits res (otop * 32 + shift) s₁ = s₂ at grown sign₂ flags₂ top₂ value₂ ⊢
  have live₂ := grown.live res live₁
  have room := grown.ok.top res live₂
  rw [upd_p (by rfl), upd_p (by rfl), upd_mem, upd_upd, upd_self]
  dsimp only
  have split := Nat.div_add_mod shift 32
  rw [show shift - shift / 32 * 32 = shift % 32 by omega]
  obtain ⟨m, shifted⟩ : ∃ m, (if shift % 32 = 0 then
      leftDigits otop (s₂.obj b).p ((s₂.obj res).p + shift / 32) s₂.mem
    else
      leftBits (UInt32.ofNat (shift % 32)) (UInt32.ofNat (32 - shift % 32)) otop (s₂.obj b).p
        ((s₂.obj res).p + shift / 32) 0 s₂.mem) = m := ⟨_, rfl⟩
  rw [shifted]
  obtain ⟨writes, value⟩ := left_val (Or.inr (Nat.zero_le _)) (Nat.mod_lt _ (by decide)) shifted
  rw [show 32 * (otop + shift / 32) + shift % 32 = otop * 32 + shift by omega] at writes value
  rw [top] at value₂
  rw [value₂, mag₁, split] at value
  have digit : normTop (m.fill (s₂.obj res).p (shift / 32) 0) (s₂.obj res).p (digits (otop * 32 + shift)) ≠ 0 := by
    rw [Ne, normTop_spec.2.2.2, value]
    exact Nat.mul_ne_zero some_ (Nat.two_pow_pos shift).ne'
  have normed := mpnorm_upd (s := s₂) (m := m.fill (s₂.obj res).p (shift / 32) 0) res (digits (otop * 32 + shift))
    (s₂.obj res).sign
  rw [if_neg digit] at normed
  rw [← normed]
  obtain ⟨frame, number', -, int, flags'⟩ := settle (s₂.obj res).sign (digits (otop * 32 + shift)) grown.ok live₂ writes
    (by omega) (by omega) (by rw [sign₂, sign]; exact number.sign)
  refine ⟨signed.trans (grown.trans frame fun _ _ => id) fun _ _ => id, number', int.trans ?_,
    flags'.trans (flags₂.trans flags)⟩
  rw [sign₂, sign, value, Store.int]
  push_cast
  ring

/-- A number times a power of two, less its fraction. -/
def scaled (x shift : Int) : Int := if 0 ≤ shift then x * 2 ^ shift.toNat else x.tdiv (2 ^ (-shift).toNat)

theorem Store.Shaped.tdiv (shaped : s.Shaped b) (n : Nat) :
    (s.obj b).sign * (s.mag b / 2 ^ n : Nat) = (s.int b).tdiv (2 ^ n) := by
  have power : ((2 ^ n : Nat) : Int) = 2 ^ n := by norm_cast
  rcases shaped.int_cases with ⟨sign, int⟩ | ⟨sign, int⟩
  · rw [sign, int, ← power, one_mul]
    rfl
  · rw [sign, int, Int.neg_tdiv, ← power, neg_one_mul]
    rfl

/-- A sign that was stored does not change the operand. -/
theorem Store.Shaped.of_same (shaped : s.Shaped b) (live : s'.live b) (object : s'.obj b = s.obj b)
    (mem : s'.mem = s.mem) : s'.Shaped b ∧ s'.int b = s.int b := by
  refine ⟨⟨live, by rw [object]; exact shaped.sign, by rw [object, mem]; exact shaped.trimmed⟩, ?_⟩
  rw [Store.int, mag, object, mem]
  rfl

theorem mpleft_spec (shift : Int) (ok : s.Ok) (number : s.Number b) (live : s.live res) :
    Frame (· = res) s (mpleft b shift res s) ∧ (mpleft b shift res s).Shaped res ∧
      (mpleft b shift res s).int res = scaled (s.int b) shift := by
  unfold mpleft
  split
  · rename_i right
    obtain ⟨signed, object, mem, -, -⟩ := sign_first (b := b) ok live rfl
    generalize s.upd res { s.obj res with sign := (s.obj b).sign } = s₁ at signed object mem ⊢
    obtain ⟨shaped, int₁⟩ := number.toShaped.of_same (signed.live b number.live) object mem
    obtain ⟨frame, shaped', -, int, -⟩ := mprightNat_spec (-shift).toNat signed.ok shaped (signed.live res live)
    refine ⟨signed.trans frame fun _ _ => id, shaped', ?_⟩
    rw [int, shaped.tdiv, int₁, scaled, if_neg (by omega)]
  · rename_i left
    obtain ⟨frame, number', int, -⟩ := mpleftNat_spec shift.toNat ok number live
    refine ⟨frame, number'.toShaped, ?_⟩
    rw [int, scaled]
    split
    · rfl
    · have zero : s.mag b = 0 := number.mag_eq_zero.mpr (by omega)
      rw [Store.int, zero]
      simp

theorem mpright_spec (shift : Int) (ok : s.Ok) (number : s.Number b) (live : s.live res) :
    Frame (· = res) s (mpright b shift res s) ∧ (mpright b shift res s).Shaped res ∧
      (mpright b shift res s).int res = scaled (s.int b) (-shift) := by
  unfold mpright
  split
  · rename_i left
    obtain ⟨signed, object, mem, -, -⟩ := sign_first (b := b) ok live rfl
    generalize s.upd res { s.obj res with sign := (s.obj b).sign } = s₁ at signed object mem ⊢
    obtain ⟨shaped, int₁⟩ := number.toShaped.of_same (signed.live b number.live) object mem
    obtain ⟨frame, number', int, -⟩ := mpleftNat_spec (-shift).toNat signed.ok
      ⟨shaped, by rw [object]; exact number.zero⟩ (signed.live res live)
    refine ⟨signed.trans frame fun _ _ => id, number'.toShaped, ?_⟩
    rw [int, int₁, scaled, if_pos (by omega)]
  · rename_i right
    obtain ⟨frame, shaped, -, int, -⟩ := mprightNat_spec shift.toNat ok number.toShaped live
    refine ⟨frame, shaped, ?_⟩
    rw [int, number.toShaped.tdiv, scaled]
    split
    · by_cases empty : (s.obj b).top = 0
      · rw [Store.int, number.mag_eq_zero.mpr empty]
        simp
      · obtain rfl : shift = 0 := by omega
        simp
    · rw [neg_neg]

end Shifts

end Inferno.Mp
