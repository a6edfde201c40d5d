import Inferno.Mp.Mpint

namespace Inferno.Mp

open Lib Mem Store

/-- `mpmagcmp`, whose sign alone says how the magnitudes compare. -/
def mpmagcmp (b1 b2 : Nat) (s : Store) : Int :=
  let i := ((s.obj b1).top : Int) - (s.obj b2).top
  if i ≠ 0 then i else mpveccmp (s.obj b1).p (s.obj b1).top (s.obj b2).p (s.obj b2).top s.mem

def mpcmp (b1 b2 : Nat) (s : Store) : Int :=
  if (s.obj b1).sign ≠ (s.obj b2).sign then (s.obj b1).sign - (s.obj b2).sign
  else if (s.obj b1).sign < 0 then mpmagcmp b2 b1 s
  else mpmagcmp b1 b2 s

section Statics

-- the numbers of the static objects
variable (mpzero : Nat)

/-- `mpmagadd` once `b1` has at least as many digits as `b2`. -/
def mpmagaddSorted (b1 b2 sum : Nat) (s : Store) : Store :=
  let n := (s.obj b1).top
  let m := (s.obj b2).top
  if n = 0 then mpassign mpzero sum s
  else if m = 0 then mpassign b1 sum s
  else
    let s := mpbits sum ((n + 1) * 32) s
    let s := s.upd sum { s.obj sum with top := n + 1 }
    let s := { s with mem := mpvecadd (s.obj b1).p n (s.obj b2).p m (s.obj sum).p s.mem }
    let s := s.upd sum { s.obj sum with sign := 1 }
    mpnorm sum s

def mpmagadd (b1 b2 sum : Nat) (s : Store) : Store :=
  if (s.obj b2).top > (s.obj b1).top then mpmagaddSorted mpzero b2 b1 sum s else mpmagaddSorted mpzero b1 b2 sum s

/-- `mpmagsub` once the magnitude of `b1` is not less than that of `b2`. -/
def mpmagsubSorted (sign : Int) (b1 b2 diff : Nat) (s : Store) : Store :=
  let n := (s.obj b1).top
  let m := (s.obj b2).top
  if m = 0 then
    let s := mpassign b1 diff s
    s.upd diff { s.obj diff with sign := sign }
  else
    let s := mpbits diff (n * 32) s
    let s := { s with mem := mpvecsub (s.obj b1).p n (s.obj b2).p m (s.obj diff).p s.mem }
    let s := s.upd diff { s.obj diff with sign := sign, top := n }
    mpnorm diff s

def mpmagsub (b1 b2 diff : Nat) (s : Store) : Store :=
  if mpmagcmp b1 b2 s < 0 then mpmagsubSorted (-1) b2 b1 diff s else mpmagsubSorted 1 b1 b2 diff s

def mpadd (b1 b2 sum : Nat) (s : Store) : Store :=
  if (s.obj b1).sign ≠ (s.obj b2).sign then
    if (s.obj b1).sign < 0 then mpmagsub b2 b1 sum s else mpmagsub b1 b2 sum s
  else
    let sign := (s.obj b1).sign
    let s := mpmagadd mpzero b1 b2 sum s
    if (s.obj sum).top ≠ 0 then s.upd sum { s.obj sum with sign := sign } else s

def mpsub (b1 b2 diff : Nat) (s : Store) : Store :=
  let sign := (s.obj b1).sign
  if sign ≠ (s.obj b2).sign then
    let s := mpmagadd mpzero b1 b2 diff s
    s.upd diff { s.obj diff with sign := sign }
  else
    let s := mpmagsub b1 b2 diff s
    if (s.obj diff).top ≠ 0 then s.upd diff { s.obj diff with sign := (s.obj diff).sign * sign } else s

end Statics

namespace Store

/-- An object with a sign and no more digits than it needs; 0 may have the sign -1. -/
structure Shaped (s : Store) (b : Nat) : Prop where
  live : s.live b
  sign : (s.obj b).sign = 1 ∨ (s.obj b).sign = -1
  trimmed : ∀ i, (s.obj b).top = i + 1 → s.mem.word ((s.obj b).p + i) ≠ 0

/-- A canonical number. -/
structure Number (s : Store) (b : Nat) : Prop extends s.Shaped b where
  zero : (s.obj b).top = 0 → (s.obj b).sign = 1

/-- The static objects. -/
structure Statics (s : Store) (mpzero mpone : Nat) : Prop where
  zero : s.live mpzero ∧ (s.obj mpzero).sign = 1 ∧ (s.obj mpzero).top = 0 ∧ (s.obj mpzero).flags = true
  one : s.live mpone ∧ (s.obj mpone).sign = 1 ∧ (s.obj mpone).top = 1 ∧ (s.obj mpone).flags = true
  digit : s.mem.word (s.obj mpone).p = 1

variable {s s' : Store} {b c n k : Nat} {o : Mpint} {m : Mem}

/-- Digits of an object that are written in order leave alone those of another, or of itself, that are still to be
read. -/
theorem ahead (ok : s.Ok) (live : s.live b) (live' : s.live c) (n : Nat) : Ahead (s.obj c).p (s.obj b).p n := by
  by_cases same : b = c
  · exact same ▸ Ahead.self
  · exact Or.inl fun blk => same (ok.apart b c live live' blk)

variable {mpzero mpone : Nat}

theorem Statics.zero_number (statics : s.Statics mpzero mpone) : s.Number mpzero ∧ (s.obj mpzero).top = 0 := by
  obtain ⟨live, sign, top, -⟩ := statics.zero
  refine ⟨⟨⟨live, Or.inl sign, fun i above => ?_⟩, fun _ => sign⟩, top⟩
  exact absurd (top.symm.trans above) (Nat.succ_ne_zero i).symm

theorem Statics.one_number (statics : s.Statics mpzero mpone) : s.Number mpone ∧ s.int mpone = 1 := by
  obtain ⟨live, sign, top, -⟩ := statics.one
  refine ⟨⟨⟨live, Or.inl sign, fun i above => ?_⟩, fun _ => sign⟩, ?_⟩
  · obtain rfl : i = 0 := by omega
    rw [Ptr.add_zero, statics.digit]
    decide
  · rw [int, mag, top, val_one, statics.digit, sign]
    rfl

/-- The static objects stay as they are while others are written. -/
theorem Statics.frame {R : Nat → Prop} (statics : s.Statics mpzero mpone) (frame : Frame R s s') (ok : s.Ok)
    (out : ¬R mpzero ∧ ¬R mpone) : s'.Statics mpzero mpone := by
  have zero := frame.obj mpzero statics.zero.1 out.1
  have one := frame.obj mpone statics.one.1 out.2
  refine ⟨⟨frame.live _ statics.zero.1, by rw [zero]; exact statics.zero.2⟩,
    ⟨frame.live _ statics.one.1, by rw [one]; exact statics.one.2⟩, ?_⟩
  rw [one]
  exact (frame.word mpone statics.one.1 out.2 0 (ok.room mpone statics.one.1)).trans statics.digit

theorem mag_lt (s : Store) (b : Nat) : s.mag b < 2 ^ (32 * (s.obj b).top) := val_lt ..

theorem Shaped.le_mag (shaped : s.Shaped b) (some_ : 0 < (s.obj b).top) :
    2 ^ (32 * ((s.obj b).top - 1)) ≤ s.mag b := by
  obtain ⟨k, top⟩ := Nat.exists_eq_succ_of_ne_zero some_.ne'
  have digit := shaped.trimmed k top
  have positive : 1 ≤ (s.mem.word ((s.obj b).p + k)).toNat := Nat.one_le_iff_ne_zero.mpr fun zero =>
    digit (UInt32.toNat_inj.mp zero)
  rw [mag, top, Nat.succ_sub_one, val_succ]
  have part := Nat.mul_le_mul_left (2 ^ (32 * k)) positive
  omega

theorem Shaped.mag_eq_zero (shaped : s.Shaped b) : s.mag b = 0 ↔ (s.obj b).top = 0 := by
  constructor
  · intro zero
    by_contra some_
    have le := shaped.le_mag (Nat.pos_of_ne_zero some_)
    have power := Nat.two_pow_pos (32 * ((s.obj b).top - 1))
    omega
  · intro none_
    rw [mag, none_]
    rfl

theorem Shaped.mag_lt_of_top (shaped : s.Shaped c) (less : (s.obj b).top < (s.obj c).top) : s.mag b < s.mag c := by
  have low := s.mag_lt b
  have high := shaped.le_mag (Nat.zero_lt_of_lt less)
  have power : 2 ^ (32 * (s.obj b).top) ≤ 2 ^ (32 * ((s.obj c).top - 1)) := Nat.pow_le_pow_right (by decide) (by omega)
  omega

end Store

variable {s s₁ s₂ : Store} {b b1 b2 c n k : Nat} {o : Mpint} {m : Mem}

theorem mpmagcmp_spec (first : s.Shaped b1) (second : s.Shaped b2) :
    Int.sign (mpmagcmp b1 b2 s) = Int.sign ((s.mag b1 : Int) - s.mag b2) := by
  unfold mpmagcmp
  dsimp only
  rcases Nat.lt_trichotomy (s.obj b1).top (s.obj b2).top with less | same | more
  · rw [if_pos (by omega), sign_sub_of_lt less, sign_sub_of_lt (second.mag_lt_of_top less)]
  · rw [if_neg (by omega), mpveccmp_spec, Int.sign_sign]
    rfl
  · rw [if_pos (by omega), sign_sub_of_gt more, sign_sub_of_gt (first.mag_lt_of_top more)]

/-- What `mpbits` leaves of an operand, which may be the object that has grown. -/
theorem mpbits_operand (ok : s.Ok) (live : s.live c) (liveB : s.live b) :
    (mpbits c n s).mem.val ((mpbits c n s).obj b).p (s.obj b).top = s.mag b ∧
      ((mpbits c n s).obj b).sign = (s.obj b).sign ∧ (s.obj b).top ≤ ((mpbits c n s).obj b).top := by
  obtain ⟨frame, sign, -, top, low, -⟩ := mpbits_spec (n := n) ok live
  by_cases same : b = c
  · subst same
    exact ⟨val_words low, sign, by omega⟩
  · rw [frame.obj b liveB same]
    refine ⟨?_, rfl, le_rfl⟩
    have kept := frame.mag ok liveB same
    rw [mag, frame.obj b liveB same] at kept
    exact kept

/-- New digits and fields of an object. -/
theorem finish (ok : s.Ok) (live : s.live c) (writes : Writes s.mem m (s.obj c).p k) (le : k ≤ (s.obj c).size)
    (size : o.size = (s.obj c).size) (blk : o.blk = (s.obj c).blk) (top : o.top ≤ (s.obj c).size) :
    Frame (· = c) s (({ s with mem := m } : Store).upd c o) ∧
      (({ s with mem := m } : Store).upd c o).mag c = m.val (s.obj c).p o.top := by
  have frame := writes_frame ok live writes.under le
  refine ⟨frame.trans (upd_frame frame.ok live size blk top) fun _ _ => id, ?_⟩
  have place : o.p = (s.obj c).p := congrArg (Ptr.mk · 0) blk
  rw [mag, upd_self, place]
  rfl

theorem upd_upd (s : Store) (b : Nat) (o o' : Mpint) (m : Mem) :
    ({ s.upd b o with mem := m } : Store).upd b o' = ({ s with mem := m } : Store).upd b o' := by
  simp only [Store.upd, Function.update_idem]

theorem upd_p (blk : o.blk = (s.obj c).blk) (b : Nat) : ((s.upd c o).obj b).p = (s.obj b).p := by
  by_cases same : b = c
  · rw [same, upd_self, Mpint.p, blk]
    rfl
  · rw [upd_of_ne same]

theorem mpassign_shaped (ok : s.Ok) (shaped : s.Shaped b) (live : s.live c) :
    Frame (· = c) s (mpassign b c s) ∧ (mpassign b c s).Shaped c ∧ (mpassign b c s).mag c = s.mag b ∧
      ((mpassign b c s).obj c).sign = (s.obj b).sign ∧ ((mpassign b c s).obj c).top = (s.obj b).top ∧
      ((mpassign b c s).obj c).flags = (s.obj c).flags := by
  obtain ⟨frame, sign, top, flags, words⟩ := mpassign_spec ok shaped.live live
  refine ⟨frame, ⟨frame.live c live, by rw [sign]; exact shaped.sign, fun i above => ?_⟩, ?_, sign, top, flags⟩
  · rw [top] at above
    rw [words i (by omega)]
    exact shaped.trimmed i above
  · rw [mag, top, val_words words]
    rfl

theorem mpassign_number (ok : s.Ok) (number : s.Number b) (live : s.live c) :
    Frame (· = c) s (mpassign b c s) ∧ (mpassign b c s).Number c ∧ (mpassign b c s).int c = s.int b ∧
      ((mpassign b c s).obj c).flags = (s.obj c).flags := by
  obtain ⟨frame, shaped, -, sign, top, flags⟩ := mpassign_shaped ok number.toShaped live
  refine ⟨frame, ⟨shaped, fun none_ => ?_⟩, mpassign_int ok number.live live, flags⟩
  rw [sign]
  exact number.zero (top ▸ none_)

theorem mpnorm_number (ok : s.Ok) (live : s.live c) (sign : (s.obj c).sign = 1 ∨ (s.obj c).sign = -1) :
    Frame (· = c) s (mpnorm c s) ∧ (mpnorm c s).Number c ∧ (mpnorm c s).mag c = s.mag c ∧
      (mpnorm c s).int c = s.int c ∧ ((mpnorm c s).obj c).flags = (s.obj c).flags := by
  obtain ⟨frame, canonical, mag, sign', flags⟩ := mpnorm_spec ok live
  refine ⟨frame, ⟨⟨frame.live c live, ?_, canonical.1⟩, canonical.2⟩, mag, mpnorm_int ok live, flags⟩
  rw [sign']
  split
  · exact Or.inl rfl
  · exact sign

/-- New digits and fields of an object, which is then normalized. -/
theorem settle (sign : Int) (top : Nat) (ok : s.Ok) (live : s.live c) (writes : Writes s.mem m (s.obj c).p k)
    (le : k ≤ (s.obj c).size) (room : top ≤ (s.obj c).size) (unit_ : sign = 1 ∨ sign = -1) :
    Frame (· = c) s (mpnorm c (({ s with mem := m } : Store).upd c { s.obj c with sign := sign, top := top })) ∧
      (mpnorm c (({ s with mem := m } : Store).upd c { s.obj c with sign := sign, top := top })).Number c ∧
      (mpnorm c (({ s with mem := m } : Store).upd c { s.obj c with sign := sign, top := top })).mag c =
        m.val (s.obj c).p top ∧
      (mpnorm c (({ s with mem := m } : Store).upd c { s.obj c with sign := sign, top := top })).int c =
        sign * m.val (s.obj c).p top ∧
      ((mpnorm c (({ s with mem := m } : Store).upd c { s.obj c with sign := sign, top := top })).obj c).flags =
        (s.obj c).flags := by
  obtain ⟨wrote, value⟩ := finish (o := { s.obj c with sign := sign, top := top }) ok live writes le rfl rfl room
  dsimp only at value
  generalize upd : ({ s with mem := m } : Store).upd c { s.obj c with sign := sign, top := top } = s₂ at wrote value ⊢
  have object : s₂.obj c = { s.obj c with sign := sign, top := top } := by rw [← upd, upd_self]
  obtain ⟨frame, number, mag, int, flags⟩ := mpnorm_number wrote.ok (wrote.live c live) (by rw [object]; exact unit_)
  refine ⟨wrote.trans frame fun _ _ => id, number, mag.trans value, ?_, by rw [flags, object]⟩
  rw [int, Store.int, value, object]

/-- Another sign for a number. -/
theorem resign (sign : Int) (ok : s.Ok) (shaped : s.Shaped c) (unit_ : sign = 1 ∨ sign = -1)
    (zero : s.mag c = 0 → sign = 1) : Frame (· = c) s (s.upd c { s.obj c with sign := sign }) ∧
    (s.upd c { s.obj c with sign := sign }).Number c ∧
    (s.upd c { s.obj c with sign := sign }).int c = sign * s.mag c ∧
    ((s.upd c { s.obj c with sign := sign }).obj c).flags = (s.obj c).flags := by
  have changed := upd_frame (o := { s.obj c with sign := sign }) ok shaped.live rfl rfl (ok.top c shaped.live)
  refine ⟨changed, ⟨⟨changed.live c shaped.live, ?_, ?_⟩, ?_⟩, ?_, ?_⟩
  · rw [upd_self]
    exact unit_
  · rw [upd_self]
    exact shaped.trimmed
  · rw [upd_self]
    exact fun none_ => zero (shaped.mag_eq_zero.mpr none_)
  · rw [Store.int, Store.mag, upd_self]
    rfl
  · rw [upd_self]

section Magnitudes

variable {mpzero sum diff : Nat}

theorem mpmagaddSorted_spec (ok : s.Ok) (zero : s.Number mpzero ∧ (s.obj mpzero).top = 0)
    (first : s.Shaped b1) (second : s.Shaped b2) (sorted : (s.obj b2).top ≤ (s.obj b1).top) (live : s.live sum) :
    Frame (· = sum) s (mpmagaddSorted mpzero b1 b2 sum s) ∧ (mpmagaddSorted mpzero b1 b2 sum s).Number sum ∧
      (mpmagaddSorted mpzero b1 b2 sum s).mag sum = s.mag b1 + s.mag b2 ∧
      ((mpmagaddSorted mpzero b1 b2 sum s).obj sum).flags = (s.obj sum).flags := by
  unfold mpmagaddSorted
  dsimp only
  by_cases none₁ : (s.obj b1).top = 0
  · have none₂ : (s.obj b2).top = 0 := by omega
    rw [if_pos none₁, (first.mag_eq_zero).mpr none₁, (second.mag_eq_zero).mpr none₂]
    obtain ⟨frame, number, -, flags⟩ := mpassign_number ok zero.1 live
    have top := (mpassign_spec ok zero.1.live live).2.2.1
    exact ⟨frame, number, number.mag_eq_zero.mpr (top.trans zero.2), flags⟩
  rw [if_neg none₁]
  by_cases none₂ : (s.obj b2).top = 0
  · rw [if_pos none₂, (second.mag_eq_zero).mpr none₂]
    obtain ⟨frame, shaped, mag, -, top, flags⟩ := mpassign_shaped ok first live
    exact ⟨frame, ⟨shaped, fun none_ => absurd (top ▸ none_) none₁⟩, mag, flags⟩
  rw [if_neg none₂, Nat.mul_comm]
  obtain ⟨grown, -, flags, top, -, -⟩ := mpbits_spec (n := 32 * ((s.obj b1).top + 1)) ok live
  have value₁ := (mpbits_operand (n := 32 * ((s.obj b1).top + 1)) ok live first.live).1
  have value₂ := (mpbits_operand (n := 32 * ((s.obj b1).top + 1)) ok live second.live).1
  rw [digits_mul] at top
  generalize mpbits sum (32 * ((s.obj b1).top + 1)) s = s₁ at grown flags top value₁ value₂ ⊢
  have live₁ := grown.live sum live
  have room := grown.ok.top sum live₁
  rw [upd_p (by rfl), upd_p (by rfl), upd_p (by rfl), upd_upd, upd_self, upd_mem]
  obtain ⟨writes, total⟩ := mpvecadd_spec sorted (ahead grown.ok (grown.live b1 first.live) live₁ _)
    (ahead grown.ok (grown.live b2 second.live) live₁ _) rfl
  rw [value₁, value₂] at total
  obtain ⟨frame, number, mag, -, flags'⟩ := settle 1 ((s.obj b1).top + 1) grown.ok live₁ writes (by omega) (by omega)
    (Or.inl rfl)
  exact ⟨grown.trans frame fun _ _ => id, number, mag.trans total, flags'.trans flags⟩

theorem mpmagadd_spec (ok : s.Ok) (zero : s.Number mpzero ∧ (s.obj mpzero).top = 0) (first : s.Shaped b1)
    (second : s.Shaped b2) (live : s.live sum) : Frame (· = sum) s (mpmagadd mpzero b1 b2 sum s) ∧
    (mpmagadd mpzero b1 b2 sum s).Number sum ∧ (mpmagadd mpzero b1 b2 sum s).mag sum = s.mag b1 + s.mag b2 ∧
    ((mpmagadd mpzero b1 b2 sum s).obj sum).flags = (s.obj sum).flags := by
  unfold mpmagadd
  split
  · rw [Nat.add_comm]
    exact mpmagaddSorted_spec ok zero second first (by omega) live
  · exact mpmagaddSorted_spec ok zero first second (by omega) live

theorem mpmagsubSorted_spec (sign : Int) (ok : s.Ok) (first : s.Shaped b1) (second : s.Shaped b2)
    (sorted : s.mag b2 ≤ s.mag b1) (unit_ : sign = 1 ∨ sign = -1) (zero : s.mag b1 = 0 → sign = 1)
    (live : s.live diff) :
    Frame (· = diff) s (mpmagsubSorted sign b1 b2 diff s) ∧ (mpmagsubSorted sign b1 b2 diff s).Number diff ∧
      (mpmagsubSorted sign b1 b2 diff s).int diff = sign * (s.mag b1 - s.mag b2) ∧
      ((mpmagsubSorted sign b1 b2 diff s).obj diff).flags = (s.obj diff).flags := by
  unfold mpmagsubSorted
  dsimp only
  by_cases none₂ : (s.obj b2).top = 0
  · rw [if_pos none₂, (second.mag_eq_zero).mpr none₂]
    obtain ⟨frame, shaped, mag, -, -, flags⟩ := mpassign_shaped ok first live
    generalize mpassign b1 diff s = s₁ at frame shaped mag flags ⊢
    obtain ⟨changed, number', int, flags'⟩ := resign _ frame.ok shaped unit_ (mag ▸ zero)
    refine ⟨frame.trans changed fun _ _ => id, number', int.trans ?_, flags'.trans flags⟩
    rw [mag]
    simp
  rw [if_neg none₂, Nat.mul_comm]
  have longer : (s.obj b2).top ≤ (s.obj b1).top := by
    by_contra shorter
    exact absurd (second.mag_lt_of_top (Nat.not_le.mp shorter)) (by omega)
  obtain ⟨grown, -, flags, top, -, -⟩ := mpbits_spec (n := 32 * (s.obj b1).top) ok live
  have value₁ := (mpbits_operand (n := 32 * (s.obj b1).top) ok live first.live).1
  have value₂ := (mpbits_operand (n := 32 * (s.obj b1).top) ok live second.live).1
  rw [digits_mul] at top
  generalize mpbits diff (32 * (s.obj b1).top) s = s₁ at grown flags top value₁ value₂ ⊢
  have live₁ := grown.live diff live
  have room := grown.ok.top diff live₁
  obtain ⟨writes, total⟩ := mpvecsub_spec longer (ahead grown.ok (grown.live b1 first.live) live₁ _)
    (ahead grown.ok (grown.live b2 second.live) live₁ _) (by rw [value₁, value₂]; exact sorted) rfl
  rw [value₁, value₂] at total
  obtain ⟨frame, number, -, int, flags'⟩ := settle sign (s.obj b1).top grown.ok live₁ writes (by omega) (by omega) unit_
  refine ⟨grown.trans frame fun _ _ => id, number, int.trans ?_, flags'.trans flags⟩
  congr 1
  omega

/-- The difference of the magnitudes. -/
theorem mpmagsub_spec (ok : s.Ok) (first : s.Shaped b1) (second : s.Shaped b2) (live : s.live diff) :
    Frame (· = diff) s (mpmagsub b1 b2 diff s) ∧ (mpmagsub b1 b2 diff s).Number diff ∧
      (mpmagsub b1 b2 diff s).int diff = (s.mag b1 : Int) - s.mag b2 ∧
      ((mpmagsub b1 b2 diff s).obj diff).flags = (s.obj diff).flags := by
  have order := mpmagcmp_spec first second
  unfold mpmagsub
  split
  · rename_i less
    rw [Int.sign_eq_neg_one_of_neg less] at order
    have above := Int.sign_eq_neg_one_iff_neg.mp order.symm
    obtain ⟨frame, number, int, flags⟩ := mpmagsubSorted_spec (-1) ok second first (by omega) (Or.inr rfl)
      (by omega) live
    exact ⟨frame, number, int.trans (by omega), flags⟩
  · rename_i le
    have above : ¬(s.mag b1 : Int) - s.mag b2 < 0 := fun less => by
      rw [Int.sign_eq_neg_one_of_neg less] at order
      exact le (Int.sign_eq_neg_one_iff_neg.mp order)
    obtain ⟨frame, number, int, flags⟩ := mpmagsubSorted_spec 1 ok first second (by omega) (Or.inl rfl)
      (fun _ => rfl) live
    exact ⟨frame, number, int.trans (by omega), flags⟩

theorem Store.Shaped.int_cases (shaped : s.Shaped b) :
    (s.obj b).sign = 1 ∧ s.int b = s.mag b ∨ (s.obj b).sign = -1 ∧ s.int b = -(s.mag b : Int) := by
  rcases shaped.sign with sign | sign
  · exact Or.inl ⟨sign, by rw [Store.int, sign, one_mul]⟩
  · exact Or.inr ⟨sign, by rw [Store.int, sign, neg_one_mul]⟩

theorem Store.Number.some_of_neg (number : s.Number b) (neg : (s.obj b).sign = -1) : s.mag b ≠ 0 := fun zero => by
  have one := number.zero (number.mag_eq_zero.mp zero)
  rw [neg] at one
  exact absurd one (by decide)

/-- `mpmagadd`, and the sign if the sum is not 0. -/
theorem mpmagadd_signed {sign : Int} (ok : s.Ok) (zero : s.Number mpzero ∧ (s.obj mpzero).top = 0)
    (first : s.Shaped b1) (second : s.Shaped b2) (live : s.live sum) (unit_ : sign = 1 ∨ sign = -1)
    (value : mpmagadd mpzero b1 b2 sum s = s₁)
    (signed : (if (s₁.obj sum).top ≠ 0 then s₁.upd sum { s₁.obj sum with sign := sign } else s₁) = s₂) :
    Frame (· = sum) s s₂ ∧ s₂.Number sum ∧ s₂.int sum = sign * (s.mag b1 + s.mag b2) ∧
      (s₂.obj sum).flags = (s.obj sum).flags := by
  obtain ⟨frame, number, mag, flags⟩ := mpmagadd_spec ok zero first second live
  rw [value] at frame number mag flags
  have sums : ((s₁.mag sum : Nat) : Int) = s.mag b1 + s.mag b2 := by rw [mag, Nat.cast_add]
  rw [← sums]
  split at signed
  · rename_i some_
    obtain ⟨changed, number', int, flags'⟩ := resign _ frame.ok number.toShaped unit_ fun none_ =>
      absurd (number.mag_eq_zero.mp none_) some_
    rw [signed] at changed number' int flags'
    exact ⟨frame.trans changed fun _ _ => id, number', int, flags'.trans flags⟩
  · rename_i none_
    subst signed
    have empty := number.mag_eq_zero.mpr (not_not.mp none_)
    refine ⟨frame, number, ?_, flags⟩
    rw [Store.int, empty]
    simp

/-- The sum, whichever operand `sum` is. -/
theorem mpadd_spec (ok : s.Ok) (zero : s.Number mpzero ∧ (s.obj mpzero).top = 0) (first : s.Shaped b1)
    (second : s.Shaped b2) (live : s.live sum) : Frame (· = sum) s (mpadd mpzero b1 b2 sum s) ∧
    (mpadd mpzero b1 b2 sum s).Number sum ∧ (mpadd mpzero b1 b2 sum s).int sum = s.int b1 + s.int b2 ∧
    ((mpadd mpzero b1 b2 sum s).obj sum).flags = (s.obj sum).flags := by
  unfold mpadd
  dsimp only
  rcases first.int_cases with ⟨sign₁, int₁⟩ | ⟨sign₁, int₁⟩ <;>
    rcases second.int_cases with ⟨sign₂, int₂⟩ | ⟨sign₂, int₂⟩
  all_goals rw [sign₁, sign₂, int₁, int₂]
  · rw [if_neg (not_not.mpr rfl)]
    obtain ⟨frame, number, int, flags⟩ := mpmagadd_signed ok zero first second live (Or.inl rfl) rfl rfl
    exact ⟨frame, number, int.trans (by ring), flags⟩
  · rw [if_pos (by decide), if_neg (by decide)]
    exact mpmagsub_spec ok first second live
  · rw [if_pos (by decide), if_pos (by decide)]
    obtain ⟨frame, number, int, flags⟩ := mpmagsub_spec ok second first live
    exact ⟨frame, number, int.trans (by omega), flags⟩
  · rw [if_neg (not_not.mpr rfl)]
    obtain ⟨frame, number, int, flags⟩ := mpmagadd_signed ok zero first second live (Or.inr rfl) rfl rfl
    exact ⟨frame, number, int.trans (by ring), flags⟩

/-- `mpmagsub`, and the sign of both operands if the difference is not 0. -/
theorem mpmagsub_signed {sign : Int} (ok : s.Ok) (first : s.Shaped b1) (second : s.Shaped b2) (live : s.live diff)
    (unit_ : sign = 1 ∨ sign = -1) (value : mpmagsub b1 b2 diff s = s₁)
    (signed : (if (s₁.obj diff).top ≠ 0 then s₁.upd diff { s₁.obj diff with sign := (s₁.obj diff).sign * sign }
      else s₁) = s₂) :
    Frame (· = diff) s s₂ ∧ s₂.Number diff ∧ s₂.int diff = sign * (s.mag b1 - s.mag b2) ∧
      (s₂.obj diff).flags = (s.obj diff).flags := by
  obtain ⟨frame, number, int, flags⟩ := mpmagsub_spec ok first second live
  rw [value] at frame number int flags
  rw [← int]
  split at signed
  · rename_i some_
    have product : (s₁.obj diff).sign * sign = 1 ∨ (s₁.obj diff).sign * sign = -1 := by
      rcases number.sign with one | one <;> rcases unit_ with rfl | rfl <;> rw [one] <;> decide
    obtain ⟨changed, number', int', flags'⟩ := resign _ frame.ok number.toShaped product fun none_ =>
      absurd (number.mag_eq_zero.mp none_) some_
    rw [signed] at changed number' int' flags'
    refine ⟨frame.trans changed fun _ _ => id, number', int'.trans ?_, flags'.trans flags⟩
    rw [Store.int]
    ring
  · rename_i none_
    subst signed
    have empty := number.mag_eq_zero.mpr (not_not.mp none_)
    refine ⟨frame, number, ?_, flags⟩
    rw [Store.int, empty]
    simp

/-- The difference, whichever operand `diff` is. -/
theorem mpsub_shaped (ok : s.Ok) (zero : s.Number mpzero ∧ (s.obj mpzero).top = 0) (first : s.Shaped b1)
    (second : s.Shaped b2) (some_ : (s.obj b1).sign = -1 → s.mag b1 + s.mag b2 ≠ 0) (live : s.live diff) :
    Frame (· = diff) s (mpsub mpzero b1 b2 diff s) ∧
    (mpsub mpzero b1 b2 diff s).Number diff ∧ (mpsub mpzero b1 b2 diff s).int diff = s.int b1 - s.int b2 ∧
    ((mpsub mpzero b1 b2 diff s).obj diff).flags = (s.obj diff).flags := by
  unfold mpsub
  dsimp only
  have unlike {sign : Int} (unit_ : sign = 1 ∨ sign = -1) (nonneg : s.mag b1 + s.mag b2 = 0 → sign = 1)
      (product : s.int b1 - s.int b2 = sign * (s.mag b1 + s.mag b2)) :
      let s' := (mpmagadd mpzero b1 b2 diff s).upd diff
        { (mpmagadd mpzero b1 b2 diff s).obj diff with sign := sign }
      Frame (· = diff) s s' ∧ s'.Number diff ∧ s'.int diff = s.int b1 - s.int b2 ∧
        (s'.obj diff).flags = (s.obj diff).flags := by
    obtain ⟨frame, number, mag, flags⟩ := mpmagadd_spec ok zero first second live
    obtain ⟨changed, number', int, flags'⟩ := resign _ frame.ok number.toShaped unit_ fun none_ => nonneg (mag ▸ none_)
    refine ⟨frame.trans changed fun _ _ => id, number', int.trans ?_, flags'.trans flags⟩
    rw [product, mag, Nat.cast_add]
  rcases first.int_cases with ⟨sign₁, int₁⟩ | ⟨sign₁, int₁⟩ <;>
    rcases second.int_cases with ⟨sign₂, int₂⟩ | ⟨sign₂, int₂⟩
  all_goals rw [sign₁, sign₂]
  · rw [if_neg (not_not.mpr rfl)]
    obtain ⟨frame, number, int, flags⟩ := mpmagsub_signed ok first second live (Or.inl rfl) rfl rfl
    exact ⟨frame, number, int.trans (by rw [int₁, int₂]; ring), flags⟩
  · rw [if_pos (by decide)]
    exact unlike (Or.inl rfl) (fun _ => rfl) (by rw [int₁, int₂]; ring)
  · rw [if_pos (by decide)]
    exact unlike (Or.inr rfl) (fun none_ => absurd none_ (some_ sign₁)) (by rw [int₁, int₂]; ring)
  · rw [if_neg (not_not.mpr rfl)]
    obtain ⟨frame, number, int, flags⟩ := mpmagsub_signed ok first second live (Or.inr rfl) rfl rfl
    exact ⟨frame, number, int.trans (by rw [int₁, int₂]; ring), flags⟩

theorem mpsub_spec (ok : s.Ok) (zero : s.Number mpzero ∧ (s.obj mpzero).top = 0) (first : s.Number b1)
    (second : s.Shaped b2) (live : s.live diff) : Frame (· = diff) s (mpsub mpzero b1 b2 diff s) ∧
    (mpsub mpzero b1 b2 diff s).Number diff ∧ (mpsub mpzero b1 b2 diff s).int diff = s.int b1 - s.int b2 ∧
    ((mpsub mpzero b1 b2 diff s).obj diff).flags = (s.obj diff).flags :=
  mpsub_shaped ok zero first.toShaped second (fun neg none_ => first.some_of_neg neg (by omega)) live

theorem mpcmp_spec (first : s.Number b1) (second : s.Number b2) :
    Int.sign (mpcmp b1 b2 s) = Int.sign (s.int b1 - s.int b2) := by
  unfold mpcmp
  rcases first.int_cases with ⟨sign₁, int₁⟩ | ⟨sign₁, int₁⟩ <;>
    rcases second.int_cases with ⟨sign₂, int₂⟩ | ⟨sign₂, int₂⟩
  all_goals rw [sign₁, sign₂, int₁, int₂]
  · rw [if_neg (not_not.mpr rfl), if_neg (by decide)]
    exact mpmagcmp_spec first.toShaped second.toShaped
  · have some_ := second.some_of_neg sign₂
    rw [if_pos (by decide)]
    exact (Int.sign_eq_one_of_pos (by omega)).symm
  · have some_ := first.some_of_neg sign₁
    rw [if_pos (by decide)]
    exact (Int.sign_eq_neg_one_of_neg (by omega)).symm
  · rw [if_neg (not_not.mpr rfl), if_pos (by decide), mpmagcmp_spec second.toShaped first.toShaped]
    congr 1
    ring

end Magnitudes

end Inferno.Mp
