import Inferno.Mp.Vec

namespace Inferno.Mp

section Digmul

open Lib

/-- `part[0]` and `part[1]`. -/
def mpdigmul (a b : UInt32) : UInt32 × UInt32 :=
  let ah := a >>> 16
  let al := a &&& 0xFFFF
  let bh := b >>> 16
  let bl := b &&& 0xFFFF
  let p1 := ah * bl
  let p2 := bh * al
  let p3 := bl * al
  let p4 := ah * bh
  let x := p1 <<< 16
  let p3 := p3 + x
  let carry : UInt32 := if p3 < x then 1 else 0
  let x := p2 <<< 16
  let p3 := p3 + x
  let carry := if p3 < x then carry + 1 else carry
  (p3, p4 + (carry + p1 >>> 16 + p2 >>> 16))

/-- A turn of `mpvecdigmuladd` for the digit `d` of `b`: what it stores, `part[1]` and `carry`. -/
def muladdDigit (d m y part₁ carry : UInt32) : UInt32 × UInt32 × UInt32 :=
  let x := part₁ + carry
  let carry : UInt32 := if x < carry then 1 else 0
  let part := mpdigmul d m
  let x := x + part.1
  let carry := if x < part.1 then carry + 1 else carry
  let x := x + y
  (x, part.2, if x < y then carry + 1 else carry)

def mpvecdigmuladdLoop (d : UInt32) : Nat → Ptr → Ptr → UInt32 → UInt32 → Mem → Mem
  | 0, _, p, part₁, carry, m => m.set p (part₁ + carry)
  | n + 1, b, p, part₁, carry, m =>
    let (x, part₁, carry) := muladdDigit (m.word b) d (m.word p) part₁ carry
    mpvecdigmuladdLoop d n (b + 1) (p + 1) part₁ carry (m.set p x)

def mpvecdigmuladd (b : Ptr) (n : Nat) (d : UInt32) (p : Ptr) (m : Mem) : Mem := mpvecdigmuladdLoop d n b p 0 0 m

/-- A turn of `mpvecdigmulsub`. -/
def mulsubDigit (d m x part₁ borrow : UInt32) : UInt32 × UInt32 × UInt32 :=
  let y := x - borrow
  let borrow : UInt32 := if y > x then 1 else 0
  let part := mpdigmul d m
  let x := part₁ + part.1
  let borrow := if x < part.1 then borrow + 1 else borrow
  let x := y - x
  (x, part.2, if x > y then borrow + 1 else borrow)

def mpvecdigmulsubLoop (d : UInt32) : Nat → Ptr → Ptr → UInt32 → UInt32 → Mem → Mem × Int
  | 0, _, p, part₁, borrow, m =>
    let x := m.word p
    let y := x - borrow - part₁
    (m.set p y, if y > x then -1 else 1)
  | n + 1, b, p, part₁, borrow, m =>
    let (x, part₁, borrow) := mulsubDigit (m.word b) d (m.word p) part₁ borrow
    mpvecdigmulsubLoop d n (b + 1) (p + 1) part₁ borrow (m.set p x)

def mpvecdigmulsub (b : Ptr) (n : Nat) (d : UInt32) (p : Ptr) (m : Mem) : Mem × Int := mpvecdigmulsubLoop d n b p 0 0 m

theorem half_digits (a : UInt32) : (a >>> 16).toNat = a.toNat / 65536 ∧ (a &&& 0xFFFF).toNat = a.toNat % 65536 := by
  constructor
  · simp [UInt32.toNat_shiftRight, Nat.shiftRight_eq_div_pow]
  · rw [UInt32.toNat_and]
    exact Nat.and_two_pow_sub_one_eq_mod a.toNat 16

/-- The carry out of a sum of digits, as the code finds it. -/
theorem exists_carry (x y : UInt32) : ∃ c : UInt32, c.toNat ≤ 1 ∧ (x + y).toNat + 2 ^ 32 * c.toNat = x.toNat + y.toNat ∧
    (if x + y < y then 1 else 0) = c ∧ ∀ carry : UInt32, (if x + y < y then carry + 1 else carry) = carry + c := by
  have xLt := x.toNat_lt
  have yLt := y.toNat_lt
  refine ⟨_, ?_, ?_, rfl, fun carry => ?_⟩
  · split <;> decide
  · simp only [UInt32.lt_iff_toNat_lt, UInt32.toNat_add]
    split <;> simp <;> omega
  · split <;> simp

theorem exists_borrow (x y : UInt32) : ∃ c : UInt32, c.toNat ≤ 1 ∧ (x - y).toNat + y.toNat = x.toNat + 2 ^ 32 * c.toNat ∧
    (if x - y > x then 1 else 0) = c ∧ ∀ borrow : UInt32, (if x - y > x then borrow + 1 else borrow) = borrow + c := by
  have xLt := x.toNat_lt
  have yLt := y.toNat_lt
  refine ⟨_, ?_, ?_, rfl, fun borrow => ?_⟩
  · split <;> decide
  · simp only [gt_iff_lt, UInt32.lt_iff_toNat_lt, UInt32.toNat_sub]
    split <;> simp <;> omega
  · split <;> simp

theorem mpdigmul_spec (a b : UInt32) : (mpdigmul a b).1.toNat + 2 ^ 32 * (mpdigmul a b).2.toNat = a.toNat * b.toNat := by
  have aLt := a.toNat_lt
  have bLt := b.toNat_lt
  have al := (half_digits a).2
  have bl := (half_digits b).2
  have lt : ∀ x y : Nat, x < 65536 → y < 65536 → x * y ≤ 65535 * 65535 :=
    fun x y xLt yLt => Nat.mul_le_mul (by omega) (by omega)
  have p1 := lt (a.toNat / 65536) (b.toNat % 65536) (by omega) (by omega)
  have p2 := lt (b.toNat / 65536) (a.toNat % 65536) (by omega) (by omega)
  have p3 := lt (b.toNat % 65536) (a.toNat % 65536) (by omega) (by omega)
  have p4 := lt (a.toNat / 65536) (b.toNat / 65536) (by omega) (by omega)
  have product : a.toNat * b.toNat = 65536 * 65536 * (a.toNat / 65536 * (b.toNat / 65536)) +
      65536 * (a.toNat / 65536 * (b.toNat % 65536) + b.toNat / 65536 * (a.toNat % 65536)) +
        b.toNat % 65536 * (a.toNat % 65536) := by
    conv_lhs => rw [← Nat.div_add_mod a.toNat 65536, ← Nat.div_add_mod b.toNat 65536]
    ring
  rw [product]
  have shiftLeft : ∀ x : UInt32, (x <<< 16).toNat = x.toNat * 65536 % 2 ^ 32 := fun x => by
    simp [UInt32.toNat_shiftLeft, Nat.shiftLeft_eq]
  have shiftRight : ∀ x : UInt32, (x >>> 16).toNat = x.toNat / 65536 := fun x => (half_digits x).1
  let al' : UInt32 := a &&& 0xFFFF
  let bl' : UInt32 := b &&& 0xFFFF
  let x₁ := ((a >>> 16) * bl') <<< 16
  let x₂ := ((b >>> 16) * al') <<< 16
  obtain ⟨c₁, c₁Le, sum₁, one, -⟩ := exists_carry (bl' * al') x₁
  obtain ⟨c₂, c₂Le, sum₂, -, two⟩ := exists_carry (bl' * al' + x₁) x₂
  have value : mpdigmul a b = (bl' * al' + x₁ + x₂, (a >>> 16) * (b >>> 16) +
      (c₁ + c₂ + ((a >>> 16) * bl') >>> 16 + ((b >>> 16) * al') >>> 16)) := by
    rw [← two, ← one]
    rfl
  rw [value]
  dsimp only [al', bl', x₁, x₂] at sum₁ sum₂ ⊢
  simp only [UInt32.toNat_mul, shiftLeft, shiftRight, al, bl] at sum₁ sum₂
  rw [UInt32.toNat_add _ (_ + _), UInt32.toNat_add (_ + _) (_ >>> _), UInt32.toNat_add (_ + _) (_ >>> _), UInt32.toNat_add c₁]
  simp only [UInt32.toNat_mul, shiftRight, al, bl]
  generalize a.toNat / 65536 * (b.toNat % 65536) = P1 at *
  generalize b.toNat / 65536 * (a.toNat % 65536) = P2 at *
  generalize b.toNat % 65536 * (a.toNat % 65536) = P3 at *
  generalize a.toNat / 65536 * (b.toNat / 65536) = P4 at *
  omega

/-- `part[1]` and `carry` together are below 2^32. -/
theorem muladdDigit_spec (d m y : UInt32) {part₁ carry x part₁' carry' : UInt32} (le : part₁.toNat + carry.toNat < 2 ^ 32)
    (value : muladdDigit d m y part₁ carry = (x, part₁', carry')) :
    x.toNat + 2 ^ 32 * (part₁'.toNat + carry'.toNat) = y.toNat + d.toNat * m.toNat + (part₁.toNat + carry.toNat) ∧
      part₁'.toNat + carry'.toNat < 2 ^ 32 := by
  have product := mpdigmul_spec d m
  rcases part : mpdigmul d m with ⟨lo, hi⟩
  rw [part] at product
  dsimp only at product
  have yLt := y.toNat_lt
  have bound : d.toNat * m.toNat ≤ (2 ^ 32 - 1) * (2 ^ 32 - 1) :=
    Nat.mul_le_mul (Nat.le_pred_of_lt d.toNat_lt) (Nat.le_pred_of_lt m.toNat_lt)
  obtain ⟨c₁, c₁Le, sum₁, one, -⟩ := exists_carry part₁ carry
  obtain ⟨c₂, c₂Le, sum₂, -, two⟩ := exists_carry (part₁ + carry) lo
  obtain ⟨c₃, c₃Le, sum₃, -, three⟩ := exists_carry (part₁ + carry + lo) y
  simp only [muladdDigit, part, one, two, three, Prod.mk.injEq] at value
  obtain ⟨rfl, rfl, rfl⟩ := value
  rw [UInt32.toNat_add _ c₃, UInt32.toNat_add c₁]
  generalize d.toNat * m.toNat = P at *
  omega

theorem mulsubDigit_spec (d m x : UInt32) {part₁ borrow x' part₁' borrow' : UInt32}
    (le : part₁.toNat + borrow.toNat < 2 ^ 32) (value : mulsubDigit d m x part₁ borrow = (x', part₁', borrow')) :
    x'.toNat + d.toNat * m.toNat + (part₁.toNat + borrow.toNat) = x.toNat + 2 ^ 32 * (part₁'.toNat + borrow'.toNat) ∧
      part₁'.toNat + borrow'.toNat < 2 ^ 32 := by
  have product := mpdigmul_spec d m
  rcases part : mpdigmul d m with ⟨lo, hi⟩
  rw [part] at product
  dsimp only at product
  have xLt := x.toNat_lt
  have bound : d.toNat * m.toNat ≤ (2 ^ 32 - 1) * (2 ^ 32 - 1) :=
    Nat.mul_le_mul (Nat.le_pred_of_lt d.toNat_lt) (Nat.le_pred_of_lt m.toNat_lt)
  obtain ⟨c₁, c₁Le, sum₁, one, -⟩ := exists_borrow x borrow
  obtain ⟨c₂, c₂Le, sum₂, -, two⟩ := exists_carry part₁ lo
  obtain ⟨c₃, c₃Le, sum₃, -, three⟩ := exists_borrow (x - borrow) (part₁ + lo)
  have last := (x - borrow - (part₁ + lo)).toNat_lt
  simp only [mulsubDigit, part, one, two, three, Prod.mk.injEq] at value
  obtain ⟨rfl, rfl, rfl⟩ := value
  rw [UInt32.toNat_add _ c₃, UInt32.toNat_add c₁]
  generalize d.toNat * m.toNat = P at *
  omega

section Loops

open Mem

variable {m m' : Mem} {part₁ carry borrow : UInt32} {sign : Int}

theorem mpvecdigmuladdLoop_spec (d : UInt32) (n : Nat) (b p : Ptr) (m : Mem) (le : part₁.toNat + carry.toNat < 2 ^ 32)
    (ahead : Ahead p b n) (value : mpvecdigmuladdLoop d n b p part₁ carry m = m') :
    Writes m m' p (n + 1) ∧ m'.val p (n + 1) = m.val p n + m.val b n * d.toNat + (part₁.toNat + carry.toNat) := by
  induction n generalizing b p part₁ carry m with
  | zero =>
    subst value
    refine ⟨Writes.set ⟨rfl, le_rfl, by omega⟩, ?_⟩
    rw [val_one, mpvecdigmuladdLoop, set_self, UInt32.toNat_add]
    simp only [val]
    omega
  | succ n ih =>
    rcases step : muladdDigit (m.word b) d (m.word p) part₁ carry with ⟨x, part₁', carry'⟩
    obtain ⟨digit, le'⟩ := muladdDigit_spec _ _ _ le step
    simp only [mpvecdigmuladdLoop, step] at value
    obtain ⟨writes, sums⟩ := ih _ _ _ le' ahead.step value
    obtain ⟨all, here⟩ := writes.cons
    refine ⟨all, ?_⟩
    rw [ahead.val_set, Ahead.self.val_set] at sums
    rw [val_cons m', here, sums, val_cons m p, val_cons m b]
    linear_combination digit

/-- `mpvecdigmuladd` writes one digit more than it adds to. -/
theorem mpvecdigmuladd_spec {d : UInt32} {n : Nat} {b p : Ptr} (ahead : Ahead p b n)
    (value : mpvecdigmuladd b n d p m = m') :
    Writes m m' p (n + 1) ∧ m'.val p (n + 1) = m.val p n + m.val b n * d.toNat :=
  mpvecdigmuladdLoop_spec d n b p m (by decide) ahead value

theorem mpvecdigmulsubLoop_spec (d : UInt32) (n : Nat) (b p : Ptr) (m : Mem) (le : part₁.toNat + borrow.toNat < 2 ^ 32)
    (ahead : Ahead p b n) (value : mpvecdigmulsubLoop d n b p part₁ borrow m = (m', sign)) :
    Writes m m' p (n + 1) ∧ ∃ under : Nat, (under = 0 ∧ sign = 1 ∨ under = 1 ∧ sign = -1) ∧
      m'.val p (n + 1) + m.val b n * d.toNat + (part₁.toNat + borrow.toNat) =
        m.val p (n + 1) + 2 ^ (32 * (n + 1)) * under := by
  induction n generalizing b p part₁ borrow m with
  | zero =>
    simp only [mpvecdigmulsubLoop, Prod.mk.injEq] at value
    obtain ⟨rfl, rfl⟩ := value
    refine ⟨Writes.set ⟨rfl, le_rfl, by omega⟩, ?_⟩
    have wordLt := (m.word p).toNat_lt
    simp only [set_self, gt_iff_lt, UInt32.lt_iff_toNat_lt, UInt32.toNat_sub, val]
    split
    · exact ⟨1, Or.inr ⟨rfl, rfl⟩, by omega⟩
    · exact ⟨0, Or.inl ⟨rfl, rfl⟩, by omega⟩
  | succ n ih =>
    rcases step : mulsubDigit (m.word b) d (m.word p) part₁ borrow with ⟨x, part₁', borrow'⟩
    obtain ⟨digit, le'⟩ := mulsubDigit_spec _ _ _ le step
    simp only [mpvecdigmulsubLoop, step] at value
    obtain ⟨writes, under, which, sums⟩ := ih _ _ _ le' ahead.step value
    obtain ⟨all, here⟩ := writes.cons
    refine ⟨all, under, which, ?_⟩
    have kept : (m.set p x).val (p + 1) (n + 1) = m.val (p + 1) (n + 1) := Ahead.self.val_set
    rw [ahead.val_set, kept] at sums
    rw [val_cons m', here, val_cons m p, val_cons m b, two_pow_succ (n + 1)]
    linear_combination digit + 2 ^ 32 * sums

theorem mpvecdigmulsub_spec {d : UInt32} {n : Nat} {b p : Ptr} (ahead : Ahead p b n)
    (value : mpvecdigmulsub b n d p m = (m', sign)) :
    Writes m m' p (n + 1) ∧ ∃ under : Nat, (under = 0 ∧ sign = 1 ∨ under = 1 ∧ sign = -1) ∧
      m'.val p (n + 1) + m.val b n * d.toNat = m.val p (n + 1) + 2 ^ (32 * (n + 1)) * under :=
  mpvecdigmulsubLoop_spec d n b p m (by decide) ahead value

theorem mpvecdigmulsub_borrows : ∃ m' : Mem, ∃ under : Nat, m'.val ⟨0, 1⟩ 2 + 5 * 3 = 0 + 2 ^ 64 * under :=
  ⟨_, (mpvecdigmulsub_spec (d := 3) (n := 1) (b := ⟨0, 0⟩) (p := ⟨0, 1⟩)
    (m := ⟨fun q => if q.off = 0 then 5 else 0, fun _ => 3, true⟩) (.inr (.inr le_rfl)) rfl).2.imp fun _ => And.right⟩

end Loops

end Digmul

section Mul

open Lib Mem

/-- The loop of `mpvecmul` over the digits of `b`. -/
def mulLoop (a : Ptr) (alen : Nat) : Nat → Ptr → Ptr → Mem → Mem
  | 0, _, _, m => m
  | n + 1, b, p, m =>
    let d := m.word b
    mulLoop a alen n (b + 1) (p + 1) (if d ≠ 0 then mpvecdigmuladd a alen d p m else m)

/-- `mpkaratsuba` stores `u1 - u0` at `d`, without its sign. -/
def kdiffU (u0 : Ptr) (u0len : Nat) (u1 : Ptr) (u1len : Nat) (d : Ptr) (m : Mem) : Mem × Int :=
  if mpveccmp u1 u1len u0 u0len m < 0 then (mpvecsub u0 u0len u1 u1len d m, -1)
  else (mpvecsub u1 u1len u0 u1len d m, 1)

/-- And `v0 - v1`. -/
def kdiffV (v0 : Ptr) (v0len : Nat) (v1 : Ptr) (v1len : Nat) (d : Ptr) (m : Mem) : Mem × Int :=
  if mpveccmp v0 v0len v1 v1len m < 0 then (mpvecsub v1 v1len v0 v1len d m, -1)
  else (mpvecsub v0 v0len v1 v1len d m, 1)

/-- Its sums in `res`, of products of `len0` and of `len1` digits. -/
def ksums (res : Ptr) (n : Nat) (u0v0 : Ptr) (len0 : Nat) (u1v1 : Ptr) (len1 : Nat) (v1some : Bool) (diffprod : Ptr)
    (sign : Int) (m : Mem) : Mem :=
  let reslen := 4 * n + 1
  let m := mpvecadd res reslen u0v0 len0 res m
  let m := mpvecadd (res + n) (reslen - n) u0v0 len0 (res + n) m
  let m := if v1some then
      let m := mpvecadd (res + n) (reslen - n) u1v1 len1 (res + n) m
      mpvecadd (res + 2 * n) (reslen - 2 * n) u1v1 len1 (res + 2 * n) m
    else m
  if sign < 0 then mpvecsub (res + n) (reslen - n) diffprod len0 (res + n) m
  else mpvecadd (res + n) (reslen - n) diffprod len0 (res + n) m

/-- `mul` is `mpvecmul`, with the block that its own `mallocz` gives. The areas are in the block `t`. -/
def kproduct (mul : Nat → Ptr → Nat → Ptr → Nat → Ptr → Mem → Mem) (t n : Nat) (u0 : Ptr) (u0len : Nat) (u1 : Ptr)
    (u1len : Nat) (v0 : Ptr) (v0len : Nat) (v1 : Ptr) (v1len : Nat) (m : Mem) : Mem :=
  let u0v0 : Ptr := ⟨t, 0⟩
  let u1v1 := u0v0 + (2 * n + 1)
  let diffprod := u0v0 + 2 * (2 * n + 1)
  let res := u0v0 + 3 * (2 * n + 1)
  let (m, signU) := kdiffU u0 u0len u1 u1len u0v0 m
  let (m, signV) := kdiffV v0 v0len v1 v1len u1v1 m
  let m := mul (t + 1) u0v0 u0len u1v1 v0len diffprod m
  let m := m.fill u0v0 (2 * (2 * n + 1)) 0
  let m := if v1len > 0 then mul (t + 1) u1 u1len v1 v1len u1v1 m else m
  let m := mul (t + 1) u0 u0len v0 v0len u0v0 m
  ksums res n u0v0 (u0len + v0len) u1v1 (u1len + v1len) (v1len > 0) diffprod (signU * signV) m

/-- `t` is the block that `mallocz` gives. -/
def mpkaratsuba (mul : Nat → Ptr → Nat → Ptr → Nat → Ptr → Mem → Mem) (t : Nat) (a : Ptr) (alen : Nat) (b : Ptr) (blen : Nat)
    (p : Ptr) (m : Mem) : Mem :=
  let n := alen / 2 + alen % 2
  let v0len := if blen > n then n else blen
  let v1len := if blen > n then blen - n else 0
  let m := m.mallocz t (5 * (2 * n + 1))
  let m := kproduct mul t n a n (a + n) (alen - n) b v0len (b + v0len) v1len m
  (m.move p ((⟨t, 0⟩ : Ptr) + 3 * (2 * n + 1)) (alen + blen)).free t

def karatsubamin : Nat := 32

/-- The recursion ends, as each call is on shorter vectors. -/
def mpvecmulFuel : Nat → Nat → Ptr → Nat → Ptr → Nat → Ptr → Mem → Mem
  | 0, _, _, _, _, _, _, m => m
  | fuel + 1, t, a, alen, b, blen, p, m =>
    let (a, alen, b, blen) := if alen < blen then (b, blen, a, alen) else (a, alen, b, blen)
    if blen = 0 then m.fill p (alen + blen) 0
    else if alen ≥ karatsubamin ∧ blen > 1 then mpkaratsuba (mpvecmulFuel fuel) t a alen b blen p m
    else mulLoop a alen blen b p m

def mpvecmul (t : Nat) (a : Ptr) (alen : Nat) (b : Ptr) (blen : Nat) (p : Ptr) (m : Mem) : Mem :=
  mpvecmulFuel (alen + blen + 1) t a alen b blen p m

/-- What `mpvecmul` needs: the product area is 0 and apart from the operands, and `t` is a new block. -/
structure MulArgs (t : Nat) (a : Ptr) (alen : Nat) (b : Ptr) (blen : Nat) (p : Ptr) (m : Mem) : Prop where
  blkA : a.blk < t
  blkB : b.blk < t
  blkP : p.blk < t
  apartA : Apart a alen p (alen + blen)
  apartB : Apart b blen p (alen + blen)
  zero : m.val p (alen + blen) = 0

structure MulOk (t : Nat) (a : Ptr) (alen : Nat) (b : Ptr) (blen : Nat) (p : Ptr) (m m' : Mem) : Prop where
  writes : WritesUnder t m m' p (alen + blen)
  product : m'.val p (alen + blen) = m.val a alen * m.val b blen

variable {t alen blen : Nat} {a b p : Ptr} {m m' : Mem}

theorem MulArgs.swap (args : MulArgs t a alen b blen p m) : MulArgs t b blen a alen p m := by
  obtain ⟨blkA, blkB, blkP, apartA, apartB, zero⟩ := args
  rw [Nat.add_comm] at apartA apartB zero
  exact ⟨blkB, blkA, blkP, apartB, apartA, zero⟩

theorem MulOk.swap (ok : MulOk t b blen a alen p m m') : MulOk t a alen b blen p m m' := by
  obtain ⟨writes, product⟩ := ok
  rw [Nat.add_comm] at writes product
  exact ⟨writes, product.trans (Nat.mul_comm ..)⟩

theorem mulLoop_spec (a : Ptr) (alen n : Nat) (b p : Ptr) (m : Mem) (apartA : Apart a alen p (alen + n)) (apartB : Apart b n p (alen + n))
    (zero : m.val (p + alen) n = 0) (value : mulLoop a alen n b p m = m') :
    Writes m m' p (alen + n) ∧ m'.val p (alen + n) = m.val p alen + m.val a alen * m.val b n := by
  induction n generalizing b p m with
  | zero =>
    subst value
    exact ⟨Writes.refl, by simp [mulLoop, val]⟩
  | succ n ih =>
    have aheadA : Ahead p a alen := Ahead.of_apart apartA (by omega)
    have top : m.word (p + alen) = 0 ∧ m.val (p + alen + 1) n = 0 := by
      rw [val_cons] at zero
      refine ⟨UInt32.toNat_inj.mp (by rw [UInt32.toNat_zero]; omega), by omega⟩
    have first : ∃ m₁, (if m.word b ≠ 0 then mpvecdigmuladd a alen (m.word b) p m else m) = m₁ ∧ Writes m m₁ p (alen + 1) ∧
        m₁.val p (alen + 1) = m.val p alen + m.val a alen * (m.word b).toNat := by
      refine ⟨_, rfl, ?_⟩
      split
      · exact mpvecdigmuladd_spec aheadA rfl
      · rename_i none_
        rw [not_not.mp none_]
        exact ⟨Writes.refl, by rw [val_succ, top.1]; simp⟩
    obtain ⟨m₁, step, writes₁, sum₁⟩ := first
    simp only [mulLoop, step] at value
    have apartA' : Apart a alen (p + 1) (alen + n) := by
      unfold Apart at apartA ⊢
      simp only [Ptr.add_blk, Ptr.add_off]
      omega
    have apartB' : Apart (b + 1) n (p + 1) (alen + n) := by
      unfold Apart at apartB ⊢
      simp only [Ptr.add_blk, Ptr.add_off]
      omega
    have zero' : m₁.val (p + 1 + alen) n = 0 := by
      rw [Ptr.add_add, Nat.add_comm 1 alen, ← Ptr.add_add,
        writes₁.val_eq (by simp only [Apart, Ptr.add_blk, Ptr.add_off]; omega), top.2]
    obtain ⟨writes₂, sum₂⟩ := ih _ _ _ apartA' apartB' zero' value
    refine ⟨(writes₁.widen ⟨rfl, le_rfl, by omega⟩).trans (writes₂.widen ⟨rfl, by simp, by simp only [Ptr.add_off]; omega⟩), ?_⟩
    have here : m'.word p = m₁.word p := writes₂.word p (by simp only [Ptr.add_off]; omega)
    have keepA : m₁.val a alen = m.val a alen := writes₁.val_eq (by unfold Apart at apartA ⊢; omega)
    have keepB : m₁.val (b + 1) n = m.val (b + 1) n := writes₁.val_eq (by
      unfold Apart at apartB ⊢
      simp only [Ptr.add_blk, Ptr.add_off]
      omega)
    rw [keepA, keepB] at sum₂
    rw [← Nat.add_assoc, val_cons, here, sum₂, val_cons m b]
    rw [val_cons] at sum₁
    linear_combination sum₁

theorem mulLoop_ok (args : MulArgs t a alen b blen p m) : MulOk t a alen b blen p m (mulLoop a alen blen b p m) := by
  obtain ⟨-, -, -, apartA, apartB, zero⟩ := args
  rw [val_add] at zero
  have power := Nat.two_pow_pos (32 * alen)
  have high : m.val (p + alen) blen = 0 :=
    (Nat.mul_eq_zero.mp (by omega : 2 ^ (32 * alen) * m.val (p + alen) blen = 0)).resolve_left power.ne'
  obtain ⟨writes, product⟩ := mulLoop_spec a alen blen b p m apartA apartB high rfl
  exact ⟨writes.under, by rw [product]; omega⟩

end Mul

end Inferno.Mp
