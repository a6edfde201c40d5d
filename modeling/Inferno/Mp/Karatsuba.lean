import Inferno.Mp.Mul

namespace Inferno.Mp

open Lib Mem

variable {t alen blen : Nat} {a b p : Ptr} {m m' : Mem}

theorem mpveccmp_neg : mpveccmp a alen b blen m < 0 ↔ m.val a alen < m.val b blen := by
  rw [mpveccmp_spec, Int.sign_neg_iff]
  omega

/-- A difference with the shorter vector first, in an area that is 0. -/
theorem mpvecsub_short {x y d : Ptr} {xlen ylen : Nat} (le : ylen ≤ xlen) (zero : m.val d xlen = 0) (apartX : d.blk ≠ x.blk)
    (apartY : d.blk ≠ y.blk) (below : m.val x xlen ≤ m.val y ylen) (value : mpvecsub y ylen x ylen d m = m') :
    Writes m m' d xlen ∧ m'.val d xlen + m.val x xlen = m.val y ylen := by
  obtain ⟨k, rfl⟩ := Nat.exists_eq_add_of_le le
  have low : m.val x ylen = m.val x (ylen + k) := val_of_lt (below.trans_lt (val_lt ..))
  obtain ⟨writes, diff⟩ := mpvecsub_spec le_rfl (Or.inl apartY.symm) (Or.inl apartX.symm) (by rw [low]; exact below) value
  rw [val_add] at zero
  have high : m'.val (d + ylen) k = 0 := by
    rw [writes.val_eq (by simp only [Apart, Ptr.add_off]; omega)]
    have power := Nat.two_pow_pos (32 * ylen)
    exact (Nat.mul_eq_zero.mp (by omega : 2 ^ (32 * ylen) * m.val (d + ylen) k = 0)).resolve_left power.ne'
  refine ⟨writes.widen ⟨rfl, le_rfl, by omega⟩, ?_⟩
  rw [val_add m', high, ← low]
  omega

theorem kdiffU_spec {u0 u1 d : Ptr} {u0len u1len : Nat} {s : Int} (le : u1len ≤ u0len) (zero : m.val d u0len = 0)
    (apart₀ : d.blk ≠ u0.blk) (apart₁ : d.blk ≠ u1.blk) (value : kdiffU u0 u0len u1 u1len d m = (m', s)) :
    Writes m m' d u0len ∧ (s = -1 ∧ m'.val d u0len + m.val u1 u1len = m.val u0 u0len ∨
      s = 1 ∧ m'.val d u0len + m.val u0 u0len = m.val u1 u1len) := by
  unfold kdiffU at value
  simp only [mpveccmp_neg] at value
  split at value
  · rename_i less
    obtain ⟨sub, rfl⟩ := Prod.mk.inj value
    obtain ⟨writes, diff⟩ := mpvecsub_spec le (Or.inl apart₀.symm) (Or.inl apart₁.symm) less.le sub
    exact ⟨writes, Or.inl ⟨rfl, diff⟩⟩
  · rename_i above
    obtain ⟨sub, rfl⟩ := Prod.mk.inj value
    obtain ⟨writes, diff⟩ := mpvecsub_short le zero apart₀ apart₁ (Nat.not_lt.mp above) sub
    exact ⟨writes, Or.inr ⟨rfl, diff⟩⟩

theorem kdiffV_spec {v0 v1 d : Ptr} {v0len v1len : Nat} {s : Int} (le : v1len ≤ v0len) (zero : m.val d v0len = 0)
    (apart₀ : d.blk ≠ v0.blk) (apart₁ : d.blk ≠ v1.blk) (value : kdiffV v0 v0len v1 v1len d m = (m', s)) :
    Writes m m' d v0len ∧ (s = -1 ∧ m'.val d v0len + m.val v0 v0len = m.val v1 v1len ∨
      s = 1 ∧ m'.val d v0len + m.val v1 v1len = m.val v0 v0len) := by
  unfold kdiffV at value
  simp only [mpveccmp_neg] at value
  split at value
  · rename_i less
    obtain ⟨sub, rfl⟩ := Prod.mk.inj value
    obtain ⟨writes, diff⟩ := mpvecsub_short le zero apart₀ apart₁ less.le sub
    exact ⟨writes, Or.inl ⟨rfl, diff⟩⟩
  · rename_i above
    obtain ⟨sub, rfl⟩ := Prod.mk.inj value
    obtain ⟨writes, diff⟩ := mpvecsub_spec le (Or.inl apart₀.symm) (Or.inl apart₁.symm) (Nat.not_lt.mp above) sub
    exact ⟨writes, Or.inr ⟨rfl, diff⟩⟩

/-- Adding at the digit `k` of `res`, whose top digit is 0. -/
theorem mpvecadd_at {res x : Ptr} {len k xlen : Nat} (le : k + xlen ≤ len) (apart : Apart x xlen res (len + 1))
    (small : m.val res (len + 1) < 2 ^ (32 * len)) (value : mpvecadd (res + k) (len - k) x xlen (res + k) m = m') :
    Writes m m' res (len + 1) ∧ m'.val res (len + 1) = m.val res (len + 1) + 2 ^ (32 * k) * m.val x xlen := by
  obtain ⟨r, rfl⟩ := Nat.exists_eq_add_of_le (Nat.le_of_add_right_le le)
  rw [Nat.add_sub_cancel_left] at value
  obtain ⟨writes, sum⟩ := mpvecadd_spec (by lia) Ahead.self (Ahead.of_apart (by
    unfold Apart at apart ⊢
    simp only [Ptr.add_blk, Ptr.add_off]
    lia : Apart x xlen (res + k) (r + 1)) (by lia)) value
  refine ⟨writes.widen ⟨rfl, by simp, by simp only [Ptr.add_off]; lia⟩, ?_⟩
  have low : m'.val res k = m.val res k := writes.val_eq (by simp only [Apart, Ptr.add_off]; lia)
  have top := val_of_lt small
  rw [← top, val_add m, Nat.add_assoc, val_add m', low, sum]
  ring

theorem mpvecsub_at {res x : Ptr} {len k xlen : Nat} (le : k + xlen ≤ len) (apart : Apart x xlen res (len + 1))
    (above : 2 ^ (32 * k) * m.val x xlen ≤ m.val res len) (value : mpvecsub (res + k) (len - k) x xlen (res + k) m = m') :
    Writes m m' res (len + 1) ∧ m'.val res len + 2 ^ (32 * k) * m.val x xlen = m.val res len := by
  obtain ⟨r, rfl⟩ := Nat.exists_eq_add_of_le (Nat.le_of_add_right_le le)
  rw [Nat.add_sub_cancel_left] at value
  rw [val_add] at above
  have below : m.val x xlen ≤ m.val (res + k) r := by
    refine Nat.le_of_lt_succ (Nat.lt_of_mul_lt_mul_left (a := 2 ^ (32 * k)) ?_)
    have bound := val_lt m res k
    rw [Nat.mul_succ]
    omega
  obtain ⟨writes, diff⟩ := mpvecsub_spec (by omega) Ahead.self (Ahead.of_apart (by
    unfold Apart at apart ⊢
    simp only [Ptr.add_blk, Ptr.add_off]
    omega : Apart x xlen (res + k) r) (by omega)) below value
  refine ⟨writes.widen ⟨rfl, by simp, by simp only [Ptr.add_off]; omega⟩, ?_⟩
  have low : m'.val res k = m.val res k := writes.val_eq (by simp only [Apart, Ptr.add_off]; omega)
  rw [val_add m', low, val_add m, Nat.add_assoc, ← Nat.mul_add, diff]

theorem ksums_spec {res u0v0 u1v1 diffprod : Ptr} {n len0 len1 P1 : Nat} {v1some : Bool} {sign : Int} (le₀ : len0 ≤ 2 * n)
    (le₁ : len1 ≤ 2 * n) (apart₀ : Apart u0v0 len0 res (4 * n + 1 + 1)) (apart₁ : Apart u1v1 len1 res (4 * n + 1 + 1))
    (apartD : Apart diffprod len0 res (4 * n + 1 + 1)) (zero : m.val res (4 * n + 1 + 1) = 0)
    (product : P1 = if v1some then m.val u1v1 len1 else 0)
    (small : m.val u0v0 len0 + 2 ^ (32 * n) * (m.val u0v0 len0 + P1) + 2 ^ (32 * (2 * n)) * P1 < 2 ^ (32 * (4 * n + 1)))
    (above : sign < 0 → m.val diffprod len0 ≤ m.val u0v0 len0 + P1)
    (value : ksums res n u0v0 len0 u1v1 len1 v1some diffprod sign m = m') :
    Writes m m' res (4 * n + 1 + 1) ∧
      (sign < 0 → m'.val res (4 * n + 1) + 2 ^ (32 * n) * m.val diffprod len0 =
        m.val u0v0 len0 + 2 ^ (32 * n) * (m.val u0v0 len0 + P1) + 2 ^ (32 * (2 * n)) * P1) ∧
      (¬sign < 0 → m'.val res (4 * n + 1 + 1) =
        m.val u0v0 len0 + 2 ^ (32 * n) * (m.val u0v0 len0 + P1) + 2 ^ (32 * (2 * n)) * P1 +
          2 ^ (32 * n) * m.val diffprod len0) := by
  unfold ksums at value
  rw [Nat.mul_add] at small ⊢
  dsimp only at value
  generalize first : mpvecadd res (4 * n + 1) u0v0 len0 res m = m₁ at value
  obtain ⟨w₁, s₁⟩ := mpvecadd_at (k := 0) (by lia) apart₀ (by rw [zero]; exact Nat.two_pow_pos _) first
  have keep₁ : m₁.val u0v0 len0 = m.val u0v0 len0 := w₁.val_eq apart₀
  rw [zero, Nat.mul_zero, pow_zero, Nat.one_mul, Nat.zero_add] at s₁
  generalize second : mpvecadd (res + n) (4 * n + 1 - n) u0v0 len0 (res + n) m₁ = m₂ at value
  obtain ⟨w₂, s₂⟩ := mpvecadd_at (by lia) apart₀ (by rw [s₁]; lia) second
  rw [s₁, keep₁] at s₂
  have w₁₂ := w₁.trans w₂
  have third : ∃ m₃, (if v1some = true then
      mpvecadd (res + 2 * n) (4 * n + 1 - 2 * n) u1v1 len1 (res + 2 * n)
        (mpvecadd (res + n) (4 * n + 1 - n) u1v1 len1 (res + n) m₂) else m₂) = m₃ ∧ Writes m₂ m₃ res (4 * n + 1 + 1) ∧
      m₃.val res (4 * n + 1 + 1) = m₂.val res (4 * n + 1 + 1) + 2 ^ (32 * n) * P1 + 2 ^ (32 * (2 * n)) * P1 := by
    refine ⟨_, rfl, ?_⟩
    split
    · rename_i some_
      rw [if_pos some_] at product
      have keep₂ : m₂.val u1v1 len1 = P1 := (w₁₂.val_eq apart₁).trans product.symm
      generalize first' : mpvecadd (res + n) (4 * n + 1 - n) u1v1 len1 (res + n) m₂ = m₃
      obtain ⟨w₃, s₃⟩ := mpvecadd_at (by lia) apart₁ (by rw [s₂]; lia) first'
      rw [keep₂] at s₃
      generalize second' : mpvecadd (res + 2 * n) (4 * n + 1 - 2 * n) u1v1 len1 (res + 2 * n) m₃ = m₄
      obtain ⟨w₄, s₄⟩ := mpvecadd_at (by lia) apart₁ (by rw [s₃, s₂]; lia) second'
      rw [w₃.val_eq apart₁, keep₂, s₃] at s₄
      exact ⟨w₃.trans w₄, s₄⟩
    · rename_i none_
      rw [if_neg none_] at product
      exact ⟨Writes.refl, by rw [product]; simp⟩
  obtain ⟨m₃, step₃, w₃, s₃⟩ := third
  rw [step₃] at value
  rw [s₂] at s₃
  have total : m₃.val res (4 * n + 1 + 1) =
      m.val u0v0 len0 + (2 ^ (32 * n) * m.val u0v0 len0 + 2 ^ (32 * n) * P1) + 2 ^ (32 * (2 * n)) * P1 := by lia
  have all := w₁₂.trans w₃
  have keepD : m₃.val diffprod len0 = m.val diffprod len0 := all.val_eq apartD
  have bound : m₃.val res (4 * n + 1 + 1) < 2 ^ (32 * (4 * n + 1)) := by lia
  have top := val_of_lt bound
  split at value
  · rename_i negative
    have le := above negative
    have room : 2 ^ (32 * n) * m₃.val diffprod len0 ≤ m₃.val res (4 * n + 1) := by
      rw [keepD, top, total]
      have more := Nat.mul_le_mul_left (2 ^ (32 * n)) le
      rw [Nat.mul_add] at more
      lia
    obtain ⟨w₄, s₄⟩ := mpvecsub_at (by lia) apartD room value
    exact ⟨all.trans w₄, fun _ => by rw [← total, ← top, ← s₄, keepD], fun no => absurd negative no⟩
  · rename_i positive
    obtain ⟨w₄, s₄⟩ := mpvecadd_at (by lia) apartD bound value
    exact ⟨all.trans w₄, fun no => absurd no positive, fun _ => by rw [s₄, keepD, total]⟩

/-- The middle product, with its sign. -/
theorem karatsuba_middle {X U0 U1 V0 V1 D₁ D₂ : Nat} {sU sV : Int} (u : sU = -1 ∧ D₁ + U1 = U0 ∨ sU = 1 ∧ D₁ + U0 = U1)
    (v : sV = -1 ∧ D₂ + V0 = V1 ∨ sV = 1 ∧ D₂ + V1 = V0) :
    (sU * sV < 0 → D₁ * D₂ ≤ U0 * V0 + U1 * V1 ∧ U0 * V0 + X * (U0 * V0 + U1 * V1) + X * X * (U1 * V1) =
        (U0 + X * U1) * (V0 + X * V1) + X * (D₁ * D₂)) ∧
      (¬sU * sV < 0 → U0 * V0 + X * (U0 * V0 + U1 * V1) + X * X * (U1 * V1) + X * (D₁ * D₂) =
        (U0 + X * U1) * (V0 + X * V1)) := by
  rcases u with ⟨rfl, rfl⟩ | ⟨rfl, rfl⟩ <;> rcases v with ⟨rfl, rfl⟩ | ⟨rfl, rfl⟩
  · exact ⟨fun no => absurd no (by decide), fun _ => by ring⟩
  · exact ⟨fun _ => ⟨(Nat.mul_le_mul (Nat.le_add_right ..) (Nat.le_add_right ..)).trans (Nat.le_add_right ..), by ring⟩, fun no => absurd (by decide) no⟩
  · exact ⟨fun _ => ⟨(Nat.mul_le_mul (Nat.le_add_right ..) (Nat.le_add_right ..)).trans (Nat.le_add_left ..), by ring⟩, fun no => absurd (by decide) no⟩
  · exact ⟨fun no => absurd no (by decide), fun _ => by ring⟩

theorem karatsuba_small {X U0 U1 V0 V1 : Nat} (u0 : U0 < X) (u1 : U1 < X) (v0 : V0 < X) (v1 : V1 < X) :
    U0 * V0 + X * (U0 * V0 + U1 * V1) + X * X * (U1 * V1) < X * X * (X * X) * 2 ^ 32 := by
  have first : U0 * V0 ≤ X * X := Nat.mul_le_mul u0.le v0.le
  have second : U1 * V1 ≤ X * X := Nat.mul_le_mul u1.le v1.le
  have one : 1 ≤ X := by lia
  have square : X * X ≤ X * X * (X * X) := Nat.le_mul_of_pos_right _ (Nat.mul_pos one one)
  have cube : X * (X * X) ≤ X * X * (X * X) := by
    rw [Nat.mul_assoc]
    exact Nat.mul_le_mul_left X (Nat.le_mul_of_pos_left _ one)
  have middle := Nat.mul_le_mul_left X (Nat.add_le_add first second)
  rw [Nat.mul_add] at middle
  have high := Nat.mul_le_mul_left (X * X) second
  have some_ : 0 < X * X * (X * X) := Nat.mul_pos (Nat.mul_pos one one) (Nat.mul_pos one one)
  rw [Nat.mul_add] at middle ⊢
  lia

theorem pair_lt {X x y : Nat} (low : x < X) (high : y < X) : x + X * y < X * X := by
  have most := Nat.mul_le_mul_left X (Nat.succ_le_of_lt high)
  rw [Nat.mul_succ] at most
  omega

theorem mallocz_val {n k : Nat} (other : p.blk ≠ t) : (m.mallocz t n).val p k = m.val p k :=
  val_congr fun _ _ => if_neg other

theorem mallocz_zero {n k : Nat} (here : p.blk = t) : (m.mallocz t n).val p k = 0 :=
  val_zero fun _ _ => if_pos here

/-- `mpvecmul` does what it should for fewer digits. -/
def MulUpTo (bound : Nat) (mul : Nat → Ptr → Nat → Ptr → Nat → Ptr → Mem → Mem) : Prop :=
  ∀ (t alen blen : Nat) (a b p : Ptr) (m : Mem), alen + blen < bound → MulArgs t a alen b blen p m →
    MulOk t a alen b blen p m (mul t a alen b blen p m)

theorem kproduct_spec {mul : Nat → Ptr → Nat → Ptr → Nat → Ptr → Mem → Mem} {bound n u1len v0len v1len : Nat} {T u0 u1 v0 v1 : Ptr}
    (muls : MulUpTo bound mul) (area : T = ⟨t, 0⟩) (uLe : u1len ≤ n) (vLe : v1len ≤ v0len) (vLe' : v0len ≤ n)
    (less : n + v0len < bound) (less' : u1len + v1len < bound) (blkU0 : u0.blk < t) (blkU1 : u1.blk < t)
    (blkV0 : v0.blk < t) (blkV1 : v1.blk < t) (zero : ∀ k j : Nat, m.val (T + k) j = 0)
    (value : kproduct mul t n u0 n u1 u1len v0 v0len v1 v1len m = m') :
    WritesUnder (t + 1) m m' T (5 * (2 * n + 1)) ∧ m'.val (T + 3 * (2 * n + 1)) (4 * n + 1) =
      (m.val u0 n + 2 ^ (32 * n) * m.val u1 u1len) * (m.val v0 v0len + 2 ^ (32 * n) * m.val v1 v1len) := by
  unfold kproduct at value
  rw [← area] at value
  dsimp only at value
  have blkT : T.blk = t := by rw [area]
  have offT : T.off = 0 := by rw [area]
  have keep : ∀ {mᵢ : Mem} {q : Ptr} {k : Nat}, WritesUnder (t + 1) m mᵢ T (5 * (2 * n + 1)) → q.blk < t →
      mᵢ.val q k = m.val q k := fun W lt => W.val_eq (by lia) (Or.inl (by lia))
  have below : T.blk < t + 1 := by lia
  -- the differences
  rcases U : kdiffU u0 n u1 u1len T m with ⟨m₁, sU⟩
  obtain ⟨w₁, u⟩ := kdiffU_spec (d := T) uLe (zero 0 n) (by lia) (by lia) U
  have W₁ : WritesUnder (t + 1) m m₁ T (5 * (2 * n + 1)) := w₁.under.widen ⟨rfl, le_rfl, by lia⟩
  rcases V : kdiffV v0 v0len v1 v1len (T + (2 * n + 1)) m₁ with ⟨m₂, sV⟩
  simp only [U, V] at value
  obtain ⟨w₂, v⟩ := kdiffV_spec (d := T + (2 * n + 1)) vLe
    (by rw [w₁.val_eq (by simp only [Apart, Ptr.add_off]; lia)]; exact zero _ _)
    (by simp only [Ptr.add_blk]; lia) (by simp only [Ptr.add_blk]; lia) V
  have W₂ := W₁.trans (w₂.under.widen ⟨rfl, by simp, by simp only [Ptr.add_off]; lia⟩) below
  rw [keep W₁ blkV0, keep W₁ blkV1] at v
  have d₁ : m₂.val T n = m₁.val T n := w₂.val_eq (by simp only [Apart, Ptr.add_off]; lia)
  rw [← d₁] at u
  -- their product
  generalize third : mul (t + 1) T n (T + (2 * n + 1)) v0len (T + 2 * (2 * n + 1)) m₂ = m₃ at value
  obtain ⟨w₃, p₃⟩ : MulOk (t + 1) T n (T + (2 * n + 1)) v0len (T + 2 * (2 * n + 1)) m₂ m₃ := by
    rw [← third]
    refine muls _ _ _ _ _ _ _ less ⟨below, below, below, ?_, ?_, ?_⟩
    · simp only [Apart, Ptr.add_off]
      lia
    · simp only [Apart, Ptr.add_off]
      lia
    · rw [w₂.val_eq (by simp only [Apart, Ptr.add_off]; lia), w₁.val_eq (by simp only [Apart, Ptr.add_off]; lia)]
      exact zero _ _
  have W₃ := W₂.trans (w₃.widen ⟨rfl, by simp, by simp only [Ptr.add_off]; lia⟩) below
  generalize fourth : m₃.fill T (2 * (2 * n + 1)) 0 = m₄ at value
  have w₄ : Writes m₃ m₄ T (2 * (2 * n + 1)) := by
    rw [← fourth]
    exact fill_writes
  have W₄ := W₃.trans (w₄.under.widen ⟨rfl, le_rfl, by lia⟩) below
  have zero₄ : ∀ {i k : Nat}, i + k ≤ 2 * (2 * n + 1) → m₄.val (T + i) k = 0 := fun le => by
    rw [← fourth]
    exact fill_zero le
  -- the products of the high and of the low parts
  have fifth : ∃ m₅, (if v1len > 0 then mul (t + 1) u1 u1len v1 v1len (T + (2 * n + 1)) m₄ else m₄) = m₅ ∧
      WritesUnder (t + 1) m₄ m₅ (T + (2 * n + 1)) (u1len + v1len) ∧
      m.val u1 u1len * m.val v1 v1len = if decide (v1len > 0) then m₅.val (T + (2 * n + 1)) (u1len + v1len) else 0 := by
    refine ⟨_, rfl, ?_⟩
    split
    · rename_i some_
      obtain ⟨w₅, p₅⟩ := muls _ _ _ _ _ (T + (2 * n + 1)) m₄ less' ⟨Nat.lt_succ_of_lt blkU1, Nat.lt_succ_of_lt blkV1, below,
        Or.inl (by simp only [Ptr.add_blk]; lia), Or.inl (by simp only [Ptr.add_blk]; lia), zero₄ (by lia)⟩
      refine ⟨w₅, ?_⟩
      rw [if_pos (decide_eq_true some_), p₅, keep W₄ blkU1, keep W₄ blkV1]
    · rename_i none_
      obtain rfl : v1len = 0 := by lia
      exact ⟨Writes.refl.under, by simp [val]⟩
  obtain ⟨m₅, step₅, w₅, p₅⟩ := fifth
  rw [step₅] at value
  have W₅ := W₄.trans (w₅.widen ⟨rfl, by simp, by simp only [Ptr.add_off]; lia⟩) below
  generalize sixth : mul (t + 1) u0 n v0 v0len T m₅ = m₆ at value
  obtain ⟨w₆, p₆⟩ : MulOk (t + 1) u0 n v0 v0len T m₅ m₆ := by
    rw [← sixth]
    refine muls _ _ _ _ _ _ _ less ⟨Nat.lt_succ_of_lt blkU0, Nat.lt_succ_of_lt blkV0, below, Or.inl (by lia), Or.inl (by lia), ?_⟩
    rw [w₅.val_eq below (by simp only [Apart, Ptr.add_off]; lia)]
    exact zero₄ (i := 0) (by lia)
  have W₆ := W₅.trans (w₆.widen ⟨rfl, le_rfl, by lia⟩) below
  rw [keep W₅ blkU0, keep W₅ blkV0] at p₆
  have high : m₆.val (T + (2 * n + 1)) (u1len + v1len) = m₅.val (T + (2 * n + 1)) (u1len + v1len) :=
    w₆.val_eq below (by simp only [Apart, Ptr.add_off]; lia)
  rw [← high] at p₅
  have far : ∀ {k j : Nat}, 2 * (2 * n + 1) ≤ k → m₆.val (T + k) j = m₃.val (T + k) j := fun {k j} le => by
    rw [w₆.val_eq (p := T + k) below (by simp only [Apart, Ptr.add_off]; lia),
      w₅.val_eq (p := T + k) below (by simp only [Apart, Ptr.add_off]; lia),
      w₄.val_eq (by simp only [Apart, Ptr.add_off]; lia)]
  have middle : m₆.val (T + 2 * (2 * n + 1)) (n + v0len) = m₂.val T n * m₂.val (T + (2 * n + 1)) v0len :=
    (far le_rfl).trans p₃
  have zero₆ : m₆.val (T + 3 * (2 * n + 1)) (4 * n + 1 + 1) = 0 := by
    rw [far (by lia), w₃.val_eq (p := T + 3 * (2 * n + 1)) below (by simp only [Apart, Ptr.add_off]; lia),
      w₂.val_eq (by simp only [Apart, Ptr.add_off]; lia), w₁.val_eq (by simp only [Apart, Ptr.add_off]; lia)]
    exact zero _ _
  -- the sums
  have bound₀ : ∀ (q : Ptr) (k : Nat), k ≤ n → m.val q k < 2 ^ (32 * n) := fun q k le =>
    (val_lt m q k).trans_le (Nat.pow_le_pow_right (by decide) (by lia))
  have square : 2 ^ (32 * (2 * n)) = 2 ^ (32 * n) * 2 ^ (32 * n) := by
    rw [← pow_add]
    congr 1
    lia
  have power : 2 ^ (32 * (4 * n + 1)) = 2 ^ (32 * n) * 2 ^ (32 * n) * (2 ^ (32 * n) * 2 ^ (32 * n)) * 2 ^ 32 := by
    rw [← pow_add, ← pow_add, ← pow_add]
    congr 1
    lia
  have small := karatsuba_small (bound₀ u0 n le_rfl) (bound₀ u1 u1len uLe) (bound₀ v0 v0len vLe')
    (bound₀ v1 v1len (by lia))
  rw [← power, ← square, ← p₆] at small
  obtain ⟨minus, plus⟩ := karatsuba_middle (X := 2 ^ (32 * n)) u v
  rw [← square, ← p₆, ← middle] at minus plus
  obtain ⟨w₇, neg, pos⟩ := ksums_spec (by lia) (by lia) (by simp only [Apart, Ptr.add_off]; lia)
    (by simp only [Apart, Ptr.add_off]; lia) (by simp only [Apart, Ptr.add_off]; lia) zero₆ p₅ small
    (fun less => (minus less).1) value
  refine ⟨W₆.trans (w₇.under.widen ⟨rfl, by simp, by simp only [Ptr.add_off]; lia⟩) below, ?_⟩
  by_cases less : sU * sV < 0
  · exact Nat.add_right_cancel ((neg less).trans (minus less).2)
  · have sum := (pos less).trans (plus less)
    rw [val_of_lt, sum]
    rw [sum, power]
    have high := Nat.mul_lt_mul'' (pair_lt (bound₀ u0 n le_rfl) (bound₀ u1 u1len uLe))
      (pair_lt (bound₀ v0 v0len vLe') (bound₀ v1 v1len (by lia)))
    exact high.trans_le (Nat.le_mul_of_pos_right _ (by decide))

theorem mpkaratsuba_spec {mul : Nat → Ptr → Nat → Ptr → Nat → Ptr → Mem → Mem} (muls : MulUpTo (alen + blen) mul)
    (args : MulArgs t a alen b blen p m) (le : blen ≤ alen) (two : 2 ≤ alen) :
    MulOk t a alen b blen p m (mpkaratsuba mul t a alen b blen p m) := by
  obtain ⟨blkA, blkB, blkP, apartA, apartB, zero⟩ := args
  unfold mpkaratsuba
  dsimp only
  generalize half : alen / 2 + alen % 2 = n
  obtain ⟨u1len, sizeA⟩ : ∃ u1len, alen = n + u1len := ⟨alen - n, by lia⟩
  subst sizeA
  rw [Nat.add_sub_cancel_left]
  have lens : ∃ v0len v1len, (if blen > n then n else blen) = v0len ∧ (if blen > n then blen - n else 0) = v1len ∧
      blen = v0len + v1len ∧ v0len ≤ n ∧ (v0len = n ∨ v1len = 0) := by
    split
    · exact ⟨n, blen - n, rfl, rfl, by lia, le_rfl, Or.inl rfl⟩
    · exact ⟨blen, 0, rfl, rfl, rfl, by lia, Or.inr rfl⟩
  obtain ⟨v0len, v1len, len₀, len₁, sizeB, short, whole⟩ := lens
  subst sizeB
  rw [len₀, len₁]
  generalize area : (⟨t, 0⟩ : Ptr) = T
  generalize made : m.mallocz t (5 * (2 * n + 1)) = m₀
  generalize work : kproduct mul t n a n (a + n) u1len b v0len (b + v0len) v1len m₀ = m₁
  have zero₀ : ∀ k j : Nat, m₀.val (T + k) j = 0 := fun k j => by
    rw [← made, ← area]
    exact mallocz_zero rfl
  have keep : ∀ {q : Ptr} {k : Nat}, q.blk < t → m₀.val q k = m.val q k := fun lt => by
    rw [← made]
    exact mallocz_val (Nat.ne_of_lt lt)
  obtain ⟨writes, product⟩ := kproduct_spec muls area.symm (by lia) (by lia) short (by lia) (by lia) blkA
    (show (a + n).blk < t from blkA) blkB (show (b + v0len).blk < t from blkB) zero₀ work
  have blkT : T.blk = t := by rw [← area]
  rw [keep (show (a + n).blk < t from blkA), keep (show (b + v0len).blk < t from blkB), keep blkA, keep blkB, ← val_add] at product
  have whole' : m.val b v0len + 2 ^ (32 * n) * m.val (b + v0len) v1len = m.val b (v0len + v1len) := by
    rcases whole with rfl | rfl
    · rw [← val_add]
    · simp [val]
  rw [whole'] at product
  have digits : m.val a (n + u1len) * m.val b (v0len + v1len) < 2 ^ (32 * (n + u1len + (v0len + v1len))) := by
    rw [Nat.mul_add, pow_add]
    exact Nat.mul_lt_mul'' (val_lt ..) (val_lt ..)
  obtain ⟨k, more⟩ : ∃ k, 4 * n + 1 = n + u1len + (v0len + v1len) + k := ⟨4 * n + 1 - (n + u1len + (v0len + v1len)), by lia⟩
  rw [more] at product
  have kept : ∀ q : Ptr, q.blk < t → m₁.word q = m.word q := fun q lt => by
    rw [writes.word q (by lia) (Or.inl (by lia)), ← made]
    exact if_neg (Nat.ne_of_lt lt)
  have sizes : ∀ b < t, m₁.size b = m.size b := fun b lt => by
    rw [writes.size b (by lia), ← made]
    exact Function.update_of_ne (Nat.ne_of_lt lt) ..
  have safe : m₁.ok = m.ok := by
    rw [writes.ok, ← made]
    · rfl
    · rw [← made, ← area]
      simp [mallocz]
  have moved : Writes m₁ (m₁.move p (T + 3 * (2 * n + 1)) (n + u1len + (v0len + v1len))) p (n + u1len + (v0len + v1len)) :=
    move_writes
  refine ⟨⟨fun q lt off => ?_, fun b lt => ?_, fun room => ?_⟩, ?_⟩
  · exact (moved.word q off).trans (kept q lt)
  · exact (Function.update_of_ne (Nat.ne_of_lt lt) ..).trans (sizes b lt)
  · exact (moved.ok (by rw [sizes _ blkP]; exact room)).trans safe
  · have freed : ∀ (m : Mem) (q : Ptr) (k : Nat), (m.free t).val q k = m.val q k := fun _ _ _ => val_congr fun _ _ => rfl
    exact (freed ..).trans (move_val.trans ((val_of_lt (by rw [product]; exact digits)).trans product))

theorem mpvecmulFuel_spec (fuel : Nat) : MulUpTo fuel (mpvecmulFuel fuel) := by
  induction fuel with
  | zero => exact fun _ _ _ _ _ _ _ less => absurd less (Nat.not_lt_zero _)
  | succ fuel ih =>
    -- `a` is the longer one
    have sorted : ∀ (t alen blen : Nat) (a b p : Ptr) (m : Mem), blen ≤ alen → alen + blen < fuel + 1 →
        MulArgs t a alen b blen p m → MulOk t a alen b blen p m (if blen = 0 then m.fill p (alen + blen) 0
          else if alen ≥ karatsubamin ∧ blen > 1 then mpkaratsuba (mpvecmulFuel fuel) t a alen b blen p m
          else mulLoop a alen blen b p m) := by
      intro t alen blen a b p m le less args
      split
      · rename_i none_
        subst none_
        exact ⟨fill_writes.under, (fill_zero (i := 0) (by omega)).trans (by simp [val])⟩
      · split
        · rename_i long
          have many : 32 ≤ alen := long.1
          exact mpkaratsuba_spec (fun t alen' blen' a b p m less' => ih t alen' blen' a b p m (by omega)) args le (by omega)
        · exact mulLoop_ok args
    intro t alen blen a b p m less args
    unfold mpvecmulFuel
    by_cases shorter : alen < blen
    · simp only [if_pos shorter]
      exact (sorted t blen alen b a p m shorter.le (by omega) args.swap).swap
    · simp only [if_neg shorter]
      exact sorted t alen blen a b p m (by omega) less args

theorem mpvecmul_spec (args : MulArgs t a alen b blen p m) : MulOk t a alen b blen p m (mpvecmul t a alen b blen p m) :=
  mpvecmulFuel_spec _ t alen blen a b p m (Nat.lt_succ_self _) args

end Inferno.Mp
