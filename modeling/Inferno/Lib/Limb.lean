import Mathlib

namespace Inferno.Lib

/-- A place in memory: a block, and the number of a word in it. -/
structure Ptr where
  blk : Nat
  off : Nat
deriving DecidableEq

namespace Ptr

instance : HAdd Ptr Nat Ptr := ⟨fun p n => ⟨p.blk, p.off + n⟩⟩

variable (p : Ptr) (m n : Nat)

@[simp] theorem add_blk : (p + n).blk = p.blk := rfl

@[simp] theorem add_off : (p + n).off = p.off + n := rfl

@[simp] theorem add_zero : p + 0 = p := rfl

theorem add_add : p + m + n = p + (m + n) := by
  cases p
  simp only [HAdd.hAdd, Add.add, Ptr.mk.injEq, true_and]
  exact Nat.add_assoc ..

end Ptr

/-- Blocks of words. `ok` is false once a word was written that is not in its block. -/
structure Mem where
  word : Ptr → UInt32
  size : Nat → Nat
  ok : Bool

namespace Mem

def set (m : Mem) (p : Ptr) (x : UInt32) : Mem :=
  { m with word := Function.update m.word p x, ok := m.ok && p.off < m.size p.blk }

/-- The `n` words from `p` on become `f 0`, `f 1`, ... -/
def put (m : Mem) (p : Ptr) (n : Nat) (f : Nat → UInt32) : Mem :=
  { m with
    word := fun r => if r.blk = p.blk ∧ p.off ≤ r.off ∧ r.off < p.off + n then f (r.off - p.off) else m.word r
    ok := m.ok && p.off + n ≤ m.size p.blk }

/-- Block `t` becomes one of `n` words that are 0. -/
def mallocz (m : Mem) (t n : Nat) : Mem :=
  { m with word := fun q => if q.blk = t then 0 else m.word q, size := Function.update m.size t n }

def free (m : Mem) (t : Nat) : Mem := { m with size := Function.update m.size t 0 }

def fill (m : Mem) (p : Ptr) (n : Nat) (x : UInt32) : Mem := m.put p n fun _ => x

/-- The `n` words from `p` on become those that were at `q`. -/
def move (m : Mem) (p q : Ptr) (n : Nat) : Mem := m.put p n fun i => m.word (q + i)

/-- The words of block `b` go to the new block `t` of `n` words, as many as it takes. -/
def realloc (m : Mem) (b t n : Nat) : Mem :=
  { m with size := Function.update (Function.update m.size b 0) t n }.move ⟨t, 0⟩ ⟨b, 0⟩ (min (m.size b) n)

/-- The number that the `n` words from `p` on are, the lowest first. -/
def val (m : Mem) (p : Ptr) : Nat → Nat
  | 0 => 0
  | n + 1 => (m.word p).toNat + 2 ^ 32 * m.val (p + 1) n

/-- The words from `p` on, `n` of them, are the only ones that may differ, and were written within their block. -/
structure Writes (m m' : Mem) (p : Ptr) (n : Nat) : Prop where
  word : ∀ q : Ptr, q.blk ≠ p.blk ∨ q.off < p.off ∨ p.off + n ≤ q.off → m'.word q = m.word q
  size : m'.size = m.size
  ok : p.off + n ≤ m.size p.blk → m'.ok = m.ok

/-- The same of the blocks below `t`; the others are free to be used meanwhile. -/
structure WritesUnder (t : Nat) (m m' : Mem) (p : Ptr) (n : Nat) : Prop where
  word : ∀ q : Ptr, q.blk < t → q.blk ≠ p.blk ∨ q.off < p.off ∨ p.off + n ≤ q.off → m'.word q = m.word q
  size : ∀ b < t, m'.size b = m.size b
  ok : p.off + n ≤ m.size p.blk → m'.ok = m.ok

/-- The `n` words from `p` on are none of the `k` from `q` on. -/
def Apart (p : Ptr) (n : Nat) (q : Ptr) (k : Nat) : Prop := p.blk ≠ q.blk ∨ p.off + n ≤ q.off ∨ q.off + k ≤ p.off

/-- Words written one after the other from `p` on leave alone those of the `n` from `q` on that are read later. -/
def Ahead (p q : Ptr) (n : Nat) : Prop := q.blk ≠ p.blk ∨ p.off ≤ q.off ∨ q.off + n ≤ p.off

variable {m m' m'' : Mem} {p q : Ptr} {n k : Nat} {x : UInt32}

namespace Writes

theorem refl : Writes m m p n := ⟨fun _ _ => rfl, rfl, fun _ => rfl⟩

theorem set (inside : p.blk = q.blk ∧ p.off ≤ q.off ∧ q.off < p.off + n) : Writes m (m.set q x) p n where
  word r off := by
    refine Function.update_of_ne (fun same => ?_) _ _
    subst same
    obtain ⟨same, low, high⟩ := inside
    rcases off with off | off | off
    · exact off same.symm
    · omega
    · omega
  size := rfl
  ok room := by
    obtain ⟨same, low, high⟩ := inside
    have inBlock : q.off < m.size q.blk := by
      rw [← same]
      omega
    simp [Mem.set, inBlock]

theorem trans (first : Writes m m' p n) (second : Writes m' m'' p n) : Writes m m'' p n where
  word q off := (second.word q off).trans (first.word q off)
  size := second.size.trans first.size
  ok room := (second.ok (by rw [first.size]; exact room)).trans (first.ok room)

theorem widen (inner : Writes m m' q k) (inside : q.blk = p.blk ∧ p.off ≤ q.off ∧ q.off + k ≤ p.off + n) : Writes m m' p n where
  word r off := inner.word r (by
    obtain ⟨same, low, high⟩ := inside
    rw [same]
    omega)
  size := inner.size
  ok room := inner.ok (by
    obtain ⟨same, low, high⟩ := inside
    rw [same]
    omega)

end Writes

theorem Writes.under {t : Nat} (writes : Writes m m' p n) : WritesUnder t m m' p n :=
  ⟨fun q _ => writes.word q, fun b _ => congrFun writes.size b, writes.ok⟩

namespace WritesUnder

variable {t : Nat}

theorem trans (first : WritesUnder t m m' p n) (second : WritesUnder t m' m'' p n) (below : p.blk < t) :
    WritesUnder t m m'' p n where
  word q under off := (second.word q under off).trans (first.word q under off)
  size b under := (second.size b under).trans (first.size b under)
  ok room := (second.ok (by rw [first.size _ below]; exact room)).trans (first.ok room)

theorem widen (inner : WritesUnder t m m' q k) (inside : q.blk = p.blk ∧ p.off ≤ q.off ∧ q.off + k ≤ p.off + n) :
    WritesUnder t m m' p n where
  word r under off := inner.word r under (by
    obtain ⟨same, low, high⟩ := inside
    rw [same]
    omega)
  size := inner.size
  ok room := inner.ok (by
    obtain ⟨same, low, high⟩ := inside
    rw [same]
    omega)

end WritesUnder

theorem val_cons (m : Mem) (p : Ptr) (n : Nat) : m.val p (n + 1) = (m.word p).toNat + 2 ^ 32 * m.val (p + 1) n := rfl

theorem val_add (m : Mem) (p : Ptr) (n k : Nat) : m.val p (n + k) = m.val p n + 2 ^ (32 * n) * m.val (p + n) k := by
  induction n generalizing p with
  | zero => simp [val]
  | succ n ih =>
    rw [Nat.succ_add]
    simp only [val, ih, Ptr.add_add]
    rw [Nat.add_comm 1 n, Nat.mul_succ, Nat.add_comm (32 * n) 32, pow_add]
    ring

theorem val_one (m : Mem) (p : Ptr) : m.val p 1 = (m.word p).toNat := by
  simp [val]

theorem val_succ (m : Mem) (p : Ptr) (n : Nat) : m.val p (n + 1) = m.val p n + 2 ^ (32 * n) * (m.word (p + n)).toNat := by
  rw [val_add, val_one]

theorem val_words (same : ∀ i < n, m'.word (p + i) = m.word (q + i)) : m'.val p n = m.val q n := by
  induction n with
  | zero => rfl
  | succ n ih => rw [val_succ, val_succ, ih fun i less => same i (by omega), same n (Nat.lt_succ_self n)]

theorem val_congr (same : ∀ i < n, m'.word (p + i) = m.word (p + i)) : m'.val p n = m.val p n := val_words same

/-- Words are not changed by writes elsewhere. -/
theorem Writes.val_eq (writes : Writes m m' q k) (apart : Apart p n q k) : m'.val p n = m.val p n := by
  refine val_congr fun i less => writes.word _ ?_
  simp only [Ptr.add_blk, Ptr.add_off]
  unfold Apart at apart
  omega

theorem WritesUnder.val_eq {t : Nat} (writes : WritesUnder t m m' q k) (below : p.blk < t) (apart : Apart p n q k) :
    m'.val p n = m.val p n := by
  refine val_congr fun i less => writes.word _ below ?_
  simp only [Ptr.add_blk, Ptr.add_off]
  unfold Apart at apart
  omega

theorem Ahead.step (ahead : Ahead p q (n + 1)) : Ahead (p + 1) (q + 1) n := by
  unfold Ahead at ahead ⊢
  simp only [Ptr.add_blk, Ptr.add_off]
  omega

theorem Ahead.rest (ahead : Ahead p q (k + n)) : Ahead (p + k) (q + k) n := by
  unfold Ahead at ahead ⊢
  simp only [Ptr.add_blk, Ptr.add_off]
  omega

theorem Ahead.apart (ahead : Ahead p q (k + n)) : Apart (q + k) n p k := by
  unfold Ahead at ahead
  unfold Apart
  simp only [Ptr.add_blk, Ptr.add_off]
  omega

theorem Ahead.val_set (ahead : Ahead p q (n + 1)) : (m.set p x).val (q + 1) n = m.val (q + 1) n := by
  refine Writes.val_eq (Writes.set (p := p) (n := 1) ⟨rfl, le_rfl, Nat.lt_succ_self _⟩) ?_
  unfold Ahead at ahead
  unfold Apart
  simp only [Ptr.add_blk, Ptr.add_off]
  omega

theorem Ahead.of_apart (apart : Apart q n p k) (le : n ≤ k) : Ahead p q n := by
  unfold Apart at apart
  unfold Ahead
  omega

theorem Ahead.self : Ahead p p n := Or.inr (Or.inl le_rfl)

theorem set_self : (m.set p x).word p = x := Function.update_self ..

/-- One word, and then the others. -/
theorem Writes.cons (rest : Writes (m.set p x) m' (p + 1) n) : Writes m m' p (n + 1) ∧ m'.word p = x := by
  have first : Writes m (m.set p x) p (n + 1) := Writes.set ⟨rfl, le_rfl, Nat.lt_add_of_pos_right (Nat.succ_pos n)⟩
  have later : p.off < (p + 1).off := Nat.lt_succ_self _
  refine ⟨first.trans (rest.widen ⟨rfl, later.le, ?_⟩), (rest.word p (Or.inr (Or.inl later))).trans set_self⟩
  rw [Ptr.add_off]
  omega

theorem val_lt (m : Mem) (p : Ptr) (n : Nat) : m.val p n < 2 ^ (32 * n) := by
  induction n generalizing p with
  | zero => exact Nat.one_pos
  | succ n ih =>
    have low := (m.word p).toNat_lt
    have high := ih (p + 1)
    have power : 2 ^ (32 * (n + 1)) = 2 ^ 32 * 2 ^ (32 * n) := by rw [Nat.mul_succ, Nat.add_comm, pow_add]
    rw [power]
    simp only [val]
    omega

/-- The words above are 0 if the number is small. -/
theorem val_of_lt (less : m.val p (n + k) < 2 ^ (32 * n)) : m.val p n = m.val p (n + k) := by
  rw [val_add] at less ⊢
  rcases Nat.eq_zero_or_pos (m.val (p + n) k) with zero | some_
  · rw [zero, Nat.mul_zero, Nat.add_zero]
  · have big := Nat.mul_le_mul_left (2 ^ (32 * n)) some_
    omega

theorem val_zero (zero : ∀ i < n, m.word (p + i) = 0) : m.val p n = 0 := by
  induction n with
  | zero => rfl
  | succ n ih => simp [val_succ, ih fun i less => zero i (by omega), zero n (by omega)]

theorem put_writes {f : Nat → UInt32} : Writes m (m.put p n f) p n where
  word q off := if_neg fun ⟨same, low, high⟩ => by omega
  size := rfl
  ok room := by simp [put, room]

theorem put_word {f : Nat → UInt32} {i : Nat} (less : i < n) : (m.put p n f).word (p + i) = f i := by
  have inside : (p + i).blk = p.blk ∧ p.off ≤ (p + i).off ∧ (p + i).off < p.off + n :=
    ⟨rfl, Nat.le_add_right .., Nat.add_lt_add_left less _⟩
  exact (if_pos inside).trans (congrArg f (Nat.add_sub_cancel_left ..))

theorem fill_writes : Writes m (m.fill p n x) p n := put_writes

theorem fill_word {i : Nat} (low : k ≤ i) (high : i < k + n) : (m.fill (p + k) n x).word (p + i) = x := by
  obtain ⟨j, rfl⟩ := Nat.exists_eq_add_of_le low
  rw [← Ptr.add_add]
  exact put_word (by omega)

theorem fill_zero {i : Nat} (le : i + k ≤ n) : (m.fill p n 0).val (p + i) k = 0 := val_zero fun j less => by
  rw [Ptr.add_add]
  exact put_word (by omega)

theorem move_writes : Writes m (m.move p q n) p n := put_writes

theorem move_val : (m.move p q n).val p n = m.val q n := val_words fun _ less => put_word less

theorem realloc_word {b t i : Nat} (less : i < min (m.size b) n) :
    (m.realloc b t n).word ((⟨t, 0⟩ : Ptr) + i) = m.word ((⟨b, 0⟩ : Ptr) + i) := by
  unfold realloc move
  exact put_word less

end Mem

end Inferno.Lib
