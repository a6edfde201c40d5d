import Mathlib

namespace Inferno.Lib

/-- Byte memory, addressed from the start of a buffer. -/
abbrev ByteMem := Nat → UInt8

/-- A memory and the position of a pass over it. -/
structure Cursor where
  mem : ByteMem
  p : Nat

/-- A pass over a buffer. It may write to the memory and may give up; the
memory it leaves behind is part of the result in both cases. -/
def Dec (α : Type) : Type := Cursor → Option α × Cursor

namespace Dec

variable {α β : Type}

def pure (a : α) : Dec α := fun c => (some a, c)

def fail : Dec α := fun c => (none, c)

def bind (d : Dec α) (k : α → Dec β) : Dec β := fun c =>
  match d c with
  | (some a, c) => k a c
  | (none, c) => (none, c)

instance : Monad Dec where
  pure := pure
  bind := bind

end Dec

/-- The `n` bytes from `p` on. -/
def readBytes (mem : ByteMem) (p : Nat) : Nat → List UInt8
  | 0 => []
  | n + 1 => mem p :: readBytes mem (p + 1) n

/-- Little-endian bytes of a number, and back. -/
def leBytes : Nat → Nat → List UInt8
  | 0, _ => []
  | n + 1, v => UInt8.ofNat v :: leBytes n (v / 256)

def leNat : List UInt8 → Nat
  | [] => 0
  | b :: bytes => b.toNat + 256 * leNat bytes

/-- Take the next `n` bytes. -/
def next (n : Nat) : Dec (List UInt8) := fun c => (some (readBytes c.mem c.p n), ⟨c.mem, c.p + n⟩)

/-- Give up unless `n` more bytes lie before `ep`. -/
def need (ep n : Nat) : Dec Unit := fun c => if c.p + n > ep then (none, c) else (some (), c)

/-- The memory holds `bytes` at `p`. -/
def Holds (mem : ByteMem) (p : Nat) : List UInt8 → Prop
  | [] => True
  | b :: bytes => mem p = b ∧ Holds mem (p + 1) bytes

/-- A pass that consumes exactly `bytes`, writes nowhere else and ends with a
value that stands in relation `R` to every memory that agrees with the
one left behind on the consumed range. -/
def Decodes {α : Type} (ep : Nat) (d : Dec α) (bytes : List UInt8) (R : α → ByteMem → Prop) : Prop :=
  ∀ c : Cursor, Holds c.mem c.p bytes → c.p + bytes.length ≤ ep →
    ∃ a mem, d c = (some a, ⟨mem, c.p + bytes.length⟩) ∧
      (∀ q, q < c.p ∨ c.p + bytes.length ≤ q → mem q = c.mem q) ∧
      ∀ later : ByteMem, (∀ q, c.p ≤ q → q < c.p + bytes.length → later q = mem q) → R a later

@[simp] theorem length_readBytes (mem : ByteMem) (p n : Nat) : (readBytes mem p n).length = n := by
  induction n generalizing p with
  | zero => rfl
  | succ n ih => simp only [readBytes, List.length_cons, ih]

@[simp] theorem length_leBytes (n v : Nat) : (leBytes n v).length = n := by
  induction n generalizing v with
  | zero => rfl
  | succ n ih => simp only [leBytes, List.length_cons, ih]

theorem leNat_leBytes (n v : Nat) : leNat (leBytes n v) = v % 256 ^ n := by
  induction n generalizing v with
  | zero => simp only [leBytes, leNat, pow_zero, Nat.mod_one]
  | succ n ih =>
    have digit : (UInt8.ofNat v).toNat = v % 256 := by simp only [UInt8.toNat_ofNat']
    rw [leBytes, leNat, ih, digit, pow_succ, mul_comm (256 ^ n), Nat.mod_mul]

theorem holds_append {mem : ByteMem} {p : Nat} {xs ys : List UInt8} :
    Holds mem p (xs ++ ys) ↔ Holds mem p xs ∧ Holds mem (p + xs.length) ys := by
  induction xs generalizing p with
  | nil => simp only [List.nil_append, Holds, true_and, List.length_nil, Nat.add_zero]
  | cons x xs ih =>
    have shift : p + (x :: xs).length = p + 1 + xs.length := by rw [List.length_cons]; omega
    rw [List.cons_append, Holds, Holds, ih, shift, and_assoc]

theorem Holds.congr {mem other : ByteMem} {p : Nat} {bytes : List UInt8} (holds : Holds mem p bytes)
    (same : ∀ q, p ≤ q → q < p + bytes.length → other q = mem q) : Holds other p bytes := by
  induction bytes generalizing p with
  | nil => trivial
  | cons b bytes ih =>
    rw [List.length_cons] at same
    refine ⟨(same p le_rfl (by omega)).trans holds.1, ih holds.2 fun q lower upper => ?_⟩
    exact same q (by omega) (by omega)

theorem readBytes_of_holds {mem : ByteMem} {p : Nat} {bytes : List UInt8} (holds : Holds mem p bytes) :
    readBytes mem p bytes.length = bytes := by
  induction bytes generalizing p with
  | nil => rfl
  | cons b bytes ih => rw [List.length_cons, readBytes, holds.1, ih holds.2]

section Rules

variable {α β : Type} {ep : Nat} {bytes more : List UInt8}

theorem Decodes.pure {a : α} {R : α → ByteMem → Prop} (here : ∀ mem, R a mem) :
    Decodes ep (Pure.pure a) [] R := by
  intro c _ _
  exact ⟨a, c.mem, rfl, fun _ _ => rfl, fun later _ => here later⟩

/-- Sequencing when the rest needs to know what the first part returned. -/
theorem Decodes.bind {d : Dec α} {k : α → Dec β} {P : α → ByteMem → Prop} {R : β → ByteMem → Prop}
    (first : Decodes ep d bytes P)
    (rest : ∀ a, (∃ mem, P a mem) → Decodes ep (k a) more fun b mem => P a mem → R b mem) :
    Decodes ep (d >>= k) (bytes ++ more) R := by
  intro c holds room
  rw [List.length_append] at room ⊢
  obtain ⟨holdsFirst, holdsRest⟩ := holds_append.mp holds
  obtain ⟨a, mem, ran, kept, good⟩ := first c holdsFirst (by omega)
  have holdsNext : Holds mem (c.p + bytes.length) more :=
    holdsRest.congr fun q lower _ => kept q (Or.inr lower)
  obtain ⟨b, final, ranRest, keptRest, goodRest⟩ :=
    rest a ⟨mem, good mem fun _ _ _ => rfl⟩ ⟨mem, c.p + bytes.length⟩ holdsNext (by dsimp only; omega)
  dsimp only at ranRest keptRest goodRest
  rw [Nat.add_assoc] at ranRest keptRest goodRest
  refine ⟨b, final, ?_, fun q outside => ?_, fun later agrees => ?_⟩
  · change Dec.bind d k c = _
    rw [Dec.bind, ran]
    exact ranRest
  · rw [keptRest q (by omega), kept q (by omega)]
  · refine goodRest later (fun q lower upper => agrees q (by omega) upper) (good later fun q lower upper => ?_)
    rw [agrees q lower (by omega), keptRest q (Or.inl upper)]

/-- Sequencing after a part that returns a known value. -/
theorem Decodes.bind_eq {d : Dec α} {k : α → Dec β} {v : α} {R : β → ByteMem → Prop}
    (first : Decodes ep d bytes fun a _ => a = v) (rest : Decodes ep (k v) more R) :
    Decodes ep (d >>= k) (bytes ++ more) R := by
  refine Decodes.bind first ?_
  rintro a ⟨_, rfl⟩ c holds room
  obtain ⟨b, mem, ran, kept, good⟩ := rest c holds room
  exact ⟨b, mem, ran, kept, fun later agrees _ => good later agrees⟩

theorem Decodes.need {n : Nat} {k : Unit → Dec β} {R : β → ByteMem → Prop} (enough : n ≤ bytes.length)
    (rest : Decodes ep (k ()) bytes R) : Decodes ep (need ep n >>= k) bytes R := by
  intro c holds room
  have within : ¬ c.p + n > ep := by omega
  have ran : (Lib.need ep n >>= k) c = k () c := by
    change Dec.bind (Lib.need ep n) k c = _
    rw [Dec.bind, Lib.need, if_neg within]
  rw [ran]
  exact rest c holds room

theorem Decodes.next (bytes : List UInt8) : Decodes ep (next bytes.length) bytes fun a _ => a = bytes := by
  intro c holds _
  refine ⟨bytes, c.mem, ?_, fun _ _ => rfl, fun _ _ => rfl⟩
  rw [Lib.next, readBytes_of_holds holds]

/-- A decoder's result depends only on what it does. -/
theorem Decodes.congr {d : Dec α} {R S : α → ByteMem → Prop} (decodes : Decodes ep d bytes R)
    (imp : ∀ a mem, R a mem → S a mem) : Decodes ep d bytes S := by
  intro c holds room
  obtain ⟨a, mem, ran, kept, good⟩ := decodes c holds room
  exact ⟨a, mem, ran, kept, fun later agrees => imp a later (good later agrees)⟩

end Rules

end Inferno.Lib
