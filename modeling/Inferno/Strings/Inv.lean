import Inferno.Lib.Raise
import Inferno.Strings.Ops

namespace Inferno.Strings

open Lib

variable {s : State} {p : Nat} {x y : Str} {bytes : List UInt8}

theorem int_of_lt {n : Int} (pos : 0 ≤ n) (less : n < 2 ^ 31) : int n = n := by
  simp only [int, Int.bmod_def]
  omega

theorem u32_of_lt {n : Int} (pos : 0 ≤ n) (less : n < 2 ^ 32) : (u32 n : Int) = n := by
  simp only [u32]
  omega

/-- A string that is represented as its `len` tells, inside its block. -/
structure Str.Ok (x : Str) : Prop where
  ascii : 0 ≤ x.len → x.len ≤ x.size ∧ x.max ≤ x.size ∧ ∀ i : Nat, (i : Int) < x.len → (x.data i).toNat < 0x80
  runes : x.len < 0 → -x.len * sizeofRune ≤ x.size ∧ x.max * sizeofRune ≤ x.size

/-- `Ok` with the bounds that the operations keep. -/
structure Str.Good (x : Str) : Prop where
  room : sizeofHeap + offData ≤ x.msize
  small : x.msize < 2 ^ 30 + 2 ^ 16
  ascii : 0 ≤ x.len → x.len ≤ x.max ∧ x.max ≤ x.size ∧ ∀ i : Nat, (i : Int) < x.len → (x.data i).toNat < 0x80
  runes : x.len < 0 → -x.len ≤ x.max ∧ x.max * sizeofRune ≤ x.size

theorem Str.Good.ok (good : x.Good) : x.Ok := by
  refine ⟨fun pos => ?_, fun neg => ?_⟩
  · obtain ⟨used, most, low⟩ := good.ascii pos
    exact ⟨by omega, most, low⟩
  · obtain ⟨used, most⟩ := good.runes neg
    simp only [sizeofRune] at most ⊢
    exact ⟨by omega, most⟩

theorem Str.Good.size_lt (good : x.Good) : x.size < 2 ^ 30 + 2 ^ 16 - 56 := by
  have room := good.room
  have small := good.small
  simp only [Str.size, sizeofHeap, offData] at room ⊢
  omega

/-- The strings are good, and as many pointers to one as its `ref` are enough to keep it. -/
structure State.Inv (s : State) : Prop where
  inside : s.overran = false
  good : ∀ p x, s.heap p = some x → x.Good
  fresh : ∀ p, s.next ≤ p → s.heap p = none
  held : ∀ p, some p ∈ s.slots → s.heap p ≠ none
  counted : ∀ p x, s.heap p = some x → s.slots.count (some p) ≤ x.ref

/-- What the heap promises about a block of `asked` bytes. -/
def Lawful (pool : Nat → Nat → Option Block) : Prop :=
  ∀ n asked b, pool n asked = some b → asked < 2 ^ 30 ∧ asked ≤ b.msize ∧ b.msize < asked + 2 ^ 16

namespace State

@[simp] theorem heap_set (s : State) (p : Nat) (x : Str) : (s.set p x).heap p = some x := Function.update_self ..

theorem heap_set_ne {q : Nat} (other : q ≠ p) (s : State) (x : Str) : (s.set p x).heap q = s.heap q :=
  Function.update_of_ne other ..

@[simp] theorem set_set (s : State) (p : Nat) (x y : Str) : (s.set p x).set p y = s.set p y := by
  simp only [set, Function.update_idem]

@[simp] theorem set_next (s : State) (p : Nat) (x : Str) : (s.set p x).next = s.next := rfl
@[simp] theorem set_slots (s : State) (p : Nat) (x : Str) : (s.set p x).slots = s.slots := rfl
@[simp] theorem heap_skip (s : State) : s.skip.heap = s.heap := rfl
@[simp] theorem skip_slots (s : State) : s.skip.slots = s.slots := rfl
@[simp] theorem skip_next (s : State) : s.skip.next = s.next + 1 := rfl

@[simp] theorem spoil_false (s : State) : s.spoil false = s := by
  simp only [spoil, Bool.or_false]

namespace Inv

theorem skip (inv : s.Inv) : s.skip.Inv :=
  ⟨inv.inside, inv.good, fun p le => inv.fresh p (Nat.le_of_succ_le le), inv.held, inv.counted⟩

theorem lt_next (inv : s.Inv) (here : s.heap p = some x) : p < s.next := by
  by_contra le
  rw [inv.fresh p (by omega)] at here
  nomatch here

theorem set (inv : s.Inv) (below : p < s.next) (good : y.Good) (counted : s.slots.count (some p) ≤ y.ref) :
    (s.set p y).Inv := by
  refine ⟨inv.inside, fun q z here => ?_, fun q le => ?_, fun q held => ?_, fun q z here => ?_⟩
  · by_cases same : q = p
    · rw [same, heap_set, Option.some.injEq] at here
      exact here ▸ good
    · rw [heap_set_ne same] at here
      exact inv.good q z here
  · rw [set_next] at le
    rw [heap_set_ne (by omega)]
    exact inv.fresh q le
  · by_cases same : q = p
    · rw [same, heap_set]
      exact Option.some_ne_none y
    · rw [heap_set_ne same]
      exact inv.held q held
  · by_cases same : q = p
    · rw [same, heap_set, Option.some.injEq] at here
      rw [same, ← here]
      exact counted
    · rw [heap_set_ne same] at here
      exact inv.counted q z here

/-- A string is replaced by one with as many references. -/
theorem replace (inv : s.Inv) (here : s.heap p = some x) (good : y.Good) (ref : y.ref = x.ref) : (s.set p y).Inv :=
  inv.set (inv.lt_next here) good (ref ▸ inv.counted p x here)

theorem count_next (inv : s.Inv) : s.slots.count (some s.next) = 0 := by
  rw [List.count_eq_zero]
  exact fun held => inv.held _ held (inv.fresh _ (Nat.le_refl _))

/-- A new string. -/
theorem alloc (inv : s.Inv) (good : y.Good) : (s.skip.set s.next y).Inv := by
  refine inv.skip.set (Nat.lt_succ_self _) good ?_
  rw [skip_slots, inv.count_next]
  exact Nat.zero_le _

end Inv

end State

end Inferno.Strings
