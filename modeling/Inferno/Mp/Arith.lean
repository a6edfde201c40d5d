import Inferno.Mp.Trunc
import Inferno.Mp.Mpmul

namespace Inferno.Mp

open Lib Mem Store

/-- The object `res` becomes the integer `x`, and no other object changes. -/
structure Store.Stores (s s' : Store) (res : Nat) (x : Int) : Prop where
  frame : Frame (· = res) s s'
  int : s'.int res = x

/-- An object that has no flag, and so is not a static one. -/
def Store.Plain (s : Store) (b : Nat) : Prop := (s.obj b).flags = false

instance (s : Store) (b : Nat) : Decidable (s.Plain b) := inferInstanceAs (Decidable (_ = _))

/-- The static objects 0 and 1, and after them the object `b` of one digit, for each of `xs`. -/
def Store.withStatics (xs : List (Int × UInt32)) : Store :=
  let s := Store.ofDigits ((1, 0) :: (1, 1) :: xs)
  { s with obj := fun b => { s.obj b with top := if b = 0 then 0 else 1, flags := b < 2 } }

theorem Store.withStatics_ok (xs : List (Int × UInt32)) : (Store.withStatics xs).Ok :=
  have ok := Store.ofDigits_ok ((1, 0) :: (1, 1) :: xs)
  ⟨ok.below, ok.apart, ok.size, fun b _ => by
    change (if b = 0 then 0 else 1) ≤ 1
    split <;> omega, ok.room, ok.digits, ok.safe, ok.going⟩

theorem Store.withStatics_statics (xs : List (Int × UInt32)) : (Store.withStatics xs).Statics 0 1 :=
  have live (b : Nat) (less : b < xs.length + 2) : (Store.withStatics xs).live b := decide_eq_true less
  ⟨⟨live 0 (by omega), rfl, rfl, rfl⟩, ⟨live 1 (by omega), rfl, rfl, rfl⟩, rfl⟩

/-- An object of `withStatics` is a number if its digit is not 0. -/
theorem Store.withStatics_number (xs : List (Int × UInt32)) {i : Nat} {sign : Int} {x : UInt32}
    (found : xs[i]? = some (sign, x)) (unit_ : sign = 1 ∨ sign = -1) (some_ : x ≠ 0) :
    (Store.withStatics xs).Number (i + 2) := by
  have less : i < xs.length := (List.getElem?_eq_some_iff.mp found).1
  have entry : ((1, 0) :: (1, 1) :: xs).getD (i + 2) (1, 0) = (sign, x) := by
    simp [List.getD, found]
  refine ⟨⟨decide_eq_true (by simp; omega), ?_, fun j above => ?_⟩, fun none_ => absurd none_ (by simp [withStatics])⟩
  · change (((1, 0) :: (1, 1) :: xs).getD (i + 2) (1, 0)).1 = 1 ∨ (((1, 0) :: (1, 1) :: xs).getD (i + 2) (1, 0)).1 = -1
    rw [entry]
    exact unit_
  · change (((1, 0) :: (1, 1) :: xs).getD (i + 2) (1, 0)).2 ≠ 0
    rw [entry]
    exact some_

theorem mpcmp_less : let s := Store.withStatics [(-1, 6), (1, 12)]; (mpcmp 2 3 s).sign = (s.int 2 - s.int 3).sign :=
  mpcmp_spec (Store.withStatics_number _ rfl (by decide) (by decide))
    (Store.withStatics_number _ rfl (by decide) (by decide))

end Inferno.Mp
