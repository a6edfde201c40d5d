import Inferno.Sexprs.Reader
import Inferno.Styxlib.Pack

namespace Inferno.Sexprs

section Pack

open Strings Styxlib

/-- `sys->aprint("%d:", n)`, without the colon. -/
def decimal (n : Nat) : List UInt8 :=
  if n < 10 then [UInt8.ofNat (0x30 + n)] else decimal (n / 10) ++ [UInt8.ofNat (0x30 + n % 10)]

def aprint (n : Nat) : List UInt8 := decimal n ++ [0x3A]

section

-- what new memory holds
variable (junk : UInt8)

/-- `len sys->aprint("[%d:]", n) + n`. -/
def hintlen (s : Text) : Nat :=
  if s = [] then 0
  else
    let n := (cvtca junk s).length
    (aprint n).length + 2 + n

mutual

def Sexp.packedsize : Sexp → Nat
  | .nil => 0
  | .string s hint =>
    let n := (cvtca junk s).length
    hintlen junk hint + (aprint n).length + n
  | .binary data hint =>
    let n := data.length
    hintlen junk hint + (aprint n).length + n
  | .list l => 1 + packedsizes l + 1

def Sexp.packedsizes : List Sexp → Nat
  | [] => 0
  | e :: l => e.packedsize + packedsizes l

end

/-- The rest of an array is where it starts in it. -/
def packbytes (a : List UInt8) (o : Nat) (b : List UInt8) : Option (List UInt8 × Nat) := do
  let n := b.length
  let c := aprint n
  let a ← put a o c
  let a ← put a (o + c.length) b
  return (a, o + c.length + n)

def packhint (a : List UInt8) (o : Nat) (s : Text) : Option (List UInt8 × Nat) := do
  if s = [] then return (a, o)
  let a ← put a o [0x5B]
  let (a, o) ← packbytes a (o + 1) (cvtca junk s)
  let a ← put a o [0x5D]
  return (a, o + 1)

mutual

/-- `pack` into the array from `o` on. An empty array is no other than the empty rest of this one. -/
def packinto : Sexp → List UInt8 → Nat → Option (List UInt8 × Nat)
  | .nil, a, _ => some (a, a.length)
  | .string s hint, a, o => do
    let (a, o) ← packhint junk a o hint
    packbytes a o (cvtca junk s)
  | .binary data hint, a, o => do
    let (a, o) ← packhint junk a o hint
    packbytes a o data
  | .list l, a, o => do
    let a ← put a o [0x28]
    let (a, o) ← packall l a (o + 1)
    let a ← put a o [0x29]
    return (a, o + 1)

def packall : List Sexp → List UInt8 → Nat → Option (List UInt8 × Nat)
  | [], a, o => some (a, o)
  | e :: l, a, o => do
    let (a, o) ← packinto e a o
    packall l a o

end

def Sexp.pack (e : Sexp) : Option (List UInt8) := do
  let a ← newarray junk (e.packedsize junk)
  return (← packinto junk e a 0).1

def Sexp.asdata : Sexp → List UInt8
  | .nil => []
  | .list _ => []
  | .string s _ => cvtca junk s
  | .binary data _ => data

end

mutual

/-- `eq`, without its look at the references. -/
def Sexp.eq : Sexp → Sexp → Bool
  | .nil, .nil => true
  | .list l₁, .list l₂ => Sexp.eqs l₁ l₂
  | .string s₁ hint₁, .string s₂ hint₂ => s₁ = s₂ ∧ hint₁ = hint₂
  | .binary data₁ hint₁, .binary data₂ hint₂ => data₁ = data₂ ∧ hint₁ = hint₂
  | _, _ => false

def Sexp.eqs : List Sexp → List Sexp → Bool
  | [], [] => true
  | e₁ :: l₁, e₂ :: l₂ => e₁.eq e₂ && Sexp.eqs l₁ l₂
  | _, _ => false

end

mutual

theorem Sexp.eq_true : ∀ {e₁ e₂ : Sexp}, e₁.eq e₂ = true → e₁ = e₂
  | .nil, .nil, _ => rfl
  | .list l₁, .list l₂, same => congrArg Sexp.list (Sexp.eqs_true (by simpa only [Sexp.eq] using same))
  | .string s₁ hint₁, .string s₂ hint₂, same => by
    simp only [Sexp.eq, decide_eq_true_eq] at same
    rw [same.1, same.2]
  | .binary data₁ hint₁, .binary data₂ hint₂, same => by
    simp only [Sexp.eq, decide_eq_true_eq] at same
    rw [same.1, same.2]

theorem Sexp.eqs_true : ∀ {l₁ l₂ : List Sexp}, Sexp.eqs l₁ l₂ = true → l₁ = l₂
  | [], [], _ => rfl
  | e₁ :: l₁, e₂ :: l₂, same => by
    simp only [Sexp.eqs, Bool.and_eq_true] at same
    rw [Sexp.eq_true same.1, Sexp.eqs_true same.2]

end

end Pack

section Canon

open Strings Styxlib

variable {junk : UInt8} {a a' d w : List UInt8} {o o' left : Nat} {e : Sexp} {l : List Sexp}

/-- What tells expressions apart: how they are nested, and the bytes and hints of their tokens. -/
inductive Shape
  | absent
  | leaf (hint : Text) (data : List UInt8)
  | list (l : List Shape)

/-- A token as it is sent. -/
def tok (b : List UInt8) : List UInt8 := aprint b.length ++ b

def hinted (junk : UInt8) (hint : Text) : List UInt8 := if hint = [] then [] else 0x5B :: tok (cvtca junk hint) ++ [0x5D]

mutual

def Shape.canon (junk : UInt8) : Shape → List UInt8
  | .absent => []
  | .leaf hint data => hinted junk hint ++ tok data
  | .list l => 0x28 :: Shape.canons junk l ++ [0x29]

def Shape.canons (junk : UInt8) : List Shape → List UInt8
  | [] => []
  | e :: l => e.canon junk ++ Shape.canons junk l

end

mutual

def Sexp.shape (junk : UInt8) : Sexp → Shape
  | .nil => .absent
  | .string s hint => .leaf hint (cvtca junk s)
  | .binary data hint => .leaf hint data
  | .list l => .list (Sexp.shapes junk l)

def Sexp.shapes (junk : UInt8) : List Sexp → List Shape
  | [] => []
  | e :: l => e.shape junk :: Sexp.shapes junk l

end

mutual

/-- `p` of an expression and all those in it. -/
def Sexp.Every (p : Sexp → Prop) : Sexp → Prop
  | .nil => p .nil
  | .string s hint => p (.string s hint)
  | .binary data hint => p (.binary data hint)
  | .list l => p (.list l) ∧ Sexp.Everys p l

def Sexp.Everys (p : Sexp → Prop) : List Sexp → Prop
  | [] => True
  | e :: l => e.Every p ∧ Sexp.Everys p l

end

/-- No element is absent. -/
def Sexp.Whole (e : Sexp) : Prop := e.Every (· ≠ .nil)

theorem length_hinted (hint : Text) : (hinted junk hint).length = hintlen junk hint := by
  unfold hinted hintlen
  split
  · rfl
  · simp only [tok, List.length_append, List.length_cons, List.length_nil]
    omega

mutual

theorem length_canon : ∀ e : Sexp, ((e.shape junk).canon junk).length = e.packedsize junk
  | .nil => by simp only [Sexp.shape, Shape.canon, Sexp.packedsize, List.length_nil]
  | .string s hint => by
    simp only [Sexp.shape, Shape.canon, Sexp.packedsize, tok, List.length_append, length_hinted, Nat.add_assoc]
  | .binary data hint => by
    simp only [Sexp.shape, Shape.canon, Sexp.packedsize, tok, List.length_append, length_hinted, Nat.add_assoc]
  | .list l => by
    simp only [Sexp.shape, Shape.canon, Sexp.packedsize, List.length_append, List.length_cons, List.length_nil, length_canons l]
    omega

theorem length_canons : ∀ l : List Sexp, (Shape.canons junk (Sexp.shapes junk l)).length = Sexp.packedsizes junk l
  | [] => by simp only [Sexp.shapes, Shape.canons, Sexp.packedsizes, List.length_nil]
  | e :: l => by simp only [Sexp.shapes, Shape.canons, Sexp.packedsizes, List.length_append, length_canon e, length_canons l]

end

theorem packbytes_then {α : Type} {b : List UInt8} {k : List UInt8 × Nat → Option α} {r : Option α}
    (here : At a w ((tok b).length + left)) (place : o = w.length)
    (next : ∀ a', At a' (w ++ tok b) left → k (a', (w ++ tok b).length) = r) : (packbytes a o b >>= k) = r := by
  have length : (tok b).length = (aprint b.length).length + b.length := List.length_append
  rw [length, Nat.add_assoc] at here
  unfold packbytes
  simp only [bind_assoc]
  refine put_then here place fun a₁ at₁ => ?_
  refine put_then at₁ (by rw [List.length_append, place]) fun a₂ at₂ => ?_
  have after := next a₂ (by rwa [tok, ← List.append_assoc])
  rw [List.length_append, length, ← place] at after
  rw [pure_bind, Nat.add_assoc]
  exact after

theorem packhint_then {α : Type} {hint : Text} {k : List UInt8 × Nat → Option α} {r : Option α}
    (here : At a w ((hinted junk hint).length + left)) (place : o = w.length)
    (next : ∀ a', At a' (w ++ hinted junk hint) left → k (a', (w ++ hinted junk hint).length) = r) :
    (packhint junk a o hint >>= k) = r := by
  unfold packhint
  split
  · rename_i none_
    have empty : hinted junk hint = [] := if_pos none_
    rw [empty, List.append_nil] at next
    rw [empty, List.length_nil, Nat.zero_add] at here
    rw [pure_bind, place]
    exact next a here
  · rename_i some_
    have whole : hinted junk hint = [0x5B] ++ tok (cvtca junk hint) ++ [0x5D] := if_neg some_
    simp only [bind_assoc, pure_bind]
    rw [whole, List.length_append, List.length_append, Nat.add_assoc, Nat.add_assoc] at here
    refine put_then here place fun a₁ at₁ => ?_
    refine packbytes_then at₁ (by rw [List.length_append, place]; rfl) fun a₂ at₂ => ?_
    refine put_then at₂ rfl fun a₃ at₃ => ?_
    have after := next a₃ (by rw [whole]; simpa only [List.append_assoc] using at₃)
    rw [whole] at after
    simpa only [List.append_assoc, List.length_append, List.length_singleton, Nat.add_assoc] using after

mutual

theorem packinto_then {α : Type} {k : List UInt8 × Nat → Option α} {r : Option α} : ∀ (e : Sexp) {a w : List UInt8} {o left : Nat},
    e.Whole → At a w (((e.shape junk).canon junk).length + left) → o = w.length →
    (∀ a', At a' (w ++ (e.shape junk).canon junk) left → k (a', (w ++ (e.shape junk).canon junk).length) = r) →
    (packinto junk e a o >>= k) = r
  | .nil, a, w, o, left, whole, here, place, next => absurd rfl whole
  | .string s hint, a, w, o, left, whole, here, place, next => by
    simp only [Sexp.shape, Shape.canon] at here next
    rw [List.length_append, Nat.add_assoc] at here
    unfold packinto
    rw [bind_assoc]
    refine packhint_then here place fun a₁ at₁ => ?_
    refine packbytes_then at₁ rfl fun a₂ at₂ => ?_
    rw [List.append_assoc] at at₂ ⊢
    exact next a₂ at₂
  | .binary data hint, a, w, o, left, whole, here, place, next => by
    simp only [Sexp.shape, Shape.canon] at here next
    rw [List.length_append, Nat.add_assoc] at here
    unfold packinto
    rw [bind_assoc]
    refine packhint_then here place fun a₁ at₁ => ?_
    refine packbytes_then at₁ rfl fun a₂ at₂ => ?_
    rw [List.append_assoc] at at₂ ⊢
    exact next a₂ at₂
  | .list l, a, w, o, left, whole, here, place, next => by
    simp only [Sexp.shape, Shape.canon] at here next
    rw [List.length_append, List.length_cons, Nat.add_assoc, Nat.add_right_comm, Nat.add_comm _ 1] at here
    unfold packinto
    simp only [bind_assoc, pure_bind]
    refine @put_then _ _ _ _ ((Shape.canons junk (Sexp.shapes junk l)).length + (1 + left)) [0x28] _ _ ?_ place fun a₁ at₁ => ?_
    · simpa only [List.length_singleton, Nat.add_assoc] using here
    refine packall_then l whole.2 at₁ (by rw [List.length_append, place]; rfl) fun a₂ at₂ => ?_
    refine put_then at₂ rfl fun a₃ at₃ => ?_
    have after := next a₃ (by simpa only [List.append_assoc, List.singleton_append] using at₃)
    simpa only [List.append_assoc, List.singleton_append, List.length_append, List.length_cons, List.length_nil, Nat.add_assoc]
      using after

theorem packall_then {α : Type} {k : List UInt8 × Nat → Option α} {r : Option α} : ∀ (l : List Sexp) {a w : List UInt8} {o left : Nat},
    Sexp.Everys (· ≠ .nil) l → At a w ((Shape.canons junk (Sexp.shapes junk l)).length + left) → o = w.length →
    (∀ a', At a' (w ++ Shape.canons junk (Sexp.shapes junk l)) left →
      k (a', (w ++ Shape.canons junk (Sexp.shapes junk l)).length) = r) →
    (packall junk l a o >>= k) = r
  | [], a, w, o, left, whole, here, place, next => by
    simp only [Sexp.shapes, Shape.canons, List.length_nil, Nat.zero_add, List.append_nil] at here next
    unfold packall
    rw [place]
    exact next a here
  | e :: l, a, w, o, left, whole, here, place, next => by
    simp only [Sexp.shapes, Shape.canons] at here next
    rw [List.length_append, Nat.add_assoc] at here
    unfold packall
    simp only [bind_assoc]
    refine packinto_then e whole.1 here place fun a₁ at₁ => ?_
    refine packall_then l whole.2 at₁ rfl fun a₂ at₂ => ?_
    rw [List.append_assoc] at at₂ ⊢
    exact next a₂ at₂

end

theorem put_some {b : List UInt8} (stored : put a o b = some a') : a'.length = a.length ∧ o + b.length ≤ a.length := by
  unfold put at stored
  split at stored
  · obtain rfl := Option.some.inj stored
    simp only [List.length_append, List.length_take, List.length_drop]
    omega
  · nomatch stored

theorem aprint_length (n : Nat) : 0 < (aprint n).length := by
  unfold aprint
  rw [List.length_append]
  exact Nat.lt_of_lt_of_le Nat.zero_lt_one (Nat.le_add_left 1 _)

theorem packbytes_some {b : List UInt8} (stored : packbytes a o b = some (a', o')) : a'.length = a.length ∧ o < a.length := by
  unfold packbytes at stored
  obtain ⟨a₁, first, stored⟩ := Option.bind_eq_some_iff.mp stored
  obtain ⟨a₂, second, stored⟩ := Option.bind_eq_some_iff.mp stored
  obtain ⟨rfl, -⟩ := Prod.mk.inj (Option.some.inj stored)
  obtain ⟨length₁, within⟩ := put_some first
  obtain ⟨length₂, -⟩ := put_some second
  have := aprint_length b.length
  omega

theorem packhint_some {hint : Text} (stored : packhint junk a o hint = some (a', o')) : a'.length = a.length ∧ o ≤ o' := by
  unfold packhint at stored
  split at stored
  · obtain ⟨rfl, rfl⟩ := Prod.mk.inj (Option.some.inj stored)
    exact ⟨rfl, Nat.le_refl o⟩
  · obtain ⟨a₁, first, stored⟩ := Option.bind_eq_some_iff.mp stored
    obtain ⟨⟨a₂, o₂⟩, second, stored⟩ := Option.bind_eq_some_iff.mp stored
    obtain ⟨a₃, third, stored⟩ := Option.bind_eq_some_iff.mp stored
    obtain ⟨rfl, rfl⟩ := Prod.mk.inj (Option.some.inj stored)
    obtain ⟨length₁, -⟩ := put_some first
    obtain ⟨length₂, -⟩ := packbytes_some second
    obtain ⟨length₃, -⟩ := put_some third
    unfold packbytes at second
    obtain ⟨b₁, -, second⟩ := Option.bind_eq_some_iff.mp second
    obtain ⟨b₂, -, second⟩ := Option.bind_eq_some_iff.mp second
    obtain ⟨-, rfl⟩ := Prod.mk.inj (Option.some.inj second)
    omega

mutual

/-- Where an element was absent there is no room left. -/
theorem packinto_some : ∀ (e : Sexp) {a a' : List UInt8} {o o' : Nat}, packinto junk e a o = some (a', o') →
    a'.length = a.length ∧ (e = .nil ∧ o' = a.length ∨ e.Whole ∧ o < a.length)
  | .nil, a, a', o, o', stored => by
    obtain ⟨rfl, rfl⟩ := Prod.mk.inj (Option.some.inj stored)
    exact ⟨rfl, .inl ⟨rfl, rfl⟩⟩
  | .string s hint, a, a', o, o', stored => by
    unfold packinto at stored
    obtain ⟨⟨a₁, o₁⟩, first, stored⟩ := Option.bind_eq_some_iff.mp stored
    obtain ⟨length₁, before⟩ := packhint_some first
    obtain ⟨length₂, within⟩ := packbytes_some stored
    exact ⟨by omega, .inr ⟨nofun, by omega⟩⟩
  | .binary data hint, a, a', o, o', stored => by
    unfold packinto at stored
    obtain ⟨⟨a₁, o₁⟩, first, stored⟩ := Option.bind_eq_some_iff.mp stored
    obtain ⟨length₁, before⟩ := packhint_some first
    obtain ⟨length₂, within⟩ := packbytes_some stored
    exact ⟨by omega, .inr ⟨nofun, by omega⟩⟩
  | .list l, a, a', o, o', stored => by
    unfold packinto at stored
    obtain ⟨a₁, first, stored⟩ := Option.bind_eq_some_iff.mp stored
    obtain ⟨⟨a₂, o₂⟩, second, stored⟩ := Option.bind_eq_some_iff.mp stored
    obtain ⟨a₃, third, stored⟩ := Option.bind_eq_some_iff.mp stored
    obtain ⟨rfl, rfl⟩ := Prod.mk.inj (Option.some.inj stored)
    obtain ⟨length₁, within⟩ := put_some first
    obtain ⟨length₂, whole⟩ := packall_some l second
    obtain ⟨length₃, room⟩ := put_some third
    rw [List.length_singleton] at within
    rw [List.length_singleton] at room
    have whole := whole.1.resolve_right (by omega)
    exact ⟨by omega, .inr ⟨⟨nofun, whole⟩, by omega⟩⟩

theorem packall_some : ∀ (l : List Sexp) {a a' : List UInt8} {o o' : Nat}, packall junk l a o = some (a', o') →
    a'.length = a.length ∧ (Sexp.Everys (· ≠ .nil) l ∨ o' ≥ a.length) ∧ (o ≥ a.length → o' ≥ a.length)
  | [], a, a', o, o', stored => by
    obtain ⟨rfl, rfl⟩ := Prod.mk.inj (Option.some.inj stored)
    exact ⟨rfl, .inl trivial, id⟩
  | e :: l, a, a', o, o', stored => by
    unfold packall at stored
    obtain ⟨⟨a₁, o₁⟩, first, stored⟩ := Option.bind_eq_some_iff.mp stored
    obtain ⟨length₁, what⟩ := packinto_some e first
    obtain ⟨length₂, rest, full⟩ := packall_some l stored
    rcases what with ⟨absent, none_⟩ | ⟨whole, within⟩
    · have full := full (by omega)
      exact ⟨by omega, .inr (by omega), fun _ => by omega⟩
    · exact ⟨by omega, rest.imp (fun later => ⟨whole, later⟩) fun full => by omega, fun large => by omega⟩

end

theorem pack_whole {e : Sexp} (what : e = .nil ∨ e.Whole) (small : ((e.shape junk).canon junk).length + 64 < 2 ^ 31) :
    e.pack junk = some ((e.shape junk).canon junk) := by
  rw [length_canon] at small
  unfold Sexp.pack newarray
  rw [if_pos small]
  rcases what with rfl | whole
  · rfl
  · refine @packinto_then _ _ _ _ e _ [] _ 0 whole ⟨_, rfl, ?_⟩ rfl fun a' at_ => congrArg some at_.eq
    rw [List.length_replicate, length_canon]
    rfl

/-- An expression is packed if nothing in it is absent and an array can hold it. -/
theorem pack_some {e : Sexp} {bytes : List UInt8} (packed : e.pack junk = some bytes) :
    (e = .nil ∨ e.Whole) ∧ ((e.shape junk).canon junk).length + 64 < 2 ^ 31 := by
  rw [length_canon]
  unfold Sexp.pack newarray at packed
  obtain ⟨a, made, packed⟩ := Option.bind_eq_some_iff.mp packed
  obtain ⟨⟨a', o'⟩, stored, -⟩ := Option.bind_eq_some_iff.mp packed
  split at made
  · rename_i small
    obtain ⟨-, what⟩ := packinto_some e stored
    exact ⟨what.imp And.left And.left, small⟩
  · nomatch made

end Canon

end Inferno.Sexprs
