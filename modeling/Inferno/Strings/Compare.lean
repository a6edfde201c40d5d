import Inferno.Strings.Inv
import Inferno.Strings.Text

namespace Inferno.Strings

open Lib

/-- A rune as an `int`, and an ASCII character as a signed `char`. -/
def Str.signed (x : Str) (i : Nat) : Int :=
  if x.len < 0 then int (runeAt x.data i)
  else if (x.data i).toNat < 0x80 then (x.data i).toNat else (x.data i).toNat - 256

/-- The loops that compare two strings, from index `i` on: `out` of the first two characters that differ. -/
def differ (out : Int → Int → Int) (c₁ c₂ : Nat → Int) : Nat → Nat → Option Int
  | 0, _ => none
  | n + 1, i => if c₁ i ≠ c₂ i then some (out (c₁ i) (c₂ i)) else differ out c₁ c₂ n (i + 1)

def memcmp (a b : ByteMem) (n : Nat) : Int :=
  (differ (· - ·) (fun i => (a i).toNat) (fun i => (b i).toNat) n 0).getD 0

/-- What stands at `ne`. -/
def ne (c₁ c₂ : Int) : Int := if c₁ < c₂ then -1 else 1

def stringcmp (heap : Nat → Option Str) (s₁ s₂ : Option Nat) : Int :=
  if s₁ = s₂ then 0
  else
    let x := strOf heap s₁
    let y := strOf heap s₂
    let n₁ := if int x.len < 0 then -int x.len else int x.len
    let n₂ := if int y.len < 0 then -int y.len else int y.len
    let n := if n₂ < n₁ then n₂ else n₁
    if 0 ≤ int x.len ∧ 0 ≤ int y.len then
      let n := memcmp x.data y.data n.toNat
      if n = 0 then n₁ - n₂ else n
    else
      match differ ne x.signed y.signed n.toNat 0 with
      | some r => r
      | none => n₁ - n₂

/-- The characters as `stringcmp` takes them. -/
def Str.ints (x : Str) : List Int := x.text.map fun c : Nat => int c

variable {x y : Str} {a b : ByteMem} {c₁ c₂ : Nat → Int} {n i : Nat}

theorem differ_eq {out : Int → Int → Int} (n i : Nat) :
    (differ out c₁ c₂ n i = none ∧ ∀ j, i ≤ j → j < i + n → c₁ j = c₂ j) ∨
    ∃ j, i ≤ j ∧ j < i + n ∧ (∀ k, i ≤ k → k < j → c₁ k = c₂ k) ∧ c₁ j ≠ c₂ j ∧
      differ out c₁ c₂ n i = some (out (c₁ j) (c₂ j)) := by
  induction n generalizing i with
  | zero => exact Or.inl ⟨rfl, fun j low high => by omega⟩
  | succ n ih =>
    rw [differ]
    by_cases same : c₁ i = c₂ i
    · rw [if_neg (not_not.mpr same)]
      rcases ih (i + 1) with ⟨zero, all⟩ | ⟨j, low, high, before, other, value⟩
      · refine Or.inl ⟨zero, fun j low high => ?_⟩
        rcases Nat.eq_or_lt_of_le low with rfl | less
        · exact same
        · exact all j less (by omega)
      · refine Or.inr ⟨j, by omega, by omega, fun k low less => ?_, other, value⟩
        rcases Nat.eq_or_lt_of_le low with rfl | later
        · exact same
        · exact before k later less
    · rw [if_pos same]
      exact Or.inr ⟨i, Nat.le_refl i, by omega, fun k low less => by omega, same, rfl⟩

section Lists

variable {α : Type} [LinearOrder α] {k l : List α}

theorem lt_of_first {i : Nat} (h₁ : i < k.length) (h₂ : i < l.length) (before : ∀ j (h : j < i), k[j] = l[j])
    (less : k[i] < l[i]) : k < l :=
  List.lt_iff_exists.mpr (Or.inr ⟨i, h₁, h₂, before, less⟩)

theorem lt_of_shorter (shorter : k.length < l.length) (before : ∀ j (h : j < k.length), k[j] = l[j]) : k < l := by
  refine List.lt_iff_exists.mpr (Or.inl ⟨List.ext_getElem ?_ fun j h h' => ?_, shorter⟩)
  · rw [List.length_take]
    omega
  · rw [before j h, List.getElem_take]

end Lists

@[simp] theorem Str.length_ints (x : Str) : x.ints.length = x.len.natAbs := by
  rw [ints, List.length_map, x.length_text]

/-- What comparing asks of a string. -/
structure Str.Clean (x : Str) : Prop where
  range : -2 ^ 31 < x.len ∧ x.len < 2 ^ 31
  low : 0 ≤ x.len → ∀ i : Nat, (i : Int) < x.len → (x.data i).toNat < 0x80

theorem Str.Good.clean (good : x.Good) : x.Clean := by
  have small := good.size_lt
  refine ⟨?_, fun pos => (good.ascii pos).2.2⟩
  by_cases neg : x.len < 0
  · obtain ⟨used, most⟩ := good.runes neg
    simp only [sizeofRune] at most
    omega
  · obtain ⟨used, most, -⟩ := good.ascii (by omega)
    omega

theorem strOf_clean {heap : Nat → Option Str} (good : ∀ p x, heap p = some x → x.Good) (s : Option Nat) :
    (strOf heap s).Clean := by
  unfold strOf
  cases here : s.bind heap with
  | none => exact ⟨by decide, fun _ i inside => absurd inside (by simp only [Option.getD_none, snil]; omega)⟩
  | some x =>
    obtain ⟨p, -, there⟩ := Option.bind_eq_some_iff.mp here
    exact (good p x there).clean

theorem Str.Clean.ints (clean : x.Clean) {i : Nat} (h : i < x.ints.length) : x.ints[i] = x.signed i := by
  have inside := h
  rw [x.length_ints] at inside
  refine (List.getElem_map ..).trans ?_
  rw [x.getElem_text]
  unfold Str.signed Str.char
  split
  · rfl
  · have low := clean.low (by omega) i (by omega)
    rw [if_pos low, int_of_lt (by omega) (by omega)]

theorem Str.Clean.ascii (clean : x.Clean) (pos : 0 ≤ x.len) {i : Nat} (h : i < x.ints.length) :
    x.ints[i] = (x.data i).toNat := by
  have inside := h
  rw [x.length_ints] at inside
  rw [clean.ints h]
  unfold Str.signed
  rw [if_neg (by omega), if_pos (clean.low pos i (by omega))]

/-- The sign of a comparison of two lists. -/
def Signs (r : Int) (k l : List Int) : Prop := r < 0 ∧ k < l ∨ r = 0 ∧ k = l ∨ 0 < r ∧ l < k

/-- Two lists that are equal as far as the shorter goes, and the difference of their lengths. -/
theorem signs_prefix {k l : List Int} (before : ∀ j (h : j < k.length) (h' : j < l.length), k[j] = l[j]) :
    Signs ((k.length : Int) - l.length) k l := by
  rcases Nat.lt_trichotomy k.length l.length with less | same | more
  · exact Or.inl ⟨by omega, lt_of_shorter less fun j h => before j h (by omega)⟩
  · exact Or.inr (Or.inl ⟨by omega, List.ext_getElem same before⟩)
  · exact Or.inr (Or.inr ⟨by omega, lt_of_shorter more fun j h => (before j (by omega) h).symm⟩)

theorem signs_first {k l : List Int} {r : Int} {j : Nat} (h : j < k.length) (h' : j < l.length)
    (before : ∀ i (less : i < j), k[i] = l[i]) (other : k[j] ≠ l[j]) (sign : if k[j] < l[j] then r < 0 else 0 < r) :
    Signs r k l := by
  split at sign
  · rename_i less
    exact Or.inl ⟨sign, lt_of_first h h' before less⟩
  · rename_i more
    exact Or.inr (Or.inr ⟨sign, lt_of_first h' h (fun i less => (before i less).symm)
      (lt_of_le_of_ne (not_lt.mp more) other.symm)⟩)

/-- A loop over both strings, and what is left when it finds no difference. -/
theorem signs_loop {out : Int → Int → Int} {c₁ c₂ : Nat → Int} {k l : List Int} (n : Nat)
    (short : n = min k.length l.length) (first : ∀ i (h : i < k.length), i < n → k[i] = c₁ i)
    (second : ∀ i (h : i < l.length), i < n → l[i] = c₂ i)
    (sign : ∀ u v, u ≠ v → if u < v then out u v < 0 else 0 < out u v) :
    Signs ((differ out c₁ c₂ n 0).getD ((k.length : Int) - l.length)) k l := by
  rcases @differ_eq c₁ c₂ out n 0 with ⟨none_, all⟩ | ⟨j, -, inside, before, other, value⟩
  · rw [none_, Option.getD_none]
    refine signs_prefix fun j h h' => ?_
    rw [first j h (by omega), second j h' (by omega), all j (by omega) (by omega)]
  · rw [value, Option.getD_some]
    have h : j < k.length := by omega
    have h' : j < l.length := by omega
    refine signs_first h h' (fun i less => ?_) ?_ ?_
    · rw [first i _ (by omega), second i _ (by omega), before i (by omega) less]
    · rwa [first j h (by omega), second j h' (by omega)]
    · rw [first j h (by omega), second j h' (by omega)]
      exact sign _ _ other

theorem ne_sign (u v : Int) (other : u ≠ v) : if u < v then ne u v < 0 else 0 < ne u v := by
  unfold ne
  split
  · decide
  · decide

theorem sub_sign (u v : Int) (other : u ≠ v) : if u < v then u - v < 0 else 0 < u - v := by
  split
  · omega
  · omega

theorem stringcmp_signs {heap : Nat → Option Str} {s₁ s₂ : Option Nat} (clean₁ : (strOf heap s₁).Clean)
    (clean₂ : (strOf heap s₂).Clean) : Signs (stringcmp heap s₁ s₂) (strOf heap s₁).ints (strOf heap s₂).ints := by
  unfold stringcmp
  by_cases same : s₁ = s₂
  · rw [if_pos same, same]
    exact Or.inr (Or.inl ⟨rfl, rfl⟩)
  rw [if_neg same]
  dsimp only
  generalize strOf heap s₁ = x at clean₁ ⊢
  generalize strOf heap s₂ = y at clean₂ ⊢
  have whole₁ : int x.len = x.len := Int.bmod_eq_of_le (by have := clean₁.range; omega) (by have := clean₁.range; omega)
  have whole₂ : int y.len = y.len := Int.bmod_eq_of_le (by have := clean₂.range; omega) (by have := clean₂.range; omega)
  have length₁ : (if x.len < 0 then -x.len else x.len) = x.ints.length := by
    rw [x.length_ints]
    split <;> omega
  have length₂ : (if y.len < 0 then -y.len else y.len) = y.ints.length := by
    rw [y.length_ints]
    split <;> omega
  rw [whole₁, whole₂, length₁, length₂]
  have short : (if (y.ints.length : Int) < x.ints.length then (y.ints.length : Int) else x.ints.length).toNat =
      min x.ints.length y.ints.length := by
    split <;> omega
  rw [short]
  split
  · rename_i pos
    have loop := signs_loop (k := x.ints) (l := y.ints) _ rfl (fun i h _ => clean₁.ascii pos.1 h)
      (fun i h _ => clean₂.ascii pos.2 h) sub_sign
    unfold memcmp
    rcases @differ_eq (fun i => (x.data i).toNat) (fun i => (y.data i).toNat) (· - ·)
      (min x.ints.length y.ints.length) 0 with ⟨none_, -⟩ | ⟨j, -, -, -, other, value⟩
    · rw [none_] at loop ⊢
      exact loop
    · rw [value] at loop ⊢
      rw [Option.getD_some, if_neg (by omega)]
      exact loop
  · have loop := signs_loop (k := x.ints) (l := y.ints) _ rfl (fun i h _ => clean₁.ints h)
      (fun i h _ => clean₂.ints h) ne_sign
    cases found : differ ne x.signed y.signed (min x.ints.length y.ints.length) 0 with
    | none =>
      rw [found] at loop
      exact loop
    | some r =>
      rw [found] at loop
      exact loop

theorem Signs.lt_iff {r : Int} {k l : List Int} (signs : Signs r k l) : r < 0 ↔ k < l := by
  rcases signs with ⟨neg, less⟩ | ⟨zero, same⟩ | ⟨pos, more⟩
  · exact iff_of_true neg less
  · exact iff_of_false (by omega) (same ▸ lt_irrefl k)
  · exact iff_of_false (by omega) more.asymm

theorem Signs.eq_iff {r : Int} {k l : List Int} (signs : Signs r k l) : r = 0 ↔ k = l := by
  rcases signs with ⟨neg, less⟩ | ⟨zero, same⟩ | ⟨pos, more⟩
  · exact iff_of_false (by omega) less.ne
  · exact iff_of_true zero same
  · exact iff_of_false (by omega) more.ne'

theorem Signs.gt_iff {r : Int} {k l : List Int} (signs : Signs r k l) : 0 < r ↔ l < k := by
  rcases signs with ⟨neg, less⟩ | ⟨zero, same⟩ | ⟨pos, more⟩
  · exact iff_of_false (by omega) less.asymm
  · exact iff_of_false (by omega) (same ▸ lt_irrefl k)
  · exact iff_of_true pos more

theorem first_difference {α : Type} (k l : List α) : (∀ j (h : j < k.length) (h' : j < l.length), k[j] = l[j]) ∨
    ∃ j, ∃ (h : j < k.length) (h' : j < l.length), (∀ i (less : i < j), k[i] = l[i]) ∧ k[j] ≠ l[j] := by
  classical
  by_cases all : ∀ j (h : j < k.length) (h' : j < l.length), k[j] = l[j]
  · exact Or.inl all
  · simp only [not_forall] at all
    obtain ⟨h, h', other⟩ := Nat.find_spec all
    refine Or.inr ⟨Nat.find all, h, h', fun i less => ?_, other⟩
    by_contra differs
    exact Nat.find_min all less ⟨by omega, by omega, differs⟩

/-- Where two texts first differ, both characters are below `2 ^ 31` or neither is. -/
def SameSide (k l : List Nat) : Prop :=
  ∀ j (h : j < k.length) (h' : j < l.length), (∀ i (less : i < j), k[i] = l[i]) → (k[j] < 2 ^ 31 ↔ l[j] < 2 ^ 31)

theorem SameSide.symm {k l : List Nat} (same : SameSide k l) : SameSide l k :=
  fun j h h' before => (same j h' h fun i less => (before i less).symm).symm

theorem lt_iff_first {α : Type} [LinearOrder α] {k l : List α} {j : Nat} (h : j < k.length) (h' : j < l.length)
    (before : ∀ i (less : i < j), k[i] = l[i]) (other : k[j] ≠ l[j]) : k < l ↔ k[j] < l[j] := by
  rcases lt_or_gt_of_ne other with less | more
  · exact iff_of_true (lt_of_first h h' before less) less
  · exact iff_of_false (lt_of_first h' h (fun i less => (before i less).symm) more).asymm more.asymm

theorem lt_iff_shorter {α : Type} [LinearOrder α] {k l : List α}
    (before : ∀ j (h : j < k.length) (h' : j < l.length), k[j] = l[j]) : k < l ↔ k.length < l.length := by
  rcases Nat.lt_trichotomy k.length l.length with less | same | more
  · exact iff_of_true (lt_of_shorter less fun j h => before j h (by omega)) less
  · exact iff_of_false (by rw [List.ext_getElem same before]; exact lt_irrefl l) (by omega)
  · exact iff_of_false (lt_of_shorter more fun j h => (before j (by omega) h).symm).asymm (by omega)

/-- The order of the `int`s is that of the characters exactly where the first difference keeps to one side. -/
theorem order_iff {k l : List Nat} (range₁ : ∀ c ∈ k, c < 2 ^ 32) (range₂ : ∀ c ∈ l, c < 2 ^ 32) :
    (k.map (fun c : Nat => int c) < l.map (fun c : Nat => int c) ↔ k < l) ↔ SameSide k l := by
  have value : ∀ {c : Nat}, c < 2 ^ 32 → int c = if c < 2 ^ 31 then (c : Int) else c - 2 ^ 32 := by
    intro c small
    simp only [int, Int.bmod_def]
    split <;> split <;> omega
  rcases first_difference k l with all | ⟨j, h, h', before, other⟩
  · have all' : ∀ j (h : j < (k.map fun c : Nat => int c).length) (h' : j < (l.map fun c : Nat => int c).length),
        (k.map fun c : Nat => int c)[j] = (l.map fun c : Nat => int c)[j] := by
      intro j h h'
      rw [List.length_map] at h h'
      rw [List.getElem_map, List.getElem_map, all j h h']
    rw [lt_iff_shorter all, lt_iff_shorter all', List.length_map, List.length_map]
    exact iff_of_true Iff.rfl fun j h h' _ => by rw [all j h h']
  · have small₁ := range₁ _ (List.getElem_mem h)
    have small₂ := range₂ _ (List.getElem_mem h')
    have value₁ := value small₁
    have value₂ := value small₂
    have sides : SameSide k l ↔ (k[j] < 2 ^ 31 ↔ l[j] < 2 ^ 31) := by
      refine ⟨fun same => same j h h' before, fun same i hi hi' equal => ?_⟩
      rcases Nat.lt_trichotomy i j with less | rfl | more
      · rw [before i less]
      · exact same
      · exact absurd (equal j more) other
    have first : k.map (fun c : Nat => int c) < l.map (fun c : Nat => int c) ↔ int k[j] < int l[j] := by
      have there := lt_iff_first (k := k.map fun c : Nat => int c) (l := l.map fun c : Nat => int c) (j := j)
        (by rwa [List.length_map]) (by rwa [List.length_map])
        (fun i less => by rw [List.getElem_map, List.getElem_map, before i less])
      rw [List.getElem_map, List.getElem_map] at there
      refine there ?_
      split at value₁ <;> split at value₂ <;> omega
    rw [sides, first, lt_iff_first h h' before other]
    split at value₁ <;> split at value₂ <;> omega

theorem ints_inj {x y : Str} : x.ints = y.ints ↔ x.text = y.text := by
  refine ⟨fun same => List.ext_getElem ?_ fun i h h' => ?_, fun same =>
    congrArg (List.map fun c : Nat => int c) same⟩
  · have length := congrArg List.length same
    simpa only [Str.length_ints, Str.length_text] using length
  · have at_ := congrArg (fun l : List Int => l[i]?) same
    dsimp only [Str.ints] at at_
    rw [List.getElem?_map, List.getElem?_map, List.getElem?_eq_getElem h, List.getElem?_eq_getElem h',
      Option.map_some, Option.map_some, Option.some.injEq, x.getElem_text, y.getElem_text] at at_
    rw [x.getElem_text, y.getElem_text]
    have small := x.char_lt i
    have small' := y.char_lt i
    simp only [int, Int.bmod_def] at at_
    omega

end Inferno.Strings
