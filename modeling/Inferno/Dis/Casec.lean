import Inferno.Strings.Compare

namespace Inferno.Dis

open Strings

/-- The three words of a label in the table of a `casec`: a string, the last string if the label is a
range, and the pc of the arm. -/
structure StrLabel where
  sl : Option Nat
  sh : Option Nat
  pc : Int

/-- Whether the linear scan stops at a label. -/
def StrLabel.Takes (heap : Nat → Option Str) (l : StrLabel) (sv : Option Nat) : Prop :=
  if l.sh = none then stringcmp heap l.sl sv = 0
  else stringcmp heap l.sl sv ≤ 0 ∧ 0 ≤ stringcmp heap l.sh sv

instance (heap : Nat → Option Str) (l : StrLabel) (sv : Option Nat) : Decidable (l.Takes heap sv) := by
  unfold StrLabel.Takes
  infer_instance

/-- The loop for more than two labels. -/
def casecSearch (heap : Nat → Option Str) (label : Nat → StrLabel) (sv : Option Nat) : Nat → Nat → Nat → Int → Int
  | 0, _, _, e => e
  | fuel + 1, t, n, e =>
    if n = 0 then e
    else
      let n2 := n / 2
      let l := t + n2
      let r := stringcmp heap sv (label l).sl
      if r = 0 then (label l).pc
      else if r < 0 then casecSearch heap label sv fuel t n2 e
      else if (label l).sh = none ∨ stringcmp heap sv (label l).sh > 0 then
        casecSearch heap label sv fuel (l + 1) (n - (n2 + 1)) e
      else (label l).pc

/-- The loop for at most two labels. -/
def casecScan (heap : Nat → Option Str) (label : Nat → StrLabel) (sv : Option Nat) : Nat → Nat → Int → Int
  | 0, _, e => e
  | n + 1, t, e => if (label t).Takes heap sv then (label t).pc else casecScan heap label sv n (t + 1) e

/-- `casec` on a table of `n` labels with the default arm `e`. -/
def casec (heap : Nat → Option Str) (label : Nat → StrLabel) (n : Nat) (e : Int) (sv : Option Nat) : Int :=
  if n > 2 then casecSearch heap label sv n 0 n e else casecScan heap label sv n 0 e

/-- The last string of a label. -/
def StrLabel.top (l : StrLabel) : Option Nat := if l.sh = none then l.sl else l.sh

/-- A table whose labels are ranges in ascending order that do not meet. -/
structure SortedStrs (heap : Nat → Option Str) (label : Nat → StrLabel) (n : Nat) : Prop where
  range : ∀ i < n, stringcmp heap (label i).sl (label i).top ≤ 0
  apart : ∀ i j, i < j → j < n → stringcmp heap (label i).top (label j).sl < 0

variable {heap : Nat → Option Str} {label : Nat → StrLabel} {sv : Option Nat}

theorem casecScan_append (m n t : Nat) (e : Int) :
    casecScan heap label sv (m + n) t e = casecScan heap label sv m t (casecScan heap label sv n (t + m) e) := by
  induction m generalizing t with
  | zero => rw [Nat.zero_add]; rfl
  | succ m ih =>
    rw [Nat.add_right_comm, casecScan, casecScan, ih, Nat.add_assoc, Nat.add_comm 1 m]

theorem casecScan_miss {n t : Nat} {e : Int} (miss : ∀ i, t ≤ i → i < t + n → ¬(label i).Takes heap sv) :
    casecScan heap label sv n t e = e := by
  induction n generalizing t with
  | zero => rfl
  | succ n ih =>
    rw [casecScan, if_neg (miss t (Nat.le_refl t) (by omega))]
    exact ih fun i low high => miss i (by omega) (by omega)

section Order

variable (clean : ∀ s, (strOf heap s).Clean)

include clean

theorem cmp_lt_iff (s₁ s₂ : Option Nat) : stringcmp heap s₁ s₂ < 0 ↔ (strOf heap s₁).ints < (strOf heap s₂).ints :=
  (stringcmp_signs (clean s₁) (clean s₂)).lt_iff

theorem cmp_gt_iff (s₁ s₂ : Option Nat) : 0 < stringcmp heap s₁ s₂ ↔ (strOf heap s₂).ints < (strOf heap s₁).ints :=
  (stringcmp_signs (clean s₁) (clean s₂)).gt_iff

theorem cmp_eq_iff (s₁ s₂ : Option Nat) : stringcmp heap s₁ s₂ = 0 ↔ (strOf heap s₁).ints = (strOf heap s₂).ints :=
  (stringcmp_signs (clean s₁) (clean s₂)).eq_iff

theorem cmp_le_iff (s₁ s₂ : Option Nat) : stringcmp heap s₁ s₂ ≤ 0 ↔ (strOf heap s₁).ints ≤ (strOf heap s₂).ints := by
  rw [← not_lt, cmp_gt_iff clean, not_lt]

theorem cmp_ge_iff (s₁ s₂ : Option Nat) : 0 ≤ stringcmp heap s₁ s₂ ↔ (strOf heap s₂).ints ≤ (strOf heap s₁).ints := by
  rw [← not_lt, cmp_lt_iff clean, not_lt]

/-- A label takes the strings from its first to its last. -/
theorem takes_iff (l : StrLabel) : l.Takes heap sv ↔
    (strOf heap l.sl).ints ≤ (strOf heap sv).ints ∧ (strOf heap sv).ints ≤ (strOf heap l.top).ints := by
  unfold StrLabel.Takes StrLabel.top
  split
  · rw [cmp_eq_iff clean, le_antisymm_iff]
  · rw [cmp_le_iff clean, cmp_ge_iff clean]

/-- The labels before one that is not above the selector do not take it. -/
theorem SortedStrs.passed {N l : Nat} (sorted : SortedStrs heap label N) (inside : l < N)
    (lower : (strOf heap (label l).sl).ints ≤ (strOf heap sv).ints) {i : Nat} (before : i < l) :
    ¬(label i).Takes heap sv := by
  rw [takes_iff clean]
  rintro ⟨-, upper⟩
  have apart := (cmp_lt_iff clean _ _).mp (sorted.apart i l before inside)
  exact absurd (lower.trans upper) (not_le.mpr apart)

/-- From a label above the selector on, none takes it. -/
theorem SortedStrs.ahead {N l : Nat} (sorted : SortedStrs heap label N)
    (above : (strOf heap sv).ints < (strOf heap (label l).sl).ints) {i : Nat} (after : l ≤ i) (inside : i < N) :
    ¬(label i).Takes heap sv := by
  rw [takes_iff clean]
  rintro ⟨lower, -⟩
  rcases Nat.eq_or_lt_of_le after with rfl | later
  · exact absurd lower (not_le.mpr above)
  · have range := (cmp_le_iff clean _ _).mp (sorted.range l (by omega))
    have apart := (cmp_lt_iff clean _ _).mp (sorted.apart l i later inside)
    exact absurd (lower.trans_lt (above.trans_le range)) (not_lt.mpr apart.le)

theorem casecSearch_eq {N : Nat} (sorted : SortedStrs heap label N) {fuel t n : Nat} {e : Int} (enough : n ≤ fuel)
    (inside : t + n ≤ N) : casecSearch heap label sv fuel t n e = casecScan heap label sv n t e := by
  induction fuel generalizing t n with
  | zero =>
    obtain rfl : n = 0 := by omega
    rfl
  | succ fuel ih =>
    rw [casecSearch]
    dsimp only
    by_cases empty : n = 0
    · rw [if_pos empty, empty]
      rfl
    rw [if_neg empty]
    have parts : n = n / 2 + (n - (n / 2 + 1) + 1) := by omega
    have halves : casecScan heap label sv n t e = casecScan heap label sv (n / 2) t
        (if (label (t + n / 2)).Takes heap sv then (label (t + n / 2)).pc
          else casecScan heap label sv (n - (n / 2 + 1)) (t + n / 2 + 1) e) := by
      calc casecScan heap label sv n t e
        _ = casecScan heap label sv (n / 2 + (n - (n / 2 + 1) + 1)) t e := by rw [← parts]
        _ = _ := by rw [casecScan_append, casecScan]
    rw [halves]
    generalize mid : t + n / 2 = l
    have low : l < N := by omega
    have left (lower : (strOf heap (label l).sl).ints ≤ (strOf heap sv).ints) (r : Int) :
        casecScan heap label sv (n / 2) t r = r :=
      casecScan_miss fun i _ high => sorted.passed clean low lower (by omega)
    by_cases equal : stringcmp heap sv (label l).sl = 0
    · rw [if_pos equal]
      have same := (cmp_eq_iff clean _ _).mp equal
      have takes : (label l).Takes heap sv := by
        rw [takes_iff clean, same]
        exact ⟨le_rfl, (cmp_le_iff clean _ _).mp (sorted.range l low)⟩
      rw [if_pos takes, left same.ge]
    rw [if_neg equal]
    by_cases less : stringcmp heap sv (label l).sl < 0
    · rw [if_pos less]
      have above := (cmp_lt_iff clean _ _).mp less
      have rest : casecScan heap label sv (n - (n / 2 + 1)) (l + 1) e = e :=
        casecScan_miss fun i after high => sorted.ahead clean above (by omega) (by omega)
      rw [if_neg (sorted.ahead clean above (Nat.le_refl l) low), rest]
      exact ih (by omega) (by omega)
    rw [if_neg less]
    have lower := (cmp_ge_iff clean _ _).mp (not_lt.mp less)
    by_cases right : (label l).sh = none ∨ stringcmp heap sv (label l).sh > 0
    · rw [if_pos right]
      have past : ¬(label l).Takes heap sv := by
        rw [takes_iff clean]
        rintro ⟨-, upper⟩
        unfold StrLabel.top at upper
        split at upper
        · exact equal ((cmp_eq_iff clean _ _).mpr (le_antisymm upper lower))
        · rename_i range
          have beyond := (cmp_gt_iff clean _ _).mp (right.resolve_left range)
          exact absurd upper (not_le.mpr beyond)
      rw [if_neg past, left lower]
      exact ih (by omega) (by omega)
    · rw [if_neg right]
      obtain ⟨range, upper⟩ := not_or.mp right
      have takes : (label l).Takes heap sv := by
        rw [takes_iff clean, StrLabel.top, if_neg range]
        exact ⟨lower, (cmp_le_iff clean _ _).mp (not_lt.mp upper)⟩
      rw [if_pos takes, left lower]

theorem casec_eq_scan {n : Nat} (sorted : SortedStrs heap label n) (e : Int) :
    casec heap label n e sv = casecScan heap label sv n 0 e := by
  unfold casec
  split
  · exact casecSearch_eq clean sorted (Nat.le_refl n) (by omega)
  · rfl

end Order

/-- `stringcmp` tells equal strings from different ones and is an order of its own, which a sorted table is
searched by. It is the order of the characters of two strings exactly if, where these first differ, both
characters are below `2 ^ 31` or neither is. -/
theorem stringcmp_exact {heap : Nat → Option Str} (good : ∀ p x, heap p = some x → x.Good) :
    (∀ s₁ s₂, ((stringcmp heap s₁ s₂ < 0 ↔ (strOf heap s₁).text < (strOf heap s₂).text) ∧
        (stringcmp heap s₁ s₂ = 0 ↔ (strOf heap s₁).text = (strOf heap s₂).text) ∧
        (0 < stringcmp heap s₁ s₂ ↔ (strOf heap s₂).text < (strOf heap s₁).text)) ↔
      SameSide (strOf heap s₁).text (strOf heap s₂).text) ∧
    (∀ s₁ s₂, stringcmp heap s₁ s₂ = 0 ↔ (strOf heap s₁).text = (strOf heap s₂).text) ∧
    (∀ s₁ s₂, stringcmp heap s₁ s₂ < 0 ↔ 0 < stringcmp heap s₂ s₁) ∧
    (∀ s₁ s₂ s₃, stringcmp heap s₁ s₂ ≤ 0 → stringcmp heap s₂ s₃ ≤ 0 → stringcmp heap s₁ s₃ ≤ 0) ∧
    ∀ label n, SortedStrs heap label n → ∀ e sv, casec heap label n e sv = casecScan heap label sv n 0 e := by
  have clean := strOf_clean good
  have equal (s₁ s₂ : Option Nat) := (cmp_eq_iff clean s₁ s₂).trans ints_inj
  have range (s : Option Nat) : ∀ c ∈ (strOf heap s).text, c < 2 ^ 32 := by
    intro c member
    obtain ⟨i, -, rfl⟩ := List.mem_map.mp member
    exact Str.char_lt ..
  have order (s₁ s₂ : Option Nat) := order_iff (range s₁) (range s₂)
  refine ⟨fun s₁ s₂ => ?_, equal, fun s₁ s₂ => ?_, fun s₁ s₂ s₃ first second => ?_,
    fun label n sorted e sv => casec_eq_scan clean sorted e⟩
  · rw [cmp_lt_iff clean, cmp_gt_iff clean]
    refine ⟨fun ⟨less, _⟩ => (order s₁ s₂).mp less, fun same => ?_⟩
    exact ⟨(order s₁ s₂).mpr same, equal s₁ s₂, (order s₂ s₁).mpr same.symm⟩
  · rw [cmp_lt_iff clean, cmp_gt_iff clean]
  · rw [cmp_le_iff clean] at first second ⊢
    exact first.trans second

/-- The string of the one rune `0x80000000`, as `insc` stores it, and the string "a". -/
def farHeap : Nat → Option Str
  | 0 => some ⟨1, -1, 1, 64, fun i => [0, 0, 0, 0x80].getD i 0⟩
  | 1 => some ⟨1, 1, 1, 64, fun i => [97].getD i 0⟩
  | _ => none

theorem farHeap_good {p : Nat} {x : Str} (here : farHeap p = some x) : x.Good := by
  match p with
  | 0 =>
    cases here
    exact ⟨by decide, by decide, fun pos => absurd pos (by decide), by decide⟩
  | 1 =>
    cases here
    refine ⟨by decide, by decide, fun _ => ⟨by decide, by decide, fun i inside => ?_⟩, by decide⟩
    obtain rfl : i = 0 := by dsimp only at inside; omega
    decide
  | n + 2 => nomatch here

theorem stringcmp_exact_far : (∀ p x, farHeap p = some x → x.Good) ∧
    ∀ s₁ s₂, stringcmp farHeap s₁ s₂ = 0 ↔ (strOf farHeap s₁).text = (strOf farHeap s₂).text :=
  ⟨fun _ _ => farHeap_good, (stringcmp_exact fun _ _ => farHeap_good).2.1⟩

/-- A rune from `2 ^ 31` on comes before "a". -/
theorem stringcmp_far : (∀ p x, farHeap p = some x → x.Good) ∧ stringcmp farHeap (some 0) (some 1) < 0 ∧
    (strOf farHeap (some 0)).text = [0x80000000] ∧ (strOf farHeap (some 1)).text = [97] ∧
    ¬(strOf farHeap (some 0)).text < (strOf farHeap (some 1)).text := by
  have text₀ : (strOf farHeap (some 0)).text = [0x80000000] := by decide
  have text₁ : (strOf farHeap (some 1)).text = [97] := by decide
  refine ⟨fun _ _ => farHeap_good, by decide, text₀, text₁, ?_⟩
  rw [text₀, text₁]
  decide

end Inferno.Dis
