import Inferno.Dis.Operand

namespace Inferno.Dis

/-- `W32(r)`: the low half of a register slot as a signed int. -/
def w32 (w : Int) : Int := w.bmod (2 ^ 32)

theorem w32_of_range {v : Int} (lower : -2 ^ 31 ≤ v) (upper : v < 2 ^ 31) : w32 v = v :=
  Int.bmod_eq_of_le (by omega) (by omega)

/-- The search loop of `icase`. Entries are three words long: the start of a
range, one past its stop, and the pc of the arm. -/
def icaseSearch (mem : Mem) (selector : Int) : Nat → Nat → Nat → Int → Int
  | 0, _, _, target => target
  | fuel + 1, t, n, target =>
    if n = 0 then target
    else
      let n2 := n / 2
      let l := t + n2 * 3 * iby2wd
      if selector < w32 (mem l) then icaseSearch mem selector fuel t n2 target
      else if w32 (mem (l + iby2wd)) ≤ selector then
        icaseSearch mem selector fuel (l + 3 * iby2wd) (n - (n2 + 1)) target
      else mem (l + 2 * iby2wd)

/-- `icase`: the index in `R.M->prog` of the next instruction, for the table
at `d` and the word `s` that holds the selector. -/
def icase (mem : Mem) (d : Nat) (s : Int) : Int :=
  let t := d + iby2wd
  let n := (mem (t - iby2wd)).toNat
  icaseSearch mem (w32 s) n t n (mem (t + n * 3 * iby2wd))

/-- `igoto`: the word of the table at `d` selected by `s`. -/
def igoto (mem : Mem) (d : Nat) (s : Int) : Int := mem (d + w32 s * iby2wd).toNat

/-- A selector that passes every entry below `k` and precedes every entry
from `k` on is in no range of the table. -/
theorem icaseSearch_miss {mem : Mem} {selector target : Int} {fuel t n k : Nat} (enough : n ≤ fuel)
    (split : k ≤ n)
    (passed : ∀ i, i < k → w32 (mem (t + i * 3 * iby2wd)) ≤ selector ∧
      w32 (mem (t + i * 3 * iby2wd + iby2wd)) ≤ selector)
    (before : ∀ i, k ≤ i → i < n → selector < w32 (mem (t + i * 3 * iby2wd))) :
    icaseSearch mem selector fuel t n target = target := by
  induction fuel generalizing t n k with
  | zero => rfl
  | succ fuel ih =>
    rw [icaseSearch]
    dsimp only
    split_ifs with empty left right
    · rfl
    · have inside : k ≤ n / 2 := by
        by_contra past
        have := (passed (n / 2) (by lia)).1
        lia
      exact ih (by lia) inside passed (fun i low high => before i low (by lia))
    · have past : n / 2 < k := by
        by_contra short
        exact left (before (n / 2) (by lia) (by lia))
      have shift (i : Nat) : t + n / 2 * 3 * iby2wd + 3 * iby2wd + i * 3 * iby2wd =
          t + (n / 2 + 1 + i) * 3 * iby2wd := by
        simp only [iby2wd]
        lia
      refine ih (k := k - (n / 2 + 1)) (by lia) (by lia) (fun i low => ?_) (fun i low high => ?_)
      · rw [shift]
        exact passed _ (by lia)
      · rw [shift]
        exact before _ (by lia) (by lia)
    · exfalso
      by_cases past : n / 2 < k
      · exact right (passed _ past).2
      · exact left (before _ (by lia) (by lia))

/-- A selector in the range of entry `k` that passes the entries before it and
precedes those after it is sent to the pc of entry `k`. -/
theorem icaseSearch_hit {mem : Mem} {selector target : Int} {fuel t n k : Nat} (enough : n ≤ fuel)
    (inside : k < n)
    (passed : ∀ i, i < k → w32 (mem (t + i * 3 * iby2wd)) ≤ selector ∧
      w32 (mem (t + i * 3 * iby2wd + iby2wd)) ≤ selector)
    (lower : w32 (mem (t + k * 3 * iby2wd)) ≤ selector)
    (upper : selector < w32 (mem (t + k * 3 * iby2wd + iby2wd)))
    (before : ∀ i, k < i → i < n → selector < w32 (mem (t + i * 3 * iby2wd))) :
    icaseSearch mem selector fuel t n target = mem (t + k * 3 * iby2wd + 2 * iby2wd) := by
  induction fuel generalizing t n k with
  | zero => lia
  | succ fuel ih =>
    rw [icaseSearch]
    dsimp only
    split_ifs with empty left right
    · lia
    · have past : k < n / 2 := by
        by_contra short
        rcases Nat.lt_or_eq_of_le (not_lt.mp short) with less | same
        · have := (passed (n / 2) less).1
          lia
        · rw [same] at left
          lia
      exact ih (by lia) past passed lower upper (fun i low high => before i low (by lia))
    · have past : n / 2 < k := by
        by_contra short
        rcases Nat.lt_or_eq_of_le (not_lt.mp short) with less | same
        · exact left (before (n / 2) less (by lia))
        · rw [← same] at right
          lia
      have shift (i : Nat) : t + n / 2 * 3 * iby2wd + 3 * iby2wd + i * 3 * iby2wd =
          t + (n / 2 + 1 + i) * 3 * iby2wd := by
        simp only [iby2wd]
        lia
      have back : n / 2 + 1 + (k - (n / 2 + 1)) = k := by lia
      rw [ih (k := k - (n / 2 + 1)) (by lia) (by lia)]
      · rw [shift, back]
      · intro i low
        rw [shift]
        exact passed _ (by lia)
      · rwa [shift, back]
      · rwa [shift, back]
      · intro i low high
        rw [shift]
        exact before _ (by lia) (by lia)
    · have same : n / 2 = k := by
        by_contra ne
        rcases Nat.lt_or_gt_of_ne ne with less | more
        · exact right (passed _ less).2
        · exact left (before _ more (by lia))
      rw [same]

end Inferno.Dis
