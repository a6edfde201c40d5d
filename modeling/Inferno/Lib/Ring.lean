import Mathlib

namespace Inferno.Lib

variable {α : Type}

/-- The slot `i` places after `front` in a circular buffer of `len` slots. -/
def ringIndex (len front i : Nat) : Nat := if len ≤ front + i then front + i - len else front + i

/-- The `size` oldest values of a circular buffer, oldest first. -/
def ringContents (slots : List α) (front size : Nat) : List α :=
  (List.range size).filterMap fun i => slots[ringIndex slots.length front i]?

theorem ringIndex_lt {len front i : Nat} (inside : front < len) (small : i < len) :
    ringIndex len front i < len := by
  unfold ringIndex
  split <;> omega

theorem ringIndex_injective {len front i j : Nat} (smallI : i < len) (smallJ : j < len)
    (same : ringIndex len front i = ringIndex len front j) : i = j := by
  unfold ringIndex at same
  split at same <;> split at same <;> omega

/-- Storing into the slot after the last value appends it. -/
theorem ringContents_put {slots : List α} {front size : Nat} (v : α) (inside : front < slots.length)
    (room : size < slots.length) :
    ringContents (slots.set (ringIndex slots.length front size) v) front (size + 1) =
      ringContents slots front size ++ [v] := by
  rw [ringContents, ringContents, List.range_succ, List.filterMap_append, List.length_set]
  congr 1
  · refine List.filterMap_congr fun i member => ?_
    have before : i < size := List.mem_range.mp member
    have apart : ringIndex slots.length front size ≠ ringIndex slots.length front i := by
      intro same
      have equal := ringIndex_injective room (by omega) same
      omega
    exact List.getElem?_set_ne apart
  · have bound := ringIndex_lt inside room
    simp [List.getElem?_set, bound]

/-- Advancing `front` past the oldest value drops it, whatever is then stored
in the slot it leaves. -/
theorem ringContents_get {slots rest : List α} {front size : Nat} {v : α} (inside : front < slots.length)
    (room : size < slots.length) (oldest : slots[front]? = some v) (length : rest.length = slots.length)
    (kept : ∀ i, i ≠ front → rest[i]? = slots[i]?) :
    ringContents slots front (size + 1) =
      v :: ringContents rest (if front + 1 = slots.length then 0 else front + 1) size := by
  have first : slots[ringIndex slots.length front 0]? = some v := by
    rw [ringIndex, if_neg (by omega), Nat.add_zero]
    exact oldest
  rw [ringContents, ringContents, List.range_succ_eq_map, List.filterMap_cons, first, List.filterMap_map]
  refine congrArg (v :: ·) (List.filterMap_congr fun i member => ?_)
  have before : i < size := List.mem_range.mp member
  have next : ringIndex rest.length (if front + 1 = slots.length then 0 else front + 1) i =
      ringIndex slots.length front (i + 1) := by
    unfold ringIndex
    rw [length]
    split <;> split <;> split <;> omega
  have moved : ringIndex slots.length front (i + 1) ≠ front := by
    unfold ringIndex
    split <;> omega
  rw [next, kept _ moved]
  rfl

end Inferno.Lib
