import Mathlib

namespace Inferno.Lib

variable {α : Type} {p q : α → Bool} {l : List (Option α)} {i j : Nat} {a : α} {o o' : Option α}

/-- A table of slots that are empty or hold a value: the value of a slot. -/
def look (l : List (Option α)) (i : Nat) : Option α := (l[i]?).join

/-- The number of slots whose value has a property. -/
def tally (p : α → Bool) (l : List (Option α)) : Nat := l.countP fun o => o.any p

theorem look_eq_some : look l i = some a ↔ l[i]? = some (some a) := Option.join_eq_some_iff

theorem look_lt (there : look l i = some a) : i < l.length :=
  (List.getElem?_eq_some_iff.mp (look_eq_some.mp there)).1

theorem look_set (room : i < l.length) (j : Nat) : look (l.set i o) j = if j = i then o else look l j := by
  rw [look, List.getElem?_set]
  by_cases same : i = j
  · subst same
    rw [if_pos rfl, if_pos room, if_pos rfl]
    rfl
  · rw [if_neg same, if_neg (Ne.symm same), look]

theorem look_set_of_look (there : look l i = some a) (j : Nat) : look (l.set i o) j = if j = i then o else look l j :=
  look_set (look_lt there) j

theorem look_append (l : List (Option α)) (o : Option α) (j : Nat) :
    look (l ++ [o]) j = if j = l.length then o else look l j := by
  rw [look, List.getElem?_append]
  rcases Nat.lt_trichotomy j l.length with lt | rfl | gt
  · rw [if_pos lt, if_neg (Nat.ne_of_lt lt), look]
  · rw [if_neg (Nat.lt_irrefl _), if_pos rfl, Nat.sub_self]
    rfl
  · rw [if_neg (by omega), if_neg (by omega), look, List.getElem?_eq_none (by simp; omega), List.getElem?_eq_none (by omega)]

theorem look_length (l : List (Option α)) : look l l.length = none := by
  rw [look, List.getElem?_eq_none (Nat.le_refl _)]
  rfl

theorem tally_append (l : List (Option α)) (o : Option α) : tally p (l ++ [o]) = tally p l + (o.any p).toNat := by
  rw [tally, List.countP_append, List.countP_singleton, tally]
  cases o.any p <;> rfl

theorem tally_set (room : i < l.length) (o' : Option α) :
    tally p (l.set i o') + ((look l i).any p).toNat = tally p l + (o'.any p).toNat := by
  have here : look l i = l[i] := by
    rw [look, List.getElem?_eq_getElem room]
    rfl
  rw [tally, List.countP_set room, here, tally]
  cases old : l[i].any p
  · cases o'.any p <;> simp
  · have pos : 0 < l.countP fun o => o.any p := List.countP_pos_iff.mpr ⟨l[i], List.getElem_mem room, old⟩
    cases o'.any p <;> simp <;> omega

theorem tally_pos (there : look l i = some a) (has : p a) : 0 < tally p l := by
  obtain ⟨room, is⟩ := List.getElem?_eq_some_iff.mp (look_eq_some.mp there)
  exact List.countP_pos_iff.mpr ⟨some a, is ▸ List.getElem_mem room, has⟩

theorem exists_of_tally (some_ : 0 < tally p l) : ∃ i a, look l i = some a ∧ p a := by
  obtain ⟨o, member, has⟩ := List.countP_pos_iff.mp some_
  obtain ⟨i, room, rfl⟩ := List.getElem_of_mem member
  cases is : l[i] with
  | none =>
    rw [is] at has
    nomatch has
  | some a =>
    rw [is] at has
    exact ⟨i, a, look_eq_some.mpr (by rw [List.getElem?_eq_getElem room, is]), has⟩

end Inferno.Lib
