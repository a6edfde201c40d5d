import Inferno.Strings.Inv
import Inferno.Strings.Text

namespace Inferno.Strings

open Lib

variable {s : State} {p q d : Nat} {x y : Str} {bytes : List UInt8} {E : State → Prop}
  {pool : Nat → Nat → Option Block}

section Primitives

theorem slot_ends {Q : Option Nat → State → Prop} (holds : Q (s.slots.getD d none) s) : Ends (slot d) s Q E := holds

theorem setSlot_ends {p : Option Nat} {Q : Unit → State → Prop} (holds : Q () { s with slots := s.slots.set d p }) :
    Ends (setSlot d p) s Q E := holds

theorem load_ends {Q : Str → State → Prop} (here : s.heap p = some x) (holds : Q x s) : Ends (load p) s Q E := by
  refine Ends.bind (Ends.get ?_)
  rw [here]
  exact holds

theorem change_eq {outside : Str → Bool} {f : Str → Str} (here : s.heap p = some x) (inside : outside x = false) :
    s.change p outside f = s.set p (f x) := by
  simp only [State.change, here, inside, State.spoil_false]

theorem setHeader_ends {len max : Int} {Q : Unit → State → Prop} (here : s.heap p = some x)
    (room : sizeofHeap + offData ≤ x.msize) (holds : Q () (s.set p { x with len, max })) :
    Ends (setHeader p len max) s Q E := by
  refine Ends.modify ?_
  rw [change_eq here (decide_eq_false (Nat.not_lt.mpr room))]
  exact holds

theorem store_ends {off : Nat} {Q : Unit → State → Prop} (here : s.heap p = some x)
    (fits : off + bytes.length ≤ x.size) (holds : Q () (s.set p { x with data := poke x.data off bytes })) :
    Ends (store p off bytes) s Q E := by
  refine Ends.modify ?_
  rw [change_eq here (decide_eq_false (Nat.not_lt.mpr fits))]
  exact holds

theorem storeRunes_ends {n : Nat} {runes : List Nat} {Q : Unit → State → Prop} (here : s.heap p = some x)
    (fits : (n + runes.length) * sizeofRune ≤ x.size)
    (holds : ∀ data, Written data x.data n runes → Q () (s.set p { x with data })) : Ends (storeRunes p n runes) s Q E := by
  refine store_ends here ?_ (holds _ (written ..))
  rw [length_runes, ← Nat.add_mul]
  exact fits

theorem memmove_ends {off off' n : Nat} {Q : Unit → State → Prop} (here : s.heap p = some x) (there : s.heap q = some y)
    (fits : off + n ≤ x.size) (holds : Q () (s.set p { x with data := poke x.data off (readBytes y.data off' n) })) :
    Ends (memmove p off q off' n) s Q E := by
  refine Ends.bind (load_ends there (store_ends here ?_ holds))
  rw [length_readBytes]
  exact fits

theorem cvtup_ends {n : Nat} {Q : Unit → State → Prop} (here : s.heap p = some x) (there : s.heap q = some y)
    (fits : (n + y.len.toNat) * sizeofRune ≤ x.size)
    (holds : ∀ data, (∀ i : Nat, (i : Int) < y.len → runeAt data (n + i) = (y.data i).toNat) →
      (∀ i, i < n → runeAt data i = runeAt x.data i) → Q () (s.set p { x with data })) :
    Ends (cvtup p n q) s Q E := by
  have length : ((readBytes y.data 0 y.len.toNat).map UInt8.toNat).length = y.len.toNat := by
    rw [List.length_map, length_readBytes]
  refine Ends.bind (load_ends there (storeRunes_ends here ?_ fun data written => ?_))
  · rwa [length]
  · refine holds data (fun i less => ?_) fun i before => written.rest i (Or.inl before)
    rw [written.here i (by omega), List.getElem_map, getElem_readBytes, Nat.zero_add]
    exact Nat.mod_eq_of_lt (lt_trans (y.data i).toNat_lt (by decide))

end Primitives

section Slots

/-- The state after `destroy`. -/
def State.destroyed (s : State) : Option Nat → State
  | none => s
  | some p =>
    match s.heap p with
    | some x =>
      if x.ref > 1 then s.set p { x with ref := x.ref - 1 }
      else { s with heap := Function.update s.heap p none }
    | none => s.spoil true

theorem destroy_ends {o : Option Nat} {Q : Unit → State → Prop} (holds : Q () (s.destroyed o)) :
    Ends (destroy o) s Q E := by
  cases o with
  | none => exact holds
  | some p => exact Ends.modify holds

/-- A pointer may be put in a slot. -/
def State.Spare (s : State) (p : Option Nat) : Prop :=
  ∀ q, p = some q → ∃ x, s.heap q = some x ∧ s.slots.count (some q) < x.ref

theorem count_set_slot {l : List (Option Nat)} (below : d < l.length) (p : Option Nat) (q : Nat) :
    (l.set d p).count (some q) + (if l.getD d none = some q then 1 else 0) =
      l.count (some q) + (if p = some q then 1 else 0) := by
  have held : l.getD d none = some q → 0 < l.count (some q) := by
    intro same
    rw [List.getD_eq_getElem _ _ below] at same
    exact List.count_pos_iff.mpr (same ▸ List.getElem_mem below)
  rw [List.count_set below, ← List.getD_eq_getElem _ none below]
  simp only [beq_iff_eq]
  by_cases same : l.getD d none = some q
  · have := held same
    simp only [same, if_true]
    omega
  · simp only [same, if_false]
    omega

theorem mem_set_slot {l : List (Option Nat)} (below : d < l.length) {p : Option Nat} {q : Nat}
    (held : some q ∈ l.set d p) : p = some q ∨ some q ∈ l := by
  rcases List.mem_or_eq_of_mem_set held with old | new
  · exact Or.inr old
  · exact Or.inl new.symm

/-- Invariants of a state with the heap and the slots changed. -/
theorem State.Inv.rebuild {heap : Nat → Option Str} {slots : List (Option Nat)} (inv : s.Inv)
    (good : ∀ q z, heap q = some z → z.Good ∧ slots.count (some q) ≤ z.ref) (gone : ∀ q, s.heap q = none → heap q = none)
    (held : ∀ q, some q ∈ slots → heap q ≠ none) : ({ s with heap, slots } : State).Inv :=
  ⟨inv.inside, fun q z here => (good q z here).1, fun q le => gone q (inv.fresh q le), held,
    fun q z here => (good q z here).2⟩

theorem State.Spare.ref {p : Option Nat} (spare : s.Spare p) (same : p = some q) (here : s.heap q = some x) :
    s.slots.count (some q) < x.ref := by
  obtain ⟨z, here', less⟩ := spare q same
  rw [here, Option.some.injEq] at here'
  exact here' ▸ less

theorem State.Spare.held {p : Option Nat} (spare : s.Spare p) (same : p = some q) : s.heap q ≠ none := by
  obtain ⟨z, here, _⟩ := spare q same
  rw [here]
  exact Option.some_ne_none z

/-- A string that the slot `d` does not hold keeps its references when the slot gets another pointer. -/
theorem State.Inv.counted_other {p : Option Nat} (inv : s.Inv) (spare : s.Spare p) (below : d < s.slots.length)
    (other : s.slots.getD d none ≠ some q) (here : s.heap q = some x) : (s.slots.set d p).count (some q) ≤ x.ref := by
  have counts := count_set_slot below p q
  have most := inv.counted q x here
  rw [if_neg other] at counts
  by_cases same : p = some q
  · have less := spare.ref same here
    rw [if_pos same] at counts
    omega
  · rw [if_neg same] at counts
    omega

/-- The string `k` in the slot `d` becomes `v`, and the slot gets another pointer. -/
theorem State.Inv.released {p : Option Nat} {k : Nat} {v : Option Str} (inv : s.Inv) (spare : s.Spare p)
    (below : d < s.slots.length) (old : s.slots.getD d none = some k)
    (kept : ∀ z, v = some z → z.Good ∧ (s.slots.set d p).count (some k) ≤ z.ref)
    (gone : v = none → (s.slots.set d p).count (some k) = 0) :
    ({ s with heap := Function.update s.heap k v, slots := s.slots.set d p } : State).Inv := by
  refine inv.rebuild (fun q z here => ?_) (fun q none => ?_) fun q held => ?_
  · by_cases same : q = k
    · rw [same, Function.update_self] at here
      rw [same]
      exact kept z here
    · rw [Function.update_of_ne same] at here
      have other : s.slots.getD d none ≠ some q := fun also => same (Option.some.inj (also.symm.trans old))
      exact ⟨inv.good q z here, inv.counted_other spare below other here⟩
  · have ne : q ≠ k := by
      intro same
      rw [List.getD_eq_getElem _ _ below] at old
      exact inv.held k (old ▸ List.getElem_mem below) (same ▸ none)
    rw [Function.update_of_ne ne]
    exact none
  · by_cases same : q = k
    · rw [same, Function.update_self]
      intro none
      rw [same] at held
      exact List.count_eq_zero.mp (gone none) held
    · rw [Function.update_of_ne same]
      exact (mem_set_slot below held).elim spare.held (inv.held q)

/-- The pointer in a slot gives way to another. -/
theorem State.Inv.assigned {p : Option Nat} (inv : s.Inv) (spare : s.Spare p) :
    ({ s.destroyed (s.slots.getD d none) with slots := s.slots.set d p } : State).Inv := by
  by_cases below : d < s.slots.length
  swap
  · rw [List.getD_eq_default _ _ (by omega), List.set_eq_of_length_le (by omega)]
    exact inv
  cases old : s.slots.getD d none with
  | none =>
    refine inv.rebuild (fun q z here => ⟨inv.good q z here, ?_⟩) (fun q gone => gone) fun q held => ?_
    · refine inv.counted_other spare below ?_ here
      rw [old]
      exact (Option.some_ne_none q).symm
    · exact (mem_set_slot below held).elim spare.held (inv.held q)
  | some k =>
    have there : some k ∈ s.slots := by
      rw [List.getD_eq_getElem _ _ below] at old
      exact old ▸ List.getElem_mem below
    obtain ⟨x, here⟩ := Option.ne_none_iff_exists'.mp (inv.held k there)
    have pos := List.count_pos_iff.mpr there
    have most := inv.counted k x here
    have counts := count_set_slot below p k
    rw [if_pos old] at counts
    simp only [State.destroyed, here]
    split
    · refine inv.released spare below old (fun z new => ?_) (fun none => nomatch none)
      cases new
      have good := inv.good k x here
      refine ⟨⟨good.room, good.small, good.ascii, good.runes⟩, ?_⟩
      dsimp only
      by_cases same : p = some k
      · have less := spare.ref same here
        rw [if_pos same] at counts
        omega
      · rw [if_neg same] at counts
        omega
    · have other : p ≠ some k := fun same => by have less := spare.ref same here; omega
      rw [if_neg other] at counts
      exact inv.released spare below old (fun z new => nomatch new) fun _ => by omega

theorem destroyed_slots (s : State) (o : Option Nat) : (s.destroyed o).slots = s.slots := by
  cases o with
  | none => rfl
  | some k =>
    simp only [State.destroyed]
    split
    · split
      · rfl
      · rfl
    · rfl

theorem assign_ends {p : Option Nat} {Q : Unit → State → Prop} (inv : s.Inv) (spare : s.Spare p)
    (holds : ∀ t, t.Inv → Q () t) : Ends (assign d p) s Q E := by
  refine Ends.bind (slot_ends (Ends.bind (destroy_ends (setSlot_ends (holds _ ?_)))))
  rw [destroyed_slots]
  exact inv.assigned spare

end Slots

section Alloc

/-- A string as `newstring` and `newrunes` leave it, with a block that has `n` bytes for characters. -/
structure Str.New (y : Str) (n : Int) : Prop where
  ref : y.ref = 1
  room : sizeofHeap + sizeofString ≤ y.msize
  small : y.msize < 2 ^ 30 + 2 ^ 16
  fits : n + (sizeofHeap + sizeofString : Nat) ≤ y.msize

theorem nheap_ends {n : Int} {Q : Nat → State → Prop} (lawful : Lawful pool) (raised : E s.skip)
    (range : -2 ^ 31 ≤ n ∧ n < 2 ^ 31) (sound : n < -32 ∨ 32 ≤ n)
    (holds : ∀ b : Block, 32 ≤ n → n + sizeofHeap ≤ b.msize → b.msize < 2 ^ 30 + 2 ^ 16 →
      Q s.next (s.skip.set s.next { ref := 1, len := 0, max := 0, msize := b.msize, data := b.junk })) :
    Ends (nheap pool n) s Q E := by
  refine Ends.bind (Ends.get (Ends.bind (Ends.set ?_)))
  cases given : pool s.next (sizeT (sizeofHeap + n)) with
  | none => exact raised
  | some b =>
    obtain ⟨few, enough, most⟩ := lawful _ _ _ given
    simp only [sizeT, sizeofHeap] at few enough most holds
    exact holds b (by omega) (by omega) (by omega)

theorem newstring_ends {nb : Int} {Q : Nat → State → Prop} (lawful : Lawful pool) (raised : E s.skip)
    (range : -2 ^ 31 ≤ nb ∧ nb < -64 ∨ 0 ≤ nb ∧ nb < 2 ^ 31)
    (holds : ∀ y : Str, 0 ≤ nb → y.New nb → y.len = nb → y.max + (sizeofHeap + sizeofString : Nat) = y.msize →
      Q s.next (s.skip.set s.next y)) :
    Ends (newstring pool nb) s Q E := by
  have asked : int (sizeofString + nb) = 32 + nb ∨ int (sizeofString + nb) < -32 := by
    simp only [int, sizeofString, Int.bmod_def]
    omega
  have low : -2 ^ 31 ≤ int (sizeofString + nb) ∧ int (sizeofString + nb) < 2 ^ 31 := by
    simp only [int, Int.bmod_def]
    omega
  refine Ends.bind (nheap_ends lawful raised low (by omega) fun b pos enough most => ?_)
  refine Ends.bind (load_ends (State.heap_set ..) ?_)
  simp only [sizeofHeap] at enough
  have whole : int b.msize = b.msize := by
    simp only [int, Int.bmod_def]
    omega
  refine Ends.bind (setHeader_ends (State.heap_set ..) ?_ ?_)
  · simp only [sizeofHeap, offData]
    omega
  · rw [State.set_set]
    refine holds _ (by omega) ⟨rfl, ?_, most, ?_⟩ rfl ?_
    · simp only [sizeofHeap, sizeofString]
      omega
    · simp only [sizeofHeap, sizeofString]
      omega
    · simp only [whole, sizeofHeap, sizeofString]
      omega

theorem newrunes_ends {nr : Int} {Q : Nat → State → Prop} (lawful : Lawful pool) (raised : E s.skip)
    (range : 0 < nr ∧ nr < 2 ^ 30 - 16)
    (holds : ∀ y : Str, y.New (nr * sizeofRune) → y.len = -nr →
      y.max = (y.msize - (sizeofHeap + sizeofString : Nat) : Int) / sizeofRune → Q s.next (s.skip.set s.next y)) :
    Ends (newrunes pool nr) s Q E := by
  have asked : int (sizeofString + nr * sizeofRune) = 32 + nr * 4 ∨ int (sizeofString + nr * sizeofRune) < -32 := by
    simp only [int, sizeofString, sizeofRune, Int.bmod_def]
    omega
  have low : -2 ^ 31 ≤ int (sizeofString + nr * sizeofRune) ∧ int (sizeofString + nr * sizeofRune) < 2 ^ 31 := by
    simp only [int, Int.bmod_def]
    omega
  unfold newrunes
  rw [if_neg (by omega), if_neg (by omega)]
  refine Ends.bind (nheap_ends lawful raised low (by omega) fun b pos enough most => ?_)
  refine Ends.bind (load_ends (State.heap_set ..) ?_)
  simp only [sizeofHeap] at enough
  have whole : int b.msize = b.msize := by
    simp only [int, Int.bmod_def]
    omega
  refine Ends.bind (setHeader_ends (State.heap_set ..) ?_ ?_)
  · simp only [sizeofHeap, offData]
    omega
  · rw [State.set_set]
    refine holds _ ⟨rfl, ?_, most, ?_⟩ rfl ?_
    · simp only [sizeofHeap, sizeofString]
      omega
    · simp only [sizeofHeap, sizeofString, sizeofRune]
      omega
    · simp only [whole, sizeT, sizeofHeap, sizeofString, sizeofRune]
      omega

end Alloc

end Inferno.Strings
