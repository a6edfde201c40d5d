import Inferno.Strings.Insc

namespace Inferno.Strings

open Lib

variable {s t : State} {p q n d l₁ : Nat} {x y z : Str} {l : Int} {E : State → Prop}
  {pool : Nat → Nat → Option Block}

/-- What `addstring` copies from: the second string, which may be the target with its new length. -/
theorem heap_header (here : t.heap n = some z) (there : t.heap q = some y) (len max : Int) :
    (q = n ∧ y = z ∧ (t.set n { z with len, max }).heap q = some { z with len, max }) ∨
      (q ≠ n ∧ (t.set n { z with len, max }).heap q = some y) := by
  by_cases same : q = n
  · subst same
    rw [here, Option.some.injEq] at there
    exact Or.inl ⟨rfl, there.symm, State.heap_set ..⟩
  · exact Or.inr ⟨same, (State.heap_set_ne same ..).trans there⟩

theorem appendRunes_ends {Q : Unit → State → Prop} (here : t.heap n = some z) (there : t.heap q = some y)
    (room : sizeofHeap + offData ≤ z.msize) (bound : z.msize < 2 ^ 30 + 2 ^ 16)
    (fits : l ≤ z.max) (most : z.max * sizeofRune ≤ z.size) (length : l = l₁ + y.len.natAbs) (pos : 0 < l)
    (neg : q = n → y.len < 0) (self : q = n → (l₁ + l) * sizeofRune ≤ z.size)
    (holds : ∀ w : Str, w.Good → w.ref = z.ref → w.len = -l → (∀ i, i < l₁ → w.char i = runeAt z.data i) →
      (∀ i, i < y.len.natAbs → w.char (l₁ + i) = y.char i) → Q () (t.set n w)) :
    Ends (appendRunes n q l₁ l) t Q E := by
  simp only [sizeofRune] at most self
  have good : ∀ data, ({ z with len := -l, data } : Str).Good := by
    refine fun data => ⟨room, bound, fun zero => ?_, fun _ => ⟨?_, most⟩⟩
    · dsimp only at zero
      lia
    · dsimp only
      lia
  refine Ends.bind (load_ends here (Ends.bind (setHeader_ends here room ?_)))
  rcases heap_header here there (-l) z.max with ⟨same, eq, there'⟩ | ⟨other, there'⟩
  · have self := self same
    refine Ends.bind (load_ends there' (Ends.ite (fun _ => ?_) fun pos' => ?_))
    · refine memmove_ends (State.heap_set ..) there' ?_ ?_
      · simp only [Str.size, sizeofRune] at self ⊢
        lia
      · rw [State.set_set]
        refine holds _ (good _) rfl rfl (fun i less => ?_) fun i less => ?_
        · exact (Str.char_rune (by dsimp only; lia) i).trans (runeAt_before less ..)
        · rw [Str.char_rune (by dsimp only; lia), Str.char_rune (by lia), eq]
          exact runeAt_moved (by dsimp only [sizeofRune]; lia) _
    · dsimp only at pos'
      lia
  · refine Ends.bind (load_ends there' (Ends.ite (fun neg => ?_) fun pos' => ?_))
    · refine memmove_ends (State.heap_set ..) there' ?_ ?_
      · simp only [Str.size, sizeofRune] at most ⊢
        lia
      · rw [State.set_set]
        refine holds _ (good _) rfl rfl (fun i less => ?_) fun i less => ?_
        · exact (Str.char_rune (by dsimp only; lia) i).trans (runeAt_before less ..)
        · rw [Str.char_rune (by dsimp only; lia), Str.char_rune neg]
          exact runeAt_moved (by dsimp only [sizeofRune]; lia) _
    · refine cvtup_ends (State.heap_set ..) there' ?_ fun data copied kept => ?_
      · simp only [Str.size, sizeofRune] at most ⊢
        lia
      · rw [State.set_set]
        refine holds _ (good _) rfl rfl (fun i less => ?_) fun i less => ?_
        · exact (Str.char_rune (by dsimp only; lia) i).trans (kept i less)
        · rw [Str.char_rune (by dsimp only; lia), Str.char_ascii (by lia)]
          exact copied i (by lia)

theorem appendAscii_ends {Q : Unit → State → Prop} (here : t.heap n = some z) (there : t.heap q = some y)
    (room : sizeofHeap + offData ≤ z.msize) (bound : z.msize < 2 ^ 30 + 2 ^ 16)
    (fits : l ≤ z.max) (most : z.max ≤ z.size) (length : l = l₁ + y.len) (pos : 0 ≤ y.len)
    (low : ∀ i : Nat, i < l₁ → (z.data i).toNat < 0x80) (low' : ∀ i : Nat, (i : Int) < y.len → (y.data i).toNat < 0x80)
    (self : q = n → l₁ + l ≤ z.size)
    (holds : ∀ w : Str, w.Good → w.ref = z.ref → w.len = l → (∀ i, i < l₁ → w.char i = (z.data i).toNat) →
      (∀ i, i < y.len.natAbs → w.char (l₁ + i) = y.char i) → Q () (t.set n w)) :
    Ends (appendAscii n q l₁ l) t Q E := by
  have good : ∀ k : Nat, y.len ≤ k →
      ({ z with len := l, data := poke z.data l₁ (readBytes y.data 0 k) } : Str).Good := by
    refine fun k all => ⟨room, bound, fun _ => ⟨fits, most, fun i less => ?_⟩, fun neg => ?_⟩
    · dsimp only at less ⊢
      by_cases before : i < l₁
      · rw [poke_outside (Or.inl before)]
        exact low i before
      · rw [poke_readBytes (by omega) (by omega)]
        exact low' _ (by omega)
    · dsimp only at neg
      omega
  have chars : ∀ k : Nat, y.len ≤ k →
      (∀ i, i < l₁ → ({ z with len := l, data := poke z.data l₁ (readBytes y.data 0 k) } : Str).char i = (z.data i).toNat) ∧
      ∀ i, i < y.len.natAbs →
        ({ z with len := l, data := poke z.data l₁ (readBytes y.data 0 k) } : Str).char (l₁ + i) = y.char i := by
    refine fun k all => ⟨fun i less => ?_, fun i less => ?_⟩
    · rw [Str.char_ascii (by dsimp only; omega)]
      exact congrArg UInt8.toNat (poke_outside (Or.inl less))
    · rw [Str.char_ascii (by dsimp only; omega), Str.char_ascii pos]
      dsimp only
      rw [poke_readBytes (Nat.le_add_right ..) (by omega), Nat.zero_add, Nat.add_sub_cancel_left]
  refine Ends.bind (load_ends here (Ends.bind (setHeader_ends here room ?_)))
  rcases heap_header here there l z.max with ⟨same, eq, there'⟩ | ⟨other, there'⟩
  · have self := self same
    refine Ends.bind (load_ends there' (memmove_ends (State.heap_set ..) there' ?_ ?_))
    · simp only [Str.size] at self ⊢
      omega
    · rw [State.set_set]
      have more : y.len ≤ l.toNat := by omega
      have last := chars _ more
      rw [eq] at good more last
      exact holds _ (good _ more) rfl rfl last.1 (eq ▸ last.2)
  · refine Ends.bind (load_ends there' (memmove_ends (State.heap_set ..) there' ?_ ?_))
    · simp only [Str.size] at most ⊢
      omega
    · rw [State.set_set]
      exact holds _ (good _ (by omega)) rfl rfl (chars _ (by omega)).1 (chars _ (by omega)).2

/-- The bytes of a character. -/
def Str.unit (x : Str) : Nat := if x.len < 0 then sizeofRune else 1

/-- Two strings whose concatenation keeps the representation: its runes can be asked for, and a string is not added
to itself in place unless its block has room for it three times. -/
structure AddOk (x y : Str) (append same : Bool) : Prop where
  few : x.len < 0 ∨ y.len < 0 → addRoom append (x.len.natAbs + y.len.natAbs) < 2 ^ 30 - 16
  self : append → same → x.len.natAbs * 2 ≤ x.max → x.len.natAbs * 3 * x.unit ≤ x.size

theorem addRoom_le (append : Bool) (pos : 0 ≤ l) : l ≤ addRoom append l ∧ addRoom append l ≤ l + l / 4 := by
  unfold addRoom
  split
  · omega
  · omega

theorem addPair_ends {append : Bool} {Q : Nat → State → Prop} (lawful : Lawful pool) (inv : s.Inv)
    (here : s.heap p = some x) (there : s.heap q = some y) (ok : AddOk x y append (p == q)) (raised : E s.skip)
    (placed : append → ∀ w : Str, w.Good → w.ref = x.ref → w.text = x.text ++ y.text → Q p (s.set p w))
    (holds : ∀ w : Str, w.Good → w.ref = 1 → w.text = x.text ++ y.text → Q s.next (s.skip.set s.next w)) :
    Ends (addPair pool p q append) s Q E := by
  have good := inv.good p x here
  have good' := inv.good q y there
  have small := good.size_lt
  have small' := good'.size_lt
  refine Ends.bind (load_ends here (Ends.bind (load_ends there (Ends.ite (fun neg => ?_) fun pos => ?_))))
  · obtain ⟨used, most⟩ := good.runes neg
    simp only [sizeofRune] at most
    have length : (if y.len < 0 then ((-x.len).toNat : Int) - y.len else (-x.len).toNat + y.len) =
        (-x.len).toNat + y.len.natAbs := by
      split
      · lia
      · lia
    dsimp only
    rw [length]
    have few := ok.few (Or.inl neg)
    have sum : ((-x.len).toNat : Int) + y.len.natAbs = x.len.natAbs + y.len.natAbs := by lia
    rw [sum]
    generalize total : (x.len.natAbs + y.len.natAbs : Int) = l at *
    have least := (addRoom_le append (l := l) (by lia)).1
    refine Ends.bind (Ends.ite (fun inPlace => ?_) fun _ => ?_)
    · rw [Bool.and_eq_true, decide_eq_true_eq] at inPlace
      have self : q = p → ((-x.len).toNat + l) * sizeofRune ≤ x.size := by
        intro same
        have self := ok.self inPlace.1 (by rw [same]; exact beq_self_eq_true p)
        rw [same, here, Option.some.injEq] at there
        simp only [Str.unit, if_pos neg, sizeofRune, ← there] at self total ⊢
        lia
      refine Ends.bind (appendRunes_ends here there good.room good.small inPlace.2 ?_ (by lia) (by lia) ?_ self
        fun w good ref len first second => placed inPlace.1 w good ref ?_)
      · exact (good.runes neg).2
      · intro same
        rw [same, here, Option.some.injEq] at there
        exact there ▸ neg
      · refine Str.text_append (by lia) (fun i less => ?_) fun i less => ?_
        · rw [first i (by lia), Str.char_rune neg]
        · rw [← second i less]
          congr 1
          lia
    · rw [int_of_lt (by lia) (by lia)]
      refine Ends.bind (newrunes_ends lawful raised (by lia) fun z new len most => ?_)
      have fits := new.size
      have enough := new.fits
      have room := new.room
      simp only [sizeofRune, sizeofHeap, sizeofString] at fits enough most room
      refine Ends.bind (memmove_ends (State.heap_set ..) (inv.heap_alloc here z) ?_ ?_)
      · simp only [sizeofRune]
        lia
      · have other : q ≠ s.next := inv.ne_next there
        refine Ends.bind (appendRunes_ends (y := y) (State.heap_set ..) ?_ ?_ new.small ?_ ?_ (by lia) (by lia)
          (fun same => absurd same other) (fun same => absurd same other) fun w good ref len first second => ?_)
        · rw [State.set_set]
          exact inv.heap_alloc there _
        · simp only [sizeofHeap, offData]
          lia
        · dsimp only
          lia
        · simp only [Str.size, sizeofRune, sizeofHeap, offData]
          lia
        · simp only [State.set_set]
          refine holds w good (ref.trans new.ref) (Str.text_append (by lia) (fun i less => ?_) fun i less => ?_)
          · rw [first i (by lia), Str.char_rune neg]
            exact runeAt_first (by simp only [sizeofRune]; lia)
          · rw [← second i less]
            congr 1
            lia
  · obtain ⟨used, most, chars⟩ := good.ascii (by lia)
    refine Ends.ite (fun neg => ?_) fun pos' => ?_
    · obtain ⟨used', most'⟩ := good'.runes neg
      simp only [sizeofRune] at most'
      have few := ok.few (Or.inr neg)
      dsimp only
      have sum : x.len + ((-y.len).toNat : Int) = x.len.natAbs + y.len.natAbs := by lia
      rw [sum]
      generalize total : (x.len.natAbs + y.len.natAbs : Int) = l at *
      have least := (addRoom_le append (l := l) (by lia)).1
      rw [int_of_lt (by lia) (by lia)]
      refine Ends.bind (newrunes_ends lawful raised (by lia) fun z new len most => ?_)
      have fits := new.size
      have enough := new.fits
      have room := new.room
      simp only [sizeofRune, sizeofHeap, sizeofString] at fits enough most room
      refine Ends.bind (load_ends (State.heap_set ..) (Ends.bind (setHeader_ends (State.heap_set ..) ?_ ?_)))
      · simp only [sizeofHeap, offData]
        lia
      rw [State.set_set]
      refine Ends.bind (cvtup_ends (State.heap_set ..) (inv.heap_alloc here _) ?_ fun data copied _ => ?_)
      · simp only [Str.size, sizeofRune] at fits ⊢
        lia
      rw [State.set_set]
      refine Ends.bind (memmove_ends (State.heap_set ..) (inv.heap_alloc there _) ?_ ?_)
      · simp only [Str.size, sizeofRune] at fits ⊢
        lia
      · rw [State.set_set]
        refine holds _ (new.runes (-l) z.max (by lia) (by lia) ?_) new.ref ?_
        · simp only [sizeofHeap, sizeofString, sizeofRune]
          lia
        · refine Str.text_append (by dsimp only; lia) (fun i less => ?_) fun i less => ?_
          · rw [Str.char_rune (by dsimp only; lia), Str.char_ascii (by lia), ← copied i (by lia), Nat.zero_add]
            exact runeAt_before (by lia) _
          · have same : x.len.natAbs = x.len.toNat := by lia
            rw [Str.char_rune (by dsimp only; lia), Str.char_rune neg, same]
            exact runeAt_moved (by simp only [sizeofRune]; lia) _
    · obtain ⟨used', most', chars'⟩ := good'.ascii (by lia)
      dsimp only
      generalize total : (x.len.toNat + y.len : Int) = l at *
      obtain ⟨least, greatest⟩ := addRoom_le append (l := l) (by lia)
      refine Ends.bind (Ends.ite (fun inPlace => ?_) fun _ => ?_)
      · rw [Bool.and_eq_true, decide_eq_true_eq] at inPlace
        have self : q = p → x.len.toNat + l ≤ x.size := by
          intro same
          have self := ok.self inPlace.1 (by rw [same]; exact beq_self_eq_true p)
          rw [same, here, Option.some.injEq] at there
          simp only [Str.unit, if_neg pos, ← there] at self total
          lia
        refine Ends.bind (appendAscii_ends here there good.room good.small inPlace.2 most total.symm (by lia)
          (fun i less => chars i (by lia)) chars' self fun w good ref len first second => placed inPlace.1 w good ref ?_)
        refine Str.text_append (by lia) (fun i less => ?_) fun i less => ?_
        · rw [first i (by lia), Str.char_ascii (by lia)]
        · rw [← second i less]
          congr 1
          lia
      · have range : -2 ^ 31 ≤ int (addRoom append l) ∧ int (addRoom append l) < -64 ∨
            0 ≤ int (addRoom append l) ∧ int (addRoom append l) < 2 ^ 31 ∧ int (addRoom append l) = addRoom append l := by
          simp only [int, Int.bmod_def]
          lia
        refine Ends.bind (newstring_ends lawful raised (by lia) fun z nonneg new len top => ?_)
        have fits := new.size
        have enough := new.fits
        have room := new.room
        simp only [sizeofHeap, sizeofString] at enough room top
        refine Ends.bind (memmove_ends (State.heap_set ..) (inv.heap_alloc here z) (by lia) ?_)
        have other : q ≠ s.next := inv.ne_next there
        refine Ends.bind (appendAscii_ends (y := y) (State.heap_set ..) ?_ ?_ new.small ?_ ?_ total.symm (by lia)
          (fun i less => ?_)
          chars' (fun same => absurd same other) fun w good ref len first second => ?_)
        · rw [State.set_set]
          exact inv.heap_alloc there _
        · simp only [sizeofHeap, offData]
          lia
        · dsimp only
          lia
        · simp only [Str.size, sizeofHeap, offData]
          lia
        · dsimp only
          rw [poke_readBytes (Nat.zero_le i) (by lia)]
          exact chars _ (by lia)
        · simp only [State.set_set]
          refine holds w good (ref.trans new.ref) (Str.text_append (by lia) (fun i less => ?_) fun i less => ?_)
          · rw [first i (by lia), Str.char_ascii (by lia)]
            exact congrArg UInt8.toNat (poke_first (by lia))
          · rw [← second i less]
            congr 1
            lia

end Inferno.Strings
