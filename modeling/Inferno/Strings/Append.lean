import Inferno.Strings.Run

namespace Inferno.Strings

open Lib

variable {s t : State} {p q n k l₁ : Nat} {x y z : Str} {l : Int} {E : State → Prop}
  {pool : Nat → Nat → Option Block} {append : Bool} {s₁ s₂ : Option Nat}

/-- `t` is `s` but for the string `n`, which has a block of fewer than `k` bytes. -/
structure Small (s : State) (n k : Nat) (t : State) : Prop where
  here : ∃ z, t.heap n = some z ∧ z.size < k
  others : ∀ q, q ≠ n → t.heap q = s.heap q

namespace Small

theorem change {f : Str → Str} {outside : Str → Bool} (small : Small s n k t) (size : ∀ z, (f z).msize = z.msize) :
    Small s n k (t.change n outside f) := by
  obtain ⟨z, here, less⟩ := small.here
  simp only [State.change, here]
  refine ⟨⟨f z, State.heap_set .., ?_⟩, fun q other => (State.heap_set_ne other ..).trans (small.others q other)⟩
  simpa only [Str.size, size] using less

theorem setHeader {len max : Int} {Q : Unit → State → Prop} (small : Small s n k t)
    (holds : ∀ u, Small s n k u → Q () u) : Ends (setHeader n len max) t Q E :=
  Ends.modify (holds _ (small.change fun _ => rfl))

theorem store {off : Nat} {bytes : List UInt8} {Q : Unit → State → Prop} (small : Small s n k t)
    (holds : ∀ u, Small s n k u → Q () u) : Ends (store n off bytes) t Q E :=
  Ends.modify (holds _ (small.change fun _ => rfl))

theorem load {Q : Str → State → Prop} (small : Small s n k t) (holds : ∀ z, Q z t) : Ends (load n) t Q E := by
  obtain ⟨z, here, -⟩ := small.here
  exact load_ends here (holds z)

theorem heap (small : Small s n k t) (there : s.heap q = some y) (other : q ≠ n) : t.heap q = some y :=
  (small.others q other).trans there

/-- A store up to `k` does not stay in the block. -/
theorem spoils {off : Nat} {bytes : List UInt8} (small : Small s n k t) (beyond : k ≤ off + bytes.length) :
    Ends (Strings.store n off bytes) t (fun _ u => u.overran = true) E := by
  obtain ⟨z, here, less⟩ := small.here
  refine Ends.modify ?_
  simp only [State.change, here, State.spoil, Bool.or_eq_true, decide_eq_true_eq]
  exact Or.inr (by omega)

theorem memmove_spoils {off off' m : Nat} (small : Small s n k t) (there : t.heap q = some y) (beyond : k ≤ off + m) :
    Ends (memmove n off q off' m) t (fun _ u => u.overran = true) E := by
  refine Ends.bind (load_ends there (small.spoils ?_))
  rwa [length_readBytes]

theorem cvtup_spoils (small : Small s n k t) (there : t.heap q = some y)
    (beyond : k ≤ (l₁ + y.len.toNat) * sizeofRune) : Ends (cvtup n l₁ q) t (fun _ u => u.overran = true) E := by
  refine Ends.bind (load_ends there (small.spoils ?_))
  rw [length_runes, List.length_map, length_readBytes, ← Nat.add_mul]
  exact beyond

theorem appendRunes_spoils (small : Small s n k t) (there : s.heap q = some y) (other : q ≠ n)
    (beyond : k ≤ (l₁ + y.len.natAbs) * sizeofRune) :
    Ends (appendRunes n q l₁ l) t (fun _ u => u.overran = true) E := by
  simp only [sizeofRune] at beyond
  refine Ends.bind (small.load fun z => Ends.bind (small.setHeader fun u small => ?_))
  refine Ends.bind (load_ends (small.heap there other) (Ends.ite (fun neg => ?_) fun pos => ?_))
  · exact small.memmove_spoils (small.heap there other) (by simp only [sizeofRune]; omega)
  · exact small.cvtup_spoils (small.heap there other) (by simp only [sizeofRune]; omega)

end Small

theorem Str.Good.used (good : x.Good) : x.len.natAbs ≤ x.size ∧ (x.len < 0 → x.len.natAbs * sizeofRune ≤ x.size) := by
  by_cases neg : x.len < 0
  · obtain ⟨used, most⟩ := good.runes neg
    simp only [sizeofRune] at most ⊢
    omega
  · obtain ⟨used, most, -⟩ := good.ascii (by omega)
    omega

/-- From `2 ^ 30 - 16` runes on, the size that is asked for wraps. -/
theorem newrunes_small {nr : Int} {Q : Nat → State → Prop} (lawful : Lawful pool)
    (range : 2 ^ 30 - 16 ≤ nr ∧ nr < 2 ^ 31 - 16) (raised : E s.skip)
    (holds : ∀ t, Small s s.next (4 * nr - 2 ^ 32 + 2 ^ 16 + 8).toNat t → Q s.next t) :
    Ends (newrunes pool nr) s Q E := by
  unfold newrunes
  rw [if_neg (by omega), if_neg (by omega)]
  refine Ends.bind (Ends.bind (Ends.get (Ends.bind (Ends.set ?_))))
  cases given : pool s.next (sizeT (sizeofHeap + int (sizeofString + nr * sizeofRune))) with
  | none => exact raised
  | some b =>
    obtain ⟨few, enough, most⟩ := lawful _ _ _ given
    have wrapped : int (sizeofString + nr * sizeofRune) = 4 * nr + 32 - 2 ^ 32 ∨
        int (sizeofString + nr * sizeofRune) = 4 * nr + 32 - 2 ^ 33 := by
      simp only [int, sizeofString, sizeofRune, Int.bmod_def]
      omega
    have asked : (sizeT (sizeofHeap + int (sizeofString + nr * sizeofRune)) : Int) = 4 * nr - 2 ^ 32 + 64 := by
      simp only [sizeT, sizeofHeap] at few ⊢
      omega
    have small : Small s s.next (4 * nr - 2 ^ 32 + 2 ^ 16 + 8).toNat
        (s.skip.set s.next { ref := 1, len := 0, max := 0, msize := b.msize, data := b.junk }) := by
      refine ⟨⟨_, State.heap_set .., ?_⟩, fun q other => State.heap_set_ne other ..⟩
      simp only [Str.size, sizeofHeap, offData]
      omega
    refine Ends.bind (Ends.modify (Ends.pure (Ends.bind (small.load fun z => ?_))))
    exact Ends.bind (small.setHeader fun u small => Ends.pure (holds u small))

/-- A string that is added to itself in place, in a block that has no room for it three times. -/
theorem appendRunes_self (here : s.heap p = some x) (good : x.Good) (neg : x.len < 0) (double : l = -x.len * 2)
    (short : x.size < x.len.natAbs * 3 * sizeofRune) :
    Ends (appendRunes p p (-x.len).toNat l) s (fun _ t => t.overran = true) E := by
  simp only [sizeofRune] at short
  refine Ends.bind (load_ends here (Ends.bind (setHeader_ends here good.room ?_)))
  have small : Small s p (x.size + 1) (s.set p { x with len := -l, max := x.max }) :=
    ⟨⟨_, State.heap_set .., Nat.lt_succ_self _⟩, fun q other => State.heap_set_ne other ..⟩
  refine Ends.bind (load_ends (State.heap_set ..) (Ends.ite (fun _ => ?_) fun pos => ?_))
  · exact small.memmove_spoils (State.heap_set ..) (by simp only [sizeofRune]; omega)
  · dsimp only at pos
    omega

theorem appendAscii_self (here : s.heap p = some x) (good : x.Good) (pos : 0 ≤ x.len) (double : l = x.len * 2)
    (short : x.size < x.len.natAbs * 3) :
    Ends (appendAscii p p x.len.toNat l) s (fun _ t => t.overran = true) E := by
  refine Ends.bind (load_ends here (Ends.bind (setHeader_ends here good.room ?_)))
  have small : Small s p (x.size + 1) (s.set p { x with len := l, max := x.max }) :=
    ⟨⟨_, State.heap_set .., Nat.lt_succ_self _⟩, fun q other => State.heap_set_ne other ..⟩
  exact Ends.bind (load_ends (State.heap_set ..) (small.memmove_spoils (State.heap_set ..)
    (by dsimp only; omega)))

theorem addPair_self (inv : s.Inv) (here : s.heap p = some x) (room : (x.len.natAbs * 2 : Nat) ≤ x.max)
    (short : x.size < x.len.natAbs * 3 * x.unit) :
    Ends (addPair pool p p true) s (fun _ t => t.overran = true) E := by
  have good := inv.good p x here
  unfold Str.unit at short
  refine Ends.bind (load_ends here (Ends.bind (load_ends here (Ends.ite (fun neg => ?_) fun pos => ?_))))
  · rw [if_pos neg] at short
    dsimp only
    rw [if_pos neg, addTarget, if_pos (by rw [Bool.true_and, decide_eq_true_eq]; omega)]
    exact Ends.bind (Ends.pure (Ends.bind ((appendRunes_self here good neg (by omega) short).imp
      (fun _ t spoilt => spoilt) fun t raised => raised)))
  · rw [if_neg pos] at short
    rw [if_neg pos]
    dsimp only
    rw [addTarget, if_pos (by rw [Bool.true_and, decide_eq_true_eq]; omega)]
    exact Ends.bind (Ends.pure (Ends.bind ((appendAscii_self here good (by omega) (by omega) (by omega)).imp
      (fun _ t spoilt => spoilt) fun t raised => raised)))

theorem addPair_many (lawful : Lawful pool) (inv : s.Inv) (here : s.heap p = some x) (there : s.heap q = some y)
    (runes : x.len < 0 ∨ y.len < 0) (many : 2 ^ 30 - 16 ≤ addRoom append (x.len.natAbs + y.len.natAbs)) (raised : E s.skip) :
    Ends (addPair pool p q append) s (fun _ t => t.overran = true) E := by
  have small₁ := (inv.good p x here).size_lt
  have small₂ := (inv.good q y there).size_lt
  have used₁ := (inv.good p x here).used
  have used₂ := (inv.good q y there).used
  simp only [sizeofRune] at used₁ used₂
  have other₁ : p ≠ s.next := inv.ne_next here
  have other₂ : q ≠ s.next := inv.ne_next there
  obtain ⟨least, most⟩ := addRoom_le append (l := (x.len.natAbs + y.len.natAbs : Int)) (by lia)
  refine Ends.bind (load_ends here (Ends.bind (load_ends there (Ends.ite (fun neg => ?_) fun pos => ?_))))
  · have length : (if y.len < 0 then ((-x.len).toNat : Int) - y.len else (-x.len).toNat + y.len) =
        x.len.natAbs + y.len.natAbs := by
      split
      · lia
      · lia
    dsimp only
    rw [length]
    generalize total : (x.len.natAbs + y.len.natAbs : Int) = l at *
    obtain ⟨fits, -⟩ := (inv.good p x here).runes neg
    have block := (inv.good p x here).runes neg
    simp only [sizeofRune] at block
    have full : ¬(append && decide (l ≤ x.max)) = true := by
      rw [Bool.and_eq_true, decide_eq_true_eq]
      lia
    rw [addTarget, if_neg full, int_of_lt (by lia) (by lia)]
    refine Ends.bind (Ends.bind (newrunes_small lawful (by lia) raised fun t small => ?_))
    refine Ends.bind (Ends.bind (load_ends (small.heap here other₁) (small.store fun u small => Ends.pure ?_)))
    refine Ends.bind ((small.appendRunes_spoils there other₂ ?_).imp (fun _ t spoilt => spoilt) fun t raised => raised)
    simp only [sizeofRune]
    lia
  · rw [if_pos (runes.resolve_left pos)]
    have sum : x.len + ((-y.len).toNat : Int) = x.len.natAbs + y.len.natAbs := by lia
    dsimp only
    rw [sum]
    generalize total : (x.len.natAbs + y.len.natAbs : Int) = l at *
    rw [int_of_lt (by lia) (by lia)]
    refine Ends.bind (newrunes_small lawful (by lia) raised fun t small => ?_)
    refine Ends.bind (small.load fun z => Ends.bind (small.setHeader fun u small => ?_))
    refine Ends.bind (Ends.bind (load_ends (small.heap here other₁) (small.store fun u small => Ends.bind ?_)))
    refine (small.memmove_spoils (small.heap there other₂) ?_).imp (fun _ t spoilt => spoilt) fun t raised => raised
    simp only [sizeofRune]
    lia

/-- The room that `addstring` has for two strings: the runes that it asks for can be asked for, and a string that is
added to itself in place has a block for it three times. -/
structure AddFits (s : State) (s₁ s₂ : Option Nat) (append : Bool) : Prop where
  few : ∀ p q x y, s₁ = some p → s₂ = some q → s.heap p = some x → s.heap q = some y → x.len < 0 ∨ y.len < 0 →
    addRoom (append && !decide (x.ref > 1)) (x.len.natAbs + y.len.natAbs) < 2 ^ 30 - 16
  self : ∀ p x, s₁ = some p → s₂ = some p → s.heap p = some x → append → x.ref ≤ 1 →
    (x.len.natAbs * 2 : Nat) ≤ x.max → x.len.natAbs * 3 * x.unit ≤ x.size

theorem addFits_iff (here : s.heap p = some x) (there : s.heap q = some y) :
    AddFits s (some p) (some q) append ↔ AddOk x y (append && !decide (x.ref > 1)) (p == q) := by
  constructor
  · refine fun fits => ⟨fits.few p q x y rfl rfl here there, fun both same room => ?_⟩
    rw [Bool.and_eq_true, Bool.not_eq_true', decide_eq_false_iff_not, not_lt] at both
    refine fits.self p x rfl ?_ here both.1 both.2 (by exact_mod_cast room)
    rw [eq_of_beq same]
  · refine fun ok => ⟨fun p' q' x' y' first second here' there' => ?_, fun p' x' first second here' yes held room => ?_⟩
    · cases first
      cases second
      rw [here, Option.some.injEq] at here'
      rw [there, Option.some.injEq] at there'
      exact here' ▸ there' ▸ ok.few
    · cases first
      cases second
      rw [here, Option.some.injEq] at here'
      subst here'
      refine ok.self ?_ (beq_self_eq_true p) (by exact_mod_cast room)
      rw [Bool.and_eq_true, Bool.not_eq_true', decide_eq_false_iff_not, not_lt]
      exact ⟨yes, held⟩

/-- `addstring` has stored nothing outside a block and left every other string as it is, and `r` is the
concatenation. -/
structure Joined (s : State) (s₁ s₂ r : Option Nat) (t : State) : Prop where
  inside : t.overran = false
  text : (strOf t.heap r).text = (strOf s.heap s₁).text ++ (strOf s.heap s₂).text
  others : ∀ p, some p ≠ r → t.heap p = s.heap p

theorem Joined.alloc {w : Str} (inv : s.Inv) (text : w.text = (strOf s.heap s₁).text ++ (strOf s.heap s₂).text) :
    Joined s s₁ s₂ (some s.next) (s.skip.set s.next w) := by
  refine ⟨inv.inside, ?_, fun p other => State.heap_set_ne (fun same => other (congrArg some same)) ..⟩
  rw [strOf_some (State.heap_set ..), text]

/-- `addstring` makes the concatenation of any two strings in the block of its result exactly if it has room for it. -/
theorem addstring_exact (lawful : Lawful pool) (inv : s.Inv) (held₁ : ∀ p, s₁ = some p → s.heap p ≠ none)
    (held₂ : ∀ p, s₂ = some p → s.heap p ≠ none) :
    Ends (addstring pool s₁ s₂ append) s (fun r t => Joined s s₁ s₂ r t ↔ AddFits s s₁ s₂ append) fun t => t = s.skip := by
  have alone (nil : s₁ = none ∨ s₂ = none) : AddFits s s₁ s₂ append := by
    refine ⟨fun p q x y first second => ?_, fun p x first second => ?_⟩
    · exact nil.elim (fun none => nomatch none.symm.trans first) fun none => nomatch none.symm.trans second
    · exact nil.elim (fun none => nomatch none.symm.trans first) fun none => nomatch none.symm.trans second
  cases s₁ with
  | none =>
    cases s₂ with
    | none => exact iff_of_true ⟨inv.inside, rfl, fun _ _ => rfl⟩ (alone (Or.inl rfl))
    | some q =>
      obtain ⟨y, there⟩ := Option.ne_none_iff_exists'.mp (held₂ q rfl)
      refine Ends.map (stringdup_ends lawful inv there rfl fun w good ref len text _ => ?_)
      refine iff_of_true (Joined.alloc inv ?_) (alone (Or.inl rfl))
      rw [text, text_nil, strOf_some there, List.nil_append]
  | some p =>
    obtain ⟨x, here⟩ := Option.ne_none_iff_exists'.mp (held₁ p rfl)
    refine Ends.bind (load_ends here ?_)
    cases s₂ with
    | none =>
      refine Ends.ite (fun append => ?_) fun _ => Ends.map (stringdup_ends lawful inv here rfl fun w good ref len text _ => ?_)
      · refine iff_of_true ⟨inv.inside, ?_, fun _ _ => rfl⟩ (alone (Or.inr rfl))
        rw [text_nil, List.append_nil]
      · refine iff_of_true (Joined.alloc inv ?_) (alone (Or.inr rfl))
        rw [text, text_nil, strOf_some here, List.append_nil]
    | some q =>
      obtain ⟨y, there⟩ := Option.ne_none_iff_exists'.mp (held₂ q rfl)
      rw [addFits_iff here there]
      generalize (append && !decide (x.ref > 1)) = append
      refine Ends.map ?_
      by_cases ok : AddOk x y append (p == q)
      · have text : x.text ++ y.text = (strOf s.heap (some p)).text ++ (strOf s.heap (some q)).text := by
          rw [strOf_some here, strOf_some there]
        refine addPair_ends lawful inv here there ok rfl (fun _ w good ref joined => ?_) fun w good ref joined => ?_
        · refine iff_of_true ⟨inv.inside, ?_, fun k other => ?_⟩ ok
          · rw [strOf_some (State.heap_set ..), joined, text]
          · exact State.heap_set_ne (fun same => other (congrArg some same)) ..
        · exact iff_of_true (Joined.alloc inv (joined.trans text)) ok
      · have spoilt : Ends (addPair pool p q append) s (fun _ t => t.overran = true) fun t => t = s.skip := by
          by_cases few : x.len < 0 ∨ y.len < 0 → addRoom append (x.len.natAbs + y.len.natAbs) < 2 ^ 30 - 16
          · have self := mt (AddOk.mk few) ok
            simp only [Classical.not_imp, not_le] at self
            obtain ⟨yes, same, room, short⟩ := self
            obtain rfl : p = q := eq_of_beq same
            rw [yes]
            exact addPair_self inv here (by exact_mod_cast room) short
          · obtain ⟨runes, many⟩ := Classical.not_imp.mp few
            exact addPair_many lawful inv here there runes (not_lt.mp many) rfl
        refine spoilt.imp (fun r t overran => iff_of_false (fun joined => ?_) ok) fun t raised => raised
        rw [joined.inside] at overran
        nomatch overran

/-- The one variable holds `len` letters. -/
def letters (len : Nat) : State :=
  (exec heapmem (Event.c2string 0 (List.replicate len 0x61)) oneSlot).getD oneSlot

theorem letters_inv : (letters 1).Inv :=
  exec_inv heapmem_lawful oneSlot_fresh.inv (e := Event.c2string 0 [0x61]) ⟨by decide, fun nc runes => nomatch runes⟩ rfl

theorem addstring_exact_letter : (letters 1).Inv ∧
    Ends (addstring heapmem (some 0) (some 0) true) (letters 1)
      (fun r t => Joined (letters 1) (some 0) (some 0) r t ↔ AddFits (letters 1) (some 0) (some 0) true)
      fun t => t = (letters 1).skip := by
  have held : ∀ p, some 0 = some p → (letters 1).heap p ≠ none := by
    rintro p ⟨⟩
    exact Option.some_ne_none _
  exact ⟨letters_inv, addstring_exact heapmem_lawful letters_inv held held⟩

/-- Eleven characters added to themselves, past the end of the block. -/
theorem addstring_broken :
    ∃ r t, addstring heapmem (some 0) (some 0) true (letters 11) = .ok r t ∧ t.overran = true :=
  ⟨_, _, rfl, by decide⟩

end Inferno.Strings
