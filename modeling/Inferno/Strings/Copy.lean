import Inferno.Strings.Spec

namespace Inferno.Strings

open Lib

variable {s : State} {p q d : Nat} {x y : Str} {n : Int} {bytes : List UInt8} {E : State → Prop}
  {pool : Nat → Nat → Option Block}

/-- The bytes of an ASCII string are its characters. -/
theorem Str.Good.low (good : x.Good) (pos : 0 ≤ x.len) {off n : Nat} (inside : (off + n : Nat) ≤ x.len) :
    ∀ b ∈ readBytes x.data off n, b.toNat < 0x80 := by
  induction n generalizing off with
  | zero => exact fun b none => nomatch none
  | succ n ih =>
    intro b there
    rcases List.mem_cons.mp there with rfl | later
    · exact (good.ascii pos).2.2 off (by omega)
    · exact ih (by omega) b later

/-- ASCII characters stored over those of a string and up to its length. -/
theorem low_poke {mem : ByteMem} {off len : Nat} (before : ∀ i, i < off → (mem i).toNat < 0x80)
    (most : len ≤ off + bytes.length) (low : ∀ b ∈ bytes, b.toNat < 0x80) :
    ∀ i, i < len → (poke mem off bytes i).toNat < 0x80 := by
  intro i less
  by_cases at_ : off ≤ i
  · exact low _ (poke_mem at_ (by omega))
  · rw [poke_outside (Or.inl (by omega))]
    exact before i (by omega)

namespace Str.New

theorem ascii {data : ByteMem} (new : y.New n) (len : Int) (most : y.max + (sizeofHeap + sizeofString : Nat) = y.msize)
    (pos : 0 ≤ len) (fits : len ≤ n) (low : ∀ i : Nat, i < len.toNat → (data i).toNat < 0x80) :
    ({ y with len, data } : Str).Good := by
  obtain ⟨-, room, small, enough⟩ := new
  simp only [sizeofHeap, sizeofString] at room enough most
  refine ⟨?_, small, fun _ => ⟨?_, ?_, fun i less => ?_⟩, fun neg => ?_⟩
  · simp only [sizeofHeap, offData]
    omega
  · dsimp only
    omega
  · simp only [Str.size, sizeofHeap, offData]
    omega
  · dsimp only at less
    exact low i (by omega)
  · dsimp only at neg
    omega

theorem runes {data : ByteMem} (new : y.New n) (len max : Int) (neg : len < 0) (fits : -len ≤ max)
    (most : max ≤ (y.msize - (sizeofHeap + sizeofString : Nat) : Int) / sizeofRune) :
    ({ y with len, max, data } : Str).Good := by
  obtain ⟨-, room, small, enough⟩ := new
  simp only [sizeofHeap, sizeofString, sizeofRune] at room enough most
  refine ⟨?_, small, fun pos => ?_, fun _ => ⟨fits, ?_⟩⟩
  · simp only [sizeofHeap, offData]
    lia
  · dsimp only at pos
    lia
  · simp only [Str.size, sizeofHeap, offData, sizeofRune]
    lia

theorem size (new : y.New n) : n ≤ y.size := by
  obtain ⟨-, room, -, enough⟩ := new
  simp only [Str.size, sizeofHeap, sizeofString, offData] at room enough ⊢
  omega

end Str.New

/-- A string of runes may hold any runes. -/
theorem Str.Good.redata {data : ByteMem} (good : x.Good) (neg : x.len < 0) : ({ x with data } : Str).Good := by
  refine ⟨good.room, good.small, fun pos => ?_, good.runes⟩
  dsimp only at pos
  omega

theorem State.Inv.ne_next (inv : s.Inv) (here : s.heap p = some x) : p ≠ s.next := Nat.ne_of_lt (inv.lt_next here)

theorem State.Inv.heap_alloc (inv : s.Inv) (here : s.heap p = some x) (y : Str) :
    (s.skip.set s.next y).heap p = some x := by
  rw [State.heap_set_ne (inv.ne_next here)]
  exact here

theorem stringdup_ends {Q : Nat → State → Prop} (lawful : Lawful pool) (inv : s.Inv) (here : s.heap p = some x)
    (raised : E s.skip)
    (holds : ∀ y : Str, y.Good → y.ref = 1 → y.len = x.len → y.text = x.text →
      sizeofHeap + sizeofString ≤ y.msize → Q s.next (s.skip.set s.next y)) :
    Ends (stringdup pool p) s Q E := by
  have good := inv.good p x here
  have small := good.size_lt
  refine Ends.bind (load_ends here (Ends.ite (fun pos => ?_) fun neg => ?_))
  · obtain ⟨used, most, -⟩ := good.ascii pos
    have whole : int x.len = x.len := by
      simp only [int, Int.bmod_def]
      lia
    rw [whole]
    refine Ends.bind (newstring_ends lawful raised (by lia) fun y _ new len most => ?_)
    have fits := new.size
    refine Ends.bind (memmove_ends (State.heap_set ..) (inv.heap_alloc here y) (by lia) ?_)
    rw [State.set_set]
    refine holds _ (new.ascii y.len most (by lia) (by lia) ?_) new.ref len ?_ new.room
    · refine low_poke (fun i less => by lia) ?_ (good.low pos (by lia))
      rw [length_readBytes, len]
      lia
    · refine Str.text_congr (congrArg Int.natAbs len) fun i less => ?_
      rw [Str.char_ascii (by dsimp only; lia), Str.char_ascii pos]
      exact congrArg UInt8.toNat (poke_first (by lia))
  · obtain ⟨used, most⟩ := good.runes (by lia)
    simp only [sizeofRune] at most
    have whole : int (-x.len) = -x.len := by
      simp only [int, Int.bmod_def]
      lia
    rw [whole]
    refine Ends.bind (newrunes_ends lawful raised (by lia) fun y new len most => ?_)
    have fits := new.size
    have enough := new.fits
    simp only [sizeofRune, sizeofHeap, sizeofString] at fits enough most
    refine Ends.bind (memmove_ends (State.heap_set ..) (inv.heap_alloc here y) ?_ ?_)
    · simp only [sizeofRune]
      lia
    · rw [State.set_set]
      have same : y.len = x.len := by lia
      refine holds _ (new.runes y.len y.max (by lia) (by lia) ?_) new.ref same ?_ new.room
      · simp only [sizeofRune, sizeofHeap, sizeofString]
        lia
      · refine Str.text_congr (congrArg Int.natAbs same) fun i less => ?_
        rw [Str.char_rune (by dsimp only; lia), Str.char_rune (by lia)]
        exact runeAt_first (by simp only [sizeofRune]; lia)

/-- A pointer to a string with a reference more than it has slots. -/
theorem State.Inv.spare_alloc (inv : s.Inv) (ref : y.ref = 1) : (s.skip.set s.next y).Spare (some s.next) := by
  intro q same
  cases same
  refine ⟨y, State.heap_set .., ?_⟩
  rw [State.set_slots, State.skip_slots, inv.count_next, ref]
  exact Nat.one_pos

theorem heap_destroyed {k : Nat} {o : Option Nat} (other : o ≠ some k) : (s.destroyed o).heap k = s.heap k := by
  cases o with
  | none => rfl
  | some p =>
    have ne : k ≠ p := fun same => other (same ▸ rfl)
    simp only [State.destroyed]
    split
    · split
      · exact State.heap_set_ne ne ..
      · exact Function.update_of_ne ne ..
    · rfl

theorem getD_set_slot {l : List (Option Nat)} (below : d < l.length) (p : Option Nat) : (l.set d p).getD d none = p := by
  rw [List.getD_eq_getElem _ _ (by rwa [List.length_set])]
  exact List.getElem_set_self _

theorem lt_of_getD {l : List (Option Nat)} (at_ : l.getD d none = some p) : d < l.length := by
  by_contra le
  rw [List.getD_eq_default _ _ (by omega)] at at_
  nomatch at_

/-- The text of the string in a slot. -/
def State.textAt (s : State) (d : Nat) : List Nat := (strOf s.heap (s.slots.getD d none)).text

/-- Every variable has the same text as before. -/
structure Same (s t : State) : Prop where
  length : t.slots.length = s.slots.length
  text : ∀ e, t.textAt e = s.textAt e

theorem strOf_some {heap : Nat → Option Str} (here : heap p = some x) : strOf heap (some p) = x := by
  simp only [strOf, Option.bind_some, here, Option.getD_some]

theorem text_nil (heap : Nat → Option Str) : (strOf heap none).text = [] := rfl

theorem strOf_congr {heap heap' : Nat → Option Str} {o : Option Nat} (same : ∀ k, o = some k → heap' k = heap k) :
    strOf heap' o = strOf heap o := by
  cases o with
  | none => rfl
  | some k => simp only [strOf, Option.bind_some, same k rfl]

theorem getD_mem {l : List (Option Nat)} (at_ : l.getD d none = some p) : some p ∈ l := by
  have below := lt_of_getD at_
  rw [List.getD_eq_getElem _ _ below] at at_
  exact at_ ▸ List.getElem_mem below

theorem getD_set_ne {l : List (Option Nat)} {e : Nat} (other : e ≠ d) (p : Option Nat) :
    (l.set d p).getD e none = l.getD e none := by
  simp only [List.getD_eq_getElem?_getD, List.getElem?_set_ne other.symm]

theorem two_le_count {l : List (Option Nat)} {e : Nat} (other : e ≠ d) (here : l.getD d none = some p)
    (there : l.getD e none = some p) : 2 ≤ l.count (some p) := by
  have counts := count_set_slot (lt_of_getD here) none p
  rw [if_pos here, if_neg (Option.some_ne_none p).symm] at counts
  have left : 0 < (l.set d none).count (some p) :=
    List.count_pos_iff.mpr (getD_mem ((getD_set_ne other none).trans there))
  omega

/-- What the variables hold once the one in the slot `d` has given way: `u` is `t` with a string changed or added that
no slot points to. -/
theorem textAt_assigned {t u : State} {o : Option Nat} (inv : t.Inv) (slots : u.slots = t.slots)
    (agree : ∀ k, some k ∈ t.slots → u.heap k = t.heap k) (below : d < t.slots.length)
    (fresh : ∀ q, o = some q → some q ∉ t.slots) :
    ({ u.destroyed (u.slots.getD d none) with slots := u.slots.set d o } : State).textAt d = (strOf u.heap o).text ∧
    (∀ e, e ≠ d → ({ u.destroyed (u.slots.getD d none) with slots := u.slots.set d o } : State).textAt e = t.textAt e) ∧
    (u.destroyed (u.slots.getD d none)).overran = u.overran := by
  rw [slots]
  refine ⟨?_, fun e other => ?_, ?_⟩
  · simp only [State.textAt]
    rw [getD_set_slot below]
    refine congrArg Str.text (strOf_congr fun k same => heap_destroyed fun held => ?_)
    exact fresh k same (getD_mem held)
  · simp only [State.textAt]
    rw [getD_set_ne other]
    cases held : t.slots.getD e none with
    | none => rfl
    | some k =>
      have there := getD_mem held
      obtain ⟨x, here⟩ := Option.ne_none_iff_exists'.mp (inv.held k there)
      rw [strOf_some here]
      have here' := (agree k there).trans here
      by_cases old : t.slots.getD d none = some k
      · have many := (two_le_count other old held).trans (inv.counted k x here)
        simp only [old, State.destroyed, here', if_pos (show x.ref > 1 by omega)]
        rw [strOf_some (State.heap_set ..)]
        rfl
      · rw [strOf_some ((heap_destroyed old).trans here')]
  · cases held : t.slots.getD d none with
    | none => rfl
    | some k =>
      have there := getD_mem held
      obtain ⟨x, here⟩ := Option.ne_none_iff_exists'.mp (inv.held k there)
      simp only [State.destroyed, (agree k there).trans here]
      split
      · rfl
      · rfl

theorem State.Inv.not_next (inv : s.Inv) : some s.next ∉ s.slots := fun held =>
  inv.held _ held (inv.fresh _ (Nat.le_refl _))

theorem State.Inv.agree_alloc (inv : s.Inv) (y : Str) {k : Nat} (held : some k ∈ s.slots) :
    (s.skip.set s.next y).heap k = s.heap k := by
  refine State.heap_set_ne (fun same => ?_) ..
  exact inv.not_next (same ▸ held)

theorem same_refl (s : State) : Same s s := ⟨rfl, fun _ => rfl⟩

theorem same_skip (s : State) : Same s s.skip := ⟨rfl, fun _ => rfl⟩

theorem State.Inv.same_alloc (inv : s.Inv) (y : Str) : Same s (s.skip.set s.next y) := by
  refine ⟨rfl, fun e => congrArg Str.text (strOf_congr fun k held => ?_)⟩
  exact inv.agree_alloc y (getD_mem held)

/-- `destroy(ss); *s = ns` at the end of `splitc`. -/
theorem install_ends {Q : Nat → State → Prop} (inv : s.Inv) (old : s.slots.getD d none = some p)
    (here : s.heap p = some x) (good : y.Good) (ref : y.ref = 1)
    (text : y.text = x.text)
    (holds : ∀ t : State, t.Inv → t.heap s.next = some y → t.slots.getD d none = some s.next → Same s t → Q s.next t) :
    Ends (do destroy (some p); setSlot d (some s.next); return s.next) (s.skip.set s.next y) Q E := by
  have inv' := inv.alloc good
  have old' : (s.skip.set s.next y).slots.getD d none = some p := old
  refine Ends.bind (destroy_ends (Ends.bind (setSlot_ends (holds _ ?_ ?_ ?_ ?_))))
  · rw [destroyed_slots, ← old']
    exact inv'.assigned (inv.spare_alloc ref)
  · have ne : some p ≠ some s.next := fun same => inv.ne_next here (Option.some.inj same)
    exact (heap_destroyed ne).trans (State.heap_set ..)
  · rw [destroyed_slots]
    exact getD_set_slot (lt_of_getD old) _
  · have texts := @textAt_assigned d s (s.skip.set s.next y) (some s.next) inv rfl (fun k => inv.agree_alloc y) (lt_of_getD old)
      (fun q same => by cases same; exact inv.not_next)
    rw [old'] at texts
    rw [destroyed_slots]
    refine ⟨List.length_set, fun e => ?_⟩
    by_cases same : e = d
    · rw [same, texts.1, strOf_some (State.heap_set ..), text, State.textAt, old, strOf_some here]
    · exact texts.2.1 e same

theorem splitc_ends {expand : Bool} {Q : Nat → State → Prop} (lawful : Lawful pool) (inv : s.Inv)
    (here : s.heap p = some x) (old : s.slots.getD d none = some p) (few : expand → x.len < 2 ^ 30 - 16)
    (raised : E s.skip)
    (holds : ∀ (y : Str) (t : State), t.Inv → t.heap s.next = some y → t.slots.getD d none = some s.next → y.ref = 1 →
      (y.len = if expand ∧ x.len > 0 then -x.len else x.len) → y.text = x.text →
      sizeofHeap + sizeofString ≤ y.msize → Same s t → Q s.next t) :
    Ends (splitc pool d p expand) s Q E := by
  refine Ends.bind (load_ends here ?_)
  dsimp only
  refine Ends.ite (fun wide => ?_) fun narrow => ?_
  · have few := few wide.1
    have whole : int x.len = x.len := by
      simp only [int, Int.bmod_def]
      lia
    rw [whole]
    refine Ends.bind (newrunes_ends lawful raised (by lia) fun y new len most => ?_)
    have fits := new.size
    have enough := new.fits
    simp only [sizeofRune, sizeofHeap, sizeofString] at fits enough most
    refine Ends.bind (cvtup_ends (State.heap_set ..) (inv.heap_alloc here y) ?_ fun data copied _ => ?_)
    · simp only [sizeofRune]
      lia
    · rw [State.set_set]
      have good : ({ y with data } : Str).Good := by
        refine new.runes y.len y.max (by lia) (by lia) ?_
        simp only [sizeofRune, sizeofHeap, sizeofString]
        lia
      have text : ({ y with data } : Str).text = x.text := by
        refine Str.text_congr (by dsimp only; lia) fun i less => ?_
        rw [Str.char_rune (by dsimp only; lia), Str.char_ascii (by lia), ← copied i (by lia), Nat.zero_add]
      refine Ends.bind (Ends.pure (install_ends inv old here good new.ref text fun t inv here slot same => ?_))
      refine holds _ t inv here slot new.ref ?_ text new.room same
      rw [if_pos wide]
      exact len
  · refine Ends.bind (stringdup_ends lawful inv here raised fun y good ref len text room => ?_)
    refine install_ends inv old here good ref text fun t inv here slot same => holds _ t inv here slot ref ?_ text room same
    rw [if_neg narrow]
    exact len

end Inferno.Strings
