import Inferno.Strings.Copy

namespace Inferno.Strings

open Lib

variable {s t : State} {p q d v l : Nat} {x y : Str} {m r : Int} {E : State → Prop} {Q : Nat → State → Prop}
  {pool : Nat → Nat → Option Block}

/-- The string `p` is in the slot `d`, or free to be put there. -/
def State.Mine (s : State) (d p : Nat) : Prop := s.slots.getD d none = some p ∨ s.Spare (some p)

theorem State.Inv.mine_alloc (inv : s.Inv) (ref : y.ref = 1) : (s.skip.set s.next y).Mine d s.next :=
  Or.inr (inv.spare_alloc ref)

theorem State.Mine.set (mine : s.Mine d p) (here : s.heap p = some x) (ref : y.ref = x.ref) : (s.set p y).Mine d p := by
  rcases mine with held | spare
  · exact Or.inl held
  · refine Or.inr fun q same => ?_
    cases same
    refine ⟨y, State.heap_set .., ?_⟩
    rw [ref]
    exact spare.ref rfl here

/-- Room for one character more, and a quarter. -/
theorem grown_eq (less : v < 2 ^ 31) : (u32 ((v : Int) + 1 + v / 4) : Int) = (v : Int) + 1 + v / 4 :=
  u32_of_lt (by omega) (by omega)

/-- `w` is `x` with the character `c` at `v`, perhaps behind its last. -/
structure Put (x : Str) (v c : Nat) (w : Str) : Prop where
  length : w.len.natAbs = max x.len.natAbs (v + 1)
  here : w.char v = c
  rest : ∀ i, i < x.len.natAbs → i ≠ v → w.char i = x.char i

theorem put_rune {w : Str} {mem : ByteMem} {c : Nat} (neg : w.len < 0) (length : w.len.natAbs = max x.len.natAbs (v + 1))
    (written : Written w.data mem v [c]) (less : c < 2 ^ 32) (kept : ∀ i, i < x.len.natAbs → runeAt mem i = x.char i) :
    Put x v c w := by
  refine ⟨length, ?_, fun i inside other => ?_⟩
  · rw [Str.char_rune neg]
    exact (written.here 0 Nat.one_pos).trans (Nat.mod_eq_of_lt less)
  · rw [Str.char_rune neg, written.rest i (by rw [List.length_singleton]; omega), kept i inside]

theorem put_ascii {w : Str} {mem : ByteMem} {b : UInt8} (pos : 0 ≤ w.len)
    (length : w.len.natAbs = max x.len.natAbs (v + 1)) (data : w.data = poke mem v [b])
    (kept : ∀ i, i < x.len.natAbs → (mem i).toNat = x.char i) : Put x v b.toNat w := by
  refine ⟨length, ?_, fun i inside other => ?_⟩
  · rw [Str.char_ascii pos, data, poke, if_pos (Nat.le_refl v), Nat.sub_self]
    rfl
  · rw [Str.char_ascii pos, data, poke_outside (by rw [List.length_singleton]; omega), kept i inside]

theorem u32_lt (r : Int) : u32 r < 2 ^ 32 := by
  simp only [u32]
  omega

theorem inscRune_ends (lawful : Lawful pool) (inv : s.Inv) (here : s.heap p = some x) (length : (l : Int) = -x.len)
    (room : x.len = 0 → v = 0 → 0 < x.max → sizeofRune ≤ x.size) (bounds : l < v → E s) (raised : v = l → E s.skip)
    (inPlace : ∀ w : Str, w.ref = x.ref → Put x v (u32 r) w →
      ((x.len = 0 → v = 0 → x.max * sizeofRune ≤ x.size) → w.Good) → v ≤ l → Q p (s.set p w))
    (new : ∀ w : Str, w.ref = 1 → Put x v (u32 r) w → w.Good → v = l → Q s.next (s.skip.set s.next w)) :
    Ends (inscRune pool p l v r) s Q E := by
  have good := inv.good p x here
  have small := good.size_lt
  have most : (l : Int) * 4 ≤ x.size ∧ (v = l → v < x.max → (l + 1 : Int) * 4 ≤ x.size) := by
    simp only [sizeofRune] at room
    by_cases neg : x.len < 0
    · obtain ⟨used, most⟩ := good.runes neg
      simp only [sizeofRune] at most
      lia
    · lia
  have runes : ∀ i, i < x.len.natAbs → runeAt x.data i = x.char i := fun i less => (Str.char_rune (by lia) i).symm
  refine Ends.bind (load_ends here (Ends.ite (fun before => ?_) fun after => ?_))
  · have neg : x.len < 0 := by lia
    refine Ends.bind (storeRunes_ends here ?_ fun data written => ?_)
    · simp only [List.length_singleton, sizeofRune]
      lia
    · exact inPlace _ rfl (put_rune neg (by dsimp only; lia) written (u32_lt r) runes) (fun _ => good.redata neg)
        (by lia)
  · refine Ends.ite (fun fits => ?_) fun full => Ends.ite (fun beyond => bounds (by lia)) fun end_ => ?_
    · refine Ends.bind (setHeader_ends here good.room (Ends.bind ?_))
      refine storeRunes_ends (State.heap_set ..) ?_ fun data written => ?_
      · simp only [Str.size, List.length_singleton, sizeofRune] at most ⊢
        lia
      · rw [State.set_set]
        refine inPlace _ rfl (put_rune (by dsimp only; lia) (by dsimp only; lia) written (u32_lt r) runes)
          (fun whole => ⟨good.room, good.small, fun pos => ?_, fun _ => ⟨?_, ?_⟩⟩) (by lia)
        · dsimp only at pos
          lia
        · dsimp only
          lia
        · by_cases neg : x.len < 0
          · exact (good.runes neg).2
          · exact whole (by lia) (by lia)
    · have whole : int (u32 ((v : Int) + 1 + v / 4) * sizeofRune) = ((v : Int) + 1 + v / 4) * 4 := by
        rw [grown_eq (by lia), int_of_lt]
        · rfl
        · simp only [sizeofRune]
          lia
        · simp only [sizeofRune]
          lia
      rw [whole]
      refine Ends.bind (newstring_ends lawful (raised (by lia)) (by lia) fun y _ grown len top => ?_)
      have fits := grown.size
      refine Ends.bind (memmove_ends (State.heap_set ..) (inv.heap_alloc here y) ?_ ?_)
      · simp only [sizeofRune]
        lia
      refine Ends.bind (storeRunes_ends (State.heap_set ..) ?_ fun data written => ?_)
      · simp only [Str.size, List.length_singleton, sizeofRune] at fits ⊢
        lia
      refine Ends.bind (load_ends (State.heap_set ..) (Ends.bind (setHeader_ends (State.heap_set ..) ?_ ?_)))
      · have room := grown.room
        simp only [sizeofHeap, sizeofString, offData] at room ⊢
        lia
      · simp only [State.set_set]
        have enough := grown.fits
        have bound := grown.small
        simp only [sizeofHeap, sizeofString] at enough top
        refine new _ grown.ref (put_rune (by dsimp only; lia) (by dsimp only; lia) written (u32_lt r) fun i less => ?_)
          (grown.runes _ _ (by lia) ?_ ?_) (by lia)
        · rw [← runes i less]
          exact runeAt_first (by simp only [sizeofRune]; lia)
        · simp only [sizeT, sizeofRune]
          lia
        · simp only [sizeT, sizeofRune, sizeofHeap, sizeofString]
          lia

theorem low_single {b : UInt8} {data : ByteMem} {len : Int} {n : Nat} (low : b.toNat < 0x80)
    (old : ∀ i : Nat, (i : Int) < len → (data i).toNat < 0x80) (below : (n : Int) ≤ len) :
    ∀ i : Nat, i < len ∨ i = n → (poke data n [b] i).toNat < 0x80 := by
  intro i less
  by_cases same : i = n
  · have there : poke data n [b] i ∈ [b] :=
      poke_mem (Nat.le_of_eq same.symm) (by rw [List.length_singleton]; omega)
    rw [List.mem_singleton.mp there]
    exact low
  · rw [poke_outside (by rw [List.length_singleton]; omega)]
    exact old i (less.resolve_right same)

theorem inscAscii_ends (lawful : Lawful pool) (inv : s.Inv) (here : s.heap p = some x) (length : (l : Int) = x.len)
    (bounds : l < v → E s) (raised : v = l → E s.skip)
    (inPlace : ∀ w : Str, w.ref = x.ref → Put x v (UInt8.ofNat (u32 r)).toNat w →
      ((UInt8.ofNat (u32 r)).toNat < 0x80 → w.Good) → v ≤ l → Q p (s.set p w))
    (new : ∀ w : Str, w.ref = 1 → Put x v (UInt8.ofNat (u32 r)).toNat w →
      ((UInt8.ofNat (u32 r)).toNat < 0x80 → w.Good) → v = l → Q s.next (s.skip.set s.next w)) :
    Ends (inscAscii pool p l v r) s Q E := by
  have good := inv.good p x here
  have small := good.size_lt
  obtain ⟨used, most, chars⟩ := good.ascii (by lia)
  have bytes : ∀ i, i < x.len.natAbs → (x.data i).toNat = x.char i := fun i _ => (Str.char_ascii (by lia) i).symm
  refine Ends.bind (load_ends here (Ends.ite (fun before => ?_) fun after => ?_))
  · refine Ends.bind (store_ends here ?_ ?_)
    · simp only [List.length_singleton]
      lia
    · refine inPlace _ rfl (put_ascii (by dsimp only; lia) (by dsimp only; lia) rfl bytes)
        (fun low => ⟨good.room, good.small, fun pos => ⟨used, most, fun i less => ?_⟩, good.runes⟩) (by lia)
      exact low_single low chars (by lia) i (Or.inl less)
  · refine Ends.ite (fun fits => ?_) fun full => Ends.ite (fun beyond => bounds (by lia)) fun end_ => ?_
    · refine Ends.bind (setHeader_ends here good.room (Ends.bind (store_ends (State.heap_set ..) ?_ ?_)))
      · simp only [Str.size, List.length_singleton] at most ⊢
        lia
      · rw [State.set_set]
        refine inPlace _ rfl (put_ascii (by dsimp only; lia) (by dsimp only; lia) rfl bytes)
          (fun low => ⟨good.room, good.small, fun pos => ⟨?_, most, fun i less => ?_⟩, fun neg => ?_⟩) (by lia)
        · dsimp only
          lia
        · dsimp only at less
          exact low_single low chars (by lia) i (by lia)
        · dsimp only at neg
          lia
    · have whole : int (u32 ((v : Int) + 1 + v / 4)) = (v : Int) + 1 + v / 4 := by
        rw [grown_eq (by lia), int_of_lt (by lia) (by lia)]
      rw [whole]
      refine Ends.bind (newstring_ends lawful (raised (by lia)) (by lia) fun y _ grown len top => ?_)
      have fits := grown.size
      refine Ends.bind (memmove_ends (State.heap_set ..) (inv.heap_alloc here y) (by lia) ?_)
      refine Ends.bind (store_ends (State.heap_set ..) ?_ ?_)
      · simp only [Str.size, List.length_singleton] at fits ⊢
        lia
      refine Ends.bind (load_ends (State.heap_set ..) (Ends.bind (setHeader_ends (State.heap_set ..) ?_ ?_)))
      · have room := grown.room
        simp only [sizeofHeap, sizeofString, offData] at room ⊢
        lia
      · simp only [State.set_set]
        have copied : ∀ i : Nat, (i : Int) < x.len → poke y.data 0 (readBytes x.data 0 l) i = x.data i :=
          fun i less => poke_first (by lia)
        refine new _ grown.ref (put_ascii (by dsimp only; lia) (by dsimp only; lia) rfl fun i less => ?_)
          (fun low => grown.ascii (v + 1) top (by lia) (by lia) fun i less => ?_) (by lia)
        · rw [copied i (by lia), bytes i less]
        · exact low_single low (fun i less => by rw [copied i less]; exact chars i less) (by lia) i (by lia)

/-- The string in a slot. -/
def State.at (s : State) (d : Nat) : Option Str := (s.slots.getD d none).bind s.heap

theorem State.Inv.at_slot (inv : s.Inv) (held : s.slots.getD d none = some p) :
    ∃ x, s.heap p = some x ∧ s.at d = some x := by
  obtain ⟨x, here⟩ := Option.ne_none_iff_exists'.mp (inv.held p (getD_mem held))
  refine ⟨x, here, ?_⟩
  rw [State.at, held]
  exact here

/-- An `insc` that keeps the representation: no value that is not ASCII goes to an ASCII string as a byte, no rune
makes a string of runes out of an empty one in place, and the string to expand is not too long for `int`. -/
def InscOk (s : State) (d : Nat) (m r : Int) : Prop :=
  (∀ x, s.at d = some x → r ≥ runeself → (x.len = 0 → u32 m ≠ 0) ∧ x.len < 2 ^ 30 - 16) ∧
  (r < 0 → (∀ x, s.at d = some x → 0 ≤ x.len ∧ u32 m ≤ x.len) → (s.at d = none → u32 m = 0) →
    (UInt8.ofNat (u32 r)).toNat < 0x80)

theorem inscTarget_ends {expand : Bool} (lawful : Lawful pool) (inv : s.Inv)
    (few : ∀ x, s.at d = some x → expand → x.len < 2 ^ 30 - 16) (raised : ∀ t : State, t.Inv → Same s t → E t)
    (holds : ∀ (p : Nat) (y : Str) (t : State), t.Inv → t.heap p = some y → t.Mine d p → y.ref ≤ 1 →
      y.text = s.textAt d → Same s t → (s.at d = none → y.len = 0 ∧ (expand → y.max * sizeofRune ≤ y.size)) →
      (∀ x, s.at d = some x → (y.len = if expand ∧ x.len > 0 then -x.len else x.len) ∧ (x.len = 0 → sizeofRune ≤ x.size →
        sizeofRune ≤ y.size)) → Q p t) :
    Ends (inscTarget pool d expand) s Q E := by
  refine Ends.bind (slot_ends ?_)
  cases held : s.slots.getD d none with
  | none =>
    have nil : s.at d = none := by rw [State.at, held]; rfl
    have lost : ∀ x, s.at d ≠ some x := fun x here => by rw [nil] at here; nomatch here
    have blank : s.textAt d = [] := by rw [State.textAt, held]; rfl
    refine Ends.bind (newstring_ends lawful (raised _ inv.skip (same_skip s)) (by lia) fun y _ new len top => ?_)
    refine Ends.bind (load_ends (State.heap_set ..) ?_)
    dsimp only
    have fits := new.size
    have bound := new.small
    have room := new.room
    simp only [sizeofHeap, sizeofString] at top room
    have low : ∀ i : Nat, (i : Int) < y.len → (y.data i).toNat < 0x80 := fun i less => by lia
    have text : y.text = s.textAt d := by
      rw [blank, Str.text, len]
      rfl
    refine Ends.ite (fun wide => ?_) fun narrow => ?_
    · refine Ends.bind (setHeader_ends (State.heap_set ..) ?_ ?_)
      · simp only [sizeofHeap, offData]
        lia
      · rw [State.set_set]
        refine holds _ _ _ (inv.alloc ⟨?_, bound, fun pos => ⟨?_, ?_, low⟩, fun neg => ?_⟩) (State.heap_set ..)
          (inv.mine_alloc new.ref) new.ref.le text (inv.same_alloc _) (fun _ => ⟨len, fun _ => ?_⟩)
          fun x here => absurd here (lost x)
        · simp only [sizeofHeap, offData]
          lia
        · simp only [sizeT, sizeofRune]
          lia
        · simp only [Str.size, sizeT, sizeofRune, sizeofHeap, offData]
          lia
        · dsimp only at neg
          lia
        · simp only [Str.size, sizeT, sizeofRune, sizeofHeap, offData]
          lia
    · refine holds _ _ _ (inv.alloc ⟨?_, bound, fun pos => ⟨?_, ?_, low⟩, fun neg => ?_⟩) (State.heap_set ..)
          (inv.mine_alloc new.ref) new.ref.le text (inv.same_alloc _) (fun _ => ⟨len, fun wide => absurd wide narrow⟩)
          fun x here => absurd here (lost x)
      · simp only [sizeofHeap, offData]
        lia
      · lia
      · simp only [Str.size, sizeofHeap, offData]
        lia
      · lia
  | some p =>
    obtain ⟨x, here, at_⟩ := inv.at_slot held
    have only : ∀ z, s.at d = some z → x = z := fun z there => Option.some.inj (at_.symm.trans there)
    have lost : s.at d ≠ none := fun none => nomatch none.symm.trans at_
    have text : x.text = s.textAt d := by rw [State.textAt, held, strOf_some here]
    refine Ends.bind (load_ends here (Ends.ite (fun split => ?_) fun keep => ?_))
    · refine splitc_ends lawful inv here held (few x at_) (raised _ inv.skip (same_skip s))
        fun y t inv here slot ref len new room same => ?_
      refine holds _ y t inv here (Or.inl slot) ref.le (new.trans text) same (fun none => absurd none lost) fun z there => ?_
      obtain rfl := only z there
      refine ⟨len, fun _ _ => ?_⟩
      simp only [Str.size, sizeofHeap, sizeofString, sizeofRune, offData] at room ⊢
      lia
    · rw [not_or, not_lt] at keep
      refine holds p x s inv here (Or.inl held) keep.1 text (same_refl s) (fun none => absurd none lost) fun z there => ?_
      obtain rfl := only z there
      exact ⟨(if_neg keep.2).symm, fun _ fits => fits⟩

/-- The pointer that `insc` has stored in is put in the slot, if it is not there. -/
theorem inscPlace_ends {Q : Unit → State → Prop} (mine : t.Mine d q)
    (kept : t.slots.getD d none = some q → Q () t)
    (placed : t.Spare (some q) → Q () { t.destroyed (t.slots.getD d none) with slots := t.slots.set d (some q) }) :
    Ends (do let old ← slot d; if old ≠ some q then do destroy old; setSlot d (some q)) t Q E := by
  refine Ends.bind (slot_ends (Ends.ite (fun other => ?_) fun same => kept (not_not.mp same)))
  refine Ends.bind (destroy_ends (setSlot_ends ?_))
  rw [destroyed_slots]
  exact placed (mine.resolve_left other)

theorem insc_ends (lawful : Lawful pool) (inv : s.Inv) (ok : InscOk s d m r) :
    Ends (insc pool d m r) s (fun _ t => t.Inv) fun t => t.Inv := by
  obtain ⟨runes, chars⟩ := ok
  refine Ends.bind (inscTarget_ends lawful inv (fun x at_ wide => (runes x at_ (of_decide_eq_true wide)).2)
    (fun t inv _ => inv) fun p y t inv' here mine _ _ _ new old => ?_)
  refine Ends.bind (load_ends here ?_)
  dsimp only
  have last : ∀ (q : Nat) (t : State), t.Inv → t.Mine d q →
      Ends (do let old ← slot d; if old ≠ some q then do destroy old; setSlot d (some q)) t (fun _ t => t.Inv)
        fun t => t.Inv :=
    fun q t inv mine => inscPlace_ends mine (fun _ => inv) inv.assigned
  have inPlace : ∀ w : Str, w.ref = y.ref → w.Good → (t.set p w).Inv ∧ (t.set p w).Mine d p :=
    fun w ref good => ⟨inv'.replace here good ref, mine.set here ref⟩
  have grown : ∀ w : Str, w.ref = 1 → w.Good →
      (t.skip.set t.next w).Inv ∧ (t.skip.set t.next w).Mine d t.next :=
    fun w ref good => ⟨inv'.alloc good, inv'.mine_alloc ref⟩
  refine Ends.ite (fun wide => Ends.bind ?_) fun narrow => Ends.bind ?_
  · have flip : y.len ≤ 0 ∧ (y.len = 0 → u32 m = 0 → y.max * sizeofRune ≤ y.size) := by
      cases at_ : s.at d with
      | none =>
        obtain ⟨zero, fits⟩ := new at_
        exact ⟨zero.le, fun _ _ => fits (wide.resolve_left (by omega))⟩
      | some x =>
        have len := (old x at_).1
        rcases wide with neg | wide
        · exact ⟨by omega, fun zero => absurd zero (by omega)⟩
        · have first := (runes x at_ (of_decide_eq_true wide)).1
          by_cases pos : x.len > 0
          · rw [if_pos ⟨wide, pos⟩] at len
            exact ⟨by omega, fun zero => absurd zero (by omega)⟩
          · rw [if_neg fun both => pos both.2] at len
            exact ⟨by omega, fun zero start => absurd start (first (by omega))⟩
    have room : y.len = 0 → u32 m = 0 → 0 < y.max → sizeofRune ≤ y.size := by
      intro zero start pos
      have fits := flip.2 zero start
      simp only [sizeofRune] at fits ⊢
      omega
    refine inscRune_ends lawful inv' here (by omega) room (fun _ => inv') (fun _ => inv'.skip)
      (fun w ref _ good _ => ?_) fun w ref _ good _ => ?_
    · obtain ⟨inv, mine⟩ := inPlace w ref (good flip.2)
      exact last p _ inv mine
    · obtain ⟨inv, mine⟩ := grown w ref good
      exact last _ _ inv mine
  · have thin : ¬decide (r ≥ runeself) = true := fun wide => narrow (Or.inr wide)
    have pos : 0 ≤ y.len := by
      by_contra neg
      exact narrow (Or.inl (by omega))
    have same : ∀ x, s.at d = some x → y.len = x.len := by
      intro x at_
      rw [(old x at_).1, if_neg fun both => thin both.1]
    have low : (u32 m : Int) ≤ y.len → (UInt8.ofNat (u32 r)).toNat < 0x80 := by
      intro inside
      rw [decide_eq_true_eq, runeself] at thin
      by_cases neg : r < 0
      · refine chars neg (fun x at_ => ?_) fun none => ?_
        · have := same x at_
          omega
        · have := (new none).1
          omega
      · have value := u32_of_lt (Int.not_lt.mp neg) (by omega)
        rw [UInt8.toNat_ofNat_of_lt' (by simp only [UInt8.size]; omega)]
        omega
    refine inscAscii_ends lawful inv' here (by omega) (fun _ => inv') (fun _ => inv'.skip) (fun w ref _ good inside => ?_)
      fun w ref _ good inside => ?_
    · obtain ⟨inv, mine⟩ := inPlace w ref (good (low (by omega)))
      exact last p _ inv mine
    · obtain ⟨inv, mine⟩ := grown w ref (good (low (by omega)))
      exact last _ _ inv mine

end Inferno.Strings
