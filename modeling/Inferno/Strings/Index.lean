import Inferno.Strings.Append

namespace Inferno.Strings

open Lib

def exNilref : String := "dereference of nil"

/-- A byte as a `char`. -/
def schar (b : UInt8) : Int := if b.toNat < 0x80 then b.toNat else b.toNat - 256

/-- `indc`; `wild` is what memory holds before the characters of a string. -/
def indc (wild : Int → Int) (s : Option Str) (v : Int) : Except String Int :=
  match s with
  | none => throw exNilref
  | some x =>
    if x.len < 0 then
      if v ≥ -x.len then throw exBounds else return if 0 ≤ v then (runeAt x.data v.toNat : Int) else wild v
    else if v ≥ x.len then throw exBounds
    else return if 0 ≤ v then schar (x.data v.toNat) else wild v

variable {s t : State} {p q d start v l : Nat} {x y : Str} {m r : Int} {pool : Nat → Nat → Option Block}
  {wild : Int → Int}

theorem indc_eq (good : x.Good) (pos : 0 ≤ m) :
    indc wild (some x) m = match x.text[m.toNat]? with
      | some c => .ok (c : Int)
      | none => .error exBounds := by
  unfold indc
  dsimp only
  by_cases inside : m.toNat < x.text.length
  · rw [List.getElem?_eq_getElem inside, x.getElem_text]
    rw [x.length_text] at inside
    split
    · rename_i neg
      rw [if_neg (by omega), Str.char_rune neg]
      rfl
    · rename_i neg
      have low := (good.ascii (by omega)).2.2 m.toNat (by omega)
      rw [if_neg (by omega), Str.char_ascii (by omega), schar, if_pos low]
      rfl
  · rw [List.getElem?_eq_none (by omega)]
    rw [x.length_text] at inside
    split
    · rw [if_pos (by omega)]
      rfl
    · rw [if_pos (by omega)]
      rfl

theorem Put.text {c : Nat} {w : Str} (put : Put x v c w) (inside : v ≤ x.len.natAbs) :
    w.text = if v < x.text.length then x.text.set v c else x.text ++ [c] := by
  obtain ⟨length, here, rest⟩ := put
  split
  · rename_i before
    rw [x.length_text] at before
    refine Str.text_eq (by rw [List.length_set, x.length_text]; omega) fun i h => ?_
    rw [List.length_set, x.length_text] at h
    rw [List.getElem_set]
    split
    · rename_i same
      rw [← same, here]
    · rename_i other
      rw [x.getElem_text, rest i h (Ne.symm other)]
  · rename_i end_
    rw [x.length_text] at end_
    refine Str.text_eq (by rw [List.length_append, x.length_text, List.length_singleton]; omega) fun i h => ?_
    rw [List.length_append, x.length_text, List.length_singleton] at h
    rw [List.getElem_append]
    split
    · rename_i old
      rw [x.length_text] at old
      rw [x.getElem_text, rest i old (by omega)]
    · rename_i new
      rw [x.length_text] at new
      rw [List.getElem_singleton, ← here]
      congr 1
      omega

section Heap

theorem nheap_raises (n : Int) : Raises (nheap pool n) exHeap := by
  refine Raises.bind Raises.get fun s => Raises.bind Raises.set fun _ => ?_
  split
  · exact Raises.throw
  · exact Raises.bind Raises.modify fun _ => Raises.pure

theorem load_raises (p : Nat) : Raises (load p) exHeap := by
  refine Raises.bind Raises.get fun s => ?_
  split
  · exact Raises.pure
  · exact Raises.bind Raises.modify fun _ => Raises.pure

theorem memmove_raises (p off q off' n : Nat) : Raises (memmove p off q off' n) exHeap :=
  Raises.bind (load_raises q) fun _ => Raises.modify

theorem newstring_raises (nb : Int) : Raises (newstring pool nb) exHeap :=
  Raises.bind (nheap_raises _) fun p => Raises.bind (load_raises p) fun _ => Raises.bind Raises.modify fun _ => Raises.pure

theorem newrunes_raises (nr : Int) : Raises (newrunes pool nr) exHeap := by
  refine Raises.ite (fun _ => newstring_raises nr) fun _ => ?_
  exact Raises.bind (nheap_raises _) fun p => Raises.bind (load_raises p) fun _ => Raises.bind Raises.modify fun _ =>
    Raises.pure

theorem destroy_raises (o : Option Nat) : Raises (destroy o) exHeap := by
  cases o with
  | none => exact Raises.pure
  | some p => exact Raises.modify

theorem slot_raises (d : Nat) : Raises (slot d) exHeap := Raises.bind Raises.get fun _ => Raises.pure

theorem stringdup_raises (p : Nat) : Raises (stringdup pool p) exHeap := by
  refine Raises.bind (load_raises p) fun x => Raises.ite (fun _ => ?_) fun _ => ?_
  · exact Raises.bind (newstring_raises _) fun _ => Raises.bind (memmove_raises _ _ _ _ _) fun _ => Raises.pure
  · exact Raises.bind (newrunes_raises _) fun _ => Raises.bind (memmove_raises _ _ _ _ _) fun _ => Raises.pure

theorem splitc_raises (d p : Nat) (expand : Bool) : Raises (splitc pool d p expand) exHeap := by
  have last (q : Nat) : Raises (do destroy (some p); setSlot d (some q); return q) exHeap :=
    Raises.bind (destroy_raises _) fun _ => Raises.bind Raises.modify fun _ => Raises.pure
  refine Raises.bind (load_raises p) fun x => ?_
  dsimp only
  refine Raises.ite (fun _ => ?_) fun _ => Raises.bind (stringdup_raises p) last
  exact Raises.bind (newrunes_raises _) fun q => Raises.bind (Raises.bind (load_raises p) fun _ => Raises.modify) fun _ => last q

theorem inscTarget_raises (d : Nat) (expand : Bool) : Raises (inscTarget pool d expand) exHeap := by
  refine Raises.bind (slot_raises d) fun o => ?_
  cases o with
  | none =>
    refine Raises.bind (newstring_raises 0) fun p => Raises.bind (load_raises p) fun x => ?_
    exact Raises.ite (fun _ => Raises.bind Raises.modify fun _ => Raises.pure) fun _ => Raises.pure
  | some p =>
    exact Raises.bind (load_raises p) fun x => Raises.ite (fun _ => splitc_raises d p expand) fun _ => Raises.pure

theorem inscRune_raises (p : Nat) (inside : v ≤ l) (r : Int) : Raises (inscRune pool p l v r) exHeap := by
  refine Raises.bind (load_raises p) fun x => Raises.ite (fun _ => Raises.bind Raises.modify fun _ => Raises.pure) fun less => ?_
  refine Raises.ite (fun _ => Raises.bind Raises.modify fun _ => Raises.bind Raises.modify fun _ => Raises.pure) fun _ => ?_
  refine Raises.ite (fun beyond => absurd beyond (by omega)) fun _ => ?_
  refine Raises.bind (newstring_raises _) fun q => Raises.bind (memmove_raises _ _ _ _ _) fun _ => ?_
  exact Raises.bind Raises.modify fun _ => Raises.bind (load_raises q) fun _ => Raises.bind Raises.modify fun _ => Raises.pure

theorem inscAscii_raises (p : Nat) (inside : v ≤ l) (r : Int) : Raises (inscAscii pool p l v r) exHeap := by
  refine Raises.bind (load_raises p) fun x => Raises.ite (fun _ => Raises.bind Raises.modify fun _ => Raises.pure) fun less => ?_
  refine Raises.ite (fun _ => Raises.bind Raises.modify fun _ => Raises.bind Raises.modify fun _ => Raises.pure) fun _ => ?_
  refine Raises.ite (fun beyond => absurd beyond (by omega)) fun _ => ?_
  refine Raises.bind (newstring_raises _) fun q => Raises.bind (memmove_raises _ _ _ _ _) fun _ => ?_
  exact Raises.bind Raises.modify fun _ => Raises.bind (load_raises q) fun _ => Raises.bind Raises.modify fun _ => Raises.pure

end Heap

theorem inscRune_bounds {Q : Nat → State → Prop} {E : String → State → Prop} (here : s.heap p = some x) (beyond : l < v)
    (bounds : E exBounds s) : Gives (inscRune pool p l v r) s Q E := by
  refine Gives.bind_ends (load_ends (E := fun _ => False) here ?_) (load_raises p) fun _ none => none.elim
  rw [if_neg (by omega), if_neg (by omega), if_pos (by omega)]
  exact Gives.throw bounds

theorem inscAscii_bounds {Q : Nat → State → Prop} {E : String → State → Prop} (here : s.heap p = some x) (beyond : l < v)
    (bounds : E exBounds s) : Gives (inscAscii pool p l v r) s Q E := by
  refine Gives.bind_ends (load_ends (E := fun _ => False) here ?_) (load_raises p) fun _ none => none.elim
  rw [if_neg (by omega), if_neg (by omega), if_pos (by omega)]
  exact Gives.throw bounds

/-- The variable `d` has got a text and the others have kept theirs. -/
structure Sets (s : State) (d : Nat) (text : List Nat) (t : State) : Prop where
  here : t.textAt d = text
  others : ∀ e, e ≠ d → t.textAt e = s.textAt e
  inside : t.overran = false

/-- `u` is `t` with the string `q` changed or added; no other slot than `d` points to it. -/
theorem place_gives {u : State} {w : Str} {E : String → State → Prop} (inv : t.Inv) (below : d < t.slots.length)
    (here : u.heap q = some w) (slots : u.slots = t.slots) (inside : u.overran = t.overran)
    (agree : ∀ k, k ≠ q → u.heap k = t.heap k)
    (alone : t.slots.getD d none = some q → ∀ e, e ≠ d → t.slots.getD e none ≠ some q)
    (fresh : t.slots.getD d none ≠ some q → some q ∉ t.slots) :
    Gives (do let old ← slot d; if old ≠ some q then do destroy old; setSlot d (some q)) u
      (fun _ t' => Sets t d w.text t') E := by
  have ends : Ends (do let old ← slot d; if old ≠ some q then do destroy old; setSlot d (some q)) u
      (fun _ t' => Sets t d w.text t') fun _ => False := by
    refine Ends.bind (slot_ends (Ends.ite (fun other => ?_) fun same => ?_))
    · rw [slots] at other ⊢
      have new := fresh other
      refine Ends.bind (destroy_ends (setSlot_ends ?_))
      rw [destroyed_slots, slots]
      have texts := @textAt_assigned d t u (some q) inv slots (fun k held => agree k fun same => new (same ▸ held)) below
        (fun k same => by cases same; exact new)
      rw [slots] at texts
      refine ⟨texts.1.trans (congrArg Str.text (strOf_some here)), texts.2.1, ?_⟩
      exact texts.2.2.trans (inside.trans inv.inside)
    · rw [slots, not_not] at same
      refine ⟨?_, fun e other => ?_, inside.trans inv.inside⟩
      · rw [State.textAt, slots, same, strOf_some here]
      · rw [State.textAt, slots]
        exact congrArg Str.text (strOf_congr fun k held => agree k fun eq => alone same e other (eq ▸ held))
  refine (Gives.of_ends ends (e := exHeap) ?_).imp (fun _ _ sets => sets) fun _ _ none => none.2.elim
  refine Raises.bind (slot_raises d) fun o => Raises.ite (fun _ => ?_) fun _ => Raises.pure
  exact Raises.bind (destroy_raises o) fun _ => Raises.modify

/-- What `insc` needs of the string in its variable to store a rune that is not ASCII. -/
def InscFits (s : State) (d : Nat) (r : Int) : Prop :=
  ∀ x, s.at d = some x → r ≥ runeself → x.len < 2 ^ 30 - 16 ∧ (x.len = 0 → sizeofRune ≤ x.size)

/-- `insc` by the low half of its index. -/
theorem insc_gives (lawful : Lawful pool) (inv : s.Inv) (below : d < s.slots.length) (fits : InscFits s d r) :
    Gives (insc pool d m r) s
      (fun _ t => u32 m ≤ (s.textAt d).length ∧ ∃ c : Nat, (0 ≤ r → r < 2 ^ 32 → (c : Int) = r) ∧
        Sets s d (if u32 m < (s.textAt d).length then (s.textAt d).set (u32 m) c else s.textAt d ++ [c]) t)
      fun e t => (e = exHeap ∨ e = exBounds ∧ (s.textAt d).length < u32 m) ∧ Same s t := by
  refine Gives.bind_ends (inscTarget_ends lawful inv (fun x at_ wide => (fits x at_ (of_decide_eq_true wide)).1)
    (fun t _ same => same) fun p y t inv' here mine ref text same new old => ?_) (inscTarget_raises d _)
    fun t same => ⟨Or.inl rfl, same⟩
  have length : y.text.length = y.len.natAbs := y.length_text
  have below' : d < t.slots.length := same.length ▸ below
  rw [← text]
  refine Gives.bind_ends (load_ends (E := fun _ => False) here ?_) (load_raises p) fun _ none => none.elim
  dsimp only
  have place : ∀ {u : State} {q : Nat} {w : Str} {c : Nat}, u.heap q = some w → u.slots = t.slots → u.overran = t.overran →
      (∀ k, k ≠ q → u.heap k = t.heap k) →
      (t.slots.getD d none = some q → ∀ e, e ≠ d → t.slots.getD e none ≠ some q) →
      (t.slots.getD d none ≠ some q → some q ∉ t.slots) → (0 ≤ r → r < 2 ^ 32 → (c : Int) = r) → Put y (u32 m) c w →
      u32 m ≤ y.len.natAbs →
      Gives (do let old ← slot d; if old ≠ some q then do destroy old; setSlot d (some q)) u
        (fun _ t => u32 m ≤ y.text.length ∧ ∃ c : Nat, (0 ≤ r → r < 2 ^ 32 → (c : Int) = r) ∧
          Sets s d (if u32 m < y.text.length then y.text.set (u32 m) c else y.text ++ [c]) t)
        fun e t => (e = exHeap ∨ e = exBounds ∧ y.text.length < u32 m) ∧ Same s t := by
    intro u q w c there slots inside agree alone fresh char put within
    refine (place_gives inv' below' there slots inside agree alone fresh).imp (fun _ t' sets => ?_) fun e t none => none
    rw [put.text within] at sets
    exact ⟨by lia, c, char, sets.here, fun e other => (sets.others e other).trans (same.text e), sets.inside⟩
  have alone : t.slots.getD d none = some p → ∀ e, e ≠ d → t.slots.getD e none ≠ some p := by
    intro held e other there
    have two := (two_le_count other held there).trans (inv'.counted p y here)
    lia
  have fresh : t.slots.getD d none ≠ some p → some p ∉ t.slots := by
    intro other held
    have few := (mine.resolve_left other).ref rfl here
    have pos := List.count_pos_iff.mpr held
    lia
  have kept : ∀ w : Str, ∀ k, k ≠ p → (t.set p w).heap k = t.heap k := fun w k other => State.heap_set_ne other ..
  have added : ∀ w : Str, ∀ k, k ≠ t.next → (t.skip.set t.next w).heap k = t.heap k :=
    fun w k other => State.heap_set_ne other ..
  have absent : t.slots.getD d none = some t.next → ∀ e, e ≠ d → t.slots.getD e none ≠ some t.next :=
    fun held => absurd (getD_mem held) inv'.not_next
  have full : ∀ u, u = t.skip → (exHeap = exHeap ∨ exHeap = exBounds ∧ y.text.length < u32 m) ∧ Same s u :=
    fun u skip => ⟨Or.inl rfl, skip ▸ ⟨same.length, same.text⟩⟩
  split
  · rename_i wide
    have flip : y.len ≤ 0 ∧ (y.len = 0 → u32 m = 0 → 0 < y.max → sizeofRune ≤ y.size) := by
      cases at_ : s.at d with
      | none =>
        obtain ⟨zero, enough⟩ := new at_
        refine ⟨zero.le, fun _ _ pos => ?_⟩
        have enough := enough (wide.resolve_left (by lia))
        simp only [sizeofRune] at enough ⊢
        lia
      | some x =>
        obtain ⟨len, room⟩ := old x at_
        rcases wide with neg | wide
        · exact ⟨neg.le, fun zero => absurd zero (by lia)⟩
        · have first := (fits x at_ (of_decide_eq_true wide)).2
          by_cases pos : x.len > 0
          · rw [if_pos ⟨wide, pos⟩] at len
            exact ⟨by lia, fun zero => absurd zero (by lia)⟩
          · rw [if_neg fun both => pos both.2] at len
            exact ⟨by lia, fun zero _ _ => room (by lia) (first (by lia))⟩
    have char : 0 ≤ r → r < 2 ^ 32 → (u32 r : Int) = r := u32_of_lt
    by_cases beyond : (-y.len).toNat < u32 m
    · exact Gives.bind (inscRune_bounds here beyond ⟨Or.inr ⟨rfl, by lia⟩, same⟩)
    · refine Gives.bind_ends (inscRune_ends lawful inv' here (by lia) flip.2 (fun out => absurd out beyond)
        (E := fun u => u = t.skip) (fun _ => rfl) (fun w ref put _ _ => ?_) fun w ref put _ _ => ?_)
        (inscRune_raises p (by lia) r) full
      · exact place (State.heap_set ..) rfl rfl (kept w) alone fresh char put (by lia)
      · exact place (State.heap_set ..) rfl rfl (added w) absent (fun _ => inv'.not_next) char put (by lia)
  · rename_i narrow
    have thin : ¬decide (r ≥ runeself) = true := fun wide => narrow (Or.inr wide)
    have pos : 0 ≤ y.len := by
      by_contra neg
      exact narrow (Or.inl (by lia))
    have char : 0 ≤ r → r < 2 ^ 32 → ((UInt8.ofNat (u32 r)).toNat : Int) = r := by
      intro nonneg less
      rw [decide_eq_true_eq, runeself] at thin
      have value := u32_of_lt nonneg less
      rw [UInt8.toNat_ofNat_of_lt' (by simp only [UInt8.size]; lia), value]
    by_cases beyond : y.len.toNat < u32 m
    · exact Gives.bind (inscAscii_bounds here beyond ⟨Or.inr ⟨rfl, by lia⟩, same⟩)
    · refine Gives.bind_ends (inscAscii_ends lawful inv' here (by lia) (fun out => absurd out beyond)
        (E := fun u => u = t.skip) (fun _ => rfl) (fun w ref put _ _ => ?_) fun w ref put _ _ => ?_)
        (inscAscii_raises p (by lia) r) full
      · exact place (State.heap_set ..) rfl rfl (kept w) alone fresh char put (by lia)
      · exact place (State.heap_set ..) rfl rfl (added w) absent (fun _ => inv'.not_next) char put (by lia)

theorem slicer_heap {o : Option Nat} (held : ∀ p, o = some p → ∃ x, s.heap p = some x)
    (inside : start ≤ v ∧ v ≤ (strOf s.heap o).text.length) :
    Gives (slicer pool start v o) s (fun _ _ => True) fun e _ => e = exHeap := by
  cases o with
  | none =>
    have length : v ≤ 0 := inside.2
    exact Gives.of_raises (Raises.ite (fun _ => Raises.pure) fun some_ => absurd (by omega) some_)
  | some p =>
    obtain ⟨x, here⟩ := held p rfl
    rw [strOf_some here, x.length_text] at inside
    refine Gives.bind_ends (load_ends (E := fun _ => False) here ?_) (load_raises p) fun _ none => none.elim
    refine Gives.of_raises (Raises.ite (fun neg => ?_) fun pos => ?_)
    · refine Raises.ite (fun out => absurd out (by omega)) fun _ => Raises.ite (fun _ => Raises.pure) fun _ => ?_
      exact Raises.bind (newrunes_raises _) fun _ => Raises.bind (memmove_raises _ _ _ _ _) fun _ => Raises.pure
    · refine Raises.ite (fun out => absurd out (by omega)) fun _ => Raises.ite (fun _ => Raises.pure) fun _ => ?_
      exact Raises.bind (newstring_raises _) fun _ => Raises.bind (memmove_raises _ _ _ _ _) fun _ => Raises.pure

theorem slicer_bounds {o : Option Nat} {Q : Option Nat → State → Prop} {E : String → State → Prop}
    (held : ∀ p, o = some p → ∃ x, s.heap p = some x)
    (outside : ¬(start ≤ v ∧ v ≤ (strOf s.heap o).text.length)) (bounds : E exBounds s) :
    Gives (slicer pool start v o) s Q E := by
  cases o with
  | none =>
    unfold slicer
    rw [if_neg fun zero => outside ⟨by omega, by omega⟩]
    exact Gives.throw bounds
  | some p =>
    obtain ⟨x, here⟩ := held p rfl
    rw [strOf_some here, x.length_text] at outside
    refine Gives.bind_ends (load_ends (E := fun _ => False) here ?_) (load_raises p) fun _ none => none.elim
    dsimp only
    split
    · rw [if_pos (by omega)]
      exact Gives.throw bounds
    · rw [if_pos (by omega)]
      exact Gives.throw bounds

/-- `slicec` by the low halves of its bounds. -/
theorem slicec_gives (lawful : Lawful pool) (inv : s.Inv) (below : d < s.slots.length) :
    Gives (slicec pool d m r) s
      (fun _ t => (u32 m ≤ u32 r ∧ u32 r ≤ (s.textAt d).length) ∧ Sets s d (((s.textAt d).take (u32 r)).drop (u32 m)) t)
      fun e t => (e = exHeap ∨ e = exBounds ∧ ¬(u32 m ≤ u32 r ∧ u32 r ≤ (s.textAt d).length)) ∧ Same s t := by
  refine Gives.bind_ends (slot_ends (E := fun _ => False) ?_) (slot_raises d) fun _ none => none.elim
  have held : ∀ p, s.slots.getD d none = some p → ∃ x, s.heap p = some x := fun p there =>
    Option.ne_none_iff_exists'.mp (inv.held p (getD_mem there))
  by_cases inside : u32 m ≤ u32 r ∧ u32 r ≤ (s.textAt d).length
  swap
  · exact Gives.bind (slicer_bounds held inside ⟨Or.inr ⟨rfl, inside⟩, same_refl s⟩)
  have last : ∀ (u : State) (o : Option Nat), u.slots = s.slots → u.overran = s.overran →
      (∀ k, some k ∈ s.slots → u.heap k = s.heap k) → (∀ q, o = some q → some q ∉ s.slots) →
      (strOf u.heap o).text = ((s.textAt d).take (u32 r)).drop (u32 m) →
      Gives (assign d o) u
        (fun _ t => (u32 m ≤ u32 r ∧ u32 r ≤ (s.textAt d).length) ∧ Sets s d (((s.textAt d).take (u32 r)).drop (u32 m)) t)
        fun e t => (e = exHeap ∨ e = exBounds ∧ ¬(u32 m ≤ u32 r ∧ u32 r ≤ (s.textAt d).length)) ∧ Same s t := by
    intro u o slots overran agree fresh text
    have texts := @textAt_assigned d s u o inv slots agree below fresh
    refine Gives.bind_ends (slot_ends (E := fun _ => False) ?_) (slot_raises d) fun _ none => none.elim
    refine Gives.bind_ends (destroy_ends (E := fun _ => False) ?_) (destroy_raises _) fun _ none => none.elim
    refine ⟨inside, ?_⟩
    dsimp only
    rw [destroyed_slots]
    exact ⟨texts.1.trans text, texts.2.1, texts.2.2.trans (overran.trans inv.inside)⟩
  refine Gives.bind ((Gives.and_ends (slicer_heap held inside) (slicer_ends (E := fun u => u = s.skip) lawful inv held
    (fun out => absurd inside out) rfl (fun equal _ => ?_) fun y good ref _ _ text => ?_)).imp (fun _ _ next => next) ?_)
  · refine last s none rfl rfl (fun _ _ => rfl) (fun q same => nomatch same) ?_
    rw [text_nil, equal, List.drop_eq_nil_of_le (List.length_take_le ..)]
  · refine last (s.skip.set s.next y) (some s.next) rfl rfl (fun k => inv.agree_alloc y)
      (fun q same => by cases same; exact inv.not_next) ?_
    rw [strOf_some (State.heap_set ..), text]
    rfl
  · rintro e t ⟨rfl, rfl⟩
    exact ⟨Or.inl rfl, same_skip s⟩

theorem State.Inv.length_lt (inv : s.Inv) (d : Nat) : (s.textAt d).length < 2 ^ 32 := by
  unfold State.textAt
  cases held : s.slots.getD d none with
  | none => exact Nat.pos_of_ne_zero (by decide)
  | some p =>
    obtain ⟨x, here⟩ := Option.ne_none_iff_exists'.mp (inv.held p (getD_mem held))
    have small := (inv.good p x here).size_lt
    have used := (inv.good p x here).used.1
    rw [strOf_some here, x.length_text]
    omega

/-- The index of `indc` where it is not negative, that of `insc` and the bounds of `slicec` where their low halves are
the numbers themselves or are out of bounds. -/
theorem index_bounds (lawful : Lawful pool) :
    (∀ wild v, indc wild none v = .error exNilref) ∧
    (∀ wild x v, x.Good → 0 ≤ v → indc wild (some x) v = match x.text[v.toNat]? with
      | some c => .ok (c : Int)
      | none => .error exBounds) ∧
    (∀ s d m r, s.Inv → d < s.slots.length → InscFits s d r →
      0 ≤ m ∧ m < 2 ^ 32 ∨ (s.textAt d).length < u32 m →
      Gives (insc pool d m r) s
        (fun _ t => 0 ≤ m ∧ m ≤ (s.textAt d).length ∧ ∃ c : Nat, (0 ≤ r → r < 2 ^ 32 → (c : Int) = r) ∧
          Sets s d (if m < (s.textAt d).length then (s.textAt d).set m.toNat c else s.textAt d ++ [c]) t)
        fun e t => (e = exHeap ∨ e = exBounds ∧ ¬(0 ≤ m ∧ m ≤ (s.textAt d).length)) ∧ Same s t) ∧
    ∀ s d start v, s.Inv → d < s.slots.length →
      0 ≤ start ∧ start < 2 ^ 32 ∧ 0 ≤ v ∧ v < 2 ^ 32 ∨ ¬(u32 start ≤ u32 v ∧ u32 v ≤ (s.textAt d).length) →
      Gives (slicec pool d start v) s
        (fun _ t => 0 ≤ start ∧ start ≤ v ∧ v ≤ (s.textAt d).length ∧
          Sets s d (((s.textAt d).take v.toNat).drop start.toNat) t)
        fun e t => (e = exHeap ∨ e = exBounds ∧ ¬(0 ≤ start ∧ start ≤ v ∧ v ≤ (s.textAt d).length)) ∧ Same s t := by
  have whole : ∀ v : Int, 0 ≤ v → v < 2 ^ 32 → u32 v = v.toNat := fun v pos less => by
    have value := u32_of_lt pos less
    omega
  have low : ∀ v : Int, 0 ≤ v → (u32 v : Int) ≤ v := fun v pos => by
    simp only [u32]
    omega
  refine ⟨fun _ _ => rfl, fun _ _ _ good pos => indc_eq good pos, fun s d m r inv below fits index => ?_,
    fun s d start v inv below index => ?_⟩
  · refine (insc_gives lawful inv below fits).imp (fun _ t given => ?_) fun e t given => ?_
    · obtain ⟨inside, c, char, sets⟩ := given
      obtain ⟨pos, less⟩ := index.resolve_right (not_lt.mpr inside)
      rw [whole m pos less] at inside sets
      refine ⟨pos, by omega, c, char, ?_⟩
      rwa [if_congr (show m.toNat < (s.textAt d).length ↔ m < (s.textAt d).length by omega) rfl rfl] at sets
    · refine ⟨given.1.imp_right (And.imp_right fun beyond within => ?_), given.2⟩
      obtain ⟨pos, inside⟩ := within
      have := low m pos
      omega
  · refine (slicec_gives lawful inv below).imp (fun _ t given => ?_) fun e t given => ?_
    · obtain ⟨inside, sets⟩ := given
      obtain ⟨pos₁, less₁, pos₂, less₂⟩ := index.resolve_right (not_not.mpr inside)
      rw [whole start pos₁ less₁, whole v pos₂ less₂] at inside sets
      exact ⟨pos₁, by omega, by omega, sets⟩
    · refine ⟨given.1.imp_right (And.imp_right fun outside within => outside ?_), given.2⟩
      obtain ⟨pos, order, inside⟩ := within
      have length := inv.length_lt d
      rw [whole start pos (by omega), whole v (by omega) (by omega)]
      omega

/-- A letter is added to the text of one. -/
theorem index_bounds_letter : (letters 1).Inv ∧
    Gives (insc heapmem 0 1 0x62) (letters 1)
      (fun _ t => 0 ≤ (1 : Int) ∧ (1 : Int) ≤ ((letters 1).textAt 0).length ∧
        ∃ c : Nat, (0 ≤ (0x62 : Int) → (0x62 : Int) < 2 ^ 32 → (c : Int) = 0x62) ∧
          Sets (letters 1) 0 (if (1 : Int) < ((letters 1).textAt 0).length then ((letters 1).textAt 0).set (1 : Int).toNat c
            else (letters 1).textAt 0 ++ [c]) t)
      fun e t => (e = exHeap ∨ e = exBounds ∧ ¬(0 ≤ (1 : Int) ∧ (1 : Int) ≤ ((letters 1).textAt 0).length)) ∧
        Same (letters 1) t :=
  ⟨letters_inv, (index_bounds heapmem_lawful).2.2.1 (letters 1) 0 1 0x62 letters_inv (by decide)
    (fun x _ wide => absurd wide (by decide)) (Or.inl (by decide))⟩

/-- Indices beyond the bounds that raise another error, or none. -/
theorem index_bounds_missed :
    (∀ wild, indc wild none 0 = .error exNilref) ∧
    (∀ wild, indc wild (some ⟨1, 1, 8, 72, fun _ => 0x61⟩) (-1) = .ok (wild (-1))) ∧
    (∃ t, insc heapmem 0 (2 ^ 32) 0x62 (letters 1) = .ok () t ∧ t.textAt 0 = [0x62]) ∧
    ∃ t, slicec heapmem 0 (2 ^ 32) (2 ^ 32 + 1) (letters 1) = .ok () t ∧ t.textAt 0 = [0x61] :=
  ⟨fun _ => rfl, fun _ => rfl, ⟨_, rfl, by decide⟩, ⟨_, rfl, by decide⟩⟩

end Inferno.Strings
