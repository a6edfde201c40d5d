import Inferno.Pool.Alloc
import Inferno.Strings.Add

namespace Inferno.Strings

open Lib

variable {s s₀ : State} {p q d m k start v : Nat} {x y : Str} {E : State → Prop} {pool : Nat → Nat → Option Block}

/-- The operations on strings. A caller of `newstring` or `newrunes` stores `fill` in the new string. -/
inductive Event
  | newstring (d : Nat) (fill : List UInt8)
  | newrunes (d : Nat) (fill : List Nat)
  | c2string (d : Nat) (cs : List UInt8)
  | insc (d : Nat) (m r : Int)
  | addc (d m s : Nat)
  | slicec (d : Nat) (start v : Int)
  | splitc (d : Nat) (expand : Bool)
  | cvtac (d : Nat) (a : Option (List UInt8))
  | movp (d s : Nat)

def Event.op (pool : Nat → Nat → Option Block) : Event → M Unit
  | newstring d fill => do assign d (some (← fillString pool fill))
  | newrunes d fill => do assign d (some (← fillRunes pool fill.length fill))
  | c2string d cs => do assign d (some (← Strings.c2string pool cs))
  | insc d m r => Strings.insc pool d m r
  | addc d m s => Strings.addc pool d m s
  | slicec d start v => Strings.slicec pool d start v
  | splitc d expand => do
    match ← slot d with
    | none => return
    | some p => discard (Strings.splitc pool d p expand)
  | cvtac d a => Strings.cvtac pool d a
  | movp d s => Strings.movp d s

/-- A step of the program: an exception leaves the heap as it is by then. -/
def exec (pool : Nat → Nat → Option Block) (e : Event) (s : State) : Option State :=
  match e.op pool s with
  | .ok _ t => some t
  | .error _ t => some t

/-- Texts whose length is an `int` and whose runes can be asked for. -/
def TextOk (cs : List UInt8) : Prop := cs.length < 2 ^ 31 ∧ ∀ nc, runeCount cs = some nc → nc < 2 ^ 30 - 16

/-- The steps that keep the representation. -/
def Event.Careful : Event → State → Prop
  | newstring _ fill, _ => fill.length < 2 ^ 31 ∧ ∀ b ∈ fill, b.toNat < 0x80
  | newrunes _ fill, _ => fill.length < 2 ^ 30 - 16
  | c2string _ cs, _ => TextOk cs
  | insc d m r, s => InscOk s d m r
  | addc d m k, s => ∀ x y, s.at m = some x → s.at k = some y →
      AddOk x y (m == d && !decide (x.ref > 1)) (s.slots.getD m none == s.slots.getD k none)
  | slicec .., _ => True
  | splitc d expand, s => ∀ x, s.at d = some x → expand → x.len < 2 ^ 30 - 16
  | cvtac _ a, _ => ∀ cs ∈ a, TextOk cs
  | movp .., _ => True

/-- No string yet. -/
structure State.Fresh (s : State) : Prop where
  heap : ∀ p, s.heap p = none
  slots : ∀ p, some p ∉ s.slots
  overran : s.overran = false

theorem State.Fresh.inv (fresh : s.Fresh) : s.Inv := by
  refine ⟨fresh.overran, fun p x here => ?_, fun p _ => fresh.heap p, fun p held => absurd held (fresh.slots p), fun p x here => ?_⟩
  · rw [fresh.heap p] at here
    nomatch here
  · rw [fresh.heap p] at here
    nomatch here

theorem spare_none : s.Spare none := fun q same => nomatch same

theorem slicer_ends {o : Option Nat} {Q : Option Nat → State → Prop} (lawful : Lawful pool) (inv : s.Inv)
    (held : ∀ p, o = some p → ∃ x, s.heap p = some x)
    (bounds : ¬(start ≤ v ∧ v ≤ (strOf s.heap o).text.length) → E s) (raised : E s.skip)
    (empty : start = v → v ≤ (strOf s.heap o).text.length → Q none s)
    (some_ : ∀ y : Str, y.Good → y.ref = 1 → start < v → v ≤ (strOf s.heap o).text.length →
      y.text = ((strOf s.heap o).text.take v).drop start → Q (some s.next) (s.skip.set s.next y)) :
    Ends (slicer pool start v o) s Q E := by
  cases o with
  | none =>
    refine Ends.ite (fun zero => empty (by lia) (by lia)) fun some_ => bounds fun inside => some_ ?_
    have length : v ≤ 0 := inside.2
    lia
  | some p =>
    obtain ⟨x, here⟩ := held p rfl
    have good := inv.good p x here
    have small := good.size_lt
    rw [strOf_some here, x.length_text] at bounds empty some_
    have sliced : ∀ y : Str, y.len.natAbs = v - start → start < v → v ≤ x.len.natAbs →
        (∀ i, i < v - start → y.char i = x.char (start + i)) → y.text = (x.text.take v).drop start := by
      intro y length _ within same
      refine Str.text_eq ?_ fun i h => ?_
      · rw [length, List.length_drop, List.length_take, x.length_text]
        lia
      · rw [List.length_drop, List.length_take, x.length_text] at h
        rw [List.getElem_drop, List.getElem_take, x.getElem_text, same i (by lia)]
    refine Ends.bind (load_ends here ?_)
    dsimp only
    refine Ends.ite (fun neg => ?_) fun pos => ?_
    · obtain ⟨used, most⟩ := good.runes neg
      simp only [sizeofRune] at most
      refine Ends.ite (fun out => bounds (by lia)) fun within => Ends.ite (fun none => ?_) fun more => ?_
      · have count : (u32 ((v : Int) - start) : Int) = v - start := u32_of_lt (by lia) (by lia)
        exact empty (by lia) (by lia)
      have count : (u32 ((v : Int) - start) : Int) = v - start := u32_of_lt (by lia) (by lia)
      rw [count] at more ⊢
      rw [int_of_lt (by lia) (by lia)]
      refine Ends.bind (newrunes_ends lawful raised (by lia) fun y new len most => ?_)
      have fits := new.size
      have enough := new.fits
      simp only [sizeofRune, sizeofHeap, sizeofString] at fits enough most
      refine Ends.bind (memmove_ends (State.heap_set ..) (inv.heap_alloc here y) ?_ ?_)
      · simp only [sizeofRune]
        lia
      · rw [State.set_set]
        refine some_ _ (new.runes y.len y.max (by lia) (by lia) ?_) new.ref (by lia) (by lia) ?_
        · simp only [sizeofRune, sizeofHeap, sizeofString]
          lia
        · refine sliced _ (by dsimp only; lia) (by lia) (by lia) fun i less => ?_
          rw [Str.char_rune (by dsimp only; lia), Str.char_rune neg]
          exact runeAt_sliced (by simp only [sizeofRune]; lia) start
    · obtain ⟨used, most, chars⟩ := good.ascii (by lia)
      refine Ends.ite (fun out => bounds (by lia)) fun within => Ends.ite (fun none => ?_) fun more => ?_
      · have count : (u32 ((v : Int) - start) : Int) = v - start := u32_of_lt (by lia) (by lia)
        exact empty (by lia) (by lia)
      have count : (u32 ((v : Int) - start) : Int) = v - start := u32_of_lt (by lia) (by lia)
      rw [count] at more ⊢
      rw [int_of_lt (by lia) (by lia)]
      refine Ends.bind (newstring_ends lawful raised (by lia) fun y _ new len top => ?_)
      have fits := new.size
      have copied : ∀ i, i < v - start →
          poke y.data 0 (readBytes x.data start (v - start : Int).toNat) i = x.data (start + i) :=
        fun i less => poke_readBytes (Nat.zero_le i) (by lia)
      refine Ends.bind (memmove_ends (State.heap_set ..) (inv.heap_alloc here y) (by lia) ?_)
      rw [State.set_set]
      refine some_ _ (new.ascii y.len top (by lia) (by lia) fun i less => ?_) new.ref (by lia) (by lia) ?_
      · rw [copied i (by lia)]
        exact chars _ (by lia)
      · refine sliced _ (by dsimp only; lia) (by lia) (by lia) fun i less => ?_
        rw [Str.char_ascii (by dsimp only; lia), Str.char_ascii (by lia)]
        exact congrArg UInt8.toNat (copied i less)

theorem fillString_ends {fill : List UInt8} {Q : Nat → State → Prop} (lawful : Lawful pool) (inv : s.Inv)
    (less : fill.length < 2 ^ 31) (low : ∀ b ∈ fill, b.toNat < 0x80) (raised : ∀ t : State, t.Inv → E t)
    (holds : ∀ (p : Nat) (t : State), t.Inv → t.Spare (some p) → Q p t) : Ends (fillString pool fill) s Q E := by
  refine Ends.bind (newstring_ends lawful (raised _ inv.skip) (by omega) fun y _ new len top => ?_)
  have fits := new.size
  refine Ends.bind (store_ends (State.heap_set ..) (by omega) ?_)
  rw [State.set_set]
  refine holds _ _ (inv.alloc (new.ascii y.len top (by omega) (by omega) ?_)) (inv.spare_alloc new.ref)
  exact low_poke (fun i less => by omega) (by omega) low

theorem fillRunes_ends {nr : Nat} {fill : List Nat} {Q : Nat → State → Prop} (lawful : Lawful pool) (inv : s.Inv)
    (less : nr < 2 ^ 30 - 16) (length : fill.length = nr) (raised : ∀ t : State, t.Inv → E t)
    (holds : ∀ (p : Nat) (t : State), t.Inv → t.Spare (some p) → Q p t) : Ends (fillRunes pool nr fill) s Q E := by
  by_cases none : nr = 0
  · -- `newrunes(0)` is an empty ASCII string
    have empty : fillRunes pool nr fill = fillString pool [] := by
      rw [none, List.length_eq_zero_iff.mp (length.trans none)]
      rfl
    rw [empty]
    exact fillString_ends lawful inv (Nat.two_pow_pos 31) (fun b there => nomatch there) raised holds
  · refine Ends.bind (newrunes_ends lawful (raised _ inv.skip) (by omega) fun y new len most => ?_)
    have fits := new.size
    have enough := new.fits
    simp only [sizeofRune, sizeofHeap, sizeofString] at fits enough most
    refine Ends.bind (storeRunes_ends (State.heap_set ..) ?_ fun data _ => ?_)
    · simp only [sizeofRune]
      omega
    · rw [State.set_set]
      refine holds _ _ (inv.alloc (new.runes y.len y.max (by omega) (by omega) ?_)) (inv.spare_alloc new.ref)
      simp only [sizeofRune, sizeofHeap, sizeofString]
      omega

theorem length_decodeRunes (nc : Nat) (cs : ByteMem) : (decodeRunes nc cs).length = nc := by
  induction nc generalizing cs with
  | zero => rfl
  | succ nc ih => rw [decodeRunes, List.length_cons, ih]

theorem low_of_runeCount {cs : List UInt8} (ascii : runeCount cs = none) : ∀ b ∈ cs, b.toNat < 0x80 := by
  intro b there
  unfold runeCount at ascii
  split at ascii
  · rename_i none
    have low := List.findIdx?_eq_none_iff.mp none b there
    rw [decide_eq_false_iff_not] at low
    omega
  · nomatch ascii

theorem c2string_ends {cs : List UInt8} {Q : Nat → State → Prop} (lawful : Lawful pool) (inv : s.Inv)
    (ok : TextOk cs) (raised : ∀ t : State, t.Inv → E t)
    (holds : ∀ (p : Nat) (t : State), t.Inv → t.Spare (some p) → Q p t) : Ends (c2string pool cs) s Q E := by
  unfold c2string
  cases runes : runeCount cs with
  | none => exact fillString_ends lawful inv ok.1 (low_of_runeCount runes) raised holds
  | some nc => exact fillRunes_ends lawful inv (ok.2 nc runes) (length_decodeRunes nc _) raised holds

theorem addc_ends (lawful : Lawful pool) (inv : s.Inv) (ok : (Event.addc d m k).Careful s) :
    Ends (addc pool d m k) s (fun _ t => t.Inv) fun t => t.Inv := by
  have last : ∀ (p : Option Nat) (t : State), t.Inv → t.slots.getD d none = p ∨ t.Spare p →
      Ends (do if p ≠ (← slot d) then assign d p) t (fun _ t => t.Inv) fun t => t.Inv := by
    intro p t inv mine
    refine Ends.bind (slot_ends (Ends.ite (fun other => ?_) fun same => inv))
    exact assign_ends inv (mine.resolve_left fun same => other same.symm) fun t inv => inv
  have new : ∀ w : Str, w.Good → w.ref = 1 →
      Ends (do if some s.next ≠ (← slot d) then assign d (some s.next)) (s.skip.set s.next w) (fun _ t => t.Inv)
        fun t => t.Inv := fun w good ref => last _ _ (inv.alloc good) (Or.inr (inv.spare_alloc ref))
  refine Ends.bind (slot_ends (Ends.bind (slot_ends (Ends.bind ?_))))
  cases first : s.slots.getD m none with
  | none =>
    cases second : s.slots.getD k none with
    | none => exact last none s inv (Or.inr spare_none)
    | some q =>
      obtain ⟨y, there, -⟩ := inv.at_slot second
      exact Ends.map (stringdup_ends lawful inv there inv.skip fun w good ref _ _ _ => new w good ref)
  | some p =>
    obtain ⟨x, here, at_⟩ := inv.at_slot first
    refine Ends.bind (load_ends here ?_)
    dsimp only
    have held : (m == d && !decide (x.ref > 1)) = true → s.slots.getD d none = some p := by
      intro append
      rw [Bool.and_eq_true, beq_iff_eq] at append
      exact append.1 ▸ first
    cases second : s.slots.getD k none with
    | none =>
      refine Ends.ite (fun append => last (some p) s inv (Or.inl (held append))) fun _ => ?_
      exact Ends.map (stringdup_ends lawful inv here inv.skip fun w good ref _ _ _ => new w good ref)
    | some q =>
      obtain ⟨y, there, at'⟩ := inv.at_slot second
      have pair := ok x y at_ at'
      rw [first, second] at pair
      refine Ends.map (addPair_ends lawful inv here there pair inv.skip (fun append w good ref _ => ?_) fun w good ref _ => ?_)
      · exact last (some p) _ (inv.replace here good ref) (Or.inl (held append))
      · exact new w good ref

theorem destroyed_with_slots (s : State) (o : Option Nat) (slots : List (Option Nat)) :
    ({ s with slots } : State).destroyed o = { s.destroyed o with slots } := by
  cases o with
  | none => rfl
  | some p =>
    simp only [State.destroyed]
    split
    · split
      · rfl
      · rfl
    · rfl

theorem movp_ends (inv : s.Inv) : Ends (movp d k) s (fun _ t => t.Inv) fun t => t.Inv := by
  have last : ∀ (p : Option Nat) (t : State), t.Inv → t.Spare p →
      Ends (do let old ← slot d; setSlot d p; destroy old) t (fun _ t => t.Inv) fun t => t.Inv := by
    intro p t inv spare
    refine Ends.bind (slot_ends (Ends.bind (setSlot_ends (destroy_ends ?_))))
    rw [destroyed_with_slots]
    exact inv.assigned spare
  refine Ends.bind (slot_ends ?_)
  cases held : s.slots.getD k none with
  | none => exact last none s inv spare_none
  | some p =>
    obtain ⟨x, here, -⟩ := inv.at_slot held
    have good := inv.good p x here
    have most := inv.counted p x here
    refine Ends.bind (Ends.modify ?_)
    rw [change_eq here rfl]
    refine last (some p) _ (inv.set (inv.lt_next here) ⟨good.room, good.small, good.ascii, good.runes⟩ ?_) fun q same => ?_
    · exact Nat.le_succ_of_le most
    · cases same
      exact ⟨_, State.heap_set .., Nat.lt_succ_of_le most⟩

theorem op_ends {e : Event} (lawful : Lawful pool) (inv : s.Inv) (careful : e.Careful s) :
    Ends (e.op pool) s (fun _ t => t.Inv) fun t => t.Inv := by
  have install : ∀ (p : Nat) (t : State), t.Inv → t.Spare (some p) →
      ∀ d, Ends (assign d (some p)) t (fun _ t => t.Inv) fun t => t.Inv :=
    fun p t inv spare d => assign_ends inv spare fun t inv => inv
  cases e with
  | newstring d fill =>
    exact Ends.bind (fillString_ends lawful inv careful.1 careful.2 (fun t inv => inv) fun p t inv spare =>
      install p t inv spare d)
  | newrunes d fill =>
    exact Ends.bind (fillRunes_ends lawful inv careful rfl (fun t inv => inv) fun p t inv spare =>
      install p t inv spare d)
  | c2string d cs =>
    exact Ends.bind (c2string_ends lawful inv careful (fun t inv => inv) fun p t inv spare => install p t inv spare d)
  | insc d m r => exact insc_ends lawful inv careful
  | addc d m k => exact addc_ends lawful inv careful
  | slicec d start v =>
    refine Ends.bind (slot_ends (Ends.bind (slicer_ends lawful inv (fun p held => ?_) (fun _ => inv) inv.skip
      (fun _ _ => assign_ends inv spare_none fun t inv => inv) fun y good ref _ _ _ => ?_)))
    · obtain ⟨x, here, -⟩ := inv.at_slot held
      exact ⟨x, here⟩
    · exact assign_ends (inv.alloc good) (inv.spare_alloc ref) fun t inv => inv
  | splitc d expand =>
    refine Ends.bind (slot_ends ?_)
    cases held : s.slots.getD d none with
    | none => exact inv
    | some p =>
      obtain ⟨x, here, at_⟩ := inv.at_slot held
      exact Ends.map (splitc_ends lawful inv here held (careful x at_) inv.skip fun y t inv _ _ _ _ _ _ _ => inv)
  | cvtac d a =>
    cases a with
    | none => exact assign_ends inv spare_none fun t inv => inv
    | some cs =>
      exact Ends.bind (c2string_ends lawful inv (careful cs rfl) (fun t inv => inv) fun p t inv spare =>
        install p t inv spare d)
  | movp d k => exact movp_ends inv

theorem exec_inv {e : Event} {s' : State} (lawful : Lawful pool) (inv : s.Inv) (careful : e.Careful s)
    (ran : exec pool e s = some s') : s'.Inv := by
  have ends := op_ends lawful inv careful
  unfold exec at ran
  unfold Ends at ends
  cases run : e.op pool s with
  | ok a t =>
    rw [run] at ran ends
    cases ran
    exact ends
  | error a t =>
    rw [run] at ran ends
    cases ran
    exact ends

/-- Along every run of careful steps, every string in the heap fits its block as its length tells, and nothing has
been stored outside a block. -/
theorem strings_ok (lawful : Lawful pool) (fresh : s₀.Fresh) (run : Run (exec pool) Event.Careful s₀ s) :
    s.overran = false ∧ ∀ p x, s.heap p = some x → x.Ok := by
  have inv := run.invariant State.Inv fresh.inv fun inv careful ran => exec_inv lawful inv careful ran
  exact ⟨inv.inside, fun p x here => (inv.good p x here).ok⟩

/-- The pool of the heap while it gives out blocks of their own size. -/
def heapmem (_ asked : Nat) : Option Block :=
  if asked < 2 ^ 30 then some ⟨Pool.State.blockSize asked - Pool.bhdrsize, fun _ => 0⟩ else none

theorem heapmem_lawful : Lawful heapmem := by
  intro n asked b given
  unfold heapmem at given
  split at given
  · cases given
    simp only [Pool.State.blockSize, Pool.align, Pool.quanta, Pool.bhdrsize, Pool.dataOffset]
    lia
  · nomatch given

/-- One variable that holds no string. -/
def oneSlot : State := { heap := fun _ => none, next := 0, slots := [none], overran := false }

theorem oneSlot_fresh : oneSlot.Fresh := ⟨fun _ => rfl, fun _ => by simp [oneSlot], rfl⟩

/-- An ASCII string gets a rune behind its characters. -/
theorem strings_ok_expand :
    ∃ s, Run (exec heapmem) Event.Careful oneSlot s ∧ s.overran = false ∧ ∀ p x, s.heap p = some x → x.Ok := by
  have run₁ := (Run.start : Run (exec heapmem) Event.Careful oneSlot oneSlot).step (a := Event.c2string 0 [0x61])
    ⟨by decide, fun nc runes => nomatch runes⟩ rfl
  have run₂ := run₁.step (a := Event.insc 0 1 0x3b1)
    ⟨fun x here _ => by cases here; exact ⟨by decide, by decide⟩, fun neg => absurd neg (by decide)⟩ rfl
  exact ⟨_, run₂, strings_ok heapmem_lawful oneSlot_fresh run₂⟩

/-- What runs of any steps lead to: a byte of `-1` in an ASCII string, an empty string that has become one rune with
`max` still in bytes, and eleven characters added to themselves past the end of the block. -/
theorem strings_broken :
    (∃ s, Run (exec heapmem) (fun _ _ => True) oneSlot s ∧ ∃ p x, s.heap p = some x ∧ ¬x.Ok) ∧
    (∃ s, Run (exec heapmem) (fun _ _ => True) oneSlot s ∧ ∃ p x, s.heap p = some x ∧ x.len < 0 ∧ ¬x.Ok) ∧
    ∃ s, Run (exec heapmem) (fun _ _ => True) oneSlot s ∧ s.overran = true := by
  have start : Run (exec heapmem) (fun _ _ => True) oneSlot oneSlot := Run.start
  refine ⟨?_, ?_, ?_⟩
  · refine ⟨_, start.step (a := Event.insc 0 0 (-1)) trivial rfl, 0, _, rfl, fun ok => ?_⟩
    exact absurd ((ok.ascii (by decide)).2.2 0 (by decide)) (by decide)
  · refine ⟨_, (start.step (a := Event.c2string 0 []) trivial rfl).step (a := Event.insc 0 0 0x3b1) trivial rfl, 0, _,
      rfl, by decide, fun ok => ?_⟩
    exact absurd (ok.runes (by decide)).2 (by decide)
  · exact ⟨_, (start.step (a := Event.c2string 0 (List.replicate 11 0x61)) trivial rfl).step
      (a := Event.addc 0 0 0) trivial rfl, by decide⟩

end Inferno.Strings
