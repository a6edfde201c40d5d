import Inferno.Lib.Cursor

namespace Inferno.Lib

section Consumes

variable {α β : Type}

theorem Dec.bind_some {d : Dec α} {k : α → Dec β} {c e : Cursor} {a : α} (ran : d c = (some a, e)) :
    (d >>= k) c = k a e := by
  change Dec.bind d k c = _
  rw [Dec.bind, ran]

theorem Dec.bind_none {d : Dec α} {k : α → Dec β} {c e : Cursor} (ran : d c = (none, e)) : (d >>= k) c = (none, e) := by
  change Dec.bind d k c = _
  rw [Dec.bind, ran]

/-- A pass that has consumed bytes which stand in relation `R` to its value
whenever it succeeds. `R` sees a memory before and one after, which are those of
the pass on the consumed range; outside that range nothing is written. -/
def Consumes (d : Dec α) (R : α → ByteMem → ByteMem → List UInt8 → Prop) : Prop :=
  ∀ c a c', d c = (some a, c') → ∃ n, c'.p = c.p + n ∧ (∀ q, q < c.p ∨ c.p + n ≤ q → c'.mem q = c.mem q) ∧
    ∀ before later : ByteMem, (∀ q, c.p ≤ q → q < c.p + n → before q = c.mem q) →
      (∀ q, c.p ≤ q → q < c.p + n → later q = c'.mem q) → R a before later (readBytes before c.p n)

theorem readBytes_add (mem : ByteMem) (p n m : Nat) :
    readBytes mem p (n + m) = readBytes mem p n ++ readBytes mem (p + n) m := by
  induction n generalizing p with
  | zero => rw [Nat.zero_add, readBytes, List.nil_append, Nat.add_zero]
  | succ n ih => rw [Nat.succ_add, readBytes, readBytes, ih, List.cons_append, Nat.add_assoc, Nat.add_comm 1]

theorem readBytes_congr {mem other : ByteMem} {p n : Nat} (same : ∀ q, p ≤ q → q < p + n → other q = mem q) :
    readBytes other p n = readBytes mem p n := by
  induction n generalizing p with
  | zero => rfl
  | succ n ih =>
    rw [readBytes, readBytes, same p le_rfl (by omega), ih fun q lower upper => same q (by omega) (by omega)]

theorem holds_readBytes (mem : ByteMem) (p n : Nat) : Holds mem p (readBytes mem p n) := by
  induction n generalizing p with
  | zero => trivial
  | succ n ih => exact ⟨rfl, ih (p + 1)⟩

theorem leBytes_leNat (bytes : List UInt8) : leBytes bytes.length (leNat bytes) = bytes := by
  induction bytes with
  | nil => rfl
  | cons b bytes ih =>
    have low : b.toNat < 256 := b.toNat_lt
    have rest : (b.toNat + 256 * leNat bytes) / 256 = leNat bytes := by omega
    have first : UInt8.ofNat (b.toNat + 256 * leNat bytes) = b := by
      apply UInt8.toNat_inj.mp
      rw [UInt8.toNat_ofNat']
      omega
    rw [List.length_cons, leNat, leBytes, rest, ih, first]

theorem leNat_lt (bytes : List UInt8) : leNat bytes < 256 ^ bytes.length := by
  induction bytes with
  | nil => exact Nat.one_pos
  | cons b bytes ih =>
    have low : b.toNat < 256 := b.toNat_lt
    rw [leNat, List.length_cons, pow_succ]
    omega

/-- Some memory holds given bytes. -/
theorem exists_holds (bytes : List UInt8) : ∃ mem : ByteMem, Holds mem 0 bytes := by
  have from_ (p : Nat) : Holds (fun a => bytes.getD (a - p) 0) p bytes := by
    induction bytes generalizing p with
    | nil => trivial
    | cons b bytes ih =>
      refine ⟨by dsimp only; rw [Nat.sub_self, List.getD_cons_zero], (ih (p + 1)).congr fun q lower _ => ?_⟩
      have next : q - p = (q - (p + 1)) + 1 := by omega
      rw [next, List.getD_cons_succ]
  exact ⟨_, from_ 0⟩

theorem Consumes.pure {a : α} {R : α → ByteMem → ByteMem → List UInt8 → Prop}
    (here : ∀ before later, R a before later []) : Consumes (Pure.pure a) R := by
  intro c b c' ran
  cases ran
  exact ⟨0, rfl, fun _ _ => rfl, fun before later _ _ => here before later⟩

theorem Consumes.fail {R : α → ByteMem → ByteMem → List UInt8 → Prop} : Consumes Dec.fail R := by
  intro c a c' ran
  cases ran

theorem Consumes.bind {d : Dec α} {k : α → Dec β} {P : α → ByteMem → ByteMem → List UInt8 → Prop}
    {R : β → ByteMem → ByteMem → List UInt8 → Prop} (first : Consumes d P)
    (rest : ∀ a, Consumes (k a) fun b before later ys => ∀ xs, P a before later xs → R b before later (xs ++ ys)) :
    Consumes (d >>= k) R := by
  intro c b c' ran
  rcases ranFirst : d c with ⟨_ | a, mid⟩
  · rw [Dec.bind_none ranFirst] at ran
    cases ran
  · rw [Dec.bind_some ranFirst] at ran
    obtain ⟨n, atMid, keptFirst, goodFirst⟩ := first c a mid ranFirst
    obtain ⟨m, atEnd, keptRest, goodRest⟩ := rest a mid b c' ran
    rw [atMid] at atEnd keptRest goodRest
    rw [Nat.add_assoc] at atEnd
    refine ⟨n + m, atEnd, fun q outside => ?_, fun before later agreesBefore agreesLater => ?_⟩
    · rw [keptRest q (by omega), keptFirst q (by omega)]
    · rw [readBytes_add]
      refine goodRest before later (fun q lower upper => ?_)
        (fun q lower upper => agreesLater q (by omega) (by omega)) _
        (goodFirst before later (fun q lower upper => agreesBefore q lower (by omega)) fun q lower upper => ?_)
      · rw [agreesBefore q (by omega) (by omega), keptFirst q (Or.inr lower)]
      · rw [agreesLater q lower (by omega), keptRest q (Or.inl upper)]

theorem Consumes.need {ep n : Nat} {k : Unit → Dec β} {R : β → ByteMem → ByteMem → List UInt8 → Prop}
    (rest : Consumes (k ()) R) : Consumes (need ep n >>= k) R := by
  intro c b c' ran
  by_cases beyond : c.p + n > ep
  · rw [Dec.bind_none (show Lib.need ep n c = (none, c) from if_pos beyond)] at ran
    cases ran
  · rw [Dec.bind_some (show Lib.need ep n c = (some (), c) from if_neg beyond)] at ran
    exact rest c b c' ran

theorem Consumes.ite {c : Prop} [Decidable c] {d e : Dec α} {R : α → ByteMem → ByteMem → List UInt8 → Prop}
    (yes : c → Consumes d R) (no : ¬ c → Consumes e R) : Consumes (if c then d else e) R := by
  split
  · exact yes ‹c›
  · exact no ‹¬ c›

theorem Consumes.next (n : Nat) : Consumes (next n) fun a _ _ bytes => a = bytes ∧ bytes.length = n := by
  intro c a c' ran
  cases ran
  refine ⟨n, rfl, fun _ _ => rfl, fun before later agrees _ => ⟨?_, length_readBytes _ _ _⟩⟩
  exact (readBytes_congr agrees).symm

theorem Consumes.congr {d : Dec α} {R S : α → ByteMem → ByteMem → List UInt8 → Prop} (consumes : Consumes d R)
    (imp : ∀ a before later bytes, R a before later bytes → S a before later bytes) : Consumes d S := by
  intro c a c' ran
  obtain ⟨n, atEnd, kept, good⟩ := consumes c a c' ran
  exact ⟨n, atEnd, kept, fun before later one two => imp a before later _ (good before later one two)⟩

end Consumes

section Confined

variable {α β : Type} {ep room left : Nat}

/-- A pass that, started with `room` bytes before `ep`, sees and changes nothing
from `ep` on, and has `left` bytes before `ep` when it succeeds. -/
def Confined (ep room left : Nat) (d : Dec α) : Prop :=
  ∀ c c' : Cursor, c.p = c'.p → c.p + room ≤ ep → (∀ q < ep, c.mem q = c'.mem q) →
    (d c).1 = (d c').1 ∧ (d c).2.p = (d c').2.p ∧ (∀ q < ep, (d c).2.mem q = (d c').2.mem q) ∧
      (∀ q, ep ≤ q → (d c).2.mem q = c.mem q) ∧ ((d c).1.isSome → (d c).2.p + left ≤ ep)

theorem Confined.pure {a : α} (enough : left ≤ room) : Confined ep room left (Pure.pure a : Dec α) := by
  intro c c' start fits same
  exact ⟨rfl, start, same, fun _ _ => rfl, fun _ => (Nat.add_le_add_left enough _).trans fits⟩

theorem Confined.fail : Confined ep room left (Dec.fail : Dec α) :=
  fun _ _ start _ same => ⟨rfl, start, same, fun _ _ => rfl, fun done => nomatch done⟩

theorem Confined.bind {mid : Nat} {d : Dec α} {k : α → Dec β} (first : Confined ep room mid d)
    (rest : ∀ a, Confined ep mid left (k a)) : Confined ep room left (d >>= k) := by
  intro c c' start fits same
  obtain ⟨value, stop, kept, outer, within⟩ := first c c' start fits same
  rcases ran : d c with ⟨r, e⟩
  rcases ran' : d c' with ⟨r', e'⟩
  rw [ran, ran'] at value stop kept
  rw [ran] at outer within
  dsimp only at value stop kept outer within
  subst value
  cases r with
  | none =>
    rw [Dec.bind_none ran, Dec.bind_none ran']
    exact ⟨rfl, stop, kept, outer, fun done => nomatch done⟩
  | some a =>
    rw [Dec.bind_some ran, Dec.bind_some ran']
    obtain ⟨valueRest, stopRest, keptRest, outerRest, withinRest⟩ := rest a e e' stop (within rfl) kept
    exact ⟨valueRest, stopRest, keptRest, fun q beyond => (outerRest q beyond).trans (outer q beyond), withinRest⟩

theorem Confined.need (n : Nat) : Confined ep room n (need ep n) := by
  intro c c' start fits same
  simp only [Lib.need, ← start]
  split
  · exact ⟨rfl, start, same, fun _ _ => rfl, fun done => by cases done⟩
  · exact ⟨rfl, start, same, fun _ _ => rfl, fun _ => by dsimp only; omega⟩

theorem Confined.next {n : Nat} (enough : n + left ≤ room) : Confined ep room left (next n) := by
  intro c c' start fits same
  refine ⟨?_, ?_, same, fun _ _ => rfl, fun _ => ?_⟩
  · simp only [Lib.next, ← start]
    exact congrArg some (readBytes_congr fun q _ upper => same q (by omega))
  · exact congrArg (· + n) start
  · simp only [Lib.next]
    omega

theorem Confined.ite {c : Prop} [Decidable c] {d e : Dec α} (yes : Confined ep room left d)
    (no : Confined ep room left e) :
    Confined ep room left (if c then d else e) := by
  split
  · exact yes
  · exact no

end Confined

end Inferno.Lib
