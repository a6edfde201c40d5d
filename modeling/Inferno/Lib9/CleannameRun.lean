import Inferno.Lib9.CleannameText

namespace Inferno.Lib9

open Lib

/-- `u` and the terminator stand at `p`. -/
def Unread (mem : ByteMem) (p : Nat) (u : List UInt8) : Prop := ∀ i c, (u ++ [0])[i]? = some c → mem (p + i) = c

/-- The variables at an element of the name, where `u` is still to be read and the rest is kept. The gap between the
cursors is wider once the start of the name is gone. -/
structure At (mem₀ : ByteMem) (length : Nat) (rooted : Bool) (s : Cur) (u : List UInt8) (reals dots : List Elem) :
    Prop where
  keeps : Kept rooted reals dots
  left : s.p + u.length = length
  plain : 0 ∉ u
  unread : Unread s.b.mem s.p u
  written : Spells s.b.mem (text rooted (reals ++ dots))
  q : s.q = (text rooted (reals ++ dots)).length
  dotdot : s.dotdot = (text rooted dots).length
  room : s.q ≤ s.p
  gap : reals ++ dots ≠ [] → Bound u ∨ s.q < s.p
  hi : s.b.hi ≤ s.p + 1
  frame : ∀ i, s.p < i → s.b.mem i = mem₀ i
  start : rooted = false → s.p = 0 → u.head? ≠ some slash
  erased : s.erasedPrefix = true ↔ rooted = false ∧ s.p ≠ 0 ∧ ∀ x ∈ (reals ++ dots).getLast?, x.2 = false
  none : s.erasedPrefix = true → reals ++ dots = [] → s.q + 1 ≤ s.p ∧ (Bound u ∨ s.q + 2 ≤ s.p)
  some : s.erasedPrefix = true → reals ++ dots ≠ [] → s.q + 2 ≤ s.p ∧ (Bound u ∨ s.q + 3 ≤ s.p)

variable {mem mem₀ : ByteMem} {length p : Nat} {rooted : Bool} {s : Cur} {u v e t : List UInt8} {reals dots : List Elem}
  {c : UInt8}

theorem Unread.head (unread : Unread mem p (c :: u)) : mem p = c := unread 0 c rfl

theorem Unread.tail (unread : Unread mem p (c :: u)) : Unread mem (p + 1) u := fun i d there => by
  rw [Nat.add_assoc, Nat.add_comm 1 i]
  exact unread (i + 1) d there

theorem Unread.end (unread : Unread mem p u) : mem (p + u.length) = 0 := by
  refine unread u.length 0 ?_
  rw [List.getElem?_append_right (le_refl _), Nat.sub_self]
  rfl

theorem Unread.congr {mem' : ByteMem} (unread : Unread mem p u) (same : ∀ i, p ≤ i → mem' i = mem i) :
    Unread mem' p u := fun i d there => (same (p + i) (Nat.le_add_right ..)).trans (unread i d there)

/-- The first byte is a separator at the end of an element only. -/
theorem Unread.sep (unread : Unread mem p u) (plain : 0 ∉ u) : sep (mem p) = true ↔ Bound u := by
  cases u with
  | nil => exact iff_of_true ((congrArg sep (unread 0 0 rfl : mem p = 0)).trans rfl) (Or.inl rfl)
  | cons c u =>
    rw [unread.head, Lib9.sep, Bool.or_eq_true, beq_iff_eq, beq_iff_eq, Bound, List.head?_cons, Option.some.injEq]
    have zero : c ≠ 0 := fun same => plain (same ▸ List.mem_cons_self)
    exact ⟨fun ends => Or.inr (ends.resolve_right zero), fun ends => Or.inl (ends.resolve_left (List.cons_ne_nil c u))⟩

theorem put_ne (b : Buf) {i j : Nat} (other : i ≠ j) (c : UInt8) : (b.put j c).mem i = b.mem i :=
  Function.update_of_ne other ..

theorem put_self (b : Buf) (i : Nat) (c : UInt8) : (b.put i c).mem i = c := Function.update_self ..

theorem hi_put (b : Buf) (i : Nat) (c : UInt8) : (b.put i c).hi = max b.hi (i + 1) := rfl

/-- The element `e` has been copied behind `t`. -/
structure Copied (s s' : Cur) (t e v : List UInt8) : Prop where
  p : s'.p = s.p + e.length
  q : s'.q = s.q + e.length
  dotdot : s'.dotdot = s.dotdot
  erased : s'.erasedPrefix = s.erasedPrefix
  unread : Unread s'.b.mem s'.p v
  written : Spells s'.b.mem (t ++ e)
  hi : s'.b.hi ≤ s'.p + 1
  frame : ∀ i, s'.p < i → s'.b.mem i = s.b.mem i

theorem copyElem_copied {fuel : Nat} (unread : Unread s.b.mem s.p (e ++ v)) (clean : slash ∉ e) (plain : 0 ∉ e)
    (plain' : 0 ∉ v) (ends : Bound v) (written : Spells s.b.mem t) (q : s.q = t.length) (room : s.q ≤ s.p)
    (hi : s.b.hi ≤ s.p + 1) (enough : e.length < fuel) : Copied s (copyElem fuel s) t e v := by
  induction e generalizing s t fuel with
  | nil =>
    cases fuel with
    | zero => nomatch enough
    | succ fuel =>
      have stop : ¬(s.b.mem s.p ≠ slash ∧ s.b.mem s.p ≠ 0) := by
        have bound := (unread.sep plain').mpr ends
        rw [sep, Bool.or_eq_true, beq_iff_eq, beq_iff_eq] at bound
        rcases bound with same | same
        · exact fun other => other.1 same
        · exact fun other => other.2 same
      rw [copyElem, put_self, if_neg stop]
      refine ⟨rfl, rfl, rfl, rfl, ?_, ?_, ?_, fun i (after : s.p < i) => put_ne _ (by lia) _⟩
      · refine unread.congr fun i (after : s.p ≤ i) => ?_
        rcases eq_or_ne i s.q with rfl | other
        · obtain same : s.q = s.p := by lia
          dsimp only
          rw [put_self, same]
        · exact put_ne _ other _
      · rw [List.append_nil]
        exact written.congr fun i less => put_ne _ (by lia) _
      · dsimp only
        rw [hi_put]
        lia
  | cons a e ih =>
    cases fuel with
    | zero => nomatch enough
    | succ fuel =>
      rw [List.cons_append] at unread
      rw [List.length_cons] at enough
      have go : a ≠ slash ∧ a ≠ 0 :=
        ⟨fun same => clean (same ▸ List.mem_cons_self), fun same => plain (same ▸ List.mem_cons_self)⟩
      rw [copyElem, put_self, unread.head, if_pos go]
      have next := @ih { s with b := s.b.put s.q a, p := s.p + 1, q := s.q + 1 } (t ++ [a]) fuel
        (unread.tail.congr fun i after => put_ne _ (by lia) _)
        (fun member => clean (List.mem_cons_of_mem a member)) (fun member => plain (List.mem_cons_of_mem a member))
        (q ▸ written.put a) (by rw [List.length_append, List.length_singleton, q])
        (Nat.succ_le_succ room) (by dsimp only; rw [hi_put]; lia) (by lia)
      obtain ⟨p', q', dotdot, erased, unread', written', hi', frame⟩ := next
      refine ⟨p'.trans ?_, q'.trans ?_, dotdot, erased, unread', ?_, hi', fun i after => (frame i after).trans ?_⟩
      · dsimp only
        rw [List.length_cons]
        lia
      · dsimp only
        rw [List.length_cons]
        lia
      · rw [List.append_assoc] at written'
        exact written'
      · exact put_ne _ (by dsimp only at p'; lia) _

/-- What starts with another byte than a slash starts with an element. -/
theorem exists_elem (other : c ≠ slash) (u : List UInt8) :
    ∃ e v, c :: u = e ++ v ∧ e ≠ [] ∧ slash ∉ e ∧ Bound v := by
  have alone : slash ∉ [c] := fun member => other (List.mem_singleton.mp member).symm
  induction u generalizing c with
  | nil => exact ⟨[c], [], rfl, List.cons_ne_nil _ _, alone, Or.inl rfl⟩
  | cons d u ih =>
    by_cases null : d = slash
    · exact ⟨[c], d :: u, rfl, List.cons_ne_nil _ _, alone, Or.inr (congrArg some null)⟩
    · obtain ⟨e, v, whole, -, clean, ends⟩ := ih null fun member => null (List.mem_singleton.mp member).symm
      refine ⟨c :: e, v, congrArg (c :: ·) whole, List.cons_ne_nil _ _, fun member => ?_, ends⟩
      rcases List.mem_cons.mp member with same | member
      · exact other same.symm
      · exact clean member

theorem eq_nil_of_bound (clean : slash ∉ e) (ends : Bound (e ++ v)) : e = [] := by
  cases e with
  | nil => rfl
  | cons a e =>
    rcases ends with none | head
    · nomatch none
    · exact absurd (Option.some.inj head ▸ List.mem_cons_self) clean

theorem real_eq (unread : Unread s.b.mem s.p (e ++ v)) (plain : 0 ∉ e ++ v) (nonempty : e ≠ []) (clean : slash ∉ e)
    (ends : Bound v) (noDot : e ≠ [dot]) (noDots : e ≠ [dot, dot]) (rooted : Bool) (fuel : Nat) :
    turn rooted fuel s = real rooted fuel s := by
  obtain ⟨c, e, rfl⟩ := List.exists_cons_of_ne_nil nonempty
  rw [List.cons_append] at unread plain
  have zero : s.b.mem (s.p + 0) = c := unread.head
  have plain₁ : 0 ∉ e ++ v := fun member => plain (List.mem_cons_of_mem c member)
  have clean₁ : slash ∉ e := fun member => clean (List.mem_cons_of_mem c member)
  have noSlash : ¬s.b.mem (s.p + 0) = slash := fun same => clean (zero.symm.trans same ▸ List.mem_cons_self)
  have one : ¬(s.b.mem (s.p + 0) = dot ∧ sep (s.b.mem (s.p + 1)) = true) := by
    rintro ⟨first, second⟩
    have last := eq_nil_of_bound clean₁ ((unread.tail.sep plain₁).mp second)
    rw [last, zero.symm.trans first] at noDot
    exact noDot rfl
  have two : ¬(s.b.mem (s.p + 0) = dot ∧ s.b.mem (s.p + 1) = dot ∧ sep (s.b.mem (s.p + 2)) = true) := by
    rintro ⟨first, second, third⟩
    cases e with
    | nil =>
      refine absurd ((unread.tail.sep plain₁).mpr ends) ?_
      rw [second]
      decide
    | cons d e =>
      have same : d = dot := unread.tail.head.symm.trans second
      have last : e = [] := eq_nil_of_bound (fun member => clean₁ (List.mem_cons_of_mem d member))
        ((unread.tail.tail.sep fun member => plain₁ (List.mem_cons_of_mem d member)).mp third)
      rw [last, same, zero.symm.trans first] at noDots
      exact noDots rfl
  rw [turn, if_neg noSlash, if_neg one, if_neg two]

namespace At

variable {fuel : Nat}

theorem zero (at_ : At mem₀ length rooted s (c :: u) reals dots) : s.b.mem (s.p + 0) = c := at_.unread.head

theorem tail_plain (at_ : At mem₀ length rooted s (c :: u) reals dots) : 0 ∉ u := fun member =>
  at_.plain (List.mem_cons_of_mem c member)

/-- Nothing is kept where the name starts, which is not at the root. -/
theorem of_start (at_ : At mem₀ length rooted s u reals dots) (start : s.p = 0) :
    rooted = false ∧ reals ++ dots = [] := by
  have room := at_.room
  have least := length_text_le rooted [] (reals ++ dots)
  rw [List.append_nil, length_text_nil, ← at_.q] at least
  have root : rooted = false := by
    rw [Bool.eq_false_iff]
    rintro rfl
    rw [Bool.toNat_true] at least
    omega
  refine ⟨root, kept_of_length at_.keeps ?_⟩
  rw [← at_.q]
  omega

/-- A null element. -/
theorem null_turn (at_ : At mem₀ length rooted s (slash :: u) reals dots) :
    At mem₀ length rooted (turn rooted fuel s) u reals dots := by
  rw [turn, if_pos at_.zero]
  have room := at_.room
  have hi := at_.hi
  have left := at_.left
  rw [List.length_cons] at left
  refine ⟨at_.keeps, ?_, at_.tail_plain, at_.unread.tail, at_.written, at_.q, at_.dotdot, ?_, fun _ => Or.inr ?_, ?_,
    fun i after => at_.frame i ?_, fun _ zero => ?_, at_.erased.trans ?_, fun erased none => ?_, fun erased some_ => ?_⟩
  all_goals dsimp only at *
  · lia
  · lia
  · lia
  · lia
  · lia
  · lia
  · refine and_congr_right fun root => and_congr_left fun _ => iff_of_true (fun zero => ?_) (Nat.succ_ne_zero _)
    exact at_.start root zero rfl
  · have least := (at_.none erased none).1
    lia
  · have least := (at_.some erased some_).1
    lia

/-- The element `.`. -/
theorem dot_turn (at_ : At mem₀ length rooted s (dot :: u) reals dots) (ends : Bound u) :
    At mem₀ length rooted (turn rooted fuel s) u reals dots := by
  have next : sep (s.b.mem (s.p + 1)) = true := (at_.unread.tail.sep at_.tail_plain).mpr ends
  rw [turn, if_neg (at_.zero.trans_ne (by decide)), if_pos ⟨at_.zero, next⟩]
  have room := at_.room
  have hi := at_.hi
  have left := at_.left
  rw [List.length_cons] at left
  have erased : (s.erasedPrefix || s.p == 0) = true ↔
      rooted = false ∧ s.p + 1 ≠ 0 ∧ ∀ x ∈ (reals ++ dots).getLast?, x.2 = false := by
    rw [Bool.or_eq_true, beq_iff_eq, at_.erased]
    refine ⟨fun cases => ?_, fun ⟨root, _, bottom⟩ => ?_⟩
    · rcases cases with ⟨root, -, bottom⟩ | zero
      · exact ⟨root, Nat.succ_ne_zero _, bottom⟩
      · obtain ⟨root, none⟩ := at_.of_start zero
        rw [none]
        exact ⟨root, Nat.succ_ne_zero _, fun x member => nomatch member⟩
    · by_cases zero : s.p = 0
      · exact Or.inr zero
      · exact Or.inl ⟨root, zero, bottom⟩
  refine ⟨at_.keeps, ?_, at_.tail_plain, at_.unread.tail, at_.written, at_.q, at_.dotdot, ?_, fun _ => Or.inl ends, ?_,
    fun i after => at_.frame i ?_, fun _ zero => ?_, erased, fun erased' none => ⟨?_, Or.inl ends⟩,
    fun erased' some_ => ⟨?_, Or.inl ends⟩⟩
  all_goals dsimp only at *
  · omega
  · omega
  · omega
  · omega
  · omega
  · omega
  · rcases Bool.or_eq_true _ _ ▸ erased' with before | start
    · have least := (at_.some before some_).1
      omega
    · exact absurd (at_.of_start (beq_iff_eq.mp start)).2 some_

/-- What is kept of an element on top changes where the last kept one is only if nothing was kept. -/
theorem erased_cons (at_ : At mem₀ length rooted s u reals dots) {p : Nat} (x : Elem) (later : p ≠ 0)
    (first : x.2 = decide (s.p = 0)) :
    s.erasedPrefix = true ↔ rooted = false ∧ p ≠ 0 ∧ ∀ y ∈ (x :: (reals ++ dots)).getLast?, y.2 = false := by
  rw [at_.erased]
  refine and_congr_right fun root => ?_
  rcases eq_or_ne (reals ++ dots) [] with none | some_
  · rw [none, List.getLast?_singleton]
    simp only [List.getLast?_nil, Option.mem_def, reduceCtorEq, false_implies, implies_true, and_true,
      Option.some.injEq, forall_eq', first, decide_eq_false_iff_not, and_iff_right later]
  · have start : s.p ≠ 0 := fun start => some_ (at_.of_start start).2
    rw [List.getLast?_cons_of_ne_nil some_]
    exact and_congr_left fun _ => iff_of_true start later

/-- A real element. -/
theorem real_turn (at_ : At mem₀ length rooted s (e ++ v) reals dots) (nonempty : e ≠ []) (clean : slash ∉ e)
    (ends : Bound v) (noDot : e ≠ [dot]) (noDots : e ≠ [dot, dot]) (enough : e.length ≤ fuel) :
    At mem₀ length rooted (turn rooted (fuel + 1) s) v ((e, decide (s.p = 0)) :: reals) dots := by
  have long := List.length_pos_iff.mpr nonempty
  have plain : 0 ∉ e := fun member => at_.plain (List.mem_append_left v member)
  have plain' : 0 ∉ v := fun member => at_.plain (List.mem_append_right e member)
  have inside : ¬Bound (e ++ v) := fun bound => nonempty (eq_nil_of_bound clean bound)
  have keeps : Kept rooted ((e, decide (s.p = 0)) :: reals) dots := by
    refine ⟨fun x member => ?_, at_.keeps.up, at_.keeps.root⟩
    rcases List.mem_cons.mp member with rfl | member
    · exact ⟨nonempty, noDot, noDots, clean, plain⟩
    · exact at_.keeps.real x member
  have left := at_.left
  rw [List.length_append] at left
  -- The cursors after an element that goes to `q₁`, with what stands before it.
  have finish : ∀ (s₁ : Cur) (t : List UInt8), s₁.p = s.p → s₁.dotdot = s.dotdot →
      s₁.erasedPrefix = s.erasedPrefix → s₁.q = t.length → s₁.q ≤ s.p →
      (s.erasedPrefix = true → s₁.q + 2 ≤ s.p) → Unread s₁.b.mem s.p (e ++ v) → Spells s₁.b.mem t →
      s₁.b.hi ≤ s.p + 1 → (∀ i, s.p < i → s₁.b.mem i = s.b.mem i) →
      t ++ e = text rooted ((e, decide (s.p = 0)) :: (reals ++ dots)) →
      At mem₀ length rooted (copyElem (fuel + 1) s₁) v ((e, decide (s.p = 0)) :: reals) dots := by
    intro s₁ t p dotdot erased q room slack unread written hi frame whole
    rw [← p] at room unread hi
    obtain ⟨p', q', dotdot', erased', unread', written', hi', frame'⟩ :=
      copyElem_copied unread clean plain plain' ends written q room hi (by lia : e.length < fuel + 1)
    have size := congrArg List.length whole
    rw [List.length_append] at size
    refine ⟨keeps, by lia, plain', unread', whole ▸ written', by rw [List.cons_append]; lia,
      (dotdot'.trans dotdot).trans at_.dotdot, by lia, fun _ => Or.inl ends, hi', fun i after => ?_,
      fun _ start => absurd start (by lia), ?_, fun _ none => (nomatch none), fun went _ => ⟨?_, Or.inl ends⟩⟩
    · rw [frame' i after, frame i (by lia)]
      exact at_.frame i (by lia)
    · rw [erased', erased]
      exact at_.erased_cons _ (by lia) rfl
    · have least := slack ((erased'.trans erased).symm.trans went)
      lia
  rw [real_eq at_.unread at_.plain nonempty clean ends noDot noDots, real]
  have q := at_.q
  rcases eq_or_ne (reals ++ dots) [] with none | some_
  · rw [none, length_text_nil] at q
    rw [if_neg (not_not.mpr q)]
    refine finish s (text rooted []) rfl rfl rfl (by rw [q, length_text_nil]) at_.room (fun erased => ?_) at_.unread
      (none ▸ at_.written) at_.hi (fun _ _ => rfl) ?_
    · exact (at_.none erased none).2.resolve_left inside
    · rw [none, text_single, text_nil]
  · have other : s.q ≠ rooted.toNat := fun same => some_ (kept_of_length at_.keeps (q.symm.trans same))
    rw [if_pos other]
    have gap := (at_.gap some_).resolve_left inside
    refine finish (s.push slash) (text rooted (reals ++ dots) ++ [slash]) rfl rfl rfl ?_ gap (fun erased => ?_)
      (at_.unread.congr fun i after => put_ne _ (by lia) _) (by rw [Cur.push, q]; exact at_.written.put slash) ?_
      (fun i after => put_ne _ (by lia) _) ?_
    · rw [List.length_append, List.length_singleton, ← q]
      rfl
    · have least := (at_.some erased some_).2.resolve_left inside
      exact least
    · have hi := at_.hi
      rw [Cur.push, hi_put]
      lia
    · rw [text_cons some_, List.append_assoc]
      rfl

theorem up_eq (at_ : At mem₀ length rooted s (dot :: dot :: v) reals dots) (ends : Bound v) :
    turn rooted fuel s = up rooted s := by
  have plain : 0 ∉ v := fun member => at_.plain (List.mem_cons_of_mem _ (List.mem_cons_of_mem _ member))
  have one : s.b.mem (s.p + 1) = dot := at_.unread.tail.head
  have two : sep (s.b.mem (s.p + 2)) = true := (at_.unread.tail.tail.sep plain).mpr ends
  have plainOne : ¬(s.b.mem (s.p + 0) = dot ∧ sep (s.b.mem (s.p + 1)) = true) := by
    rw [one]
    exact fun both => absurd both.2 (by decide)
  rw [turn, if_neg (at_.zero.trans_ne (by decide)), if_neg plainOne, if_pos ⟨at_.zero, one, two⟩]

/-- `..` takes the last real element off. -/
theorem up_real {x : Elem} (at_ : At mem₀ length rooted s (dot :: dot :: v) (x :: reals) dots) (ends : Bound v) :
    At mem₀ length rooted (up rooted s) v reals dots := by
  have plain : 0 ∉ v := fun member => at_.plain (List.mem_cons_of_mem _ (List.mem_cons_of_mem _ member))
  have keeps : Kept rooted reals dots :=
    ⟨fun y member => at_.keeps.real y (List.mem_cons_of_mem x member), at_.keeps.up, at_.keeps.root⟩
  have longer := length_text_le rooted (reals ++ dots) [x]
  have least := length_text_le rooted [] (reals ++ dots)
  rw [List.append_nil, length_text_nil] at least
  have q := at_.q
  have room := at_.room
  have hi := at_.hi
  have left := at_.left
  rw [List.length_cons, List.length_cons] at left
  rw [List.cons_append] at q
  rw [List.singleton_append] at longer
  have written : Spells s.b.mem (text rooted (reals ++ dots)) := by
    have whole := at_.written
    rw [List.cons_append] at whole
    rcases eq_or_ne (reals ++ dots) [] with none | some_
    · rw [none, text_single, ← text_nil] at whole
      rw [none]
      exact whole.left
    · rw [text_cons some_] at whole
      exact whole.left
  have start : s.p ≠ 0 := fun start => List.cons_ne_nil _ _ (at_.of_start start).2
  have erased : (text rooted (reals ++ dots)).length = 0 ∨ s.erasedPrefix = true ↔
      rooted = false ∧ s.p + 2 ≠ 0 ∧ ∀ y ∈ (reals ++ dots).getLast?, y.2 = false := by
    rcases eq_or_ne (reals ++ dots) [] with none | some_
    · rw [none, length_text_nil, at_.erased]
      refine ⟨fun cases => ⟨?_, Nat.succ_ne_zero _, fun y member => nomatch member⟩, fun ⟨root, _⟩ => Or.inl ?_⟩
      · rcases cases with zero | went
        · exact Bool.toNat_eq_zero.mp zero
        · exact went.1
      · rw [root]
        rfl
    · have long : (text rooted (reals ++ dots)).length ≠ 0 := fun zero =>
        some_ (kept_of_length keeps (by lia))
      rw [or_iff_right long, at_.erased, List.cons_append, List.getLast?_cons_of_ne_nil some_]
      exact and_congr_right fun _ => and_congr_left fun _ => iff_of_true start (Nat.succ_ne_zero _)
  have backed : back s.b.mem s.dotdot s.q = (text rooted (reals ++ dots)).length := by
    rw [at_.dotdot, at_.q]
    exact back_text at_.keeps at_.written
  have above : s.q > s.dotdot := by
    rw [at_.dotdot, at_.q]
    exact lt_length_text at_.keeps
  have result : up rooted s = ⟨s.b, s.p + 2, (text rooted (reals ++ dots)).length, s.dotdot,
      decide ((text rooted (reals ++ dots)).length = 0 ∨ s.erasedPrefix = true)⟩ := by
    unfold up
    dsimp only
    rw [if_pos above, backed]
    split
    · rename_i zero
      rw [decide_eq_true (Or.inl zero)]
    · rename_i more
      simp only [more, false_or, Bool.decide_eq_true]
  rw [result]
  refine ⟨keeps, ?_, plain, at_.unread.tail.tail, written, rfl, at_.dotdot, ?_, fun _ => Or.inl ends, ?_,
    fun i after => at_.frame i ?_, fun _ zero => ?_, decide_eq_true_iff.trans erased,
    fun _ none => ⟨?_, Or.inl ends⟩, fun went some_ => ⟨?_, Or.inl ends⟩⟩
  all_goals dsimp only at *
  · lia
  · lia
  · lia
  · lia
  · lia
  · lia
  · rcases of_decide_eq_true went with zero | before
    · exact absurd (kept_of_length keeps (by lia)) some_
    · have gone := (at_.some before (List.cons_ne_nil _ _)).1
      lia

/-- Where nothing can be taken off, `..` goes nowhere at the root and is kept otherwise. -/
theorem up_root (at_ : At mem₀ length true s (dot :: dot :: v) [] []) (ends : Bound v) :
    At mem₀ length true (up true s) v [] [] := by
  have plain : 0 ∉ v := fun member => at_.plain (List.mem_cons_of_mem _ (List.mem_cons_of_mem _ member))
  have q := at_.q
  have dotdot := at_.dotdot
  rw [List.append_nil, length_text_nil, Bool.toNat_true] at q
  rw [length_text_nil, Bool.toNat_true] at dotdot
  have result : up true s = { s with p := s.p + 2 } := by
    have low : ¬s.q > s.dotdot := by omega
    have long : ¬s.q = 0 := by omega
    unfold up
    dsimp only
    rw [if_neg low, Bool.not_true, if_neg Bool.false_ne_true, if_neg long]
  have erased : ¬s.erasedPrefix = true := fun went => Bool.noConfusion (at_.erased.mp went).1
  have room := at_.room
  have hi := at_.hi
  have left := at_.left
  rw [List.length_cons, List.length_cons] at left
  rw [result]
  refine ⟨at_.keeps, ?_, plain, at_.unread.tail.tail, at_.written, at_.q, at_.dotdot, ?_, fun _ => Or.inl ends, ?_,
    fun i after => at_.frame i ?_, fun _ zero => ?_, iff_of_false erased fun both => Bool.noConfusion both.1,
    fun went => absurd went erased, fun went => absurd went erased⟩
  all_goals dsimp only at *
  all_goals omega

theorem up_dots (at_ : At mem₀ length false s (dot :: dot :: v) [] dots) (ends : Bound v) :
    At mem₀ length false (up false s) v [] (([dot, dot], decide (s.p = 0)) :: dots) := by
  have plain : 0 ∉ v := fun member => at_.plain (List.mem_cons_of_mem _ (List.mem_cons_of_mem _ member))
  have inside : ¬Bound (dot :: dot :: v) := fun bound => List.cons_ne_nil dot []
    (eq_nil_of_bound (e := [dot]) (by decide) bound)
  have keeps : Kept false [] (([dot, dot], decide (s.p = 0)) :: dots) := by
    refine ⟨fun y member => (nomatch member), fun y member => ?_, fun root => (nomatch root)⟩
    rcases List.mem_cons.mp member with rfl | member
    · rfl
    · exact at_.keeps.up y member
  have left := at_.left
  rw [List.length_cons, List.length_cons] at left
  have q := at_.q
  have same := at_.q.trans at_.dotdot.symm
  have low : ¬s.q > s.dotdot := by lia
  -- The cursors after `..` has gone to `q₁`, with what stands before it.
  have finish : ∀ (s₁ : Cur) (t : List UInt8), s₁.p = s.p + 2 → s₁.erasedPrefix = s.erasedPrefix → s₁.q = t.length →
      s₁.q ≤ s.p → (s.erasedPrefix = true → s₁.q + 2 ≤ s.p) → Spells s₁.b.mem t → s₁.b.hi ≤ s.p + 1 →
      (∀ i, s.p ≤ i → s₁.b.mem i = s.b.mem i) →
      t ++ [dot, dot] = text false (([dot, dot], decide (s.p = 0)) :: dots) →
      At mem₀ length false { (s₁.push dot).push dot with dotdot := s₁.q + 2 } v []
        (([dot, dot], decide (s.p = 0)) :: dots) := by
    intro s₁ t p erased q room slack written hi frame whole
    have twice : Spells ((s₁.b.put s₁.q dot).put (s₁.q + 1) dot).mem (t ++ [dot, dot]) := by
      have once := written.put dot
      have again := once.put dot
      rw [List.length_append, List.length_singleton, List.append_assoc, ← q] at again
      exact again
    have size := congrArg List.length whole
    rw [List.length_append] at size
    have size' : t.length + 2 = (text false (([dot, dot], decide (s.p = 0)) :: dots)).length := size
    have beyond : ∀ i, s.p + 2 ≤ i → ((s₁.b.put s₁.q dot).put (s₁.q + 1) dot).mem i = s.b.mem i := fun i after =>
      (put_ne _ (by lia) _).trans ((put_ne _ (by lia) _).trans (frame i (by lia)))
    refine ⟨keeps, ?_, plain, ?_, whole ▸ twice, ?_, ?_, ?_, fun _ => Or.inl ends, ?_,
      fun i after => ?_, fun _ zero => ?_, ?_, fun _ none => (nomatch none), fun went _ => ⟨?_, Or.inl ends⟩⟩
    all_goals dsimp only [Cur.push] at *
    · lia
    · rw [p]
      exact at_.unread.tail.tail.congr fun i after => beyond i (by lia)
    · rw [List.nil_append]
      lia
    · lia
    · lia
    · rw [hi_put, hi_put]
      lia
    · rw [beyond i (by lia)]
      exact at_.frame i (by lia)
    · lia
    · rw [erased]
      exact at_.erased_cons _ (by lia) rfl
    · have least := slack (erased.symm.trans went)
      lia
  rw [List.nil_append] at q
  rcases eq_or_ne dots [] with none | some_
  · have zero : s.q = 0 := by
      rw [q, none, length_text_nil]
      rfl
    have result : up false s = { ((({ s with p := s.p + 2 } : Cur).push dot).push dot) with dotdot := s.q + 2 } := by
      unfold up
      dsimp only
      rw [if_neg low, Bool.not_false, if_pos rfl, if_neg (not_not.mpr zero)]
      exact if_neg (Nat.succ_ne_zero _)
    rw [result]
    refine finish { s with p := s.p + 2 } [] rfl rfl zero at_.room (fun erased => ?_)
      (fun i c there => nomatch there) at_.hi (fun _ _ => rfl) ?_
    · exact (at_.none erased none).2.resolve_left inside
    · rw [none, text_single]
      rfl
  · have more : s.q ≠ 0 := fun zero => some_ (kept_of_length at_.keeps (at_.q.symm.trans zero))
    have gap := (at_.gap some_).resolve_left inside
    have result : up false s =
        { (((({ s with p := s.p + 2 } : Cur).push slash).push dot).push dot) with dotdot := s.q + 1 + 2 } := by
      unfold up
      dsimp only
      rw [if_neg low, Bool.not_false, if_pos rfl, if_pos more]
      exact if_neg (Nat.succ_ne_zero _)
    rw [result]
    refine finish (({ s with p := s.p + 2 } : Cur).push slash) (text false dots ++ [slash]) rfl rfl ?_ gap
      (fun erased => ?_) (by dsimp only [Cur.push]; rw [q]; exact at_.written.put slash) ?_
      (fun i after => put_ne _ (by dsimp only; lia) _) ?_
    · rw [List.length_append, List.length_singleton, ← q]
      rfl
    · have least := (at_.some erased some_).2.resolve_left inside
      exact least
    · have hi := at_.hi
      dsimp only [Cur.push]
      rw [hi_put]
      lia
    · rw [text_cons some_, List.append_assoc]
      rfl

/-- `..` does to the kept elements what `keep` does. -/
theorem up_turn (fuel : Nat) (at_ : At mem₀ length rooted s (dot :: dot :: v) reals dots) (ends : Bound v) :
    ∃ reals' dots', At mem₀ length rooted (turn rooted fuel s) v reals' dots' ∧
      keep rooted (reals ++ dots) ([dot, dot], decide (s.p = 0)) = reals' ++ dots' := by
  rw [at_.up_eq ends]
  have kept : ∀ kept : List Elem, keep rooted kept ([dot, dot], decide (s.p = 0)) =
      @List.casesOn _ (fun _ => List Elem) kept (if rooted then [] else [([dot, dot], decide (s.p = 0))])
        fun top rest => if top.1 = [dot, dot] then ([dot, dot], decide (s.p = 0)) :: top :: rest else rest := by
    intro kept
    cases kept <;> exact (if_neg (by decide : ¬([dot, dot] = [] ∨ [dot, dot] = [dot]))).trans (if_pos rfl)
  rw [kept]
  cases reals with
  | cons x reals => exact ⟨reals, dots, at_.up_real ends, if_neg (at_.keeps.real x List.mem_cons_self).2.2.1⟩
  | nil =>
    cases rooted with
    | true =>
      obtain rfl := at_.keeps.root rfl
      exact ⟨[], [], at_.up_root ends, rfl⟩
    | false =>
      refine ⟨[], _, at_.up_dots ends, ?_⟩
      cases dots with
      | nil => rfl
      | cons top rest => exact if_pos (at_.keeps.up top List.mem_cons_self)

/-- One turn takes an element. -/
theorem turn_at (at_ : At mem₀ length rooted s (c :: u) reals dots) (enough : u.length + 1 ≤ fuel) :
    ∃ v reals' dots', At mem₀ length rooted (turn rooted (fuel + 1) s) v reals' dots' ∧ v.length ≤ u.length ∧
      (elems (decide (s.p = 0)) (c :: u)).foldl (keep rooted) (reals ++ dots) =
        (elems false v).foldl (keep rooted) (reals' ++ dots') := by
  by_cases null : c = Lib9.slash
  · subst null
    exact ⟨u, reals, dots, at_.null_turn, le_refl _, foldl_slash ..⟩
  · obtain ⟨e, v, whole, nonempty, clean, ends⟩ := exists_elem null u
    have long := List.length_pos_iff.mpr nonempty
    have size := congrArg List.length whole
    rw [List.length_cons, List.length_append] at size
    rw [whole, foldl_elem clean ends]
    rw [whole] at at_
    by_cases one : e = [Lib9.dot]
    · subst one
      exact ⟨v, reals, dots, at_.dot_turn ends, by omega, congrArg (List.foldl (keep rooted) · (elems false v)) (if_pos (Or.inr rfl))⟩
    · by_cases two : e = [Lib9.dot, Lib9.dot]
      · subst two
        obtain ⟨reals', dots', next, kept⟩ := up_turn (fuel + 1) at_ ends
        exact ⟨v, reals', dots', next, by omega, congrArg (List.foldl (keep rooted) · (elems false v)) kept⟩
      · refine ⟨v, _, dots, at_.real_turn nonempty clean ends one two (by omega), by omega,
          congrArg (List.foldl (keep rooted) · (elems false v)) ?_⟩
        exact (if_neg fun either => either.elim nonempty one).trans (if_neg two)

/-- The loop keeps what `keep` keeps of all elements. -/
theorem loop_at (at_ : At mem₀ length rooted s u reals dots) (enough : u.length ≤ fuel) :
    ∃ reals' dots', At mem₀ length rooted (loop rooted fuel s) [] reals' dots' ∧
      (elems (decide (s.p = 0)) u).foldl (keep rooted) (reals ++ dots) = reals' ++ dots' := by
  induction fuel generalizing s u reals dots with
  | zero =>
    obtain rfl := List.length_eq_zero_iff.mp (Nat.le_zero.mp enough)
    exact ⟨reals, dots, at_, keep_nil rooted (decide (s.p = 0)) _⟩
  | succ fuel ih =>
    cases u with
    | nil =>
      refine ⟨reals, dots, ?_, keep_nil rooted (decide (s.p = 0)) _⟩
      have done : s.b.mem s.p = 0 := at_.unread.end
      rw [loop, if_pos done]
      exact at_
    | cons c u =>
      rw [List.length_cons] at enough
      have more : ¬s.b.mem s.p = 0 := fun zero => at_.plain (at_.unread.head.symm.trans zero ▸ List.mem_cons_self)
      rw [loop, if_neg more]
      obtain ⟨v, reals₁, dots₁, next, shorter, same⟩ := at_.turn_at enough
      obtain ⟨reals', dots', last, kept⟩ := ih next (by omega)
      have later : ¬(turn rooted (fuel + 1 + 1) s).p = 0 := by
        have left := at_.left
        have left₁ := next.left
        rw [List.length_cons] at left
        omega
      rw [decide_eq_false later] at kept
      exact ⟨reals', dots', last, same.trans kept⟩

end At

end Inferno.Lib9
