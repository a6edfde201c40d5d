import Inferno.Emu.Runq

namespace Inferno.Emu.Runq

open Lib

namespace Sched

variable {gc : Prog → Prop} {s s' : Sched} {l u v : List Prog} {p q : Prog} {st : ProgState} {n : Nat}

/-- The queue is `l`, `runtl` its last, and it has the `Prog` that are ready, or running and marked as exiting; but for
those of the collector, `gc`. -/
structure Core (gc : Prog → Prop) (s : Sched) (l : List Prog) : Prop where
  path : Path s.link s.runhd l
  tail : s.runtl = l.getLast?
  ready : ∀ p, ¬gc p → (p ∈ l ↔ s.state p = .ready ∨ s.state p = .exiting ∧ s.runhd = some p)

/-- A `Prog` that another one has to wake. -/
def Waiting (st : ProgState) : Prop := st = .alt ∨ st = .send ∨ st = .recv

instance (st : ProgState) : Decidable (Waiting st) := inferInstanceAs (Decidable (_ ∨ _))

/-- What processes put back is not on the queue, and does not wait. -/
structure Away (gc : Prog → Prop) (s : Sched) (l : List Prog) : Prop where
  out : ∀ up p, s.back up = some p → p ∉ l
  once : ∀ up up' p, s.back up = some p → s.back up' = some p → up = up'
  held : ∀ up p, s.back up = some p → ¬gc p → ¬Waiting (s.state p)

/-- The `Prog` is on the queue, or a process puts it back. -/
def Listed (s : Sched) (p : Prog) : Prop := ∃ l, Path s.link s.runhd l ∧ p ∈ l
def Held (s : Sched) (p : Prog) : Prop := ∃ up, s.back up = some p

/-- The running `Prog` is not marked as exiting. -/
def Calm (gc : Prog → Prop) (s : Sched) : Prop := ∀ p, s.runhd = some p → s.state p = .exiting → gc p

/-- `p` may be on the queue or not, whatever its state is. -/
def But (gc : Prog → Prop) (p : Prog) : Prog → Prop := fun q => gc q ∨ q = p

theorem setState_self (s : Sched) (p : Prog) (st : ProgState) : (s.setState p st).state p = st := by
  dsimp only [setState]
  rw [Function.update_self]

theorem setState_of_ne (s : Sched) (st : ProgState) (other : q ≠ p) : (s.setState p st).state q = s.state q := by
  dsimp only [setState]
  rw [Function.update_of_ne other]

theorem Core.listed (core : Core gc s l) : s.Listed p ↔ p ∈ l := by
  constructor
  · rintro ⟨l', path, here⟩
    exact core.path.unique path ▸ here
  · exact fun here => ⟨l, core.path, here⟩

theorem Core.head_mem (core : Core gc s l) (head : s.runhd = some p) : p ∈ l := by
  have first := core.path.head
  rw [head] at first
  exact List.mem_of_mem_head? first

theorem Core.weaken (core : Core gc s l) (p : Prog) : Core (But gc p) s l :=
  ⟨core.path, core.tail, fun q other => core.ready q fun collector => other (Or.inl collector)⟩

/-- `p`, which is not on the queue, gets a state for it. -/
theorem Core.settle (core : Core (But gc p) s l) (out : p ∉ l) (stopped : st ≠ .ready) : Core gc (s.setState p st) l := by
  refine ⟨core.path, core.tail, fun q other => ?_⟩
  by_cases same : q = p
  · subst same
    rw [setState_self]
    refine iff_of_false out ?_
    rintro (ready | ⟨-, head⟩)
    · exact stopped ready
    · exact out (core.head_mem head)
  · rw [setState_of_ne s st same]
    exact core.ready q (not_or.mpr ⟨other, same⟩)

/-- `p` is made ready and put behind the others. -/
theorem Core.append (core : Core gc s l) (fresh : p ∉ l) (plain : s.addrunf p = none) :
    ∃ s', s.addrun p = some s' ∧ Core gc s' (l ++ [p]) ∧ s'.back = s.back ∧ s'.state = (s.setState p .ready).state := by
  have tail := core.tail
  have head := core.path.head
  have listed : ∀ (t : Sched), t.state = (s.setState p .ready).state → (∀ q, q ≠ p → (t.runhd = some q ↔ s.runhd = some q)) →
      ∀ q, ¬gc q → (q ∈ l ++ [p] ↔ t.state q = .ready ∨ t.state q = .exiting ∧ t.runhd = some q) := by
    intro t state heads q other
    rw [state, List.mem_append, List.mem_singleton]
    by_cases same : q = p
    · subst same
      rw [setState_self]
      exact iff_of_true (Or.inr rfl) (Or.inl rfl)
    · rw [setState_of_ne s _ same, heads q same, ← core.ready q other]
      exact or_iff_left same
  cases l with
  | nil =>
    have none_ : s.runhd = none := head.symm
    refine ⟨{ (s.setState p .ready).setLink p none with runhd := some p, runtl := some p }, ?_, ⟨?_, rfl, ?_⟩, rfl, rfl⟩
    · unfold addrun
      rw [plain]
      dsimp only [setState, setLink]
      rw [none_]
    · exact ⟨rfl, if_pos rfl⟩
    · refine listed _ rfl fun q other => ?_
      rw [none_]
      exact iff_of_false (fun same => other (Option.some.inj same).symm) fun none_ => nomatch none_
  | cons h rest =>
    obtain ⟨t, last⟩ : ∃ t, (h :: rest).getLast? = some t := ⟨_, List.getLast?_eq_some_getLast (List.cons_ne_nil h rest)⟩
    have first : s.runhd = some h := head.symm
    rw [last] at tail
    refine ⟨{ ((s.setState p .ready).setLink p none).setLink t (some p) with runtl := some p }, ?_, ⟨?_, ?_, ?_⟩, rfl,
      rfl⟩
    · unfold addrun
      rw [plain]
      dsimp only [setState, setLink]
      rw [first, tail]
    · exact core.path.append last fresh
    · rw [List.getLast?_append]
      rfl
    · exact listed _ rfl fun q _ => Iff.rfl

/-- `p` is made ready and put before the others. -/
theorem Core.push (core : Core gc s l) (fresh : p ∉ l) (calm : s.Calm gc) : Core gc (s.pushHead p) (p :: l) := by
  have head := core.path.head
  have tail := core.tail
  refine ⟨core.path.push fresh, ?_, fun q other => ?_⟩
  · cases l with
    | nil =>
      have none_ : s.runhd = none := head.symm
      exact if_pos none_
    | cons h rest =>
      have first : s.runhd = some h := head.symm
      have some_ : ¬s.runhd = none := fun none_ => nomatch first.symm.trans none_
      exact (if_neg some_).trans (tail.trans List.getLast?_cons_cons.symm)
  · have state : (s.pushHead p).state = (s.setState p .ready).state := rfl
    have runhd : (s.pushHead p).runhd = some p := rfl
    rw [state, runhd, List.mem_cons]
    by_cases same : q = p
    · subst same
      rw [setState_self]
      exact iff_of_true (Or.inl rfl) (Or.inl rfl)
    · rw [setState_of_ne s _ same, or_iff_right same, core.ready q other]
      refine or_congr_right ⟨fun ⟨exiting, head⟩ => absurd (calm q head exiting) other, ?_⟩
      exact fun ⟨_, first⟩ => absurd (Option.some.inj first).symm same

/-- The first is taken off. -/
theorem Core.pop (core : Core gc s (p :: l)) :
    Core (But gc p) { s with runhd := s.link p, runtl := if s.link p = none then none else s.runtl } l := by
  have tail := core.tail
  have rest := core.path.2
  have head := rest.head
  have first : s.runhd = some p := core.path.1
  have apart := (List.nodup_cons.mp core.path.nodup).1
  refine ⟨rest, ?_, fun q other => ?_⟩
  · dsimp only
    cases l with
    | nil => exact if_pos head.symm
    | cons h more =>
      have some_ : s.link p = some h := head.symm
      have more_ : ¬s.link p = none := fun none_ => nomatch some_.symm.trans none_
      rw [if_neg more_, tail, List.getLast?_cons_cons]
  · obtain ⟨collector, same⟩ := not_or.mp other
    have before := core.ready q collector
    rw [List.mem_cons, or_iff_right same, first] at before
    rw [before]
    refine or_congr_right ⟨fun ⟨_, head⟩ => absurd (Option.some.inj head).symm same, fun ⟨exiting, next⟩ => ?_⟩
    have here : q ∈ l := List.mem_of_mem_head? (head.trans next)
    rcases before.mp here with ready | ⟨_, head⟩
    · rw [ready] at exiting
      cases exiting
    · exact absurd (Option.some.inj head).symm same

theorem follow_take (path : Path s.link (some q) (q :: l)) (n : Nat) :
    (Path.follow s.link n (some q)) = (q :: l).take n := by
  induction n generalizing q l with
  | zero => rfl
  | succ n ih =>
    have rest := path.2
    cases l with
    | nil =>
      have none_ : s.link q = none := rest
      rw [Path.follow, none_]
      cases n <;> rfl
    | cons h more =>
      have next : s.link q = some h := rest.1
      rw [Path.follow, next, ih ⟨rfl, rest.2⟩]
      rfl

theorem Core.length (core : Core gc s l) (ends : s.Ends n) : l.length ≤ n := by
  cases l with
  | nil => exact Nat.zero_le n
  | cons h more =>
    unfold Ends at ends
    rw [core.path.1, follow_take ⟨rfl, core.path.2⟩, List.length_take] at ends
    omega

theorem delrunq_absent (core : Core gc s l) (ends : s.Ends n) (out : p ∉ l) : s.delrunq n p = s := by
  have fails : ∀ q ∈ l, (q == p) = false := fun q here => beq_eq_false_iff_ne.mpr fun same => out (same ▸ here)
  unfold delrunq
  rw [core.path.search_none fails (core.length ends)]

/-- `p` is taken off, and nothing else of the `Prog` changes. -/
structure Removed (gc : Prog → Prop) (s : Sched) (p : Prog) (s' : Sched) (l : List Prog) : Prop where
  core : Core (But gc p) s' l
  state : s'.state = s.state
  addrunf : s'.addrunf = s.addrunf
  back : s'.back = s.back
  head : s.runhd ≠ some p → s'.runhd = s.runhd

theorem Core.remove (core : Core gc s (u ++ p :: v)) (ends : s.Ends n) : Removed gc s p (s.delrunq n p) (u ++ v) := by
  have nodup := core.path.nodup
  have apart := (List.nodup_append.mp nodup).2.2
  have before : ∀ q ∈ u, (q == p) = false := fun q here =>
    beq_eq_false_iff_ne.mpr (apart q here p List.mem_cons_self)
  have length := core.length ends
  rw [List.length_append, List.length_cons] at length
  have found : Path.search s.link (· == p) n none s.runhd = (u.getLast?.or none, some p) :=
    core.path.search_found before (beq_self_eq_true p) (by omega)
  rw [Option.or_none] at found
  have rest : p ∉ v := (List.nodup_cons.mp (List.nodup_append.mp nodup).2.1).1
  have tail := core.tail
  have last : (u ++ p :: v).getLast? = some p ↔ v = [] := by
    constructor
    · intro same
      cases v with
      | nil => rfl
      | cons h more =>
        rw [List.getLast?_append, List.getLast?_cons_cons] at same
        have some_ : ((h :: more).getLast?).isSome := by simp
        rw [Option.or_of_isSome some_] at same
        exact absurd (List.mem_of_getLast? same) rest
    · rintro rfl
      exact List.getLast?_concat
  have tail' : (if s.runtl = some p then u.getLast? else s.runtl) = (u ++ v).getLast? := by
    rw [tail]
    by_cases none_ : v = []
    · rw [if_pos (last.mpr none_), none_, List.append_nil]
    · rw [if_neg (mt last.mp none_), List.getLast?_append, List.getLast?_append]
      cases v with
      | nil => exact absurd rfl none_
      | cons h more =>
        rw [List.getLast?_cons_cons]
  have listed {s' : Sched} (state : s'.state = s.state) (heads : s'.runhd = (u ++ v).head?) :
      ∀ q, ¬But gc p q → (q ∈ u ++ v ↔ s'.state q = .ready ∨ s'.state q = .exiting ∧ s'.runhd = some q) := by
    intro q other
    obtain ⟨collector, same⟩ := not_or.mp other
    have first := core.path.head
    have was := core.ready q collector
    have mem : q ∈ u ++ p :: v ↔ q ∈ u ++ v := by
      simp only [List.mem_append, List.mem_cons, or_iff_right same]
    rw [mem] at was
    rw [state, heads, was, ← first]
    cases u with
    | cons h more => exact Iff.rfl
    | nil =>
      refine or_congr_right ⟨fun ⟨_, head⟩ => absurd (Option.some.inj head).symm same, fun ⟨exiting, next⟩ => ?_⟩
      have here : q ∈ ([] : List Prog) ++ v := List.mem_of_mem_head? next
      rcases was.mp here with ready | ⟨_, head⟩
      · rw [ready] at exiting
        cases exiting
      · rw [← first] at head
        exact absurd (Option.some.inj head).symm same
  cases prev : u.getLast? with
  | none =>
    have nil : u = [] := List.getLast?_eq_none_iff.mp prev
    subst nil
    rw [prev] at tail' found
    have path : Path s.link (s.link p) v := core.path.2
    have first : s.runhd = some p := core.path.1
    have eq : s.delrunq n p = if s.runtl = some p then { s with runhd := s.link p, runtl := none }
        else { s with runhd := s.link p } := by
      unfold delrunq
      rw [found]
    rw [eq]
    by_cases isLast : s.runtl = some p
    · rw [if_pos isLast] at tail' ⊢
      exact ⟨⟨path, tail', listed rfl path.head.symm⟩, rfl, rfl, rfl, fun other => absurd first other⟩
    · rw [if_neg isLast] at tail' ⊢
      exact ⟨⟨path, tail', listed rfl path.head.symm⟩, rfl, rfl, rfl, fun other => absurd first other⟩
  | some t =>
    rw [prev] at tail' found
    have path : Path (Function.update s.link t (s.link p)) s.runhd (u ++ v) := core.path.unlink prev
    have eq : s.delrunq n p = if s.runtl = some p then { s.setLink t (s.link p) with runtl := some t }
        else s.setLink t (s.link p) := by
      unfold delrunq
      rw [found]
      rfl
    rw [eq]
    by_cases isLast : s.runtl = some p
    · rw [if_pos isLast] at tail' ⊢
      exact ⟨⟨path, tail', listed rfl path.head.symm⟩, rfl, rfl, rfl, fun _ => rfl⟩
    · rw [if_neg isLast] at tail' ⊢
      exact ⟨⟨path, tail', listed rfl path.head.symm⟩, rfl, rfl, rfl, fun _ => rfl⟩

/-- `delrunq` takes `p` off, if it is on the queue. -/
theorem Core.delrunq (core : Core gc s l) (ends : s.Ends n) (p : Prog) :
    ∃ l', Removed gc s p (s.delrunq n p) l' ∧ p ∉ l' ∧ ∀ q, q ≠ p → (q ∈ l' ↔ q ∈ l) := by
  by_cases here : p ∈ l
  · obtain ⟨u, v, rfl⟩ := List.append_of_mem here
    have nodup := core.path.nodup
    refine ⟨u ++ v, core.remove ends, ?_, fun q other => ?_⟩
    · rw [List.mem_append]
      rintro (left | right)
      · exact (List.nodup_append.mp nodup).2.2 p left p List.mem_cons_self rfl
      · exact (List.nodup_cons.mp (List.nodup_append.mp nodup).2.1).1 right
    · simp only [List.mem_append, List.mem_cons, or_iff_right other]
  · rw [delrunq_absent core ends here]
    exact ⟨l, ⟨core.weaken p, rfl, rfl, rfl, fun _ => rfl⟩, here, fun _ _ => Iff.rfl⟩

/-- The first is put behind the others. -/
theorem Core.rotate (core : Core gc s l) (calm : s.Calm gc) :
    ∃ s' l', s.rotate = some s' ∧ Core gc s' l' ∧ s'.back = s.back ∧ s'.state = s.state ∧ ∀ q, q ∈ l' ↔ q ∈ l := by
  have head := core.path.head
  have tail := core.tail
  cases l with
  | nil =>
    have none_ : s.runhd = none := head.symm
    refine ⟨s, [], ?_, core, rfl, rfl, fun _ => Iff.rfl⟩
    unfold Sched.rotate
    rw [none_]
  | cons r rest =>
    have first : s.runhd = some r := head.symm
    obtain ⟨t, last⟩ : ∃ t, (r :: rest).getLast? = some t := ⟨_, List.getLast?_eq_some_getLast (List.cons_ne_nil r rest)⟩
    rw [last] at tail
    by_cases one : r = t
    · refine ⟨s, r :: rest, ?_, core, rfl, rfl, fun _ => Iff.rfl⟩
      unfold Sched.rotate
      rw [first, tail]
      exact if_pos one
    · have apart : r ∉ rest := (List.nodup_cons.mp core.path.nodup).1
      have last' : rest.getLast? = some t := by
        cases rest with
        | nil => exact absurd (Option.some.inj last) one
        | cons h more => rwa [List.getLast?_cons_cons] at last
      have mem : ∀ q, q ∈ rest ++ [r] ↔ q ∈ r :: rest := fun q => by
        rw [List.mem_append, List.mem_singleton, List.mem_cons, or_comm]
      refine ⟨{ (s.setLink r none).setLink t (some r) with runhd := s.link r, runtl := some r }, rest ++ [r], ?_,
        ⟨core.path.2.append last' apart, ?_, fun q other => ?_⟩, rfl, rfl, mem⟩
      · unfold Sched.rotate
        rw [first, tail]
        exact if_neg one
      · exact List.getLast?_concat.symm
      · have before := core.ready q other
        rw [mem q, before]
        refine or_congr_right ⟨fun ⟨exiting, head⟩ => absurd (calm q head exiting) other, fun ⟨exiting, next⟩ => ?_⟩
        have here : q ∈ rest := List.mem_of_mem_head? (core.path.2.head.trans next)
        rcases before.mp (List.mem_cons_of_mem r here) with ready | ⟨_, head⟩
        · have state : s.state q = .exiting := exiting
          rw [ready] at state
          cases state
        · exact absurd (calm q head exiting) other

end Sched

end Inferno.Emu.Runq
