import Inferno.Export.Flush

namespace Inferno.Export

attribute [grind =] Flush.Names

namespace Flush

/-- What has been answered, and what is still owed when. -/
structure Past (s : Flush) : Prop where
  fresh : ∀ r ∈ s.log, r < s.made
  once : s.log.Nodup
  closed : ∀ r ∈ s.log, ¬(s.place r).Open
  duty : ∀ fq < s.made, (s.oldtag fq).isSome → fq ∈ s.log ∨ (s.place fq).Open
  behind : ∀ fq ∈ s.log, ∀ r, s.Names fq r → ¬(s.place r).Open
  returned : ∀ fq, s.eproc = .returned fq → ∀ r, s.Names fq r → ¬(s.place r).Open
  waiting : ∀ fq q, s.place fq = .waiting q → ∀ r, s.Names fq r → (s.place r).Open → r = q
  order : s.log.Pairwise fun fq r => ¬s.Names fq r

variable {s : Flush} {q fq : Nat}

@[simp, grind =] theorem move_place (p : Place) (r : Nat) :
    (s.move q p).place r = if r = q then p else s.place r := Function.update_apply ..

@[simp, grind =] theorem answer_place (p : Place) (r : Nat) :
    (s.answer q p).place r = if r = q then p else s.place r := Function.update_apply ..

namespace Past

/-- A step that answers nothing and leaves nothing to answer that was not. -/
theorem moved {place : Nat → Place} {queue work : List Nat} {flush : Nat → List Nat} {eproc : EProc} (past : s.Past)
    (less : ∀ r, (place r).Open → (s.place r).Open) (kept : ∀ r, (s.oldtag r).isSome → (s.place r).Open → (place r).Open)
    (returned : ∀ fq, eproc = .returned fq → s.eproc = .returned fq ∨ ∀ r, s.Names fq r → ¬(place r).Open)
    (waiting : ∀ fq q, place fq = .waiting q → s.place fq = .waiting q ∨
      ∀ r, s.Names fq r → (place r).Open → r = q) {tail : Option Nat} {fsl : Bool} :
    Past { s with place, queue, tail, work, flush, eproc, fsl } := by
  obtain ⟨fresh, once, closed, duty, behind, returned', waiting', order⟩ := past
  refine ⟨fresh, once, fun r member now => closed r member (less r now), ?_, ?_, ?_, ?_, order⟩
  · intro fq made some_
    exact (duty fq made some_).imp_right (kept fq some_)
  · exact fun fq member r names now => behind fq member r names (less r now)
  · intro fq is r names now
    obtain before | after := returned fq is
    · exact returned' fq before r names (less r now)
    · exact after r names now
  · intro fq q is r names now
    obtain before | after := waiting fq q is
    · exact waiting' fq q before r names (less r now)
    · exact after r names now

/-- A request is answered that was still to be, and nothing that it names is left to answer. -/
theorem answered {place : Nat → Place} {eproc : EProc} (past : s.Past) (made : q < s.made) (was : (s.place q).Open)
    (less : ∀ r, (place r).Open → (s.place r).Open) (done : ¬(place q).Open)
    (kept : ∀ r, r ≠ q → (s.oldtag r).isSome → (s.place r).Open → (place r).Open)
    (last : ∀ r, s.Names q r → ¬(place r).Open) (idle : ∀ fq, eproc = .returned fq → s.eproc = .returned fq)
    (same : ∀ r p, place r = .waiting p → s.place r = .waiting p) :
    Past { s with place, eproc, log := s.log ++ [q] } := by
  obtain ⟨fresh, once, closed, duty, behind, returned, waiting, order⟩ := past
  have new : q ∉ s.log := fun member => closed q member was
  refine ⟨?_, ?_, ?_, ?_, ?_, ?_, ?_, ?_⟩
  · simpa [or_imp, forall_and] using ⟨fresh, made⟩
  · simpa [List.nodup_append] using ⟨once, fun a member same => new (same ▸ member)⟩
  · intro r member
    obtain old | rfl := by simpa using member
    · exact fun now => closed r old (less r now)
    · exact done
  · intro fq isMade some_
    by_cases same : fq = q
    · exact Or.inl (by simp [same])
    · obtain old | was := duty fq isMade some_
      · exact Or.inl (List.mem_append_left _ old)
      · exact Or.inr (kept fq same some_ was)
  · intro fq member r names
    obtain old | rfl := by simpa using member
    · exact fun now => behind fq old r names (less r now)
    · exact last r names
  · exact fun fq is r names now => returned fq (idle fq is) r names (less r now)
  · exact fun fq p is r names now => waiting fq p (same fq p is) r names (less r now)
  · simpa [List.pairwise_append] using ⟨order, fun fq member names => behind fq member q names was⟩

theorem take {rest : List Nat} (past : s.Past) (placed : s.Placed) (first : s.queue = q :: rest) :
    Past { s.move q .running with queue := rest, work := q :: s.work } := by
  have here : s.place q = .queued := (placed.queue q).mp (by rw [first]; exact List.mem_cons_self)
  exact past.moved (by grind) (by grind [Function.update_apply]) (fun _ is => Or.inl is)
    (by grind)

theorem flushQueue (past : s.Past) (placed : s.Placed)
    (alone : (s.named fq s.queue).isSome → s.Alone fq (s.named fq s.queue)) : (s.flushQueue fq).Past := by
  unfold Flush.flushQueue
  split
  · rename_i q found
    have here : s.place q = .queued := (placed.queue q).mp (List.mem_of_find?_eq_some found)
    have plain := placed.plain q (Or.inl here)
    have only := alone (by rw [found]; rfl)
    rw [found] at only
    refine past.moved (by grind) (by grind [Function.update_apply]) ?_
      (by grind)
    rintro _ ⟨⟩
    refine Or.inr fun r names now => ?_
    obtain rfl : q = r := Option.some.inj (only r names (by grind))
    simp [Place.Open] at now
  · exact past.moved (fun _ now => now) (fun _ _ now => now) (fun _ is => by contradiction) (fun _ _ is => Or.inl is)

theorem flushWork (past : s.Past) (alone : s.Alone fq (s.named fq s.work))
    (live : ∀ q, s.named fq s.work = some q → s.place q ≠ .finished) (here : s.place fq = .received) :
    (s.flushWork fq).Past := by
  unfold Flush.flushWork
  split
  · rename_i q found
    rw [if_neg (live q found)]
    rw [found] at alone
    refine past.moved (by grind) (by grind [Function.update_apply]) (fun _ is => by contradiction) fun fq' p is => ?_
    by_cases same : fq' = fq
    · subst same
      obtain rfl : q = p := by simpa using is
      refine Or.inr fun r names now => (Option.some.inj (alone r names ?_)).symm
      grind
    · exact Or.inl (by simpa [same] using is)
  · rename_i missing
    rw [missing] at alone
    refine past.moved (fun _ now => now) (fun _ _ now => now) ?_ (fun _ _ is => Or.inl is)
    rintro _ ⟨⟩
    exact Or.inr fun r names now => nomatch alone r names now

theorem rflush (past : s.Past) (placed : s.Placed) (at_ : s.eproc = .returned fq) :
    Past { s.answer fq .freed with eproc := .idle } := by
  have has : s.eproc.Has fq := Or.inr (Or.inr at_)
  have here := (placed.received fq).mpr has
  have made := (placed.newest fq has).1
  exact past.answered (by omega) (by rw [here]; trivial) (by grind)
    (by simp [Place.Open]) (by grind)
    (fun r names now => past.returned fq at_ r names (by grind)) nofun
    (by grind)

theorem replying (past : s.Past) (here : s.place q = .running) : (s.move q .replying).Past :=
  past.moved (by grind) (by grind [Function.update_apply]) (fun _ is => Or.inl is)
    (by grind)

/-- A request that is not a `Tflush` names nothing. -/
theorem answered_plain {p : Place} (past : s.Past) (placed : s.Placed) (here : s.place q = .replying)
    (closed : ¬p.Open) : (s.answer q p).Past := by
  have plain : s.oldtag q = none := placed.plain q (Or.inr (by rw [here]; trivial))
  have made : q < s.made := by
    by_contra high
    rw [placed.fresh q (by omega)] at here
    contradiction
  exact past.answered made (by rw [here]; trivial) (by grind)
    (by simpa using closed) (by grind) (by grind) (fun _ is => is)
    (by grind)

theorem drain (past : s.Past) (placed : s.Placed)
    (here : s.place q = .draining ∨ s.place q = .running) : (s.drain q).Past := by
  have plain : s.oldtag q = none := placed.plain q (Or.inr (by obtain is | is := here <;> rw [is] <;> trivial))
  unfold Flush.drain
  split <;> exact past.moved (by grind) (by grind [Function.update_apply])
    (fun _ is => Or.inl is) (by grind)

theorem rflushed (past : s.Past) (placed : s.Placed) (here : s.place q = .flushing fq) :
    ((s.answer fq .freed).move q .draining).Past := by
  have mine : s.place fq = .waiting q := (placed.waiting fq q).mpr (Or.inr here)
  have made : fq < s.made := by
    by_contra high
    rw [placed.fresh fq (by omega)] at mine
    contradiction
  refine past.answered made (by rw [mine]; trivial) (by grind)
    (by grind) (by grind [Function.update_apply]) (fun r names now => ?_) (fun _ is => is)
    (by grind)
  obtain rfl := past.waiting fq q mine r names (by grind)
  simp [Place.Open] at now

theorem unlink (past : s.Past) (here : s.place q = .finished) :
    Past { s.move q .freed with work := s.work.erase q } :=
  past.moved (by grind) (by grind [Function.update_apply]) (fun _ is => Or.inl is)
    (by grind)

/-- A message has arrived, and nothing that came before it names it. -/
theorem registered (past : s.Past) (placed : s.Placed) (idle : s.eproc = .idle) (tag : UInt16)
    (oldtag : Option UInt16) : Past { s.move s.made .received with
      made := s.made + 1, tag := Function.update s.tag s.made tag, oldtag := Function.update s.oldtag s.made oldtag,
      flush := Function.update s.flush s.made [] } := by
  have waits : ∀ fq q, s.place fq = .waiting q → fq < s.made := fun fq q is => by
    by_contra high
    rw [placed.fresh fq (by omega)] at is
    contradiction
  have names : ∀ fq < s.made, ∀ r, (r < fq ∧ Function.update s.oldtag s.made oldtag fq =
      some (Function.update s.tag s.made tag r)) → r ≠ s.made ∧ s.Names fq r := by
    grind [Function.update_apply]
  obtain ⟨fresh, once, closed, duty, behind, returned, waiting, order⟩ := past
  refine ⟨fun r member => Nat.lt_succ_of_lt (fresh r member), once, ?_, ?_, ?_, ?_, ?_, ?_⟩
  · intro r (member : r ∈ s.log)
    have old : r ≠ s.made := Nat.ne_of_lt (fresh r member)
    simpa [old] using closed r member
  · intro fq (made : fq < s.made + 1) some_
    by_cases same : fq = s.made
    · exact Or.inr (by simp [same, Place.Open])
    · have was := duty fq (by omega) (by simpa [same] using some_)
      exact was.imp_right fun now => by simpa [same] using now
  · intro fq member r named
    obtain ⟨old, named⟩ := names fq (fresh fq member) r named
    simpa [old] using behind fq member r named
  · exact fun fq is => nomatch idle.symm.trans is
  · intro fq q is r named now
    obtain ⟨new, is⟩ : fq ≠ s.made ∧ s.place fq = .waiting q := by grind
    obtain ⟨old, named⟩ := names fq (waits fq q is) r named
    exact waiting fq q is r named (by simpa [old] using now)
  · exact order.imp_of_mem fun member _ not named => not (names _ (fresh _ member) _ named).2

theorem recv (past : s.Past) (placed : s.Placed) (idle : s.eproc = .idle) (tag : UInt16) (oldtag : Option UInt16)
    (refused : Bool) : (s.recv tag oldtag refused).Past := by
  have next := past.registered placed idle tag oldtag
  unfold Flush.recv
  dsimp only
  split
  · exact next.moved (fun _ now => now) (fun _ _ now => now) (fun _ is => by contradiction) (fun _ _ is => Or.inl is)
  · rename_i noOld
    have none : oldtag = none := by simpa using noOld
    split
    · exact next.answered (q := s.made) (Nat.lt_succ_self _) (by simp [Place.Open]) (by grind) (by simp [Place.Open])
        (by grind) (by grind [Function.update_apply]) (fun _ is => is) (by grind)
    · unfold Flush.enqueue
      dsimp only
      split_ifs <;> exact next.moved (by grind) (by grind [Function.update_apply]) (fun _ is => Or.inl is) (by grind)

end Past

theorem recv_fsl (tag : UInt16) (oldtag : Option UInt16) (refused : Bool) :
    (s.recv tag oldtag refused).fsl = s.fsl := by
  unfold recv enqueue
  dsimp only
  split_ifs <;> rfl

theorem flushQueue_fsl : (s.flushQueue fq).fsl = s.fsl := by
  unfold flushQueue
  split <;> rfl

theorem flushWork_fsl (live : ∀ q, s.named fq s.work = some q → s.place q ≠ .finished) :
    (s.flushWork fq).fsl = s.fsl := by
  unfold flushWork
  split
  · rename_i q found
    rw [if_neg (live q found)]
    rfl
  · rfl

theorem drain_fsl : (s.drain q).fsl = s.fsl := by
  unfold drain
  split <;> rfl

/-- What holds of an export in a run, and that `fs->l` is held only in the sections under it. -/
structure Inv (s : Flush) : Prop where
  placed : s.Placed
  past : s.Past
  unlocked : s.fsl = false

theorem Inv.init : Flush.init.Inv := by
  refine ⟨?_, ?_, rfl⟩
  · constructor <;> simp [Flush.init, Place.Held, EProc.Has]
  · constructor <;> simp [Flush.init]

theorem Inv.exec {s s' : Flush} {a : FAct} (inv : s.Inv) (findable : Findable a s) (ran : a.exec s = some s') :
    s'.Inv := by
  obtain ⟨placed, past, unlocked⟩ := inv
  cases a with
  | recv tag oldtag refused =>
    simp only [FAct.exec, Option.ite_none_right_eq_some, Option.some.injEq] at ran
    obtain ⟨idle, rfl⟩ := ran
    exact ⟨placed.recv idle tag oldtag refused, past.recv placed idle tag oldtag refused, by rw [recv_fsl, unlocked]⟩
  | flushQueue =>
    simp only [FAct.exec] at ran
    split at ran
    · rename_i fq at_
      cases ran
      exact ⟨placed.flushQueue at_, past.flushQueue placed (findable fq at_), by rw [flushQueue_fsl, unlocked]⟩
    · contradiction
  | flushWork =>
    simp only [FAct.exec] at ran
    split at ran
    · rename_i fq at_ _
      cases ran
      obtain ⟨alone, live⟩ := findable fq at_
      have here := (placed.received fq).mpr (Or.inr (Or.inl at_))
      exact ⟨placed.flushWork at_, past.flushWork alone live here, by rw [flushWork_fsl live, unlocked]⟩
    · contradiction
  | rflush =>
    simp only [FAct.exec] at ran
    split at ran
    · rename_i fq at_
      cases ran
      exact ⟨placed.rflush at_, past.rflush placed at_, unlocked⟩
    · contradiction
  | take =>
    simp only [FAct.exec] at ran
    split at ran
    · rename_i q rest first _
      cases ran
      exact ⟨placed.take first, past.take placed first, unlocked⟩
    · contradiction
  | fcall q err =>
    simp only [FAct.exec, Option.ite_none_right_eq_some] at ran
    obtain ⟨here, ran⟩ := ran
    split_ifs at ran with answers
    · cases ran
      exact ⟨placed.replying here, past.replying here, unlocked⟩
    · cases ran
      exact ⟨placed.drain (Or.inr ⟨here, fun none => answers (Or.inl none)⟩), past.drain placed (Or.inr here),
        by rw [drain_fsl, unlocked]⟩
  | reply q =>
    simp only [FAct.exec, Option.ite_none_right_eq_some, Option.some.injEq] at ran
    obtain ⟨here, rfl⟩ := ran
    exact ⟨placed.reply here, past.answered_plain placed here (by simp [Place.Open]), unlocked⟩
  | drain q =>
    simp only [FAct.exec, Option.ite_none_right_eq_some, Option.some.injEq] at ran
    obtain ⟨here, rfl⟩ := ran
    exact ⟨placed.drain (Or.inl here), past.drain placed (Or.inl here), by rw [drain_fsl, unlocked]⟩
  | rflushed q =>
    simp only [FAct.exec] at ran
    split at ran
    · rename_i fq here
      cases ran
      exact ⟨placed.rflushed here, past.rflushed placed here, unlocked⟩
    · contradiction
  | unlink q =>
    simp only [FAct.exec, Option.ite_none_right_eq_some, Option.some.injEq] at ran
    obtain ⟨⟨here, _⟩, rfl⟩ := ran
    exact ⟨placed.unlink here, past.unlink here, unlocked⟩

theorem Inv.ok (inv : s.Inv) : s.Ok := by
  obtain ⟨placed, past, unlocked⟩ := inv
  refine ⟨past.once, ?_, ?_, unlocked⟩
  · intro idle done fq made some_
    refine (past.duty fq made some_).resolve_right fun now => ?_
    have off : ∀ q, ¬(s.place q).Held := fun q held => by simpa [done] using (placed.work q).mpr held
    have notIn : ¬s.eproc.Has fq := by simp [idle, EProc.Has]
    cases is : s.place fq with
    | received => exact notIn ((placed.received fq).mp is)
    | queued => simp [placed.plain fq (Or.inl is)] at some_
    | running => exact off fq (by rw [is]; trivial)
    | replying => exact off fq (by rw [is]; trivial)
    | waiting q =>
      obtain member | flushing := (placed.waiting fq q).mp is
      · exact off q (placed.flushHeld q (List.ne_nil_of_mem member)).1
      · exact off q (by rw [flushing]; trivial)
    | _ => simp [is, Place.Open] at now
  · intro before fq after is r names member
    have order := past.order
    rw [is, List.pairwise_append, List.pairwise_cons] at order
    exact order.2.1.1 r member names

/-- In every run in which each flush finds its request so, requests and flushes are answered in order. -/
theorem flush_ok (run : Lib.Run FAct.exec Findable init s) : s.Ok :=
  (run.invariant Inv Inv.init fun inv findable ran => inv.exec findable ran).ok

/-- A request is flushed while its fcall goes on. -/
theorem flush_ok_flushed : ∃ s : Flush, s.log = [0, 1] ∧ s.Ok := by
  have first : ∀ {s : Flush} {found}, (∀ r, s.Names 1 r → r < 1) → found = some 0 → s.Alone 1 found :=
    fun only is r names _ => by rw [is, Nat.lt_one_iff.mp (only r names)]
  have run₁ : Lib.Run FAct.exec Findable init init := Lib.Run.start
  have run₂ := run₁.step (a := FAct.recv 1 none false) trivial rfl
  have run₃ := run₂.step (a := FAct.take) trivial rfl
  have run₄ := run₃.step (a := FAct.recv 2 (some 1) false) trivial rfl
  have run₅ := run₄.step (a := FAct.flushQueue) (fun _ _ found => nomatch found) rfl
  have run₆ := run₅.step (a := FAct.flushWork) (by
    rintro _ ⟨⟩
    exact ⟨first (fun _ names => names.1) rfl, by rintro _ ⟨⟩; decide⟩) rfl
  have run₇ := run₆.step (a := FAct.fcall 0 false) trivial rfl
  have run₈ := run₇.step (a := FAct.reply 0) trivial rfl
  have run₉ := run₈.step (a := FAct.drain 0) trivial rfl
  have run₁₀ := run₉.step (a := FAct.rflushed 0) trivial rfl
  exact ⟨_, rfl, flush_ok run₁₀⟩

/-- A `Tflush` for a request that has been answered and is not yet unlinked. -/
def late : List FAct :=
  [.recv 1 none false, .take, .fcall 0 false, .reply 0, .drain 0, .recv 2 (some 1) false, .flushQueue, .flushWork]

/-- After it no section under `fs->l` is entered any more. -/
theorem flush_locks : ∃ s, Lib.Run FAct.exec (fun _ _ => True) init s ∧ s.fsl ∧ ¬s.Ok := by
  have ran : ∃ s, Lib.Run.steps FAct.exec late init = some s ∧ s.fsl := ⟨_, rfl, rfl⟩
  obtain ⟨s, ran, locked⟩ := ran
  refine ⟨s, Lib.Run.of_steps ran, locked, fun ok => ?_⟩
  rw [ok.unlocked] at locked
  contradiction

end Flush

end Inferno.Export
