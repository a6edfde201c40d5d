import Inferno.Dis.Handler

namespace Inferno.Dis

/-- `discon` keeps every constant of a written entry below `2 ^ 29`. -/
structure Exc.Bounded (e : Exc) : Prop where
  offset : e.offset < 2 ^ 29
  pc1 : e.pc1 < 2 ^ 29
  pc2 : e.pc2 < 2 ^ 29
  labs : ∀ lab ∈ e.labs, lab.pc < 2 ^ 29
  iwild : ∀ pc, e.iwild = some pc → pc < 2 ^ 29

theorem lt_of_discon_nat {v : Nat} {bytes : List UInt8} (written : discon v = some bytes) : v < 2 ^ 29 := by
  have upper := lt_of_discon written
  omega

theorem lab_lt_of_disexcLabs {labs : List ExLabel} {bytes : List UInt8}
    (written : disexcLabs labs = some bytes) : ∀ lab ∈ labs, lab.pc < 2 ^ 29 := by
  induction labs generalizing bytes with
  | nil => exact fun lab member => nomatch member
  | cons head labs ih =>
    simp only [disexcLabs, Option.bind_eq_bind, Option.bind_eq_some_iff] at written
    obtain ⟨pc, atPc, more, atMore, _⟩ := written
    intro lab member
    rcases List.mem_cons.mp member with rfl | later
    · exact lt_of_discon_nat atPc
    · exact ih atMore lab later

theorem bounded_of_disexcEntry {e : Exc} {bytes : List UInt8} (written : disexcEntry e = some bytes) :
    e.Bounded := by
  simp only [disexcEntry, Option.bind_eq_bind, Option.bind_eq_some_iff] at written
  obtain ⟨offset, atOffset, pc1, atPc1, pc2, atPc2, desc, atDesc, n, atN, labs, atLabs, wild, atWild, _⟩ :=
    written
  refine ⟨lt_of_discon_nat atOffset, lt_of_discon_nat atPc1, lt_of_discon_nat atPc2,
    lab_lt_of_disexcLabs atLabs, ?_⟩
  intro pc some
  rw [some] at atWild
  exact lt_of_discon_nat atWild

theorem bounded_of_disexcEntries {es : List Exc} {bytes : List UInt8}
    (written : disexcEntries es = some bytes) : ∀ e ∈ es, e.Bounded := by
  induction es generalizing bytes with
  | nil => exact fun e member => nomatch member
  | cons head es ih =>
    simp only [disexcEntries, Option.bind_eq_bind, Option.bind_eq_some_iff] at written
    obtain ⟨entry, atEntry, more, atMore, _⟩ := written
    intro e member
    rcases List.mem_cons.mp member with rfl | later
    · exact bounded_of_disexcEntry atEntry
    · exact ih atMore e later

theorem Module.bounded (m : Module) : ∀ e ∈ m.excs.filter Exc.reach, e.Bounded := by
  have written := m.written
  simp only [disexc, Option.bind_eq_bind, Option.bind_eq_some_iff] at written
  obtain ⟨n, _, entries, atEntries, _⟩ := written
  exact bounded_of_disexcEntries atEntries

/-- Counts that fit, in every table of a module and in every module a frame
returns to. -/
def Module.Fits (m : Module) : Prop := ∀ e ∈ m.excs, e.Fits
def Reg.Fits (r : Reg) : Prop := r.M.Fits ∧ ∀ f ∈ r.FP, ∀ m, f.mr = some m → m.Fits

theorem Module.htab_of_fits {m : Module} (fits : m.Fits) :
    m.htab = if m.excs = [] then none else some ((m.excs.filter Exc.reach).map Exc.handler) := by
  have parsed := parseExcepts_disexc fits m.written []
  rw [List.append_nil] at parsed
  rw [Module.htab, parsed]
  rfl

theorem intptr_of_lt {v : Nat} (small : v < 2 ^ 29) : intptr v = v := by
  rw [intptr, Int.bmod_eq_of_le] <;> omega

/-- The labels left when `ne` has run out are the string ones. -/
theorem etabSearch_strings {labs : List ExLabel} {ne : Int} (estr : List UInt8) (str : Bool)
    (small : ∀ lab ∈ labs, lab.pc < 2 ^ 29) (strings : ∀ lab ∈ labs, lab.exc = false) (out : ne ≤ 0) :
    etabSearch estr str (labs.map fun lab => ⟨cname lab.name, lab.pc⟩) ne =
      (labs.find? fun lab => lab.exc != str && ematch (cname lab.name) estr).map fun lab => (lab.pc : Int) := by
  induction labs generalizing ne with
  | nil => rfl
  | cons lab labs ih =>
    have kind := strings lab List.mem_cons_self
    have pc := intptr_of_lt (small lab List.mem_cons_self)
    have rest := ih (fun l member => small l (List.mem_cons_of_mem _ member))
      (fun l member => strings l (List.mem_cons_of_mem _ member)) (show ne - 1 ≤ 0 by omega)
    rw [List.map_cons, etabSearch, List.find?_cons, rest, pc]
    cases str <;> cases ematch (cname lab.name) estr <;> simp [kind, out]

theorem etabSearch_sorted {labs : List ExLabel} (estr : List UInt8) (str : Bool)
    (small : ∀ lab ∈ labs, lab.pc < 2 ^ 29) (sorted : labs.Pairwise fun a b => b.exc = true → a.exc = true) :
    etabSearch estr str (labs.map fun lab => ⟨cname lab.name, lab.pc⟩) (labs.countP (·.exc) : Nat) =
      (labs.find? fun lab => lab.exc != str && ematch (cname lab.name) estr).map fun lab => (lab.pc : Int) := by
  induction labs with
  | nil => rfl
  | cons lab labs ih =>
    have smallRest : ∀ l ∈ labs, l.pc < 2 ^ 29 := fun l member => small l (List.mem_cons_of_mem _ member)
    obtain ⟨headFirst, sortedRest⟩ := List.pairwise_cons.mp sorted
    cases kind : lab.exc with
    | false =>
      have strings : ∀ l ∈ lab :: labs, l.exc = false := by
        intro l member
        rcases List.mem_cons.mp member with rfl | later
        · exact kind
        · by_contra typed
          simp [headFirst l later (by simpa using typed)] at kind
      have none : (lab :: labs).countP (·.exc) = 0 := by
        rw [List.countP_eq_zero]
        intro l member
        simp [strings l member]
      rw [none]
      exact etabSearch_strings estr str small strings (by omega)
    | true =>
      have pc := intptr_of_lt (small lab List.mem_cons_self)
      have count : (((lab :: labs).countP (·.exc) : Nat) : Int) - 1 = (labs.countP (·.exc) : Nat) := by
        simp [kind]
      have typed : (str && decide ((((lab :: labs).countP (·.exc) : Nat) : Int) ≤ 0) ||
          !str && decide (0 < (((lab :: labs).countP (·.exc) : Nat) : Int))) = !str := by
        rw [decide_eq_false (by omega), decide_eq_true (by omega)]
        simp
      rw [List.map_cons, etabSearch, typed, List.find?_cons, count, ih smallRest sortedRest, pc, kind]
      cases str <;> cases ematch (cname lab.name) estr <;> rfl

theorem inRange_iff_uintptr {e : Exc} {pc : Int} (bounded : e.Bounded) (narrow : intptr pc = pc) :
    e.InRange pc ↔ ¬ (uintptr pc < e.handler.pc1 ∨ e.handler.pc2 ≤ uintptr pc) := by
  have small := bounded.pc2
  have range := Int.bmod_lt (x := pc) (m := 2 ^ 64) (by decide)
  have lower := Int.le_bmod (x := pc) (m := 2 ^ 64) (by decide)
  simp only [intptr] at narrow
  rw [narrow] at range lower
  simp only [Exc.InRange, Exc.handler, uintptr]
  omega

/-- The pc of the terminating entry once it is an `intptr`. A missing wildcard
is -1 there, and no value equals `NOPC`. -/
theorem intptr_wild {e : Exc} (bounded : e.Bounded) :
    intptr e.handler.wild = e.iwild.elim (-1) Int.ofNat ∧ intptr e.handler.wild ≠ nopc := by
  simp only [Exc.handler]
  cases wild : e.iwild with
  | none => decide
  | some pc =>
    have small := bounded.iwild pc wild
    have value := intptr_of_lt small
    simp only [Option.elim_some, Int.ofNat_eq_natCast, value, nopc, true_and]
    omega

/-- What the loop over `htab` finds: the first entry in range, whether or not
it has an arm. Without one `newpc` is -1, which is not `NOPC`. -/
theorem htabSearch_eq {es : List Exc} {pc : Int} (estr : List UInt8) (exval : Option Exval)
    (bounded : ∀ e ∈ es, e.Bounded) (fits : ∀ e ∈ es, e.Fits) (narrow : intptr pc = pc) :
    htabSearch estr (isStr exval) pc (es.map Exc.handler) =
      (es.find? fun e => e.InRange pc).map fun e =>
        ((e.offset : Int), (e.arm estr exval).elim (-1) Int.ofNat) := by
  induction es with
  | nil => rfl
  | cons e es ih =>
    have small := bounded e List.mem_cons_self
    have rest := ih (fun d member => bounded d (List.mem_cons_of_mem _ member))
      (fun d member => fits d (List.mem_cons_of_mem _ member))
    have ne : (e.ne : Int).bmod (2 ^ 32) = e.ne := by
      have := (fits e List.mem_cons_self).2
      rw [Int.bmod_eq_of_le] <;> omega
    have labels := etabSearch_sorted estr (isStr exval) small.labs e.sorted
    rw [List.map_cons, htabSearch, List.find?_cons]
    by_cases inside : e.InRange pc
    · rw [if_neg ((inRange_iff_uintptr small narrow).mp inside)]
      obtain ⟨wild, differs⟩ := intptr_wild small
      have offset : intptr e.handler.eoff = e.offset := intptr_of_lt small.offset
      have labelled : etabSearch estr (isStr exval) e.handler.etab (e.handler.ne.bmod (2 ^ 32)) =
          (e.labs.find? fun lab => lab.exc != isStr exval && ematch (cname lab.name) estr).map
            fun lab => (lab.pc : Int) := (congrArg _ ne).trans labels
      rw [labelled, if_pos differs, offset, wild]
      simp only [inside, decide_true, Option.map_some, Exc.arm]
      cases e.labs.find? fun lab => lab.exc != isStr exval && ematch (cname lab.name) estr <;> rfl
    · rw [if_pos (not_not.mp fun outside => inside ((inRange_iff_uintptr small narrow).mpr outside)), rest]
      simp only [inside, decide_false]

theorem intptr_pcIn (m : Module) (pc : Int) : intptr (pcIn m pc) = pcIn m pc := Int.bmod_bmod

/-- One search of one frame, read off the entries the compiler wrote. -/
theorem frameSearch_eq {m : Module} {pc : Int} (x : Raised) (exval : Option Exval) (fits : m.Fits)
    (narrow : intptr pc = pc) :
    frameSearch x m pc exval =
      ((m.excs.filter Exc.reach).find? fun e => e.InRange pc).map fun e =>
        ((e.offset : Int), (e.arm x.estr exval).elim (-1) Int.ofNat) := by
  rw [frameSearch, m.htab_of_fits fits]
  by_cases empty : m.excs = []
  · simp [empty]
  · rw [if_neg empty, Option.bind_some]
    exact htabSearch_eq x.estr exval m.bounded (fun e member => fits e (List.mem_filter.mp member).1) narrow

theorem firstInRange_cons (a : Attempt) (searches : List Attempt) :
    firstInRange (a :: searches) =
      ((a.entries.find? fun e => e.InRange a.pc).map (Prod.mk a)).or (firstInRange searches) := by
  rw [firstInRange, List.findSome?_cons]
  cases a.entries.find? fun e => e.InRange a.pc <;> rfl

/-- What the search leaves for an attempt and the entry it stops at. -/
def Attempt.found (x : Raised) (a : Attempt) (e : Exc) : Found :=
  ⟨a.fp, e.offset, (e.arm x.estr a.exval).elim (-1) Int.ofNat, a.exval⟩

theorem lookup_eq {x : Raised} {rfp : Nat} {m : Module} {pc : Int} {exval : Option Exval} {fp : List Frame}
    (fits : m.Fits) (linked : ∀ f ∈ fp, ∀ m, f.mr = some m → m.Fits) (narrow : intptr pc = pc) :
    lookup x rfp m pc exval fp =
      (firstInRange (attempts rfp m pc exval fp)).map fun ae => ae.1.found x ae.2 := by
  induction fp generalizing m pc exval with
  | nil => rfl
  | cons f fp ih =>
    have outerFits : (f.mr.getD m).Fits := by
      cases link : f.mr with
      | none => exact fits
      | some caller => exact linked f List.mem_cons_self caller link
    have outerLinked : ∀ g ∈ fp, ∀ m, g.mr = some m → m.Fits :=
      fun g member => linked g (List.mem_cons_of_mem _ member)
    rw [lookup, attempts, frameSearch_eq x exval fits narrow]
    cases retry : !isStr exval && decide ((f :: fp).length ≠ rfp) with
    | false =>
      simp only [Bool.false_eq_true, if_false]
      rw [firstInRange_cons, Attempt.entries]
      cases (m.excs.filter Exc.reach).find? fun e => e.InRange pc with
      | some e => rfl
      | none => exact ih outerFits outerLinked (intptr_pcIn _ f.lr)
    | true =>
      simp only [if_true]
      rw [firstInRange_cons, firstInRange_cons, Attempt.entries, Attempt.entries,
        frameSearch_eq x (asString exval) fits narrow]
      cases (m.excs.filter Exc.reach).find? fun e => e.InRange pc with
      | some e => rfl
      | none => exact ih outerFits outerLinked (intptr_pcIn _ f.lr)

/-- Popping frames down to where an attempt was made restores its module. -/
theorem unwind_attempt {rfp : Nat} {m : Module} {pc : Int} {exval : Option Exval} {fp : List Frame}
    {a : Attempt} (member : a ∈ attempts rfp m pc exval fp) :
    a.fp.length ≤ fp.length ∧ unwind a.fp.length m fp = (a.m, a.fp) := by
  induction fp generalizing m pc exval with
  | nil => nomatch member
  | cons f fp ih =>
    have here : a.m = m → a.fp = f :: fp → a.fp.length ≤ (f :: fp).length ∧
        unwind a.fp.length m (f :: fp) = (a.m, a.fp) := by
      intro sameM sameFp
      rw [sameM, sameFp, unwind, if_pos rfl]
      exact ⟨le_rfl, rfl⟩
    have outwards : a.fp.length ≤ fp.length ∧ unwind a.fp.length (f.mr.getD m) fp = (a.m, a.fp) →
        a.fp.length ≤ (f :: fp).length ∧ unwind a.fp.length m (f :: fp) = (a.m, a.fp) := by
      rintro ⟨shorter, same⟩
      rw [unwind, if_neg (by rw [List.length_cons]; omega)]
      exact ⟨by rw [List.length_cons]; omega, same⟩
    rw [attempts] at member
    split_ifs at member
    · rcases List.mem_cons.mp member with rfl | later
      · exact here rfl rfl
      · rcases List.mem_cons.mp later with rfl | last
        · exact here rfl rfl
        · exact outwards (ih last)
    · rcases List.mem_cons.mp member with rfl | later
      · exact here rfl rfl
      · exact outwards (ih later)

theorem firstInRange_some {searches : List Attempt} {a : Attempt} {e : Exc}
    (first : firstInRange searches = some (a, e)) :
    e ∈ a.entries ∧ e.InRange a.pc ∧ ∃ before after, searches = before ++ a :: after ∧
      ∀ b ∈ before, ∀ d ∈ b.entries, ¬ d.InRange b.pc := by
  rw [firstInRange, List.findSome?_eq_some_iff] at first
  obtain ⟨before, at_, after, split, here, earlier⟩ := first
  obtain ⟨entry, found, pair⟩ := Option.map_eq_some_iff.mp here
  obtain ⟨rfl, rfl⟩ := Prod.mk.inj pair
  refine ⟨List.mem_of_find?_eq_some found, by simpa using List.find?_some found, before, after, split, ?_⟩
  intro b inBefore d inEntries
  have missed := List.find?_eq_none.mp (Option.map_eq_none_iff.mp (earlier b inBefore)) d inEntries
  simpa using missed

theorem firstInRange_none {searches : List Attempt} (none : firstInRange searches = none) :
    ∀ b ∈ searches, ∀ d ∈ b.entries, ¬ d.InRange b.pc := by
  intro b member d inEntries
  have missed := List.find?_eq_none.mp
    (Option.map_eq_none_iff.mp (List.findSome?_eq_none_iff.mp none b member)) d inEntries
  simpa using missed

/-- `handler` stops at the first entry in range and takes its arm, or -1. -/
theorem handler_eq {r : Reg} (x : Raised) (fits : r.Fits) :
    handler r x = (firstInRange (r.attempts x)).map fun ae =>
      ⟨ae.1.m, (ae.2.arm x.estr ae.1.exval).elim (-1) Int.ofNat, ae.1.fp, ae.2.offset,
        ae.1.exval.getD (.string x.estr)⟩ := by
  rw [handler, if_neg x.nonempty, lookup_eq fits.1 fits.2 (intptr_pcIn r.M r.PC)]
  cases first : firstInRange (r.attempts x) with
  | none =>
    rw [Reg.attempts] at first
    rw [first]
    rfl
  | some ae =>
    obtain ⟨a, e⟩ := ae
    obtain ⟨_, _, before, after, split, _⟩ := firstInRange_some first
    have member : a ∈ r.attempts x := by simp [split]
    have popped := (unwind_attempt member).2
    rw [Reg.attempts] at first
    rw [first]
    simp only [Option.map_some, Option.bind_eq_bind, Option.bind_some, Attempt.found, popped, Option.pure_def]

/-- Exception dispatch is right exactly when the first entry in range, in the
order of the search, has an arm for the exception. An entry that covers the pc
but has neither a matching qualifier nor a wildcard takes the exception all the
same: its -1 is compared with `NOPC` as a 64-bit value. -/
theorem handler_dispatches_iff (r : Reg) (x : Raised) (fits : r.Fits) :
    Dispatches r x ↔
      ∀ a e, firstInRange (r.attempts x) = some (a, e) → e.arm x.estr a.exval ≠ none := by
  rw [Dispatches, handler_eq x fits]
  cases first : firstInRange (r.attempts x) with
  | none =>
    refine ⟨fun _ a e other => (nomatch other), fun _ a member caught => ?_⟩
    obtain ⟨e, inEntries, inside, _⟩ := caught
    exact firstInRange_none first a member e inEntries inside
  | some ae =>
    obtain ⟨a, e⟩ := ae
    obtain ⟨inEntries, inside, before, after, split, earlier⟩ := firstInRange_some first
    constructor
    · rintro ⟨_, b, _, _, _, d, _, _, pc, _, _, _, resumed, _⟩ a' e' same noArm
      obtain ⟨rfl, rfl⟩ := Prod.mk.inj (Option.some.inj same)
      simp only [noArm, Option.elim_none] at resumed
      omega
    · intro armed
      obtain ⟨pc, arm⟩ := Option.ne_none_iff_exists'.mp (armed a e rfl)
      refine ⟨before, a, after, split, ?_, e, inEntries, inside, pc, arm, rfl, rfl, ?_, rfl, rfl⟩
      · rintro b inBefore ⟨d, inB, covers, _⟩
        exact earlier b inBefore d inB covers
      · simp only [arm, Option.elim_some, Int.ofNat_eq_natCast]

/-- An entry over `[1, 9)` whose only arm is for the string "x", at pc 20. -/
def onlyX : Exc := ⟨true, true, 40, 1, 9, none, [⟨false, [120], 20⟩], none, by simp⟩

def onlyXModule : Module := ⟨[onlyX], 0, [1, 40, 1, 9, 127, 1, 120, 0, 20, 127, 0], by decide⟩

/-- "x" raised inside the range is caught at pc 20. -/
theorem handler_dispatches_matching :
    Reg.Fits ⟨onlyXModule, 5, [⟨0, none⟩]⟩ ∧
      Dispatches ⟨onlyXModule, 5, [⟨0, none⟩]⟩ ⟨[120], none, by decide⟩ := by
  have fits : Reg.Fits ⟨onlyXModule, 5, [⟨0, none⟩]⟩ := by
    simp [Reg.Fits, Module.Fits, onlyXModule, Exc.Fits, Exc.ne, onlyX]
  refine ⟨fits, (handler_dispatches_iff _ _ fits).mpr fun a e first => ?_⟩
  cases first
  decide

/-- "y" raised there resumes the raising frame at pc -1, though no arm of the
entry takes it. -/
theorem handler_catches_without_arm :
    ¬ Dispatches ⟨onlyXModule, 5, [⟨0, none⟩]⟩ ⟨[121], none, by decide⟩ := by
  rintro ⟨_, _, _, _, _, _, _, _, pc, _, _, _, resumed, _⟩
  have minus : (-1 : Int) = pc := resumed
  omega

end Inferno.Dis
