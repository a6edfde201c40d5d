import Inferno.Emu.GroupRun

namespace Inferno.Emu

open Lib

namespace Groups

variable {s s' s₀ : Groups} {p q g h : Ref} {n m : Option Ref}

theorem Inv.flags {kill : Ref → Option String} {pflags gflags : Ref → UInt32} (inv : s.Inv) :
    Inv { s with kill := kill, pflags := pflags, gflags := gflags } := by
  obtain ⟨ms, ks, core, full⟩ := inv
  exact ⟨ms, ks, core.flags, full⟩

theorem mkprog_new {n : Ref} {ms ks : Ref → List Ref} (core : s.Core none ms ks) (used : s.used h = true) :
    (s.mkprog n).id h ≠ (s.mkprog n).pid n := by
  have most := core.ids h used
  have pid : (s.mkprog n).pid n = s.pidnum + 1 := set_self _ _ _
  have id : (s.mkprog n).id h = s.id h := rfl
  omega

/-- The first `Prog` founds a group of its own. -/
theorem newprog₀_inv (inv : s.Inv) (dead : ∀ n' ∈ n, s.live n' = false) (fresh : ∀ g ∈ m, s.used g = false)
    (ran : s.newprog₀ n m = some s') : s'.Inv := by
  obtain ⟨ms, ks, core, full⟩ := inv
  unfold newprog₀ at ran
  split at ran
  · rename_i n g
    split at ran
    · have unused := fresh g rfl
      have core₁ := mkprog_core core (dead n rfl)
      have core₂ : ((s.mkprog n).mkgrp n g).Core (some n) ms ks := mkgrp_core core₁ unused
      have group : (s.mkprog n).group n = none := set_self _ _ _
      have left : ((s.mkprog n).mkgrp n g).delgrp n = some ((s.mkprog n).mkgrp n g, none) := by
        have group : ((s.mkprog n).mkgrp n g).group n = none := group
        simp only [delgrp, group]
      have other {h : Ref} (used : s.used h = true) : h ≠ g := by
        rintro rfl
        cases unused.symm.trans used
      obtain ⟨ks', found, whole⟩ := found_core core₂ full (set_self _ _ _) unused (set_self _ _ _)
        (fun h used => by
          have new := mkprog_new (n := n) core used
          simp only [mkgrp, set_ne (other used)]
          exact new)
        (fun q (same : (none : Option Ref) = some q) => (by cases same)) (set_self _ _ _) (set_self _ _ _) (set_self _ _ _)
      have went : (s.mkprog n).newgrp n (some g) = some (((s.mkprog n).mkgrp n g).found n g none) := by
        unfold newgrp
        rw [if_neg]
        · simp only [left, Option.bind_eq_bind, Option.bind_some, Option.pure_def]
        · rintro ⟨h, here, _⟩
          cases group.symm.trans here
      cases Option.some.inj (ran.symm.trans went)
      exact ⟨_, ks', found, whole⟩
    · cases ran
  · cases ran

theorem condemn_eq (s : Groups) (p : Ref) : ∃ flags, s.condemn p = { s with pflags := flags } := by
  rw [condemn]
  split
  · exact ⟨s.pflags, rfl⟩
  · exact ⟨_, rfl⟩

theorem newprog_inv (inv : s.Inv) (live : s.live p = true) (dead : ∀ n' ∈ n, s.live n' = false)
    (ran : s.newprog p n = some s') : s'.Inv := by
  obtain ⟨flags, step⟩ := condemn_eq s p
  unfold newprog at ran
  rw [step] at ran
  obtain ⟨ms, ks, core, full⟩ := (inv.flags : Inv { s with pflags := flags })
  dsimp only at ran
  split at ran
  · cases Option.some.inj ran
    exact ⟨ms, ks, core, full⟩
  · split at ran
    · cases Option.some.inj ran
      exact ⟨ms, ks, core, full⟩
    · cases n with
      | none =>
        cases Option.some.inj ran
        exact ⟨ms, ks, core, full⟩
      | some n =>
        dsimp only at ran
        split at ran
        · have gone := dead n rfl
          have other : p ≠ n := by
            rintro rfl
            nomatch gone.symm.trans live
          obtain ⟨s₁, ms', went, core', full'⟩ := addgrp_core (mkprog_core core gone) full (set_self _ _ _) (set_self _ _ _)
            (fun h used => mkprog_new core used) ((set_ne other _ _).trans live) other
          rw [went] at ran
          cases Option.some.inj ran
          exact ⟨ms', ks, core'.flags, full'⟩
        · nomatch ran

/-- A `Prog` that is in no group goes away. -/
theorem Core.free {ms ks : Ref → List Ref} (core : s.Core (some p) ms ks) :
    Core { s with live := set s.live p false } none ms ks := by
  have alone := core.alone p rfl
  have was {q : Ref} : set s.live p false q = true ↔ s.live q = true ∧ q ≠ p := by
    rw [set_apply]
    by_cases same : q = p
    · simp [same]
    · simp [same]
  refine ⟨core.list, fun h q used => ?_, fun q live _ => ?_, fun q none => (nomatch none), core.kids, core.kid, core.parent,
    fun q live => core.pids q (was.mp live).1, fun q r live live' => core.pinj q r (was.mp live).1 (was.mp live').1, core.ids,
    core.idinj, core.least, fun h q used live _ => ?_⟩
  · rw [core.member h q used]
    dsimp only
    rw [was]
    grind
  · exact core.grouped q (was.mp live).1 fun same => (was.mp live).2 (Option.some.inj same)
  · exact core.led h q used (was.mp live).1 fun same => (was.mp live).2 (Option.some.inj same)

/-- `delprog` ends. If it deletes the last `Prog` of a group, the subgroups are with the parent of the group. -/
theorem delprog_spec (inv : s.Inv) (live : s.live p = true) :
    ∃ s', s.delprog p = some s' ∧ s'.Inv ∧
      ∀ g, s.group p = some g → s.head g = some p → s.tail g = some p → s'.used g = false ∧
        (∀ q, s.parent g = some q → s'.used q = true) ∧
        ∀ k, s.used k = true → s.parent k = some g → s'.used k = true ∧ s'.parent k = s.parent g := by
  obtain ⟨ms, ks, core, full⟩ := inv
  obtain ⟨s₁, pg, ms', ks', ran, core', full', left⟩ := delgrp_spec core full live
  refine ⟨{ s₁ with live := set s₁.live p false }, ?_, ⟨ms', ks', core'.free, full'⟩, fun g group first last => ?_⟩
  · simp only [delprog, ran, Option.bind_eq_bind, Option.bind_some, Option.pure_def]
  · obtain ⟨gone, above, moved⟩ := left.moved g group first last
    exact ⟨gone, fun q parent => (left.above q (above.trans parent)).1, moved⟩

end Groups

/-- What is done to the groups. `flags` is what other code does to `kill` and to flags. -/
inductive GroupAct
  | newprog₀ (n g : Option Ref)
  | newprog (p : Ref) (n : Option Ref)
  | newgrp (p : Ref) (g : Option Ref)
  | delprog (p : Ref)
  | flags (kill : Ref → Option String) (pflags gflags : Ref → UInt32)

def GroupAct.exec (a : GroupAct) (s : Groups) : Option Groups :=
  match a with
  | newprog₀ n g => s.newprog₀ n g
  | newprog p n => s.newprog p n
  | newgrp p g => s.newgrp p g
  | delprog p => s.delprog p
  | flags kill pflags gflags => some { s with kill := kill, pflags := pflags, gflags := gflags }

/-- `malloc` returns what is free, and callers name a live `Prog`. -/
def GroupAct.Valid (a : GroupAct) (s : Groups) : Prop :=
  match a with
  | newprog₀ n g => (∀ n' ∈ n, s.live n' = false) ∧ ∀ g' ∈ g, s.used g' = false
  | newprog p n => s.live p = true ∧ ∀ n' ∈ n, s.live n' = false
  | newgrp p g => s.live p = true ∧ ∀ g' ∈ g, s.used g' = false
  | delprog p => s.live p = true
  | flags _ _ _ => True

namespace Groups

theorem exec_inv {a : GroupAct} {s s' : Groups} (inv : s.Inv) (valid : a.Valid s) (ran : a.exec s = some s') : s'.Inv := by
  cases a with
  | newprog₀ n g => exact newprog₀_inv inv valid.1 valid.2 ran
  | newprog p n => exact newprog_inv inv valid.1 valid.2 ran
  | newgrp p g =>
    obtain ⟨s₁, went, inv'⟩ := newgrp_inv inv valid.1 valid.2
    cases Option.some.inj (ran.symm.trans went)
    exact inv'
  | delprog p =>
    obtain ⟨s₁, went, inv', _⟩ := delprog_spec inv valid
    cases Option.some.inj (ran.symm.trans went)
    exact inv'
  | flags kill pflags gflags =>
    cases Option.some.inj ran
    exact inv.flags

structure Fresh (s : Groups) : Prop where
  live : ∀ p, s.live p = false
  used : ∀ g, s.used g = false

theorem Fresh.inv {s : Groups} (fresh : s.Fresh) : s.Inv := by
  have unused {g : Ref} {P : Prop} (used : s.used g = true) : P := nomatch (fresh.used g).symm.trans used
  have dead {p : Ref} {P : Prop} (live : s.live p = true) : P := nomatch (fresh.live p).symm.trans live
  refine ⟨fun _ => [], fun _ => [], ⟨fun _ used => unused used, fun _ _ used => unused used, fun _ live _ => dead live,
    fun _ same => (nomatch same), fun _ used => unused used, fun _ _ used => unused used, fun _ _ used _ => unused used,
    fun _ live => dead live, fun _ _ live _ _ => dead live, fun _ used => unused used, fun _ _ used _ _ => unused used,
    fun _ _ used _ => unused used, fun _ _ used _ _ _ => unused used⟩, fun _ used => unused used⟩

/-- The group `a` is directly below `b`. -/
def Below (s : Groups) (a b : Ref) : Prop := s.used a = true ∧ s.parent a = some b

theorem below_id {s : Groups} {ms ks : Ref → List Ref} {a b : Ref} (core : s.Core none ms ks)
    (path : Relation.TransGen s.Below a b) : s.id b < s.id a := by
  induction path with
  | single step => exact (core.parent _ _ step.1 step.2).2
  | tail _ step ih => exact Nat.lt_trans (core.parent _ _ step.1 step.2).2 ih

/-- The leader is the live `Prog` that the group is named after. -/
theorem grpleader_iff {s : Groups} {p l : Ref} (inv : s.Inv) (live : s.live p = true) :
    s.grpleader p = some l ↔ s.live l = true ∧ ∃ g, s.group p = some g ∧ s.pid l = s.id g := by
  obtain ⟨ms, ks, core, full⟩ := inv
  obtain ⟨g, group, used⟩ := core.grouped p live (Option.some_ne_none p)
  have list := core.list g used
  constructor
  · intro leads
    cases head : s.head g with
    | none =>
      simp only [grpleader, group, head, Option.bind_eq_bind, Option.bind_some, Option.bind_none] at leads
      nomatch leads
    | some x =>
      simp only [grpleader, group, head, Option.bind_eq_bind, Option.bind_some] at leads
      split at leads
      · rename_i name
        obtain rfl : x = l := Option.some.inj leads
        have here : x ∈ ms g := List.mem_of_head? (list.fwd.head.trans head)
        exact ⟨((core.member g x used).mp here).1, g, group, name⟩
      · nomatch leads
  · rintro ⟨alive, g', group', name⟩
    cases Option.some.inj (group.symm.trans group')
    have first := core.led g l used alive (Option.some_ne_none l) name
    simp only [grpleader, group, first, name, Option.bind_eq_bind, Option.bind_some, if_true]

/-- The process groups are a forest. Every live `Prog` is once on the list of one group, which can
be followed both ways; no group is empty; the lists of subgroups agree with the parents, and no group is
above itself; a group that loses its last `Prog` leaves its subgroups to its parent, which stays; and the
leader of a group is there as long as the `Prog` it is named after lives. -/
theorem group_forest {s₀ s : Groups} (fresh : s₀.Fresh) (run : Run GroupAct.exec GroupAct.Valid s₀ s) :
    (∃ ms ks : Ref → List Ref,
      (∀ g, s.used g = true → ms g ≠ [] ∧ DList s.grpnext s.grpprev (s.head g) (s.tail g) (ms g) ∧
        (∀ p, p ∈ ms g ↔ s.live p = true ∧ s.group p = some g) ∧ Path s.sib (s.child g) (ks g) ∧
        ∀ k, k ∈ ks g ↔ s.used k = true ∧ s.parent k = some g) ∧
      ∀ p, s.live p = true → ∃ g, s.used g = true ∧ (ms g).count p = 1 ∧ ∀ h, s.used h = true → h ≠ g → p ∉ ms h) ∧
    (∀ k g, s.used k = true → s.parent k = some g → s.used g = true) ∧
    (∀ g, ¬Relation.TransGen s.Below g g) ∧
    (∀ p, s.live p = true → ∃ s', s.delprog p = some s' ∧
      ∀ g, s.group p = some g → s.head g = some p → s.tail g = some p → s'.used g = false ∧
        (∀ q, s.parent g = some q → s'.used q = true) ∧
        ∀ k, s.used k = true → s.parent k = some g → s'.used k = true ∧ s'.parent k = s.parent g) ∧
    ∀ p l, s.live p = true →
      (s.grpleader p = some l ↔ s.live l = true ∧ ∃ g, s.group p = some g ∧ s.pid l = s.id g) := by
  have inv : s.Inv := run.invariant Inv fresh.inv fun inv valid ran => exec_inv inv valid ran
  have ⟨ms, ks, core, full⟩ := inv
  refine ⟨⟨ms, ks, fun g used => ?_, fun p live => ?_⟩, fun k g used parent => (core.parent k g used parent).1,
    fun g path => Nat.lt_irrefl _ (below_id core path), fun p live => ?_, fun p l live => grpleader_iff inv live⟩
  · exact ⟨full g used, core.list g used, fun p => core.member g p used, core.kids g used, fun k => core.kid g k used⟩
  · obtain ⟨g, group, used⟩ := core.grouped p live (Option.some_ne_none p)
    have here := (core.member g p used).mpr ⟨live, group⟩
    refine ⟨g, used, List.count_eq_one_of_mem (core.list g used).fwd.nodup here, fun h there other => ?_⟩
    exact core.apart used there other here
  · obtain ⟨s', ran, _, moved⟩ := delprog_spec inv live
    exact ⟨s', ran, moved⟩

/-- No `Prog` and no group. -/
def none₀ : Groups where
  live := fun _ => false
  pid := fun _ => 0
  pflags := fun _ => 0
  kill := fun _ => none
  group := fun _ => none
  grpprev := fun _ => none
  grpnext := fun _ => none
  used := fun _ => false
  id := fun _ => 0
  gflags := fun _ => 0
  parent := fun _ => none
  child := fun _ => none
  sib := fun _ => none
  head := fun _ => none
  tail := fun _ => none
  pidnum := 0

/-- The second `Prog` has a group of its own with the group of the third below it, and goes away. -/
theorem group_forest_delprog : ∃ s, Run GroupAct.exec GroupAct.Valid none₀ s ∧
    s.live 2 = true ∧ s.group 2 = some 12 ∧ s.parent 12 = some 10 ∧ s.child 10 = some 12 ∧ s.used 11 = false ∧
    ∀ g, ¬Relation.TransGen s.Below g g := by
  have fresh : none₀.Fresh := ⟨fun _ => rfl, fun _ => rfl⟩
  have run₀ : Run GroupAct.exec GroupAct.Valid none₀ _ := Run.start
  have run₁ := run₀.step (a := GroupAct.newprog₀ (some 0) (some 10)) ⟨fun _ _ => rfl, fun _ _ => rfl⟩ rfl
  have run₂ := run₁.step (a := GroupAct.newprog 0 (some 1)) ⟨rfl, by rintro n ⟨⟩; rfl⟩ rfl
  have run₃ := run₂.step (a := GroupAct.newgrp 1 (some 11)) ⟨rfl, by rintro n ⟨⟩; rfl⟩ rfl
  have run₄ := run₃.step (a := GroupAct.newprog 1 (some 2)) ⟨rfl, by rintro n ⟨⟩; rfl⟩ rfl
  have run₅ := run₄.step (a := GroupAct.newgrp 2 (some 12)) ⟨rfl, by rintro n ⟨⟩; rfl⟩ rfl
  have run₆ := run₅.step (a := GroupAct.delprog 1) rfl rfl
  exact ⟨_, run₆, rfl, rfl, rfl, rfl, rfl, (group_forest fresh run₆).2.2.1⟩

end Groups

end Inferno.Emu
