import Inferno.Emu.GroupInv

namespace Inferno.Emu

open Lib

namespace Groups

variable {s s' : Groups} {out : Option Ref} {ms ks : Ref → List Ref} {p q g h n : Ref}

/-- The invariant does not see flags. -/
theorem Core.flags {kill : Ref → Option String} {pflags gflags : Ref → UInt32} (core : s.Core out ms ks) :
    Core { s with kill := kill, pflags := pflags, gflags := gflags } out ms ks :=
  ⟨core.list, core.member, core.grouped, core.alone, core.kids, core.kid, core.parent, core.pids, core.pinj, core.ids,
    core.idinj, core.least, core.led⟩

/-- The fields of a `Progs` that is not in the forest. -/
theorem mkgrp_core (core : s.Core out ms ks) (fresh : s.used g = false) : (s.mkgrp p g).Core out ms ks := by
  have other {h : Ref} (used : s.used h = true) : h ≠ g := by
    rintro rfl
    nomatch fresh.symm.trans used
  refine ⟨fun h used => ?_, core.member, core.grouped, core.alone, fun h used => ?_, fun h k used => ?_, fun k h used link => ?_,
    core.pids, core.pinj, fun h used => ?_, fun h k first second => ?_, fun h q used => ?_, fun h q used live ne => ?_⟩
  · simp only [mkgrp, set_ne (other used)]
    exact core.list h used
  · simp only [mkgrp, set_ne (other used)]
    exact (core.kids h used).update (fun there => other ((core.kid h g used).mp there).1 rfl) _
  · rw [core.kid h k used]
    refine and_congr_right fun there => ?_
    simp only [mkgrp, set_ne (other there)]
  · have used : s.used k = true := used
    simp only [mkgrp, set_ne (other used)] at link ⊢
    obtain ⟨there, less⟩ := core.parent k h used link
    exact ⟨there, by rw [set_ne (other there)]; exact less⟩
  · simp only [mkgrp, set_ne (other used)]
    exact core.ids h used
  · simp only [mkgrp, set_ne (other first), set_ne (other second)]
    exact core.idinj h k first second
  · simp only [mkgrp, set_ne (other used)]
    exact core.least h q used
  · simp only [mkgrp, set_ne (other used)]
    exact core.led h q used live ne

/-- The lists of `Prog` when `p` founds the group `g`, whatever becomes of the links between groups. -/
theorem Core.founded {sib child : Ref → Option Ref} {ks' : Ref → List Ref} {pg : Option Ref} (core : s.Core (some p) ms ks)
    (live : s.live p = true) (fresh : s.used g = false) (name : s.id g = s.pid p)
    (new : ∀ h, s.used h = true → s.id h ≠ s.pid p) (above : ∀ q, pg = some q → s.used q = true ∧ s.id q < s.pid p)
    (next : s.grpnext p = none) (prev : s.grpprev p = none)
    (kids : ∀ h, h = g ∨ s.used h = true → Path sib (child h) (ks' h))
    (kid : ∀ h k, h = g ∨ s.used h = true → (k ∈ ks' h ↔ (k = g ∨ s.used k = true) ∧ set s.parent g pg k = some h)) :
    Core { s with
      used := set s.used g true
      head := set s.head g (some p)
      tail := set s.tail g (some p)
      group := set s.group p (some g)
      sib := sib
      child := child
      parent := set s.parent g pg } none (set ms g [p]) ks' := by
  have other {h : Ref} (used : s.used h = true) : h ≠ g := by
    rintro rfl
    nomatch fresh.symm.trans used
  have was {h : Ref} : set s.used g true h = true ↔ h = g ∨ s.used h = true := by
    rw [set_apply]
    by_cases same : h = g
    · simp [same]
    · simp [same]
  have alone := core.alone p rfl
  have outside {h : Ref} (used : s.used h = true) : p ∉ ms h := fun here => by
    have group := ((core.member h p used).mp here).2
    nomatch alone.symm.trans group
  refine ⟨fun h there => ?_, fun h q there => ?_, fun q there _ => ?_, fun q same => (nomatch same),
    fun h there => kids h (was.mp there), fun h k there => ?_, fun k h there link => ?_, core.pids, core.pinj, fun h there => ?_,
    fun h k first second same => ?_, fun h q there inside => ?_, fun h q there here _ leads => ?_⟩
  · rcases was.mp there with rfl | used
    · simp only [set_self]
      exact ⟨⟨rfl, next⟩, ⟨rfl, prev⟩⟩
    · simp only [set_ne (other used)]
      exact core.list h used
  · rcases was.mp there with rfl | used
    · rw [set_self, List.mem_singleton]
      refine ⟨fun same => ?_, fun both => ?_⟩
      · subst same
        exact ⟨live, set_self _ _ _⟩
      · by_cases same : q = p
        · exact same
        · have group := both.2
          dsimp only at group
          rw [set_ne same] at group
          obtain ⟨h', group', used⟩ := core.grouped q both.1 fun eq => same (Option.some.inj eq)
          cases Option.some.inj (group.symm.trans group')
          nomatch fresh.symm.trans used
    · rw [set_ne (other used), core.member h q used]
      refine and_congr_right fun _ => ?_
      dsimp only
      by_cases same : q = p
      · rw [same, set_self, alone]
        refine ⟨fun none => (nomatch none), fun eq => absurd (Option.some.inj eq).symm (other used)⟩
      · rw [set_ne same]
  · dsimp only
    by_cases same : q = p
    · exact ⟨g, by rw [same, set_self], set_self _ _ _⟩
    · obtain ⟨h, group, used⟩ := core.grouped q there fun eq => same (Option.some.inj eq)
      exact ⟨h, by rw [set_ne same]; exact group, was.mpr (Or.inr used)⟩
  · dsimp only
    rw [was]
    exact kid h k (was.mp there)
  · dsimp only at link ⊢
    rw [was]
    rcases was.mp there with rfl | used
    · rw [set_self] at link
      obtain ⟨used, less⟩ := above h link
      exact ⟨Or.inr used, by rw [name]; exact less⟩
    · rw [set_ne (other used)] at link
      obtain ⟨used, less⟩ := core.parent k h used link
      exact ⟨Or.inr used, less⟩
  · rcases was.mp there with rfl | used
    · dsimp only
      rw [name]
      exact core.pids p live
    · exact core.ids h used
  · dsimp only at same
    rcases was.mp first with rfl | used
    · rcases was.mp second with rfl | used
      · rfl
      · exact absurd (same.symm.trans name) (new k used)
    · rcases was.mp second with rfl | used'
      · exact absurd (same.trans name) (new h used)
      · exact core.idinj h k used used' same
  · rcases was.mp there with rfl | used
    · rw [set_self, List.mem_singleton] at inside
      dsimp only
      exact Nat.le_of_eq (by rw [inside, name])
    · rw [set_ne (other used)] at inside
      exact core.least h q used inside
  · dsimp only at leads ⊢
    rcases was.mp there with rfl | used
    · rw [name] at leads
      rw [set_self, core.pinj q p here live leads]
    · rw [set_ne (other used)]
      refine core.led h q used here (fun same => ?_) leads
      cases same
      exact new h used leads.symm

/-- `p` founds the group `g` below `pg`. -/
theorem found_core {pg : Option Ref} (core : s.Core (some p) ms ks) (full : s.Full ms) (live : s.live p = true)
    (fresh : s.used g = false) (name : s.id g = s.pid p) (new : ∀ h, s.used h = true → s.id h ≠ s.pid p)
    (above : ∀ q, pg = some q → s.used q = true ∧ s.id q < s.pid p) (child : s.child g = none)
    (next : s.grpnext p = none) (prev : s.grpprev p = none) :
    ∃ ks', (s.found p g pg).Core none (set ms g [p]) ks' ∧ (s.found p g pg).Full (set ms g [p]) := by
  have other {h : Ref} (used : s.used h = true) : h ≠ g := by
    rintro rfl
    nomatch fresh.symm.trans used
  have full' : (s.found p g pg).Full (set ms g [p]) := by
    intro h there
    have used : set s.used g true h = true := by
      cases pg <;> exact there
    rw [set_apply] at used ⊢
    split
    · exact List.cons_ne_nil _ _
    · rename_i ne
      rw [if_neg ne] at used
      exact full h used
  cases pg with
  | none =>
    refine ⟨set ks g [], core.founded live fresh name new above next prev (fun h there => ?_) (fun h k there => ?_), full'⟩
    · rcases there with rfl | used
      · rw [set_self]
        exact child
      · rw [set_ne (other used)]
        exact core.kids h used
    · have kid := core.kid h k
      have up := core.parent k h
      rw [set_apply, set_apply]
      grind
  | some q =>
    obtain ⟨usedq, _⟩ := above q rfl
    have notq := other usedq
    have notkid {h : Ref} (used : s.used h = true) : g ∉ ks h := fun there => by
      nomatch fresh.symm.trans ((core.kid h g used).mp there).1
    have links : ∀ h, h = g ∨ s.used h = true →
        Path (set s.sib g (s.child q)) (set s.child q (some g) h) (set (set ks g []) q (g :: ks q) h) := by
      intro h there
      rcases there with rfl | used
      · rw [set_ne notq.symm, set_ne notq.symm, set_self]
        exact child
      · by_cases same : h = q
        · rw [same, set_self, set_self]
          exact (core.kids q usedq).push (notkid usedq)
        · rw [set_ne same, set_ne same, set_ne (other used)]
          exact (core.kids h used).update (notkid used) _
    refine ⟨set (set ks g []) q (g :: ks q), core.founded live fresh name new above next prev links fun h k there => ?_, full'⟩
    have kid := core.kid h k
    have up := core.parent k h
    rw [set_apply, set_apply, set_apply]
    grind

/-- Every live `Prog` is in a group, and every group has one. -/
def Inv (s : Groups) : Prop := ∃ ms ks, s.Core none ms ks ∧ s.Full ms

/-- A group named after a live `Prog` is its own. -/
theorem Core.named (core : s.Core none ms ks) (used : s.used h = true) (live : s.live p = true) (name : s.id h = s.pid p) :
    s.group p = some h := by
  have first := core.led h p used live (Option.some_ne_none p) name.symm
  have here : p ∈ ms h := by
    have head := (core.list h used).fwd.head
    rw [first] at head
    exact List.mem_of_head? head
  exact ((core.member h p used).mp here).2

theorem newgrp_inv {m : Option Ref} (inv : s.Inv) (live : s.live p = true) (fresh : ∀ g ∈ m, s.used g = false) :
    ∃ s', s.newgrp p m = some s' ∧ s'.Inv := by
  obtain ⟨ms, ks, core, full⟩ := inv
  unfold newgrp
  split
  · exact ⟨s, rfl, ms, ks, core, full⟩
  · rename_i not
    cases m with
    | none => exact ⟨s, rfl, ms, ks, core, full⟩
    | some g =>
      have unused := fresh g rfl
      have new : ∀ h, s.used h = true → s.id h ≠ s.pid p :=
        fun h used name => not ⟨h, core.named used live name, name⟩
      have other {h : Ref} (used : s.used h = true) : h ≠ g := by
        rintro rfl
        nomatch unused.symm.trans used
      obtain ⟨s', pg, ms', ks', ran, core', full', left⟩ := delgrp_spec (mkgrp_core (p := p) core unused) full live
      have id {h : Ref} (used : s.used h = true) : s'.id h = s.id h := by
        rw [left.id]
        exact set_ne (other used) _ _
      have name : s'.id g = s'.pid p := by
        rw [left.id, left.pid]
        exact set_self _ _ _
      have before {h : Ref} (used : s'.used h = true) : s.used h = true := left.used h used
      have above : ∀ q, pg = some q → s'.used q = true ∧ s'.id q < s'.pid p := by
        intro q same
        obtain ⟨usedq, h, group, used, le⟩ := left.above q same
        have used : s.used h = true := used
        have member := (core.member h p used).mpr ⟨live, group⟩
        have most := core.least h p used member
        have ne := new h used
        refine ⟨usedq, ?_⟩
        rw [id (before usedq), left.pid]
        have le : s.id q ≤ s.id h := by
          simp only [mkgrp, set_ne (other (before usedq)), set_ne (other used)] at le
          exact le
        have pid : (s.mkgrp p g).pid p = s.pid p := rfl
        omega
      obtain ⟨ks'', found, whole⟩ := found_core core' full' (by rw [left.live]; exact live)
        (Bool.eq_false_iff.mpr fun used => (nomatch unused.symm.trans (before used))) name
        (fun h used => by rw [id (before used), left.pid]; exact new h (before used)) above
        (by rw [left.child g unused]; exact set_self _ _ _) left.next left.prev
      refine ⟨s'.found p g pg, ?_, _, ks'', found, whole⟩
      simp only [ran, Option.bind_eq_bind, Option.bind_some, Option.pure_def]

theorem mkprog_core (core : s.Core none ms ks) (dead : s.live n = false) : (s.mkprog n).Core (some n) ms ks := by
  have other {q : Ref} (live : s.live q = true) : q ≠ n := by
    rintro rfl
    nomatch dead.symm.trans live
  have was {q : Ref} : set s.live n true q = true ↔ q = n ∨ s.live q = true := by
    rw [set_apply]
    by_cases same : q = n
    · simp [same]
    · simp [same]
  refine ⟨fun h used => ?_, fun h q used => ?_, fun q live ne => ?_, fun q same => ?_, core.kids, core.kid, core.parent,
    fun q live => ?_, fun q r live live' same => ?_, fun h used => Nat.le_succ_of_le (core.ids h used), core.idinj,
    fun h q used inside => ?_, fun h q used live ne leads => ?_⟩
  · refine (core.list h used).congr fun q inside => ?_
    have ne := other ((core.member h q used).mp inside).1
    exact ⟨set_ne ne _ _, set_ne ne _ _⟩
  · rw [core.member h q used]
    simp only [mkprog, was]
    by_cases same : q = n
    · simp [same, dead]
    · simp [same]
  · have ne : q ≠ n := fun same => ne (by rw [same])
    obtain ⟨h, group, used⟩ := core.grouped q ((was.mp live).resolve_left ne) (Option.some_ne_none q)
    exact ⟨h, (set_ne ne _ _).trans group, used⟩
  · cases same
    exact set_self _ _ _
  · simp only [mkprog]
    rcases was.mp live with rfl | old
    · exact Nat.le_of_eq (set_self _ _ _)
    · rw [set_ne (other old)]
      exact Nat.le_succ_of_le (core.pids q old)
  · simp only [mkprog] at same
    rcases was.mp live with rfl | old
    · rcases was.mp live' with same' | old'
      · exact same'.symm
      · rw [set_self, set_ne (other old')] at same
        have most := core.pids r old'
        omega
    · rcases was.mp live' with rfl | old'
      · rw [set_self, set_ne (other old)] at same
        have most := core.pids q old
        omega
      · rw [set_ne (other old), set_ne (other old')] at same
        exact core.pinj q r old old' same
  · have ne := other ((core.member h q used).mp inside).1
    simp only [mkprog, set_ne ne]
    exact core.least h q used inside
  · have ne' : q ≠ n := fun same => ne (by rw [same])
    simp only [mkprog, set_ne ne'] at leads ⊢
    exact core.led h q used ((was.mp live).resolve_left ne') (Option.some_ne_none q) leads

/-- `n`, the last `Prog` made, joins the group of `p`. -/
theorem addgrp_core (core : s.Core (some n) ms ks) (full : s.Full ms) (live : s.live n = true) (last : s.pid n = s.pidnum)
    (new : ∀ h, s.used h = true → s.id h ≠ s.pid n) (parent : s.live p = true) (other : p ≠ n) :
    ∃ s' ms', s.addgrp n p = some s' ∧ s'.Core none ms' ks ∧ s'.Full ms' := by
  obtain ⟨g, group, used⟩ := core.grouped p parent fun same => other (Option.some.inj same)
  have alone := core.alone n rfl
  have outside {h : Ref} (used : s.used h = true) : n ∉ ms h := fun here => by
    nomatch alone.symm.trans ((core.member h n used).mp here).2
  have list := core.list g used
  obtain ⟨x, first⟩ : ∃ x, s.head g = some x := by
    cases head : s.head g with
    | none => exact absurd (List.head?_eq_none_iff.mp (list.fwd.head.trans head)) (full g used)
    | some x => exact ⟨x, rfl⟩
  obtain ⟨t, end_⟩ : ∃ t, s.tail g = some t := by
    cases tail : s.tail g with
    | none => exact absurd (List.getLast?_eq_none_iff.mp (list.tail_eq.trans tail)) (full g used)
    | some t => exact ⟨t, rfl⟩
  have member : t ∈ ms g := List.mem_of_getLast? (list.tail_eq.trans end_)
  have ran : s.addgrp n p = some { s with
      group := set s.group n (some g)
      grpprev := set s.grpprev n (some t)
      grpnext := set (set s.grpnext n none) t (some n)
      tail := set s.tail g (some n) } := by
    simp only [addgrp, group, set_self, first, end_]
  refine ⟨_, set ms g (ms g ++ [n]), ran, ⟨fun h there => ?_, fun h q there => ?_, fun q there _ => ?_,
    fun q none => (nomatch none), core.kids, core.kid, core.parent, core.pids, core.pinj, core.ids, core.idinj,
    fun h q there inside => ?_, fun h q there here _ leads => ?_⟩, fun h there => ?_⟩
  · dsimp only
    by_cases same : h = g
    · rw [same, set_self, set_self]
      rw [end_] at list
      exact list.append (outside used)
    · rw [set_ne same, set_ne same]
      refine (core.list h there).congr fun q inside => ?_
      have notn : q ≠ n := fun same => outside there (same ▸ inside)
      have nott : q ≠ t := fun same' => core.apart used there same member (same' ▸ inside)
      exact ⟨by rw [set_ne nott, set_ne notn], set_ne notn _ _⟩
  · have old := core.member h q there
    have out := outside there
    dsimp only
    rw [set_apply ms, set_apply s.group]
    grind
  · dsimp only
    by_cases same : q = n
    · exact ⟨g, by rw [same, set_self], used⟩
    · obtain ⟨h, group, used⟩ := core.grouped q there fun eq => same (Option.some.inj eq)
      exact ⟨h, by rw [set_ne same]; exact group, used⟩
  · by_cases same : h = g
    · rw [same, set_self] at inside
      rcases List.mem_append.mp inside with old | new
      · rw [same]
        exact core.least g q used old
      · rw [List.mem_singleton.mp new]
        dsimp only
        rw [last]
        exact core.ids h there
    · rw [set_ne same] at inside
      exact core.least h q there inside
  · dsimp only at leads ⊢
    refine core.led h q there here (fun same => ?_) leads
    cases same
    exact new h there leads.symm
  · rw [set_apply]
    split
    · exact List.append_ne_nil_of_right_ne_nil _ (List.cons_ne_nil _ _)
    · exact full h there

end Groups

end Inferno.Emu
