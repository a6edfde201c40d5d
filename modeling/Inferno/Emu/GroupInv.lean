import Inferno.Emu.Group

namespace Inferno.Emu

open Lib

namespace Groups

variable {s s' : Groups} {out : Option Ref} {ms ks : Ref → List Ref} {p q g h n : Ref} {a b l kids : List Ref} {i : Nat}

/-- `ms g` are the `Prog` of `g` and `ks g` its subgroups. `out` is a `Prog` between two groups. -/
structure Core (s : Groups) (out : Option Ref) (ms ks : Ref → List Ref) : Prop where
  list : ∀ g, s.used g = true → DList s.grpnext s.grpprev (s.head g) (s.tail g) (ms g)
  member : ∀ g p, s.used g = true → (p ∈ ms g ↔ s.live p = true ∧ s.group p = some g)
  grouped : ∀ p, s.live p = true → some p ≠ out → ∃ g, s.group p = some g ∧ s.used g = true
  alone : ∀ p, out = some p → s.group p = none
  kids : ∀ g, s.used g = true → Path s.sib (s.child g) (ks g)
  kid : ∀ g k, s.used g = true → (k ∈ ks g ↔ s.used k = true ∧ s.parent k = some g)
  parent : ∀ k g, s.used k = true → s.parent k = some g → s.used g = true ∧ s.id g < s.id k
  pids : ∀ p, s.live p = true → s.pid p ≤ s.pidnum
  pinj : ∀ p q, s.live p = true → s.live q = true → s.pid p = s.pid q → p = q
  ids : ∀ g, s.used g = true → s.id g ≤ s.pidnum
  idinj : ∀ g h, s.used g = true → s.used h = true → s.id g = s.id h → g = h
  least : ∀ g p, s.used g = true → p ∈ ms g → s.id g ≤ s.pid p
  led : ∀ g p, s.used g = true → s.live p = true → some p ≠ out → s.pid p = s.id g → s.head g = some p

def Full (s : Groups) (ms : Ref → List Ref) : Prop := ∀ g, s.used g = true → ms g ≠ []

/-- The loop finds the node before `g` behind `c`. -/
theorem unsib_spec {c : Ref} (path : Path s.sib (s.sib c) (a ++ g :: b)) (fuel : a.length < i) :
    ∃ t, s.unsib g i c = some { s with sib := set s.sib t (s.sib g) } ∧ (c :: a).getLast? = some t := by
  induction a generalizing c i with
  | nil =>
    cases i with
    | zero => nomatch fuel
    | succ i => exact ⟨c, by simp only [unsib, path.1, if_true], rfl⟩
  | cons d a ih =>
    cases i with
    | zero => nomatch fuel
    | succ i =>
      have other : d ≠ g := by
        rintro rfl
        exact (List.nodup_cons.mp path.nodup).1 (List.mem_append_right _ List.mem_cons_self)
      obtain ⟨t, ran, last⟩ := ih (c := d) path.2 (Nat.lt_of_succ_lt_succ fuel)
      refine ⟨t, ?_, by rw [List.getLast?_cons_cons]; exact last⟩
      simp only [unsib, path.1, if_neg other]
      exact ran

/-- `g` is taken off the subgroups of `q`, and the links of others stay. -/
theorem unchild_spec (path : Path s.sib (s.child q) (a ++ g :: b)) (fuel : a.length < i) :
    ∃ sib child, s.unchild i g q = some { s with sib := sib, child := child } ∧ Path sib (child q) (a ++ b) ∧
      (∀ h, h ≠ q → child h = s.child h) ∧ ∀ k, k ∉ a → sib k = s.sib k := by
  cases a with
  | nil =>
    refine ⟨s.sib, set s.child q (s.sib g), by simp only [unchild, path.1, if_true], ?_, fun h other => ?_, fun _ _ => rfl⟩
    · rw [set_self]
      exact path.2
    · exact set_ne other _ _
  | cons c a =>
    have other : c ≠ g := by
      rintro rfl
      exact (List.nodup_cons.mp path.nodup).1 (List.mem_append_right _ List.mem_cons_self)
    obtain ⟨t, ran, last⟩ := unsib_spec path.2 (Nat.lt_of_succ_lt fuel)
    refine ⟨set s.sib t (s.sib g), s.child, ?_, path.unlink last, fun _ _ => rfl, fun k out => ?_⟩
    · simp only [unchild, path.1, if_neg other]
      exact ran
    · exact set_ne (fun same : k = t => out (same ▸ List.mem_of_getLast? last)) _ _

theorem ite_mem_cons (x k : Ref) (kids : List Ref) (v : Option Ref) (f : Ref → Option Ref) :
    (if x ∈ kids then v else set f k v x) = if x ∈ k :: kids then v else f x := by
  rw [set_apply]
  by_cases here : x ∈ kids
  · rw [if_pos here, if_pos (List.mem_cons_of_mem k here)]
  · by_cases same : x = k
    · rw [if_neg here, if_pos same, if_pos (List.mem_cons.mpr (Or.inl same))]
    · rw [if_neg here, if_neg same, if_neg]
      exact fun there => (List.mem_cons.mp there).elim same here

/-- The subgroups `kids` of `g` are put before those of `q`, the last first. -/
theorem moveup_some (other : q ≠ g) (path : Path s.sib (s.child g) kids) (list : Path s.sib (s.child q) l)
    (apart : ∀ k ∈ kids, k ∉ l) (fuel : kids.length < i) :
    ∃ sib child parent, moveup g (some q) i s = some { s with sib := sib, child := child, parent := parent } ∧
      Path sib (child q) (kids.reverse ++ l) ∧ (∀ h, h ≠ q → h ≠ g → child h = s.child h) ∧
      (∀ k, k ∉ kids → sib k = s.sib k) ∧ ∀ k, parent k = if k ∈ kids then some q else s.parent k := by
  induction kids generalizing s l i with
  | nil =>
    cases i with
    | zero => nomatch fuel
    | succ i =>
      have none : s.child g = none := path
      exact ⟨s.sib, s.child, s.parent, by simp only [moveup, none], list, fun _ _ _ => rfl, fun _ _ => rfl, fun k => by simp⟩
  | cons k kids ih =>
    cases i with
    | zero => nomatch fuel
    | succ i =>
      obtain ⟨fresh, _⟩ := List.nodup_cons.mp path.nodup
      have first : s.child g = some k := path.1
      have step : s.regroup g k (some q) = { s with
          parent := set s.parent k (some q)
          sib := set s.sib k (s.child q)
          child := set (set s.child g (s.sib k)) q (some k) } := by
        simp only [regroup, set_ne other]
      have path' : Path (set s.sib k (s.child q)) (set (set s.child g (s.sib k)) q (some k) g) kids := by
        rw [set_ne other.symm, set_self]
        exact path.2.update fresh _
      have list' : Path (set s.sib k (s.child q)) (set (set s.child g (s.sib k)) q (some k) q) (k :: l) := by
        rw [set_self]
        exact list.push (apart k List.mem_cons_self)
      have apart' : ∀ x ∈ kids, x ∉ k :: l := by
        intro x here there
        rcases List.mem_cons.mp there with same | behind
        · exact fresh (same ▸ here)
        · exact apart x (List.mem_cons_of_mem k here) behind
      obtain ⟨sib, child, parent, ran, whole, others, links, up⟩ :=
        ih (s := s.regroup g k (some q)) (by rw [step]; exact path') (by rw [step]; exact list') apart'
          (Nat.lt_of_succ_lt_succ fuel)
      refine ⟨sib, child, parent, ?_, ?_, fun h notq notg => ?_, fun x out => ?_, fun x => ?_⟩
      · simp only [moveup, first, ran]
        rw [step]
      · rw [List.reverse_cons, List.append_assoc, List.singleton_append]
        exact whole
      · rw [others h notq notg, step]
        dsimp only
        rw [set_ne notq, set_ne notg]
      · obtain ⟨ne, rest⟩ := not_or.mp fun here => out (List.mem_cons.mpr here)
        rw [links x rest, step]
        exact set_ne ne _ _
      · rw [up x, step]
        exact ite_mem_cons x k kids _ _

/-- The subgroups of a group without parent have none, and keep their `sib`. -/
theorem moveup_none (path : Path s.sib (s.child g) kids) (fuel : kids.length < i) :
    ∃ child parent, moveup g none i s = some { s with child := child, parent := parent } ∧
      (∀ h, h ≠ g → child h = s.child h) ∧ ∀ k, parent k = if k ∈ kids then none else s.parent k := by
  induction kids generalizing s i with
  | nil =>
    cases i with
    | zero => nomatch fuel
    | succ i =>
      have none : s.child g = none := path
      exact ⟨s.child, s.parent, by simp only [moveup, none], fun _ _ => rfl, fun k => by simp⟩
  | cons k kids ih =>
    cases i with
    | zero => nomatch fuel
    | succ i =>
      have first : s.child g = some k := path.1
      have step : s.regroup g k none = { s with
          parent := set s.parent k none
          child := set s.child g (s.sib k) } := rfl
      have path' : Path s.sib (set s.child g (s.sib k) g) kids := by
        rw [set_self]
        exact path.2
      obtain ⟨child, parent, ran, others, up⟩ :=
        ih (s := s.regroup g k none) (by rw [step]; exact path') (Nat.lt_of_succ_lt_succ fuel)
      refine ⟨child, parent, ?_, fun h other => ?_, fun x => ?_⟩
      · simp only [moveup, first, ran]
        rw [step]
      · rw [others h other, step]
        exact set_ne other _ _
      · rw [up x, step]
        exact ite_mem_cons x k kids _ _

/-- A group has fewer subgroups than there are pids. -/
theorem Core.few (core : s.Core out ms ks) (here : s.used g = true) : (ks g).length ≤ s.pidnum := by
  have names : ((ks g).map s.id).Nodup := by
    refine List.Nodup.map_on (fun x first y second same => ?_) (core.kids g here).nodup
    exact core.idinj x y ((core.kid g x here).mp first).1 ((core.kid g y here).mp second).1 same
  have range : (ks g).map s.id ⊆ List.range' 1 s.pidnum := by
    intro i there
    obtain ⟨k, kid, rfl⟩ := List.mem_map.mp there
    obtain ⟨used, parent⟩ := (core.kid g k here).mp kid
    have above := (core.parent k g used parent).2
    have below := core.ids k used
    rw [List.mem_range'_1]
    omega
  have count := (List.subperm_of_subset names range).length_le
  rwa [List.length_map, List.length_range'] at count

/-- What `leave` does when the links of `p` are those of its list. -/
theorem leave_eq (prev : s.grpprev p ≠ some p) :
    s.leave p g = { s with
      grpnext := set ((s.grpprev p).elim s.grpnext fun t => set s.grpnext t (s.grpnext p)) p none
      grpprev := set ((s.grpnext p).elim s.grpprev fun t => set s.grpprev t (s.grpprev p)) p none
      head := (s.grpprev p).elim (set s.head g (s.grpnext p)) fun _ => s.head
      tail := (s.grpnext p).elim (set s.tail g (s.grpprev p)) fun _ => s.tail
      group := set s.group p none } := by
  cases before : s.grpprev p with
  | none =>
    cases after : s.grpnext p with
    | none => simp only [leave, before, after, Option.elim]
    | some u => simp only [leave, before, after, Option.elim]
  | some t =>
    have other : p ≠ t := fun same => prev (same ▸ before)
    cases after : s.grpnext p with
    | none => simp only [leave, before, set_ne other, after, Option.elim]
    | some u => simp only [leave, before, set_ne other, after, Option.elim]

theorem elim_set (o v : Option Ref) (f : Ref → Option Ref) (g h : Ref) :
    (o.elim (set f g v) fun _ => f) h = if h = g then o.elim v fun _ => f g else f h := by
  cases o with
  | none => exact set_apply f g h v
  | some t =>
    by_cases same : h = g
    · rw [if_pos same, same]
      rfl
    · rw [if_neg same]
      rfl

/-- Links change only at the nodes of the list that `p` leaves. -/
theorem elim_link {o v : Option Ref} {f : Ref → Option Ref} {x : Ref} (notp : x ≠ p) (nott : ∀ t ∈ o, x ≠ t) :
    set (o.elim f fun t => set f t v) p none x = f x := by
  rw [set_ne notp]
  cases o with
  | none => rfl
  | some t => exact set_ne (nott t rfl) _ _

theorem Core.apart (core : s.Core out ms ks) (first : s.used g = true) (second : s.used h = true) (other : h ≠ g)
    (here : p ∈ ms g) : p ∉ ms h := by
  intro there
  have group := ((core.member g p first).mp here).2
  rw [((core.member h p second).mp there).2] at group
  exact other (Option.some.inj group)

/-- `p` is between two groups, and the group it has left may have no `Prog`. -/
theorem leave_core (core : s.Core none ms ks) (used : s.used g = true) {u v : List Ref} (split : ms g = u ++ p :: v) :
    (s.leave p g).Core (some p) (set ms g (u ++ v)) ks ∧ (s.leave p g).head g = (u ++ v).head? := by
  have here : p ∈ ms g := by
    rw [split]
    exact List.mem_append_right _ List.mem_cons_self
  have list := core.list g used
  rw [split] at list
  obtain ⟨before, after⟩ := list.around
  have nodup := list.fwd.nodup
  have notu : p ∉ u := fun there => (List.nodup_append.mp nodup).2.2 p there p List.mem_cons_self rfl
  have notv : p ∉ v := (List.nodup_cons.mp (List.nodup_append.mp nodup).2.1).1
  have self : s.grpprev p ≠ some p := fun same => notu (List.mem_of_getLast? (before.trans same))
  have removed := list.remove
  rw [leave_eq self]
  have member (h q : Ref) (there : s.used h = true) :
      q ∈ set ms g (u ++ v) h ↔ s.live q = true ∧ set s.group p none q = some h := by
    rw [set_apply ms, set_apply s.group]
    by_cases same : h = g
    · subst same
      have before := core.member h q there
      rw [split] at before
      grind
    · have before := core.member h q there
      have mine := (core.member g p used).mp here
      grind
  refine ⟨⟨fun h there => ?_, member, fun q live other => ?_, fun q same => ?_, core.kids, core.kid, core.parent, core.pids,
    core.pinj, core.ids, core.idinj, fun h q there inside => ?_, fun h q there live other leads => ?_⟩, ?_⟩
  · dsimp only
    rw [elim_set, elim_set, set_apply ms]
    by_cases same : h = g
    · rw [if_pos same, if_pos same, if_pos same]
      exact removed
    · rw [if_neg same, if_neg same, if_neg same]
      refine (core.list h there).congr fun x inside => ?_
      have notx : x ∉ ms g := core.apart there used (fun same' => same same'.symm) inside
      rw [split] at notx
      have notp : x ≠ p := fun same => notx (same ▸ List.mem_append_right _ List.mem_cons_self)
      refine ⟨elim_link notp fun t link same => ?_, elim_link notp fun t link same => ?_⟩
      · rw [link] at before
        exact notx (List.mem_append_left _ (same ▸ List.mem_of_getLast? before))
      · rw [link] at after
        exact notx (List.mem_append_right _ (List.mem_cons_of_mem p (same ▸ List.mem_of_head? after)))
  · have notp : q ≠ p := fun same => other (by rw [same])
    obtain ⟨h, group, there⟩ := core.grouped q live (Option.some_ne_none q)
    exact ⟨h, by dsimp only; rw [set_ne notp]; exact group, there⟩
  · cases same
    exact set_self _ _ _
  · have old := (core.member h q there).mpr
    obtain ⟨live, group⟩ := (member h q there).mp inside
    by_cases same : q = p
    · rw [same, set_self] at group
      nomatch group
    · rw [set_ne same] at group
      exact core.least h q there (old ⟨live, group⟩)
  · have first := core.led h q there live (Option.some_ne_none q) leads
    dsimp only
    rw [elim_set]
    by_cases same : h = g
    · rw [if_pos same]
      rw [same, ← list.fwd.head] at first
      cases u with
      | nil => exact absurd (congrArg some (Option.some.inj first).symm) other
      | cons x u =>
        cases prev : s.grpprev p with
        | none =>
          rw [prev] at before
          nomatch List.getLast?_eq_none_iff.mp before
        | some t =>
          rw [← core.list g used |>.fwd.head, split]
          exact first
    · rw [if_neg same]
      exact first
  · dsimp only
    rw [elim_set, if_pos rfl]
    exact removed.fwd.head.symm

/-- What stays true of the lists of `Prog` when only the links between groups change and `g` goes away. -/
theorem Core.regrouped {sib child parent : Ref → Option Ref} {ks' : Ref → List Ref} (core : s.Core out ms ks)
    (empty : ms g = [])
    (kids : ∀ h, s.used h = true → h ≠ g → Path sib (child h) (ks' h))
    (kid : ∀ h k, s.used h = true → h ≠ g → (k ∈ ks' h ↔ (s.used k = true ∧ k ≠ g) ∧ parent k = some h))
    (up : ∀ k h, s.used k = true → k ≠ g → parent k = some h → (s.used h = true ∧ h ≠ g) ∧ s.id h < s.id k) :
    Core { s with sib := sib, child := child, parent := parent, used := set s.used g false } out ms ks' := by
  have was {h : Ref} : set s.used g false h = true ↔ s.used h = true ∧ h ≠ g := by
    rw [set_apply]
    by_cases same : h = g
    · simp [same]
    · simp [same]
  refine ⟨fun h there => core.list h (was.mp there).1, fun h q there => core.member h q (was.mp there).1,
    fun q live other => ?_, core.alone, fun h there => kids h (was.mp there).1 (was.mp there).2, fun h k there => ?_,
    fun k h there link => ?_, core.pids, core.pinj, fun h there => core.ids h (was.mp there).1,
    fun h k there here => core.idinj h k (was.mp there).1 (was.mp here).1, fun h q there => core.least h q (was.mp there).1,
    fun h q there => core.led h q (was.mp there).1⟩
  · obtain ⟨h, group, there⟩ := core.grouped q live other
    refine ⟨h, group, was.mpr ⟨there, fun same => ?_⟩⟩
    have here := (core.member h q there).mpr ⟨live, group⟩
    rw [same, empty] at here
    nomatch here
  · dsimp only
    rw [was]
    exact kid h k (was.mp there).1 (was.mp there).2
  · dsimp only
    rw [was]
    exact up k h (was.mp there).1 (was.mp there).2 link

/-- A group without `Prog` goes away and its subgroups go to its parent. -/
theorem drop_core (core : s.Core out ms ks) (here : s.used g = true) (empty : ms g = []) (fuel : s.pidnum < i) :
    ∃ sib child parent ks', s.drop i g = some ({ s with
        sib := sib, child := child, parent := parent, used := set s.used g false }, s.parent g) ∧
      Core { s with sib := sib, child := child, parent := parent, used := set s.used g false } out ms ks' ∧
      (∀ k, s.used k = true → parent k = if s.parent k = some g then s.parent g else s.parent k) ∧
      ∀ h, s.used h = false → child h = s.child h := by
  have mine {k : Ref} (there : s.used k = true) : k ∈ ks g ↔ s.parent k = some g := by
    rw [core.kid g k here]
    exact ⟨fun both => both.2, fun link => ⟨there, link⟩⟩
  have few : (ks g).length < i := Nat.lt_of_le_of_lt (core.few here) fuel
  cases above : s.parent g with
  | none =>
    obtain ⟨child, parent, ran, others, up⟩ := moveup_none (core.kids g here) few
    have link {k : Ref} (there : s.used k = true) : parent k = if s.parent k = some g then none else s.parent k := by
      rw [up k]
      exact ite_congr (propext (mine there)) (fun _ => rfl) fun _ => rfl
    refine ⟨s.sib, child, parent, ks, ?_, ?_, fun k there => link there, fun h unused => others h ?_⟩
    · simp only [drop, above, ran, Option.bind_eq_bind, Option.bind_some, Option.pure_def]
    · refine core.regrouped empty (fun h there other => ?_) (fun h k there other => ?_) fun k h there other goes => ?_
      · rw [others h other]
        exact core.kids h there
      · rw [core.kid h k there]
        constructor
        · rintro ⟨used, parent⟩
          refine ⟨⟨used, fun same => ?_⟩, ?_⟩
          · rw [same, above] at parent
            nomatch parent
          · rw [link used, if_neg, parent]
            exact fun same => other (Option.some.inj (parent.symm.trans same))
        · rintro ⟨⟨used, _⟩, goes⟩
          rw [link used] at goes
          split at goes
          · nomatch goes
          · exact ⟨used, goes⟩
      · rw [link there] at goes
        split at goes
        · nomatch goes
        · rename_i elsewhere
          obtain ⟨used, less⟩ := core.parent k h there goes
          exact ⟨⟨used, fun same => elsewhere (same ▸ goes)⟩, less⟩
    · rintro rfl
      nomatch unused.symm.trans here
  | some q =>
    obtain ⟨usedq, less⟩ := core.parent g q here above
    have other : q ≠ g := fun same => Nat.lt_irrefl _ (same ▸ less)
    obtain ⟨a, b, split⟩ := List.append_of_mem ((core.kid q g usedq).mpr ⟨here, above⟩)
    have list := core.kids q usedq
    rw [split] at list
    have long : a.length < i := by
      have most := core.few usedq
      rw [split, List.length_append, List.length_cons] at most
      omega
    have apart {k : Ref} (kid : k ∈ ks g) : k ∉ a ++ g :: b := by
      rw [← split, core.kid q k usedq]
      rintro ⟨_, link⟩
      exact other (Option.some.inj (link.symm.trans ((core.kid g k here).mp kid).2))
    obtain ⟨sib₁, child₁, ran₁, list₁, others₁, links₁⟩ := unchild_spec list long
    have path : Path sib₁ (child₁ g) (ks g) := by
      rw [others₁ g other.symm]
      exact (core.kids g here).congr fun k kid => links₁ k fun there => apart kid (List.mem_append_left _ there)
    have apart₁ : ∀ k ∈ ks g, k ∉ a ++ b := fun k kid there => apart kid (by
      rcases List.mem_append.mp there with left | right
      · exact List.mem_append_left _ left
      · exact List.mem_append_right _ (List.mem_cons_of_mem g right))
    obtain ⟨sib, child, parent, ran, list₂, others, links, up⟩ :=
      moveup_some (s := { s with sib := sib₁, child := child₁ }) other path list₁ apart₁ few
    have link {k : Ref} (there : s.used k = true) : parent k = if s.parent k = some g then some q else s.parent k := by
      rw [up k]
      exact ite_congr (propext (mine there)) (fun _ => rfl) fun _ => rfl
    refine ⟨sib, child, parent, set ks q ((ks g).reverse ++ (a ++ b)), ?_, ?_, fun k there => link there, fun h unused => ?_⟩
    · simp only [drop, above, ran₁, ran, Option.bind_eq_bind, Option.bind_some, Option.pure_def]
    · refine core.regrouped empty (fun h there notg => ?_) (fun h k there notg => ?_) fun k h there notg goes => ?_
      · by_cases same : h = q
        · rw [same, set_self]
          exact list₂
        · rw [set_ne same, others h same notg]
          dsimp only
          rw [others₁ h same]
          refine (core.kids h there).congr fun k kid => ?_
          have link := ((core.kid h k there).mp kid).2
          have notkid : k ∉ ks g := fun mine =>
            notg (Option.some.inj (link.symm.trans ((core.kid g k here).mp mine).2))
          have nota : k ∉ a := fun inside => same (Option.some.inj (link.symm.trans ((core.kid q k usedq).mp
            (by rw [split]; exact List.mem_append_left _ inside)).2))
          rw [links k notkid]
          exact links₁ k nota
      · have old := core.kid h k there
        by_cases same : h = q
        · subst same
          rw [set_self]
          have nodup := list.nodup
          have kid := core.kid g k here
          rw [split] at old
          grind
        · rw [set_ne same, old]
          have kid := core.kid g k here
          grind
      · rw [link there] at goes
        split at goes
        · rename_i below
          cases goes
          have deeper := (core.parent k g there below).2
          exact ⟨⟨usedq, other⟩, Nat.lt_trans less deeper⟩
        · rename_i elsewhere
          obtain ⟨used, less⟩ := core.parent k h there goes
          exact ⟨⟨used, fun same => elsewhere (same ▸ goes)⟩, less⟩
    · have notg : h ≠ g := by
        rintro rfl
        nomatch unused.symm.trans here
      have notq : h ≠ q := by
        rintro rfl
        nomatch unused.symm.trans usedq
      rw [others h notq notg]
      exact others₁ h notq

theorem leave_frame (s : Groups) (p g : Ref) :
    (s.leave p g).live = s.live ∧ (s.leave p g).pid = s.pid ∧ (s.leave p g).id = s.id ∧ (s.leave p g).pidnum = s.pidnum ∧
      (s.leave p g).used = s.used ∧ (s.leave p g).child = s.child ∧ (s.leave p g).parent = s.parent := by
  unfold leave
  cases s.grpprev p with
  | none =>
    dsimp only
    cases s.grpnext p <;> exact ⟨rfl, rfl, rfl, rfl, rfl, rfl, rfl⟩
  | some t =>
    dsimp only
    cases set s.grpnext t (s.grpnext p) p <;> exact ⟨rfl, rfl, rfl, rfl, rfl, rfl, rfl⟩

theorem leave_links (s : Groups) (p g : Ref) : (s.leave p g).grpnext p = none ∧ (s.leave p g).grpprev p = none :=
  ⟨set_self _ _ _, set_self _ _ _⟩

/-- `p` has left its group. If it was the last, the group is gone and its subgroups are in its parent. -/
structure Left (s s' : Groups) (p : Ref) (pg : Option Ref) : Prop where
  live : s'.live = s.live
  pid : s'.pid = s.pid
  id : s'.id = s.id
  pidnum : s'.pidnum = s.pidnum
  next : s'.grpnext p = none
  prev : s'.grpprev p = none
  used : ∀ h, s'.used h = true → s.used h = true
  child : ∀ h, s.used h = false → s'.child h = s.child h
  above : ∀ q, pg = some q → s'.used q = true ∧ ∃ g, s.group p = some g ∧ s.used g = true ∧ s.id q ≤ s.id g
  moved : ∀ g, s.group p = some g → s.head g = some p → s.tail g = some p → s'.used g = false ∧ pg = s.parent g ∧
    ∀ k, s.used k = true → s.parent k = some g → s'.used k = true ∧ s'.parent k = s.parent g

/-- A list with `p` first and last has only `p`. -/
theorem Core.only (core : s.Core out ms ks) (used : s.used g = true) {u v : List Ref} (split : ms g = u ++ p :: v)
    (first : s.head g = some p) (last : s.tail g = some p) : u ++ v = [] := by
  have list := core.list g used
  rw [split] at list
  have nodup := list.fwd.nodup
  have head := list.fwd.head
  have tail := list.tail_eq
  rw [first] at head
  rw [last] at tail
  have nou : u = [] := by
    cases u with
    | nil => rfl
    | cons x u =>
      cases Option.some.inj head
      exact absurd (List.mem_append_right _ List.mem_cons_self) (List.nodup_cons.mp nodup).1
  subst nou
  cases v with
  | nil => rfl
  | cons x v =>
    rw [List.nil_append, List.getLast?_cons_cons] at tail
    exact absurd (List.mem_of_getLast? tail) (List.nodup_cons.mp nodup).1

theorem delgrp_spec (core : s.Core none ms ks) (full : s.Full ms) (live : s.live p = true) :
    ∃ s' pg ms' ks', s.delgrp p = some (s', pg) ∧ s'.Core (some p) ms' ks' ∧ s'.Full ms' ∧ s.Left s' p pg := by
  obtain ⟨g, group, used⟩ := core.grouped p live (Option.some_ne_none p)
  obtain ⟨u, v, split⟩ := List.append_of_mem ((core.member g p used).mpr ⟨live, group⟩)
  obtain ⟨core₁, head⟩ := leave_core core used split
  obtain ⟨live₁, pid₁, id₁, pidnum₁, used₁, child₁, parent₁⟩ := leave_frame s p g
  obtain ⟨next₁, prev₁⟩ := leave_links s p g
  by_cases empty : u ++ v = []
  · have none : (s.leave p g).head g = none := by
      rw [head, empty]
      rfl
    have bare : set ms g (u ++ v) g = [] := by rw [set_self, empty]
    obtain ⟨sib, child, parent, ks', ran, core₂, link, same⟩ :=
      drop_core core₁ (by rw [used₁]; exact used) bare (Nat.lt_succ_self _)
    rw [parent₁] at ran link
    refine ⟨_, s.parent g, _, ks', ?_, core₂, fun h there => ?_, live₁, pid₁, id₁, pidnum₁, next₁, prev₁, fun h there => ?_,
      fun h unused => ?_, fun q above => ?_, fun h here _ _ => ?_⟩
    · simp only [delgrp, group, none, if_true, dropAll, ran, Option.bind_eq_bind, Option.bind_some]
      cases above : s.parent g with
      | none => rfl
      | some q =>
        obtain ⟨usedq, less⟩ := core.parent g q used above
        have other : q ≠ g := fun same => Nat.lt_irrefl _ (same ▸ less)
        have first := (core₁.list q (by rw [used₁]; exact usedq)).fwd.head
        rw [set_ne other] at first
        have more : (s.leave p g).head q ≠ Option.none := by
          rw [← first]
          exact fun nil => full q usedq (List.head?_eq_none_iff.mp nil)
        simp only [if_neg more]
        rfl
    · dsimp only at there
      rw [used₁, set_apply] at there
      split at there
      · nomatch there
      · rename_i other
        rw [set_ne other]
        exact full h there
    · dsimp only at there
      rw [used₁, set_apply] at there
      split at there
      · nomatch there
      · exact there
    · rw [← used₁] at unused
      exact (same h unused).trans (by rw [child₁])
    · obtain ⟨usedq, less⟩ := core.parent g q used above
      have other : q ≠ g := fun same => Nat.lt_irrefl _ (same ▸ less)
      refine ⟨?_, g, group, used, Nat.le_of_lt less⟩
      dsimp only
      rw [used₁, set_ne other]
      exact usedq
    · cases Option.some.inj (group.symm.trans here)
      refine ⟨set_self _ _ _, rfl, fun k there below => ⟨?_, ?_⟩⟩
      · have deeper := (core.parent k g there below).2
        have other : k ≠ g := fun same => Nat.lt_irrefl _ (same ▸ deeper)
        dsimp only
        rw [used₁, set_ne other]
        exact there
      · dsimp only
        rw [link k (by rw [used₁]; exact there), if_pos below]
  · have more : (s.leave p g).head g ≠ none := by
      rw [head]
      exact fun none => empty (List.head?_eq_none_iff.mp none)
    refine ⟨s.leave p g, some g, _, ks, by simp only [delgrp, group, if_neg more], core₁, fun h there => ?_, live₁, pid₁, id₁,
      pidnum₁, next₁, prev₁, fun h there => used₁ ▸ there, fun h _ => by rw [child₁], fun q same => ?_, fun h here first last => ?_⟩
    · rw [used₁] at there
      rw [set_apply]
      split
      · exact empty
      · exact full h there
    · cases same
      exact ⟨by rw [used₁]; exact used, g, group, used, Nat.le_refl _⟩
    · cases Option.some.inj (group.symm.trans here)
      exact absurd (core.only used split first last) empty

end Groups

end Inferno.Emu
