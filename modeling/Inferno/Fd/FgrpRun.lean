import Inferno.Fd.Table

namespace Inferno.Fd

section Counted

namespace Fds

variable {s s' : Fds} {c : Nat} {cs : List Nat} {f f' : Fgrp} {g : Nat}

def ref (s : Fds) (c : Nat) : Nat := (s.chan c).elim 0 Chan.ref

/-- The slots of all tables that hold `c`. -/
def slots (s : Fds) (c : Nat) : Nat := (s.fgrp.map fun f => f.fd.count (some c)).sum

/-- Every reference is one of a slot, of a call in progress, or one of `cs`, which
the call that runs has in its variables. -/
structure Counted (s : Fds) (cs : List Nat) : Prop where
  count : ∀ c, s.ref c = s.slots c + s.held.count c + cs.count c
  pos : ∀ c ch, s.chan c = some ch → 0 < ch.ref

theorem Counted.perm {cs' : List Nat} (counted : s.Counted cs) (perm : cs.Perm cs') : s.Counted cs' :=
  ⟨fun c => by rw [counted.count, perm.count_eq], counted.pos⟩

theorem Counted.live (counted : s.Counted cs) (used : 0 < s.slots c + s.held.count c + cs.count c) :
    ∃ ch, s.chan c = some ch := by
  rw [← counted.count, ref] at used
  cases live : s.chan c with
  | none =>
    rw [live] at used
    exact absurd used (Nat.lt_irrefl 0)
  | some ch => exact ⟨ch, rfl⟩

theorem ref_incref (live : s.chan c = some ch) (x : Nat) : (s.incref c).ref x = s.ref x + if x = c then 1 else 0 := by
  simp only [ref, incref, Function.update_apply]
  by_cases same : x = c
  · subst same
    simp [live]
  · simp [same]

theorem Counted.incref (counted : s.Counted cs) (live : s.chan c = some ch) : (s.incref c).Counted (c :: cs) := by
  refine ⟨fun x => ?_, fun x ch' is => ?_⟩
  · have old := counted.count x
    rw [ref_incref live, old, List.count_cons]
    simp only [Fds.incref, slots, beq_iff_eq, eq_comm (a := x)]
    omega
  · simp only [Fds.incref, Function.update_apply, live] at is
    split at is
    · cases is
      exact Nat.succ_pos _
    · exact counted.pos x ch' is

theorem Counted.newchan {ch : Chan} (counted : s.Counted cs) (made : s.newchan c ch = some s') :
    s'.Counted (c :: cs) ∧ s'.fgrp = s.fgrp ∧ s'.held = s.held := by
  unfold Fds.newchan at made
  split at made
  · rename_i free
    cases made
    refine ⟨⟨fun x => ?_, fun x ch' is => ?_⟩, rfl, rfl⟩
    · have old := counted.count x
      simp only [ref, slots, Function.update_apply, List.count_cons, beq_iff_eq, eq_comm (a := c)] at old ⊢
      by_cases same : x = c
      · subst same
        simp only [free, Option.elim] at old
        simp
        omega
      · simp [same]
        exact old
    · simp only [Function.update_apply] at is
      split at is
      · cases is
        exact Nat.one_pos
      · exact counted.pos x ch' is
  · nomatch made

theorem Counted.name (counted : s.Counted cs) (c : Nat) (ch : Chan) :
    (s.name c ch).Counted (c :: cs) ∧ (s.name c ch).fgrp = s.fgrp ∧ (s.name c ch).held = s.held := by
  unfold Fds.name
  split
  · rename_i free
    exact counted.newchan (show s.newchan c ch = some _ by rw [Fds.newchan, free])
  · rename_i live
    exact ⟨counted.incref live, rfl, rfl⟩

theorem Counted.cclose (counted : s.Counted (c :: cs)) :
    ∃ s', s.cclose c = some s' ∧ s'.Counted cs ∧ s'.fgrp = s.fgrp ∧ s'.held = s.held := by
  obtain ⟨ch, live⟩ := counted.live (c := c) (by rw [List.count_cons_self]; omega)
  unfold Fds.cclose
  rw [live]
  refine ⟨_, rfl, ⟨fun x => ?_, fun x ch' is => ?_⟩, rfl, rfl⟩
  · have old := counted.count x
    simp only [ref, slots, Function.update_apply, List.count_cons, beq_iff_eq, eq_comm (a := c)] at old ⊢
    by_cases same : x = c
    · subst same
      have pos := counted.pos x ch live
      simp only [live, Option.elim, if_true] at old ⊢
      by_cases last : ch.ref ≤ 1
      · rw [if_pos last]
        dsimp only
        omega
      · rw [if_neg last]
        dsimp only
        omega
    · simp only [if_neg same] at old ⊢
      exact old
  · simp only [Function.update_apply] at is
    split at is
    · split at is
      · nomatch is
      · cases is
        dsimp only
        omega
    · exact counted.pos x ch' is

theorem Counted.closeAll (counted : s.Counted (cs ++ ds)) :
    ∃ s', closeAll cs s = some s' ∧ s'.Counted ds ∧ s'.fgrp = s.fgrp ∧ s'.held = s.held := by
  induction cs generalizing s with
  | nil => exact ⟨s, rfl, counted, rfl, rfl⟩
  | cons c cs ih =>
    obtain ⟨t, closed, counted, fgrp, held⟩ := Counted.cclose counted
    obtain ⟨s', rest, counted, fgrp', held'⟩ := ih counted
    exact ⟨s', by rw [Fds.closeAll, closed]; exact rest, counted, fgrp'.trans fgrp, held'.trans held⟩

theorem slots_set (there : s.fgrp[g]? = some f) (x : Nat) :
    (s.setFgrp g f').slots x + f.fd.count (some x) = s.slots x + f'.fd.count (some x) := by
  obtain ⟨bound, is⟩ := List.getElem?_eq_some_iff.mp there
  have split : s.fgrp = s.fgrp.take g ++ f :: s.fgrp.drop (g + 1) := by
    rw [← is, ← List.drop_eq_getElem_cons bound, List.take_append_drop]
  rw [slots, slots, setFgrp, List.set_eq_take_append_cons_drop, if_pos bound]
  conv_rhs => rw [split]
  simp only [List.map_append, List.map_cons, List.sum_append, List.sum_cons]
  omega

/-- A table is replaced: what its slots hold more or less is gone from the variables or is in them. -/
theorem Counted.setFgrp {cs' : List Nat} (counted : s.Counted cs) (there : s.fgrp[g]? = some f)
    (moved : ∀ x, f'.fd.count (some x) + cs'.count x = f.fd.count (some x) + cs.count x) :
    (s.setFgrp g f').Counted cs' := by
  refine ⟨fun x => ?_, counted.pos⟩
  have old := counted.count x
  have slots : (s.setFgrp g f').slots x + _ = _ := slots_set there x
  have same := moved x
  change s.ref x = _
  change s.ref x = _ at old
  simp only [Fds.setFgrp] at slots ⊢
  omega

end Fds

end Counted

section FgrpRun

open Lib

namespace Fds

variable {s s' : Fds} {c g : Nat} {cs : List Nat} {f : Fgrp} {r : Ret} {more : Bool}

/-- Between calls. -/
structure Inv (s : Fds) : Prop where
  counted : s.Counted []
  ok : ∀ f ∈ s.fgrp, f.Ok

/-- A call that fails leaves the tables, and the references of other calls. -/
structure Kept (s s' : Fds) (r : Ret) : Prop where
  inv : s'.Inv
  failed : ∀ err, r = .error err → s'.fgrp = s.fgrp ∧ s'.held = s.held

/-- The descriptors that a call returns were not open. -/
def Fresh (f : Fgrp) (r : Ret) : Prop := ∀ fds, r = .ok fds → fds.Nodup ∧ ∀ fd ∈ fds, f.slot fd = none

theorem fresh_error (err : String) : Fresh f (.error err) := fun _ is => nomatch is

theorem fresh_one {fd : Nat} (unused : f.slot fd = none) : Fresh f (.ok [fd]) := by
  intro fds is
  cases is
  exact ⟨List.pairwise_singleton _ fd, fun x there => List.mem_singleton.mp there ▸ unused⟩

theorem Inv.unchanged (inv : s.Inv) (counted : s'.Counted []) (fgrp : s'.fgrp = s.fgrp) (held : s'.held = s.held) :
    Kept s s' r :=
  ⟨⟨counted, fgrp ▸ inv.ok⟩, fun _ _ => ⟨fgrp, held⟩⟩

theorem Inv.setFgrp {f' : Fgrp} (inv : s.Inv) {t : Fds} (fgrp : t.fgrp = s.fgrp) (there : s.fgrp[g]? = some f)
    (counted : t.Counted cs) (moved : ∀ x, f'.fd.count (some x) = f.fd.count (some x) + cs.count x) (ok : f'.Ok) :
    (t.setFgrp g f').Inv := by
  refine ⟨counted.setFgrp (fgrp ▸ there) fun x => by rw [moved, List.count_nil]; omega, fun f'' member => ?_⟩
  rcases List.mem_or_eq_of_mem_set member with old | rfl
  · exact inv.ok f'' (fgrp ▸ old)
  · exact ok

theorem Inv.fail {t : Fds} {err : String} (inv : s.Inv) (counted : t.Counted cs) (fgrp : t.fgrp = s.fgrp)
    (held : t.held = s.held) (ran : t.fail cs err = some (s', r)) : Kept s s' r ∧ r = .error err := by
  obtain ⟨t', closed, counted, fgrp', held'⟩ := Counted.closeAll (show t.Counted (cs ++ []) by rwa [List.append_nil])
  rw [Fds.fail, closed] at ran
  cases ran
  exact ⟨inv.unchanged counted (fgrp'.trans fgrp) (held'.trans held), rfl⟩

theorem install_spec {file : Except String (Nat × Chan)} (inv : s.Inv) (there : s.fgrp[g]? = some f)
    (ran : s.install g f file more = some (s', r)) : Kept s s' r ∧ Fresh f r := by
  unfold install at ran
  cases file with
  | error err =>
    cases ran
    exact ⟨inv.unchanged inv.counted rfl rfl, fresh_error err⟩
  | ok file =>
    obtain ⟨c, ch⟩ := file
    dsimp only at ran
    obtain ⟨counted, fgrp, held⟩ := inv.counted.name c ch
    cases got : f.newfd c more with
    | none =>
      rw [got] at ran
      obtain ⟨kept, rfl⟩ := inv.fail counted fgrp held ran
      exact ⟨kept, fresh_error _⟩
    | some new =>
      obtain ⟨f', fd⟩ := new
      rw [got] at ran
      cases ran
      have handed := Fgrp.newfd_spec (inv.ok f (List.mem_of_getElem? there)) got
      refine ⟨⟨inv.setFgrp fgrp there counted (fun x => ?_) handed.ok, fun err is => nomatch is⟩, fresh_one handed.unused⟩
      rw [handed.count, List.count_singleton]
      simp only [beq_iff_eq, eq_comm (a := c)]

/-- What the callers of `fdtochan` have then. -/
inductive Got (s : Fds) (f : Fgrp) (fd : Int) : Fds → Except String Nat → Prop
  | ok {c : Nat} (valid : 0 ≤ fd) (used : f.slot fd.toNat = some c) (counted : (s.incref c).Counted [c]) :
    Got s f fd (s.incref c) (.ok c)
  | error {s' : Fds} {err : String} (counted : s'.Counted []) (fgrp : s'.fgrp = s.fgrp) (held : s'.held = s.held) :
    Got s f fd s' (.error err)

theorem fdtochan_spec {fd : Int} {mode : Option Nat} {chkmnt : Bool} {o : Except String Nat} (inv : s.Inv)
    (ran : s.fdtochan f fd mode chkmnt = some (s', o)) : Got s f fd s' o := by
  unfold fdtochan at ran
  split at ran
  · cases ran
    exact .error inv.counted rfl rfl
  · rename_i c found
    split at found
    · nomatch found
    · rename_i range
      cases live : s.chan c with
      | none =>
        rw [live] at ran
        nomatch ran
      | some ch =>
        simp only [live] at ran
        have counted := inv.counted.incref live
        split at ran
        · cases ran
          exact .ok (by omega) found counted
        · obtain ⟨t, closed, counted, fgrp, held⟩ := Counted.cclose counted
          rw [closed] at ran
          cases ran
          exact .error counted fgrp held

theorem auth_incref : ((s.incref c).chan c).any Chan.auth = (s.chan c).any Chan.auth := by
  simp only [incref, Function.update_self]
  cases s.chan c <;> rfl

theorem kdup_spec {old new : Int} (inv : s.Inv) (there : s.fgrp[g]? = some f)
    (plain : 0 ≤ old → ∀ c, f.slot old.toNat = some c → (s.chan c).any Chan.auth = false)
    (ran : s.kdup g f old new more = some (s', r)) : Kept s s' r ∧ (new = -1 → Fresh f r) := by
  have ok := inv.ok f (List.mem_of_getElem? there)
  unfold kdup at ran
  cases first : s.fdtochan f old none false with
  | none =>
    rw [first] at ran
    nomatch ran
  | some got =>
    obtain ⟨t, o⟩ := got
    rw [first] at ran
    cases fdtochan_spec inv first with
    | error counted fgrp held =>
      cases ran
      exact ⟨inv.unchanged counted fgrp held, fun _ => fresh_error _⟩
    | @ok c valid used counted =>
      simp only [auth_incref, plain valid c used, Bool.false_eq_true, if_false] at ran
      by_cases chosen : new = -1
      · rw [if_pos chosen] at ran
        cases got : f.newfd c more with
        | none =>
          rw [got] at ran
          obtain ⟨kept, rfl⟩ := inv.fail counted rfl rfl ran
          exact ⟨kept, fun _ => fresh_error _⟩
        | some new =>
          obtain ⟨f', fd⟩ := new
          rw [got] at ran
          cases ran
          have handed := Fgrp.newfd_spec ok got
          refine ⟨⟨inv.setFgrp rfl there counted (fun x => ?_) handed.ok, fun err is => nomatch is⟩, fun _ => fresh_one handed.unused⟩
          rw [handed.count, List.count_singleton]
          simp only [beq_iff_eq, eq_comm (a := c)]
      · rw [if_neg chosen] at ran
        refine ⟨?_, fun is => absurd is chosen⟩
        split at ran
        · exact (inv.fail counted rfl rfl ran).1
        · rename_i f' grew
          split at grew
          · nomatch grew
          · obtain ⟨grown, room, ok'⟩ := Fgrp.growfd_spec ok grew
            -- the channel that the slot held is closed, and the one that was looked up takes its place
            have counted' : ((s.incref c).setFgrp g (f'.put new.toNat c)).Counted ((f'.slot new.toNat).toList ++ []) := by
              refine counted.setFgrp there fun x => ?_
              rw [List.append_nil, Fgrp.put_count room, grown.count, List.count_singleton]
              simp only [beq_iff_eq, eq_comm (a := c)]
            obtain ⟨t, closed, counted', fgrp, held⟩ := Counted.closeAll counted'
            rw [closed] at ran
            cases ran
            refine ⟨⟨counted', fun f'' member => ?_⟩, fun err is => nomatch is⟩
            rw [fgrp] at member
            rcases List.mem_or_eq_of_mem_set member with old | rfl
            · exact inv.ok f'' old
            · exact Fgrp.put_ok ok' room

/-- `walk` leads to a new channel, and closes the one it came from. -/
theorem Counted.walk {d : Nat} {ch : Chan} {ds : List Nat} (counted : s.Counted cs) (perm : cs.Perm (c :: ds))
    (ran : ((s.newchan d ch).bind fun s => s.cclose c) = some s') :
    s'.Counted (d :: ds) ∧ s'.fgrp = s.fgrp ∧ s'.held = s.held := by
  obtain ⟨t, made, closed⟩ := Option.bind_eq_some_iff.mp ran
  obtain ⟨counted, fgrp, held⟩ := counted.newchan made
  have swapped : t.Counted (c :: d :: ds) := counted.perm ((perm.cons d).trans (List.Perm.swap c d ds))
  obtain ⟨t', closed', counted, fgrp', held'⟩ := Counted.cclose swapped
  rw [closed] at closed'
  cases closed'
  exact ⟨counted, fgrp'.trans fgrp, held'.trans held⟩

/-- What `kpipe` has before it asks for descriptors. -/
inductive Piped (s : Fds) (dev : Pipes) : Fds → Except String (Nat × Nat) → Prop
  | ok {s' : Fds} {c₀ c₁ : Nat} (works : dev.works) (counted : s'.Counted [c₀, c₁]) (fgrp : s'.fgrp = s.fgrp) (held : s'.held = s.held) :
    Piped s dev s' (.ok (c₀, c₁))
  | error {s' : Fds} {err : String} (counted : s'.Counted []) (fgrp : s'.fgrp = s.fgrp) (held : s'.held = s.held) :
    Piped s dev s' (.error err)

theorem Counted.failed {t : Fds} {dev : Pipes} {err : String} {o : Except String (Nat × Nat)} (counted : t.Counted cs)
    (fgrp : t.fgrp = s.fgrp) (held : t.held = s.held)
    (ran : ((Fds.closeAll cs t).map fun s => (s, Except.error err)) = some (s', o)) : Piped s dev s' o := by
  obtain ⟨t', closed, counted, fgrp', held'⟩ := Counted.closeAll (show t.Counted (cs ++ []) by rwa [List.append_nil])
  rw [closed] at ran
  cases ran
  exact .error counted (fgrp'.trans fgrp) (held'.trans held)

theorem pipe_spec {dev : Pipes} {dir data : Chan} {o : Except String (Nat × Nat)} (inv : s.Inv)
    (ran : s.pipe dev dir data = some (s', o)) : Piped s dev s' o := by
  unfold pipe at ran
  dsimp only at ran
  cases attach : dev.attach with
  | error err =>
    rw [attach] at ran
    cases ran
    exact .error inv.counted rfl rfl
  | ok c₀ =>
    rw [attach] at ran
    obtain ⟨t₁, made₀, ran⟩ := Option.bind_eq_some_iff.mp ran
    obtain ⟨counted, fgrp, held⟩ := inv.counted.newchan made₀
    cases clone : dev.clone with
    | error err =>
      rw [clone] at ran
      exact counted.failed fgrp held ran
    | ok c₁ =>
      rw [clone] at ran
      obtain ⟨t₂, made₁, ran⟩ := Option.bind_eq_some_iff.mp ran
      obtain ⟨counted, fgrp', held'⟩ := counted.newchan made₁
      replace fgrp := fgrp'.trans fgrp
      replace held := held'.trans held
      replace counted := counted.perm (List.Perm.swap c₀ c₁ [])
      cases walk₀ : dev.walk₀ with
      | error err =>
        rw [walk₀] at ran
        exact counted.failed fgrp held ran
      | ok d₀ =>
        rw [walk₀] at ran
        obtain ⟨t₃, walked₀, ran⟩ := Option.bind_eq_some_iff.mp ran
        obtain ⟨counted, fgrp', held'⟩ := counted.walk (List.Perm.refl _) walked₀
        replace fgrp := fgrp'.trans fgrp
        replace held := held'.trans held
        cases walk₁ : dev.walk₁ with
        | error err =>
          rw [walk₁] at ran
          exact counted.failed fgrp held ran
        | ok d₁ =>
          rw [walk₁] at ran
          obtain ⟨t₄, walked₁, ran⟩ := Option.bind_eq_some_iff.mp ran
          obtain ⟨counted, fgrp', held'⟩ := counted.walk (List.Perm.swap c₁ d₀ []) walked₁
          replace fgrp := fgrp'.trans fgrp
          replace held := held'.trans held
          replace counted := counted.perm (List.Perm.swap d₀ d₁ [])
          cases open₀ : dev.open₀ <;> cases open₁ : dev.open₁ <;> rw [open₀, open₁] at ran
          case ok.ok =>
            cases ran
            exact .ok (by simp [Pipes.works, attach, clone, walk₀, walk₁, open₀, open₁, Except.isOk, Except.toBool]) counted fgrp held
          all_goals exact counted.failed fgrp held ran

theorem kpipe_spec {dev : Pipes} {dir data : Chan} {more₀ more₁ : Bool} (inv : s.Inv) (there : s.fgrp[g]? = some f)
    (roomy : dev.works → f.free ≠ 1 ∨ (f.nfd < maxnfd ∧ more₁))
    (ran : s.kpipe g f dev dir data more₀ more₁ = some (s', r)) : Kept s s' r ∧ Fresh f r := by
  unfold kpipe at ran
  cases piped : s.pipe dev dir data with
  | none =>
    rw [piped] at ran
    nomatch ran
  | some o =>
    obtain ⟨t, o⟩ := o
    rw [piped] at ran
    cases pipe_spec inv piped with
    | error counted fgrp held =>
      cases ran
      exact ⟨inv.unchanged counted fgrp held, fresh_error _⟩
    | @ok c₀ c₁ works counted fgrp held =>
      have ok := inv.ok f (List.mem_of_getElem? there)
      dsimp only at ran
      cases first : f.newfd c₀ more₀ with
      | none =>
        rw [first] at ran
        obtain ⟨kept, rfl⟩ := inv.fail counted fgrp held ran
        exact ⟨kept, fresh_error _⟩
      | some new =>
        obtain ⟨f₁, fd₀⟩ := new
        have handed₀ := Fgrp.newfd_spec ok first
        obtain ⟨⟨f₂, fd₁⟩, second⟩ := Option.isSome_iff_exists.mp (Fgrp.newfd_again c₁ ok first (roomy works))
        have handed₁ := Fgrp.newfd_spec handed₀.ok second
        simp only [first, second] at ran
        cases ran
        refine ⟨⟨inv.setFgrp fgrp there counted (fun x => ?_) handed₁.ok, fun err is => nomatch is⟩, fun fds is => ?_⟩
        · rw [handed₁.count, handed₀.count, List.count_cons, List.count_singleton]
          simp only [beq_iff_eq, eq_comm (a := c₀), eq_comm (a := c₁)]
          omega
        · cases is
          have unused := handed₁.unused
          rw [handed₀.slot] at unused
          split at unused
          · nomatch unused
          · rename_i other
            refine ⟨by simpa using Ne.symm other, fun fd member => ?_⟩
            simp only [List.mem_cons, List.not_mem_nil, or_false] at member
            rcases member with rfl | rfl
            · exact handed₀.unused
            · exact unused

theorem kclose_spec {fd : Int} (inv : s.Inv) (there : s.fgrp[g]? = some f)
    (ran : s.kclose g f fd = some (s', r)) : Kept s s' r := by
  unfold kclose at ran
  split at ran
  · cases ran
    exact inv.unchanged inv.counted rfl rfl
  · rename_i c used
    split at used
    · nomatch used
    · have counted : (s.setFgrp g (f.clear fd.toNat)).Counted [c] := by
        refine inv.counted.setFgrp there fun x => ?_
        have count := Fgrp.clear_count used x
        simp only [List.count_singleton, List.count_nil, beq_iff_eq, eq_comm (a := c)]
        omega
      obtain ⟨t, closed, counted, fgrp, held⟩ := Counted.cclose counted
      rw [closed] at ran
      cases ran
      refine ⟨⟨counted, fun f' member => ?_⟩, fun err is => nomatch is⟩
      rw [fgrp] at member
      rcases List.mem_or_eq_of_mem_set member with old | rfl
      · exact inv.ok f' old
      · exact Fgrp.clear_ok (inv.ok f (List.mem_of_getElem? there)) used

theorem slots_pos {fd : Nat} (member : f ∈ s.fgrp) (used : f.slot fd = some c) : 0 < s.slots c := by
  have room := Fgrp.slot_lt used
  have here : f.fd[fd] = some c := by
    rw [Fgrp.slot, List.getElem?_eq_getElem room] at used
    exact used
  have pos : 0 < f.fd.count (some c) := List.count_pos_iff.mpr (here ▸ List.getElem_mem room)
  exact List.sum_pos_iff_exists_pos_nat.mpr ⟨_, List.mem_map_of_mem member, pos⟩

theorem Counted.incref_all {cs ds : List Nat} (counted : s.Counted ds) (live : ∀ c ∈ cs, 0 < s.slots c) :
    (cs.foldl Fds.incref s).Counted (cs ++ ds) ∧ (cs.foldl Fds.incref s).fgrp = s.fgrp ∧
      (cs.foldl Fds.incref s).held = s.held := by
  induction cs generalizing s ds with
  | nil => exact ⟨counted, rfl, rfl⟩
  | cons c cs ih =>
    obtain ⟨ch, there⟩ := counted.live (c := c) (by have := live c List.mem_cons_self; omega)
    obtain ⟨counted, fgrp, held⟩ := ih (counted.incref there) fun c' member => live c' (List.mem_cons_of_mem _ member)
    exact ⟨counted.perm List.perm_middle, fgrp, held⟩

theorem dupfgrp_spec (inv : s.Inv) (member : f ∈ s.fgrp) (ran : s.dupfgrp f more = (s', r)) : Kept s s' r := by
  unfold dupfgrp at ran
  have ok := inv.ok f member
  split at ran
  · cases ran
    have live : ∀ c ∈ f.chans, 0 < s.slots c := by
      intro c there
      obtain ⟨i, used⟩ := (Fgrp.mem_chans ok).mp there
      exact slots_pos member used
    obtain ⟨counted, fgrp, held⟩ := inv.counted.incref_all live
    refine ⟨⟨⟨fun c => ?_, counted.pos⟩, fun f' member' => ?_⟩, fun err is => nomatch is⟩
    · have count := counted.count c
      rw [List.append_nil, Fgrp.chans_count ok, slots, fgrp] at count
      simp only [ref, slots, List.map_append, List.map_singleton, List.sum_append, List.sum_singleton,
        Fgrp.dup_count ok, List.count_nil] at count ⊢
      omega
    · rcases List.mem_append.mp member' with old | new
      · exact inv.ok f' old
      · rw [List.mem_singleton.mp new]
        exact Fgrp.dup_ok ok
  · cases ran
    exact inv.unchanged inv.counted rfl rfl

theorem start_spec {fd : Int} {mode : Option Nat} {chkmnt : Bool} (inv : s.Inv)
    (ran : (FdCall.start g fd mode chkmnt).run s = some (s', r)) : Kept s s' r := by
  obtain ⟨f, there, ran⟩ := Option.bind_eq_some_iff.mp ran
  cases first : s.fdtochan f fd mode chkmnt with
  | none =>
    rw [first] at ran
    nomatch ran
  | some got =>
    obtain ⟨t, o⟩ := got
    rw [first] at ran
    cases fdtochan_spec inv first with
    | error counted fgrp held =>
      cases ran
      exact inv.unchanged counted fgrp held
    | @ok c valid used counted =>
      cases ran
      refine ⟨⟨⟨fun x => ?_, counted.pos⟩, inv.ok⟩, fun err is => nomatch is⟩
      have count := counted.count x
      change (s.incref c).ref x = (s.incref c).slots x + (c :: s.held).count x + _
      rw [count, List.count_cons (l := s.held), List.count_singleton, List.count_nil]
      change _ + s.held.count x + _ = _ + (s.held.count x + _) + 0
      omega

theorem finish_spec (inv : s.Inv) (ran : (FdCall.finish c).run s = some (s', r)) : Kept s s' r := by
  simp only [FdCall.run] at ran
  split at ran
  · rename_i held
    have counted : ({ s with held := s.held.erase c } : Fds).Counted [c] := by
      refine ⟨fun x => ?_, inv.counted.pos⟩
      have count := inv.counted.count x
      have pos := List.count_pos_iff.mpr held
      change s.ref x = s.slots x + (s.held.erase c).count x + _
      rw [count, List.count_erase, List.count_singleton, List.count_nil]
      by_cases same : c = x
      · subst same
        simp
        omega
      · simp [same]
    obtain ⟨t, closed, counted, fgrp, held⟩ := Counted.cclose counted
    rw [closed] at ran
    cases ran
    exact ⟨⟨counted, fgrp ▸ inv.ok⟩, fun err is => nomatch is⟩
  · nomatch ran

/-- Each open descriptor is within `maxfd` and the slots, all below `minfd` are
open, and references are those of slots and of calls in progress. -/
structure Good (s : Fds) : Prop where
  top : ∀ f ∈ s.fgrp, ∀ fd c, f.slot fd = some c → fd ≤ f.maxfd ∧ fd < f.nfd
  low : ∀ f ∈ s.fgrp, ∀ fd < f.minfd, (f.slot fd).isSome
  refs : ∀ c, s.ref c = s.slots c + s.held.count c

theorem Inv.good (inv : s.Inv) : s.Good where
  top f member fd c used := ⟨(inv.ok f member).top fd c used, Fgrp.slot_lt used⟩
  low f member := (inv.ok f member).low
  refs c := by rw [inv.counted.count, List.count_nil, Nat.add_zero]

end Fds

namespace FdCall

variable {s s' : Fds} {e : FdCall} {r : Ret}

/-- `kdup` is not called on an authentication file, and `kpipe` not when there is
one descriptor left and no memory for more. -/
def Careful (e : FdCall) (s : Fds) : Prop :=
  match e with
  | kdup g old _ _ => ∀ f ∈ s.fgrp[g]?, 0 ≤ old → ∀ c ∈ f.slot old.toNat, (s.chan c).any Chan.auth = false
  | kpipe g dev _ _ _ more₁ => ∀ f ∈ s.fgrp[g]?, dev.works → f.free ≠ 1 ∨ f.nfd < maxnfd ∧ more₁
  | _ => True

instance decidableCareful : (e : FdCall) → (s : Fds) → Decidable (e.Careful s)
  | kdup g old _ _, s => inferInstanceAs
    (Decidable (∀ f ∈ s.fgrp[g]?, 0 ≤ old → ∀ c ∈ f.slot old.toNat, (s.chan c).any Chan.auth = false))
  | kpipe g dev _ _ _ more₁, s => inferInstanceAs
    (Decidable (∀ f ∈ s.fgrp[g]?, dev.works → f.free ≠ 1 ∨ f.nfd < maxnfd ∧ more₁))
  | kopen .., _ | kcreate .., _ | kclose .., _ | dupfgrp .., _ | start .., _ | finish _, _ => inferInstanceAs (Decidable True)

/-- What a call does right: a new descriptor was not open, and a call that fails
changes neither the tables nor any count. -/
structure Right (e : FdCall) (s s' : Fds) (r : Ret) : Prop where
  fresh : e.hands → ∀ f ∈ s.fgrp[e.group]?, ∀ fds, r = .ok fds → fds.Nodup ∧ ∀ fd ∈ fds, f.slot fd = none
  failed : ∀ err, r = .error err → s'.fgrp = s.fgrp ∧ ∀ c, s'.ref c = s.ref c

theorem run_spec (inv : s.Inv) (careful : e.Careful s) (ran : e.run s = some (s', r)) :
    Fds.Kept s s' r ∧ (e.hands → ∀ f ∈ s.fgrp[e.group]?, Fds.Fresh f r) := by
  cases e with
  | kopen g mode file more =>
    obtain ⟨f, there, ran⟩ := Option.bind_eq_some_iff.mp ran
    have both : Fds.Kept s s' r ∧ Fds.Fresh f r := by
      unfold Fds.kopen at ran
      split at ran
      · cases ran
        exact ⟨inv.unchanged inv.counted rfl rfl, Fds.fresh_error _⟩
      · exact Fds.install_spec inv there ran
    exact ⟨both.1, fun _ f' is => Option.some.inj (there.symm.trans is) ▸ both.2⟩
  | kcreate g mode file more =>
    obtain ⟨f, there, ran⟩ := Option.bind_eq_some_iff.mp ran
    have both : Fds.Kept s s' r ∧ Fds.Fresh f r := by
      unfold Fds.kcreate at ran
      split at ran
      · cases ran
        exact ⟨inv.unchanged inv.counted rfl rfl, Fds.fresh_error _⟩
      · exact Fds.install_spec inv there ran
    exact ⟨both.1, fun _ f' is => Option.some.inj (there.symm.trans is) ▸ both.2⟩
  | kdup g old new more =>
    obtain ⟨f, there, ran⟩ := Option.bind_eq_some_iff.mp ran
    obtain ⟨kept, fresh⟩ := Fds.kdup_spec inv there (careful f there) ran
    exact ⟨kept, fun chosen f' is => Option.some.inj (there.symm.trans is) ▸ fresh (beq_iff_eq.mp chosen)⟩
  | kpipe g dev dir data more₀ more₁ =>
    obtain ⟨f, there, ran⟩ := Option.bind_eq_some_iff.mp ran
    obtain ⟨kept, fresh⟩ := Fds.kpipe_spec inv there (careful f there) ran
    exact ⟨kept, fun _ f' is => Option.some.inj (there.symm.trans is) ▸ fresh⟩
  | kclose g fd =>
    obtain ⟨f, there, ran⟩ := Option.bind_eq_some_iff.mp ran
    exact ⟨Fds.kclose_spec inv there ran, fun no => nomatch no⟩
  | dupfgrp g more =>
    obtain ⟨f, there, ran⟩ := Option.map_eq_some_iff.mp ran
    exact ⟨Fds.dupfgrp_spec inv (List.mem_of_getElem? there) ran, fun no => nomatch no⟩
  | start g fd mode chkmnt => exact ⟨Fds.start_spec inv ran, fun no => nomatch no⟩
  | finish c => exact ⟨Fds.finish_spec inv ran, fun no => nomatch no⟩

theorem Right.of_kept (inv : s.Inv) (kept : Fds.Kept s s' r) (fresh : e.hands → ∀ f ∈ s.fgrp[e.group]?, Fds.Fresh f r) :
    e.Right s s' r := by
  refine ⟨fresh, fun err is => ?_⟩
  obtain ⟨fgrp, held⟩ := kept.failed err is
  refine ⟨fgrp, fun c => ?_⟩
  rw [kept.inv.good.refs, inv.good.refs, Fds.slots, Fds.slots, fgrp, held]

end FdCall

open FdCall

namespace Fds

variable {s : Fds}

theorem inv_init : init.Inv := by
  refine ⟨⟨fun c => ?_, fun c ch live => nomatch live⟩, fun f member => ?_⟩
  · simp [ref, slots, init, Fgrp.newfgrp, List.count_replicate]
  · rw [List.mem_singleton.mp member]
    exact Fgrp.ok_newfgrp

/-- In every run of calls that are careful, the tables and the counts are right,
and so is what the next such call does. -/
theorem fds_ok (run : Run FdCall.exec Careful init s) :
    s.Good ∧ ∀ (e : FdCall) (s' : Fds) (r : Ret), e.Careful s → e.run s = some (s', r) → e.Right s s' r := by
  have inv : s.Inv := by
    refine run.invariant Inv inv_init fun inv careful ran => ?_
    obtain ⟨⟨s', r⟩, called, rfl⟩ := Option.map_eq_some_iff.mp ran
    exact (run_spec inv careful called).1.inv
  refine ⟨inv.good, fun e s' r careful ran => ?_⟩
  obtain ⟨kept, fresh⟩ := run_spec inv careful ran
  exact Right.of_kept inv kept fresh

/-- A file that another descriptor is made for, a pipe, and a close. -/
theorem fds_ok_pipe : ∃ s, Run FdCall.exec Careful init s ∧
    (∀ f ∈ s.fgrp, (f.slot 0, f.slot 1, f.slot 2, f.slot 3) = (none, some 3, some 4, some 0)) ∧ s.ref 0 = 1 ∧ s.Good := by
  let dev : Pipes := ⟨.ok 1, .ok 2, .ok 3, .ok 4, .ok (), .ok ()⟩
  have run₀ : Run FdCall.exec Careful init init := Run.start
  have run₁ := run₀.step (a := FdCall.kopen 0 0 (.ok (0, ⟨0, 0, false, false⟩)) true) trivial rfl
  have run₂ := run₁.step (a := FdCall.kdup 0 0 3 true) (by decide) rfl
  have run₃ := run₂.step (a := FdCall.kpipe 0 dev ⟨0, 0, false, false⟩ ⟨0, 2, false, false⟩ true true) (by decide) rfl
  have run₄ := run₃.step (a := FdCall.kclose 0 0) trivial rfl
  exact ⟨_, run₄, by decide, by decide, (fds_ok run₄).1⟩

/-- `kdup` of an authentication file leaves a reference behind, and `kpipe` with
one descriptor left frees it below `minfd`. -/
theorem fds_lost : (∃ s, Run FdCall.exec (fun _ _ => True) init s ∧ s.held = [] ∧ s.slots 0 = 1 ∧ s.ref 0 = 2 ∧ ¬s.Good) ∧
    ∃ s, Run FdCall.exec (fun _ _ => True) init s ∧ (∀ f ∈ s.fgrp, f.minfd = 20 ∧ f.slot 19 = none) ∧ ¬s.Good := by
  have run₀ : Run FdCall.exec (fun _ _ => True) init init := Run.start
  constructor
  · have run₁ := run₀.step (a := FdCall.kopen 0 0 (.ok (0, ⟨0, 0, true, false⟩)) true) trivial rfl
    have run₂ := run₁.step (a := FdCall.kdup 0 0 (-1) true) trivial rfl
    refine ⟨_, run₂, by decide, by decide, by decide, fun good => ?_⟩
    have refs := good.refs 0
    revert refs
    decide
  · let dev : Pipes := ⟨.ok 1, .ok 2, .ok 3, .ok 4, .ok (), .ok ()⟩
    let file : Chan := ⟨0, 0, false, false⟩
    let calls : List FdCall := [.kopen 0 0 (.ok (0, file)) true] ++
      (List.range 18).map (fun i => .kdup 0 0 (i + 1 : Nat) true) ++ [.kpipe 0 dev file file true false]
    have lost : (Run.steps FdCall.exec calls init).map (fun s => s.fgrp.map fun f => (f.minfd, f.slot 19)) =
        some [(20, none)] := by decide
    obtain ⟨s, ran, fgrp⟩ := Option.map_eq_some_iff.mp lost
    have each : ∀ f ∈ s.fgrp, f.minfd = 20 ∧ f.slot 19 = none := by
      intro f member
      have is : (f.minfd, f.slot 19) ∈ s.fgrp.map fun f => (f.minfd, f.slot 19) := List.mem_map_of_mem member
      rw [fgrp] at is
      exact Prod.mk.inj (List.mem_singleton.mp is)
    refine ⟨s, Run.of_steps ran, each, fun good => ?_⟩
    obtain ⟨f, member, _⟩ := List.mem_map.mp (fgrp ▸ List.mem_singleton_self _)
    obtain ⟨minfd, empty⟩ := each f member
    have used := good.low f member 19 (by omega)
    rw [empty] at used
    nomatch used

end Fds

end FgrpRun

end Inferno.Fd
