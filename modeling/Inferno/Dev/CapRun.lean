import Inferno.Dev.Cap
import Inferno.Lib.Run

namespace Inferno.Dev

open Lib Strings

namespace Cap

variable {hmacSha1 : List UInt8 → List UInt8 → Hash} {a : List UInt8} {s s' : Cap} {use : Use} {up : Nat}

/-- The hash is of what is before the last `@`, and the names are in there. -/
theorem parseuse_spec (value : parseuse hmacSha1 a = some use) :
    ∃ part key, cstr a 0 = part ++ atSign :: key ∧ atSign ∉ key ∧ use.digest = hmacSha1 part key ∧
      (use.n = 1 ∧ part = use.users₁ ∧ atSign ∉ use.users₁ ∨
        use.n = 2 ∧ part = use.users₀ ++ atSign :: use.users₁ ∧ atSign ∉ use.users₀ ∧ atSign ∉ use.users₁) := by
  unfold parseuse at value
  obtain ⟨_, value⟩ := Option.ite_none_left_eq_some.mp value
  dsimp only at value
  cases found : strrchr (a ++ [0]) atSign with
  | none =>
    rw [found] at value
    nomatch value
  | some p =>
    rw [found] at value
    obtain ⟨part, after, split, rfl, ended, live, off⟩ := strrchr_spec found
    have text : cstr a 0 = part ++ atSign :: cstr after 0 := by rw [← cstr_end, split, cstr_cons live ended]
    dsimp only at value
    rw [split, List.set_append_right _ _ le_rfl, Nat.sub_self, List.set_cons_zero, cstr_after, cstr_nul ended] at value
    obtain ⟨_, value⟩ := Option.ite_none_left_eq_some.mp value
    obtain ⟨fields, value⟩ := Option.ite_none_left_eq_some.mp value
    obtain ⟨_, value⟩ := Option.ite_none_left_eq_some.mp value
    cases value
    obtain ⟨one, two⟩ := getfields_spec part after ended live (by decide) rfl
    refine ⟨part, cstr after 0, text, off, rfl, ?_⟩
    by_cases n : (getfields 3 false [atSign.toNat] (part ++ 0 :: after) 0).narg = 1
    · obtain ⟨none_, buf, args⟩ := one n
      left
      have name : cstr (part ++ 0 :: after) 0 = part := cstr_nul ended
      simp only [n, buf, args, if_true, List.getD_cons_zero, name, true_and]
      exact none_
    · have n₂ := not_not.mp fun ne => fields ⟨n, ne⟩
      obtain ⟨u, v, names, offU, offV, buf, args⟩ := two n₂
      right
      have endedU : ∀ b ∈ u, b ≠ 0 := fun b member => ended b (names ▸ List.mem_append_left _ member)
      have endedV : ∀ b ∈ v, b ≠ 0 := fun b member =>
        ended b (names ▸ List.mem_append_right _ (List.mem_cons_of_mem _ member))
      have first : cstr (u ++ 0 :: v ++ 0 :: after) 0 = u := by
        rw [List.append_assoc]
        exact cstr_nul endedU
      have second : cstr (u ++ 0 :: v ++ 0 :: after) (u.length + 1) = v := by
        rw [List.append_assoc, List.cons_append, cstr_after]
        exact cstr_nul endedV
      simp only [n₂, buf, args, List.getD_cons_zero, List.getD_cons_succ, first, second, true_and]
      exact ⟨names, offU, offV⟩

/-- A hash in the list was written, is not expired and was not taken. -/
structure Live (events : List CapEvent) (c : Caps) : Prop where
  written : ∃ opener between first, events = between ++ .hash c.id c.hash opener :: first ∧
    between.countP CapEvent.isTimeout = c.time
  young : c.time ≤ captimeout
  unused : ∀ e ∈ events, e.uses c.id = false
  below : c.id < events.countP CapEvent.isHash

structure Inv (hmacSha1 : List UInt8 → List UInt8 → Hash) (user : Nat → List UInt8) (s : Cap) : Prop where
  ok : s.Ok hmacSha1 user
  opened : ∀ c ∈ s.chan, c.path = .hash → c.opener = s.eve
  live : ∀ c ∈ s.caps, Live s.events c
  ids : (s.caps.map Caps.id).Nodup
  taken : ∀ e ∈ s.events, ∀ id, e.uses id = true → id < s.events.countP CapEvent.isHash

variable {user : Nat → List UInt8}

/-- The events with one more. -/
theorem sound_cons {eve : List UInt8} {events : List CapEvent} {e : CapEvent}
    (sound : ∀ later e earlier, events = later ++ e :: earlier → Sound hmacSha1 eve user earlier e)
    (new : Sound hmacSha1 eve user events e) :
    ∀ later e' earlier, e :: events = later ++ e' :: earlier → Sound hmacSha1 eve user earlier e' := by
  intro later e' earlier split
  cases later with
  | nil =>
    cases split
    exact new
  | cons _ later =>
    cases split
    exact sound later e' earlier rfl

theorem Live.step {c : Caps} {events : List CapEvent} {e : CapEvent} (live : Live events c)
    (time : e.isTimeout = true → c.time + 1 ≤ captimeout) (unused : e.uses c.id = false) :
    Live (e :: events) { c with time := if e.isTimeout then c.time + 1 else c.time } := by
  obtain ⟨⟨opener, between, first, split, count⟩, young, fresh, below⟩ := live
  refine ⟨⟨opener, e :: between, first, by rw [split]; rfl, ?_⟩, ?_, List.forall_mem_cons.mpr ⟨unused, fresh⟩, ?_⟩
  · rw [List.countP_cons, count]
    split <;> rfl
  · dsimp only
    split
    · exact time ‹_›
    · exact young
  · rw [List.countP_cons]
    exact Nat.lt_add_right _ below

theorem expire_ids (caps : List Caps) : ((expire caps).map Caps.id).Sublist (caps.map Caps.id) := by
  induction caps with
  | nil => exact List.Sublist.slnil
  | cons c caps ih =>
    unfold expire at ih ⊢
    by_cases old : c.time + 1 > captimeout
    · simp only [List.filterMap_cons, old, if_true, List.map_cons]
      exact ih.cons _
    · simp only [List.filterMap_cons, old, if_false, List.map_cons]
      exact ih.cons_cons _

namespace Inv

theorem capopen {path : CapQid} {omode : Nat} (inv : s.Inv hmacSha1 user) :
    (s.capopen up path omode).1.Inv hmacSha1 user := by
  have push : ∀ c : CapChan, (c.path = .hash → c.opener = s.eve) → Inv hmacSha1 user { s with chan := s.chan ++ [c] } :=
    fun c opener => ⟨⟨inv.ok.users, inv.ok.sound, inv.ok.once, inv.ok.watched⟩,
      List.forall_mem_append.mpr ⟨inv.opened, List.forall_mem_singleton.mpr opener⟩,
      inv.live, inv.ids, inv.taken⟩
  unfold Cap.capopen
  dsimp only
  split
  · rename_i dir
    split
    · exact inv
    · exact push _ fun hash => CapQid.noConfusion (dir.symm.trans hash)
  · split
    · exact inv
    · rename_i allowed
      split
      · exact inv
      · refine push _ fun hash => ?_
        have eve : s.iseve up ≠ false := fun no => allowed ⟨hash, no⟩
        rw [Bool.ne_false_iff] at eve
        exact (eq_of_beq eve).symm

theorem capwatch (inv : s.Inv hmacSha1 user) : s.capwatch.Inv hmacSha1 user := by
  obtain ⟨⟨users, sound, once, watched⟩, opened, live, ids, taken⟩ := inv
  refine ⟨⟨users, sound_cons sound trivial, once, fun some_ => ?_⟩, opened, fun c member => ?_,
    ids.sublist (expire_ids _), List.forall_mem_cons.mpr ⟨nofun, taken⟩⟩
  · have full : (expire s.caps).isEmpty = false := Bool.eq_false_iff.mpr fun empty => some_ (List.isEmpty_iff.mp empty)
    simp [Cap.capwatch, full]
  · obtain ⟨c', here, kept⟩ := List.mem_filterMap.mp member
    obtain ⟨young, kept⟩ := Option.ite_none_left_eq_some.mp kept
    cases kept
    exact (live c' here).step (e := .timeout) (fun _ => Nat.not_lt.mp young) rfl

theorem capwritehash {opener : List UInt8} {more : Bool} (inv : s.Inv hmacSha1 user) (eve : opener = s.eve)
    (ran : s.capwritehash opener a more = some s') : s'.Inv hmacSha1 user := by
  unfold Cap.capwritehash at ran
  split at ran
  · split at ran
    · cases ran
      obtain ⟨⟨users, sound, once, watched⟩, opened, live, ids, taken⟩ := inv
      refine ⟨⟨users, sound_cons sound ⟨rfl, eve⟩, once, fun _ => rfl⟩, opened,
        List.forall_mem_cons.mpr ⟨?_, fun c member => ?_⟩, ?_, ?_⟩
      · refine ⟨⟨opener, [], s.events, rfl, rfl⟩, Nat.zero_le _, List.forall_mem_cons.mpr ⟨rfl, fun e member => ?_⟩, ?_⟩
        · exact Bool.eq_false_iff.mpr fun uses => Nat.lt_irrefl _ (taken e member _ uses)
        · rw [List.countP_cons_of_pos rfl]
          exact Nat.lt_succ_self _
      · exact (live c member).step nofun rfl
      · refine List.nodup_cons.mpr ⟨fun member => ?_, ids⟩
        obtain ⟨c, here, same⟩ := List.mem_map.mp member
        exact Nat.lt_irrefl _ (same ▸ (live c here).below)
      · refine List.forall_mem_cons.mpr ⟨nofun, fun e member id uses => ?_⟩
        rw [List.countP_cons_of_pos rfl]
        exact Nat.lt_succ_of_lt (taken e member id uses)
    · nomatch ran
  · nomatch ran

/-- A hash leaves the list with the event that takes it. -/
theorem taken_ (inv : s.Inv hmacSha1 user) {c : Caps} {digest : Hash} {name : Option (List UInt8)}
    (found : s.caps.find? (·.hash = digest) = some c) {text part key : List UInt8} {user' : Nat → List UInt8}
    (names : cstr text 0 = part ++ atSign :: key) (last : atSign ∉ key) (value : digest = hmacSha1 part key)
    (new : ∀ v, name = some v → atSign ∉ v ∧ (part = v ∨ part = s.user up ++ atSign :: v ∧ atSign ∉ s.user up))
    (changed : ∀ p, user' p = userOf user p (.use up text c.id name :: s.events)) :
    Inv hmacSha1 user { s with caps := s.caps.eraseP (·.hash = digest), user := user',
                               events := .use up text c.id name :: s.events } := by
  obtain ⟨⟨users, sound, once, watched⟩, opened, live, ids, taken⟩ := inv
  obtain ⟨same, as, bs, split, before⟩ := List.find?_eq_some_iff_append.mp found
  have erased : s.caps.eraseP (·.hash = digest) = as ++ bs := by
    rw [split, List.eraseP_append_right _ fun b member => by simpa using before b member,
      List.eraseP_cons_of_pos (p := fun c : Caps => decide (c.hash = digest)) same]
  have here := live c (by rw [split]; simp)
  obtain ⟨⟨opener, between, first, written, count⟩, young, unused, below⟩ := here
  rw [split, List.map_append, List.map_cons, List.nodup_middle, ← List.map_append] at ids
  obtain ⟨off, rest⟩ := List.nodup_cons.mp ids
  rw [erased]
  refine ⟨⟨changed, sound_cons sound ⟨unused, part, key, opener, between, first, names, last, ?_, by omega, ?_⟩,
    fun id => ?_, fun some_ => watched ?_⟩, opened, fun c' member => ?_, rest, ?_⟩
  · rw [written, ← value, of_decide_eq_true same]
  · rw [← users up]
    exact new
  · rw [List.countP_cons]
    split
    · rename_i uses
      cases eq_of_beq uses
      have zero : s.events.countP (CapEvent.uses c.id) = 0 := by
        rw [List.countP_eq_zero]
        simpa using unused
      omega
    · exact once id
  · rw [split]
    simp
  · have kept : c' ∈ s.caps := by
      rw [split]
      rcases List.mem_append.mp member with inAs | inBs <;> simp [*]
    refine (live c' kept).step nofun (Bool.eq_false_iff.mpr fun uses => off ?_)
    rw [eq_of_beq uses]
    exact List.mem_map_of_mem member
  · refine List.forall_mem_cons.mpr ⟨fun id uses => ?_, taken⟩
    rw [← eq_of_beq uses]
    exact below

theorem capwriteuse (inv : s.Inv hmacSha1 user) : (s.capwriteuse hmacSha1 up a).1.Inv hmacSha1 user := by
  unfold Cap.capwriteuse
  cases parsed : parseuse hmacSha1 a with
  | none => exact inv
  | some use =>
    obtain ⟨part, key, names, last, value, form⟩ := parseuse_spec parsed
    dsimp only
    cases found : s.caps.find? (·.hash = use.digest) with
    | none => exact inv
    | some c =>
      dsimp only
      split
      · exact inv.taken_ found names last value nofun fun p => inv.ok.users p
      · rename_i may
        refine inv.taken_ found names last value ?_ fun p => ?_
        · rintro v ⟨⟩
          rcases form with ⟨_, same, off⟩ | ⟨two, same, off₀, off₁⟩
          · exact ⟨off, Or.inl same⟩
          · have mine : s.user up = use.users₀ := not_not.mp fun other => may ⟨two, other⟩
            rw [mine]
            exact ⟨off₁, Or.inr ⟨same, off₀⟩⟩
        · rw [Function.update_apply]
          unfold userOf
          simp only [eq_comm, inv.ok.users]

theorem exec {act : CapAct} (inv : s.Inv hmacSha1 user) (ran : act.exec hmacSha1 s = some s') :
    s'.Inv hmacSha1 user := by
  cases act with
  | open_ up path omode =>
    cases ran
    exact inv.capopen
  | write up c buf more =>
    obtain ⟨ch, at_, value⟩ := Option.map_eq_some_iff.mp ran
    subst value
    unfold capwrite
    cases path : ch.path with
    | dir => exact inv
    | hash =>
      dsimp only
      cases wrote : s.capwritehash ch.opener buf more with
      | none => exact inv
      | some s' => exact inv.capwritehash (inv.opened ch (List.mem_of_getElem? at_) path) wrote
    | use => exact inv.capwriteuse
  | timeout =>
    unfold CapAct.exec at ran
    dsimp only at ran
    split at ran
    · cases ran
      exact inv.capwatch
    · nomatch ran

end Inv

/-- In every run a name is changed only by the capability that a hash was written for, and once for a hash. -/
theorem cap_ok {eve : List UInt8} (run : Run (CapAct.exec hmacSha1) (fun _ _ => True) (init eve user) s) :
    s.Ok hmacSha1 user := by
  have inv : s.Inv hmacSha1 user := run.invariant (Inv hmacSha1 user)
    ⟨⟨fun _ => rfl, fun later e earlier split => by simp [init] at split, fun _ => Nat.zero_le _, nofun⟩, nofun, nofun,
      List.nodup_nil, nofun⟩
    fun inv _ ran => inv.exec ran
  exact inv.ok

/-- The host owner `e` writes a hash, and the process 1 of `a` becomes `b` with `a@b@k`. -/
theorem cap_ok_use : ∃ s : Cap, s.user 1 = [98] ∧ s.caps.length = 0 ∧
    s.Ok (fun _ _ => Vector.replicate 20 7) fun p => if p = 1 then [97] else [101] := by
  have run₁ : Run (CapAct.exec fun _ _ => Vector.replicate 20 7) (fun _ _ => True)
      (init [101] fun p => if p = 1 then [97] else [101]) _ := Run.start
  have run₂ := run₁.step (a := CapAct.open_ 0 .hash 1) trivial rfl
  have run₃ := run₂.step (a := CapAct.open_ 1 .use 1) trivial rfl
  have run₄ := run₃.step (a := CapAct.write 0 0 (List.replicate 20 7) true) trivial rfl
  have run₅ := run₄.step (a := CapAct.write 1 1 [97, 64, 98, 64, 107] true) trivial rfl
  exact ⟨_, by decide, by decide, cap_ok run₅⟩

end Cap

end Inferno.Dev
