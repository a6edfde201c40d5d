import Inferno.Emu.Walk

namespace Inferno.Emu

variable {dev : Devtab} {pg : Pgrp} {c c' a f : Chan} {m : Mhead} {mh : Option Mhead} {cname n : Name}
  {names rest more : List Name} {nhave : Nat}

/-- The walk of one name on a device. -/
def Devtab.step (dev : Devtab) (c : Chan) (n : Name) : Option Chan := (dev.walk c [n]).bind Walkqid.clone

theorem Devtab.step_some (walked : dev.step c n = some c') : c.isDir ∧ c' = { c with qid := c'.qid } := by
  obtain ⟨wq, found, clone⟩ := Option.bind_eq_some_iff.mp walked
  obtain ⟨dir, q, rfl⟩ := dev.single c n wq found
  cases clone
  exact ⟨dir, rfl⟩

theorem Devtab.step_none : dev.step c n = none ↔ dev.walk c [n] = none := by
  constructor
  · intro lost
    by_contra found
    obtain ⟨wq, found⟩ := Option.ne_none_iff_exists'.mp found
    obtain ⟨-, q, rfl⟩ := dev.single c n wq found
    rw [Devtab.step, found] at lost
    nomatch lost
  · intro lost
    rw [Devtab.step, lost]
    rfl

theorem byOne_cons (walked : dev.step c n = some c') (names : List Name) :
    byOne dev.walk c (n :: names) = ⟨(byOne dev.walk c' names).clone, c'.qid :: (byOne dev.walk c' names).qid⟩ := by
  unfold Devtab.step at walked
  simp only [byOne, walked]

theorem byOne_lost (lost : dev.step c n = none) (names : List Name) : byOne dev.walk c (n :: names) = ⟨none, []⟩ := by
  unfold Devtab.step at lost
  simp only [byOne, lost]

theorem Devtab.walk_cons (dev : Devtab) (c : Chan) (n : Name) (names : List Name) :
    dev.walk c (n :: names) = if (dev.step c n).isSome then some (byOne dev.walk c (n :: names)) else none := by
  rw [dev.list]
  cases walked : dev.step c n with
  | none => simp only [Devtab.step_none.mp walked, if_true, Option.isSome_none, Bool.false_eq_true, if_false]
  | some c' =>
    have found : dev.walk c [n] ≠ none := fun none => by rw [Devtab.step_none.mpr none] at walked; nomatch walked
    simp only [found, if_false, Option.isSome_some, if_true]

/-- The mount point at a channel, and the channels in which a name is looked up there. -/
def Pgrp.find (pg : Pgrp) (c : Chan) : Option Mhead := pg.findmount c.type c.dev c.qid

def Pgrp.members (pg : Pgrp) (c : Chan) : List Chan := (pg.find c).elim [c] Mhead.mounts

theorem walkUnion_eq (dev : Devtab) (c : Chan) (mh : Option Mhead) (n : Name) (names : List Name) :
    walkUnion dev c mh (n :: names) = ((c :: mh.elim [] Mhead.next).find? fun f => (dev.step f n).isSome).map
      fun f => (byOne dev.walk f (n :: names), f.type, f.dev) := by
  have tail : ∀ fs : List Chan,
      (fs.findSome? fun f => (dev.walk f (n :: names)).map fun wq => (wq, f.type, f.dev)) =
        (fs.find? fun f => (dev.step f n).isSome).map fun f => (byOne dev.walk f (n :: names), f.type, f.dev) := by
    intro fs
    induction fs with
    | nil => rfl
    | cons f fs ih =>
      rw [List.findSome?_cons, List.find?_cons, dev.walk_cons]
      cases (dev.step f n).isSome with
      | true => rfl
      | false => exact ih
  rw [walkUnion, dev.walk_cons, List.find?_cons, tail]
  cases (dev.step c n).isSome with
  | true => rfl
  | false => rfl

theorem batch_single (n : Name) : batch [n] = [n] := by
  unfold batch
  cases dots : isdotdot n with
  | true => simp [dots]
  | false => simp [dots, maxwelem]

/-- Where a round looks the first name up. -/
theorem domount_members (pg : Pgrp) (c : Chan) :
    (pg.domount c none).1 :: (pg.domount c none).2.elim [] Mhead.next = pg.members c := by
  unfold Pgrp.domount Pgrp.members Pgrp.find
  cases pg.findmount c.type c.dev c.qid with
  | none => rfl
  | some m => rfl

/-- A round that ends in a success, and the rest of the walk. -/
theorem walk_single (dev : Devtab) (pg : Pgrp) (c : Chan) (cname n : Name) :
    walk dev pg c cname [n] false =
      match walkRound dev pg false c none cname 0 [n] with
      | .error e => .error e
      | .ok (c, _, cname, k) => if k = 0 then .error ⟨0, none⟩ else .ok (c, cname) := by
  unfold walk
  rw [List.length_singleton, walkLoop]
  cases walkRound dev pg false c none cname 0 [n] with
  | error e => rfl
  | ok next =>
    obtain ⟨c, mh, cname, k⟩ := next
    cases k with
    | zero => rfl
    | succ k =>
      dsimp only
      rw [List.drop_succ_cons, List.drop_nil]
      rfl

/-- A call of `walk` for one name. -/
theorem walkEach_cons (dev : Devtab) (pg : Pgrp) (c : Chan) (cname n : Name) (names : List Name) :
    walkEach dev pg c cname (n :: names) =
      if c.isDir then
        if isdotdot n then (dev.step c n).bind fun c' =>
          walkEach dev pg (pg.undomount c' (addelem cname ['.', '.'])) (addelem cname ['.', '.']) names
        else ((pg.members c).find? fun f => (dev.step f n).isSome).bind fun f => (dev.step f n).bind fun c' =>
          walkEach dev pg c' (addelem cname n) names
      else none := by
  rw [walkEach, walk_single, walkRound, List.head?_cons, Option.any_some, batch_single]
  cases dir : c.isDir with
  | false => rfl
  | true =>
    rw [if_neg (by decide), if_pos rfl]
    by_cases dots : isdotdot n = true
    · rw [if_pos dots, if_pos dots, walkUnion_eq]
      cases walked : dev.step c n with
      | none => simp only [Bool.false_eq_true, if_false, Option.elim_none, List.find?_cons, walked, Option.isSome_none,
          List.find?_nil, Option.map_none, Option.bind_none]
      | some c' =>
        simp only [Bool.false_eq_true, if_false, Option.elim_none, List.find?_cons, walked, Option.isSome_some,
          Option.map_some, Option.elim_some, byOne_cons walked, Option.bind_some]
        rfl
    · rw [if_neg dots, if_neg dots]
      simp only [Bool.false_eq_true, if_false, walkUnion_eq, domount_members]
      cases found : (pg.members c).find? fun f => (dev.step f n).isSome with
      | none => rfl
      | some f =>
        have some_ := List.find?_some found
        obtain ⟨c', walked⟩ := Option.isSome_iff_exists.mp some_
        simp only [Option.map_some, byOne_cons walked, Option.bind_some, walked]
        rfl

/-- A mount point that a device walks to is a directory like what is mounted on it, as `cmount` checks. -/
def Devtab.Agrees (dev : Devtab) (pg : Pgrp) : Prop :=
  ∀ c n c' m, dev.step c n = some c' → pg.find c' = some m → c'.isDir = m.mount.isDir

/-- What is mounted first on a mount point is no mount point in turn, except one at which every set of directories has
the same first member: the mount of a directory on itself, say. -/
def Pgrp.Settled (pg : Pgrp) : Prop :=
  ∀ a m m', pg.find a = some m → m.mount.isDir → pg.find m.mount = some m' →
    ∀ S : Chan → Bool, (∀ f, S f → f.isDir) → m'.mounts.find? S = m.mounts.find? S

/-- A round that starts with `c` and `mh` stands where single calls have come to `a`: there, or on the other side of
the mount point `a`, with a name to look up. -/
def Stands (pg : Pgrp) (c : Chan) (mh : Option Mhead) (a : Chan) (names : List Name) : Prop :=
  mh = none ∧ a = c ∨
    ∃ m, mh = some m ∧ c = m.mount ∧ pg.find a = some m ∧ a.isDir = c.isDir ∧ ∃ n, names.head? = some n ∧ isdotdot n = false

/-- The names that are left lead on from where the next round stands. -/
def Leads (dev : Devtab) (pg : Pgrp) (names : List Name) (goal : Option (Chan × Name)) :
    Option (Chan × Option Mhead × Name × Nat) → Prop
  | none => goal = none
  | some (c, mh, cname, k) => 0 < k ∧ ∃ a, Stands pg c mh a (names.drop k) ∧ goal = walkEach dev pg a cname (names.drop k)

theorem Leads.succ {goal : Option (Chan × Name)} {next : Option (Chan × Option Mhead × Name × Nat)} (n : Name)
    (leads : Leads dev pg names goal next) :
    Leads dev pg (n :: names) goal (next.map fun (c, mh, cname, k) => (c, mh, cname, k + 1)) := by
  cases next with
  | none => exact leads
  | some r => exact ⟨Nat.succ_pos _, leads.2⟩

theorem land_cons (wq : Walkqid) (q : Qid) (type dv : Nat) (x : Name) (plain : pg.findmount type dv q = none) :
    (land pg false cname nhave (n :: x :: names) ⟨wq.clone, q :: wq.qid⟩ type dv).toOption =
      (land pg false (addelem cname n) nhave (x :: names) wq type dv).toOption.map
        fun (c, mh, cname, k) => (c, mh, cname, k + 1) := by
  unfold land
  simp only [List.length_cons, Nat.add_sub_cancel, List.take_succ_cons, firstMount, plain, Bool.false_eq_true, if_false]
  cases firstMount pg type dv (wq.qid.take names.length) with
  | some stop =>
    obtain ⟨i, m⟩ := stop
    rfl
  | none =>
    cases wq.clone with
    | none =>
      simp only [Option.map_none]
      split
      · split
        · rfl
        · rfl
      · split
        · rfl
        · rfl
    | some clone => rfl

/-- A batch stops at the mount point that its first name leads to, if there are more names in it. -/
theorem land_stop (wq : Walkqid) (q : Qid) (type dv : Nat) (x : Name) (found : pg.findmount type dv q = some m) :
    land pg false cname nhave (n :: x :: names) ⟨wq.clone, q :: wq.qid⟩ type dv =
      .ok (m.mount, some m, addelem cname n, 1) := by
  unfold land
  simp only [List.length_cons, Nat.add_sub_cancel, List.take_succ_cons, firstMount, found, Bool.false_eq_true, if_false]
  rfl

theorem land_lost (type dv : Nat) : (land pg false cname nhave names ⟨none, []⟩ type dv).toOption = none := by
  simp only [land, List.take_nil, firstMount, ite_self]
  rfl

/-- From the first name on, a batch goes the way of single calls as far as the next mount point. -/
theorem land_leads (agrees : dev.Agrees pg) (more : List Name) (plain : ∀ x ∈ rest, isdotdot x = false)
    (walked : dev.step f n = some c) :
    Leads dev pg (n :: rest ++ more) (walkEach dev pg c (addelem cname n) (rest ++ more))
      (land pg false cname nhave (n :: rest) (byOne dev.walk f (n :: rest)) f.type f.dev).toOption := by
  obtain ⟨-, same⟩ := Devtab.step_some walked
  induction rest generalizing f n c cname with
  | nil =>
    rw [byOne_cons walked]
    exact ⟨Nat.one_pos, c, Or.inl ⟨rfl, rfl⟩, rfl⟩
  | cons x rest ih =>
    have found : pg.findmount f.type f.dev c.qid = pg.find c := by rw [same]; rfl
    rw [byOne_cons walked]
    cases here : pg.find c with
    | some m =>
      rw [here] at found
      rw [land_stop _ _ _ _ _ found]
      refine ⟨Nat.one_pos, c, Or.inr ⟨m, rfl, rfl, here, agrees f n c m walked here, x, rfl, plain x List.mem_cons_self⟩, rfl⟩
    | none =>
      rw [here] at found
      rw [land_cons _ _ _ _ _ found, List.cons_append]
      refine Leads.succ n ?_
      have lone : pg.members c = [c] := by rw [Pgrp.members, here]; rfl
      rw [List.cons_append, walkEach_cons, lone, plain x List.mem_cons_self]
      cases next : dev.step c x with
      | none =>
        rw [byOne_lost next, land_lost]
        show (if c.isDir then _ else _) = none
        simp only [List.find?_cons, next, Option.isSome_none, List.find?_nil, Option.bind_none, ite_self]
      | some c' =>
        obtain ⟨dir, same'⟩ := Devtab.step_some next
        rw [if_pos dir, if_neg Bool.false_ne_true]
        have sametype : f.type = c.type ∧ f.dev = c.dev := by rw [same]; exact ⟨rfl, rfl⟩
        simp only [List.find?_cons, next, Option.isSome_some, Option.bind_some, sametype.1, sametype.2]
        exact ih (fun y there => plain y (List.mem_cons_of_mem x there)) next same'

/-- A round finds the first name where a single call finds it. -/
theorem members_find (settled : pg.Settled) (stands : Stands pg c mh a names) (dir : c.isDir) (S : Chan → Bool)
    (dirs : ∀ f, S f → f.isDir) :
    ((pg.domount c mh).1 :: (pg.domount c mh).2.elim [] Mhead.next).find? S = (pg.members a).find? S := by
  rcases stands with ⟨rfl, rfl⟩ | ⟨m, rfl, rfl, found, -, -⟩
  · rw [domount_members]
  · have members : pg.members a = m.mounts := by rw [Pgrp.members, found]; rfl
    rw [members]
    unfold Pgrp.domount
    cases again : pg.findmount m.mount.type m.mount.dev m.mount.qid with
    | none => rfl
    | some m' => exact settled a m m' found dir again S dirs

theorem batch_cons (names : List Name) (plain : isdotdot n = false) :
    ∃ rest more, batch (n :: names) = n :: rest ∧ names = rest ++ more ∧ ∀ x ∈ rest, isdotdot x = false := by
  refine ⟨(names.take 15).takeWhile (!isdotdot ·), (names.take 15).dropWhile (!isdotdot ·) ++ names.drop 15, ?_, ?_, ?_⟩
  · simp [batch, plain, maxwelem]
  · rw [← List.append_assoc, List.takeWhile_append_dropWhile, List.take_append_drop]
  · intro x there
    have plain := List.all_takeWhile (p := (!isdotdot ·)) (l := names.take 15)
    simpa using List.all_eq_true.mp plain x there

theorem walkRound_leads (agrees : dev.Agrees pg) (settled : pg.Settled) (stands : Stands pg c mh a (n :: names)) :
    Leads dev pg (n :: names) (walkEach dev pg a cname (n :: names))
      (walkRound dev pg false c mh cname nhave (n :: names)).toOption := by
  have dir : a.isDir = c.isDir := by
    rcases stands with ⟨-, rfl⟩ | ⟨m, -, -, -, same, -⟩
    · rfl
    · exact same
  rw [walkRound, walkEach_cons, dir]
  cases isdir : c.isDir with
  | false => rfl
  | true =>
    simp only [Bool.not_true, Bool.false_eq_true, if_false, if_true, List.head?_cons, Option.any_some]
    by_cases dots : isdotdot n = true
    · rcases stands with ⟨rfl, rfl⟩ | ⟨m, -, -, -, -, x, head, plain⟩
      · have asked : batch (n :: names) = [n] := by simp [batch, dots]
        rw [if_pos dots, if_pos dots, asked, walkUnion_eq]
        cases walked : dev.step a n with
        | none => simp only [Option.elim_none, List.find?_cons, walked, Option.isSome_none, List.find?_nil, Option.map_none]; rfl
        | some c' =>
          simp only [Option.elim_none, List.find?_cons, walked, Option.isSome_some, Option.map_some, Option.elim_some,
            byOne_cons walked]
          exact ⟨Nat.one_pos, _, Or.inl ⟨rfl, rfl⟩, rfl⟩
      · cases head
        rw [plain] at dots
        nomatch dots
    · rw [if_neg dots, if_neg dots]
      obtain ⟨rest, more, asked, rfl, plain⟩ := batch_cons names (Bool.eq_false_iff.mpr dots)
      have first := members_find settled stands isdir (fun f => (dev.step f n).isSome) fun f found => by
        obtain ⟨c', walked⟩ := Option.isSome_iff_exists.mp found
        exact (Devtab.step_some walked).1
      simp only [if_false, asked, walkUnion_eq, first]
      cases found : (pg.members a).find? fun f => (dev.step f n).isSome with
      | none => rfl
      | some f =>
        have some_ := List.find?_some found
        obtain ⟨c', walked⟩ := Option.isSome_iff_exists.mp some_
        simp only [Option.map_some, Option.elim_some, Option.bind_some, walked]
        exact land_leads agrees more plain walked

theorem walkLoop_eq (agrees : dev.Agrees pg) (settled : pg.Settled) {fuel : Nat} (stands : Stands pg c mh a names)
    (enough : names.length ≤ fuel) :
    (walkLoop dev pg false fuel c mh cname nhave names).toOption = walkEach dev pg a cname names := by
  induction fuel generalizing c mh a cname nhave names with
  | zero =>
    rw [List.length_eq_zero_iff.mp (Nat.le_zero.mp enough)] at stands ⊢
    rcases stands with ⟨rfl, rfl⟩ | ⟨m, -, -, -, -, x, head, -⟩
    · rfl
    · nomatch head
  | succ fuel ih =>
    cases names with
    | nil =>
      rcases stands with ⟨rfl, rfl⟩ | ⟨m, -, -, -, -, x, head, -⟩
      · rfl
      · nomatch head
    | cons n names =>
      have leads : Leads dev pg (n :: names) (walkEach dev pg a cname (n :: names))
          (walkRound dev pg false c mh cname nhave (n :: names)).toOption := walkRound_leads agrees settled stands
      rw [walkLoop]
      cases round : walkRound dev pg false c mh cname nhave (n :: names) with
      | error e =>
        rw [round] at leads
        exact leads.symm
      | ok next =>
        obtain ⟨c', mh', cname', k⟩ := next
        rw [round] at leads
        obtain ⟨pos, a', stands', goal⟩ := leads
        rw [goal]
        refine ih stands' ?_
        rw [List.length_drop]
        omega

/-- With a settled mount table, a walk of several names is the walks of one name each. -/
theorem walk_eq_walkEach (agrees : dev.Agrees pg) (settled : pg.Settled) (c : Chan) (cname : Name) (names : List Name) :
    (walk dev pg c cname names false).toOption = walkEach dev pg c cname names :=
  walkLoop_eq agrees settled (Or.inl ⟨rfl, rfl⟩) (Nat.le_refl _)

end Inferno.Emu
