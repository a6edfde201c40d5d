import Inferno.Emu.WalkEach

namespace Inferno.Emu

variable {dev : Devtab} {pg : Pgrp} {c c' a f : Chan} {m m' : Mhead} {cname n x : Name} {names : List Name}
  {look : Chan → Name → Option Qid}

theorem walkBy_single (look : Chan → Name → Option Qid) (c : Chan) (n : Name) :
    walkBy look c [n] = (if c.isDir then look c n else none).map fun q => ⟨some { c with qid := q }, [q]⟩ := by
  unfold walkBy devwalkLoop
  cases (if c.isDir then look c n else none) with
  | none => rfl
  | some q => rfl

theorem byOne_walkBy (look : Chan → Name → Option Qid) (c : Chan) (names : List Name) :
    byOne (walkBy look) c names = devwalkLoop look c names := by
  induction names generalizing c with
  | nil => rfl
  | cons n names ih =>
    rw [byOne, walkBy_single, devwalkLoop]
    cases (if c.isDir then look c n else none) with
    | none => rfl
    | some q => simp only [Option.map_some, Option.bind_some, ih]

/-- The walks of `devwalk` are element by element. -/
def Devtab.ofLook (look : Chan → Name → Option Qid) : Devtab where
  walk := walkBy look
  single c n wq found := by
    rw [walkBy_single] at found
    obtain ⟨q, looked, rfl⟩ := Option.map_eq_some_iff.mp found
    refine ⟨?_, q, rfl⟩
    by_contra file
    rw [if_neg file] at looked
    nomatch looked
  list c n names := by
    rw [byOne_walkBy, walkBy_single, walkBy, devwalkLoop]
    cases (if c.isDir then look c n else none) with
    | none => simp
    | some q => simp

theorem step_ofLook (look : Chan → Name → Option Qid) (c : Chan) (n : Name) :
    (Devtab.ofLook look).step c n = (if c.isDir then look c n else none).map fun q => { c with qid := q } := by
  show (walkBy look c [n]).bind Walkqid.clone = _
  rw [walkBy_single]
  cases (if c.isDir then look c n else none) with
  | none => rfl
  | some q => rfl

/-- A walk through a mount point into the directory mounted there, when that is a mount point too. -/
theorem walk_through (dir : c.isDir) (plain : isdotdot n = false) (plain' : isdotdot x = false) (free : pg.find c = none)
    (walked : dev.step c n = some a) (found : pg.find a = some m) (dir' : m.mount.isDir) (again : pg.find m.mount = some m') :
    (walk dev pg c cname [n, x] false).toOption =
      (m'.mounts.find? fun f => (dev.step f x).isSome).bind fun f =>
        (dev.step f x).map fun c' => (c', addelem (addelem cname n) x) := by
  have alone : pg.domount c none = (c, none) := by
    unfold Pgrp.find at free
    rw [Pgrp.domount, free]
  have twice : pg.domount m.mount (some m) = (m'.mount, some m') := by
    unfold Pgrp.find at again
    rw [Pgrp.domount, again]
  have same : pg.findmount c.type c.dev a.qid = some m := by
    rw [← found, (Devtab.step_some walked).2]
    rfl
  have asked : batch [n, x] = [n, x] := by simp [batch, plain, plain', maxwelem]
  have first : walkRound dev pg false c none cname 0 [n, x] = .ok (m.mount, some m, addelem cname n, 1) := by
    simp only [walkRound, dir, Bool.not_true, Bool.false_eq_true, if_false, List.head?_cons, Option.any_some, plain, asked,
      alone, walkUnion_eq, Option.elim_none, List.find?_cons, walked, Option.isSome_some, Option.map_some,
      Option.elim_some, byOne_cons walked]
    exact land_stop _ _ _ _ _ same
  have second : walkLoop dev pg false 2 c none cname 0 [n, x] =
      walkLoop dev pg false 1 m.mount (some m) (addelem cname n) 1 [x] := by
    rw [walkLoop, first]
    rfl
  show (walkLoop dev pg false 2 c none cname 0 [n, x]).toOption = _
  rw [second, walkLoop]
  simp only [walkRound, dir', Bool.not_true, Bool.false_eq_true, if_false, List.head?_cons, Option.any_some, plain',
    batch_single, twice, walkUnion_eq, Option.elim_some]
  rw [show m'.mount :: m'.next = m'.mounts from rfl]
  cases seen : m'.mounts.find? fun f => (dev.step f x).isSome with
  | none => rfl
  | some f =>
    have some_ := List.find?_some seen
    obtain ⟨c', walked'⟩ := Option.isSome_iff_exists.mp some_
    simp only [Option.map_some, Option.elim_some, Option.bind_some, walked', byOne_cons walked']
    rfl

theorem walkEach_through (dir : c.isDir) (plain : isdotdot n = false) (plain' : isdotdot x = false)
    (free : pg.find c = none) (walked : dev.step c n = some a) (found : pg.find a = some m) (dir' : a.isDir) :
    walkEach dev pg c cname [n, x] =
      (m.mounts.find? fun f => (dev.step f x).isSome).bind fun f =>
        (dev.step f x).map fun c' => (c', addelem (addelem cname n) x) := by
  have lone : pg.members c = [c] := by rw [Pgrp.members, free]; rfl
  have union : pg.members a = m.mounts := by rw [Pgrp.members, found]; rfl
  rw [walkEach_cons, if_pos dir, plain, lone, if_neg Bool.false_ne_true, List.find?_cons, walked]
  simp only [Option.isSome_some, Option.bind_some, walked]
  rw [walkEach_cons, if_pos dir', plain', union, if_neg Bool.false_ne_true]
  congr 1
  funext f
  cases dev.step f x with
  | none => rfl
  | some c' => rfl

/-- A path that no mount point has. -/
theorem exists_fresh (pg : Pgrp) : ∃ path, ∀ c : Chan, path ≤ c.qid.path → pg.find c = none := by
  have bound : ∀ l : List Mhead, ∃ path, ∀ m ∈ l, m.point.qid.path < path := by
    intro l
    induction l with
    | nil => exact ⟨0, fun m there => nomatch there⟩
    | cons m l ih =>
      obtain ⟨path, below⟩ := ih
      refine ⟨max path (m.point.qid.path + 1), fun k there => ?_⟩
      rcases List.mem_cons.mp there with rfl | there
      · omega
      · have := below k there
        omega
  obtain ⟨path, below⟩ := bound ((List.finRange mnthash).flatMap pg.mnthash)
  refine ⟨path, fun c large => ?_⟩
  unfold Pgrp.find Pgrp.findmount
  rw [List.find?_eq_none]
  intro m there same
  have less := below m (List.mem_flatMap.mpr ⟨_, List.mem_finRange _, there⟩)
  simp only [eqchantdqid, Bool.and_eq_true, beq_iff_eq] at same
  omega

/-- The device on which `a` is found under one name, and another name in each directory of `S`. -/
def probe (c a : Chan) (S : Chan → Bool) (u : Option Chan) (path : Nat) (d : Chan) (n : Name) : Option Qid :=
  if n = ['a'] ∧ d = c then some a.qid
  else if n = ['x'] ∧ S d then some ⟨if some d = u then path else path + 1, 0, 0⟩
  else none

theorem isDir_mk (type dev path vers : Nat) : (⟨type, dev, ⟨path, vers, 0x80⟩⟩ : Chan).isDir = true := by
  show ((0x80 : UInt8) &&& 0x80 != 0) = true
  decide

theorem probe_x {S : Chan → Bool} {u : Option Chan} {path : Nat} (f : Chan) :
    probe c a S u path f ['x'] = if S f then some ⟨if some f = u then path else path + 1, 0, 0⟩ else none := by
  simp [probe]

/-- What the device finds is `a` or no mount point. -/
theorem probe_cases {S : Chan → Bool} {u : Option Chan} {path : Nat} {q : Qid}
    (looked : probe c a S u path f n = some q) : f = c ∧ q = a.qid ∨ path ≤ q.path := by
  unfold probe at looked
  split at looked
  · rename_i here
    cases looked
    exact Or.inl ⟨here.2, rfl⟩
  · split at looked
    · cases looked
      dsimp only
      split
      · exact Or.inr (Nat.le_refl _)
      · exact Or.inr (Nat.le_succ _)
    · nomatch looked

theorem settled_of_walk (all : ∀ dev : Devtab, dev.Agrees pg → ∀ c cname names,
    (walk dev pg c cname names false).toOption = walkEach dev pg c cname names) : pg.Settled := by
  intro b m m' found dir again S dirs
  obtain ⟨path, fresh⟩ := exists_fresh pg
  let c : Chan := ⟨b.type, b.dev, ⟨path, 0, 0x80⟩⟩
  let a : Chan := ⟨b.type, b.dev, ⟨b.qid.path, 0, 0x80⟩⟩
  let dev := Devtab.ofLook (probe c a S (m.mounts.find? S) path)
  have at_a : pg.find a = some m := found
  have walked : dev.step c ['a'] = some a := by
    rw [step_ofLook, if_pos (isDir_mk ..), probe, if_pos ⟨rfl, rfl⟩]
    rfl
  let child (f : Chan) : Chan := { f with qid := ⟨if some f = m.mounts.find? S then path else path + 1, 0, 0⟩ }
  have probed : ∀ f, dev.step f ['x'] = if S f then some (child f) else none := by
    intro f
    rw [step_ofLook, probe_x]
    by_cases inside : S f = true
    · rw [if_pos (dirs f inside), if_pos inside, if_pos inside]
      rfl
    · rw [if_neg inside, if_neg inside, ite_self]
      rfl
  have agrees : dev.Agrees pg := by
    intro f n g k step here
    rw [step_ofLook] at step
    obtain ⟨q, looked, rfl⟩ := Option.map_eq_some_iff.mp step
    split at looked
    · rcases probe_cases looked with ⟨rfl, rfl⟩ | large
      · rw [show pg.find _ = some m from at_a, Option.some.injEq] at here
        rw [← here, dir]
        exact isDir_mk ..
      · rw [fresh _ large] at here
        nomatch here
    · nomatch looked
  have same := all dev agrees c [] [['a'], ['x']]
  rw [walk_through (isDir_mk ..) (by decide) (by decide) (fresh c (Nat.le_refl _)) walked at_a dir again,
    walkEach_through (isDir_mk ..) (by decide) (by decide) (fresh c (Nat.le_refl _)) walked at_a (isDir_mk ..)] at same
  have isSome : (fun f => (dev.step f ['x']).isSome) = S := by
    funext f
    rw [probed]
    cases S f with
    | true => rfl
    | false => rfl
  rw [isSome] at same
  have outcome : ∀ l : List Chan, ((l.find? S).bind fun f => (dev.step f ['x']).map fun c' =>
      (c', addelem (addelem [] ['a']) ['x'])) =
        (l.find? S).map fun f => (child f, addelem (addelem [] ['a']) ['x']) := by
    intro l
    cases seen : l.find? S with
    | none => rfl
    | some f =>
      rw [Option.bind_some, probed, if_pos (List.find?_some seen)]
      rfl
  rw [outcome, outcome] at same
  cases one : m.mounts.find? S with
  | none =>
    rw [one] at same
    exact Option.map_eq_none_iff.mp same
  | some u =>
    rw [one] at same
    obtain ⟨v, seen, eq⟩ := Option.map_eq_some_iff.mp same
    rw [Prod.mk.injEq] at eq
    have paths : (child v).qid.path = (child u).qid.path := by rw [eq.1]
    simp only [child, one, if_true] at paths
    split at paths
    · rename_i equal
      rw [seen, equal]
    · omega

/-- On every collection of device trees every walk is the walks of its names, one call each, exactly when the mount table is
settled. -/
theorem walk_elementwise_iff (pg : Pgrp) :
    (∀ dev : Devtab, dev.Agrees pg → ∀ c cname names,
      (walk dev pg c cname names false).toOption = walkEach dev pg c cname names) ↔ pg.Settled :=
  ⟨settled_of_walk, fun settled _ agrees c cname names => walk_eq_walkEach agrees settled c cname names⟩

/-- The directory number `path` of a device. -/
def directory (path : Nat) : Chan := ⟨0, 0, ⟨path, 0, 0x80⟩⟩

/-- The second directory is mounted on the first, and the third on the second. -/
def mountedTwice : Pgrp where
  mnthash k :=
    if k.val = 1 then [⟨directory 1, ['/', 'a'], directory 2, []⟩]
    else if k.val = 2 then [⟨directory 2, ['/', 'b'], directory 3, []⟩]
    else []

/-- The root has the first directory, and the second has a file. -/
def lookTwice (c : Chan) (n : Name) : Option Qid :=
  if c.qid.path = 0 ∧ n = ['a'] then some ⟨1, 0, 0x80⟩ else if c.qid.path = 2 ∧ n = ['x'] then some ⟨4, 0, 0⟩ else none

theorem lookTwice_agrees : (Devtab.ofLook lookTwice).Agrees mountedTwice := by
  intro c n c' m walked found
  rw [step_ofLook] at walked
  obtain ⟨q, looked, rfl⟩ := Option.map_eq_some_iff.mp walked
  split at looked
  · unfold lookTwice at looked
    split at looked
    · cases looked
      unfold Pgrp.find Pgrp.findmount at found
      have there : m ∈ [(⟨directory 1, ['/', 'a'], directory 2, []⟩ : Mhead)] := List.mem_of_find?_eq_some found
      rw [List.mem_singleton.mp there]
      rfl
    · split at looked
      · cases looked
        nomatch found
      · nomatch looked
  · nomatch looked

/-- The walk of two names misses the file that the walks of each name find: it goes on into what is mounted on the
mounted directory. -/
theorem walk_mounts_twice :
    ∃ (dev : Devtab) (pg : Pgrp), dev.Agrees pg ∧ ∃ c cname names,
      (walk dev pg c cname names false).toOption = none ∧
        walkEach dev pg c cname names = some (⟨0, 0, ⟨4, 0, 0⟩⟩, ['/', 'a', '/', 'x']) :=
  ⟨Devtab.ofLook lookTwice, mountedTwice, lookTwice_agrees, directory 0, ['/'], [['a'], ['x']], by decide, by decide⟩

end Inferno.Emu
