import Inferno.Dev.Srv

namespace Inferno.Dev

open Lib

namespace Srv

variable {s s' : Srv} {a b d i : Nat} {f g : SrvFile} {c : Chan} {h h' : Nat → Int}

theorem get_put (there : s.get a = some f) (g : SrvFile) (b : Nat) :
    (s.put a g).get b = if b = a then some g else s.get b := look_set_of_look there b

theorem get_free (there : s.get a = some f) (b : Nat) : (s.free a).get b = if b = a then none else s.get b :=
  look_set_of_look there b

/-- Which files there are and where they are, apart from the counts. -/
structure Shape (s : Srv) : Prop where
  chans : ∀ i c, look s.chan i = some c → ∃ f, s.get c.aux = some f ∧ f.path = c.path ∧ f.dir.isNone = c.isDir
  dirs : ∀ a f d, s.get a = some f → f.dir = some d → ∃ g, s.get d = some g ∧ g.dir = none
  listed : ∀ d a, a ∈ s.entry d ↔ ∃ f, s.get a = some f ∧ f.dir = some d ∧ f.removed = false
  once : ∀ d, (s.entry d).Nodup
  names : ∀ d a b f g, a ∈ s.entry d → b ∈ s.entry d → s.get a = some f → s.get b = some g → f.name = g.name → a = b
  paths : ∀ a b f g, s.get a = some f → s.get b = some g → f.path = g.path → a = b
  below : ∀ a f, s.get a = some f → f.path < s.pathgen
  devices : ∀ a, a ∈ s.devices ↔ ∃ f, s.get a = some f ∧ f.dir = none
  devOnce : s.devices.Nodup

/-- What the source does not change once a file is there, except in `srvdelete`. -/
structure Alike (f g : SrvFile) : Prop where
  name : g.name = f.name
  dir : g.dir = f.dir
  path : g.path = f.path
  removed : g.removed = f.removed

theorem get_alike (there : s.get a = some f) (alike : Alike f g) {b : Nat} {x : SrvFile} :
    (s.put a g).get b = some x → ∃ y, s.get b = some y ∧ Alike y x := by
  rw [get_put there]
  split
  · rename_i same
    rintro ⟨⟩
    exact ⟨f, same ▸ there, alike⟩
  · exact fun is => ⟨x, is, rfl, rfl, rfl, rfl⟩

theorem get_alike' (there : s.get a = some f) (alike : Alike f g) {b : Nat} {y : SrvFile} (is : s.get b = some y) :
    ∃ x, (s.put a g).get b = some x ∧ Alike y x := by
  rw [get_put there]
  split
  · rename_i same
    subst same
    rw [there] at is
    cases is
    exact ⟨g, rfl, alike⟩
  · exact ⟨y, is, rfl, rfl, rfl, rfl⟩

theorem Shape.put (shape : s.Shape) (there : s.get a = some f) (alike : Alike f g) : (s.put a g).Shape := by
  refine ⟨fun i c is => ?_, fun b x d is dir => ?_, fun d b => ?_, shape.once, fun d b b' x x' inB inB' is is' name => ?_,
    fun b b' x x' is is' path => ?_, fun b x is => ?_, fun b => ?_, shape.devOnce⟩
  · obtain ⟨y, live, path, dir⟩ := shape.chans i c is
    obtain ⟨x, live, like⟩ := get_alike' there alike live
    exact ⟨x, live, like.path.trans path, by rw [like.dir, dir]⟩
  · obtain ⟨y, live, like⟩ := get_alike there alike is
    obtain ⟨z, live, none⟩ := shape.dirs b y d live (like.dir ▸ dir)
    obtain ⟨w, live, like⟩ := get_alike' there alike live
    exact ⟨w, live, like.dir.trans none⟩
  · change b ∈ s.entry d ↔ _
    rw [shape.listed]
    constructor
    · rintro ⟨y, live, dir, here⟩
      obtain ⟨x, live, like⟩ := get_alike' there alike live
      exact ⟨x, live, like.dir.trans dir, like.removed.trans here⟩
    · rintro ⟨x, live, dir, here⟩
      obtain ⟨y, live, like⟩ := get_alike there alike live
      exact ⟨y, live, like.dir ▸ dir, like.removed ▸ here⟩
  · obtain ⟨y, live, like⟩ := get_alike there alike is
    obtain ⟨y', live', like'⟩ := get_alike there alike is'
    exact shape.names d b b' y y' inB inB' live live' (by rw [← like.name, ← like'.name, name])
  · obtain ⟨y, live, like⟩ := get_alike there alike is
    obtain ⟨y', live', like'⟩ := get_alike there alike is'
    exact shape.paths b b' y y' live live' (by rw [← like.path, ← like'.path, path])
  · obtain ⟨y, live, like⟩ := get_alike there alike is
    exact like.path ▸ shape.below b y live
  · change b ∈ s.devices ↔ _
    rw [shape.devices]
    constructor
    · rintro ⟨y, live, dir⟩
      obtain ⟨x, live, like⟩ := get_alike' there alike live
      exact ⟨x, live, like.dir.trans dir⟩
    · rintro ⟨x, live, dir⟩
      obtain ⟨y, live, like⟩ := get_alike there alike live
      exact ⟨y, live, like.dir ▸ dir⟩

/-- The channels change, and those that are there now have their files. -/
theorem Shape.chan (shape : s.Shape) {chan : List (Option Chan)}
    (live : ∀ i c, look chan i = some c → ∃ f, s.get c.aux = some f ∧ f.path = c.path ∧ f.dir.isNone = c.isDir) :
    Shape { s with chan } :=
  ⟨live, shape.dirs, shape.listed, shape.once, shape.names, shape.paths, shape.below, shape.devices, shape.devOnce⟩

theorem Shape.dropChan (shape : s.Shape) (at_ : look s.chan i = some c) : Shape { s with chan := s.chan.set i none } := by
  refine shape.chan fun j c' is => ?_
  rw [look_set_of_look at_] at is
  split at is
  · nomatch is
  · exact shape.chans j c' is

theorem Shape.pushChan (shape : s.Shape) (live : s.get c.aux = some f) (path : f.path = c.path) (dir : f.dir.isNone = c.isDir) :
    Shape { s with chan := s.chan ++ [some c] } := by
  refine shape.chan fun j c' is => ?_
  rw [look_append] at is
  split at is
  · cases is
    exact ⟨f, live, path, dir⟩
  · exact shape.chans j c' is

/-- `srvdelete` of a file that is in its list. -/
theorem Shape.delete (shape : s.Shape) (there : s.get a = some f) (dir : f.dir = some d) (ref : Int) :
    Shape { s.put a { f with ref, removed := true } with entry := Function.update s.entry d ((s.entry d).erase a) } := by
  have put (b : Nat) (x : SrvFile) (is : (s.put a { f with ref, removed := true }).get b = some x) :
      ∃ y, s.get b = some y ∧ x.name = y.name ∧ x.dir = y.dir ∧ x.path = y.path ∧ (b ≠ a → x = y) ∧ (b = a → x.removed = true) := by
    rw [get_put there] at is
    split at is
    · rename_i same
      cases is
      exact ⟨f, same ▸ there, rfl, rfl, rfl, fun ne => absurd same ne, fun _ => rfl⟩
    · rename_i other
      exact ⟨x, is, rfl, rfl, rfl, fun _ => rfl, fun same => absurd same other⟩
  have put' (b : Nat) (y : SrvFile) (is : s.get b = some y) : ∃ x, (s.put a { f with ref, removed := true }).get b = some x ∧
      x.name = y.name ∧ x.dir = y.dir ∧ x.path = y.path ∧ (b ≠ a → x = y) := by
    rw [get_put there]
    split
    · rename_i same
      subst same
      rw [there] at is
      cases is
      exact ⟨_, rfl, rfl, rfl, rfl, fun ne => absurd rfl ne⟩
    · exact ⟨y, is, rfl, rfl, rfl, fun _ => rfl⟩
  have sub (e b : Nat) (mem : b ∈ Function.update s.entry d ((s.entry d).erase a) e) : b ∈ s.entry e := by
    rw [Function.update_apply] at mem
    split at mem
    · rename_i same
      exact same ▸ List.mem_of_mem_erase mem
    · exact mem
  refine ⟨fun i c is => ?_, fun b x e is dir' => ?_, fun e b => ?_, fun e => ?_, fun e b b' x x' inB inB' is is' name => ?_,
    fun b b' x x' is is' path => ?_, fun b x is => ?_, fun b => ?_, shape.devOnce⟩
  · obtain ⟨y, live, path, dir⟩ := shape.chans i c is
    obtain ⟨x, live, _, dir', path', _⟩ := put' _ y live
    exact ⟨x, live, path'.trans path, by rw [dir', dir]⟩
  · obtain ⟨y, live, _, same, _⟩ := put b x is
    obtain ⟨z, live, none⟩ := shape.dirs b y e live (same ▸ dir')
    obtain ⟨w, live, _, same, _⟩ := put' e z live
    exact ⟨w, live, same.trans none⟩
  · constructor
    · intro mem
      obtain ⟨y, live, dir', here⟩ := (shape.listed e b).mp (sub e b mem)
      have ne : b ≠ a := by
        rintro rfl
        rw [there] at live
        cases live
        rw [dir] at dir'
        cases dir'
        have erased : b ∈ Function.update s.entry d ((s.entry d).erase b) d := mem
        rw [Function.update_self] at erased
        exact List.Nodup.not_mem_erase (shape.once _) erased
      obtain ⟨x, now, _, _, _, same⟩ := put' b y live
      exact ⟨x, now, same ne ▸ dir', same ne ▸ here⟩
    · rintro ⟨x, live, dir', here⟩
      obtain ⟨y, live, _, _, _, same, gone⟩ := put b x live
      have ne : b ≠ a := by
        intro is
        rw [gone is] at here
        nomatch here
      have mem := (shape.listed e b).mpr ⟨y, live, same ne ▸ dir', same ne ▸ here⟩
      change b ∈ Function.update s.entry d ((s.entry d).erase a) e
      rw [Function.update_apply]
      split
      · rename_i same
        subst same
        exact (List.mem_erase_of_ne ne).mpr mem
      · exact mem
  · dsimp only
    rw [Function.update_apply]
    split
    · exact (shape.once d).erase a
    · exact shape.once e
  · obtain ⟨y, live, same, _⟩ := put b x is
    obtain ⟨y', live', same', _⟩ := put b' x' is'
    exact shape.names e b b' y y' (sub e b inB) (sub e b' inB') live live' (by rw [← same, ← same', name])
  · obtain ⟨y, live, _, _, same, _⟩ := put b x is
    obtain ⟨y', live', _, _, same', _⟩ := put b' x' is'
    exact shape.paths b b' y y' live live' (by rw [← same, ← same', path])
  · obtain ⟨y, live, _, _, same, _⟩ := put b x is
    exact same ▸ shape.below b y live
  · change b ∈ s.devices ↔ _
    rw [shape.devices]
    constructor
    · rintro ⟨y, live, dir⟩
      obtain ⟨x, live, _, same, _⟩ := put' b y live
      exact ⟨x, live, same.trans dir⟩
    · rintro ⟨x, live, dir⟩
      obtain ⟨y, live, _, same, _⟩ := put b x live
      exact ⟨y, live, same ▸ dir⟩

/-- Nobody has `a`: no channel, no file as its directory. -/
structure Unused (s : Srv) (a : Nat) : Prop where
  chan : ∀ i c, look s.chan i = some c → c.aux ≠ a
  dir : ∀ b f, s.get b = some f → f.dir ≠ some a

theorem Shape.free (shape : s.Shape) (there : s.get a = some f) (unused : s.Unused a) (out : f.dir = none ∨ f.removed = true) :
    Shape { s.free a with devices := s.devices.erase a } := by
  have old (b : Nat) (x : SrvFile) (is : (s.free a).get b = some x) : b ≠ a ∧ s.get b = some x := by
    rw [get_free there] at is
    split at is
    · nomatch is
    · rename_i other
      exact ⟨other, is⟩
  have kept (b : Nat) (x : SrvFile) (ne : b ≠ a) (is : s.get b = some x) : (s.free a).get b = some x := by
    rw [get_free there, if_neg ne]
    exact is
  have unlisted (e : Nat) : a ∉ s.entry e := by
    intro mem
    obtain ⟨x, live, dir, here⟩ := (shape.listed e a).mp mem
    rw [there] at live
    cases live
    rcases out with none | removed
    · rw [none] at dir
      nomatch dir
    · rw [removed] at here
      nomatch here
  refine ⟨fun i c is => ?_, fun b x e is dir => ?_, fun e b => ?_, shape.once, fun e b b' x x' inB inB' is is' name => ?_,
    fun b b' x x' is is' path => ?_, fun b x is => ?_, fun b => ?_, shape.devOnce.erase a⟩
  · obtain ⟨x, live, rest⟩ := shape.chans i c is
    exact ⟨x, kept _ x (unused.chan i c is) live, rest⟩
  · obtain ⟨_, live⟩ := old b x is
    obtain ⟨y, live', none⟩ := shape.dirs b x e live dir
    exact ⟨y, kept e y (fun same => unused.dir b x live (same ▸ dir)) live', none⟩
  · change b ∈ s.entry e ↔ _
    constructor
    · intro mem
      obtain ⟨x, live, rest⟩ := (shape.listed e b).mp mem
      exact ⟨x, kept b x (fun same => unlisted e (same ▸ mem)) live, rest⟩
    · rintro ⟨x, live, rest⟩
      exact (shape.listed e b).mpr ⟨x, (old b x live).2, rest⟩
  · exact shape.names e b b' x x' inB inB' (old b x is).2 (old b' x' is').2 name
  · exact shape.paths b b' x x' (old b x is).2 (old b' x' is').2 path
  · exact shape.below b x (old b x is).2
  · change b ∈ s.devices.erase a ↔ _
    rw [shape.devOnce.mem_erase_iff, shape.devices]
    constructor
    · rintro ⟨ne, x, live, dir⟩
      exact ⟨x, kept b x ne live, dir⟩
    · rintro ⟨x, live, dir⟩
      exact ⟨(old b x live).1, x, (old b x live).2, dir⟩

/-- A new file, in the list of a directory that has none of its name. -/
theorem Shape.push (shape : s.Shape) (path : f.path = s.pathgen) (here : f.removed = false)
    (dir : ∀ d, f.dir = some d → ∃ g, s.get d = some g ∧ g.dir = none)
    (new : ∀ d, f.dir = some d → ∀ b g, b ∈ s.entry d → s.get b = some g → g.name ≠ f.name) :
    Shape { s with
      file := s.file ++ [some f]
      entry := f.dir.elim s.entry fun d => Function.update s.entry d (s.file.length :: s.entry d)
      devices := if f.dir = none then s.file.length :: s.devices else s.devices
      pathgen := s.pathgen + 1 } := by
  have old (b : Nat) (x : SrvFile) (is : look (s.file ++ [some f]) b = some x) :
      b = s.file.length ∧ x = f ∨ b ≠ s.file.length ∧ s.get b = some x := by
    rw [look_append] at is
    split at is
    · rename_i same
      cases is
      exact Or.inl ⟨same, rfl⟩
    · rename_i other
      exact Or.inr ⟨other, is⟩
  have fresh (b : Nat) (x : SrvFile) (is : s.get b = some x) : b ≠ s.file.length := by
    rintro rfl
    rw [Srv.get, look_length] at is
    nomatch is
  have kept (b : Nat) (x : SrvFile) (is : s.get b = some x) : look (s.file ++ [some f]) b = some x := by
    rw [look_append, if_neg (fresh b x is)]
    exact is
  have self : look (s.file ++ [some f]) s.file.length = some f := by rw [look_append, if_pos rfl]
  have entry (e b : Nat) : b ∈ f.dir.elim s.entry (fun d => Function.update s.entry d (s.file.length :: s.entry d)) e ↔
      f.dir = some e ∧ b = s.file.length ∨ b ∈ s.entry e := by
    cases is : f.dir with
    | none => simp
    | some d =>
      simp only [Option.elim, Function.update_apply, Option.some.injEq]
      split
      · rename_i same
        subst same
        simp
      · rename_i other
        simp [Ne.symm other]
  have unlisted (e : Nat) : s.file.length ∉ s.entry e := by
    intro mem
    obtain ⟨x, live, _⟩ := (shape.listed e _).mp mem
    exact fresh _ x live rfl
  refine ⟨fun i c is => ?_, fun b x e is dir' => ?_, fun e b => ?_, fun e => ?_, fun e b b' x x' inB inB' is is' name => ?_,
    fun b b' x x' is is' same => ?_, fun b x is => ?_, fun b => ?_, ?_⟩
  · obtain ⟨x, live, rest⟩ := shape.chans i c is
    exact ⟨x, kept _ x live, rest⟩
  · rcases old b x is with ⟨rfl, rfl⟩ | ⟨_, live⟩
    · obtain ⟨y, live, none⟩ := dir e dir'
      exact ⟨y, kept e y live, none⟩
    · obtain ⟨y, live, none⟩ := shape.dirs b x e live dir'
      exact ⟨y, kept e y live, none⟩
  · dsimp only
    rw [entry]
    constructor
    · rintro (⟨into, rfl⟩ | mem)
      · exact ⟨f, self, into, here⟩
      · obtain ⟨x, live, rest⟩ := (shape.listed e b).mp mem
        exact ⟨x, kept b x live, rest⟩
    · rintro ⟨x, live, dir', notRemoved⟩
      rcases old b x live with ⟨rfl, rfl⟩ | ⟨_, live⟩
      · exact Or.inl ⟨dir', rfl⟩
      · exact Or.inr ((shape.listed e b).mpr ⟨x, live, dir', notRemoved⟩)
  · dsimp only
    cases is : f.dir with
    | none => exact shape.once e
    | some d =>
      simp only [Option.elim, Function.update_apply]
      split
      · exact List.nodup_cons.mpr ⟨unlisted d, shape.once d⟩
      · exact shape.once e
  · dsimp only at inB inB'
    rw [entry] at inB inB'
    rcases old b x is with ⟨rfl, rfl⟩ | ⟨ne, live⟩ <;> rcases old b' x' is' with ⟨rfl, rfl⟩ | ⟨ne', live'⟩
    · rfl
    · obtain ⟨into, _⟩ := inB.resolve_right (unlisted e)
      have mem := inB'.resolve_left fun both => ne' both.2
      exact absurd name.symm (new e into b' x' mem live')
    · obtain ⟨into, _⟩ := inB'.resolve_right (unlisted e)
      have mem := inB.resolve_left fun both => ne both.2
      exact absurd name (new e into b x mem live)
    · have mem := inB.resolve_left fun both => ne both.2
      have mem' := inB'.resolve_left fun both => ne' both.2
      exact shape.names e b b' x x' mem mem' live live' name
  · rcases old b x is with ⟨rfl, rfl⟩ | ⟨ne, live⟩ <;> rcases old b' x' is' with ⟨rfl, rfl⟩ | ⟨ne', live'⟩
    · rfl
    · have := shape.below b' x' live'
      omega
    · have := shape.below b x live
      omega
    · exact shape.paths b b' x x' live live' same
  · dsimp only
    rcases old b x is with ⟨rfl, rfl⟩ | ⟨ne, live⟩
    · omega
    · have := shape.below b x live
      omega
  · dsimp only
    constructor
    · intro mem
      split at mem
      · rename_i none
        rcases List.mem_cons.mp mem with rfl | mem
        · exact ⟨f, self, none⟩
        · obtain ⟨x, live, none⟩ := (shape.devices b).mp mem
          exact ⟨x, kept b x live, none⟩
      · obtain ⟨x, live, none⟩ := (shape.devices b).mp mem
        exact ⟨x, kept b x live, none⟩
    · rintro ⟨x, live, none⟩
      rcases old b x live with ⟨rfl, rfl⟩ | ⟨_, live⟩
      · rw [if_pos none]
        exact List.mem_cons_self
      · have mem := (shape.devices b).mpr ⟨x, live, none⟩
        split
        · exact List.mem_cons_of_mem _ mem
        · exact mem
  · dsimp only
    split
    · refine List.nodup_cons.mpr ⟨fun mem => ?_, shape.devOnce⟩
      obtain ⟨x, live, _⟩ := (shape.devices _).mp mem
      exact fresh _ x live rfl
    · exact shape.devOnce

end Srv

end Inferno.Dev
