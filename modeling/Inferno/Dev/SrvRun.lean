import Inferno.Dev.SrvCount
import Inferno.Lib.Run

namespace Inferno.Dev

open Lib

namespace Srv

variable {s s' : Srv} {a d i : Nat} {f : SrvFile} {c : Chan} {user : String}

theorem Inv.srvattach (inv : s.Inv) (spec user : String) (pgrpid : Nat) (more : Bool) : (s.srvattach spec user pgrpid more).Inv := by
  unfold Srv.srvattach
  split
  · split
    · exact inv
    · rename_i live
      split
      · exact inv.addChan live rfl rfl
      · exact inv
  · split
    · extract_lets name d
      have self : look (s.file ++ [some d]) s.file.length = some d := by rw [look_append, if_pos rfl]
      have shape := inv.shape.push (f := d) rfl rfl (fun _ no => nomatch no) (fun _ no => nomatch no)
      have counted := inv.counted.push (f := d) (only s.file.length) s.entry (s.file.length :: s.devices) (s.pathgen + 1) inv.shape
        nofun (by simp [d, SrvFile.new, SrvFile.holds, only]) fun b ne => by simp [d, SrvFile.new, only, ne]
      refine ⟨shape.pushChan (c := ⟨s.file.length, s.pathgen, true, false⟩) self rfl rfl, counted.pushChan fun b => by simp [only],
        fun b x is => ?_⟩
      change look (s.file ++ [some d]) b = some x at is
      rw [look_append] at is
      split at is
      · cases is
        exact Int.one_pos
      · exact inv.pos b x is
    · exact inv

/-- A walk gets to a file of the directory, or stays where it is. -/
theorem devwalk_spec {path : Nat} {names : List String} {to_ : Nat × Bool} (walked : s.devwalk d path names = some to_) :
    (∃ a f, a ∈ s.entry d ∧ s.get a = some f ∧ f.path = to_.1 ∧ to_.2 = false) ∨
      to_ = (path, true) ∧ ∀ name ∈ names, name = "." ∨ name = ".." := by
  induction names with
  | nil =>
    cases walked
    exact Or.inr ⟨rfl, fun name no => nomatch no⟩
  | cons name names ih =>
    unfold devwalk at walked
    split at walked
    · rename_i dots
      rcases ih walked with file | ⟨here, all⟩
      · exact Or.inl file
      · exact Or.inr ⟨here, List.forall_mem_cons.mpr ⟨dots, all⟩⟩
    · split at walked
      · nomatch walked
      · rename_i f found
        split at walked
        · cases walked
          obtain ⟨a, named, live⟩ := Option.bind_eq_some_iff.mp found
          exact Or.inl ⟨a, f, List.mem_of_find?_eq_some named, live, rfl, rfl⟩
        · nomatch walked

theorem devwalk_dots {path : Nat} {names : List String} (dots : ∀ name ∈ names, name = "." ∨ name = "..") :
    s.devwalk d path names = some (path, true) := by
  induction names with
  | nil => rfl
  | cons name names ih =>
    rw [devwalk, if_pos (dots name List.mem_cons_self)]
    exact ih fun name' mem => dots name' (List.mem_cons_of_mem _ mem)

theorem find_path (shape : s.Shape) (mem : a ∈ s.entry d) (live : s.get a = some f) :
    ((s.entry d).find? fun b => (s.get b).any (·.path == f.path)) = some a := by
  cases found : (s.entry d).find? fun b => (s.get b).any (·.path == f.path) with
  | none =>
    have no := List.find?_eq_none.mp found a mem
    rw [live] at no
    exact absurd (beq_self_eq_true f.path) no
  | some b =>
    have has := List.find?_some found
    obtain ⟨g, live', _⟩ := (shape.listed d b).mp (List.mem_of_find?_eq_some found)
    rw [live'] at has
    rw [shape.paths b a g f live' live (beq_iff_eq.mp has)]

/-- The walk stays in the directory. -/
def Dots (c : Chan) (names : List String) : Prop := c.isDir = true ∧ names ≠ [] ∧ ∀ name ∈ names, name = "." ∨ name = ".."

theorem srvwalk_spec (inv : s.Inv) (at_ : look s.chan i = some c) (names : List String) :
    ((s.srvwalk c names).isSome ↔ ¬Dots c names) ∧ ∀ s', s.srvwalk c names = some s' → s'.Inv := by
  obtain ⟨f, live, path, dir⟩ := inv.shape.chans i c at_
  unfold srvwalk
  by_cases clone : names = []
  · rw [if_pos clone, live]
    refine ⟨⟨fun _ dots => dots.2.1 clone, fun _ => rfl⟩, fun s' is => ?_⟩
    cases is
    exact inv.addChan live path dir
  · rw [if_neg clone]
    by_cases isDir : c.isDir = true
    · simp only [isDir, Bool.not_true, Bool.false_eq_true, if_false]
      cases walked : s.devwalk c.aux c.path names with
      | none =>
        refine ⟨⟨fun _ dots => ?_, fun _ => rfl⟩, fun s' is => Option.some.inj is ▸ inv⟩
        rw [devwalk_dots dots.2.2] at walked
        nomatch walked
      | some to_ =>
        dsimp only
        rcases devwalk_spec walked with ⟨a, g, mem, there, same, file⟩ | ⟨rfl, dots⟩
        · rw [← same, find_path inv.shape mem there, file]
          dsimp only
          rw [there]
          refine ⟨⟨fun _ dots => ?_, fun _ => rfl⟩, fun s' is => ?_⟩
          · rw [devwalk_dots dots.2.2] at walked
            rw [← Option.some.inj walked] at file
            nomatch file
          · cases is
            obtain ⟨x, there', into, _⟩ := (inv.shape.listed c.aux a).mp mem
            rw [there] at there'
            cases there'
            exact inv.addChan there rfl (by rw [into]; rfl)
        · -- no file has the path of the directory
          have none : ((s.entry c.aux).find? fun a => (s.get a).any (·.path == c.path)) = none := by
            refine List.find?_eq_none.mpr fun a mem has => ?_
            obtain ⟨g, there, into, _⟩ := (inv.shape.listed c.aux a).mp mem
            rw [there] at has
            have same := inv.shape.paths a c.aux g f there live ((beq_iff_eq.mp has).trans path.symm)
            subst same
            rw [live] at there
            cases there
            rw [into, isDir] at dir
            nomatch dir
          rw [none]
          exact ⟨⟨fun no => (nomatch no), fun no => absurd ⟨isDir, clone, dots⟩ no⟩, fun s' is => nomatch is⟩
    · simp only [isDir, Bool.not_false, if_true]
      exact ⟨⟨fun _ dots => isDir dots.1, fun _ => rfl⟩, fun s' is => Option.some.inj is ▸ inv⟩

theorem Inv.setOpen (inv : s.Inv) (at_ : look s.chan i = some c) : (s.setOpen i c).Inv := by
  refine ⟨inv.shape.chan fun j c' is => ?_, fun b x is => ?_, inv.pos⟩
  · rw [look_set_of_look at_] at is
    split at is
    · cases is
      exact inv.shape.chans i c at_
    · exact inv.shape.chans j c' is
  · have count := tally_set (p := (·.aux == b)) (look_lt at_) (some { c with isOpen := true })
    rw [at_] at count
    have same : (s.setOpen i c).onChan b = s.onChan b := Nat.add_right_cancel count
    rw [same]
    exact inv.counted b x is

theorem Inv.srvopen (inv : s.Inv) (at_ : look s.chan i = some c) {omode : Nat} {eve : String}
    (ran : s.srvopen i c omode user eve = some s') : s'.Inv := by
  unfold Srv.srvopen at ran
  split at ran
  · cases ran
    exact inv
  · split at ran
    · cases ran
      split
      · exact inv.setOpen at_
      · exact inv
    · obtain ⟨f, live, rfl⟩ := Option.map_eq_some_iff.mp ran
      split
      · exact inv
      · split
        · exact inv
        · split
          · exact inv
          · refine Inv.setOpen ?_ at_
            exact inv.put live ⟨rfl, rfl, rfl, rfl⟩ rfl (inv.pos _ f live)

theorem srvclunk_spec (inv : s.Inv) (at_ : look s.chan i = some c) (remove : Bool) (user : String) :
    ∃ s', s.srvclunk i c remove user = some s' ∧ s'.Inv := by
  obtain ⟨f, live, path, dir⟩ := inv.shape.chans i c at_
  have shape := inv.shape.dropChan at_
  have counted : Counted { s with chan := s.chan.set i none } (only c.aux) := inv.counted.dropChan at_ fun b => by simp
  unfold srvclunk
  split
  · rename_i isDir
    rw [isDir, Option.isNone_iff_eq_none] at dir
    exact srvputdir_inv shape counted inv.pos live dir
  · rename_i isFile
    obtain ⟨d, into⟩ : ∃ d, f.dir = some d := by
      cases is : f.dir with
      | none =>
        rw [is] at dir
        exact absurd dir.symm isFile
      | some d => exact ⟨d, rfl⟩
    unfold clunkFile
    rw [live, Option.bind_some]
    dsimp only
    generalize (if c.isOpen then f.opens - 1 else f.opens) = opens
    have alike : Alike f { f with opens, ref := f.ref - 1 } := ⟨rfl, rfl, rfl, rfl⟩
    have live₁ : Srv.get { s with chan := s.chan.set i none } c.aux = some f := live
    have shape₁ := shape.put live₁ alike
    have counted₁ : (put { s with chan := s.chan.set i none } c.aux { f with opens, ref := f.ref - 1 }).Counted fun _ => 0 := by
      refine counted.put live₁ rfl fun b => ?_
      simp only [SrvFile.holds, only]
      split <;> omega
    have live₂ := get_put live₁ { f with opens, ref := f.ref - 1 }
    have pos₁ (b : Nat) (x : SrvFile) (ne : b ≠ c.aux)
        (is : (put { s with chan := s.chan.set i none } c.aux { f with opens, ref := f.ref - 1 }).get b = some x) : 0 < x.ref := by
      rw [live₂, if_neg ne] at is
      exact inv.pos b x is
    have self := live₂ c.aux
    rw [if_pos rfl] at self
    split
    · obtain ⟨t, g, deleted, shape₂, counted₂, live₃, into', same⟩ := srvdelete_spec shape₁ counted₁ self into
      rw [deleted]
      exact srvchkref_inv shape₂ counted₂ (fun b x ne is => pos₁ b x ne (same b ne ▸ is)) live₃ into'
    · exact srvchkref_inv shape₁ counted₁ pos₁ self into

/-- A new file is put in the list of a directory. -/
theorem Inv.enlist {g : SrvFile} (inv : s.Inv) (live : s.get d = some g) (none : g.dir = none) (path : f.path = s.pathgen)
    (here : f.removed = false) (dir : f.dir = some d) (ref : f.ref = 2) (alive : (f.rdclose && f.wrclose) = false)
    (new : ∀ b x, b ∈ s.entry d → s.get b = some x → x.name ≠ f.name) :
    ((s.put d { g with ref := g.ref + 1 }).enlist d f).Inv := by
  have alike : Alike g { g with ref := g.ref + 1 } := ⟨rfl, rfl, rfl, rfl⟩
  have shape := inv.shape.put live alike
  have counted : (s.put d { g with ref := g.ref + 1 }).Counted (only d) := by
    refine inv.counted.put live rfl fun b => ?_
    simp only [SrvFile.holds, only]
    split <;> omega
  have live' := get_put live { g with ref := g.ref + 1 }
  have self := live' d
  rw [if_pos rfl] at self
  have ne : d ≠ (s.put d { g with ref := g.ref + 1 }).file.length := Nat.ne_of_lt (look_lt self)
  have shape' := shape.push (f := f) path here (fun e is => by
      rw [dir] at is
      cases is
      exact ⟨_, self, none⟩) fun e is b x mem there name => by
    rw [dir] at is
    cases is
    obtain ⟨y, there', like⟩ := get_alike live alike there
    exact new b y mem there' (like.name.symm.trans name)
  have counted' := counted.push (f := f) (fun _ => 0)
    (Function.update s.entry d ((s.put d { g with ref := g.ref + 1 }).file.length :: s.entry d)) s.devices (s.pathgen + 1) shape
    (by rw [dir]; exact fun same => ne (Option.some.inj same)) (by simp [ref, SrvFile.holds, dir, here, alive])
    fun b _ => by simp [dir, only, eq_comm]
  rw [dir] at shape'
  refine ⟨shape', counted', fun b x is => ?_⟩
  change look ((s.put d { g with ref := g.ref + 1 }).file ++ [some f]) b = some x at is
  rw [look_append] at is
  split at is
  · cases is
    omega
  · change (s.put d { g with ref := g.ref + 1 }).get b = some x at is
    rw [live'] at is
    split at is
    · cases is
      have := inv.pos _ g live
      dsimp only
      omega
    · exact inv.pos b x is

theorem srvf2c_spec (inv : s.Inv) (at_ : look s.chan i = some c) (file user : String) (more : Bool) :
    ∃ s', s.srvf2c c file user more = some s' ∧ s'.Inv := by
  obtain ⟨d, live, path, dir⟩ := inv.shape.chans i c at_
  unfold srvf2c
  split
  · exact ⟨s, rfl, inv⟩
  · split
    · exact ⟨s, rfl, inv⟩
    · rename_i isDir
      split
      · exact ⟨s, rfl, inv⟩
      · rename_i unnamed
        split
        · exact ⟨s, rfl, inv⟩
        · rw [live]
          have none : d.dir = none := by
            rw [← Option.isNone_iff_eq_none, dir]
            simpa using isDir
          refine ⟨_, rfl, inv.enlist live none rfl rfl rfl rfl rfl fun b g mem there name => unnamed ?_⟩
          exact List.find?_isSome.mpr ⟨b, mem, by rw [there]; exact beq_iff_eq.mpr name⟩

/-- A channel of a file is finalised, for the first time. -/
theorem srvfree_spec (inv : s.Inv) (live : s.get a = some f) (dir : f.dir = some d) {rd : Bool}
    (first : (if rd then f.rdclose else f.wrclose) = false) : ∃ s', s.srvfree a rd = some s' ∧ s'.Inv := by
  unfold srvfree
  rw [live, Option.bind_some]
  extract_lets g t
  have alike : Alike f g := ⟨rfl, rfl, rfl, rfl⟩
  have shape : t.Shape := inv.shape.put live alike
  have live₁ := get_put live g
  have self : t.get a = some g := (live₁ a).trans (if_pos rfl)
  have holds : g.ref - g.holds - (f.ref - f.holds) = if g.rdclose && g.wrclose then 1 else 0 := by
    have open_ : (f.rdclose && f.wrclose) = false := by
      cases rd <;> simp_all
    simp only [SrvFile.holds, dir, g, open_, reduceCtorEq, Bool.false_eq_true, if_false]
    split <;> split <;> simp_all
  split
  · rename_i both
    have counted : t.Counted (only a) := by
      refine inv.counted.put live rfl fun b => ?_
      rw [holds, if_pos both]
      simp [only]
    have shape₂ := shape.put (g := { g with ref := g.ref - 1 }) self ⟨rfl, rfl, rfl, rfl⟩
    have counted₂ : (t.put a { g with ref := g.ref - 1 }).Counted fun _ => 0 := by
      refine counted.put self rfl fun b => ?_
      simp only [SrvFile.holds, only]
      split <;> omega
    have live₂ := get_put self { g with ref := g.ref - 1 }
    have self₂ := live₂ a
    rw [if_pos rfl] at self₂
    obtain ⟨u, x, deleted, shape₃, counted₃, self₃, dir₃, same⟩ := srvdelete_spec shape₂ counted₂ self₂ dir
    rw [unref, self, Option.map_some, Option.bind_some, deleted, Option.bind_some]
    refine srvchkref_inv shape₃ counted₃ (fun b y ne is => ?_) self₃ dir₃
    rw [same b ne, live₂, if_neg ne, live₁, if_neg ne] at is
    exact inv.pos b y is
  · rename_i one
    refine ⟨t, rfl, inv.put live alike ?_ (inv.pos a f live)⟩
    rw [if_neg one] at holds
    omega

/-- Each file has the references that are counted, what channels and lists have is
not freed, names in a directory are distinct, and a walk panics exactly if it stays
in the directory. -/
structure Ok (s : Srv) : Prop where
  counted : ∀ a f, s.get a = some f → 0 < f.ref ∧ f.ref = s.onChan a + f.dir.elim (s.filesIn a : Int)
    fun d => (s.entry d).count a + if f.rdclose && f.wrclose then 0 else 1
  live : ∀ i c, look s.chan i = some c → ∃ f, s.get c.aux = some f ∧ f.path = c.path ∧ f.dir.isNone = c.isDir
  listed : ∀ d a, a ∈ s.entry d → ∃ f, s.get a = some f ∧ f.dir = some d
  names : ∀ d, (s.entry d).Pairwise fun a b => ∀ f g, s.get a = some f → s.get b = some g → f.name ≠ g.name
  walks : ∀ i c names, look s.chan i = some c → ((s.srvwalk c names).isSome ↔ ¬Dots c names)
  clunks : ∀ i c remove user, look s.chan i = some c → (s.srvclunk i c remove user).isSome

theorem Inv.ok (inv : s.Inv) : s.Ok := by
  refine ⟨fun a f live => ⟨inv.pos a f live, ?_⟩, inv.shape.chans, fun d a mem => ?_, fun d => ?_, fun i c names at_ =>
    (srvwalk_spec inv at_ names).1, fun i c remove user at_ => ?_⟩
  · have count : f.ref = s.onChan a + s.filesIn a + f.holds + 0 := inv.counted a f live
    cases dir : f.dir with
    | none =>
      simp only [SrvFile.holds, dir, if_true] at count
      dsimp only [Option.elim]
      omega
    | some d =>
      have files := filesIn_file inv.shape live (by rw [dir]; exact Option.some_ne_none d)
      have listed : (s.entry d).count a = if f.removed then 0 else 1 := by
        split
        · rename_i removed
          refine List.count_eq_zero.mpr fun mem => ?_
          obtain ⟨x, there, _, here⟩ := (inv.shape.listed d a).mp mem
          rw [live] at there
          cases there
          rw [removed] at here
          cases here
        · rename_i here
          exact List.count_eq_one_of_mem (inv.shape.once d) ((inv.shape.listed d a).mpr ⟨f, live, dir, by simpa using here⟩)
      simp only [SrvFile.holds, dir, reduceCtorEq, if_false] at count
      dsimp only [Option.elim]
      rw [listed]
      split <;> simp_all
  · obtain ⟨f, live, dir, _⟩ := (inv.shape.listed d a).mp mem
    exact ⟨f, live, dir⟩
  · refine (inv.shape.once d).imp_of_mem fun inA inB ne f g is is' name => ?_
    exact ne (inv.shape.names d _ _ f g inA inB is is' name)
  · obtain ⟨s', is, _⟩ := srvclunk_spec inv at_ remove user
    rw [is]
    rfl

theorem inv_init : init.Inv :=
  ⟨⟨fun _ _ no => (nomatch no), fun _ _ _ no => (nomatch no), fun _ _ => ⟨fun no => (nomatch no), fun ⟨_, no, _⟩ => nomatch no⟩,
    fun _ => List.nodup_nil, fun _ _ _ _ _ no => (nomatch no), fun _ _ _ _ no => (nomatch no), fun _ _ no => (nomatch no),
    fun _ => ⟨fun no => (nomatch no), fun ⟨_, no, _⟩ => nomatch no⟩, List.nodup_nil⟩,
    fun _ _ no => (nomatch no), fun _ _ no => nomatch no⟩

theorem exec_inv {e : SrvAct} (inv : s.Inv) (ran : e.exec s = some s') : s'.Inv := by
  cases e with
  | attach spec user pgrpid more =>
    cases ran
    exact inv.srvattach spec user pgrpid more
  | walk c names =>
    obtain ⟨ch, at_, ran⟩ := Option.bind_eq_some_iff.mp ran
    split at ran
    · nomatch ran
    · exact (srvwalk_spec inv at_ names).2 s' ran
  | opens c omode user eve =>
    obtain ⟨ch, at_, ran⟩ := Option.bind_eq_some_iff.mp ran
    split at ran
    · nomatch ran
    · exact inv.srvopen at_ ran
  | clunk c remove user =>
    obtain ⟨ch, at_, ran⟩ := Option.bind_eq_some_iff.mp ran
    obtain ⟨t, is, inv⟩ := srvclunk_spec inv at_ remove user
    exact Option.some.inj (is.symm.trans ran) ▸ inv
  | f2c c file user more =>
    obtain ⟨ch, at_, ran⟩ := Option.bind_eq_some_iff.mp ran
    obtain ⟨t, is, inv⟩ := srvf2c_spec inv at_ file user more
    exact Option.some.inj (is.symm.trans ran) ▸ inv
  | final a rd =>
    obtain ⟨f, live, ran⟩ := Option.bind_eq_some_iff.mp ran
    by_cases first : (f.dir.isNone || if rd then f.rdclose else f.wrclose) = true
    · rw [if_pos first] at ran
      nomatch ran
    · rw [if_neg first] at ran
      rw [Bool.or_eq_true, not_or] at first
      obtain ⟨d, dir⟩ := Option.ne_none_iff_exists'.mp (fun is : f.dir = none => first.1 (by rw [is]; rfl))
      obtain ⟨t, is, inv⟩ := srvfree_spec inv live dir (Bool.eq_false_iff.mpr first.2)
      exact Option.some.inj (is.symm.trans ran) ▸ inv

end Srv

end Inferno.Dev
