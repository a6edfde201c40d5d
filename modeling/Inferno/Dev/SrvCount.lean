import Inferno.Dev.SrvShape

namespace Inferno.Dev

open Lib

namespace Srv

variable {s s' : Srv} {a b d i : Nat} {f g : SrvFile} {c : Chan} {h h' : Nat → Int}

def onChan (s : Srv) (a : Nat) : Nat := tally (·.aux == a) s.chan

def filesIn (s : Srv) (a : Nat) : Nat := tally (·.dir == some a) s.file

/-- The references of a file itself: it is in its list, and one of its channels is open. -/
def SrvFile.holds (f : SrvFile) : Int :=
  if f.dir = none then 0 else (if f.removed then 0 else 1) + if f.rdclose && f.wrclose then 0 else 1

/-- Each count, but for what the operation in progress has yet to give back. -/
def Counted (s : Srv) (h : Nat → Int) : Prop :=
  ∀ a f, s.get a = some f → f.ref = s.onChan a + s.filesIn a + f.holds + h a

def only (a : Nat) : Nat → Int := fun b => if b = a then 1 else 0

theorem Counted.put (counted : s.Counted h) (there : s.get a = some f) (dir : g.dir = f.dir)
    (moved : ∀ b, h' b = h b + if b = a then (g.ref - g.holds) - (f.ref - f.holds) else 0) : (s.put a g).Counted h' := by
  have files (b : Nat) : (s.put a g).filesIn b = s.filesIn b := by
    have count := tally_set (p := (·.dir == some b)) (look_lt there) (some g)
    have is : look s.file a = some f := there
    rw [is] at count
    simp only [Option.any, dir] at count
    change tally _ (s.file.set a (some g)) = _
    exact Nat.add_right_cancel count
  intro b x is
  rw [get_put there] at is
  rw [files, moved]
  change x.ref = s.onChan b + _ + _ + _
  split at is
  · rename_i same
    subst same
    cases is
    have old := counted b f there
    rw [if_pos rfl]
    omega
  · rename_i other
    have old := counted b x is
    rw [if_neg other]
    omega

theorem Counted.dropChan (counted : s.Counted h) (at_ : look s.chan i = some c)
    (moved : ∀ b, h' b = h b + only c.aux b) : Counted { s with chan := s.chan.set i none } h' := by
  intro b x is
  have old := counted b x is
  have count := tally_set (p := (·.aux == b)) (look_lt at_) none
  rw [at_] at count
  rw [moved]
  change x.ref = (tally (·.aux == b) (s.chan.set i none) : Nat) + s.filesIn b + x.holds + _
  simp only [Option.any, Bool.toNat_false, Nat.add_zero, onChan, only] at count old ⊢
  by_cases same : b = c.aux
  · simp only [same, BEq.rfl, Bool.toNat_true, if_true] at *
    omega
  · have other : (c.aux == b) = false := beq_eq_false_iff_ne.mpr (Ne.symm same)
    simp only [other, same, Bool.toNat_false, if_false] at *
    omega

theorem Counted.pushChan (counted : s.Counted h) (moved : ∀ b, h b = h' b + only c.aux b) :
    Counted { s with chan := s.chan ++ [some c] } h' := by
  intro b x is
  have old := counted b x is
  rw [moved] at old
  change x.ref = (tally (·.aux == b) (s.chan ++ [some c]) : Nat) + s.filesIn b + x.holds + _
  rw [tally_append]
  simp only [Option.any, onChan, only] at old ⊢
  by_cases same : b = c.aux
  · simp only [same, BEq.rfl, Bool.toNat_true, if_true] at *
    omega
  · have other : (c.aux == b) = false := beq_eq_false_iff_ne.mpr (Ne.symm same)
    simp only [other, same, Bool.toNat_false, if_false] at *
    omega

theorem Counted.free (counted : s.Counted h) (there : s.get a = some f) {devices : List Nat}
    (moved : ∀ b, b ≠ a → h' b = h b + if f.dir = some b then 1 else 0) : Counted { s.free a with devices } h' := by
  intro b x is
  change (s.free a).get b = some x at is
  rw [get_free there] at is
  split at is
  · nomatch is
  · rename_i other
    have old := counted b x is
    have count := tally_set (p := (·.dir == some b)) (look_lt there) none
    have here : look s.file a = some f := there
    rw [here] at count
    rw [moved b other]
    change x.ref = s.onChan b + (tally (·.dir == some b) (s.file.set a none) : Nat) + x.holds + _
    simp only [Option.any, Bool.toNat_false, Nat.add_zero, filesIn] at count old ⊢
    by_cases same : f.dir = some b
    · simp only [same, BEq.rfl, Bool.toNat_true, if_true] at *
      omega
    · have other : (f.dir == some b) = false := beq_eq_false_iff_ne.mpr same
      simp only [other, same, Bool.toNat_false, if_false] at *
      omega

theorem Unused.of_counts (shape : s.Shape) (chans : s.onChan a = 0) (files : s.filesIn a = 0) : s.Unused a := by
  refine ⟨fun i c is same => ?_, fun b f is same => ?_⟩
  · have pos : 0 < s.onChan a := tally_pos is (beq_iff_eq.mpr same)
    omega
  · have pos : 0 < s.filesIn a := tally_pos is (beq_iff_eq.mpr same)
    omega

theorem onChan_fresh (shape : s.Shape) : s.onChan s.file.length = 0 := by
  by_contra some_
  obtain ⟨i, c, is, same⟩ := exists_of_tally (Nat.pos_of_ne_zero some_)
  obtain ⟨f, live, _⟩ := shape.chans i c is
  rw [beq_iff_eq.mp same, Srv.get, look_length] at live
  cases live

theorem filesIn_fresh (shape : s.Shape) : s.filesIn s.file.length = 0 := by
  by_contra some_
  obtain ⟨i, f, is, same⟩ := exists_of_tally (Nat.pos_of_ne_zero some_)
  obtain ⟨g, live, _⟩ := shape.dirs i f _ is (beq_iff_eq.mp same)
  rw [Srv.get, look_length] at live
  cases live

/-- A file has no files in it. -/
theorem filesIn_file (shape : s.Shape) (there : s.get a = some f) (dir : f.dir ≠ none) : s.filesIn a = 0 := by
  by_contra some_
  obtain ⟨i, g, is, same⟩ := exists_of_tally (Nat.pos_of_ne_zero some_)
  obtain ⟨f', live, none⟩ := shape.dirs i g a is (beq_iff_eq.mp same)
  rw [there] at live
  cases live
  exact dir none

theorem Counted.push (counted : s.Counted h) (h' : Nat → Int) (entry : Nat → List Nat) (devices : List Nat) (pathgen : Nat)
    (shape : s.Shape) (self : f.dir ≠ some s.file.length) (own : f.ref = f.holds + h' s.file.length)
    (moved : ∀ b, b ≠ s.file.length → h b = h' b + if f.dir = some b then 1 else 0) :
    Counted { s with file := s.file ++ [some f], entry, devices, pathgen } h' := by
  intro b x is
  change look (s.file ++ [some f]) b = some x at is
  rw [look_append] at is
  change x.ref = s.onChan b + (tally (·.dir == some b) (s.file ++ [some f]) : Nat) + x.holds + _
  rw [tally_append]
  simp only [Option.any]
  split at is
  · rename_i same
    subst same
    cases is
    have other : (f.dir == some s.file.length) = false := beq_eq_false_iff_ne.mpr self
    have chans := onChan_fresh shape
    have files := filesIn_fresh shape
    simp only [filesIn] at files
    rw [other, Bool.toNat_false]
    omega
  · rename_i other
    have old := counted b x is
    rw [moved b other] at old
    simp only [filesIn] at old
    by_cases same : f.dir = some b
    · simp only [same, BEq.rfl, Bool.toNat_true, if_true] at *
      omega
    · have other : (f.dir == some b) = false := beq_eq_false_iff_ne.mpr same
      simp only [other, same, Bool.toNat_false, if_false] at *
      omega

/-- Between operations. -/
structure Inv (s : Srv) : Prop where
  shape : s.Shape
  counted : s.Counted fun _ => 0
  pos : ∀ a f, s.get a = some f → 0 < f.ref

theorem Inv.put (inv : s.Inv) (there : s.get a = some f) (alike : Alike f g) (same : g.ref - g.holds = f.ref - f.holds)
    (pos : 0 < g.ref) : (s.put a g).Inv := by
  refine ⟨inv.shape.put there alike, inv.counted.put there alike.dir fun b => ?_, fun b x is => ?_⟩
  · split <;> omega
  · rw [get_put there] at is
    split at is
    · cases is
      exact pos
    · exact inv.pos b x is

theorem Inv.addChan (inv : s.Inv) (there : s.get a = some f) {path : Nat} {isDir : Bool} (same : f.path = path)
    (dir : f.dir.isNone = isDir) : (s.addChan a f path isDir).Inv := by
  have alike : Alike f { f with ref := f.ref + 1 } := ⟨rfl, rfl, rfl, rfl⟩
  have live := get_put there { f with ref := f.ref + 1 } a
  rw [if_pos rfl] at live
  have counted : (s.put a { f with ref := f.ref + 1 }).Counted (only a) := by
    refine inv.counted.put there rfl fun b => ?_
    simp only [only, SrvFile.holds]
    split <;> omega
  refine ⟨(inv.shape.put there alike).pushChan (c := ⟨a, path, isDir, false⟩) live same dir,
    counted.pushChan fun b => by simp [only], fun b x is => ?_⟩
  change (s.put a { f with ref := f.ref + 1 }).get b = some x at is
  rw [get_put there] at is
  split at is
  · cases is
    have := inv.pos a f there
    dsimp only
    omega
  · exact inv.pos b x is

/-- One reference to a directory is given back. -/
theorem srvputdir_inv (shape : s.Shape) (counted : s.Counted (only d)) (pos : ∀ a f, s.get a = some f → 0 < f.ref)
    (there : s.get d = some g) (dir : g.dir = none) : ∃ s', s.srvputdir d = some s' ∧ s'.Inv := by
  unfold srvputdir
  rw [there]
  refine ⟨_, rfl, ?_⟩
  dsimp only
  have count := counted d g there
  simp only [SrvFile.holds, dir, if_true, only] at count
  split
  · rename_i more
    refine ⟨shape.put there ⟨rfl, rfl, rfl, rfl⟩, counted.put there rfl fun b => ?_, fun b x is => ?_⟩
    · simp only [SrvFile.holds, only]
      split <;> omega
    · rw [get_put there] at is
      split at is
      · cases is
        dsimp only
        omega
      · exact pos b x is
  · rename_i last
    have unused : s.Unused d := Unused.of_counts shape (by omega) (by omega)
    refine ⟨shape.free there unused (Or.inl dir), counted.free there fun b ne => ?_, fun b x is => ?_⟩
    · simp [dir, only, ne]
    · change (s.free d).get b = some x at is
      rw [get_free there] at is
      split at is
      · nomatch is
      · exact pos b x is

theorem free_comm (ne : a ≠ d) (there : s.get a = some f) :
    (s.srvputdir d).map (fun s => s.free a) = (s.free a).srvputdir d := by
  unfold srvputdir
  rw [get_free there, if_neg (Ne.symm ne), Option.map_map]
  refine Option.map_congr fun g _ => ?_
  dsimp only [Function.comp]
  split
  · simp only [Srv.free, Srv.put, List.set_comm _ _ (Ne.symm ne)]
  · simp only [Srv.free, List.set_comm _ _ (Ne.symm ne)]

/-- The end of the operations on a file, which is freed with its last reference. -/
theorem srvchkref_inv (shape : s.Shape) (counted : s.Counted fun _ => 0)
    (pos : ∀ b x, b ≠ a → s.get b = some x → 0 < x.ref) (there : s.get a = some f) (dir : f.dir = some d) :
    ∃ s', s.srvchkref a = some s' ∧ s'.Inv := by
  unfold srvchkref
  rw [there]
  dsimp only [Option.bind]
  have count : f.ref = s.onChan a + s.filesIn a + f.holds + 0 := counted a f there
  have holds : 0 ≤ f.holds := by
    unfold SrvFile.holds
    split
    · exact Int.le_refl 0
    · split <;> split <;> decide
  split
  · rename_i more
    refine ⟨s, rfl, shape, counted, fun b x is => ?_⟩
    by_cases same : b = a
    · subst same
      rw [there] at is
      cases is
      omega
    · exact pos b x same is
  · rename_i last
    obtain ⟨g, parent, none⟩ := shape.dirs a f d there dir
    have ne : a ≠ d := by
      rintro rfl
      rw [there] at parent
      cases parent
      rw [dir] at none
      nomatch none
    have unused : s.Unused a := Unused.of_counts shape (by omega) (by omega)
    have removed : f.removed = true := by
      by_contra here
      simp only [SrvFile.holds, dir, reduceCtorEq, if_false, if_neg here] at count
      split at count <;> omega
    rw [dir]
    dsimp only [Option.elim]
    rw [free_comm ne there]
    have same : s.devices.erase a = s.devices := by
      refine List.erase_of_not_mem fun mem => ?_
      obtain ⟨x, live, none⟩ := (shape.devices a).mp mem
      rw [there] at live
      cases live
      rw [dir] at none
      nomatch none
    have shape' := shape.free there unused (Or.inr removed)
    have counted' : Counted { s.free a with devices := s.devices.erase a } (only d) := by
      refine counted.free there fun b _ => ?_
      simp only [dir, only, Option.some.injEq, Int.zero_add, eq_comm]
    rw [same] at shape' counted'
    refine srvputdir_inv shape' counted' (fun b x is => ?_) ?_ none
    · change (s.free a).get b = some x at is
      rw [get_free there] at is
      split at is
      · nomatch is
      · rename_i other
        exact pos b x other is
    · rw [get_free there, if_neg (Ne.symm ne)]
      exact parent

theorem srvdelete_spec {h : Nat → Int} (shape : s.Shape) (counted : s.Counted h) (there : s.get a = some f) (dir : f.dir = some d) :
    ∃ s' g, s.srvdelete a = some s' ∧ s'.Shape ∧ s'.Counted h ∧ s'.get a = some g ∧ g.dir = some d ∧
      ∀ b, b ≠ a → s'.get b = s.get b := by
  unfold srvdelete
  rw [there]
  dsimp only [Option.map]
  split
  · exact ⟨s, f, rfl, shape, counted, there, dir, fun _ _ => rfl⟩
  · rename_i here
    have erased : f.dir.elim s.entry (fun d => Function.update s.entry d ((s.entry d).erase a)) =
        Function.update s.entry d ((s.entry d).erase a) := by rw [dir]; rfl
    rw [erased]
    refine ⟨_, { f with ref := f.ref - 1, removed := true }, rfl, shape.delete there dir _, ?_, ?_, dir, fun b ne => ?_⟩
    · have moved : (s.put a { f with ref := f.ref - 1, removed := true }).Counted h := by
        refine counted.put there rfl fun b => ?_
        simp only [SrvFile.holds, dir, reduceCtorEq, if_false, if_neg here, if_true]
        split
        · split <;> omega
        · exact (Int.add_zero _).symm
      exact moved
    · change (s.put a _).get a = _
      rw [get_put there, if_pos rfl]
    · change (s.put a _).get b = _
      rw [get_put there, if_neg ne]

end Srv

end Inferno.Dev
