import Inferno.Ns.CopyIds

namespace Inferno.Ns

open Lib

variable {w w' : Mounts} {hs : Nat → Fin 32 → List Href} {ms : Href → List Mref} {a : NAct} {p : Nat}

/-- No list of a head in a chain is empty. -/
def Filled (hs : Nat → Fin 32 → List Href) (ms : Href → List Mref) : Prop := ∀ p b, ∀ m ∈ hs p b, ms m ≠ []

/-- Where nothing is mounted on the directory yet, `cmount` finds memory for what
must be on its list; and the copy of a name space is whole. -/
def NAct.Fills (a : NAct) (w : Mounts) : Prop :=
  match a with
  | cmount p new umh old flag _ mem => w.Fills p new umh old flag mem
  | fork src mem => (w.fork src mem).2 = true
  | _ => True

theorem Filled.step {m : Href} {hs' : Nat → Fin 32 → List Href} {ms' : Href → List Mref}
    (filled : Filled hs ms) (step : Step p m w hs ms w' hs' ms') (own : ∀ c, ∀ k ∈ hs' p c, ms' k ≠ []) :
    Filled hs' ms' := by
  intro q c k here
  by_cases same : q = p
  · subst same
    exact own c k here
  · rw [step.others q same] at here
    have ne : k ≠ m := fun eq => step.apart q same c (eq ▸ here)
    rw [step.lists ne]
    exact filled q c k here

namespace Mounts

theorem init_shape : Shape init (fun _ _ => []) fun _ => [] :=
  ⟨fun _ _ => rfl, fun _ => rfl, fun here => (nomatch here), fun here => (nomatch here), fun here => (nomatch here),
    fun here => (nomatch here), fun _ => rfl, fun _ _ => rfl, fun here => (nomatch here), fun here => (nomatch here)⟩

theorem newpgrp_shape (shape : Shape w hs ms) : Shape { w with pgrps := w.pgrps + 1 } hs ms :=
  ⟨shape.chain, shape.list, shape.apart, shape.head, shape.live, shape.heads, shape.fresh,
    fun new => shape.pgrps (Nat.le_of_succ_le new), shape.bucket, shape.once⟩

/-- The fork of a name space that exists. -/
theorem fork_spec {src : Nat} (mem : Nat) (shape : Shape w hs ms) (alive : src < w.pgrps) :
    ∃ hs' ms', Kept { w with pgrps := w.pgrps + 1 } hs ms w.pgrps (w.fork src mem).1 hs' ms' ∧
      (cost ms ((List.finRange 32).flatMap (hs src)) ≤ mem → (w.fork src mem).2 = true) ∧
      ((w.fork src mem).2 = true → ∃ ps, (ps.map Prod.snd).Nodup ∧ Numbered w (w.fork src mem).1 ps ∧
        ∀ j, List.Forall₂ (Mirror w ms (w.fork src mem).1 ms' ps) (hs src j) (hs' w.pgrps j)) := by
  obtain ⟨hs', ms', kept, enough, done⟩ := pgrpcpy_spec mem (newpgrp_shape shape) (Nat.ne_of_lt alive)
    (Nat.lt_succ_self _) (shape.pgrps (Nat.le_refl _))
  refine ⟨hs', ms', kept, enough, fun ok => ?_⟩
  obtain ⟨ps, once, numbered, mirrored⟩ := done ok
  exact ⟨ps, once, ⟨numbered.node, numbered.order, numbered.distinct⟩, mirrored⟩

end Mounts

/-- A step keeps the shape, and in a safe step the lists stay filled. -/
theorem exec_shape (shape : Shape w hs ms) (ran : a.exec w = some w') :
    ∃ hs' ms', Shape w' hs' ms' ∧ (a.Fills w → Filled hs ms → Filled hs' ms') := by
  cases a with
  | newpgrp =>
    cases ran
    exact ⟨hs, ms, Mounts.newpgrp_shape shape, fun _ filled => filled⟩
  | cmount p new umh old flag spec mem =>
    simp only [NAct.exec] at ran
    split at ran
    · rename_i free
      cases ran
      obtain ⟨m, hs', ms', shape', step, _, _, _, _, full⟩ := Mounts.cmount_spec new old flag spec mem shape
        free.1 free.2.2
      exact ⟨hs', ms', shape', fun fills filled => filled.step step (full fills fun c k here => filled p c k here)⟩
    · nomatch ran
  | cunmount p mnt mounted =>
    simp only [NAct.exec] at ran
    split at ran
    · cases ran
      obtain ⟨m, hs', ms', shape', step, _, full⟩ := Mounts.cunmount_spec p mnt mounted shape
      exact ⟨hs', ms', shape', fun _ filled => filled.step step (full fun c k here => filled p c k here)⟩
    · nomatch ran
  | fork src mem =>
    simp only [NAct.exec] at ran
    split at ran
    · rename_i free
      cases ran
      obtain ⟨hs', ms', kept, _, done⟩ := Mounts.fork_spec mem shape free.1
      refine ⟨hs', ms', kept.shape, fun ok filled q c k here => ?_⟩
      by_cases same : q = w.pgrps
      · subst same
        obtain ⟨ps, _, _, mirrored⟩ := done ok
        obtain ⟨f, member, _, nodes⟩ := exists_of_forall₂ (mirrored c) here
        intro empty
        rw [empty] at nodes
        exact filled src c f member (List.forall₂_nil_right_iff.mp nodes)
      · rw [kept.others q same] at here
        rw [kept.lists k (shape.heads here)]
        exact filled q c k here
    · nomatch ran

theorem run_shape {allowed : NAct → Mounts → Prop} (run : Run NAct.exec allowed Mounts.init w) :
    ∃ hs ms, Shape w hs ms :=
  run.invariant (fun w => ∃ hs ms, Shape w hs ms) ⟨_, _, Mounts.init_shape⟩ fun ⟨_, _, shape⟩ _ ran =>
    let ⟨hs', ms', shape', _⟩ := exec_shape shape ran
    ⟨hs', ms', shape'⟩

/-- The claims about a table: a head is in the bucket of its channel, there is one
head for a channel, and every list has an element. -/
structure Mounts.TableOk (w : Mounts) : Prop where
  bucket : ∀ p b, ∀ u ∈ w.table p b, mounth u.fromChan.ident.path = b
  once : ∀ p, (w.unions p).Pairwise fun u v => eqchan u.fromChan v.fromChan = false
  filled : ∀ p, ∀ u ∈ w.unions p, u.mount ≠ []

def names (l : List Elem) : List Chan := l.map fun e => e.node.chan

/-- What a mount of `new`, with the union `umh`, on `old` leaves. -/
structure Mounts.UnionOk (w w' : Mounts) (p : Nat) (new : Chan) (umh : Option Href) (old : Chan) (flag : Nat) : Prop where
  repl : flag &&& morder = mrepl → (w'.mounted p old).map names = some (new :: names (umh.elim [] w.listOf).tail)
  before : flag &&& morder = 1 → (w'.mounted p old).map names =
    some (new :: names (umh.elim [] w.listOf).tail ++ ((w.mounted p old).map names).getD [old])
  after : flag &&& morder = mafter → (w'.mounted p old).map names =
    some (((w.mounted p old).map names).getD [old] ++ new :: names (umh.elim [] w.listOf).tail)

theorem Shape.tableOk (shape : Shape w hs ms) (filled : Filled hs ms) : w.TableOk := by
  have unions (p : Nat) : w.unions p = (List.finRange 32).flatMap fun b =>
      (hs p b).map fun m => (⟨m, w.fromChan m, (ms m).map w.elem⟩ : Union) :=
    congrArg (List.flatMap · _) (funext fun b => shape.table_eq p b)
  refine ⟨?_, ?_, ?_⟩
  · intro p b u here
    rw [shape.table_eq] at here
    obtain ⟨m, member, rfl⟩ := List.mem_map.mp here
    exact shape.bucket member
  · intro p
    rw [unions, List.flatMap_def, List.pairwise_flatten]
    refine ⟨fun l here => ?_, ?_⟩
    · obtain ⟨b, _, rfl⟩ := List.mem_map.mp here
      refine List.pairwise_map.mpr ((List.nodup_iff_pairwise_ne.mp (shape.chain p b).nodup).imp_of_mem ?_)
      intro m k here there ne
      exact decide_eq_false fun same => ne (shape.once here there same)
    · refine List.pairwise_map.mpr ((List.nodup_iff_pairwise_ne.mp (List.nodup_finRange 32)).imp fun {b c} ne => ?_)
      intro u here v there
      obtain ⟨m, member, rfl⟩ := List.mem_map.mp here
      obtain ⟨k, member', rfl⟩ := List.mem_map.mp there
      refine decide_eq_false fun same => ne ?_
      rw [← shape.bucket member, ← shape.bucket member']
      exact congrArg (fun i : Ident => mounth i.path) same
  · intro p u here
    rw [unions] at here
    obtain ⟨b, _, here⟩ := List.mem_flatMap.mp here
    obtain ⟨m, member, rfl⟩ := List.mem_map.mp here
    exact fun empty => filled p b m member (List.map_eq_nil_iff.mp empty)

/-- In every run in which no head is left empty, every table is as it should be,
and a mount that succeeds leaves the union in the order asked for. -/
theorem mounts_ok (run : Run NAct.exec NAct.Fills Mounts.init w) :
    w.TableOk ∧ ∀ p new umh old flag spec mem w', (NAct.cmount p new umh old flag spec mem).exec w = some w' →
      (w.cmount p new umh old flag spec mem).2.isSome → w.UnionOk w' p new umh old flag := by
  obtain ⟨hs, ms, shape, filled⟩ := run.invariant (fun w => ∃ hs ms, Shape w hs ms ∧ Filled hs ms)
    ⟨_, _, Mounts.init_shape, fun _ _ _ here => (by cases here)⟩ fun given fills ran => by
      obtain ⟨_, _, shape, filled⟩ := given
      obtain ⟨hs', ms', shape', keeps⟩ := exec_shape shape ran
      exact ⟨hs', ms', shape', keeps fills filled⟩
  refine ⟨shape.tableOk filled, ?_⟩
  intro p new umh old flag spec mem w' ran ok
  simp only [NAct.exec] at ran
  split at ran
  · rename_i free
    cases ran
    obtain ⟨m, hs', ms', shape', _, _, _, result, _⟩ := Mounts.cmount_spec new old flag spec mem shape
      free.1 free.2.2
    obtain ⟨member, same, list, _⟩ := result ok
    have tails : chans w (tailOf ms umh) = names (umh.elim [] w.listOf).tail := by
      cases umh with
      | none => rfl
      | some k =>
        rw [Option.elim_some, shape.listOf_eq, tailOf, names, ← List.map_tail, List.map_map]
        rfl
    have whole : ((w.cmount p new umh old flag spec mem).1.mounted p old).map names =
        some (ordered (flag &&& morder) (new :: names (umh.elim [] w.listOf).tail)
          (((w.mounted p old).map names).getD [old])) := by
      rw [shape'.mounted_eq member same, Option.map_some, names, List.map_map, ← tails]
      exact congrArg some list
    refine ⟨fun order => ?_, fun order => ?_, fun order => ?_⟩
    · rw [whole, order]
      rfl
    · rw [whole, order]
      rfl
    · rw [whole, order]
      rfl
  · cases ran

/-- Two directories, and a channel to mount. -/
def dirA : Chan := ⟨1, ⟨0, 0, 1⟩, true, none⟩
def dirB : Chan := ⟨2, ⟨0, 0, 2⟩, true, none⟩
def server : Chan := ⟨3, ⟨7, 0, 0⟩, true, none⟩

/-- `newmount` raises after the head of a directory is linked. -/
theorem head_left_empty : ∃ w, Run NAct.exec (fun _ _ => True) Mounts.init w ∧ ¬w.TableOk := by
  have left : ((Run.steps NAct.exec [.newpgrp, .cmount 0 server none dirA mrepl none 0] Mounts.init).map
      fun w => w.unions 0) = some [⟨0, dirA, []⟩] := by decide
  obtain ⟨w, ran, empty⟩ := Option.map_eq_some_iff.mp left
  refine ⟨w, Run.of_steps ran, fun ok => ok.filled 0 ⟨0, dirA, []⟩ ?_ rfl⟩
  rw [empty]
  exact List.mem_singleton.mpr rfl

theorem mounts_ok_bind : ∃ w : Mounts, w.unions 0 = [⟨0, dirA, [⟨0, 1, ⟨0, server, mrepl, none⟩⟩]⟩] ∧ w.TableOk := by
  have first : Run NAct.exec NAct.Fills Mounts.init { Mounts.init with pgrps := 1 } :=
    Run.start.step (a := .newpgrp) trivial rfl
  have ran : Run NAct.exec NAct.Fills Mounts.init ({ Mounts.init with pgrps := 1 }.cmount 0 server none dirA mrepl none 1).1 :=
    first.step (a := .cmount 0 server none dirA mrepl none 1) (fun _ _ => Nat.lt_succ_self 0) (by
      simp only [NAct.exec]
      exact if_pos ⟨Nat.lt_succ_self 0, rfl, fun _ wrong => (nomatch wrong)⟩)
  exact ⟨_, by decide, (mounts_ok ran).1⟩

end Inferno.Ns
