import Inferno.Ns.MountRun

namespace Inferno.Ns

open Lib

/-- A head without its address, with the channel, the flags and the spec of each element. -/
def Union.bare (u : Union) : Chan × List (Chan × Nat × Option (List UInt8)) :=
  (u.fromChan, u.mount.map fun e => (e.node.chan, e.node.mflag, e.node.spec))

/-- The mount ids of a table in the order of its chains and lists. -/
def Mounts.ids (w : Mounts) (p : Nat) : List Nat := (w.unions p).flatMap fun u => u.mount.map Elem.mountid

/-- A mount or an unmount in the name space `p`. -/
def NAct.On (p : Nat) : NAct → Prop
  | cmount q _ _ _ _ _ _ => q = p
  | cunmount q _ _ => q = p
  | _ => False

/-- The new name space of `w'` is a copy of `src`. -/
structure CopyOk (w w' : Mounts) (src : Nat) : Prop where
  same : ∀ b, (w'.table w.pgrps b).map Union.bare = (w.table src b).map Union.bare
  distinct : (w'.ids w.pgrps).Nodup
  order : ∀ i j a b c d : Nat, (w.ids src)[i]? = some a → (w.ids src)[j]? = some b →
    (w'.ids w.pgrps)[i]? = some c → (w'.ids w.pgrps)[j]? = some d → (a < b ↔ c < d)
  kept : w'.table src = w.table src
  copyApart : ∀ w'', Run NAct.exec (fun a _ => a.On src) w' w'' → w''.table w.pgrps = w'.table w.pgrps
  srcApart : ∀ w'', Run NAct.exec (fun a _ => a.On w.pgrps) w' w'' → w''.table src = w'.table src

variable {w₀ w w' : Mounts} {hs₀ hs hs' : Nat → Fin 32 → List Href} {ms₀ ms ms' : Href → List Mref} {a : NAct}
  {p q src dst mem : Nat} {ps : List (Mref × Mref)}

/-- A mount or unmount in `p` leaves every other table. -/
theorem exec_apart (shape : Shape w hs ms) (on : a.On p) (ran : a.exec w = some w') (other : q ≠ p) :
    w'.table q = w.table q := by
  cases a with
  | newpgrp => exact on.elim
  | cmount k new umh old flag spec mem =>
    cases on
    simp only [NAct.exec] at ran
    split at ran
    · rename_i free
      cases ran
      obtain ⟨_, _, _, shape', step, _⟩ := Mounts.cmount_spec new old flag spec mem shape
        free.1 free.2.2
      exact step.table_eq shape shape' other
    · cases ran
  | cunmount k mnt mounted =>
    cases on
    simp only [NAct.exec] at ran
    split at ran
    · cases ran
      obtain ⟨_, _, _, shape', step, _⟩ := Mounts.cunmount_spec p mnt mounted shape
      exact step.table_eq shape shape' other
    · cases ran
  | fork _ _ => exact on.elim

theorem run_apart (shape : Shape w hs ms) (run : Run NAct.exec (fun a _ => a.On p) w w') (other : q ≠ p) :
    w'.table q = w.table q := by
  refine (run.invariant (fun v => (∃ hs ms, Shape v hs ms) ∧ v.table q = w.table q) ⟨⟨hs, ms, shape⟩, rfl⟩ ?_).2
  intro a v v' ⟨⟨hs, ms, shape⟩, same⟩ on ran
  obtain ⟨hs', ms', shape', _⟩ := exec_shape shape ran
  exact ⟨⟨hs', ms', shape'⟩, (exec_apart shape on ran other).trans same⟩

/-- The other tables are as they were before the copy. -/
theorem Kept.table_eq (kept : Kept w₀ hs₀ ms₀ dst w hs ms) (shape₀ : Shape w₀ hs₀ ms₀) (other : q ≠ dst) :
    w.table q = w₀.table q := by
  funext b
  rw [shape₀.table_eq, kept.shape.table_eq, kept.others q other]
  refine List.map_congr_left fun k here => ?_
  have old := shape₀.heads here
  rw [kept.fromChan k old, kept.lists k old]
  congr 1
  exact List.map_congr_left fun x member => (kept.node x (shape₀.below k x member)).elem

/-- The nodes of a table. -/
def nodes (hs : Nat → Fin 32 → List Href) (ms : Href → List Mref) (p : Nat) : List Mref :=
  (List.finRange 32).flatMap fun b => (hs p b).flatMap ms

theorem Shape.ids_eq (shape : Shape w hs ms) (p : Nat) : w.ids p = (nodes hs ms p).map w.mountid := by
  simp only [Mounts.ids, Mounts.unions, nodes, List.flatMap_assoc, List.map_flatMap]
  refine List.flatMap_congr fun b _ => ?_
  rw [shape.table_eq, List.flatMap_map]
  refine List.flatMap_congr fun m _ => ?_
  rw [List.map_map]
  rfl

theorem Shape.nodes_nodup (shape : Shape w hs ms) (p : Nat) : (nodes hs ms p).Nodup := by
  refine List.nodup_flatMap.mpr ⟨fun b _ => List.nodup_flatMap.mpr ⟨fun m _ => (shape.list m).nodup, ?_⟩, ?_⟩
  · refine (List.nodup_iff_pairwise_ne.mp (shape.chain p b).nodup).imp fun {m k} ne x here there => ?_
    exact ne (shape.owner here there)
  · refine (List.nodup_iff_pairwise_ne.mp (List.nodup_finRange 32)).imp fun {b c} ne x here there => ?_
    obtain ⟨m, inB, here⟩ := List.mem_flatMap.mp here
    obtain ⟨k, inC, there⟩ := List.mem_flatMap.mp there
    exact ne (shape.apart inB (shape.owner here there ▸ inC)).2

theorem map_eq_of_forall₂ {α β γ : Type} {R : α → β → Prop} {xs : List α} {ys : List β} {f : α → γ} {g : β → γ}
    (all : List.Forall₂ R xs ys) (eq : ∀ x y, R x y → g y = f x) : ys.map g = xs.map f := by
  induction all with
  | nil => rfl
  | cons first _ ih => rw [List.map_cons, List.map_cons, eq _ _ first, ih]

theorem pair_of_forall₂ {xs cs : List Mref} (all : List.Forall₂ (fun x c => (x, c) ∈ ps) xs cs) {i x c : Nat}
    (here : xs[i]? = some x) (there : cs[i]? = some c) : (x, c) ∈ ps := by
  obtain ⟨bound, rfl⟩ := List.getElem?_eq_some_iff.mp here
  obtain ⟨bound', rfl⟩ := List.getElem?_eq_some_iff.mp there
  exact (List.forall₂_iff_get.mp all).2 i bound bound'

theorem ids_order {xs cs : List Mref} (all : List.Forall₂ (fun x c => (x, c) ∈ ps) xs cs) (numbered : Numbered w w' ps)
    (copies : (cs.map w'.mountid).Nodup) :
    (∀ i j a b c d : Nat, (xs.map w.mountid)[i]? = some a → (xs.map w.mountid)[j]? = some b →
      (cs.map w'.mountid)[i]? = some c → (cs.map w'.mountid)[j]? = some d → (a < b ↔ c < d)) ↔
      (xs.map w.mountid).Nodup := by
  have less {i j a b c d : Nat} (ai : (xs.map w.mountid)[i]? = some a) (bj : (xs.map w.mountid)[j]? = some b)
      (ci : (cs.map w'.mountid)[i]? = some c) (dj : (cs.map w'.mountid)[j]? = some d) (lt : a < b) : c < d := by
    rw [List.getElem?_map, Option.map_eq_some_iff] at ai bj ci dj
    obtain ⟨x, atX, rfl⟩ := ai
    obtain ⟨y, atY, rfl⟩ := bj
    obtain ⟨u, atU, rfl⟩ := ci
    obtain ⟨v, atV, rfl⟩ := dj
    exact numbered.order x u y v (pair_of_forall₂ all atX atU) (pair_of_forall₂ all atY atV) lt
  have length := (List.forall₂_iff_get.mp all).1
  constructor
  · intro order
    refine List.nodup_iff_getElem?_ne_getElem?.mpr fun i j lt bound same => ?_
    have iBound : i < (xs.map w.mountid).length := Nat.lt_trans lt bound
    have equal := List.getElem?_eq_getElem iBound
    have jBound : j < (cs.map w'.mountid).length := by
      rw [List.length_map] at bound ⊢
      exact length ▸ bound
    have ci := List.getElem?_eq_getElem (Nat.lt_trans lt jBound)
    have dj := List.getElem?_eq_getElem jBound
    have ne := List.nodup_iff_getElem?_ne_getElem?.mp copies i j lt jBound
    rw [ci, dj] at ne
    have forward := order i j _ _ _ _ equal (same ▸ equal) ci dj
    have backward := order j i _ _ _ _ (same ▸ equal) equal dj ci
    have notEq : (cs.map w'.mountid)[i] ≠ (cs.map w'.mountid)[j] := fun eq => ne (congrArg some eq)
    omega
  · intro nodup i j a b c d ai bj ci dj
    refine ⟨less ai bj ci dj, fun lt => ?_⟩
    rcases Nat.lt_trichotomy a b with before | rfl | behind
    · exact before
    · have same : i = j := by
        obtain ⟨iBound, _⟩ := List.getElem?_eq_some_iff.mp ai
        exact (List.getElem?_inj iBound nodup).mp (ai.trans bj.symm)
      subst same
      have eq : c = d := Option.some.inj (ci.symm.trans dj)
      omega
    · have contrary := less bj ai dj ci behind
      omega

/-- What a fork that returns has done: the copies of the nodes, in order. -/
theorem fork_pairs (shape : Shape w hs ms) (alive : src < w.pgrps) (returns : (w.fork src mem).2 = true) :
    ∃ hs' ms' ps, Kept { w with pgrps := w.pgrps + 1 } hs ms w.pgrps (w.fork src mem).1 hs' ms' ∧
      Numbered w (w.fork src mem).1 ps ∧
      (∀ j, List.Forall₂ (Mirror w ms (w.fork src mem).1 ms' ps) (hs src j) (hs' w.pgrps j)) ∧
      List.Forall₂ (fun x c => (x, c) ∈ ps) (nodes hs ms src) (nodes hs' ms' w.pgrps) ∧
      (((nodes hs' ms' w.pgrps)).map (w.fork src mem).1.mountid).Nodup := by
  obtain ⟨hs', ms', kept, _, done⟩ := Mounts.fork_spec mem shape alive
  obtain ⟨ps, _, numbered, mirrored⟩ := done returns
  have all : List.Forall₂ (fun x c => (x, c) ∈ ps) (nodes hs ms src) (nodes hs' ms' w.pgrps) := by
    refine List.rel_flatMap (R := Eq) (List.forall₂_refl _) fun b c eq => ?_
    subst eq
    exact List.rel_flatMap (mirrored b) fun _ _ mirror => mirror.2
  refine ⟨hs', ms', ps, kept, numbered, mirrored, all, ?_⟩
  refine (kept.shape.nodes_nodup w.pgrps).map_on fun c here d there same => ?_
  obtain ⟨x, _, pair⟩ := exists_of_forall₂ all here
  obtain ⟨y, _, pair'⟩ := exists_of_forall₂ all there
  by_contra ne
  exact numbered.distinct x c y d pair pair' ne same

theorem CopyOk.ids_nodup (shape : Shape w hs ms) (alive : src < w.pgrps) (returns : (w.fork src mem).2 = true)
    (ok : CopyOk w (w.fork src mem).1 src) : (w.ids src).Nodup := by
  obtain ⟨hs', ms', ps, kept, numbered, _, all, copies⟩ := fork_pairs shape alive returns
  have order := ids_order all numbered copies
  rw [← shape.ids_eq, ← kept.shape.ids_eq] at order
  exact order.mp ok.order

theorem copyOk_of_nodup (shape : Shape w hs ms) (alive : src < w.pgrps) (returns : (w.fork src mem).2 = true)
    (nodup : (w.ids src).Nodup) : CopyOk w (w.fork src mem).1 src := by
  obtain ⟨hs', ms', ps, kept, numbered, mirrored, all, copies⟩ := fork_pairs shape alive returns
  have order := ids_order all numbered copies
  rw [← shape.ids_eq, ← kept.shape.ids_eq] at order
  refine ⟨fun b => ?_, kept.shape.ids_eq w.pgrps ▸ copies, order.mpr nodup, ?_, ?_, ?_⟩
  · rw [shape.table_eq, kept.shape.table_eq, List.map_map, List.map_map]
    refine map_eq_of_forall₂ (mirrored b) fun f k mirror => Prod.ext mirror.1 ?_
    simp only [Function.comp_apply, Union.bare, List.map_map]
    refine map_eq_of_forall₂ mirror.2 fun x c pair => ?_
    obtain ⟨chan, mflag, spec⟩ := numbered.node x c pair
    simp only [Function.comp_apply, Mounts.elem, chan, mflag, spec]
  · exact kept.table_eq (Mounts.newpgrp_shape shape) (Nat.ne_of_lt alive)
  · exact fun w'' steps => run_apart kept.shape steps (Nat.ne_of_gt alive)
  · exact fun w'' steps => run_apart kept.shape steps (Nat.ne_of_lt alive)

namespace Mounts

theorem mountfree_ref (n : Nat) (w : Mounts) (m : Option Mref) :
    (mountfree n w m).ref = w.ref ∧ (mountfree n w m).ns = w.ns ∧ (mountfree n w m).pgrps = w.pgrps := by
  induction n generalizing w m with
  | zero => exact ⟨rfl, rfl, rfl⟩
  | succ n ih =>
    cases m with
    | none => exact ⟨rfl, rfl, rfl⟩
    | some x => exact ih _ _

/-- A mount that replaces what is mounted on a directory takes one mount id. -/
theorem cmount_ref (p : Nat) (new old : Chan) (agrees : w.refuses new none old mrepl = false) (free : w.ns p = false) :
    (w.cmount p new none old mrepl none 1).1.ref = w.ref + 1 ∧ (w.cmount p new none old mrepl none 1).1.ns = w.ns ∧
      (w.cmount p new none old mrepl none 1).1.pgrps = w.pgrps ∧ (w.cmount p new none old mrepl none 1).2.isSome := by
  have found : ∃ m w₁, (w.wlock p).headOf p old mrepl 1 = (w₁, some (m, 1)) ∧ w₁.ref = w.ref ∧
      w₁.ns = Function.update w.ns p true ∧ w₁.pgrps = w.pgrps := by
    unfold headOf
    rcases (w.wlock p).find p old with ⟨l, m⟩
    cases m with
    | some m => exact ⟨m, w.wlock p, rfl, rfl, rfl, rfl⟩
    | none =>
      refine ⟨w.heads, ((w.wlock p).newmhead old).2.setChain p (mounth old.ident.path) l (some w.heads), rfl, ?_⟩
      cases l <;> exact ⟨rfl, rfl, rfl⟩
  obtain ⟨m, w₁, ran, ref, ns, pgrps⟩ := found
  have unlocked : (w₁.wunlock p).ns = w.ns := by
    simp only [wunlock, ns, Function.update_idem]
    rw [← free, Function.update_eq_self]
  have run : w.cmount p new none old mrepl none 1 = (w₁.wunlock p).mountOn m new none mrepl none 1 := by
    unfold cmount
    rw [if_neg (Bool.eq_false_iff.mp agrees)]
    rw [show mrepl &&& morder = mrepl from rfl, ran]
  rw [run]
  have fields : ∀ v : Mounts, ∀ nm, (((v.clear m mrepl).setCreate nm mrepl).join m nm mrepl).ref = v.ref ∧
      (((v.clear m mrepl).setCreate nm mrepl).join m nm mrepl).ns = v.ns ∧
      (((v.clear m mrepl).setCreate nm mrepl).join m nm mrepl).pgrps = v.pgrps := by
    intro v nm
    have cleared : (v.clear m mrepl).ref = v.ref ∧ (v.clear m mrepl).ns = v.ns ∧ (v.clear m mrepl).pgrps = v.pgrps := by
      unfold clear
      split
      · exact mountfree_ref _ _ _
      · exact ⟨rfl, rfl, rfl⟩
    have joined : ∀ u : Mounts, (u.join m nm mrepl).ref = u.ref ∧ (u.join m nm mrepl).ns = u.ns ∧
        (u.join m nm mrepl).pgrps = u.pgrps := by
      intro u
      unfold join
      split <;> exact ⟨rfl, rfl, rfl⟩
    exact ⟨(joined _).1.trans cleared.1, (joined _).2.1.trans cleared.2.1, (joined _).2.2.trans cleared.2.2⟩
  obtain ⟨ref', ns', pgrps'⟩ := fields ((w₁.wunlock p).newmount m new mrepl none).2 w₁.made
  exact ⟨ref'.trans (congrArg Nat.succ ref), ns'.trans unlocked, pgrps'.trans pgrps, rfl⟩

/-- Two name spaces, in the first of which `server` is mounted on `dirA`. -/
def start : Mounts := ({ init with pgrps := 2 }.cmount 0 server none dirA mrepl none 1).1

theorem exec_bind {p : Nat} (old : Chan) (alive : p < w.pgrps) (free : w.ns p = false) :
    (NAct.cmount p server none old mrepl none 1).exec w = some (w.cmount p server none old mrepl none 1).1 := by
  simp only [NAct.exec]
  exact if_pos ⟨alive, free, fun _ wrong => (by cases wrong)⟩

theorem start_run : Run NAct.exec (fun _ _ => True) init start := by
  have one : Run NAct.exec (fun _ _ => True) init { init with pgrps := 1 } := Run.start.step (a := .newpgrp) trivial rfl
  have two : Run NAct.exec (fun _ _ => True) init { init with pgrps := 2 } := one.step (a := .newpgrp) trivial rfl
  exact two.step trivial (exec_bind dirA (Nat.zero_lt_succ 1) rfl)

/-- The second name space mounts again and again on one directory. -/
theorem rebind (k : Nat) : ∃ w, Run NAct.exec (fun _ _ => True) init w ∧ w.pgrps = 2 ∧ w.ns = (fun _ => false) ∧
    w.ref = k + 1 ∧ w.table 0 = start.table 0 := by
  induction k with
  | zero =>
    obtain ⟨ref, ns, pgrps, _⟩ := cmount_ref (w := { init with pgrps := 2 }) 0 server dirA rfl rfl
    exact ⟨start, start_run, pgrps, ns, ref, rfl⟩
  | succ k ih =>
    obtain ⟨w, run, pgrps, ns, ref, same⟩ := ih
    have free : w.ns 1 = false := congrFun ns 1
    have alive : 1 < w.pgrps := pgrps ▸ Nat.lt_succ_self 1
    obtain ⟨hs, ms, shape⟩ := run_shape run
    have ran := exec_bind dirB alive free
    obtain ⟨ref', ns', pgrps', _⟩ := cmount_ref (w := w) 1 server dirB rfl free
    have kept := exec_apart (a := .cmount 1 server none dirB mrepl none 1) shape rfl ran Nat.zero_ne_one
    exact ⟨_, run.step trivial ran, pgrps'.trans pgrps, ns'.trans ns, ref'.trans (congrArg Nat.succ ref), kept.trans same⟩

end Mounts

/-- A fork that returns gives a copy of the name space exactly when no two ids
of the original are the same. -/
theorem pgrpcpy_ok {allowed : NAct → Mounts → Prop} (run : Run NAct.exec allowed Mounts.init w) (alive : src < w.pgrps)
    (returns : (w.fork src mem).2 = true) : CopyOk w (w.fork src mem).1 src ↔ (w.ids src).Nodup := by
  obtain ⟨hs, ms, shape⟩ := run_shape run
  exact ⟨CopyOk.ids_nodup shape alive returns, copyOk_of_nodup shape alive returns⟩

theorem pgrpcpy_ok_start : (Mounts.start.fork 0 2).2 = true ∧ CopyOk Mounts.start (Mounts.start.fork 0 2).1 0 :=
  ⟨by decide, (pgrpcpy_ok Mounts.start_run (by decide) (by decide)).mpr (by decide)⟩

/-- After `2 ^ 32` mounts two mounts of a table have the same id, and their copies do not. -/
theorem ids_wrap : ∃ w mem, Run NAct.exec (fun _ _ => True) Mounts.init w ∧ 0 < w.pgrps ∧ (w.fork 0 mem).2 = true ∧
    ¬CopyOk w (w.fork 0 mem).1 0 := by
  obtain ⟨w, run, pgrps, ns, ref, same⟩ := Mounts.rebind (2 ^ 32 - 1)
  obtain ⟨hs, ms, shape⟩ := run_shape run
  have alive : 0 < w.pgrps := pgrps ▸ Nat.zero_lt_succ 1
  have free : w.ns 0 = false := congrFun ns 0
  obtain ⟨_, _, pgrps', returned⟩ := Mounts.cmount_ref (w := w) 0 server dirB rfl free
  have ran := run.step trivial (Mounts.exec_bind dirB alive free)
  obtain ⟨m, hs', ms', shape', step, _, keeps, mine, id, _⟩ := Mounts.cmount_spec server dirB mrepl none 1
    shape alive fun k (wrong : k ∈ (none : Option Href)) => (nomatch wrong)
  obtain ⟨member, ident, _, x, listed, value⟩ := mine returned
  rw [id rfl returned, ref] at value
  -- the element of the first mount
  have bucket := congrFun same 1
  rw [shape.table_eq, show Mounts.start.table 0 1 = [⟨0, dirA, [⟨0, 1, ⟨0, server, mrepl, none⟩⟩]⟩] by decide] at bucket
  obtain ⟨f, chain, union⟩ := List.map_eq_singleton_iff.mp bucket
  obtain ⟨y, list, elem⟩ := List.map_eq_singleton_iff.mp (congrArg Union.mount union)
  have fromF : w.fromChan f = dirA := congrArg Union.fromChan union
  have inChain : f ∈ hs 0 1 := chain ▸ List.mem_singleton.mpr rfl
  have inList : y ∈ ms f := list ▸ List.mem_singleton.mpr rfl
  have other : f ≠ m := by
    rintro rfl
    rw [step.fromChan (shape.heads inChain), fromF] at ident
    exact absurd ident (by decide)
  have inList' : y ∈ ms' f := by
    rw [step.lists other]
    exact inList
  have first := congrArg Elem.mountid (step.node other inList)
  rw [elem] at first
  have alive' : 0 < (w.cmount 0 server none dirB mrepl none 1).1.pgrps := pgrps' ▸ alive
  obtain ⟨_, _, _, enough, _⟩ := Mounts.fork_spec (cost ms' ((List.finRange 32).flatMap (hs' 0))) shape' alive'
  refine ⟨_, _, ran, alive', enough (Nat.le_refl _), fun ok => ?_⟩
  have nodup := ok.ids_nodup shape' alive' (enough (Nat.le_refl _))
  rw [shape'.ids_eq] at nodup
  have yNode : y ∈ nodes hs' ms' 0 :=
    List.mem_flatMap.mpr ⟨1, List.mem_finRange 1, List.mem_flatMap.mpr ⟨f, keeps 1 f inChain, inList'⟩⟩
  have xNode : x ∈ nodes hs' ms' 0 := List.mem_flatMap.mpr ⟨_, List.mem_finRange _, List.mem_flatMap.mpr ⟨m, member, listed⟩⟩
  have equal := first.trans (Option.some.inj value)
  have eq := List.inj_on_of_nodup_map nodup yNode xNode equal
  exact other (shape'.owner inList' (eq ▸ listed))

end Inferno.Ns
