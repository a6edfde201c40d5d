import Inferno.Ns.CopyTable

namespace Inferno.Ns

open Lib

variable {w₀ w w' : Mounts} {hs₀ hs : Nat → Fin 32 → List Href} {ms₀ ms : Href → List Mref} {dst src base n mem : Nat}
  {first : Option Mref} {ps : List (Mref × Mref)} {os : List Mref}

/-- The ids of the copies are as the list `order` says. -/
structure Numbered (w₀ : Mounts) (w : Mounts) (ps : List (Mref × Mref)) : Prop where
  node : ∀ x c, (x, c) ∈ ps → (w.mounts c).chan = (w₀.mounts x).chan ∧ (w.mounts c).mflag = (w₀.mounts x).mflag ∧
    (w.mounts c).spec = (w₀.mounts x).spec
  order : ∀ x c y d, (x, c) ∈ ps → (y, d) ∈ ps → w₀.mountid x < w₀.mountid y → w.mountid c < w.mountid d
  distinct : ∀ x c y d, (x, c) ∈ ps → (y, d) ∈ ps → c ≠ d → w.mountid c ≠ w.mountid d

namespace Mounts

/-- The buckets of `is` are copied. -/
theorem copyBuckets_spec (mem : Nat) (shape₀ : Shape w₀ hs₀ ms₀) (other : src ≠ dst) (below : dst < w₀.pgrps)
    {is : List (Fin 32)} {D : List Href} (kept : Kept w₀ hs₀ ms₀ dst w hs ms) (paired : Paired w first ps w₀.made)
    (covered : Covered ms₀ ps D) (nodup : is.Nodup) (empty : ∀ j ∈ is, hs dst j = [])
    (elsewhere : ∀ f ∈ D, ∃ j, j ∉ is ∧ f ∈ hs₀ src j) :
    ∃ hs' ms' ps', Kept w₀ hs₀ ms₀ dst (copyBuckets dst src is ⟨w, first, mem⟩).1.w hs' ms' ∧
      (∀ j, j ∉ is → hs' dst j = hs dst j) ∧
      (cost ms₀ (is.flatMap (hs₀ src)) ≤ mem → (copyBuckets dst src is ⟨w, first, mem⟩).2 = true) ∧
      ((copyBuckets dst src is ⟨w, first, mem⟩).2 = true →
        Paired (copyBuckets dst src is ⟨w, first, mem⟩).1.w (copyBuckets dst src is ⟨w, first, mem⟩).1.first ps' w₀.made ∧
        Later w ms ps (copyBuckets dst src is ⟨w, first, mem⟩).1.w ms' ps' ∧
        ∀ j ∈ is, List.Forall₂ (Mirror w₀ ms₀ (copyBuckets dst src is ⟨w, first, mem⟩).1.w ms' ps') (hs₀ src j)
          (hs' dst j)) := by
  induction is generalizing w hs ms ps D first mem with
  | nil =>
    exact ⟨hs, ms, ps, kept, fun _ _ => rfl, fun _ => rfl, fun _ => ⟨paired, .refl, fun _ here => (by cases here)⟩⟩
  | cons i is ih =>
    obtain ⟨notIn, nodup⟩ := List.nodup_cons.mp nodup
    have chain := kept.shape.chain src i
    rw [kept.others src other] at chain
    have nil := empty i List.mem_cons_self
    have new : ∀ f ∈ hs₀ src i, f ∉ D := by
      intro f here there
      obtain ⟨j, notHere, member⟩ := elsewhere f there
      exact notHere ((shape₀.apart here member).2 ▸ List.mem_cons_self)
    have short : (hs₀ src i).length ≤ w.heads := Nat.le_trans (shape₀.chain_length src i) kept.heads
    obtain ⟨hs₁, ms₁, ps₁, kept₁, chains, enough, done⟩ := copyHeads_spec mem (l := none) shape₀ other below
      kept paired covered rfl chain (by rw [nil]; rfl) (by rw [nil]; exact .nil) new short
    rw [copyBuckets]
    generalize copyHeads dst i w.heads ⟨w, first, mem⟩ none (w.mnthash src i) = r at kept₁ chains enough done ⊢
    obtain ⟨⟨w₁, first₁, mem₁⟩, ok⟩ := r
    dsimp only at kept₁ chains enough done ⊢
    have total : cost ms₀ ((i :: is).flatMap (hs₀ src)) = cost ms₀ (hs₀ src i) + cost ms₀ (is.flatMap (hs₀ src)) := by
      simp only [cost, List.flatMap_cons, List.map_append, List.sum_append]
    cases ok with
    | false =>
      refine ⟨hs₁, ms₁, ps₁, kept₁, fun j free => chains j fun same => ?_, fun fits => ?_, fun wrong => (by cases wrong)⟩
      · exact free (same ▸ List.mem_cons_self)
      · exact (enough (by omega)).1
    | true =>
      obtain ⟨paired₁, covered₁, later₁, mirrored₁⟩ := done rfl
      have empty₁ : ∀ j ∈ is, hs₁ dst j = [] := by
        intro j here
        have ne : j ≠ i := fun same => notIn (same ▸ here)
        rw [chains j ne]
        exact empty j (List.mem_cons_of_mem i here)
      have elsewhere₁ : ∀ f ∈ D ++ hs₀ src i, ∃ j, j ∉ is ∧ f ∈ hs₀ src j := by
        intro f here
        rcases List.mem_append.mp here with before | now
        · obtain ⟨j, notHere, member⟩ := elsewhere f before
          exact ⟨j, fun later => notHere (List.mem_cons_of_mem i later), member⟩
        · exact ⟨i, notIn, now⟩
      obtain ⟨hs₂, ms₂, ps₂, kept₂, chains₂, enough₂, done₂⟩ := ih mem₁ kept₁ paired₁ covered₁ nodup empty₁ elsewhere₁
      refine ⟨hs₂, ms₂, ps₂, kept₂, fun j free => ?_, fun fits => ?_, fun ok => ?_⟩
      · obtain ⟨ne, rest⟩ := not_or.mp fun here => free (List.mem_cons.mpr here)
        exact (chains₂ j rest).trans (chains j ne)
      · have left := (enough (by omega)).2
        exact enough₂ (by omega)
      · obtain ⟨paired₂, later₂, mirrored₂⟩ := done₂ ok
        refine ⟨paired₂, later₁.trans later₂, fun j here => ?_⟩
        rcases List.mem_cons.mp here with rfl | later
        · rw [chains₂ j notIn]
          exact forall₂_imp mirrored₁ fun g k member mirror => mirror.later later₂ (kept₁.shape.heads member)
        · exact mirrored₂ j later

/-- The copy of the `n`th of the originals gets the id `ref + n`. -/
theorem renumber_spec {cp : Mref → Mref} (path : Path w.order first os) (length : os.length ≤ n)
    (copies : ∀ x ∈ os, w.copy x = some (cp x)) (apart : ∀ x ∈ os, ∀ y ∈ os, cp x = cp y → x = y) :
    ∃ mountid, renumber n w first = { w with mountid := mountid, ref := w.ref + os.length } ∧
      (∀ c, (∀ x ∈ os, cp x ≠ c) → mountid c = w.mountid c) ∧
      ∀ x ∈ os, mountid (cp x) = w.ref + os.idxOf x := by
  induction os generalizing w first n with
  | nil =>
    cases path
    refine ⟨w.mountid, ?_, fun _ _ => rfl, fun _ here => (nomatch here)⟩
    cases n <;> rfl
  | cons x os ih =>
    have nodup := path.nodup
    obtain ⟨rfl, rest⟩ := path
    obtain ⟨n, rfl⟩ := Nat.exists_eq_succ_of_ne_zero (Nat.ne_of_gt (Nat.zero_lt_of_lt length))
    let w₁ : Mounts := { w with mountid := Function.update w.mountid (cp x) w.ref, ref := w.ref + 1 }
    have step : renumber (n + 1) w (some x) = renumber n w₁ (w.order x) := by
      simp only [renumber, copies x List.mem_cons_self, Option.elim_some, w₁]
    obtain ⟨mountid, ran, others, ids⟩ := ih (w := w₁) rest (Nat.le_of_succ_le_succ length)
      (fun y here => copies y (List.mem_cons_of_mem x here))
      (fun y here z there => apart y (List.mem_cons_of_mem x here) z (List.mem_cons_of_mem x there))
    have notIn := (List.nodup_cons.mp nodup).1
    have free : ∀ y ∈ os, cp y ≠ cp x := fun y here same =>
      notIn (apart y (List.mem_cons_of_mem x here) x List.mem_cons_self same ▸ here)
    refine ⟨mountid, ?_, ?_, ?_⟩
    · rw [step, ran]
      simp only [w₁, List.length_cons, Nat.add_comm os.length 1, Nat.add_assoc]
    · intro c none
      rw [others c fun y here => none y (List.mem_cons_of_mem x here)]
      exact Function.update_of_ne (none x List.mem_cons_self).symm _ _
    · intro y here
      rcases List.mem_cons.mp here with rfl | later
      · rw [List.idxOf_cons_self, others (cp y) free]
        exact Function.update_self _ _ _
      · have ne : x ≠ y := fun same => notIn (same ▸ later)
        rw [List.idxOf_cons_ne _ ne, ids y later]
        show w.ref + 1 + _ = _
        omega

theorem idxOf_lt {xs : List Mref} {f : Mref → Nat} (sorted : xs.Pairwise fun x y => f x ≤ f y) {x y : Mref}
    (here : x ∈ xs) (there : y ∈ xs) (less : f x < f y) : xs.idxOf x < xs.idxOf y := by
  rcases Nat.lt_trichotomy (xs.idxOf x) (xs.idxOf y) with lt | same | gt
  · exact lt
  · have eq : x = y := (List.idxOf_inj here).mp same
    subst eq
    exact absurd less (Nat.lt_irrefl _)
  · have le := List.pairwise_iff_getElem.mp sorted (xs.idxOf y) (xs.idxOf x) (List.idxOf_lt_length_of_mem there)
      (List.idxOf_lt_length_of_mem here) gt
    rw [List.getElem_idxOf, List.getElem_idxOf] at le
    exact absurd less (Nat.not_lt_of_le le)

/-- The copy of a name space into an empty one. -/
theorem pgrpcpy_spec (mem : Nat) (shape₀ : Shape w₀ hs₀ ms₀) (other : src ≠ dst) (below : dst < w₀.pgrps)
    (empty : ∀ j, hs₀ dst j = []) :
    ∃ hs' ms', Kept w₀ hs₀ ms₀ dst (w₀.pgrpcpy dst src mem).1 hs' ms' ∧
      (cost ms₀ ((List.finRange 32).flatMap (hs₀ src)) ≤ mem → (w₀.pgrpcpy dst src mem).2 = true) ∧
      ((w₀.pgrpcpy dst src mem).2 = true → ∃ ps, (ps.map Prod.snd).Nodup ∧ Numbered w₀ (w₀.pgrpcpy dst src mem).1 ps ∧
        ∀ j, List.Forall₂ (Mirror w₀ ms₀ (w₀.pgrpcpy dst src mem).1 ms' ps) (hs₀ src j) (hs' dst j)) := by
  have start : Kept w₀ hs₀ ms₀ dst w₀ hs₀ ms₀ := ⟨shape₀, fun _ _ => rfl, fun _ _ => rfl, fun k new x here =>
    absurd here (by rw [shape₀.fresh new]; exact List.not_mem_nil), fun _ _ => rfl, fun x _ => .refl x, rfl,
    Nat.le_refl _, Nat.le_refl _⟩
  have none : Paired w₀ none [] w₀.made := ⟨fun _ _ here => (by cases here), fun _ _ here => (by cases here),
    fun _ _ here => (by cases here), List.nodup_nil, [], rfl, .refl _, .nil⟩
  obtain ⟨hs', ms', ps, kept, _, enough, done⟩ := copyBuckets_spec mem (D := []) shape₀ other below start none
    (fun _ _ here => (by cases here)) (List.nodup_finRange 32) (fun j _ => empty j) (fun _ here => (by cases here))
  rw [pgrpcpy]
  generalize copyBuckets dst src (List.finRange 32) ⟨w₀, Option.none, mem⟩ = r at kept enough done
  obtain ⟨⟨w, first, left⟩, ok⟩ := r
  dsimp only at kept enough done ⊢
  cases ok with
  | false => exact ⟨hs', ms', kept, enough, fun wrong => (by cases wrong)⟩
  | true =>
    obtain ⟨paired, _, mirrored⟩ := done rfl
    obtain ⟨os, path, perm, sorted⟩ := paired.order
    have member {x : Mref} : x ∈ os ↔ ∃ c, (x, c) ∈ ps := by
      rw [perm.mem_iff, List.mem_map]
      constructor
      · rintro ⟨q, here, eq⟩
        exact ⟨q.2, eq ▸ here⟩
      · rintro ⟨c, here⟩
        exact ⟨(x, c), here, rfl⟩
    let cp : Mref → Mref := fun x => (w.copy x).getD 0
    have cpEq {x c : Mref} (here : (x, c) ∈ ps) : cp x = c := by
      simp only [cp, paired.copy x c here, Option.getD_some]
    have copies : ∀ x ∈ os, w.copy x = some (cp x) := by
      intro x here
      obtain ⟨c, pair⟩ := member.mp here
      rw [cpEq pair, paired.copy x c pair]
    have apart : ∀ x ∈ os, ∀ y ∈ os, cp x = cp y → x = y := by
      intro x here y there same
      obtain ⟨c, pair⟩ := member.mp here
      obtain ⟨d, pair'⟩ := member.mp there
      rw [cpEq pair, cpEq pair'] at same
      exact congrArg Prod.fst (List.inj_on_of_nodup_map paired.once pair pair' same)
    have short : os.length ≤ w.made := by
      refine length_le_of_nodup path.nodup fun x here => ?_
      obtain ⟨c, pair⟩ := member.mp here
      exact Nat.lt_of_lt_of_le (paired.bounds x c pair).1 kept.made
    obtain ⟨mountid, ran, others, ids⟩ := renumber_spec path short copies apart
    dsimp only
    rw [ran]
    have id {x c : Mref} (here : (x, c) ∈ ps) : mountid c = w.ref + os.idxOf x := by
      have value := ids x (member.mpr ⟨c, here⟩)
      rwa [cpEq here] at value
    have node : ∀ x < w₀.made, SameNode w₀ { w with mountid := mountid, ref := w.ref + os.length } x := by
      intro x old
      have same := kept.node x old
      have free : ∀ y ∈ os, cp y ≠ x := by
        intro y here eq
        obtain ⟨c, pair⟩ := member.mp here
        rw [cpEq pair] at eq
        exact Nat.lt_irrefl _ (Nat.lt_of_le_of_lt (paired.bounds y c pair).2.1 (eq ▸ old))
      refine ⟨same.next, same.live, ?_⟩
      rw [← same.elem]
      simp only [elem, others x free]
    refine ⟨hs', ms', ⟨⟨kept.shape.chain, kept.shape.list, kept.shape.apart, kept.shape.head, kept.shape.live,
      kept.shape.heads, kept.shape.fresh, kept.shape.pgrps, kept.shape.bucket, kept.shape.once⟩, kept.others, kept.lists,
      kept.newer, kept.fromChan, node, kept.pgrps, kept.heads, kept.made⟩,
      fun _ => rfl, fun _ => ⟨ps, paired.once, ⟨?_, ?_, ?_⟩, ?_⟩⟩
    · intro x c here
      rw [← (kept.node x (paired.bounds x c here).1).mounts]
      exact paired.node x c here
    · intro x c y d here there less
      rw [← (kept.node x (paired.bounds x c here).1).mountid, ← (kept.node y (paired.bounds y d there).1).mountid] at less
      have before := idxOf_lt sorted (member.mpr ⟨c, here⟩) (member.mpr ⟨d, there⟩) less
      show mountid c < mountid d
      rw [id here, id there]
      omega
    · intro x c y d here there ne same
      have eq : mountid c = mountid d := same
      rw [id here, id there] at eq
      have index : os.idxOf x = os.idxOf y := by omega
      have both : x = y := (List.idxOf_inj (member.mpr ⟨c, here⟩)).mp index
      subst both
      exact ne ((cpEq here).symm.trans (cpEq there))
    · exact fun j => mirrored j (List.mem_finRange j)

end Mounts

end Inferno.Ns
