import Inferno.Ns.Pgrpcpy

namespace Inferno.Ns

open Lib

/-- The originals and their copies so far: the list `order` has the originals by
their mount ids. `base` is where the copies begin. -/
structure Paired (w : Mounts) (first : Option Mref) (ps : List (Mref × Mref)) (base : Nat) : Prop where
  copy : ∀ x c, (x, c) ∈ ps → w.copy x = some c
  node : ∀ x c, (x, c) ∈ ps → (w.mounts c).chan = (w.mounts x).chan ∧ (w.mounts c).mflag = (w.mounts x).mflag ∧
    (w.mounts c).spec = (w.mounts x).spec
  bounds : ∀ x c, (x, c) ∈ ps → x < base ∧ base ≤ c ∧ c < w.made
  once : (ps.map Prod.snd).Nodup
  order : ∃ os, Path w.order first os ∧ os.Perm (ps.map Prod.fst) ∧ os.Pairwise fun x y => w.mountid x ≤ w.mountid y

variable {w w' w₁ : Mounts} {hs : Nat → Fin 32 → List Href} {ms ms' : Href → List Mref} {m mh f : Href} {p base n : Nat}
  {i : Fin 32} {first link um : Option Mref} {ps : List (Mref × Mref)} {os us : List Mref} {x : Mref}

theorem Edit.congr (edit : Edit ms' m w w') (same : ∀ k, k ≠ m → ms' k = ms k) : Edit ms m w w' :=
  ⟨edit.toSameHeads, edit.mount, fun k other y here => edit.node k other y (by rw [same k other]; exact here)⟩

namespace Mounts

/-- The list stays in the order of the ids, and nothing else changes. -/
theorem pgrpinsert_spec (path : Path w.order first os) (fresh : x ∉ os) (length : os.length ≤ w.made) :
    ∃ os', Path (w.pgrpinsert first x).1.order (w.pgrpinsert first x).2 os' ∧ os'.Perm (x :: os) ∧
      (w.pgrpinsert first x).1 = { w with order := (w.pgrpinsert first x).1.order } ∧
      ((os.Pairwise fun y z => w.mountid y ≤ w.mountid z) → os'.Pairwise fun y z => w.mountid y ≤ w.mountid z) := by
  have path₁ := path.update fresh none
  rcases path₁.search_cases (fun f => decide (w.mountid x < w.mountid f)) length with
    ⟨u, f, v, split, before, here, found⟩ | ⟨none, missed⟩
  · have run : w.pgrpinsert first x =
        ({ w with order := (Path.setLink (Function.update w.order x (some f)) first u.getLast? (some x)).1 },
          (Path.setLink (Function.update w.order x (some f)) first u.getLast? (some x)).2) := by
      simp only [pgrpinsert, found, Function.update_idem]
    rw [run]
    have path₂ := path.update fresh (some f)
    rw [split] at path₂ fresh
    have tail : Path (Function.update w.order x (some f)) (some x) (x :: f :: v) := by
      refine ⟨rfl, ?_⟩
      rw [Function.update_self]
      exact path₂.drop
    have apart : ∀ y ∈ u, y ∉ x :: f :: v := by
      intro y left right
      rcases List.mem_cons.mp right with rfl | right
      · exact fresh (List.mem_append_left _ left)
      · exact (List.nodup_append.mp path₂.nodup).2.2 y left y right rfl
    refine ⟨u ++ x :: f :: v, path₂.replace rfl tail apart, ?_, rfl, ?_⟩
    · rw [split]
      exact List.perm_middle
    · intro sorted
      rw [split] at sorted
      obtain ⟨left, right, across⟩ := List.pairwise_append.mp sorted
      have least : w.mountid x < w.mountid f := of_decide_eq_true here
      refine List.pairwise_append.mpr ⟨left, List.pairwise_cons.mpr ⟨?_, right⟩, ?_⟩
      · intro y member
        rcases List.mem_cons.mp member with rfl | later
        · exact Nat.le_of_lt least
        · exact Nat.le_trans (Nat.le_of_lt least) ((List.pairwise_cons.mp right).1 y later)
      · intro y member z there
        rcases List.mem_cons.mp there with rfl | later
        · exact Nat.le_of_not_lt (of_decide_eq_false (before y member))
        · exact across y member z later
  · have run : w.pgrpinsert first x =
        ({ w with order := (Path.setLink (Function.update w.order x Option.none) first os.getLast? (some x)).1 },
          (Path.setLink (Function.update w.order x Option.none) first os.getLast? (some x)).2) := by
      simp only [pgrpinsert, missed, Function.update_idem]
    rw [run]
    have whole : Path (Function.update w.order x Option.none) first (os ++ []) := by rwa [List.append_nil]
    have single : Path (Function.update w.order x Option.none) (some x) [x] := ⟨rfl, Function.update_self _ _ _⟩
    have apart : ∀ y ∈ os, y ∉ [x] := fun y left right => fresh (List.mem_singleton.mp right ▸ left)
    refine ⟨os ++ [x], whole.replace rfl single apart, List.perm_append_singleton x os, rfl, fun sorted => ?_⟩
    refine List.pairwise_append.mpr ⟨sorted, List.pairwise_singleton _ _, ?_⟩
    intro y member z there
    rw [List.mem_singleton.mp there]
    exact Nat.le_of_not_lt (of_decide_eq_false (none y member))

/-- `setList` at the end of the list of `mh`. -/
theorem setList_spec (shape : Shape w hs ms) (owned : Owned w mh x) (single : w.next x = none) (alive : mh < w.heads)
    (fresh : ∀ k, x ∉ ms k) (last : (ms mh).getLast? = link) :
    Edit ms mh w (w.setList mh link (some x)) ∧
      Shape (w.setList mh link (some x)) hs (Function.update ms mh (ms mh ++ [x])) ∧
      (w.setList mh link (some x)).mounts = w.mounts ∧ (w.setList mh link (some x)).copy = w.copy ∧
      (w.setList mh link (some x)).order = w.order ∧ (w.setList mh link (some x)).mountid = w.mountid ∧
      (w.setList mh link (some x)).live = w.live ∧ (w.setList mh link (some x)).made = w.made ∧
      (w.setList mh link (some x)).ref = w.ref ∧
      (∀ y, y ∉ ms mh → (w.setList mh link (some x)).next y = w.next y) := by
  have list := shape.list mh
  have whole : Path w.next (w.mount mh) (ms mh ++ []) := by rwa [List.append_nil]
  have apart : ∀ y ∈ ms mh, y ∉ [x] := fun y left right => fresh mh (List.mem_singleton.mp right ▸ left)
  have alone : Path w.next (some x) [x] := ⟨rfl, single⟩
  have replaced := whole.replace last alone apart
  have fields : (w.setList mh link (some x)).next = (Path.setLink w.next (w.mount mh) link (some x)).1 ∧
      (w.setList mh link (some x)).mount mh = (Path.setLink w.next (w.mount mh) link (some x)).2 ∧
      (∀ k, k ≠ mh → (w.setList mh link (some x)).mount k = w.mount k) := by
    cases link with
    | none => exact ⟨rfl, Function.update_self _ _ _, fun k other => Function.update_of_ne other _ _⟩
    | some t => exact ⟨rfl, rfl, fun _ _ => rfl⟩
  have kept : ∀ y, y ∉ ms mh → (w.setList mh link (some x)).next y = w.next y := by
    intro y free
    cases link with
    | none => rfl
    | some t =>
      have ne : y ≠ t := fun same => free (same ▸ List.mem_of_getLast? last)
      exact Function.update_of_ne ne _ _
  have same : (w.setList mh link (some x)).mounts = w.mounts ∧ (w.setList mh link (some x)).copy = w.copy ∧
      (w.setList mh link (some x)).order = w.order ∧ (w.setList mh link (some x)).mountid = w.mountid ∧
      (w.setList mh link (some x)).live = w.live ∧ (w.setList mh link (some x)).made = w.made ∧
      (w.setList mh link (some x)).ref = w.ref ∧ SameHeads w (w.setList mh link (some x)) := by
    cases link <;> exact ⟨rfl, rfl, rfl, rfl, rfl, rfl, rfl, rfl, rfl, rfl, rfl, rfl, Nat.le_refl _⟩
  obtain ⟨mounts, copy, order, mountid, live, made, ref, heads⟩ := same
  have edit : Edit ms mh w (w.setList mh link (some x)) := by
    refine ⟨heads, fields.2.2, fun k other y here => ⟨?_, by rw [live], by simp only [elem, mounts, mountid]⟩⟩
    exact kept y fun mine => other (shape.owner here mine)
  refine ⟨edit, shape.relist edit alive ?_ ?_, mounts, copy, order, mountid, live, made, ref, kept⟩
  · rw [fields.1, fields.2.1]
    exact replaced
  · intro y here
    rw [mounts, live, made]
    rcases List.mem_append.mp here with old | new
    · exact shape.owned old
    · rw [List.mem_singleton.mp new]
      exact owned

/-- One `Mount` is copied to the end of the list of `mh`. -/
theorem copyMount_spec (shape : Shape w hs ms) (alive : mh < w.heads) (last : (ms mh).getLast? = link)
    (newer : ∀ y ∈ ms mh, base ≤ y) (below : base ≤ w.made) (old : x < base) (paired : Paired w first ps base)
    (fresh : x ∉ ps.map Prod.fst) :
    Edit ms mh w (w.copyMount mh first link x).1 ∧
      Shape (w.copyMount mh first link x).1 hs (Function.update ms mh (ms mh ++ [w.made])) ∧
      (∀ y < base, SameNode w (w.copyMount mh first link x).1 y) ∧
      (w.copyMount mh first link x).1.made = w.made + 1 ∧
      Paired (w.copyMount mh first link x).1 (w.copyMount mh first link x).2 (ps ++ [(x, w.made)]) base := by
  obtain ⟨os, path, perm, sorted⟩ := paired.order
  have osOld : ∀ y ∈ os, y < base := by
    intro y here
    obtain ⟨⟨a, c⟩, member, rfl⟩ := List.mem_map.mp (perm.mem_iff.mp here)
    exact (paired.bounds a c member).1
  have ne {y : Mref} (small : y < base) : y ≠ w.made := Nat.ne_of_lt (Nat.lt_of_lt_of_le small below)
  let w₁ := (w.newmount mh (w.mounts x).chan (w.mounts x).mflag (w.mounts x).spec).2
  let w₂ : Mounts := { w₁ with copy := Function.update w₁.copy x (some w.made) }
  have first₁ : Grows w.made w w₁ := newmount_grows (Nat.le_refl _)
  have grows : Grows w.made w w₂ := ⟨⟨rfl, rfl, rfl, rfl, rfl, Nat.le_succ _⟩, rfl, fun y small =>
    ⟨(first₁.node y small).next, (first₁.node y small).live, (first₁.node y small).elem⟩⟩
  have path₂ : Path w₂.order first os := path.congr fun y here => Function.update_of_ne (ne (osOld y here)) _ _
  have notIn : x ∉ os := fun here => fresh (perm.mem_iff.mp here)
  have short : os.length ≤ w₂.made :=
    length_le_of_nodup path.nodup fun y here => Nat.lt_succ_of_lt (Nat.lt_of_lt_of_le (osOld y here) below)
  obtain ⟨os', path', perm', only, sorted'⟩ := pgrpinsert_spec path₂ notIn short
  have run : w.copyMount mh first link x =
      ((w₂.pgrpinsert first x).1.setList mh link (some w.made), (w₂.pgrpinsert first x).2) := rfl
  rw [run]
  generalize w₂.pgrpinsert first x = inserted at path' only
  obtain ⟨w₃, first'⟩ := inserted
  dsimp only at path' only ⊢
  have grows₃ : Grows w.made w w₃ := by
    rw [only]
    exact ⟨⟨rfl, rfl, rfl, rfl, rfl, Nat.le_succ _⟩, rfl, fun y small =>
      ⟨(grows.node y small).next, (grows.node y small).live, (grows.node y small).elem⟩⟩
  have shape₃ := shape.grows grows₃ shape.below
  have self : w₃.mounts w.made = ⟨mh, (w.mounts x).chan, (w.mounts x).mflag, (w.mounts x).spec⟩ := by
    rw [only]
    exact Function.update_self _ _ _
  have madeEq : w₃.made = w.made + 1 := by
    rw [only]
    rfl
  have owned : Owned w₃ mh w.made := by
    refine ⟨by rw [self], ?_, by rw [madeEq]; exact Nat.lt_succ_self _⟩
    rw [only]
    exact Function.update_self _ _ _
  have single : w₃.next w.made = none := by
    rw [only]
    exact Function.update_self _ _ _
  have notListed : ∀ k, w.made ∉ ms k := fun k here => Nat.lt_irrefl _ (shape.live here).2
  obtain ⟨edit, shape₄, mounts, copy, order, mountid, live, made, _, kept⟩ := setList_spec shape₃ owned single
    (by rw [grows₃.heads]; exact alive) notListed last
  have copyEq {y : Mref} : w₃.copy y = if y = x then some w.made else if y = w.made then none else w.copy y := by
    rw [only]
    show Function.update (Function.update w.copy w.made none) x (some w.made) y = _
    by_cases same : y = x
    · rw [if_pos same, same, Function.update_self]
    · rw [if_neg same, Function.update_of_ne same]
      by_cases new : y = w.made
      · rw [if_pos new, new, Function.update_self]
      · rw [if_neg new, Function.update_of_ne new]
  have node₄ : ∀ y < base, SameNode w (w₃.setList mh link (some w.made)) y := by
    intro y small
    have same := grows₃.node y (Nat.lt_of_lt_of_le small below)
    have free : y ∉ ms mh := fun here => Nat.lt_irrefl _ (Nat.lt_of_lt_of_le small (newer y here))
    refine ⟨(kept y free).trans same.next, by rw [live]; exact same.live, ?_⟩
    rw [← same.elem]
    simp only [elem, mounts, mountid]
  refine ⟨(grows₃.edit shape.below).trans edit, shape₄, node₄, made.trans madeEq, ?_⟩
  refine ⟨?_, ?_, ?_, ?_, os', ?_, ?_, ?_⟩
  · intro y c here
    rw [copy, copyEq]
    rcases List.mem_append.mp here with before | new
    · have notX : y ≠ x := fun same => fresh (List.mem_map.mpr ⟨(y, c), before, same⟩)
      rw [if_neg notX, if_neg (ne (paired.bounds y c before).1)]
      exact paired.copy y c before
    · cases List.mem_singleton.mp new
      rw [if_pos rfl]
  · intro y c here
    rw [mounts]
    rcases List.mem_append.mp here with before | new
    · obtain ⟨small, _, bound⟩ := paired.bounds y c before
      rw [(grows₃.node c bound).mounts, (grows₃.node y (Nat.lt_of_lt_of_le small below)).mounts]
      exact paired.node y c before
    · cases List.mem_singleton.mp new
      rw [self, (grows₃.node x (Nat.lt_of_lt_of_le old below)).mounts]
      exact ⟨rfl, rfl, rfl⟩
  · intro y c here
    rw [made, madeEq]
    rcases List.mem_append.mp here with before | new
    · obtain ⟨small, large, bound⟩ := paired.bounds y c before
      exact ⟨small, large, Nat.lt_succ_of_lt bound⟩
    · cases List.mem_singleton.mp new
      exact ⟨old, below, Nat.lt_succ_self _⟩
  · rw [List.map_append, List.nodup_append]
    refine ⟨paired.once, List.nodup_singleton _, ?_⟩
    intro c left d right
    obtain ⟨⟨y, c⟩, member, rfl⟩ := List.mem_map.mp left
    rw [List.mem_singleton.mp right]
    exact Nat.ne_of_lt (paired.bounds y c member).2.2
  · rw [order]
    exact path'
  · rw [List.map_append]
    exact perm'.trans ((perm.cons x).trans (List.perm_append_singleton x _).symm)
  · have ids {y : Mref} (here : y ∈ x :: os) : (w₃.setList mh link (some w.made)).mountid y = w₂.mountid y ∧
        w₂.mountid y = w.mountid y := by
      have small : y < base := by
        rcases List.mem_cons.mp here with rfl | before
        · exact old
        · exact osOld y before
      exact ⟨by rw [mountid, only], (grows.node y (Nat.lt_of_lt_of_le small below)).mountid⟩
    have before : os.Pairwise fun y z => w₂.mountid y ≤ w₂.mountid z := by
      refine sorted.imp_of_mem fun {y z} here there le => ?_
      rw [(ids (List.mem_cons_of_mem x here)).2, (ids (List.mem_cons_of_mem x there)).2]
      exact le
    refine (sorted' before).imp_of_mem fun {y z} here there le => ?_
    rw [(ids (perm'.mem_iff.mp here)).1, (ids (perm'.mem_iff.mp there)).1]
    exact le

end Mounts

end Inferno.Ns
