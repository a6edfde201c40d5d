import Inferno.Styxservers.Server

namespace Inferno.Styxservers

open Styxlib

variable {σ : Type} {junk : UInt8} {nav : Navigator σ} {srv srv' : Styxserver σ} {t : σ} {c b : Fid} {l : List Fid} {n : Int}

/-- The numbers in a slot are its own, each once. -/
def Kept (i : Fin CHANHASHSIZE) (numbers : List Int) : Prop := (∀ n ∈ numbers, slot n = i) ∧ numbers.Nodup

/-- At most one fid of a number, and that in its slot. -/
def Inv (srv : Styxserver σ) : Prop := ∀ i, Kept i ((srv.fids i).map Fid.fid)

/-- The same fids and message size. -/
structure Same (srv srv' : Styxserver σ) : Prop where
  msize : srv'.msize = srv.msize
  fids : ∀ i, (srv'.fids i).Perm (srv.fids i)

theorem Same.refl : Same srv srv := ⟨rfl, fun _ => List.Perm.refl _⟩

theorem Kept.sublist {i : Fin CHANHASHSIZE} {ns ms : List Int} (kept : Kept i ns) (sub : ms.Sublist ns) : Kept i ms :=
  ⟨fun n member => kept.1 n (sub.subset member), kept.2.sublist sub⟩

theorem Kept.perm {i : Fin CHANHASHSIZE} {ns ms : List Int} (kept : Kept i ns) (perm : ms.Perm ns) : Kept i ms :=
  ⟨fun n member => kept.1 n (perm.mem_iff.mp member), perm.nodup_iff.mpr kept.2⟩

/-- Another list in one slot. -/
theorem Inv.update {i : Fin CHANHASHSIZE} (inv : Inv srv) (here : Kept i (l.map Fid.fid)) (msize : Int) (fd : List (List UInt8)) :
    Inv (⟨Function.update srv.fids i l, t, srv.rootpath, msize, fd⟩ : Styxserver σ) := by
  intro j
  by_cases same : j = i
  · subst same
    simpa only [Function.update_self] using here
  · simpa only [Function.update_of_ne same] using inv j

namespace Styxserver

theorem assign_map : (assign c l).map Fid.fid = l.map Fid.fid := by
  induction l with
  | nil => rfl
  | cons b l ih =>
    unfold assign
    split
    · rename_i same
      rw [List.map_cons, List.map_cons, same]
    · rw [List.map_cons, List.map_cons, ih]

theorem assign_found (found : l.find? (·.fid = c.fid) = some c) : assign c l = l := by
  induction l with
  | nil => nomatch found
  | cons b l ih =>
    unfold assign
    rw [List.find?_cons] at found
    split at found
    · rename_i same
      obtain rfl := Option.some.inj found
      exact if_pos rfl
    · rename_i other
      rw [if_neg (of_decide_eq_false other), ih found]

theorem getfid_number (found : srv.getfid n = some c) : c.fid = n := by
  unfold getfid at found
  have same := List.find?_some found
  exact of_decide_eq_true same

theorem getfid_none : srv.getfid n = none ↔ n ∉ (srv.fids (slot n)).map Fid.fid := by
  unfold getfid
  rw [List.find?_eq_none, List.mem_map]
  constructor
  · rintro none_ ⟨c, member, same⟩
    exact none_ c member (decide_eq_true same)
  · intro none_ c member same
    exact none_ ⟨c, member, of_decide_eq_true same⟩

theorem inv_setfid (inv : Inv srv) : Inv (srv.setfid c) := by
  refine inv.update ?_ _ _
  rw [assign_map]
  exact inv (slot c.fid)

theorem inv_delfid (inv : Inv srv) : Inv (srv.delfid c) := by
  refine inv.update ?_ _ _
  have reversed : ((srv.fids (slot c.fid)).filter (·.fid ≠ c.fid)).reverse.Perm ((srv.fids (slot c.fid)).filter (·.fid ≠ c.fid)) :=
    List.reverse_perm _
  exact ((inv (slot c.fid)).sublist (List.filter_sublist.map Fid.fid)).perm (reversed.map Fid.fid)

theorem newfid_eq (made : srv.newfid n = some (c, srv')) : srv.getfid n = none ∧ c = ⟨n, -1, 0, 0, 0, (0, 0), [], [], []⟩ ∧
    srv' = { srv with fids := Function.update srv.fids (slot n) (c :: srv.fids (slot n)) } := by
  unfold newfid at made
  split at made
  · nomatch made
  · rename_i none_
    obtain ⟨rfl, rfl⟩ := Prod.mk.inj (Option.some.inj made)
    exact ⟨none_, rfl, rfl⟩

theorem inv_newfid (inv : Inv srv) (made : srv.newfid n = some (c, srv')) : Inv srv' := by
  obtain ⟨none_, rfl, rfl⟩ := newfid_eq made
  refine inv.update ?_ _ _
  rw [List.map_cons]
  obtain ⟨own, nodup⟩ := inv (slot n)
  exact ⟨List.forall_mem_cons.mpr ⟨rfl, own⟩, List.nodup_cons.mpr ⟨getfid_none.mp none_, nodup⟩⟩

/-- What was found is assigned again. -/
theorem setfid_found (found : srv.getfid n = some c) : srv.setfid c = srv := by
  obtain rfl := getfid_number found
  unfold setfid
  rw [assign_found found, Function.update_eq_self]

/-- The new fid is found. -/
theorem getfid_new (made : srv.newfid n = some (b, srv')) (same : c.fid = n) : (srv'.setfid c).getfid n = some c := by
  obtain ⟨-, rfl, rfl⟩ := newfid_eq made
  subst same
  unfold getfid setfid
  simp only [Function.update_self]
  unfold assign
  rw [if_pos rfl]
  exact List.find?_cons_of_pos (decide_eq_true rfl)

/-- The new fid is taken out again. -/
theorem same_delfid (made : srv.newfid n = some (b, srv')) (same : c.fid = n) : Same srv { (srv'.setfid c).delfid c with t := t } := by
  obtain ⟨none_, rfl, rfl⟩ := newfid_eq made
  subst same
  refine ⟨rfl, fun i => ?_⟩
  unfold delfid setfid
  simp only [Function.update_self, Function.update_idem]
  by_cases here : i = slot c.fid
  · subst here
    rw [Function.update_self]
    refine (List.reverse_perm _).trans (List.Perm.of_eq ?_)
    unfold assign
    rw [if_pos rfl, List.filter_cons_of_neg (by simp), List.filter_eq_self]
    intro x member
    exact decide_eq_true fun same => getfid_none.mp none_ (List.mem_map.mpr ⟨x, member, same⟩)
  · rw [Function.update_of_ne here]

end Styxserver

end Inferno.Styxservers
