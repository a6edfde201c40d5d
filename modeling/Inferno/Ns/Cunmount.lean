import Inferno.Ns.CmountSpec

namespace Inferno.Ns

open Lib

variable {w w' : Mounts} {hs hs' : Nat → Fin 32 → List Href} {ms ms' : Href → List Mref} {m : Href} {p : Nat}
  {b : Fin 32} {mnt : Chan} {u v : List Mref} {f : Mref} {k : Option Mref}

namespace Mounts

/-- An element is taken out of the list of `m`. -/
theorem takeOut_spec (shape : Shape w hs ms) (split : ms m = u ++ f :: v) (before : u.getLast? = k) (alive : m < w.heads) :
    Edit ms m w (w.takeOut m k f) ∧ Shape (w.takeOut m k f) hs (Function.update ms m (u ++ v)) := by
  have list := shape.list m
  rw [split] at list
  have removed := list.remove before
  have mine {y : Mref} (here : y ∈ u ++ f :: v) : y ∈ ms m := split ▸ here
  have fMem : f ∈ ms m := mine (List.mem_append_right u List.mem_cons_self)
  have notF : f ∉ u ++ v := by
    have nodup := List.nodup_append.mp list.nodup
    intro here
    rcases List.mem_append.mp here with left | right
    · exact nodup.2.2 f left f List.mem_cons_self rfl
    · exact (List.nodup_cons.mp nodup.2.1).1 right
  let w₁ : Mounts := { w with
    mount := Function.update w.mount m (k.elim (w.next f) fun _ => w.mount m)
    next := Function.update (k.elim w.next fun t => Function.update w.next t (w.next f)) f none }
  have run : w.takeOut m k f = mountfree w₁.made w₁ (some f) := by
    cases k with
    | none => rfl
    | some t =>
      have kept : w₁.mount = w.mount := Function.update_eq_self _ _
      simp only [takeOut, setList, w₁, Option.elim_some]
      rw [Function.update_eq_self]
  have single : Path w₁.next (some f) [f] := ⟨rfl, Function.update_self _ _ _⟩
  have freed := mountfree_eq single (n := w₁.made) (Nat.succ_le_of_lt (Nat.zero_lt_of_lt (shape.live fMem).2))
  rw [run, freed]
  have edit : Edit ms m w { w₁ with mountid := fun x => if x ∈ [f] then 0 else w₁.mountid x,
                                    live := fun x => if x ∈ [f] then false else w₁.live x } := by
    refine ⟨⟨rfl, rfl, rfl, rfl, rfl, Nat.le_refl _⟩, fun j other => Function.update_of_ne other _ _, ?_⟩
    intro j other y here
    have ne : y ≠ f := fun same => other (shape.owner here (same ▸ fMem))
    have free : y ∉ [f] := fun single => ne (List.mem_singleton.mp single)
    refine ⟨?_, if_neg free, ?_⟩
    · refine (Function.update_of_ne ne _ _).trans ?_
      cases k with
      | none => rfl
      | some t =>
        have link : t ∈ ms m := mine (List.mem_append_left _ (List.mem_of_getLast? before))
        exact Function.update_of_ne (fun same : y = t => other (shape.owner here (same ▸ link))) _ _
    · simp only [elem, if_neg free, w₁]
  refine ⟨edit, shape.relist edit alive ?_ ?_⟩
  · simp only [w₁, Function.update_self]
    exact removed
  · intro y here
    have old : y ∈ ms m := by
      rcases List.mem_append.mp here with left | right
      · exact mine (List.mem_append_left _ left)
      · exact mine (List.mem_append_right _ (List.mem_cons_of_mem f right))
    have free : y ∉ [f] := fun single => notF (List.mem_singleton.mp single ▸ here)
    refine ⟨shape.head old, ?_, (shape.live old).2⟩
    simp only [if_neg free, w₁]
    exact (shape.live old).1

theorem cunmount_spec (p : Nat) (mnt : Chan) (mounted : Option Chan) (shape : Shape w hs ms) :
    ∃ m hs' ms', Shape (w.cunmount p mnt mounted).1 hs' ms' ∧ Step p m w hs ms (w.cunmount p mnt mounted).1 hs' ms' ∧
      (w.cunmount p mnt mounted).1.heads = w.heads ∧
      ((∀ c, ∀ k ∈ hs p c, ms k ≠ []) → ∀ c, ∀ k ∈ hs' p c, ms' k ≠ []) := by
  rcases shape.find_cases p mnt with ⟨u, m, v, split, same, found⟩ | ⟨_, missed⟩
  · have member : m ∈ hs p (mounth mnt.ident.path) := split ▸ List.mem_append_right u List.mem_cons_self
    have apart : ∀ q, q ≠ p → ∀ c, m ∉ hs q c := fun q other c here => other (shape.apart here member).1
    have alive := shape.heads member
    have whole := shape.chain p (mounth mnt.ident.path)
    rw [split] at whole
    have notM : m ∉ u ++ v := by
      have nodup := List.nodup_append.mp whole.nodup
      intro here
      rcases List.mem_append.mp here with left | right
      · exact nodup.2.2 m left m List.mem_cons_self rfl
      · exact (List.nodup_cons.mp nodup.2.1).1 right
    -- the chain without `m` has no other heads than before
    have rest {ms' : Href → List Mref} (lists : ∀ {k}, k ≠ m → ms' k = ms k) (full : ∀ c, ∀ k ∈ hs p c, ms k ≠ []) :
        ∀ c, ∀ k ∈ setAt hs p (mounth mnt.ident.path) (u ++ v) p c, ms' k ≠ [] := by
      intro c k here
      have old : k ∈ hs p c ∧ k ≠ m := by
        rcases mem_setAt here with ⟨⟨_, rfl⟩, new⟩ | ⟨other, kept⟩
        · refine ⟨?_, fun eq => notM (eq ▸ new)⟩
          rw [split]
          rcases List.mem_append.mp new with left | right
          · exact List.mem_append_left _ left
          · exact List.mem_append_right _ (List.mem_cons_of_mem m right)
        · exact ⟨kept, fun eq => other ⟨rfl, (shape.apart (eq ▸ kept) member).2⟩⟩
      rw [lists old.2]
      exact full c k old.1
    cases mounted with
    | none =>
      have run : w.cunmount p mnt none =
          ((w.setChain p (mounth mnt.ident.path) u.getLast? (w.hash m)).freeList m, true) := by
        unfold cunmount
        rw [found]
      rw [run]
      have shape₁ := shape.dropHead split rfl
      have step₁ := shape.dropHead_step (l := u.getLast?) split
      obtain ⟨_, _, _, _, _, _, _, heads, _⟩ := setChain_same (w := w) (p := p) (b := mounth mnt.ident.path)
        (l := u.getLast?) (g := w.hash m)
      obtain ⟨edit, _, _, _, _, nil⟩ := freeList_spec shape₁ m
      have shape₂ := shape₁.relist (l := []) edit (by rw [heads]; exact alive) nil fun y here => (nomatch here)
      have lists {k : Href} (other : k ≠ m) : Function.update ms m [] k = ms k := Function.update_of_ne other _ _
      refine ⟨m, _, _, shape₂, ?_, edit.heads.trans heads, rest lists⟩
      refine step₁.trans ⟨fun _ _ => rfl, ?_, fun here => Or.inr here, lists, fun _ => by rw [edit.fromChan],
        fun {k} other {x} here => (edit.node k other x here).elem, edit.pgrps⟩ (Nat.le_of_eq heads.symm)
      intro q other c here
      exact apart q other c (step₁.others q other ▸ here)
    | some c =>
      rcases (shape.list m).search_cases
        (fun f => eqchan (w.mounts f).chan c || (w.mounts f).chan.mchan == some c.ident) (shape.list_length m) with
        ⟨a, f, z, cut, _, _, located⟩ | ⟨_, absent⟩
      · obtain ⟨edit, shape₁⟩ := takeOut_spec shape cut rfl alive
        have step₁ := edit.step (l := a ++ z) shape member
        have run : w.cunmount p mnt (some c) =
            let w₁ := w.takeOut m a.getLast? f
            if w₁.mount m = none then (w₁.setChain p (mounth mnt.ident.path) u.getLast? (w₁.hash m), true)
            else (w₁, true) := by
          unfold cunmount
          rw [found]
          simp only [findMount]
          rw [located]
        rw [run]
        generalize w.takeOut m a.getLast? f = w₁ at edit shape₁ step₁
        dsimp only
        have lists {k : Href} (other : k ≠ m) : Function.update ms m (a ++ z) k = ms k := Function.update_of_ne other _ _
        split
        · obtain ⟨_, _, _, _, _, _, _, heads, _⟩ := setChain_same (w := w₁) (p := p) (b := mounth mnt.ident.path)
            (l := u.getLast?) (g := w₁.hash m)
          exact ⟨m, _, _, shape₁.dropHead split rfl, step₁.trans (shape₁.dropHead_step split) (Nat.le_of_eq
            edit.heads.symm), heads.trans edit.heads, rest lists⟩
        · rename_i some
          refine ⟨m, hs, _, shape₁, step₁, edit.heads, fun full b k here => ?_⟩
          by_cases mine : k = m
          · subst mine
            have list := shape₁.list k
            intro empty
            rw [empty] at list
            exact some list
          · rw [lists mine]
            exact full b k here
      · have run : w.cunmount p mnt (some c) = (w, false) := by
          unfold cunmount
          rw [found]
          simp only [findMount]
          rw [absent]
        rw [run]
        exact ⟨m, hs, ms, shape, .refl apart, rfl, fun full => full⟩
  · have run : w.cunmount p mnt mounted = (w, false) := by
      unfold cunmount
      rw [missed]
    rw [run]
    exact ⟨w.heads, hs, ms, shape, .refl fun _ _ _ here => Nat.lt_irrefl _ (shape.heads here), rfl, fun full => full⟩

end Mounts

end Inferno.Ns
