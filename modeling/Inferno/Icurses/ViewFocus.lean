import Inferno.Icurses.ViewMove

namespace Inferno.Icurses.Tree

open Lib

variable {t t' : Tree} {i j id r : Int64} {n : Node} {k fuel : Nat}

/-- The way up from the focused node ends. -/
theorem setfocusLoop_kept (ok : t.Ok) (depth : Depth t.par i k) (found : t.find i = some n) (enough : k < fuel) :
    ∃ t', setfocusLoop fuel t (t.find i) = some t' ∧ Kept t t' True True ∧ t'.focusid = t.focusid := by
  induction fuel generalizing i n k with
  | zero => nomatch enough
  | succ fuel ih =>
    rw [found]
    unfold setfocusLoop
    split
    · cases value : t.activatewindow n.id with
      | mk t' r =>
        obtain ⟨kept, -, same⟩ := activatewindow_kept ok value
        exact ⟨t', rfl, kept, same⟩
    · cases depth with
      | top none_ =>
        rw [par_none found none_, find_NoId]
        exact ⟨t, by unfold setfocusLoop; rfl, .refl ok, rfl⟩
      | down link rest =>
        obtain ⟨parent, -⟩ := par_parent found link
        obtain ⟨p, there⟩ := ok.inv.par_find link
        rw [parent]
        exact ih rest there (by omega)

theorem setfocus_kept (ok : t.Ok) : ∃ t' r, t.setfocus id = some (t', r) ∧ Kept t t' True True ∧ (r = -1 → t' = t) ∧
    (r ≠ -1 → t'.Focused ∧ t'.focusid = id) ∧ (t.focusableok (t.find id) = true → r ≠ -1) := by
  unfold setfocus
  cases found : t.find id with
  | none => exact ⟨t, -1, rfl, .refl ok, fun _ => rfl, fun no => absurd rfl no, fun no => nomatch no⟩
  | some n =>
    dsimp only
    split
    · rename_i able
      have inv : ({ t with focusid := id } : Tree).Inv := ok.inv.nodes rfl rfl
      rw [← found] at able
      have focused : ({ t with focusid := id } : Tree).Focused :=
        Or.inr ((focusableok_spec inv.toLinked).mpr ((focusableok_spec ok.inv.toLinked).mp able))
      have kept : Kept t { t with focusid := id } True True :=
        ⟨⟨inv, Or.inr (Option.isSome_iff_exists.mpr ⟨n, found⟩), ok.group, ok.window⟩, fun _ below => below,
          fun _ _ => focused⟩
      have same : ({ t with focusid := id } : Tree).focusid = id ∧ ({ t with focusid := id } : Tree).nodes = t.nodes :=
        ⟨rfl, rfl⟩
      generalize ({ t with focusid := id } : Tree) = t₁ at kept focused same
      suffices run : ∃ t', setfocusLoop (t₁.nodes.length + 1) t₁ (t₁.find n.parentid) = some t' ∧ Kept t₁ t' True True ∧
          t'.focusid = t₁.focusid by
        obtain ⟨t', ran, kept', focus⟩ := run
        refine ⟨t', 0, ?_, kept.trans kept', fun no => absurd no (by decide),
          fun _ => ⟨kept'.focused trivial focused, focus.trans same.1⟩, fun _ => by decide⟩
        rw [← same.2, ran]
        rfl
      cases above : t₁.find n.parentid with
      | none => exact ⟨_, by unfold setfocusLoop; rfl, .refl kept.ok, rfl⟩
      | some p =>
        obtain ⟨k, depth⟩ := kept.ok.inv.depth n.parentid p above
        have less := kept.ok.inv.depth_lt depth above
        rw [← above]
        exact setfocusLoop_kept kept.ok depth above (Nat.lt_succ_of_lt less)
    · rename_i no
      exact ⟨t, -1, rfl, .refl ok, fun _ => rfl, fun no => absurd rfl no, fun able => absurd able no⟩

/-- What `focuslist` gives. -/
theorem focuslist_spec (inv : t.Inv) : ∃ l, t.focuslist = some l ∧ ∀ j, j ∈ l ↔ t.focusableok (t.find j) = true := by
  obtain ⟨r, root, -⟩ := inv.root
  obtain ⟨k, depth⟩ := inv.depth _ r root
  obtain ⟨l, ran, members⟩ := collectfocus_spec inv (t.nodes.length + 1) (l := []) root depth (by omega)
  refine ⟨l, ran, fun j => ?_⟩
  rw [members, or_iff_right List.not_mem_nil, and_iff_right_of_imp]
  intro able
  obtain ⟨n, found, -⟩ := (focusableok_spec inv.toLinked).mp able
  exact inv.above_root found

/-- Nothing has the focus. -/
theorem focus_none (ok : t.Ok) : Kept t { t with focusid := NoId } True True :=
  ⟨⟨ok.inv.nodes rfl rfl, Or.inl rfl, ok.group, ok.window⟩, fun _ below => below, fun _ _ => Or.inl rfl⟩

/-- The end of `nextfocus` and of `prevfocus`. -/
theorem focus_chosen {next : Option Int64} {l : List Int64} (ok : t.Ok) (members : ∀ j ∈ l, t.focusableok (t.find j) = true)
    (chosen : ∃ id ∈ l, next = some id) :
    ∃ t' r, (next.bind fun id => (t.setfocus id).bind fun out => some (out.1, out.1.focusid)) = some (t', r) ∧
      Kept t t' True True ∧ t'.Focused := by
  obtain ⟨id, member, rfl⟩ := chosen
  obtain ⟨t', r, value, kept, -, focused, granted⟩ := @setfocus_kept _ id ok
  refine ⟨t', t'.focusid, by rw [Option.bind_some, value, Option.bind_some], kept, ?_⟩
  exact (focused (granted (members id member))).1

theorem nextfocus_kept (ok : t.Ok) : ∃ t' r, t.nextfocus = some (t', r) ∧ Kept t t' True True ∧ t'.Focused := by
  obtain ⟨l, listed, members⟩ := focuslist_spec ok.inv
  unfold nextfocus
  rw [listed]
  dsimp only [Option.bind_eq_bind, Option.bind_some]
  split
  · exact ⟨_, _, rfl, focus_none ok, Or.inl rfl⟩
  · rename_i some_
    refine focus_chosen ok (fun j => (members j).mp) ?_
    have positive := List.length_pos_iff.mpr some_
    split
    · exact ⟨l.head some_, List.head_mem some_, List.head?_eq_some_head some_⟩
    · exact ⟨_, List.getElem_mem _, List.getElem?_eq_getElem (Nat.mod_lt _ positive)⟩

theorem prevfocus_kept (ok : t.Ok) : ∃ t' r, t.prevfocus = some (t', r) ∧ Kept t t' True True ∧ t'.Focused := by
  obtain ⟨l, listed, members⟩ := focuslist_spec ok.inv
  unfold prevfocus
  rw [listed]
  dsimp only [Option.bind_eq_bind, Option.bind_some]
  split
  · exact ⟨_, _, rfl, focus_none ok, Or.inl rfl⟩
  · rename_i some_
    refine focus_chosen ok (fun j => (members j).mp) ?_
    have positive := List.length_pos_iff.mpr some_
    split
    · exact ⟨l.head some_, List.head_mem some_, List.head?_eq_some_head some_⟩
    · exact ⟨_, List.getElem_mem _, List.getElem?_eq_getElem (by omega)⟩
    · rename_i cur _ here
      have less := (List.findIdx?_eq_some_iff_getElem.mp here).1
      exact ⟨_, List.getElem_mem _, List.getElem?_eq_getElem (by omega)⟩

end Inferno.Icurses.Tree
