import Inferno.Icurses.ViewWalk

namespace Inferno.Icurses.Tree

open Lib

/-- The ids that the tree keeps are those of nodes. -/
structure Ok (t : Tree) : Prop where
  inv : t.Inv
  focus : t.focusid = NoId ∨ (t.find t.focusid).isSome
  group : t.activegroupid = NoId ∨ (t.find t.activegroupid).isSome
  window : t.activewindowid = NoId ∨ (t.find t.activewindowid).isSome

/-- The ids that were given out. -/
def Below (t : Tree) : Prop := ∀ n ∈ t.nodes, n.id < t.nextid

/-- The focused node can have the focus. -/
def Focused (t : Tree) : Prop := t.focusid = NoId ∨ t.focusableok (t.find t.focusid) = true

/-- What a call keeps, where the ids fit and where the focus is not hidden. -/
structure Kept (t t' : Tree) (fits shown : Prop) : Prop where
  ok : t'.Ok
  below : fits → t.Below → t'.Below
  focused : shown → t.Focused → t'.Focused

variable {t t' t'' : Tree} {i j id parentid r : Int64} {n p m : Node} {f : Node → Node} {fits shown : Prop}

theorem Kept.weaken (kept : Kept t t' True True) : Kept t t' fits shown :=
  ⟨kept.ok, fun _ => kept.below trivial, fun _ => kept.focused trivial⟩

theorem Kept.refl (ok : t.Ok) : Kept t t fits shown := ⟨ok, fun _ below => below, fun _ focused => focused⟩

theorem Kept.trans (first : Kept t t' True True) (second : Kept t' t'' True True) : Kept t t'' True True :=
  ⟨second.ok, fun _ below => second.below trivial (first.below trivial below),
    fun _ focused => second.focused trivial (first.focused trivial focused)⟩

theorem Below.keep (below : t.Below) (ids : (t'.nodes.map Node.id).Sublist (t.nodes.map Node.id)) (next : t'.nextid = t.nextid) :
    t'.Below := fun n member => by
  obtain ⟨m, old, same⟩ := List.mem_map.mp (ids.subset (List.mem_map_of_mem (f := Node.id) member))
  rw [next]
  exact same ▸ below m old

/-- Flags stay set where the way up stays. -/
theorem Set_.keep {flag : Node → Int64} (inv : t.Linked) (found : t.find i = some n) (set : t.Set_ flag i)
    (same : ∀ j m, Above t.par i j → t.find j = some m →
      ∃ m', t'.find j = some m' ∧ m'.parentid = m.parentid ∧ (flag m ≠ 0 → flag m' ≠ 0)) : t'.Set_ flag i := by
  have links : ∀ j, Above t.par i j → t'.par j = t.par j := fun j above => by
    obtain ⟨m, there⟩ := inv.above_find above found
    obtain ⟨m', there', parent, -⟩ := same j m above there
    rw [par_of_find there, par_of_find there', parent]
  intro j m' above there'
  rw [Above.congr links] at above
  obtain ⟨m, there⟩ := inv.above_find above found
  obtain ⟨m'', there'', -, kept⟩ := same j m above there
  cases there'.symm.trans there''
  exact kept (set j m above there)

/-- The way up from the focused node is kept. -/
theorem Focused.keep (focused : t.Focused) (inv : t.Linked) (inv' : t'.Linked) (same : t'.focusid = t.focusid)
    (chain : ∀ j m, Above t.par t.focusid j → t.find j = some m → ∃ m', t'.find j = some m' ∧ m'.parentid = m.parentid ∧
      m'.focusable = m.focusable ∧ (m.visible ≠ 0 → m'.visible ≠ 0) ∧ (m.enabled ≠ 0 → m'.enabled ≠ 0)) : t'.Focused := by
  unfold Focused
  rw [same]
  refine focused.imp_right fun able => ?_
  obtain ⟨n, found, focusable, visible, enabled⟩ := (focusableok_spec inv).mp able
  obtain ⟨n', found', -, kept, -⟩ := chain _ n (.refl _) found
  refine (focusableok_spec inv').mpr ⟨n', found', kept ▸ focusable, ?_, ?_⟩
  · refine Set_.keep inv found visible fun j m above here => ?_
    obtain ⟨m', there', parent, -, shown, -⟩ := chain j m above here
    exact ⟨m', there', parent, shown⟩
  · refine Set_.keep inv found enabled fun j m above here => ?_
    obtain ⟨m', there', parent, -, -, able⟩ := chain j m above here
    exact ⟨m', there', parent, able⟩

/-- Nodes stay with their parents and flags. -/
def Steady (t t' : Tree) : Prop :=
  ∀ i n, t.find i = some n → ∃ n', t'.find i = some n' ∧ n'.parentid = n.parentid ∧ n'.focusable = n.focusable ∧
    n'.visible = n.visible ∧ n'.enabled = n.enabled

theorem Steady.trans (first : t.Steady t') (second : t'.Steady t'') : t.Steady t'' := fun i n found => by
  obtain ⟨n', found', parent, focusable, visible, enabled⟩ := first i n found
  obtain ⟨n'', found'', parent', focusable', visible', enabled'⟩ := second i n' found'
  exact ⟨n'', found'', parent'.trans parent, focusable'.trans focusable, visible'.trans visible, enabled'.trans enabled⟩

theorem Steady.refl (same : t'.nodes = t.nodes) : t.Steady t' := fun _ n found =>
  ⟨n, (find_nodes same).trans found, rfl, rfl, rfl, rfl⟩

theorem Steady.upd (keeps : ∀ n, (f n).id = n.id)
    (same : ∀ n, (f n).parentid = n.parentid ∧ (f n).focusable = n.focusable ∧ (f n).visible = n.visible ∧
      (f n).enabled = n.enabled) : t.Steady (t.upd id f) := fun i n found => by
  rw [find_upd keeps, found]
  split
  · exact ⟨_, rfl, same n⟩
  · exact ⟨n, rfl, rfl, rfl, rfl, rfl⟩

theorem Steady.focused (steady : t.Steady t') (inv : t.Linked) (inv' : t'.Linked) (same : t'.focusid = t.focusid)
    (focused : t.Focused) : t'.Focused := by
  refine focused.keep inv inv' same fun j m _ here => ?_
  obtain ⟨m', there, parent, focusable, visible, enabled⟩ := steady j m here
  exact ⟨m', there, parent, focusable, fun some_ => visible ▸ some_, fun some_ => enabled ▸ some_⟩

theorem Steady.isSome (steady : t.Steady t') (some_ : (t.find i).isSome) : (t'.find i).isSome := by
  obtain ⟨n, found⟩ := Option.isSome_iff_exists.mp some_
  obtain ⟨n', found', -⟩ := steady i n found
  exact Option.isSome_iff_exists.mpr ⟨n', found'⟩

theorem Steady.kept (steady : t.Steady t') (ok : t.Ok) (inv : t'.Inv)
    (ids : t'.focusid = t.focusid ∧ t'.activegroupid = t.activegroupid ∧ t'.activewindowid = t.activewindowid)
    (below : fits → t.Below → t'.Below) : Kept t t' fits True := by
  obtain ⟨focus, group, window⟩ := ids
  refine ⟨⟨inv, ?_, ?_, ?_⟩, below, fun _ => steady.focused ok.inv.toLinked inv.toLinked focus⟩
  · rw [focus]
    exact ok.focus.imp_right steady.isSome
  · rw [group]
    exact ok.group.imp_right steady.isSome
  · rw [window]
    exact ok.window.imp_right steady.isSome

theorem lt_succ {x : Int64} (small : x ≠ Int64.maxValue) : x < x + 1 := by
  have less : x < Int64.maxValue := Int64.lt_of_le_of_ne (Int64.le_maxValue x) small
  rw [Int64.lt_iff_toInt_lt] at less ⊢
  have low := Int64.le_toInt x
  have high : Int64.maxValue.toInt = 2 ^ 63 - 1 := by decide
  have sum : (x + 1).toInt = x.toInt + 1 := by
    rw [Int64.toInt_add, show (1 : Int64).toInt = 1 by decide, Int.bmod_eq_of_le] <;> omega
  omega

theorem Linked.nodes (linked : t.Linked) (nodes : t'.nodes = t.nodes) (root : t'.rootid = t.rootid) : t'.Linked := by
  have find : ∀ i, t'.find i = t.find i := fun i => find_nodes nodes
  refine ⟨nodes ▸ linked.ids, nodes ▸ linked.low, ?_, fun i n there other => ?_, fun i n there => ?_⟩
  · rw [root, find]
    exact linked.root
  · rw [find] at there ⊢
    exact linked.up i n there (root ▸ other)
  · rw [find] at there
    rw [par_nodes nodes]
    exact linked.depth i n there

theorem Inv.nodes (inv : t.Inv) (nodes : t'.nodes = t.nodes) (root : t'.rootid = t.rootid) : t'.Inv := by
  have find : ∀ i, t'.find i = t.find i := fun i => find_nodes nodes
  refine ⟨inv.toLinked.nodes nodes root, fun i p found => ?_⟩
  simp only [find] at found ⊢
  exact inv.kids i p found

theorem allocid_kept (ok : t.Ok) : Kept t (allocid t).1 (t.nextid ≠ Int64.maxValue) True := by
  have steady : t.Steady (allocid t).1 := .refl rfl
  refine steady.kept ok (ok.inv.nodes rfl rfl) ⟨rfl, rfl, rfl⟩ fun small below n member => ?_
  obtain ⟨r, root, -⟩ := ok.inv.root
  have positive : 0 < t.nextid := Int64.lt_of_le_of_lt (ok.inv.low r (find_some root).1) (below r (find_some root).1)
  have next : (allocid t).1.nextid = t.nextid + 1 := by
    unfold allocid
    rw [if_neg]
    exact Int64.not_le.mpr positive
  rw [next]
  exact Int64.lt_trans (below n member) (lt_succ small)

theorem mem_removechildid {l : List Int64} : j ∈ removechildid l i ↔ j ∈ l ∧ j ≠ i := by
  unfold removechildid
  rw [List.mem_filter, decide_eq_true_eq]

theorem removechildid_perm {l : List Int64} (nodup : l.Nodup) (member : i ∈ l) : (i :: removechildid l i).Perm l := by
  rw [List.perm_ext_iff_of_nodup _ nodup]
  · intro j
    rw [List.mem_cons, mem_removechildid]
    by_cases same : j = i
    · simp [same, member]
    · simp [same]
  · refine List.nodup_cons.mpr ⟨fun there => (mem_removechildid.mp there).2 rfl, ?_⟩
    unfold removechildid
    exact nodup.filter _

/-- `bringtofront` and `sendtoback`, which put the child at one of the ends. -/
theorem reorder_kept {change : List Int64 → List Int64} (ok : t.Ok) (found : t.find id = some n)
    (above : t.find n.parentid = some p) (perm : ∀ l : List Int64, l.Nodup → id ∈ l → (change l).Perm l) :
    Kept t ((t.upd p.id fun p => { p with children := change p.children, dirty := 1 }).upd id
      fun n => { n with dirty := 1 }) True True := by
  have like : t.Like (t.upd p.id fun p => { p with children := change p.children, dirty := 1 }) :=
    like_upd (fun _ => rfl) (fun _ => rfl) fun q there => by
      obtain ⟨-, same, -⟩ := find_some above
      rw [same] at there
      obtain ⟨nodup, members⟩ := ok.inv.kids _ q there
      exact perm q.children nodup ((members id).mpr ⟨n, found, rfl⟩)
  have steady : t.Steady (t.upd p.id fun p => { p with children := change p.children, dirty := 1 }) :=
    .upd (fun _ => rfl) fun _ => ⟨rfl, rfl, rfl, rfl⟩
  generalize told : (t.upd p.id fun p => { p with children := change p.children, dirty := 1 }) = t₁ at like steady
  have like' : t.Like (t₁.upd id fun n => { n with dirty := 1 }) :=
    like.trans (like_upd (fun _ => rfl) (fun _ => rfl) fun _ _ => .refl _)
  have steady' : t₁.Steady (t₁.upd id fun n => { n with dirty := 1 }) := .upd (fun _ => rfl) fun _ => ⟨rfl, rfl, rfl, rfl⟩
  refine (steady.trans steady').kept ok (ok.inv.like like') ?_ fun _ below =>
    below.keep (like'.ids ▸ .refl _) like'.nextid
  rw [← told]
  exact ⟨rfl, rfl, rfl⟩

theorem bringtofront_kept (ok : t.Ok) (value : t.bringtofront id = (t', r)) :
    Kept t t' True True ∧ (r = -1 → t' = t) ∧ t'.focusid = t.focusid ∧ (∀ n, t.find id = some n → id ≠ t.rootid → r ≠ -1) := by
  unfold bringtofront at value
  split at value
  · obtain ⟨rfl, rfl⟩ := Prod.mk.inj value
    rename_i none_
    exact ⟨.refl ok, fun _ => rfl, rfl, fun n found => by rw [none_] at found; nomatch found⟩
  · rename_i n found
    split at value
    · obtain ⟨rfl, rfl⟩ := Prod.mk.inj value
      rename_i none_
      refine ⟨.refl ok, fun _ => rfl, rfl, fun m found' other => ?_⟩
      obtain ⟨p, above⟩ := ok.inv.up id n found other
      rw [none_] at above
      nomatch above
    · rename_i p above
      obtain ⟨rfl, rfl⟩ := Prod.mk.inj value
      obtain ⟨-, -, low⟩ := find_some found
      refine ⟨@reorder_kept _ _ _ _ (fun l => appendchild (removechildid l id) id) ok found above fun l nodup member => ?_,
        fun no => absurd no (by decide), rfl, fun _ _ _ => by decide⟩
      unfold appendchild
      rw [if_neg (Int64.not_lt.mpr low)]
      exact List.perm_append_comm.trans (removechildid_perm nodup member)

theorem sendtoback_kept (ok : t.Ok) (value : t.sendtoback id = (t', r)) : Kept t t' True True ∧ (r = -1 → t' = t) := by
  unfold sendtoback at value
  split at value
  · obtain ⟨rfl, rfl⟩ := Prod.mk.inj value
    exact ⟨.refl ok, fun _ => rfl⟩
  · rename_i n found
    split at value
    · obtain ⟨rfl, rfl⟩ := Prod.mk.inj value
      exact ⟨.refl ok, fun _ => rfl⟩
    · rename_i p above
      obtain ⟨rfl, rfl⟩ := Prod.mk.inj value
      obtain ⟨-, -, low⟩ := find_some found
      refine ⟨@reorder_kept _ _ _ _ (fun l => prependchild (removechildid l id) id) ok found above fun l nodup member => ?_,
        fun no => absurd no (by decide)⟩
      unfold prependchild
      rw [if_neg (Int64.not_lt.mpr low)]
      exact removechildid_perm nodup member

theorem activatewindow_kept (ok : t.Ok) (value : t.activatewindow id = (t', r)) :
    Kept t t' True True ∧ (id ≠ t.rootid → r = -1 → t' = t) ∧ t'.focusid = t.focusid := by
  unfold activatewindow at value
  split at value
  · obtain ⟨rfl, rfl⟩ := Prod.mk.inj value
    exact ⟨.refl ok, fun _ _ => rfl, rfl⟩
  · split at value
    · obtain ⟨rfl, rfl⟩ := Prod.mk.inj value
      exact ⟨.refl ok, fun _ _ => rfl, rfl⟩
    · rename_i n found
      have steady : t.Steady { t with activewindowid := id } := .refl rfl
      have inv : ({ t with activewindowid := id } : Tree).Inv := ok.inv.nodes rfl rfl
      have kept : Kept t { t with activewindowid := id } True True :=
        ⟨⟨inv, ok.focus, ok.group, Or.inr (Option.isSome_iff_exists.mpr ⟨n, found⟩)⟩, fun _ below => below,
          fun _ => steady.focused ok.inv.toLinked inv.toLinked rfl⟩
      obtain ⟨kept', -, focus, granted⟩ := bringtofront_kept kept.ok value
      exact ⟨kept.trans kept', fun other no => absurd no (granted n found other), focus⟩

/-- The place of a new node. -/
theorem find_append (fresh : t.find n.id = none) (low : 0 ≤ n.id) :
    ({ t with nodes := t.nodes ++ [n] }).find i = if i = n.id then some n else t.find i := by
  unfold find at fresh ⊢
  rw [if_neg (Int64.not_lt.mpr low)] at fresh
  dsimp only
  split
  · rename_i neg
    rw [if_neg]
    rintro rfl
    exact absurd low (Int64.not_le.mpr neg)
  · rw [List.find?_append]
    by_cases here : i = n.id
    · rw [here, fresh]
      simp
    · rw [if_neg here]
      have other : [n].find? (fun m => decide (m.id = i)) = none := by simp [Ne.symm here]
      rw [other, Option.or_none]

theorem addchild_eq {c : Int64} (low : 0 ≤ c) (new : c ∉ p.children) :
    p.addchild c = { p with children := p.children ++ [c], dirty := 1 } := by
  unfold Node.addchild Node.haschild appendchild
  have least := Int64.not_lt.mpr low
  simp only [least, new, decide_false, if_false, Bool.false_eq_true]

/-- A leaf is put under the node `parentid`. -/
theorem Inv.add {t' : Tree} (inv : t.Inv) (found : t.find parentid = some p) (absent : t.find n.id = none) (low : 0 ≤ n.id)
    (root : t'.rootid = t.rootid)
    (ids : t'.nodes.map Node.id = t.nodes.map Node.id ++ [n.id]) (new : t'.find n.id = some m)
    (leaf : m.parentid = parentid ∧ m.children = [])
    (old : ∀ i q, i ≠ n.id → t.find i = some q → ∃ q', t'.find i = some q' ∧ q'.parentid = q.parentid ∧
      q'.children = if i = parentid then q.children ++ [n.id] else q.children) : t'.Inv := by
  have back : ∀ i q', i ≠ n.id → t'.find i = some q' → ∃ q, t.find i = some q ∧ q'.parentid = q.parentid ∧
      q'.children = if i = parentid then q.children ++ [n.id] else q.children := fun i q' other there => by
    have least := (find_some there).2.2
    have member := (find_isSome least).mp (Option.isSome_iff_exists.mpr ⟨q', there⟩)
    rw [ids, List.mem_append, List.mem_singleton] at member
    obtain ⟨q, here⟩ := Option.isSome_iff_exists.mp ((find_isSome least).mpr (member.resolve_right other))
    obtain ⟨q'', there', rest⟩ := old i q other here
    cases there.symm.trans there'
    exact ⟨q, here, rest⟩
  have ne : ∀ {i q}, t.find i = some q → i ≠ n.id := fun there same => by
    rw [same, absent] at there
    nomatch there
  have links : ∀ i, i ≠ n.id → t'.par i = t.par i := fun i other => by
    unfold par
    cases there : t.find i with
    | none =>
      cases there' : t'.find i with
      | none => rfl
      | some q' =>
        obtain ⟨q, here, -⟩ := back i q' other there'
        nomatch there.symm.trans here
    | some q =>
      obtain ⟨q', there', parent, -⟩ := old i q other there
      simp only [there', parent]
  have depth : ∀ i q, t.find i = some q → ∃ k, Depth t'.par i k := fun i q there => by
    obtain ⟨k, depth⟩ := inv.depth i q there
    refine ⟨k, depth.congr fun j above => links j ?_⟩
    obtain ⟨r, there'⟩ := inv.above_find above there
    exact ne there'
  refine ⟨⟨?_, fun q member => ?_, ?_, fun i q there other => ?_, fun i q there => ?_⟩, fun i q there => ?_⟩
  · rw [ids, List.nodup_append]
    refine ⟨inv.ids, List.nodup_singleton _, fun x member y new same => ?_⟩
    rw [List.mem_singleton.mp new] at same
    have there := (find_isSome low).mpr (same ▸ member)
    rw [absent] at there
    nomatch there
  · have member : q.id ∈ t.nodes.map Node.id ++ [n.id] := ids ▸ List.mem_map.mpr ⟨q, member, rfl⟩
    rcases List.mem_append.mp member with old | new
    · obtain ⟨r, member', same⟩ := List.mem_map.mp old
      exact same ▸ inv.low r member'
    · rw [List.mem_singleton.mp new]
      exact low
  · obtain ⟨r, there, none_⟩ := inv.root
    obtain ⟨r', there', parent, -⟩ := old _ r (ne there) there
    exact ⟨r', root ▸ there', parent.trans none_⟩
  · by_cases here : i = n.id
    · subst here
      cases there.symm.trans new
      rw [leaf.1]
      obtain ⟨p', there', -⟩ := old _ p (ne found) found
      exact ⟨p', there'⟩
    · obtain ⟨q₀, there₀, parent, -⟩ := back i q here there
      obtain ⟨r, above⟩ := inv.up i q₀ there₀ (root ▸ other)
      obtain ⟨r', above', -⟩ := old _ r (ne above) above
      exact ⟨r', parent ▸ above'⟩
  · by_cases here : i = n.id
    · subst here
      obtain ⟨k, above⟩ := depth _ p found
      refine ⟨k + 1, .down ?_ above⟩
      rw [par_some]
      exact ⟨m, new, leaf.1, ne_NoId found⟩
    · obtain ⟨q₀, there₀, -⟩ := back i q here there
      exact depth i q₀ there₀
  · -- the children named by the old nodes, and the new node
    have named : ∀ c, (∃ x, t'.find c = some x ∧ x.parentid = i) ↔
        (∃ x, t.find c = some x ∧ x.parentid = i) ∨ c = n.id ∧ i = parentid := fun c => by
      by_cases same : c = n.id
      · subst same
        rw [new, absent]
        simp [leaf.1, eq_comm]
      · constructor
        · rintro ⟨x, there, parent⟩
          obtain ⟨x₀, there₀, parent₀, -⟩ := back c x same there
          exact Or.inl ⟨x₀, there₀, parent₀.symm.trans parent⟩
        · rintro (⟨x, there, parent⟩ | ⟨no, -⟩)
          · obtain ⟨x', there', parent', -⟩ := old c x same there
            exact ⟨x', there', parent'.trans parent⟩
          · exact absurd no same
    by_cases here : i = n.id
    · subst here
      cases there.symm.trans new
      rw [leaf.2]
      refine ⟨List.nodup_nil, fun c => ?_⟩
      rw [named]
      simp only [List.not_mem_nil, false_iff, not_or, not_and, not_exists]
      refine ⟨fun x there parent => ?_, fun _ same => ne found same.symm⟩
      by_cases top : c = t.rootid
      · obtain ⟨r, there', none_⟩ := inv.root
        rw [top] at there
        cases there.symm.trans there'
        exact absurd (parent ▸ low) (none_ ▸ by decide)
      · obtain ⟨r, above⟩ := inv.up c x there top
        rw [parent, absent] at above
        nomatch above
    · obtain ⟨q₀, there₀, -, children⟩ := back i q here there
      obtain ⟨nodup, members⟩ := inv.kids i q₀ there₀
      rw [children]
      split
      · rename_i same
        refine ⟨List.nodup_append.mpr ⟨nodup, List.nodup_singleton _, fun x member y new same => ?_⟩, fun c => ?_⟩
        · rw [List.mem_singleton.mp new] at same
          obtain ⟨x', there', -⟩ := (members x).mp member
          rw [same, absent] at there'
          nomatch there'
        · rw [List.mem_append, members, List.mem_singleton, named]
          simp [same]
      · rename_i other
        refine ⟨nodup, fun c => ?_⟩
        rw [members, named]
        simp [other]

theorem addchildnode_kept (ok : t.Ok) (fresh : n.children = []) (value : t.addchildnode parentid n = (t', r)) :
    Kept t t' ((t.find parentid).isSome → n.id ≠ Int64.maxValue) True ∧ (r = -1 → t' = t) := by
  unfold addchildnode at value
  split at value
  · obtain ⟨rfl, rfl⟩ := Prod.mk.inj value
    exact ⟨.refl ok, fun _ => rfl⟩
  split at value
  · obtain ⟨rfl, rfl⟩ := Prod.mk.inj value
    exact ⟨.refl ok, fun _ => rfl⟩
  rename_i low
  split at value
  · obtain ⟨rfl, rfl⟩ := Prod.mk.inj value
    exact ⟨.refl ok, fun _ => rfl⟩
  rename_i absent
  split at value
  · obtain ⟨rfl, rfl⟩ := Prod.mk.inj value
    exact ⟨.refl ok, fun _ => rfl⟩
  rename_i p found
  rw [Int64.not_lt] at low
  rw [Bool.not_eq_true, Option.isSome_eq_false_iff, Option.isNone_iff_eq_none] at absent
  dsimp only at value
  generalize grown : ({ t with nodes := t.nodes ++ [{ n with parentid := parentid }] } : Tree) = t₁ at value
  have find₁ : ∀ i, t₁.find i = if i = n.id then some { n with parentid := parentid } else t.find i := fun i => by
    rw [← grown]
    exact find_append (n := { n with parentid := parentid }) absent low
  have keeps : ∀ q : Node, (q.addchild n.id).id = q.id := fun q => by
    unfold Node.addchild
    split
    · rfl
    · split <;> rfl
  have other : parentid ≠ n.id := fun same => by
    rw [same, absent] at found
    nomatch found
  have new : n.id ∉ p.children := fun member => by
    obtain ⟨x, there, -⟩ := ((ok.inv.kids parentid p found).2 n.id).mp member
    rw [absent] at there
    nomatch there
  generalize step : t₁.upd parentid (·.addchild n.id) = t₂ at value
  have find₂ : ∀ i, i ≠ n.id → t₂.find i = if i = parentid then some { p with children := p.children ++ [n.id], dirty := 1 }
      else t.find i := fun i ne => by
    rw [← step, find_upd keeps, find₁, if_neg ne]
    split
    · rename_i same
      rw [same, found, Option.map_some, addchild_eq low new]
    · rfl
  have ids : t₂.nodes.map Node.id = t.nodes.map Node.id ++ [n.id] := by
    rw [← step, upd_ids keeps, ← grown, List.map_append]
    rfl
  have rest : t₂.rootid = t.rootid ∧ t₂.nextid = t.nextid ∧ t₂.focusid = t.focusid ∧ t₂.activegroupid = t.activegroupid ∧
      t₂.activewindowid = t.activewindowid := by
    rw [← step, ← grown]
    exact ⟨rfl, rfl, rfl, rfl, rfl⟩
  obtain ⟨root, next, kept⟩ := rest
  have inv : t₂.Inv := by
    refine ok.inv.add (m := { n with parentid := parentid }) found absent low root ids ?_ ⟨rfl, fresh⟩ fun i q ne there => ?_
    · rw [← step, find_upd keeps, if_neg (Ne.symm other), find₁, if_pos rfl]
    · rw [find₂ i ne]
      split
      · rename_i same
        rw [same, found] at there
        cases there
        exact ⟨_, rfl, rfl, rfl⟩
      · exact ⟨q, there, rfl, rfl⟩
  have steady : t.Steady t₂ := fun i q there => by
    have ne : i ≠ n.id := fun same => by
      rw [same, absent] at there
      nomatch there
    rw [find₂ i ne]
    split
    · rename_i same
      rw [same, found] at there
      cases there
      exact ⟨_, rfl, rfl, rfl, rfl, rfl⟩
    · exact ⟨q, there, rfl, rfl, rfl, rfl⟩
  obtain ⟨rfl, rfl⟩ := Prod.mk.inj value
  refine ⟨?_, fun no => absurd no (by decide)⟩
  generalize last : (if n.id ≥ t₂.nextid then { t₂ with nextid := n.id + 1 } else t₂) = t₃
  have same : t₃.nodes = t₂.nodes ∧ t₃.rootid = t₂.rootid ∧ t₃.focusid = t₂.focusid ∧ t₃.activegroupid = t₂.activegroupid ∧
      t₃.activewindowid = t₂.activewindowid := by
    rw [← last]
    split <;> exact ⟨rfl, rfl, rfl, rfl, rfl⟩
  obtain ⟨nodes, root', focus, group, window⟩ := same
  refine (steady.trans (.refl nodes)).kept ok (inv.nodes nodes root')
    ⟨focus.trans kept.1, group.trans kept.2.1, window.trans kept.2.2⟩ fun fits below q member => ?_
  have fits := fits (Option.isSome_iff_exists.mpr ⟨p, found⟩)
  have member' := List.mem_map_of_mem (f := Node.id) (nodes ▸ member)
  rw [ids, List.mem_append, List.mem_singleton] at member'
  have old : q.id ∈ t.nodes.map Node.id → q.id < t.nextid := fun old => by
    obtain ⟨x, there, same⟩ := List.mem_map.mp old
    exact same ▸ below x there
  rw [← last]
  split
  · rename_i above
    rw [next] at above
    rcases member' with there | there
    · exact Int64.lt_of_lt_of_le (old there) (Int64.le_trans above (Int64.le_of_lt (lt_succ fits)))
    · rw [there]
      exact lt_succ fits
  · rename_i above
    rcases member' with there | there
    · exact next ▸ old there
    · exact there ▸ Int64.not_le.mp above

/-- Flags are set, or cleared where the focus is not. -/
theorem changed_kept {change : Node → Node} {below : Int64 → Prop} (ok : t.Ok) (flags : Flags change)
    (changed : Changed t t' change below)
    (clear : shown → ∀ j m, below j → Above t.par t.focusid j → t.find j = some m →
      (m.visible ≠ 0 → (change m).visible ≠ 0) ∧ (m.enabled ≠ 0 → (change m).enabled ≠ 0)) : Kept t t' True shown := by
  have like := changed.like flags
  have inv := ok.inv.like like
  have ids : t'.focusid = t.focusid ∧ t'.activegroupid = t.activegroupid ∧ t'.activewindowid = t.activewindowid := by
    rw [← changed.rest]
    exact ⟨rfl, rfl, rfl⟩
  obtain ⟨focus, group, window⟩ := ids
  have some_ : ∀ {i}, (t.find i).isSome → (t'.find i).isSome := fun some_ => by
    obtain ⟨n, found⟩ := Option.isSome_iff_exists.mp some_
    obtain ⟨n', found', -⟩ := like.find _ n found
    exact Option.isSome_iff_exists.mpr ⟨n', found'⟩
  refine ⟨⟨inv, ?_, ?_, ?_⟩, fun _ below => below.keep (like.ids ▸ .refl _) like.nextid, fun shown focused => ?_⟩
  · rw [focus]
    exact ok.focus.imp_right some_
  · rw [group]
    exact ok.group.imp_right some_
  · rw [window]
    exact ok.window.imp_right some_
  · refine focused.keep ok.inv.toLinked inv.toLinked focus fun j m above here => ?_
    by_cases inside : below j
    · exact ⟨_, changed.here j m here inside, flags.parentid m, flags.focusable m, clear shown j m inside above here⟩
    · exact ⟨m, (changed.there j inside).trans here, rfl, rfl, fun some_ => some_, fun some_ => some_⟩

end Inferno.Icurses.Tree
