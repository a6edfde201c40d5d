import Inferno.Icurses.ViewOps

namespace Inferno.Icurses.Tree

open Lib

variable {t t' t'' : Tree} {i j id parentid r : Int64} {n p m : Node} {f : Node → Node}

theorem removechild_id (q : Node) : (q.removechild id).id = q.id := by
  unfold Node.removechild
  split <;> rfl

theorem removechild_eq {q : Node} (low : 0 ≤ id) :
    q.removechild id = { q with children := removechildid q.children id, dirty := 1 } := by
  unfold Node.removechild
  rw [if_neg (Int64.not_lt.mpr low)]

/-- The parent no longer lists `id`. -/
theorem find_removechild (inv : t.Inv) (found : t.find id = some n) (here : t.find i = some m) :
    ∃ m', (t.upd n.parentid (·.removechild id)).find i = some m' ∧ m'.parentid = m.parentid ∧
      (m'.focusable = m.focusable ∧ m'.visible = m.visible ∧ m'.enabled = m.enabled) ∧ m'.children.Nodup ∧
      ∀ c, c ∈ m'.children ↔ c ∈ m.children ∧ c ≠ id := by
  obtain ⟨nodup, members⟩ := inv.kids i m here
  rw [find_upd removechild_id, here]
  split
  · refine ⟨_, rfl, ?_⟩
    dsimp only
    rw [removechild_eq (find_some found).2.2]
    refine ⟨rfl, ⟨rfl, rfl, rfl⟩, ?_, fun c => mem_removechildid⟩
    unfold removechildid
    exact nodup.filter _
  · rename_i other
    refine ⟨m, rfl, rfl, ⟨rfl, rfl, rfl⟩, nodup, fun c => ⟨fun member => ⟨member, ?_⟩, And.left⟩⟩
    rintro rfl
    obtain ⟨x, there, parent⟩ := (members c).mp member
    cases found.symm.trans there
    exact other parent.symm

theorem addchild_id (q : Node) : (q.addchild id).id = q.id := by
  unfold Node.addchild
  split
  · rfl
  · split <;> rfl

theorem parentid_id (q : Node) : ({ q with parentid := parentid } : Node).id = q.id := rfl

theorem dirty_id (q : Node) : ({ q with dirty := 1 } : Node).id = q.id := rfl

/-- The tree of `reparent`, once its checks are passed. -/
def moved (t : Tree) (id parentid : Int64) (n : Node) : Tree :=
  ((((t.upd n.parentid (·.removechild id)).upd id fun n => { n with parentid := parentid }).upd parentid (·.addchild id)).upd id
    fun n => { n with dirty := 1 }).upd parentid fun n => { n with dirty := 1 }

theorem find_moved (inv : t.Inv) (found : t.find id = some n) (here : t.find i = some m) :
    ∃ m', (t.moved id parentid n).find i = some m' ∧ m'.parentid = (if i = id then parentid else m.parentid) ∧
      (m'.focusable = m.focusable ∧ m'.visible = m.visible ∧ m'.enabled = m.enabled) ∧ m'.children.Nodup ∧
      ∀ c, c ∈ m'.children ↔ if c = id then i = parentid else c ∈ m.children := by
  have low := (find_some found).2.2
  obtain ⟨m₁, there₁, parent₁, flags₁, nodup₁, members₁⟩ := find_removechild inv found here
  unfold moved
  generalize t.upd n.parentid (·.removechild id) = t₁ at there₁ ⊢
  obtain ⟨m₂, there₂, parent₂, flags₂, children₂⟩ :
      ∃ m₂, (t₁.upd id fun n => { n with parentid := parentid }).find i = some m₂ ∧
      m₂.parentid = (if i = id then parentid else m.parentid) ∧
      (m₂.focusable = m.focusable ∧ m₂.visible = m.visible ∧ m₂.enabled = m.enabled) ∧ m₂.children = m₁.children := by
    rw [find_upd parentid_id, there₁]
    split
    · exact ⟨_, rfl, rfl, flags₁, rfl⟩
    · exact ⟨_, rfl, parent₁, flags₁, rfl⟩
  generalize (t₁.upd id fun n => { n with parentid := parentid }) = t₂ at there₂ ⊢
  rw [← children₂] at nodup₁
  simp only [← children₂] at members₁
  have absent : id ∉ m₂.children := fun member => ((members₁ id).mp member).2 rfl
  obtain ⟨m₃, there₃, parent₃, flags₃, nodup₃, members₃⟩ :
      ∃ m₃, (t₂.upd parentid (·.addchild id)).find i = some m₃ ∧ m₃.parentid = m₂.parentid ∧
      (m₃.focusable = m.focusable ∧ m₃.visible = m.visible ∧ m₃.enabled = m.enabled) ∧ m₃.children.Nodup ∧
      ∀ c, c ∈ m₃.children ↔ c ∈ m₂.children ∨ c = id ∧ i = parentid := by
    rw [find_upd addchild_id, there₂]
    split
    · rename_i same
      refine ⟨_, rfl, ?_⟩
      dsimp only
      rw [addchild_eq low absent]
      refine ⟨rfl, flags₂, List.nodup_append.mpr ⟨nodup₁, List.nodup_singleton _, fun x member y new eq => ?_⟩, fun c => ?_⟩
      · rw [eq, List.mem_singleton.mp new] at member
        exact absent member
      · rw [List.mem_append, List.mem_singleton]
        simp [same]
    · rename_i other
      exact ⟨m₂, rfl, rfl, flags₂, nodup₁, fun c => by simp [other]⟩
  generalize t₂.upd parentid (·.addchild id) = t₃ at there₃ ⊢
  obtain ⟨m₄, there₄, parent₄, flags₄, children₄⟩ : ∃ m₄, ((t₃.upd id fun n => { n with dirty := 1 }).upd parentid
      fun n => { n with dirty := 1 }).find i = some m₄ ∧ m₄.parentid = m₃.parentid ∧
      (m₄.focusable = m.focusable ∧ m₄.visible = m.visible ∧ m₄.enabled = m.enabled) ∧ m₄.children = m₃.children := by
    rw [find_upd dirty_id, find_upd dirty_id, there₃]
    split <;> split <;> exact ⟨_, rfl, rfl, flags₃, rfl⟩
  refine ⟨m₄, there₄, (parent₄.trans parent₃).trans parent₂, flags₄, children₄ ▸ nodup₃, fun c => ?_⟩
  rw [children₄, members₃, members₁]
  by_cases same : c = id
  · simp [same]
  · simp [same]

theorem moved_ids : (t.moved id parentid n).nodes.map Node.id = t.nodes.map Node.id := by
  unfold moved
  rw [upd_ids dirty_id, upd_ids dirty_id, upd_ids addchild_id, upd_ids parentid_id, upd_ids removechild_id]

/-- Nodes found by the same ids. -/
theorem find_back (ids : t'.nodes.map Node.id = t.nodes.map Node.id) (there : t'.find i = some m) : ∃ n, t.find i = some n := by
  have low := (find_some there).2.2
  have member := (find_isSome low).mp (Option.isSome_iff_exists.mpr ⟨m, there⟩)
  rw [ids] at member
  exact Option.isSome_iff_exists.mp ((find_isSome low).mpr member)

theorem moved_par (inv : t.Inv) (found : t.find id = some n) (named : parentid ≠ NoId) :
    (t.moved id parentid n).par i = if i = id then some parentid else t.par i := by
  unfold par
  cases here : t.find i with
  | none =>
    have other : i ≠ id := fun same => by
      rw [same, found] at here
      nomatch here
    rw [if_neg other]
    cases there : (t.moved id parentid n).find i with
    | none => rfl
    | some m' =>
      obtain ⟨m, here'⟩ := find_back moved_ids there
      nomatch here.symm.trans here'
  | some m =>
    obtain ⟨m', there, parent, -⟩ := @find_moved _ _ _ parentid _ _ inv found here
    simp only [there, parent]
    by_cases same : i = id
    · simp [same, named]
    · simp [same]

theorem moved_inv (inv : t.Inv) (found : t.find id = some n) (target : t.find parentid = some p) (notRoot : id ≠ t.rootid)
    (apart : ¬Above t.par parentid id) : (t.moved id parentid n).Inv := by
  have named := ne_NoId target
  have links := fun i => moved_par (i := i) inv found named
  refine ⟨⟨by rw [moved_ids]; exact inv.ids, fun q member => ?_, ?_, fun i q there other => ?_, fun i q there => ?_⟩,
    fun i q there => ?_⟩
  · have member' := List.mem_map_of_mem (f := Node.id) member
    rw [moved_ids] at member'
    obtain ⟨x, old, same⟩ := List.mem_map.mp member'
    exact same ▸ inv.low x old
  · obtain ⟨x, there, none_⟩ := inv.root
    obtain ⟨x', there', parent, -⟩ := @find_moved _ _ _ parentid _ _ inv found there
    rw [if_neg (Ne.symm notRoot)] at parent
    exact ⟨x', there', parent.trans none_⟩
  · obtain ⟨m, here⟩ := find_back moved_ids there
    obtain ⟨m', there', parent, -⟩ := @find_moved _ _ _ parentid _ _ inv found here
    cases there.symm.trans there'
    rw [parent]
    split
    · obtain ⟨p', above, -⟩ := @find_moved _ _ _ parentid _ _ inv found target
      exact ⟨p', above⟩
    · obtain ⟨x, above⟩ := inv.up i m here other
      obtain ⟨x', above', -⟩ := @find_moved _ _ _ parentid _ _ inv found above
      exact ⟨x', above'⟩
  · obtain ⟨m, here⟩ := find_back moved_ids there
    obtain ⟨k, depth⟩ := inv.depth i m here
    obtain ⟨k', target'⟩ := inv.depth parentid p target
    exact depth.relink target' apart ((links id).trans (if_pos rfl)) fun x ne => (links x).trans (if_neg ne)
  · obtain ⟨m, here⟩ := find_back moved_ids there
    obtain ⟨m', there', -, -, nodup, members⟩ := @find_moved _ _ _ parentid _ _ inv found here
    cases there.symm.trans there'
    refine ⟨nodup, fun c => ?_⟩
    rw [members]
    by_cases same : c = id
    · subst same
      obtain ⟨n', new, parent, -⟩ := @find_moved _ _ _ parentid _ _ inv found found
      rw [if_pos rfl] at parent
      rw [if_pos rfl, new]
      simp [parent, eq_comm]
    · rw [if_neg same, (inv.kids i m here).2]
      constructor
      · rintro ⟨x, child, parent⟩
        obtain ⟨x', child', parent', -⟩ := @find_moved _ _ _ parentid _ _ inv found child
        rw [if_neg same] at parent'
        exact ⟨x', child', parent'.trans parent⟩
      · rintro ⟨x', child', parent⟩
        obtain ⟨x, child⟩ := find_back moved_ids child'
        obtain ⟨x'', child'', parent', -⟩ := @find_moved _ _ _ parentid _ _ inv found child
        cases child'.symm.trans child''
        rw [if_neg same] at parent'
        exact ⟨x, child, parent'.symm.trans parent⟩

/-- A flag that is set above the new parent stays set. -/
theorem moved_set {flag : Node → Int64} (inv : t.Inv) (found : t.find id = some n) (target : t.find parentid = some p)
    (apart : ¬Above t.par parentid id) (set : t.Set_ flag i) (above : Above t.par i id → t.Set_ flag parentid)
    (same : ∀ j m m', t.find j = some m → (t.moved id parentid n).find j = some m' → flag m' = flag m) :
    (t.moved id parentid n).Set_ flag i := by
  have links := fun i => moved_par (i := i) inv found (ne_NoId target)
  intro j m' high there
  obtain ⟨m, here⟩ := find_back moved_ids there
  rw [same j m m' here there]
  rcases high.relink apart ((links id).trans (if_pos rfl)) fun x ne => (links x).trans (if_neg ne) with old | ⟨low, new⟩
  · exact set j m old here
  · exact above low j m new here

/-- The checks of `reparent`. -/
def movable (t : Tree) (id parentid : Int64) : Bool :=
  0 ≤ parentid && id ≠ t.rootid && id ≠ parentid && (t.find id).isSome && (t.find parentid).isSome && !t.isdescendant parentid id

theorem reparent_cases (value : t.reparent id parentid = (t', r)) : t.movable id parentid = false ∧ t' = t ∨
    t.movable id parentid = true ∧ r = 0 ∧ ∃ n, t.find id = some n ∧ t' = t.moved id parentid n := by
  unfold reparent at value
  unfold movable
  split at value
  · rename_i low
    obtain ⟨rfl, rfl⟩ := Prod.mk.inj value
    refine Or.inl ⟨?_, rfl⟩
    rcases low with low | low
    · simp [find_neg low]
    · simp [find_neg low]
  split at value
  · obtain ⟨rfl, rfl⟩ := Prod.mk.inj value
    rename_i same
    exact Or.inl ⟨by simp [same], rfl⟩
  split at value
  · obtain ⟨rfl, rfl⟩ := Prod.mk.inj value
    rename_i same
    exact Or.inl ⟨by simp [same], rfl⟩
  split at value
  · obtain ⟨rfl, rfl⟩ := Prod.mk.inj value
    rename_i absent
    exact Or.inl ⟨by simp [absent], rfl⟩
  split at value
  · obtain ⟨rfl, rfl⟩ := Prod.mk.inj value
    rename_i absent
    exact Or.inl ⟨by simp [absent], rfl⟩
  rename_i low notRoot other _ n found _ p target
  split at value
  · obtain ⟨rfl, rfl⟩ := Prod.mk.inj value
    rename_i below
    exact Or.inl ⟨by simp [below], rfl⟩
  · rename_i clear
    obtain ⟨rfl, rfl⟩ := Prod.mk.inj value
    refine Or.inr ⟨?_, rfl, n, found, rfl⟩
    simp only [not_or, Int64.not_lt] at low
    simp [found, target, low.2, notRoot, other, clear]

theorem reparent_kept (ok : t.Ok) (value : t.reparent id parentid = (t', r)) : Kept t t' True
    (t.movable id parentid = true → t.holds id t.focusid = true →
      t.isvisibletree parentid = true ∧ t.isenabledtree parentid = true) ∧ (r = -1 → t' = t) := by
  rcases reparent_cases value with ⟨-, rfl⟩ | ⟨granted, rfl, n, found, rfl⟩
  · exact ⟨.refl ok, fun _ => rfl⟩
  refine ⟨?_, fun no => absurd no (by decide)⟩
  have checks := granted
  unfold movable at checks
  simp only [Bool.and_eq_true, decide_eq_true_eq, Bool.not_eq_true', Option.isSome_iff_exists] at checks
  obtain ⟨⟨⟨⟨⟨-, notRoot⟩, other⟩, -⟩, p, target⟩, clear⟩ := checks
  have low := (find_some found).2.2
  have apart : ¬Above t.par parentid id := by
    rw [isdescendant_holds (Ne.symm other)] at clear
    rw [← holds_spec ok.inv.toLinked low, clear]
    exact Bool.false_ne_true
  have inv := moved_inv ok.inv found target notRoot apart
  have some_ : ∀ {i}, (t.find i).isSome → ((t.moved id parentid n).find i).isSome := fun some_ => by
    obtain ⟨m, here⟩ := Option.isSome_iff_exists.mp some_
    obtain ⟨m', there, -⟩ := @find_moved _ _ _ parentid _ _ ok.inv found here
    exact Option.isSome_iff_exists.mpr ⟨m', there⟩
  refine ⟨⟨inv, ok.focus.imp_right some_, ok.group.imp_right some_, ok.window.imp_right some_⟩,
    fun _ below => below.keep (by rw [moved_ids]) rfl, fun shown focused => focused.imp_right fun able => ?_⟩
  obtain ⟨x, here, focusable, visible, enabled⟩ := (focusableok_spec ok.inv.toLinked).mp able
  obtain ⟨x', here', -, kept, -⟩ := @find_moved _ _ _ parentid _ _ ok.inv found here
  have below : Above t.par t.focusid id → t.isvisibletree parentid = true ∧ t.isenabledtree parentid = true := fun above =>
    shown granted ((holds_spec ok.inv.toLinked low).mpr above)
  refine (focusableok_spec inv.toLinked).mpr ⟨x', here', kept.1 ▸ focusable, ?_, ?_⟩
  · refine moved_set ok.inv found target apart visible
      (fun above => (isvisibletree_spec ok.inv.toLinked target).mp (below above).1) fun j m m' old new => ?_
    obtain ⟨m'', there, -, same, -⟩ := @find_moved _ _ _ parentid _ _ ok.inv found old
    cases new.symm.trans there
    exact same.2.1
  · refine moved_set ok.inv found target apart enabled
      (fun above => (isenabledtree_spec ok.inv.toLinked target).mp (below above).2) fun j m m' old new => ?_
    obtain ⟨m'', there, -, same, -⟩ := @find_moved _ _ _ parentid _ _ ok.inv found old
    cases new.symm.trans there
    exact same.2.2

/-- The tree after the parent was told. -/
theorem unlisted_par (inv : t.Inv) (found : t.find id = some n) : (t.upd n.parentid (·.removechild id)).par = t.par := by
  funext i
  unfold par
  cases here : t.find i with
  | none =>
    cases there : (t.upd n.parentid (·.removechild id)).find i with
    | none => rfl
    | some m' =>
      obtain ⟨m, here'⟩ := find_back (upd_ids removechild_id) there
      nomatch here.symm.trans here'
  | some m =>
    obtain ⟨m', there, parent, -⟩ := find_removechild inv found here
    simp only [there, parent]

theorem unlisted_linked (inv : t.Inv) (found : t.find id = some n) : (t.upd n.parentid (·.removechild id)).Linked := by
  have ids : (t.upd n.parentid (·.removechild id)).nodes.map Node.id = t.nodes.map Node.id := upd_ids removechild_id
  refine ⟨by rw [ids]; exact inv.ids, fun q member => ?_, ?_, fun i q there other => ?_, fun i q there => ?_⟩
  · have member' := List.mem_map_of_mem (f := Node.id) member
    rw [ids] at member'
    obtain ⟨x, old, same⟩ := List.mem_map.mp member'
    exact same ▸ inv.low x old
  · obtain ⟨x, there, none_⟩ := inv.root
    obtain ⟨x', there', parent, -⟩ := find_removechild inv found there
    exact ⟨x', there', parent.trans none_⟩
  · obtain ⟨m, here⟩ := find_back ids there
    obtain ⟨m', there', parent, -⟩ := find_removechild inv found here
    cases there.symm.trans there'
    obtain ⟨x, above⟩ := inv.up i m here other
    obtain ⟨x', above', -⟩ := find_removechild inv found above
    exact ⟨x', parent ▸ above'⟩
  · obtain ⟨m, here⟩ := find_back ids there
    rw [unlisted_par inv found]
    exact inv.depth i m here

theorem holds_nodes (linked : t.Linked) (low : 0 ≤ id) (nodes : t'.nodes = t.nodes) (root : t'.rootid = t.rootid) :
    t'.holds id i = t.holds id i := by
  rw [Bool.eq_iff_iff, holds_spec (linked.nodes nodes root) low, holds_spec linked low, par_nodes nodes]

theorem forget_spec (linked : t.Linked) (low : 0 ≤ id) : (t.forget id).nodes = t.nodes ∧ (t.forget id).rootid = t.rootid ∧
    (t.forget id).nextid = t.nextid ∧
    (t.forget id).focusid = (if t.holds id t.focusid then NoId else t.focusid) ∧
    (t.forget id).activegroupid = (if t.holds id t.activegroupid then NoId else t.activegroupid) ∧
    (t.forget id).activewindowid = (if t.holds id t.activewindowid then NoId else t.activewindowid) := by
  unfold forget
  dsimp only
  generalize first : (if t.holds id t.focusid then { t with focusid := NoId } else t) = t₁
  have same₁ : t₁.nodes = t.nodes ∧ t₁.rootid = t.rootid ∧ t₁.nextid = t.nextid ∧
      t₁.focusid = (if t.holds id t.focusid then NoId else t.focusid) ∧ t₁.activegroupid = t.activegroupid ∧
      t₁.activewindowid = t.activewindowid := by
    rw [← first]
    by_cases held : t.holds id t.focusid <;> simp [held]
  obtain ⟨nodes₁, root₁, next₁, focus₁, group₁, window₁⟩ := same₁
  generalize second : (if t₁.holds id t₁.activegroupid then { t₁ with activegroupid := NoId } else t₁) = t₂
  have same₂ : t₂.nodes = t.nodes ∧ t₂.rootid = t.rootid ∧ t₂.nextid = t.nextid ∧ t₂.focusid = t₁.focusid ∧
      t₂.activegroupid = (if t.holds id t.activegroupid then NoId else t.activegroupid) ∧
      t₂.activewindowid = t.activewindowid := by
    rw [← second, holds_nodes linked low nodes₁ root₁, group₁]
    by_cases held : t.holds id t.activegroupid <;> simp [held, nodes₁, root₁, next₁, group₁, window₁]
  obtain ⟨nodes₂, root₂, next₂, focus₂, group₂, window₂⟩ := same₂
  rw [holds_nodes linked low nodes₂ root₂, window₂]
  by_cases held : t.holds id t.activewindowid <;> simp [held, nodes₂, root₂, next₂, focus₂, focus₁, group₂, window₂]

/-- What is left by `removetree`. -/
structure Removed (t t' : Tree) (id : Int64) (n : Node) : Prop where
  rootid : t'.rootid = t.rootid
  nextid : t'.nextid = t.nextid
  ids : (t'.nodes.map Node.id).Sublist (t.nodes.map Node.id)
  find : ∀ i m, t'.find i = some m ↔ (t.upd n.parentid (·.removechild id)).find i = some m ∧ ¬Above t.par i id
  focusid : t'.focusid = if t.holds id t.focusid then NoId else t.focusid
  activegroupid : t'.activegroupid = if t.holds id t.activegroupid then NoId else t.activegroupid
  activewindowid : t'.activewindowid = if t.holds id t.activewindowid then NoId else t.activewindowid

theorem unlisted_listed (inv : t.Inv) (found : t.find id = some n) (notRoot : t.par id ≠ none) :
    Listed (t.upd n.parentid (·.removechild id)) id := by
  have links := unlisted_par inv found
  obtain ⟨top, link⟩ := Option.ne_none_iff_exists'.mp notRoot
  obtain ⟨k, depth⟩ := inv.depth id n found
  have all : ∀ i m', Above t.par i id → (t.upd n.parentid (·.removechild id)).find i = some m' →
      m'.children.Nodup ∧ ∀ c, c ∈ m'.children ↔ t.par c = some i := fun i m' below there => by
    obtain ⟨m, here⟩ := find_back (upd_ids removechild_id) there
    obtain ⟨m'', there', -, -, nodup, members⟩ := find_removechild inv found here
    cases there.symm.trans there'
    refine ⟨nodup, fun c => ?_⟩
    rw [members, inv.par_child here, and_iff_left_iff_imp]
    rintro child rfl
    -- `id` is not below itself
    obtain ⟨j, le, above, same⟩ := depth.above (Above.parent child)
    obtain ⟨j', le', above', -⟩ := above.above below
    have eq := above'.unique depth
    have here := same (by omega)
    subst here
    have down := Depth.down child depth
    have no := down.unique depth
    omega
  exact ⟨fun i m' below there => (all i m' (links ▸ below) there).1, fun i m' below there c => by
    rw [links]
    exact (all i m' (links ▸ below) there).2 c⟩

/-- A node is not its own parent. -/
theorem unlisted_self (inv : t.Inv) (found : t.find id = some n) :
    (t.upd n.parentid (·.removechild id)).find id = some n := by
  rw [find_upd removechild_id, if_neg, found]
  intro self
  obtain ⟨k, depth⟩ := inv.depth id n found
  have link : t.par id = some id := by
    rw [par_of_find found, if_neg (self ▸ ne_NoId found), ← self]
  have no := (Depth.down link depth).unique depth
  omega

theorem Listed.nodes (listed : Listed t id) (same : t'.nodes = t.nodes) : Listed t' id := by
  have find : ∀ i, t'.find i = t.find i := fun i => find_nodes same
  refine ⟨fun i n below there => ?_, fun i n below there => ?_⟩
  · rw [par_nodes same] at below
    exact listed.nodup i n below (find i ▸ there)
  · rw [par_nodes same] at below ⊢
    exact listed.child i n below (find i ▸ there)

/-- The subtree of `id` leaves the nodes. -/
theorem dropnode_all (linked : t.Linked) (listed : Listed t id) (found : t.find id = some n) :
    ∃ t', dropnode (t.nodes.length + 1) t (some n) = some t' ∧ Dropped t t' fun j => Above t.par j id := by
  obtain ⟨k, depth⟩ := linked.depth id n found
  have start : Dropped t t fun _ => False := ⟨rfl, .refl _, fun i m => by simp⟩
  obtain ⟨t', ran, dropped⟩ := dropnode_spec listed (t.nodes.length + 1) start found (.refl id) (fun _ _ no => no) depth
    (fun there depth => linked.depth_lt depth there) (by omega)
  exact ⟨t', ran, dropped.congr fun j => (false_or _).to_iff.symm⟩

theorem removetree_cases (inv : t.Inv) : t.removetree id = some (t, -1) ∨
    ∃ n t', t.find id = some n ∧ id ≠ t.rootid ∧ t.removetree id = some (t', 0) ∧ Removed t t' id n := by
  unfold removetree
  split
  · exact Or.inl rfl
  split
  · exact Or.inl rfl
  rename_i low notRoot
  split
  · exact Or.inl rfl
  rename_i n found
  rw [Int64.not_lt] at low
  have linked := unlisted_linked inv found
  have links := unlisted_par inv found
  have held : ∀ i, (t.upd n.parentid (·.removechild id)).holds id i = t.holds id i := fun i => by
    rw [Bool.eq_iff_iff, holds_spec linked low, holds_spec inv.toLinked low, links]
  obtain ⟨nodes, root, next, focus, group, window⟩ := forget_spec linked low
  have named : t.par id ≠ none := fun none_ => by
    obtain ⟨p, above⟩ := inv.up id n found notRoot
    rw [par_none found none_, find_NoId] at above
    nomatch above
  have listed := (unlisted_listed inv found named).nodes nodes
  have self := (find_nodes nodes).trans (unlisted_self inv found)
  obtain ⟨t', ran, dropped⟩ := dropnode_all (linked.nodes nodes root) listed self
  rw [held] at focus group window
  have rest := dropped.rest
  refine Or.inr ⟨n, t', found, notRoot, by dsimp only; rw [ran]; rfl, ?_⟩
  refine ⟨(congrArg Tree.rootid rest).trans root, (congrArg Tree.nextid rest).trans next, ?_, fun i m => ?_,
    (congrArg Tree.focusid rest).trans focus, (congrArg Tree.activegroupid rest).trans group,
    (congrArg Tree.activewindowid rest).trans window⟩
  · have sub := dropped.sub.map Node.id
    rw [nodes, upd_ids removechild_id] at sub
    exact sub
  · rw [dropped.find, find_nodes nodes, par_nodes nodes, links]

theorem Removed.survivor (removed : Removed t t' id n) (inv : t.Inv) (found : t.find id = some n) (here : t.find i = some m)
    (out : ¬Above t.par i id) : ∃ m', t'.find i = some m' ∧ m'.parentid = m.parentid ∧
      (m'.focusable = m.focusable ∧ m'.visible = m.visible ∧ m'.enabled = m.enabled) ∧ m'.children.Nodup ∧
      ∀ c, c ∈ m'.children ↔ c ∈ m.children ∧ c ≠ id := by
  obtain ⟨m', there, rest⟩ := find_removechild inv found here
  exact ⟨m', (removed.find i m').mpr ⟨there, out⟩, rest⟩

theorem Removed.back (removed : Removed t t' id n) (there : t'.find i = some m) :
    (∃ m, t.find i = some m) ∧ ¬Above t.par i id := by
  obtain ⟨there', out⟩ := (removed.find i m).mp there
  exact ⟨find_back (upd_ids removechild_id) there', out⟩

theorem Removed.par (removed : Removed t t' id n) (inv : t.Inv) (found : t.find id = some n) (out : ¬Above t.par i id) :
    t'.par i = t.par i := by
  unfold Tree.par
  cases here : t.find i with
  | none =>
    cases there : t'.find i with
    | none => rfl
    | some m' =>
      obtain ⟨⟨m, here'⟩, -⟩ := removed.back there
      nomatch here.symm.trans here'
  | some m =>
    obtain ⟨m', there, parent, -⟩ := removed.survivor inv found here out
    simp only [there, parent]

theorem Removed.inv (removed : Removed t t' id n) (inv : t.Inv) (found : t.find id = some n) (notRoot : id ≠ t.rootid) :
    t'.Inv := by
  refine ⟨⟨removed.ids.nodup inv.ids, fun q member => ?_, ?_, fun i q there other => ?_, fun i q there => ?_⟩,
    fun i q there => ?_⟩
  · have member' := removed.ids.subset (List.mem_map_of_mem (f := Node.id) member)
    obtain ⟨x, old, same⟩ := List.mem_map.mp member'
    exact same ▸ inv.low x old
  · obtain ⟨x, there, none_⟩ := inv.root
    have out : ¬Above t.par t.rootid id := fun above => by
      rcases Above.iff_parent.mp above with same | ⟨b, link, -⟩
      · exact notRoot same.symm
      · exact (par_parent there link).2 none_
    obtain ⟨x', there', parent, -⟩ := removed.survivor inv found there out
    rw [removed.rootid]
    exact ⟨x', there', parent.trans none_⟩
  · obtain ⟨⟨m, here⟩, out⟩ := removed.back there
    rw [removed.rootid] at other
    obtain ⟨m', there', parent, -⟩ := removed.survivor inv found here out
    cases there.symm.trans there'
    obtain ⟨x, above⟩ := inv.up i m here other
    have link : t.par i = some m.parentid := by rw [par_of_find here, if_neg (ne_NoId above)]
    obtain ⟨x', above', -⟩ := removed.survivor inv found above fun high => out ((Above.parent link).trans high)
    exact ⟨x', parent ▸ above'⟩
  · obtain ⟨⟨m, here⟩, out⟩ := removed.back there
    obtain ⟨k, depth⟩ := inv.depth i m here
    exact ⟨k, depth.congr fun x above => removed.par inv found fun high => out (above.trans high)⟩
  · obtain ⟨⟨m, here⟩, out⟩ := removed.back there
    obtain ⟨m', there', -, -, nodup, members⟩ := removed.survivor inv found here out
    cases there.symm.trans there'
    refine ⟨nodup, fun c => ?_⟩
    rw [members, inv.par_child here]
    constructor
    · rintro ⟨link, other⟩
      obtain ⟨x, child, parent, -⟩ := par_some.mp link
      have stays : ¬Above t.par c id := fun above => by
        rcases Above.iff_parent.mp above with same | ⟨b, link', above'⟩
        · exact other same
        · cases link.symm.trans link'
          exact out above'
      obtain ⟨x', child', parent', -⟩ := removed.survivor inv found child stays
      exact ⟨x', child', parent'.trans parent⟩
    · rintro ⟨x', child', parent⟩
      obtain ⟨⟨x, child⟩, stays⟩ := removed.back child'
      obtain ⟨x'', child'', parent', -⟩ := removed.survivor inv found child stays
      cases child'.symm.trans child''
      exact ⟨par_some.mpr ⟨x, child, parent'.symm.trans parent, ne_NoId here⟩, fun same => stays (same ▸ .refl c)⟩

theorem removetree_kept (ok : t.Ok) : ∃ t' r, t.removetree id = some (t', r) ∧ Kept t t' True True ∧ (r = -1 → t' = t) ∧
    (r ≠ -1 → ∃ n, t.find id = some n ∧ id ≠ t.rootid ∧ Removed t t' id n) := by
  rcases removetree_cases ok.inv with value | ⟨n, t', found, notRoot, value, removed⟩
  · exact ⟨t, -1, value, .refl ok, fun _ => rfl, fun no => absurd rfl no⟩
  have low := (find_some found).2.2
  have inv := removed.inv ok.inv found notRoot
  have stays : ∀ {i}, ¬t.holds id i = true → (t.find i).isSome → (t'.find i).isSome := fun held some_ => by
    obtain ⟨m, here⟩ := Option.isSome_iff_exists.mp some_
    obtain ⟨m', there, -⟩ := removed.survivor ok.inv found here fun high =>
      held ((holds_spec ok.inv.toLinked low).mpr high)
    exact Option.isSome_iff_exists.mpr ⟨m', there⟩
  refine ⟨t', 0, value, ⟨⟨inv, ?_, ?_, ?_⟩, fun _ below => below.keep removed.ids removed.nextid, fun _ focused => ?_⟩,
    fun no => absurd no (by decide), fun _ => ⟨n, found, notRoot, removed⟩⟩
  · by_cases held : t.holds id t.focusid
    · exact Or.inl (removed.focusid.trans (if_pos held))
    · rw [removed.focusid, if_neg held]
      exact ok.focus.imp_right (stays held)
  · by_cases held : t.holds id t.activegroupid
    · exact Or.inl (removed.activegroupid.trans (if_pos held))
    · rw [removed.activegroupid, if_neg held]
      exact ok.group.imp_right (stays held)
  · by_cases held : t.holds id t.activewindowid
    · exact Or.inl (removed.activewindowid.trans (if_pos held))
    · rw [removed.activewindowid, if_neg held]
      exact ok.window.imp_right (stays held)
  · by_cases held : t.holds id t.focusid
    · exact Or.inl (removed.focusid.trans (if_pos held))
    · refine focused.keep ok.inv.toLinked inv.toLinked (removed.focusid.trans (if_neg held)) fun j m above here => ?_
      obtain ⟨m', there, parent, ⟨focusable, visible, enabled⟩, -⟩ := removed.survivor ok.inv found here fun high =>
        held ((holds_spec ok.inv.toLinked low).mpr (above.trans high))
      exact ⟨m', there, parent, focusable, fun some_ => visible ▸ some_, fun some_ => enabled ▸ some_⟩

end Inferno.Icurses.Tree
