import Inferno.Lib.Run
import Inferno.Icurses.ViewFocus

namespace Inferno.Icurses

open Lib Tree

def step (op : Op) (t : Tree) : Option Tree := (exec t op).map Prod.fst

/-- The ids given out are not the largest `int`. -/
def Fits (op : Op) (t : Tree) : Prop :=
  match op with
  | .allocid => t.nextid ≠ Int64.maxValue
  | .addchildnode parentid n _ => (t.find parentid).isSome → n.id ≠ Int64.maxValue
  | _ => True

/-- The call does not hide or disable the node `id` over the focused one. -/
def Spares (t : Tree) (id : Int64) : Prop := (t.find id).isSome → t.holds id t.focusid = false

/-- The focused node is not hidden or disabled, and is not moved to where it would be. -/
def Shown (op : Op) (t : Tree) : Prop :=
  match op with
  | .hide id => Spares t id
  | .disable id => Spares t id
  | .hidetree id => Spares t id
  | .disabletree id => Spares t id
  | .reparent id parentid => t.movable id parentid = true → t.holds id t.focusid = true →
      t.isvisibletree parentid = true ∧ t.isenabledtree parentid = true
  | _ => True

/-- The calls that return -1 when they are refused. The root cannot come to the front of its parent's children. -/
def Refusable (op : Op) (t : Tree) : Prop :=
  match op with
  | .allocid => False
  | .nextfocus => False
  | .prevfocus => False
  | .activatewindow id => id ≠ t.rootid
  | _ => True

variable {t t' : Tree} {i j id : Int64} {op : Op}

theorem show_flags : Flags Node.show_ := ⟨fun _ => rfl, fun _ => rfl, fun _ => rfl, fun _ => rfl, fun _ => rfl⟩

theorem hide_flags : Flags Node.hide := ⟨fun _ => rfl, fun _ => rfl, fun _ => rfl, fun _ => rfl, fun _ => rfl⟩

theorem enable_flags : Flags Node.enable := ⟨fun _ => rfl, fun _ => rfl, fun _ => rfl, fun _ => rfl, fun _ => rfl⟩

theorem disable_flags : Flags Node.disable := ⟨fun _ => rfl, fun _ => rfl, fun _ => rfl, fun _ => rfl, fun _ => rfl⟩

/-- What stays set, or is not over the focused node. -/
theorem Spares.clear {change : Node → Node} (ok : t.Ok) (spares : Spares t id) (j : Int64) (m : Node)
    (below : Above t.par j id) (above : Above t.par t.focusid j) (here : t.find j = some m) :
    (m.visible ≠ 0 → (change m).visible ≠ 0) ∧ (m.enabled ≠ 0 → (change m).enabled ≠ 0) := by
  obtain ⟨p, there⟩ := ok.inv.above_find below here
  have clear := spares (Option.isSome_iff_exists.mpr ⟨p, there⟩)
  have held := (holds_spec ok.inv.toLinked (find_some there).2.2).mpr (above.trans below)
  rw [clear] at held
  nomatch held

/-- `show`, `hide`, `enable` and `disable` of one node. -/
theorem upd_kept {change : Node → Node} {shown : Prop} (ok : t.Ok) (flags : Flags change)
    (clear : shown → (∀ m : Node, (m.visible ≠ 0 → (change m).visible ≠ 0) ∧ (m.enabled ≠ 0 → (change m).enabled ≠ 0)) ∨
      Spares t id) : Kept t (t.upd id change) True shown := by
  refine changed_kept ok flags (changed_upd flags) fun shown j m same above here => ?_
  rcases clear shown with all | spares
  · exact all m
  · exact spares.clear ok j m (same ▸ .refl j) above here

/-- And of the nodes of a subtree. -/
theorem eachkid_kept {change : Node → Node} {shown : Prop} (ok : t.Ok) (flags : Flags change)
    (clear : shown → (∀ m : Node, (m.visible ≠ 0 → (change m).visible ≠ 0) ∧ (m.enabled ≠ 0 → (change m).enabled ≠ 0)) ∨
      Spares t id) : ∃ t', eachkid change (t.nodes.length + 1) t id = some t' ∧ Kept t t' True shown := by
  cases found : t.find id with
  | none =>
    unfold eachkid
    rw [found]
    exact ⟨t, rfl, .refl ok⟩
  | some n =>
    obtain ⟨k, depth⟩ := ok.inv.depth id n found
    obtain ⟨t', ran, changed⟩ := eachkid_spec flags (t.nodes.length + 1) ok.inv found depth (by omega)
    refine ⟨t', ran, changed_kept ok flags changed fun shown j m below above here => ?_⟩
    rcases clear shown with all | spares
    · exact all m
    · exact spares.clear ok j m below above here

/-- What a call does beside what it keeps. -/
structure Outcome (t : Tree) (op : Op) (t' : Tree) (r : Int64) : Prop where
  refused : Refusable op t → r = -1 → t' = t
  removed : ∀ id, op = .removetree id → r ≠ -1 → ∃ n, t.find id = some n ∧
    ∀ i, t'.find i = if t.holds id i then none else (t.upd n.parentid (·.removechild id)).find i
  focused : ∀ id, op = .setfocus id → r ≠ -1 → t'.Focused ∧ t'.focusid = id
  chosen : op = .nextfocus ∨ op = .prevfocus → t'.Focused

/-- The calls that neither remove nor focus. -/
theorem Outcome.plain {r : Int64} (refused : Refusable op t → r = -1 → t' = t) (removes : ∀ id, op ≠ .removetree id)
    (focuses : ∀ id, op ≠ .setfocus id) (chooses : op ≠ .nextfocus ∧ op ≠ .prevfocus) : Outcome t op t' r :=
  ⟨refused, fun id same => absurd same (removes id), fun id same => absurd same (focuses id),
    fun same => absurd same (not_or.mpr chooses)⟩

/-- A call returns, and keeps the tree well formed. -/
theorem exec_kept (ok : t.Ok) (op : Op) : ∃ t' r, exec t op = some (t', r) ∧ Kept t t' (Fits op t) (Shown op t) ∧
    Outcome t op t' r := by
  cases op with
  | allocid =>
    exact ⟨_, _, rfl, allocid_kept ok, .plain False.elim (by simp) (by simp) (by simp)⟩
  | addchildnode parentid n fresh =>
    obtain ⟨kept, refused⟩ := @addchildnode_kept _ _ parentid _ _ ok fresh rfl
    exact ⟨_, _, rfl, kept, .plain (fun _ => refused) (by simp) (by simp) (by simp)⟩
  | reparent id parentid =>
    obtain ⟨kept, refused⟩ := @reparent_kept _ _ id parentid _ ok rfl
    exact ⟨_, _, rfl, kept, .plain (fun _ => refused) (by simp) (by simp) (by simp)⟩
  | removetree id =>
    obtain ⟨t', r, value, kept, refused, granted⟩ := @removetree_kept _ id ok
    refine ⟨t', r, value, kept.weaken, ⟨fun _ => refused, fun id' same done => ?_, by simp, by simp⟩⟩
    cases same
    obtain ⟨n, found, -, removed⟩ := granted done
    refine ⟨n, found, fun i => ?_⟩
    have low := (find_some found).2.2
    split
    · rename_i held
      rw [holds_spec ok.inv.toLinked low] at held
      cases there : t'.find i with
      | none => rfl
      | some m => exact absurd held ((removed.find i m).mp there).2
    · rename_i held
      rw [holds_spec ok.inv.toLinked low] at held
      refine Option.ext fun m => ?_
      rw [removed.find, and_iff_left held]
  | bringtofront id =>
    obtain ⟨kept, refused, -⟩ := @bringtofront_kept _ _ id _ ok rfl
    exact ⟨_, _, rfl, kept.weaken, .plain (fun _ => refused) (by simp) (by simp) (by simp)⟩
  | sendtoback id =>
    obtain ⟨kept, refused⟩ := @sendtoback_kept _ _ id _ ok rfl
    exact ⟨_, _, rfl, kept.weaken, .plain (fun _ => refused) (by simp) (by simp) (by simp)⟩
  | activatewindow id =>
    obtain ⟨kept, refused, -⟩ := @activatewindow_kept _ _ id _ ok rfl
    exact ⟨_, _, rfl, kept.weaken, .plain refused (by simp) (by simp) (by simp)⟩
  | setfocus id =>
    obtain ⟨t', r, value, kept, refused, granted, -⟩ := @setfocus_kept _ id ok
    refine ⟨t', r, value, kept.weaken, ⟨fun _ => refused, by simp, fun id' same done => ?_, by simp⟩⟩
    cases same
    exact granted done
  | nextfocus =>
    obtain ⟨t', r, value, kept, focused⟩ := nextfocus_kept ok
    exact ⟨t', r, value, kept.weaken, ⟨False.elim, by simp, by simp, fun _ => focused⟩⟩
  | prevfocus =>
    obtain ⟨t', r, value, kept, focused⟩ := prevfocus_kept ok
    exact ⟨t', r, value, kept.weaken, ⟨False.elim, by simp, by simp, fun _ => focused⟩⟩
  | show_ id =>
    refine ⟨_, _, rfl, upd_kept ok show_flags fun _ => Or.inl fun m => ?_, .plain (fun _ no => ?_) (by simp) (by simp) (by simp)⟩
    · exact ⟨fun _ => (by decide : (1 : Int64) ≠ 0), fun some_ => some_⟩
    · exact absurd no (by decide)
  | hide id =>
    exact ⟨_, _, rfl, upd_kept ok hide_flags Or.inr, .plain (fun _ no => absurd no (by decide)) (by simp) (by simp) (by simp)⟩
  | enable id =>
    refine ⟨_, _, rfl, upd_kept ok enable_flags fun _ => Or.inl fun m => ?_, .plain (fun _ no => ?_) (by simp) (by simp) (by simp)⟩
    · exact ⟨fun some_ => some_, fun _ => (by decide : (1 : Int64) ≠ 0)⟩
    · exact absurd no (by decide)
  | disable id =>
    exact ⟨_, _, rfl, upd_kept ok disable_flags Or.inr, .plain (fun _ no => absurd no (by decide)) (by simp) (by simp) (by simp)⟩
  | showtree id =>
    obtain ⟨t', ran, kept⟩ := @eachkid_kept _ id _ True ok show_flags fun _ => Or.inl fun m =>
      ⟨fun _ => (by decide : (1 : Int64) ≠ 0), fun some_ => some_⟩
    exact ⟨t', 0, congrArg (Option.map (·, 0)) ran, kept, .plain (fun _ no => absurd no (by decide)) (by simp) (by simp) (by simp)⟩
  | hidetree id =>
    obtain ⟨t', ran, kept⟩ := @eachkid_kept _ id _ _ ok hide_flags Or.inr
    exact ⟨t', 0, congrArg (Option.map (·, 0)) ran, kept, .plain (fun _ no => absurd no (by decide)) (by simp) (by simp) (by simp)⟩
  | enabletree id =>
    obtain ⟨t', ran, kept⟩ := @eachkid_kept _ id _ True ok enable_flags fun _ => Or.inl fun m =>
      ⟨fun some_ => some_, fun _ => (by decide : (1 : Int64) ≠ 0)⟩
    exact ⟨t', 0, congrArg (Option.map (·, 0)) ran, kept, .plain (fun _ no => absurd no (by decide)) (by simp) (by simp) (by simp)⟩
  | disabletree id =>
    obtain ⟨t', ran, kept⟩ := @eachkid_kept _ id _ _ ok disable_flags Or.inr
    exact ⟨t', 0, congrArg (Option.map (·, 0)) ran, kept, .plain (fun _ no => absurd no (by decide)) (by simp) (by simp) (by simp)⟩

theorem newtree_ok : newtree.Ok := by
  have find : ∀ i, newtree.find i = if i = 0 then some newroot else none := fun i => by
    by_cases same : i = 0
    · rw [same]
      rfl
    · rw [if_neg same]
      unfold Tree.find
      split
      · rfl
      · exact List.find?_eq_none.mpr fun n member => by
          rw [List.mem_singleton.mp member, decide_eq_true_eq]
          exact Ne.symm same
  refine ⟨⟨⟨List.nodup_singleton _, fun n member => ?_, ⟨newroot, rfl, rfl⟩, fun i n there other => ?_,
    fun i n there => ⟨0, .top ?_⟩⟩, fun i n there => ?_⟩, Or.inl rfl, Or.inl rfl, Or.inl rfl⟩
  · rw [List.mem_singleton.mp member]
    decide
  · rw [find, if_neg (c := i = 0) other] at there
    nomatch there
  · rw [find] at there
    split at there
    · cases there
      rename_i same
      rw [same]
      rfl
    · nomatch there
  · have top : i = 0 ∧ n = newroot := by
      rw [find] at there
      split at there
      · cases there
        exact ⟨‹_›, rfl⟩
      · nomatch there
    rw [top.1, top.2]
    refine ⟨List.nodup_nil, fun c => iff_of_false List.not_mem_nil ?_⟩
    rintro ⟨x, child, parent⟩
    rw [find] at child
    split at child
    · cases child
      nomatch parent
    · nomatch child

theorem newtree_below : newtree.Below := fun n member => by
  rw [List.mem_singleton.mp member]
  decide

theorem step_some (ran : step op t = some t') : ∃ r, exec t op = some (t', r) := by
  obtain ⟨⟨t'', r⟩, value, rfl⟩ := Option.map_eq_some_iff.mp ran
  exact ⟨r, value⟩

theorem step_kept (ok : t.Ok) (ran : step op t = some t') : Kept t t' (Fits op t) (Shown op t) := by
  obtain ⟨r, value⟩ := step_some ran
  obtain ⟨t'', r', value', kept, -⟩ := exec_kept ok op
  cases value.symm.trans value'
  exact kept

theorem Run.ok {allowed : Op → Tree → Prop} (start : t.Ok) (run : Run step allowed t t') : t'.Ok :=
  run.invariant Tree.Ok start fun ok _ ran => (step_kept ok ran).ok

theorem Run.below (run : Run step Fits newtree t) : t.Below :=
  (run.invariant (fun t => t.Ok ∧ t.Below) ⟨newtree_ok, newtree_below⟩ fun ⟨ok, below⟩ fits ran =>
    ⟨(step_kept ok ran).ok, (step_kept ok ran).below fits below⟩).2

theorem Run.focused (start : t.Ok) (focused : t.Focused) (run : Run step Shown t t') : t'.Focused :=
  (run.invariant (fun t => t.Ok ∧ t.Focused) ⟨start, focused⟩ fun ⟨ok, focused⟩ shown ran =>
    ⟨(step_kept ok ran).ok, (step_kept ok ran).focused shown focused⟩).2

end Inferno.Icurses
