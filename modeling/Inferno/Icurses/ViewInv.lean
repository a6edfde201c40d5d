import Inferno.Icurses.View

namespace Inferno.Icurses

open Lib

namespace Tree

/-- The parent that a node names. -/
def par (t : Tree) (i : Int64) : Option Int64 :=
  match t.find i with
  | none => none
  | some n => if n.parentid = NoId then none else some n.parentid

/-- The parents lead up to the root. -/
structure Linked (t : Tree) : Prop where
  ids : (t.nodes.map Node.id).Nodup
  low : ∀ n ∈ t.nodes, 0 ≤ n.id
  root : ∃ r, t.find t.rootid = some r ∧ r.parentid = NoId
  up : ∀ i n, t.find i = some n → i ≠ t.rootid → ∃ p, t.find n.parentid = some p
  depth : ∀ i n, t.find i = some n → ∃ k, Depth t.par i k

/-- And each node is listed once, by the parent that it names. -/
structure Inv (t : Tree) : Prop extends t.Linked where
  kids : ∀ i p, t.find i = some p → p.children.Nodup ∧ ∀ c, c ∈ p.children ↔ ∃ n, t.find c = some n ∧ n.parentid = i

variable {t t' t'' : Tree} {i j id : Int64} {n p m : Node} {f : Node → Node} {k : Nat}

theorem find_some (found : t.find i = some n) : n ∈ t.nodes ∧ n.id = i ∧ 0 ≤ i := by
  unfold find at found
  split at found
  · nomatch found
  · rename_i low
    exact ⟨List.mem_of_find?_eq_some found, by simpa using List.find?_some found, Int64.not_lt.mp low⟩

theorem find_neg (low : i < 0) : t.find i = none := if_pos low

theorem find_NoId : t.find NoId = none := find_neg (by decide)

theorem ne_NoId (found : t.find i = some n) : i ≠ NoId := by
  rintro rfl
  nomatch find_NoId.symm.trans found

theorem find_nodes (same : t'.nodes = t.nodes) : t'.find i = t.find i := by
  unfold find
  rw [same]

theorem par_nodes (same : t'.nodes = t.nodes) : t'.par = t.par := funext fun i => by
  unfold par
  rw [find_nodes same]

theorem find_isSome (low : 0 ≤ i) : (t.find i).isSome ↔ i ∈ t.nodes.map Node.id := by
  unfold find
  rw [if_neg (Int64.not_lt.mpr low), List.find?_isSome, List.mem_map]
  constructor
  · rintro ⟨n, member, same⟩
    exact ⟨n, member, of_decide_eq_true same⟩
  · rintro ⟨n, member, same⟩
    exact ⟨n, member, decide_eq_true same⟩

theorem par_of_find (found : t.find i = some n) : t.par i = if n.parentid = NoId then none else some n.parentid := by
  unfold par
  rw [found]

theorem par_some : t.par i = some j ↔ ∃ n, t.find i = some n ∧ n.parentid = j ∧ j ≠ NoId := by
  unfold par
  cases found : t.find i with
  | none => simp
  | some n =>
    by_cases none_ : n.parentid = NoId
    · simp only [none_, if_true, Option.some.injEq, exists_eq_left', reduceCtorEq, false_iff, not_and, not_not]
      exact fun same => same.symm
    · simp only [none_, if_false, Option.some.injEq, exists_eq_left']
      exact ⟨fun same => ⟨same, same ▸ none_⟩, fun same => same.1⟩

theorem find_upd (keeps : ∀ n, (f n).id = n.id) : (t.upd id f).find i = if i = id then (t.find i).map f else t.find i := by
  unfold find upd
  by_cases low : i < 0
  · simp [low]
  · simp only [low, if_false]
    rw [List.find?_map]
    have same : (fun n : Node => decide (n.id = i)) ∘ (fun n => if n.id = id then f n else n) = fun n => decide (n.id = i) := by
      funext n
      simp only [Function.comp_apply]
      split
      · rw [keeps]
      · rfl
    rw [same]
    cases found : t.nodes.find? (fun n => decide (n.id = i)) with
    | none => simp
    | some n =>
      have here : n.id = i := by simpa using List.find?_some found
      simp only [Option.map_some, here]
      split <;> rfl

theorem upd_ids (keeps : ∀ n, (f n).id = n.id) : (t.upd id f).nodes.map Node.id = t.nodes.map Node.id := by
  unfold upd
  rw [List.map_map]
  refine List.map_congr_left fun n _ => ?_
  simp only [Function.comp_apply]
  split
  · exact keeps n
  · rfl

/-- The nodes have the same ids, parents and children. -/
structure Like (t t' : Tree) : Prop where
  rootid : t'.rootid = t.rootid
  nextid : t'.nextid = t.nextid
  ids : t'.nodes.map Node.id = t.nodes.map Node.id
  find : ∀ i n, t.find i = some n → ∃ n', t'.find i = some n' ∧ n'.parentid = n.parentid ∧ n'.children.Perm n.children

theorem Like.trans (first : t.Like t') (second : t'.Like t'') : t.Like t'' where
  rootid := second.rootid.trans first.rootid
  nextid := second.nextid.trans first.nextid
  ids := second.ids.trans first.ids
  find i n found := by
    obtain ⟨n', found', parent, children⟩ := first.find i n found
    obtain ⟨n'', found'', parent', children'⟩ := second.find i n' found'
    exact ⟨n'', found'', parent'.trans parent, children'.trans children⟩

theorem like_upd (keeps : ∀ n, (f n).id = n.id) (parent : ∀ n, (f n).parentid = n.parentid)
    (children : ∀ n, t.find id = some n → (f n).children.Perm n.children) : t.Like (t.upd id f) where
  rootid := rfl
  nextid := rfl
  ids := upd_ids keeps
  find i n found := by
    rw [find_upd keeps, found]
    split
    · rename_i here
      exact ⟨f n, rfl, parent n, children n (here ▸ found)⟩
    · exact ⟨n, rfl, rfl, .refl _⟩

theorem Like.back (like : t.Like t') {n' : Node} (found : t'.find i = some n') :
    ∃ n, t.find i = some n ∧ n'.parentid = n.parentid ∧ n'.children.Perm n.children := by
  have low := (find_some found).2.2
  have there := (find_isSome low).mp (Option.isSome_iff_exists.mpr ⟨n', found⟩)
  rw [like.ids] at there
  obtain ⟨n, old⟩ := Option.isSome_iff_exists.mp ((find_isSome low).mpr there)
  obtain ⟨m, same, rest⟩ := like.find i n old
  cases Option.some.inj (found.symm.trans same)
  exact ⟨n, old, rest⟩

theorem Like.par (like : t.Like t') : t'.par = t.par := by
  funext i
  unfold Tree.par
  cases found : t.find i with
  | none =>
    cases found' : t'.find i with
    | none => rfl
    | some n' =>
      obtain ⟨n, old, -⟩ := like.back found'
      nomatch found.symm.trans old
  | some n =>
    obtain ⟨n', found', parent, -⟩ := like.find i n found
    simp only [found', parent]

theorem Inv.like (inv : t.Inv) (like : t.Like t') : t'.Inv where
  ids := like.ids ▸ inv.ids
  low n member := by
    have there : n.id ∈ t.nodes.map Node.id := like.ids ▸ List.mem_map.mpr ⟨n, member, rfl⟩
    obtain ⟨m, member', same⟩ := List.mem_map.mp there
    exact same ▸ inv.low m member'
  root := by
    obtain ⟨r, found, none_⟩ := inv.root
    obtain ⟨r', found', parent, -⟩ := like.find _ r found
    exact ⟨r', like.rootid ▸ found', parent.trans none_⟩
  up i n found other := by
    obtain ⟨m, old, parent, -⟩ := like.back found
    obtain ⟨p, above⟩ := inv.up i m old (like.rootid ▸ other)
    obtain ⟨p', above', -⟩ := like.find _ p above
    exact ⟨p', parent ▸ above'⟩
  kids i p found := by
    obtain ⟨q, old, -, children⟩ := like.back found
    obtain ⟨nodup, members⟩ := inv.kids i q old
    refine ⟨children.nodup_iff.mpr nodup, fun c => ?_⟩
    rw [children.mem_iff, members]
    constructor
    · rintro ⟨n, child, parent⟩
      obtain ⟨n', child', parent', -⟩ := like.find c n child
      exact ⟨n', child', parent'.trans parent⟩
    · rintro ⟨n, child, parent⟩
      obtain ⟨n', child', parent', -⟩ := like.back child
      exact ⟨n', child', parent'.symm.trans parent⟩
  depth i n found := by
    obtain ⟨m, old, -⟩ := like.back found
    rw [like.par]
    exact inv.depth i m old

end Tree

end Inferno.Icurses
