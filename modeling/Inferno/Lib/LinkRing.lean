import Mathlib

namespace Inferno.Lib

/-- The link fields of all nodes, one function a field. -/
structure Links (α : Type) where
  left : α → Option α
  right : α → Option α
  parent : α → Option α
  prev : α → α
  fwd : α → α

namespace Links

variable {α : Type} {σ τ : Links α} {a b x y : α} {ring before after : List α}

def Linked (σ : Links α) (x y : α) : Prop := σ.fwd x = y ∧ σ.prev y = x

/-- The circular list of `a` and then `ring`. -/
def Ring (σ : Links α) (a : α) (ring : List α) : Prop := (a :: ring ++ [a]).IsChain σ.Linked

theorem Linked.chain_congr {l : List α} (chain : l.IsChain σ.Linked) (fwd : ∀ x ∈ l.dropLast, τ.fwd x = σ.fwd x)
    (prev : ∀ y ∈ l.tail, τ.prev y = σ.prev y) : l.IsChain τ.Linked := by
  induction l with
  | nil => exact .nil
  | cons x l ih =>
    cases l with
    | nil => exact .singleton x
    | cons y l =>
      rw [List.isChain_cons_cons] at chain ⊢
      refine ⟨⟨(fwd x List.mem_cons_self).trans chain.1.1, (prev y List.mem_cons_self).trans chain.1.2⟩, ?_⟩
      exact ih chain.2 (fun z member => fwd z (List.mem_cons_of_mem x member))
        fun z member => prev z (List.mem_cons_of_mem y member)

theorem Ring.congr (links : σ.Ring a ring) (fwd : ∀ x ∈ a :: ring, τ.fwd x = σ.fwd x)
    (prev : ∀ y ∈ a :: ring, τ.prev y = σ.prev y) : τ.Ring a ring := by
  refine Linked.chain_congr links (fun x member => fwd x ?_) (fun y member => prev y ?_)
  · rwa [List.dropLast_concat] at member
  · rcases List.mem_append.mp member with inside | last
    · exact List.mem_cons_of_mem a inside
    · rw [List.mem_singleton.mp last]
      exact List.mem_cons_self

theorem Ring.single (fwd : σ.fwd a = a) (prev : σ.prev a = a) : σ.Ring a [] :=
  List.isChain_cons_cons.mpr ⟨⟨fwd, prev⟩, .singleton a⟩

/-- A node's neighbours are in the ring. -/
theorem Ring.fwd_mem (links : σ.Ring a ring) (member : x ∈ a :: ring) : σ.fwd x ∈ a :: ring := by
  obtain ⟨u, v, split⟩ := List.append_of_mem member
  rw [Ring, split, List.append_assoc] at links
  cases v with
  | nil =>
    rw [List.isChain_append_cons_cons.mp links |>.2.1.1]
    exact List.mem_cons_self
  | cons y v =>
    rw [List.isChain_append_cons_cons.mp links |>.2.1.1, split]
    simp

/-- The ring may be entered at its second node. -/
theorem Ring.rotate (links : σ.Ring a (b :: ring)) : σ.Ring b (ring ++ [a]) := by
  obtain ⟨first, rest⟩ := List.isChain_cons_cons.mp links
  have closed : (b :: ring ++ a :: b :: []).IsChain σ.Linked :=
    List.isChain_append_cons_cons.mpr ⟨rest, first, .singleton b⟩
  simpa [Ring] using closed

theorem Ring.fwd_of_cons (links : σ.Ring a (b :: ring)) : σ.fwd a = b := (List.isChain_cons_cons.mp links).1.1

theorem Ring.fwd_of_nil (links : σ.Ring a []) : σ.fwd a = a := (List.isChain_cons_cons.mp links).1.1

/-- The neighbours of a node inside the ring, and the two parts around it. -/
theorem Ring.around (links : σ.Ring a (before ++ b :: after)) :
    ∃ u v, a :: before = u ++ [σ.prev b] ∧ after ++ [a] = σ.fwd b :: v := by
  obtain ⟨u, x, front⟩ : ∃ u x, a :: before = u ++ [x] :=
    ⟨_, _, (List.dropLast_concat_getLast (List.cons_ne_nil a _)).symm⟩
  obtain ⟨y, v, back⟩ : ∃ y v, after ++ [a] = y :: v := by
    cases after with
    | nil => exact ⟨a, [], rfl⟩
    | cons z rest => exact ⟨z, rest ++ [a], rfl⟩
  have whole : a :: (before ++ b :: after) ++ [a] = u ++ x :: b :: y :: v := by
    rw [← List.cons_append, front, ← back]
    simp
  rw [Ring, whole] at links
  obtain ⟨_, ⟨_, prev⟩, rest⟩ := List.isChain_append_cons_cons.mp links
  obtain ⟨⟨fwd, _⟩, _⟩ := List.isChain_cons_cons.mp rest
  exact ⟨u, v, by rw [prev, front], by rw [fwd, back]⟩

variable [DecidableEq α]

theorem update_of_mem {β : Type} {l : List α} {f : α → β} {v : β} (member : x ∈ l) (absent : a ∉ l) :
    Function.update f a v x = f x := by
  have other : x ≠ a := fun same => absent (same ▸ member)
  exact Function.update_of_ne other v f

/-- `t->prev->fwd = t->fwd; t->fwd->prev = t->prev`. -/
def unlink (σ : Links α) (t : α) : Links α :=
  let σ := { σ with fwd := Function.update σ.fwd (σ.prev t) (σ.fwd t) }
  { σ with prev := Function.update σ.prev (σ.fwd t) (σ.prev t) }

theorem unlink_eq (other : σ.prev b ≠ b) : σ.unlink b =
    { σ with
      fwd := Function.update σ.fwd (σ.prev b) (σ.fwd b), prev := Function.update σ.prev (σ.fwd b) (σ.prev b) } := by
  simp only [unlink, Function.update_of_ne other.symm]

/-- Unlinking a node that is not the entry. -/
theorem Ring.unlink (links : σ.Ring a (before ++ b :: after)) (nodup : (a :: (before ++ b :: after)).Nodup) :
    (σ.unlink b).Ring a (before ++ after) := by
  obtain ⟨u, v, front, back⟩ := links.around
  have whole : a :: (before ++ b :: after) ++ [a] = u ++ σ.prev b :: b :: σ.fwd b :: v := by
    rw [← List.cons_append, front, ← back]
    simp
  rw [Ring, whole] at links
  obtain ⟨first, _, rest⟩ := List.isChain_append_cons_cons.mp links
  obtain ⟨_, last⟩ := List.isChain_cons_cons.mp rest
  have parts : (u ++ [σ.prev b] ++ b :: after).Nodup := by
    rw [← front]
    simpa using nodup
  have notSelf : σ.prev b ≠ b := by
    intro same
    rw [same] at parts
    simp [List.nodup_append] at parts
  rw [unlink_eq notSelf]
  have shorter : a :: (before ++ after) ++ [a] = u ++ σ.prev b :: σ.fwd b :: v := by
    rw [← List.cons_append, front, List.append_assoc, back]
    simp
  rw [Ring, shorter]
  have apart : σ.prev b ∉ u ∧ σ.prev b ∉ after := by
    simp only [List.nodup_append, List.nodup_cons, List.mem_append, List.mem_singleton] at parts
    grind
  have targets : σ.fwd b ∉ before ∧ σ.fwd b ∉ v := by
    have cyclic : (before ++ b :: (after ++ [a])).Nodup := by
      have moved : (a :: (before ++ b :: after)).Perm (before ++ b :: (after ++ [a])) := by
        simpa using (List.perm_append_singleton a (before ++ b :: after)).symm
      exact moved.nodup_iff.mp nodup
    rw [back] at cyclic
    simp only [List.nodup_append, List.nodup_cons, List.mem_cons] at cyclic
    grind
  refine List.isChain_append_cons_cons.mpr ⟨?_, ⟨?_, ?_⟩, ?_⟩
  · refine Linked.chain_congr first (fun x member => ?_) (fun y member => ?_)
    · rw [List.dropLast_concat] at member
      exact update_of_mem member apart.1
    · rw [← front, List.tail_cons] at member
      exact update_of_mem member targets.1
  · exact Function.update_self _ _ _
  · exact Function.update_self _ _ _
  · refine Linked.chain_congr last (fun x member => ?_) (fun y member => ?_)
    · rw [← back, List.dropLast_concat] at member
      exact update_of_mem member apart.2
    · exact update_of_mem member targets.2

/-- `q->prev = t->prev; q->prev->fwd = q; q->fwd = t; t->prev = q`. -/
def linkBefore (σ : Links α) (q t : α) : Links α :=
  let σ := { σ with prev := Function.update σ.prev q (σ.prev t) }
  let σ := { σ with fwd := Function.update σ.fwd (σ.prev q) q }
  let σ := { σ with fwd := Function.update σ.fwd q t }
  { σ with prev := Function.update σ.prev t q }

/-- A new node goes to the end of the ring. -/
theorem Ring.linkBefore (links : σ.Ring a ring) (nodup : (a :: ring).Nodup) (fresh : b ∉ a :: ring) :
    (σ.linkBefore b a).Ring a (ring ++ [b]) := by
  obtain ⟨u, x, front⟩ : ∃ u x, a :: ring = u ++ [x] :=
    ⟨_, _, (List.dropLast_concat_getLast (List.cons_ne_nil a _)).symm⟩
  have whole : a :: ring ++ [a] = u ++ x :: a :: [] := by
    rw [front]
    simp
  rw [Ring, whole] at links
  obtain ⟨first, ⟨_, prev⟩, _⟩ := List.isChain_append_cons_cons.mp links
  have longer : a :: (ring ++ [b]) ++ [a] = u ++ x :: b :: a :: [] := by
    rw [← List.cons_append, front]
    simp
  have inside : x ∈ a :: ring := front ▸ List.mem_append_right u (List.mem_singleton_self x)
  have other : x ≠ b := fun same => fresh (same ▸ inside)
  have notEntry : a ≠ b := fun same => fresh (same ▸ List.mem_cons_self)
  have parts := nodup
  rw [front] at parts
  have last : x ∉ u := by
    intro early
    simp [List.nodup_append] at parts
    exact parts.2 x early rfl
  have fwd : (σ.linkBefore b a).fwd = Function.update (Function.update σ.fwd x b) b a := by
    simp [Links.linkBefore, prev]
  have back : (σ.linkBefore b a).prev = Function.update (Function.update σ.prev b x) a b := by
    simp [Links.linkBefore, prev]
  rw [Ring, longer]
  refine List.isChain_append_cons_cons.mpr ⟨?_, ⟨?_, ?_⟩, List.isChain_cons_cons.mpr ⟨⟨?_, ?_⟩, .singleton a⟩⟩
  · refine Linked.chain_congr first (fun z member => ?_) (fun z member => ?_)
    · rw [List.dropLast_concat] at member
      have old : z ∈ a :: ring := front ▸ List.mem_append_left _ member
      rw [fwd, update_of_mem old fresh, update_of_mem member last]
    · rw [← front, List.tail_cons] at member
      rw [back, update_of_mem member (List.nodup_cons.mp nodup).1,
        update_of_mem (List.mem_cons_of_mem a member) fresh]
  · rw [fwd, Function.update_of_ne other, Function.update_self]
  · rw [back, Function.update_of_ne notEntry.symm, Function.update_self]
  · rw [fwd, Function.update_self]
  · rw [back, Function.update_self]

end Links

end Inferno.Lib
