import Inferno.Lib.LinkRing

namespace Inferno.Lib

/-- A search tree by key, in which the nodes of one key form a ring entered at
the one that is in the tree. -/
inductive RingTree (α : Type)
  | nil
  | node (l : RingTree α) (key : Nat) (a : α) (ring : List α) (r : RingTree α)

/-- A tree with a hole, the innermost frame first. -/
inductive RingTree.Ctx (α : Type)
  | top
  | left (c : Ctx α) (key : Nat) (a : α) (ring : List α) (r : RingTree α)
  | right (c : Ctx α) (l : RingTree α) (key : Nat) (a : α) (ring : List α)

variable {α : Type} {σ τ : Links α} {a b : α} {ring : List α} {key : Nat} {par : Option α}

/-- The fields of the nodes in `xs` are the same. -/
structure Links.Agree (σ τ : Links α) (xs : List α) : Prop where
  left : ∀ x ∈ xs, τ.left x = σ.left x
  right : ∀ x ∈ xs, τ.right x = σ.right x
  parent : ∀ x ∈ xs, τ.parent x = σ.parent x
  prev : ∀ x ∈ xs, τ.prev x = σ.prev x
  fwd : ∀ x ∈ xs, τ.fwd x = σ.fwd x

theorem Links.Agree.mono {xs ys : List α} (agree : σ.Agree τ ys) (sub : ∀ x ∈ xs, x ∈ ys) : σ.Agree τ xs :=
  ⟨fun x m => agree.left x (sub x m), fun x m => agree.right x (sub x m), fun x m => agree.parent x (sub x m),
    fun x m => agree.prev x (sub x m), fun x m => agree.fwd x (sub x m)⟩

theorem Links.Agree.trans {υ : Links α} {xs : List α} (first : σ.Agree τ xs) (next : τ.Agree υ xs) : σ.Agree υ xs :=
  ⟨fun x m => (next.left x m).trans (first.left x m), fun x m => (next.right x m).trans (first.right x m),
    fun x m => (next.parent x m).trans (first.parent x m), fun x m => (next.prev x m).trans (first.prev x m),
    fun x m => (next.fwd x m).trans (first.fwd x m)⟩

section

variable [DecidableEq α] {xs : List α}

theorem Links.agree_left (absent : a ∉ xs) (v : Option α) :
    σ.Agree { σ with left := Function.update σ.left a v } xs :=
  ⟨fun _ m => update_of_mem m absent, fun _ _ => rfl, fun _ _ => rfl, fun _ _ => rfl, fun _ _ => rfl⟩

theorem Links.agree_right (absent : a ∉ xs) (v : Option α) :
    σ.Agree { σ with right := Function.update σ.right a v } xs :=
  ⟨fun _ _ => rfl, fun _ m => update_of_mem m absent, fun _ _ => rfl, fun _ _ => rfl, fun _ _ => rfl⟩

theorem Links.agree_parent (absent : a ∉ xs) (v : Option α) :
    σ.Agree { σ with parent := Function.update σ.parent a v } xs :=
  ⟨fun _ _ => rfl, fun _ _ => rfl, fun _ m => update_of_mem m absent, fun _ _ => rfl, fun _ _ => rfl⟩

theorem Links.agree_unlink (other : σ.prev a ≠ a) (prev : σ.prev a ∉ xs) (fwd : σ.fwd a ∉ xs) :
    σ.Agree (σ.unlink a) xs := by
  rw [unlink_eq other]
  exact ⟨fun _ _ => rfl, fun _ _ => rfl, fun _ _ => rfl, fun _ m => update_of_mem m fwd, fun _ m => update_of_mem m prev⟩

end

/-- A node with its ring, its children and its parent. Those behind it in the
ring have no parent. -/
structure Links.Node (σ : Links α) (a : α) (ring : List α) (l r par : Option α) : Prop where
  left : σ.left a = l
  right : σ.right a = r
  parent : σ.parent a = par
  cycle : σ.Ring a ring
  behind : ∀ x ∈ ring, σ.parent x = none

theorem Links.Node.congr {l r : Option α} (node : σ.Node a ring l r par) (agree : σ.Agree τ (a :: ring)) :
    τ.Node a ring l r par where
  left := (agree.left a List.mem_cons_self).trans node.left
  right := (agree.right a List.mem_cons_self).trans node.right
  parent := (agree.parent a List.mem_cons_self).trans node.parent
  cycle := node.cycle.congr agree.fwd agree.prev
  behind x member := (agree.parent x (List.mem_cons_of_mem a member)).trans (node.behind x member)

namespace RingTree

def root : RingTree α → Option α
  | nil => none
  | node _ _ a _ _ => some a

def addrs : RingTree α → List α
  | nil => []
  | node l _ a ring r => (a :: ring) ++ (l.addrs ++ r.addrs)

/-- The nodes with their keys. -/
def entries : RingTree α → List (α × Nat)
  | nil => []
  | node l key a ring r => (a :: ring).map (·, key) ++ (l.entries ++ r.entries)

theorem map_fst_entries (t : RingTree α) : t.entries.map Prod.fst = t.addrs := by
  induction t with
  | nil => rfl
  | node l key a ring r left right => simp [entries, addrs, left, right, Function.comp_def]

/-- The links are those of the tree, under the parent `par`. -/
def Rep (σ : Links α) : Option α → RingTree α → Prop
  | _, nil => True
  | par, node l _ a ring r => σ.Node a ring l.root r.root par ∧ l.Rep σ (some a) ∧ r.Rep σ (some a)

theorem Rep.congr {t : RingTree α} (rep : t.Rep σ par) (agree : σ.Agree τ t.addrs) : t.Rep τ par := by
  induction t generalizing par with
  | nil => trivial
  | node l key a ring r left right =>
    obtain ⟨node, repL, repR⟩ := rep
    refine ⟨node.congr (agree.mono fun x m => ?_), left repL (agree.mono fun x m => ?_),
      right repR (agree.mono fun x m => ?_)⟩ <;> simp only [addrs, List.mem_append]
    · exact Or.inl m
    · exact Or.inr (Or.inl m)
    · exact Or.inr (Or.inr m)

def Ordered : RingTree α → Prop
  | nil => True
  | node l key _ _ r =>
    (∀ e ∈ l.entries, e.2 < key) ∧ (∀ e ∈ r.entries, key < e.2) ∧ l.Ordered ∧ r.Ordered

theorem root_mem {t : RingTree α} (here : t.root = some a) : a ∈ t.addrs := by
  cases t with
  | nil => nomatch here
  | node l key b ring r =>
    cases here
    exact List.mem_cons_self

namespace Ctx

def plug : Ctx α → RingTree α → RingTree α
  | top, t => t
  | left c key a ring r, t => c.plug (.node t key a ring r)
  | right c l key a ring, t => c.plug (.node l key a ring t)

/-- The parent of what fills the hole. -/
def parent (par : Option α) : Ctx α → Option α
  | top => par
  | left _ _ a _ _ => some a
  | right _ _ _ a _ => some a

def addrs : Ctx α → List α
  | top => []
  | left c _ a ring r => (a :: ring) ++ (r.addrs ++ c.addrs)
  | right c l _ a ring => (a :: ring) ++ (l.addrs ++ c.addrs)

def entries : Ctx α → List (α × Nat)
  | top => []
  | left c key a ring r => (a :: ring).map (·, key) ++ (r.entries ++ c.entries)
  | right c l key a ring => (a :: ring).map (·, key) ++ (l.entries ++ c.entries)

/-- The links are those of the tree around the hole, in which `hole` stands. -/
def Rep (σ : Links α) (par root : Option α) : Ctx α → Option α → Prop
  | top, hole => root = hole
  | left c _ a ring r, hole =>
    σ.Node a ring hole r.root (c.parent par) ∧ r.Rep σ (some a) ∧ c.Rep σ par root (some a)
  | right c l _ a ring, hole =>
    σ.Node a ring l.root hole (c.parent par) ∧ l.Rep σ (some a) ∧ c.Rep σ par root (some a)

theorem Rep.congr {c : Ctx α} {root hole : Option α} (rep : c.Rep σ par root hole) (agree : σ.Agree τ c.addrs) :
    c.Rep τ par root hole := by
  induction c generalizing hole with
  | top => exact rep
  | left c key a ring r ih =>
    obtain ⟨node, side, up⟩ := rep
    refine ⟨node.congr (agree.mono fun x m => ?_), side.congr (agree.mono fun x m => ?_),
      ih up (agree.mono fun x m => ?_)⟩ <;> simp only [addrs, List.mem_append]
    · exact Or.inl m
    · exact Or.inr (Or.inl m)
    · exact Or.inr (Or.inr m)
  | right c l key a ring ih =>
    obtain ⟨node, side, up⟩ := rep
    refine ⟨node.congr (agree.mono fun x m => ?_), side.congr (agree.mono fun x m => ?_),
      ih up (agree.mono fun x m => ?_)⟩ <;> simp only [addrs, List.mem_append]
    · exact Or.inl m
    · exact Or.inr (Or.inl m)
    · exact Or.inr (Or.inr m)

theorem Rep.setLeft [DecidableEq α] {c : Ctx α} {r : RingTree α} {root hole : Option α}
    (rep : (left c key a ring r).Rep σ par root hole) (nodup : (left c key a ring r).addrs.Nodup) (v : Option α) :
    (left c key a ring r).Rep { σ with left := Function.update σ.left a v } par root v := by
  obtain ⟨node, side, up⟩ := rep
  simp only [addrs, List.cons_append, List.nodup_cons, List.mem_append, not_or] at nodup
  refine ⟨⟨Function.update_self _ _ _, node.right, node.parent, node.cycle, node.behind⟩,
    side.congr (Links.agree_left nodup.1.2.1 v), up.congr (Links.agree_left nodup.1.2.2 v)⟩

theorem Rep.setRight [DecidableEq α] {c : Ctx α} {l : RingTree α} {root hole : Option α}
    (rep : (right c l key a ring).Rep σ par root hole) (nodup : (right c l key a ring).addrs.Nodup) (v : Option α) :
    (right c l key a ring).Rep { σ with right := Function.update σ.right a v } par root v := by
  obtain ⟨node, side, up⟩ := rep
  simp only [addrs, List.cons_append, List.nodup_cons, List.mem_append, not_or] at nodup
  refine ⟨⟨node.left, Function.update_self _ _ _, node.parent, node.cycle, node.behind⟩,
    side.congr (Links.agree_right nodup.1.2.1 v), up.congr (Links.agree_right nodup.1.2.2 v)⟩

/-- A tree filled in is represented when the frame and the filling are. -/
theorem rep_plug {c : Ctx α} {t : RingTree α} {root : Option α} :
    (c.plug t).Rep σ par ∧ root = (c.plug t).root ↔ c.Rep σ par root t.root ∧ t.Rep σ (c.parent par) := by
  induction c generalizing t with
  | top => exact And.comm
  | left c key a ring r ih =>
    rw [plug, ih]
    simp only [Rep, RingTree.Rep, parent, RingTree.root]
    tauto
  | right c l key a ring ih =>
    rw [plug, ih]
    simp only [Rep, RingTree.Rep, parent, RingTree.root]
    tauto

theorem entries_plug (c : Ctx α) (t : RingTree α) : (c.plug t).entries.Perm (c.entries ++ t.entries) := by
  classical
  induction c generalizing t with
  | top => exact .refl _
  | left c key a ring r ih =>
    refine (ih _).trans ?_
    simp only [entries, RingTree.entries]
    rw [List.perm_iff_count]
    intro e
    simp only [List.count_append]
    omega
  | right c l key a ring ih =>
    refine (ih _).trans ?_
    simp only [entries, RingTree.entries]
    rw [List.perm_iff_count]
    intro e
    simp only [List.count_append]
    omega

theorem map_fst_entries (c : Ctx α) : c.entries.map Prod.fst = c.addrs := by
  induction c with
  | top => rfl
  | left c key a ring r ih => simp [entries, addrs, ih, RingTree.map_fst_entries, Function.comp_def]
  | right c l key a ring ih => simp [entries, addrs, ih, RingTree.map_fst_entries, Function.comp_def]

theorem addrs_plug (c : Ctx α) (t : RingTree α) : (c.plug t).addrs.Perm (c.addrs ++ t.addrs) := by
  rw [← RingTree.map_fst_entries, ← RingTree.map_fst_entries, ← map_fst_entries, ← List.map_append]
  exact (c.entries_plug t).map Prod.fst

/-- The keys that may stand in the hole. -/
def Admits : Ctx α → Nat → Prop
  | top, _ => True
  | left c key _ _ _, k => k < key ∧ c.Admits k
  | right c _ key _ _, k => key < k ∧ c.Admits k

def Ordered : Ctx α → Prop
  | top => True
  | left c key _ _ r => c.Admits key ∧ (∀ e ∈ r.entries, key < e.2 ∧ c.Admits e.2) ∧ r.Ordered ∧ c.Ordered
  | right c l key _ _ => c.Admits key ∧ (∀ e ∈ l.entries, e.2 < key ∧ c.Admits e.2) ∧ l.Ordered ∧ c.Ordered

theorem ordered_plug {c : Ctx α} {t : RingTree α} :
    (c.plug t).Ordered ↔ c.Ordered ∧ t.Ordered ∧ ∀ e ∈ t.entries, c.Admits e.2 := by
  induction c generalizing t with
  | top => simp [plug, Ordered, Admits]
  | left c key a ring r ih =>
    rw [plug, ih]
    simp only [Ordered, RingTree.Ordered, Admits, RingTree.entries, List.mem_append, List.mem_map, List.mem_cons]
    constructor
    · rintro ⟨up, ⟨small, large, own, side⟩, all⟩
      exact ⟨⟨all (a, key) (Or.inl ⟨a, Or.inl rfl, rfl⟩), fun e m => ⟨large e m, all e (Or.inr (Or.inr m))⟩, side, up⟩,
        own, fun e m => ⟨small e m, all e (Or.inr (Or.inl m))⟩⟩
    · rintro ⟨⟨here, beside, side, up⟩, own, all⟩
      refine ⟨up, ⟨fun e m => (all e m).1, fun e m => (beside e m).1, own, side⟩, ?_⟩
      rintro e (⟨x, _, rfl⟩ | inside | outside)
      · exact here
      · exact (all e inside).2
      · exact (beside e outside).2
  | right c l key a ring ih =>
    rw [plug, ih]
    simp only [Ordered, RingTree.Ordered, Admits, RingTree.entries, List.mem_append, List.mem_map, List.mem_cons]
    constructor
    · rintro ⟨up, ⟨small, large, side, own⟩, all⟩
      exact ⟨⟨all (a, key) (Or.inl ⟨a, Or.inl rfl, rfl⟩), fun e m => ⟨small e m, all e (Or.inr (Or.inl m))⟩, side, up⟩,
        own, fun e m => ⟨large e m, all e (Or.inr (Or.inr m))⟩⟩
    · rintro ⟨⟨here, beside, side, up⟩, own, all⟩
      refine ⟨up, ⟨fun e m => (beside e m).1, fun e m => (all e m).1, side, own⟩, ?_⟩
      rintro e (⟨x, _, rfl⟩ | inside | outside)
      · exact here
      · exact (beside e inside).2
      · exact (all e outside).2

/-- The root is what fills the hole, or a node around it. -/
theorem Rep.root_cases {c : Ctx α} {root hole : Option α} (rep : c.Rep σ par root hole) :
    c = top ∧ root = hole ∨ ∃ x ∈ c.addrs, root = some x := by
  induction c generalizing hole with
  | top => exact Or.inl ⟨rfl, rep⟩
  | left c key a ring r ih =>
    rcases ih rep.2.2 with ⟨_, here⟩ | ⟨x, inside, here⟩
    · exact Or.inr ⟨a, List.mem_cons_self, here⟩
    · exact Or.inr ⟨x, List.mem_append_right _ (List.mem_append_right _ inside), here⟩
  | right c l key a ring ih =>
    rcases ih rep.2.2 with ⟨_, here⟩ | ⟨x, inside, here⟩
    · exact Or.inr ⟨a, List.mem_cons_self, here⟩
    · exact Or.inr ⟨x, List.mem_append_right _ (List.mem_append_right _ inside), here⟩

/-- Only left children lead to the hole. -/
def Spine : Ctx α → Prop
  | top => True
  | left c _ _ _ _ => c.Spine
  | right .. => False

/-- What fills the hole of a spine is smaller than everything around it. -/
theorem Spine.lt {c : Ctx α} {k : Nat} (spine : c.Spine) (ordered : c.Ordered) (admits : c.Admits k) :
    ∀ e ∈ c.entries, k < e.2 := by
  induction c with
  | top => exact fun e member => (nomatch member)
  | left c key a ring r ih =>
    intro e member
    simp only [entries, List.mem_append, List.mem_map] at member
    rcases member with ⟨x, _, rfl⟩ | beside | above
    · exact admits.1
    · exact admits.1.trans (ordered.2.1 e beside).1
    · exact ih spine ordered.2.2.2 admits.2 e above
  | right c l key a ring ih => exact spine.elim

end Ctx

/-- Every entry stands in a node of the tree. -/
theorem exists_plug {t : RingTree α} {e : α × Nat} (member : e ∈ t.entries) :
    ∃ c l a ring r, t = Ctx.plug c (.node l e.2 a ring r) ∧ e.1 ∈ a :: ring := by
  have general : ∀ (c : Ctx α), ∃ c' l a ring r, c.plug t = Ctx.plug c' (.node l e.2 a ring r) ∧ e.1 ∈ a :: ring := by
    induction t with
    | nil => nomatch member
    | node l key a ring r left right =>
      intro c
      simp only [entries, List.mem_append] at member
      rcases member with here | inL | inR
      · obtain ⟨x, inside, rfl⟩ := List.mem_map.mp here
        exact ⟨c, l, a, ring, r, rfl, inside⟩
      · exact left inL (.left c key a ring r)
      · exact right inR (.right c l key a ring)
  exact general .top

end RingTree

end Inferno.Lib
