import Inferno.Pool.Pooldel

namespace Inferno.Pool

open Inferno.Lib RingTree

variable {σ : Links Addr} {c : Ctx Addr} {t l r : RingTree Addr} {a q : Addr} {key k : Nat} {ring : List Addr}
  {root : Option Addr} {sizes : Addr → Nat}

/-- The fields of a block before it is added. -/
structure Blank (σ : Links Addr) (q : Addr) : Prop where
  left : σ.left q = none
  right : σ.right q = none
  parent : σ.parent q = none
  fwd : σ.fwd q = q
  prev : σ.prev q = q

/-- What `pooladd` leaves: a search tree with one entry more. -/
structure Inserted (e : Addr × Nat) (t : RingTree Addr) (σ : Links Addr) (t' : RingTree Addr) : Prop where
  rep : t'.Rep σ none
  entries : t'.entries.Perm (e :: t.entries)
  ordered : t.Ordered → t'.Ordered

theorem agree_linkBefore {xs : List Addr} (notQ : q ∉ xs) (notA : a ∉ xs) (notPrev : σ.prev a ∉ xs) :
    σ.Agree (σ.linkBefore q a) xs := by
  refine ⟨fun _ _ => rfl, fun _ _ => rfl, fun _ _ => rfl, fun x m => ?_, fun x m => ?_⟩
  · simp only [Links.linkBefore]
    rw [Links.update_of_mem m notA, Links.update_of_mem m notQ]
  · simp only [Links.linkBefore, Function.update_self]
    rw [Links.update_of_mem m notQ, Links.update_of_mem m notPrev]

/-- A block of a size already there goes to the end of its ring. -/
theorem insert_ring (repC : c.Rep σ none root (some a)) (rep : (RingTree.node l key a ring r).Rep σ (c.parent none))
    (nodup : (c.addrs ++ (RingTree.node l key a ring r).addrs).Nodup) (blank : Blank σ q)
    (fresh : q ∉ c.addrs ++ (RingTree.node l key a ring r).addrs) :
    (c.plug (.node l key a (ring ++ [q]) r)).Rep (σ.linkBefore q a) none ∧
      root = (c.plug (.node l key a (ring ++ [q]) r)).root := by
  obtain ⟨node, repL, repR⟩ := rep
  obtain ⟨_, nodupN, apart⟩ := List.nodup_append.mp nodup
  simp only [List.mem_append, not_or] at fresh
  have own := nodupN
  rw [addrs, List.nodup_append] at own
  obtain ⟨nodupA, _, outside⟩ := own
  simp only [addrs, List.mem_append, not_or] at fresh
  obtain ⟨freshC, freshA, freshL, freshR⟩ := fresh
  have prevIn : σ.prev a ∈ a :: ring := by
    cases ring with
    | nil =>
      rw [(List.isChain_cons_cons.mp node.cycle).1.2]
      exact List.mem_cons_self
    | cons b rest =>
      have turned := node.cycle.rotate
      obtain ⟨u, v, front, _⟩ := turned.around
      exact List.mem_cons_of_mem a (front ▸ List.mem_append_right u (List.mem_singleton_self _))
  have agree : ∀ xs : List Addr, q ∉ xs → (∀ x ∈ a :: ring, x ∉ xs) → σ.Agree (σ.linkBefore q a) xs :=
    fun xs notQ away => agree_linkBefore notQ (away a List.mem_cons_self) (away _ prevIn)
  refine Ctx.rep_plug.mpr ⟨repC.congr (agree c.addrs freshC fun x m m' => ?_),
    ⟨⟨node.left, node.right, node.parent, node.cycle.linkBefore nodupA freshA, fun x member => ?_⟩,
      repL.congr (agree l.addrs freshL fun x m m' => ?_), repR.congr (agree r.addrs freshR fun x m m' => ?_)⟩⟩
  · exact apart x m' x (List.mem_append_left _ m) rfl
  · rcases List.mem_append.mp member with old | new
    · exact node.behind x old
    · rw [List.mem_singleton.mp new]
      exact blank.parent
  · exact outside x m x (List.mem_append_left _ m') rfl
  · exact outside x m x (List.mem_append_right _ m') rfl

theorem insert_left {c' : Ctx Addr} (repC : (Ctx.left c' key a ring r).Rep σ none root none)
    (nodup : (Ctx.left c' key a ring r).addrs.Nodup) (blank : Blank σ q)
    (fresh : q ∉ (Ctx.left c' key a ring r).addrs) (k : Nat) :
    ((Ctx.left c' key a ring r).plug (.node .nil k q [] .nil)).Rep
        { σ with parent := Function.update σ.parent q (some a), left := Function.update σ.left a (some q) } none ∧
      root = ((Ctx.left c' key a ring r).plug (.node .nil k q [] .nil)).root := by
  have other : q ≠ a := fun same => fresh (same ▸ List.mem_cons_self)
  have filled := (repC.congr (Links.agree_parent fresh (some a))).setLeft nodup (some q)
  refine Ctx.rep_plug.mpr ⟨filled, ⟨⟨?_, blank.right, Function.update_self _ _ _, ?_, fun x m => (nomatch m)⟩, trivial, trivial⟩⟩
  · exact (Function.update_of_ne other _ _).trans blank.left
  · exact Links.Ring.single blank.fwd blank.prev

theorem insert_right {c' : Ctx Addr} (repC : (Ctx.right c' l key a ring).Rep σ none root none)
    (nodup : (Ctx.right c' l key a ring).addrs.Nodup) (blank : Blank σ q)
    (fresh : q ∉ (Ctx.right c' l key a ring).addrs) (k : Nat) :
    ((Ctx.right c' l key a ring).plug (.node .nil k q [] .nil)).Rep
        { σ with parent := Function.update σ.parent q (some a), right := Function.update σ.right a (some q) } none ∧
      root = ((Ctx.right c' l key a ring).plug (.node .nil k q [] .nil)).root := by
  have other : q ≠ a := fun same => fresh (same ▸ List.mem_cons_self)
  have filled := (repC.congr (Links.agree_parent fresh (some a))).setRight nodup (some q)
  refine Ctx.rep_plug.mpr ⟨filled, ⟨⟨blank.left, ?_, Function.update_self _ _ _, ?_, fun x m => (nomatch m)⟩, trivial, trivial⟩⟩
  · exact (Function.update_of_ne other _ _).trans blank.right
  · exact Links.Ring.single blank.fwd blank.prev

/-- A tree with one entry more in the hole, of a key that may stand there. -/
theorem insert_plug {t' : RingTree Addr} (entries : t'.entries.Perm ((q, k) :: t.entries)) (admits : c.Admits k) 
    (ordered : t.Ordered → t'.Ordered) :
    (c.plug t').entries.Perm ((q, k) :: (c.plug t).entries) ∧ ((c.plug t).Ordered → (c.plug t').Ordered) := by
  refine ⟨?_, fun fine => ?_⟩
  · exact ((c.entries_plug t').trans (List.Perm.append_left _ entries)).trans
      (List.perm_middle.trans ((c.entries_plug t).symm.cons _))
  · obtain ⟨up, own, all⟩ := Ctx.ordered_plug.mp fine
    refine Ctx.ordered_plug.mpr ⟨up, ordered own, fun e m => ?_⟩
    rcases List.mem_cons.mp (entries.mem_iff.mp m) with rfl | old
    · exact admits
    · exact all e old

theorem pooladdLoop_inserted {fuel : Nat} (repC : c.Rep σ none root t.root) (rep : t.Rep σ (c.parent none))
    (nodup : (c.addrs ++ t.addrs).Nodup) (blank : Blank σ q) (fresh : q ∉ c.addrs ++ t.addrs)
    (match_ : ∀ e ∈ c.entries ++ t.entries, sizes e.1 = e.2) (admits : c.Admits k) (inner : c = .top → t.root ≠ none)
    (enough : t.addrs.length ≤ fuel) :
    ∃ σ' t', pooladdLoop sizes k q σ fuel t.root (c.parent none) = some σ' ∧ root = t'.root ∧
      Inserted (q, k) (c.plug t) σ' t' := by
  induction t generalizing c fuel with
  | nil =>
    have one : (RingTree.node .nil k q [] .nil).entries.Perm ((q, k) :: RingTree.nil.entries) := .refl _
    have single : (RingTree.node .nil k q [] (.nil : RingTree Addr)).Ordered := by simp [Ordered, entries]
    have freshC : q ∉ c.addrs := fun m => fresh (List.mem_append_left _ m)
    have nodupC := (List.nodup_append.mp nodup).1
    obtain ⟨perm, fine⟩ := insert_plug one admits fun _ => single
    cases c with
    | top => exact absurd rfl (inner rfl)
    | left c key a ring r =>
      obtain ⟨rep', root'⟩ := insert_left repC nodupC blank freshC k
      have size : sizes a = key := match_ (a, key) (List.mem_append_left _ List.mem_cons_self)
      refine ⟨_, _, ?_, root', ⟨rep', perm, fine⟩⟩
      rw [RingTree.root, Ctx.parent, pooladdLoop, if_pos (by rw [size]; exact admits.1)]
    | right c l key a ring =>
      obtain ⟨rep', root'⟩ := insert_right repC nodupC blank freshC k
      have size : sizes a = key := match_ (a, key) (List.mem_append_left _ List.mem_cons_self)
      refine ⟨_, _, ?_, root', ⟨rep', perm, fine⟩⟩
      rw [RingTree.root, Ctx.parent, pooladdLoop, if_neg (by rw [size]; exact admits.1.not_gt)]
  | node l key a ring r left right =>
    have size : sizes a = key := match_ (a, key) (List.mem_append_right _ List.mem_cons_self)
    cases fuel with
    | zero => simp [addrs] at enough
    | succ fuel =>
      rw [RingTree.root, pooladdLoop, size]
      by_cases same : k = key
      · subst same
        obtain ⟨rep', root'⟩ := insert_ring repC rep nodup blank fresh
        have longer : (RingTree.node l k a (ring ++ [q]) r).entries.Perm ((q, k) :: (RingTree.node l k a ring r).entries) := by
          simp only [entries, List.map_append, List.cons_append, List.map_cons, List.append_assoc, List.map_nil,
            List.nil_append]
          exact (List.Perm.cons _ List.perm_middle).trans (List.Perm.swap _ _ _)
        obtain ⟨perm, fine⟩ := insert_plug longer admits fun ordered => ordered
        exact ⟨_, _, by rw [if_pos rfl], root', ⟨rep', perm, fine⟩⟩
      · obtain ⟨node, repL, repR⟩ := rep
        have shorter : l.addrs.length ≤ fuel ∧ r.addrs.length ≤ fuel := by
          simp only [addrs, List.length_append, List.length_cons] at enough
          omega
        rw [if_neg same]
        by_cases less : k < key
        · have around : (c.addrs ++ (RingTree.node l key a ring r).addrs).Perm
              ((Ctx.left c key a ring r).addrs ++ l.addrs) := by
            rw [List.perm_iff_count]
            intro x
            simp only [addrs, Ctx.addrs, List.count_append]
            omega
          have aroundE : ∀ e, e ∈ (Ctx.left c key a ring r).entries ++ l.entries →
              e ∈ c.entries ++ (RingTree.node l key a ring r).entries := by
            intro e m
            simp only [entries, Ctx.entries, List.mem_append] at m ⊢
            tauto
          have step := left (c := .left c key a ring r) ⟨node, repR, repC⟩ repL (around.nodup_iff.mp nodup)
            (fun m => fresh (around.mem_iff.mpr m)) (fun e m => match_ e (aroundE e m)) ⟨less, admits⟩
            (fun m => by cases m) shorter.1
          rw [if_pos less, node.left]
          exact step
        · have around : (c.addrs ++ (RingTree.node l key a ring r).addrs).Perm
              ((Ctx.right c l key a ring).addrs ++ r.addrs) := by
            rw [List.perm_iff_count]
            intro x
            simp only [addrs, Ctx.addrs, List.count_append]
            omega
          have aroundE : ∀ e, e ∈ (Ctx.right c l key a ring).entries ++ r.entries →
              e ∈ c.entries ++ (RingTree.node l key a ring r).entries := by
            intro e m
            simp only [entries, Ctx.entries, List.mem_append] at m ⊢
            tauto
          have greater : key < k := by omega
          have step := right (c := .right c l key a ring) ⟨node, repL, repC⟩ repR (around.nodup_iff.mp nodup)
            (fun m => fresh (around.mem_iff.mpr m)) (fun e m => match_ e (aroundE e m)) ⟨greater, admits⟩
            (fun m => by cases m) shorter.2
          rw [if_neg less, node.right]
          exact step

/-- Down the tree: the entry where the search for a size ends. -/
theorem search_spec {fuel size : Nat} {par q : Option Addr} (rep : t.Rep σ par)
    (match_ : ∀ e ∈ t.entries, sizes e.1 = e.2) (enough : t.addrs.length ≤ fuel) (ordered : t.Ordered) :
    ∃ found, State.search sizes σ size fuel t.root q = some found ∧
      ((∃ a, found = .inl a ∧ (σ.fwd a, size) ∈ t.entries) ∨
      (∃ a, found = .inr (some a) ∧ ∃ k, size < k ∧ (a, k) ∈ t.entries) ∨
      found = .inr q ∧ ∀ e ∈ t.entries, e.2 < size) := by
  induction t generalizing par q fuel with
  | nil =>
    refine ⟨.inr q, ?_, Or.inr (Or.inr ⟨rfl, fun e m => (nomatch m)⟩)⟩
    cases fuel <;> rfl
  | node l key a ring r left right =>
    obtain ⟨node, repL, repR⟩ := rep
    obtain ⟨small, large, fineL, fineR⟩ := ordered
    have size' : sizes a = key := match_ (a, key) List.mem_cons_self
    have inL : ∀ e ∈ l.entries, e ∈ (RingTree.node l key a ring r).entries :=
      fun e m => List.mem_append_right _ (List.mem_append_left _ m)
    have inR : ∀ e ∈ r.entries, e ∈ (RingTree.node l key a ring r).entries :=
      fun e m => List.mem_append_right _ (List.mem_append_right _ m)
    have own : ∀ x ∈ a :: ring, (x, key) ∈ (RingTree.node l key a ring r).entries :=
      fun x m => List.mem_append_left _ (List.mem_map_of_mem m)
    cases fuel with
    | zero => simp [addrs] at enough
    | succ fuel =>
      have shorter : l.addrs.length ≤ fuel ∧ r.addrs.length ≤ fuel := by
        simp only [addrs, List.length_append, List.length_cons] at enough
        omega
      rw [RingTree.root, State.search, size']
      by_cases exact_ : key = size
      · subst exact_
        have next := node.cycle.fwd_mem List.mem_cons_self
        rw [if_pos rfl]
        exact ⟨_, rfl, Or.inl ⟨a, rfl, own _ next⟩⟩
      · rw [if_neg exact_]
        by_cases less : size < key
        · rw [if_pos less, node.left]
          obtain ⟨found, ran, cases⟩ := left (q := some a) repL (fun e m => match_ e (inL e m)) shorter.1 fineL
          refine ⟨found, ran, ?_⟩
          rcases cases with ⟨b, here, member⟩ | ⟨b, here, k, more, member⟩ | ⟨here, _⟩
          · exact Or.inl ⟨b, here, inL _ member⟩
          · exact Or.inr (Or.inl ⟨b, here, k, more, inL _ member⟩)
          · exact Or.inr (Or.inl ⟨a, here, key, less, own a List.mem_cons_self⟩)
        · rw [if_neg less, node.right]
          obtain ⟨found, ran, cases⟩ := right (q := q) repR (fun e m => match_ e (inR e m)) shorter.2 fineR
          refine ⟨found, ran, ?_⟩
          rcases cases with ⟨b, here, member⟩ | ⟨b, here, k, more, member⟩ | ⟨here, all⟩
          · exact Or.inl ⟨b, here, inR _ member⟩
          · exact Or.inr (Or.inl ⟨b, here, k, more, inR _ member⟩)
          · refine Or.inr (Or.inr ⟨here, fun e m => ?_⟩)
            have smaller : key < size := by omega
            simp only [entries, List.mem_append, List.mem_map] at m
            rcases m with ⟨x, _, rfl⟩ | below | above
            · exact smaller
            · exact (small e below).trans smaller
            · exact all e above

end Inferno.Pool
