import Inferno.Lib.RingTree
import Inferno.Pool.Alloc

namespace Inferno.Pool

open Inferno.Lib RingTree

variable {σ : Links Addr} {c : Ctx Addr} {t l r : RingTree Addr} {a b : Addr} {key : Nat} {ring : List Addr}
  {par root : Option Addr}

theorem agree_adopt {xs : List Addr} {s f : Option Addr} (absent : ∀ x, s = some x → x ∉ xs) :
    σ.Agree (adopt s f σ) xs := by
  cases s with
  | none => exact ⟨fun _ _ => rfl, fun _ _ => rfl, fun _ _ => rfl, fun _ _ => rfl, fun _ _ => rfl⟩
  | some s => exact Links.agree_parent (absent s rfl) f

@[simp] theorem adopt_left (s f : Option Addr) (σ : Links Addr) : (adopt s f σ).left = σ.left := by
  cases s <;> rfl

@[simp] theorem adopt_right (s f : Option Addr) (σ : Links Addr) : (adopt s f σ).right = σ.right := by
  cases s <;> rfl

@[simp] theorem adopt_prev (s f : Option Addr) (σ : Links Addr) : (adopt s f σ).prev = σ.prev := by
  cases s <;> rfl

@[simp] theorem adopt_fwd (s f : Option Addr) (σ : Links Addr) : (adopt s f σ).fwd = σ.fwd := by
  cases s <;> rfl

theorem adopt_parent_of_ne {s f : Option Addr} (other : s ≠ some a) : (adopt s f σ).parent a = σ.parent a := by
  cases s with
  | none => rfl
  | some s => exact Function.update_of_ne (fun same => other (congrArg some same.symm)) _ _

theorem Ring.of_eq {σ τ : Links Addr} (links : σ.Ring a ring) (fwd : τ.fwd = σ.fwd) (prev : τ.prev = σ.prev) :
    τ.Ring a ring :=
  links.congr (fun _ _ => by rw [fwd]) (fun _ _ => by rw [prev])

/-- The root of a tree gets another parent. -/
theorem rep_adopt (rep : t.Rep σ par) (nodup : t.addrs.Nodup) (f : Option Addr) : t.Rep (adopt t.root f σ) f := by
  cases t with
  | nil => trivial
  | node l key a ring r =>
    obtain ⟨node, repL, repR⟩ := rep
    simp only [addrs, List.cons_append, List.nodup_cons, List.mem_append, not_or] at nodup
    refine ⟨⟨node.left, node.right, Function.update_self _ _ _, node.cycle, fun x member => ?_⟩,
      repL.congr (Links.agree_parent nodup.1.2.1 f), repR.congr (Links.agree_parent nodup.1.2.2 f)⟩
    exact (Links.update_of_mem member nodup.1.1).trans (node.behind x member)

/-- What `relink` leaves: another tree in the hole, and the rest as it was. -/
structure Relinked (c : Ctx Addr) (rp : Option Addr) (σ : Links Addr) (res : Option Addr × Links Addr) : Prop where
  rep : c.Rep res.2 none res.1 rp
  parent : res.2.parent = σ.parent
  prev : res.2.prev = σ.prev
  fwd : res.2.fwd = σ.fwd
  agree : ∀ xs : List Addr, (∀ x ∈ xs, x ∉ c.addrs) → σ.Agree res.2 xs

theorem relink_relinked (rep : c.Rep σ none root (some a)) (nodup : c.addrs.Nodup) (absent : a ∉ c.addrs)
    (rp : Option Addr) : Relinked c rp σ (relink (c.parent none) a rp root σ) := by
  cases c with
  | top => exact ⟨rfl, rfl, rfl, rfl, fun _ _ => ⟨fun _ _ => rfl, fun _ _ => rfl, fun _ _ => rfl, fun _ _ => rfl, fun _ _ => rfl⟩⟩
  | left c key b ring r =>
    have here : σ.left b = some a := rep.1.left
    rw [Ctx.parent, relink, if_pos here]
    exact ⟨rep.setLeft nodup rp, rfl, rfl, rfl, fun xs apart => Links.agree_left (fun m => apart b m List.mem_cons_self) rp⟩
  | right c l key b ring =>
    have elsewhere : σ.left b ≠ some a := by
      rw [rep.1.left]
      intro here
      exact absent (List.mem_append_right _ (List.mem_append_left _ (root_mem here)))
    rw [Ctx.parent, relink, if_neg elsewhere]
    exact ⟨rep.setRight nodup rp, rfl, rfl, rfl, fun xs apart => Links.agree_right (fun m => apart b m List.mem_cons_self) rp⟩

theorem leftmost_spec {fuel : Nat} (c : Ctx Addr) {f₀ f : Addr} (rep : t.Rep σ (some f)) (here : t.root = some a)
    (spine : c.Spine) (above : c.parent (some f₀) = some f) (enough : t.addrs.length ≤ fuel) :
    ∃ c' f' rp key ring r, leftmost σ fuel f a = some (f', rp) ∧ c.plug t = Ctx.plug c' (.node .nil key rp ring r) ∧
      c'.Spine ∧ c'.parent (some f₀) = some f' := by
  induction t generalizing c f a fuel with
  | nil => nomatch here
  | node l key b ring r left right =>
    cases here
    obtain ⟨node, repL, _⟩ := rep
    have next := node.left
    cases l with
    | nil => exact ⟨c, f, b, key, ring, r, by cases fuel <;> simp [leftmost, next, RingTree.root], rfl, spine, above⟩
    | node l' key' b' ring' r' =>
      cases fuel with
      | zero => simp [addrs] at enough
      | succ fuel =>
        have less : (RingTree.node l' key' b' ring' r').addrs.length ≤ fuel := by
          simp only [addrs, List.length_append, List.length_cons] at enough ⊢
          omega
        rw [leftmost, next]
        exact left (.left c key b ring r) repL rfl spine rfl less

/-- What takes the place of a node: a tree of the nodes below it, under a parent yet to be set. -/
structure Spliced (l r : RingTree Addr) (σ : Links Addr) (res : Option Addr × Links Addr) (t : RingTree Addr) : Prop where
  root : res.1 = t.root
  rep : ∃ par, t.Rep res.2 par
  entries : t.entries.Perm (l.entries ++ r.entries)
  ordered : (∀ x ∈ l.entries, ∀ y ∈ r.entries, x.2 < y.2) → l.Ordered → r.Ordered → t.Ordered
  agree : ∀ xs : List Addr, (∀ x ∈ xs, x ∉ l.addrs ∧ x ∉ r.addrs) → σ.Agree res.2 xs

theorem eq_nil_of_root (empty : t.root = none) : t = .nil := by
  cases t with
  | nil => rfl
  | node => nomatch empty

/-- Below a node with two children: its right subtree with the least node taken out. -/
theorem splice_entries (c : Ctx Addr) (l r : RingTree Addr) (key : Nat) (a : Addr) (ring : List Addr) :
    (RingTree.node l key a ring (c.plug r)).entries.Perm (l.entries ++ (c.plug (.node .nil key a ring r)).entries) := by
  have outer := c.entries_plug r
  have inner := c.entries_plug (.node .nil key a ring r)
  rw [List.perm_iff_count] at outer inner ⊢
  intro e
  have first := outer e
  have second := inner e
  simp only [entries, List.count_append, List.count_nil] at first second ⊢
  omega

theorem splice_addrs (c : Ctx Addr) (l r : RingTree Addr) (key : Nat) (a : Addr) (ring : List Addr) :
    (RingTree.node l key a ring (c.plug r)).addrs.Perm (l.addrs ++ (c.plug (.node .nil key a ring r)).addrs) := by
  simpa only [map_fst_entries, List.map_append] using (splice_entries c l r key a ring).map Prod.fst

theorem splice_ordered (spine : c.Spine)
    (between : ∀ x ∈ l.entries, ∀ y ∈ (c.plug (.node .nil key a ring r)).entries, x.2 < y.2)
    (orderedL : l.Ordered) (orderedR : (c.plug (.node .nil key a ring r)).Ordered) :
    (RingTree.node l key a ring (c.plug r)).Ordered := by
  obtain ⟨up, ⟨_, large, _, own⟩, admits⟩ := Ctx.ordered_plug.mp orderedR
  have here : (a, key) ∈ (RingTree.node .nil key a ring r).entries := List.mem_cons_self
  have inside : (a, key) ∈ (c.plug (.node .nil key a ring r)).entries :=
    (c.entries_plug _).mem_iff.mpr (List.mem_append_right _ here)
  refine ⟨fun e member => between e member _ inside, fun e member => ?_, orderedL,
    Ctx.ordered_plug.mpr ⟨up, own, fun e member => admits e ?_⟩⟩
  · rcases List.mem_append.mp ((c.entries_plug r).mem_iff.mp member) with above | below
    · exact spine.lt up (admits _ here) e above
    · exact large e below
  · simp [entries, member]

/-- The least node of the right subtree, a child of the node itself, moves up. -/
theorem splice_child {σ : Links Addr} (repL : l.Rep σ par) (here : l.root = some b)
    (rep : (RingTree.node .nil key a ring r).Rep σ root)
    (nodup : (RingTree.node l key a ring r).addrs.Nodup) :
    ∃ par', (RingTree.node l key a ring r).Rep
      { σ with left := Function.update σ.left a (some b), parent := Function.update σ.parent b (some a) } par' := by
  obtain ⟨node, _, repR⟩ := rep
  have inL : b ∈ l.addrs := root_mem here
  have apart : l.addrs.Nodup ∧ a ∉ l.addrs ∧ a ∉ r.addrs ∧ b ∉ r.addrs ∧ b ∉ ring := by
    simp only [addrs, List.nodup_append, List.nodup_cons, List.mem_append, List.mem_cons] at nodup
    grind
  obtain ⟨nodupL, notL, notR, other, outside⟩ := apart
  refine ⟨_, ⟨by rw [here]; exact Function.update_self _ _ _, node.right, rfl, node.cycle, fun x member => ?_⟩, ?_, ?_⟩
  · exact (Links.update_of_mem member outside).trans (node.behind x member)
  · have moved := rep_adopt (repL.congr (Links.agree_left notL (some b))) nodupL (some a)
    rwa [here] at moved
  · exact repR.congr ((Links.agree_left notR _).trans (Links.agree_parent other _))

/-- The links `pooldel` leaves when the least node is further down: it is taken
out under `f` and gets the rest of the right subtree as its own. -/
def detach (σ : Links Addr) (f rp : Addr) (s : Option Addr) : Links Addr :=
  let σ := adopt (σ.right rp) (some f) { σ with left := Function.update σ.left f (σ.right rp) }
  adopt s (some rp) { σ with right := Function.update σ.right rp s }

theorem agree_detach {xs : List Addr} {f : Addr} {s : Option Addr} (notF : f ∉ xs) (notA : a ∉ xs)
    (child : ∀ x, σ.right a = some x → x ∉ xs) (top : ∀ x, s = some x → x ∉ xs) : σ.Agree (detach σ f a s) xs :=
  ((Links.agree_left notF _).trans (agree_adopt child)).trans ((Links.agree_right notA _).trans (agree_adopt top))

theorem splice_detach {key' : Nat} {f : Addr} {ring' : List Addr} {side : RingTree Addr} {up : Option Addr}
    (repC : (Ctx.left c key' f ring' side).Rep σ par root (some a))
    (repN : (RingTree.node .nil key a ring r).Rep σ up)
    (nodup : ((Ctx.left c key' f ring' side).addrs ++ (RingTree.node .nil key a ring r).addrs).Nodup) :
    ∃ par', (RingTree.node .nil key a ring ((Ctx.left c key' f ring' side).plug r)).Rep (detach σ f a root) par' := by
  obtain ⟨node, _, repR⟩ := repN
  have parts := List.nodup_append.mp nodup
  have inside : f ∈ (Ctx.left c key' f ring' side).addrs := List.mem_cons_self
  have notR : f ∉ r.addrs := fun m => parts.2.2 f inside f (by simp [addrs, m]) rfl
  have rootR : ∀ x, r.root = some x → x ∉ (Ctx.left c key' f ring' side).addrs :=
    fun x here m => parts.2.2 x m x (by simp [addrs, root_mem here]) rfl
  have own : r.addrs.Nodup ∧ a ∉ r.addrs ∧ (∀ x ∈ ring, x ∉ r.addrs) ∧ a ∉ ring := by
    have below := parts.2.1
    simp only [addrs, List.nodup_append, List.nodup_cons, List.mem_cons, List.nil_append] at below
    grind
  -- the subtree without its least node
  have repC₁ := (repC.setLeft parts.1 r.root).congr (agree_adopt (f := some f) rootR)
  have repR₁ := rep_adopt (repR.congr (Links.agree_left notR r.root)) own.1 (some f)
  have rest := Ctx.rep_plug.mpr ⟨repC₁, repR₁⟩
  have perm := (Ctx.left c key' f ring' side).addrs_plug r
  have outside : ∀ x ∈ a :: ring, x ∉ ((Ctx.left c key' f ring' side).plug r).addrs := by
    intro x member there
    have own' : x ∈ (RingTree.node .nil key a ring r).addrs := List.mem_append_left _ member
    rcases List.mem_append.mp (perm.mem_iff.mp there) with around | below
    · exact parts.2.2 x around x own' rfl
    · rcases List.mem_cons.mp member with rfl | behind
      · exact own.2.1 below
      · exact own.2.2.1 x behind below
  have nodupR : ((Ctx.left c key' f ring' side).plug r).addrs.Nodup := by
    rw [perm.nodup_iff, List.nodup_append]
    exact ⟨parts.1, own.1, fun x m y m' => parts.2.2 x m y (by simp [addrs, m'])⟩
  have moved := rep_adopt (rest.1.congr (Links.agree_right (outside a List.mem_cons_self) root)) nodupR (some a)
  have notSelf : a ≠ f := fun same => parts.2.2 f inside f (by simp [addrs, same]) rfl
  rw [← rest.2] at moved
  refine ⟨(detach σ f a root).parent a, ⟨?_, ?_, rfl, ?_, fun x member => ?_⟩, trivial, ?_⟩
  · simpa [detach, notSelf] using node.left
  · rw [← rest.2]
    simp [detach]
  · exact Ring.of_eq node.cycle (by simp [detach]) (by simp [detach])
  · have first : r.root ≠ some x := fun here => own.2.2.1 x member (root_mem here)
    have second : root ≠ some x :=
      fun here => outside x (List.mem_cons_of_mem a member) (root_mem (rest.2.symm.trans here))
    rw [detach, node.right]
    exact (adopt_parent_of_ne second).trans ((adopt_parent_of_ne first).trans (node.behind x member))
  · rw [detach, node.right]
    exact moved

theorem poolsplice_spliced {fuel : Nat} (left : σ.left a = l.root) (right : σ.right a = r.root)
    (repL : l.Rep σ (some a)) (repR : r.Rep σ (some a)) (nodup : (a :: (l.addrs ++ r.addrs)).Nodup)
    (enough : r.addrs.length ≤ fuel) : ∃ res t, poolsplice fuel a σ = some res ∧ Spliced l r σ res t := by
  have untouched : ∀ xs : List Addr, σ.Agree σ xs :=
    fun _ => ⟨fun _ _ => rfl, fun _ _ => rfl, fun _ _ => rfl, fun _ _ => rfl, fun _ _ => rfl⟩
  cases hl : l.root with
  | none =>
    cases eq_nil_of_root hl
    refine ⟨(r.root, σ), r, ?_, ⟨rfl, ⟨_, repR⟩, .refl _, fun _ _ fine => fine, fun xs _ => untouched xs⟩⟩
    rw [poolsplice, left, right]
    rfl
  | some bl =>
    have inL : bl ∈ l.addrs := root_mem hl
    cases hr : r.root with
    | none =>
      cases eq_nil_of_root hr
      refine ⟨(l.root, σ), l, ?_, ⟨rfl, ⟨_, repL⟩, by simp [entries], fun _ fine _ => fine, fun xs _ => untouched xs⟩⟩
      rw [poolsplice, left, right, hl]
      rfl
    | some br =>
      obtain ⟨c, f, rp, key, ring, r', found, whole, spine, above⟩ :=
        leftmost_spec .top repR hr trivial rfl enough
      rw [Ctx.plug] at whole
      have sameRoot : some br = (c.plug (.node .nil key rp ring r')).root := by rw [← whole, hr]
      subst whole
      have perm := c.addrs_plug (.node .nil key rp ring r')
      obtain ⟨repC, repN⟩ := Ctx.rep_plug.mp ⟨repR, sameRoot⟩
      rw [above] at repN
      have entriesOk := splice_entries c l r' key rp ring
      have parts := (List.nodup_cons.mp nodup).2
      have below := (splice_addrs c l r' key rp ring).nodup_iff.mpr parts
      cases c with
      | right => exact spine.elim
      | top =>
        cases above
        cases repC
        refine ⟨(some br, { σ with
            left := Function.update σ.left br (some bl), parent := Function.update σ.parent bl (some br) }),
          .node l key br ring r', by simp [poolsplice, left, right, hl, hr, found],
          ⟨rfl, splice_child repL hl repN below, entriesOk, splice_ordered spine, fun xs apart => ?_⟩⟩
        have notR : br ∉ xs := fun m => (apart br m).2 List.mem_cons_self
        exact (Links.agree_left notR _).trans (Links.agree_parent (fun m => (apart bl m).1 inL) _)
      | left c₃ key₃ b₃ ring₃ r₃ =>
        cases above
        obtain ⟨par, rest⟩ := splice_detach repC repN (perm.nodup_iff.mp (List.nodup_append.mp parts).2.1)
        have inF : f ∈ ((Ctx.left c₃ key₃ f ring₃ r₃).plug (.node .nil key rp ring r')).addrs :=
          perm.mem_iff.mpr (List.mem_append_left _ List.mem_cons_self)
        have inRp : rp ∈ ((Ctx.left c₃ key₃ f ring₃ r₃).plug (.node .nil key rp ring r')).addrs :=
          perm.mem_iff.mpr (List.mem_append_right _ List.mem_cons_self)
        have inBr : br ∈ ((Ctx.left c₃ key₃ f ring₃ r₃).plug (.node .nil key rp ring r')).addrs := root_mem hr
        have child : ∀ x, σ.right rp = some x →
            x ∈ ((Ctx.left c₃ key₃ f ring₃ r₃).plug (.node .nil key rp ring r')).addrs := by
          intro x here
          rw [repN.1.right] at here
          exact perm.mem_iff.mpr (List.mem_append_right _ (by simp [addrs, root_mem here]))
        have agree : ∀ xs : List Addr, (∀ x ∈ xs, x ∉ ((Ctx.left c₃ key₃ f ring₃ r₃).plug
            (.node .nil key rp ring r')).addrs) → σ.Agree (detach σ f rp (some br)) xs := fun xs apart =>
          agree_detach (fun m => apart f m inF) (fun m => apart rp m inRp) (fun x here m => apart x m (child x here))
            fun x here m => apart x m (Option.some.inj here ▸ inBr)
        have repL' := repL.congr (agree l.addrs fun x m m' => (List.nodup_append.mp parts).2.2 x m x m' rfl)
        have other : f ≠ a := fun same => (List.nodup_cons.mp nodup).1 (List.mem_append_right _ (same ▸ inF))
        refine ⟨(some rp, { detach σ f rp (some br) with
            left := Function.update (detach σ f rp (some br)).left rp (some bl)
            parent := Function.update (detach σ f rp (some br)).parent bl (some rp) }),
          .node l key rp ring ((Ctx.left c₃ key₃ f ring₃ r₃).plug r'), ?_,
          ⟨rfl, splice_child repL' hl rest below, entriesOk, splice_ordered spine, fun xs apart => ?_⟩⟩
        · simp [poolsplice, left, right, hl, hr, found, other, detach]
        · have first := agree xs fun x m => (apart x m).2
          have notRp : rp ∉ xs := fun m => (apart rp m).2 inRp
          exact (first.trans (Links.agree_left notRp _)).trans (Links.agree_parent (fun m => (apart bl m).1 inL) _)

/-- What `pooldel` leaves: a search tree without the entry `e`. -/
structure Deleted (e : Addr × Nat) (t : RingTree Addr) (res : Option Addr × Links Addr) (t' : RingTree Addr) : Prop where
  rep : t'.Rep res.2 none
  root : res.1 = t'.root
  entries : t.entries.Perm (e :: t'.entries)
  ordered : t.Ordered → t'.Ordered

/-- Filling the hole with a tree that has one entry less. -/
theorem Deleted.of_plug {e : Addr × Nat} {t t' : RingTree Addr} {res : Option Addr × Links Addr}
    (repC : c.Rep res.2 none res.1 t'.root) (rep : t'.Rep res.2 (c.parent none))
    (entries : t.entries.Perm (e :: t'.entries)) (ordered : t.Ordered → t'.Ordered) :
    Deleted e (c.plug t) res (c.plug t') := by
  obtain ⟨whole, root⟩ := Ctx.rep_plug.mpr ⟨repC, rep⟩
  refine ⟨whole, root, ?_, fun fine => ?_⟩
  · calc (c.plug t).entries.Perm (c.entries ++ t.entries) := c.entries_plug t
      _ |>.Perm (c.entries ++ e :: t'.entries) := List.Perm.append_left _ entries
      _ |>.Perm (e :: (c.entries ++ t'.entries)) := List.perm_middle
      _ |>.Perm (e :: (c.plug t').entries) := (c.entries_plug t').symm.cons e
  · obtain ⟨up, own, admits⟩ := Ctx.ordered_plug.mp fine
    exact Ctx.ordered_plug.mpr ⟨up, ordered own, fun x m => admits x (entries.mem_iff.mpr (List.mem_cons_of_mem e m))⟩

/-- A node behind another in its ring is unlinked. -/
theorem pooldel_behind {fuel : Nat} {before after : List Addr}
    (repC : c.Rep σ none root (some a)) (rep : (RingTree.node l key a (before ++ b :: after) r).Rep σ (c.parent none))
    (nodup : (c.addrs ++ (RingTree.node l key a (before ++ b :: after) r).addrs).Nodup) :
    ∃ res, pooldel fuel b root σ = some res ∧
      Deleted (b, key) (c.plug (.node l key a (before ++ b :: after) r)) res (c.plug (.node l key a (before ++ after) r)) := by
  obtain ⟨node, repL, repR⟩ := rep
  have inside : b ∈ a :: (before ++ b :: after) := by simp
  obtain ⟨nodupC, nodupN, apart⟩ := List.nodup_append.mp nodup
  have parts : (a :: (before ++ b :: after)).Nodup ∧ (∀ x ∈ a :: (before ++ b :: after), x ∉ l.addrs ∧ x ∉ r.addrs) ∧
      a ∉ before ++ b :: after := by
    have own := nodupN
    rw [addrs, List.nodup_append] at own
    exact ⟨own.1, fun x m => ⟨fun m' => own.2.2 x m x (List.mem_append_left _ m') rfl,
      fun m' => own.2.2 x m x (List.mem_append_right _ m') rfl⟩, (List.nodup_cons.mp own.1).1⟩
  have notC : ∀ x ∈ a :: (before ++ b :: after), x ∉ c.addrs :=
    fun x m m' => apart x m' x (List.mem_append_left _ m) rfl
  have fwdIn := node.cycle.fwd_mem inside
  obtain ⟨u, v, front, _⟩ := node.cycle.around
  have prevIn : σ.prev b ∈ a :: before := front ▸ List.mem_append_right u (List.mem_singleton_self _)
  have prevIn' : σ.prev b ∈ a :: (before ++ b :: after) := by
    rcases List.mem_cons.mp prevIn with here | early
    · rw [here]
      exact List.mem_cons_self
    · exact List.mem_cons_of_mem a (List.mem_append_left _ early)
  have notSelf : σ.prev b ≠ b := by
    intro same
    rw [same] at prevIn
    have whole := parts.1
    rw [← List.cons_append, List.nodup_append] at whole
    exact whole.2.2 b prevIn b List.mem_cons_self rfl
  have agree : ∀ xs : List Addr, (∀ x ∈ a :: (before ++ b :: after), x ∉ xs) → σ.Agree (σ.unlink b) xs :=
    fun xs away => Links.agree_unlink notSelf (away _ prevIn') (away _ fwdIn)
  have notRoot : root ≠ some b := by
    rcases repC.root_cases with ⟨_, here⟩ | ⟨x, around, here⟩
    · rw [here]
      exact fun same => parts.2.2 (by rw [Option.some.inj same]; simp)
    · rw [here]
      exact fun same => notC b inside (Option.some.inj same ▸ around)
  have fields : (σ.unlink b).left = σ.left ∧ (σ.unlink b).right = σ.right ∧ (σ.unlink b).parent = σ.parent := by
    rw [Links.unlink_eq notSelf]
    exact ⟨rfl, rfl, rfl⟩
  refine ⟨(root, σ.unlink b), ?_, Deleted.of_plug (repC.congr (agree c.addrs notC)) ⟨⟨?_, ?_, ?_, ?_, ?_⟩, ?_, ?_⟩ ?_ ?_⟩
  · rw [pooldel, if_pos ⟨node.behind b (by simp), notRoot⟩]
  · rw [fields.1, node.left]
  · rw [fields.2.1, node.right]
  · rw [fields.2.2, node.parent]
  · exact node.cycle.unlink parts.1
  · intro x member
    rw [fields.2.2]
    exact node.behind x (by rcases List.mem_append.mp member with m | m <;> simp [m])
  · exact repL.congr (agree l.addrs fun x m => (parts.2.1 x m).1)
  · exact repR.congr (agree r.addrs fun x m => (parts.2.1 x m).2)
  · simp only [entries, List.map_append, List.map_cons, List.cons_append, List.append_assoc]
    exact (List.Perm.cons _ List.perm_middle).trans (List.Perm.swap _ _ _)
  · exact fun fine => fine

theorem not_detached (repC : c.Rep σ none root (some a)) (parent : σ.parent a = c.parent none) :
    ¬ (σ.parent a = none ∧ root ≠ some a) := by
  rintro ⟨orphan, other⟩
  rw [parent] at orphan
  cases c with
  | top => exact other repC
  | left => nomatch orphan
  | right => nomatch orphan

/-- The next node of the ring takes over the place in the tree. -/
theorem pooldel_promote {fuel : Nat} {f : Addr} {rest : List Addr} (repC : c.Rep σ none root (some a))
    (rep : (RingTree.node l key a (f :: rest) r).Rep σ (c.parent none))
    (nodup : (c.addrs ++ (RingTree.node l key a (f :: rest) r).addrs).Nodup) :
    ∃ res, pooldel fuel a root σ = some res ∧
      Deleted (a, key) (c.plug (.node l key a (f :: rest) r)) res (c.plug (.node l key f rest r)) := by
  obtain ⟨node, repL, repR⟩ := rep
  obtain ⟨nodupC, nodupN, apart⟩ := List.nodup_append.mp nodup
  have own := nodupN
  rw [addrs, List.nodup_append, List.nodup_append] at own
  obtain ⟨nodupA, ⟨nodupL, nodupR, disjoint⟩, outside⟩ := own
  have notC : ∀ x ∈ a :: f :: rest, x ∉ c.addrs := fun x m m' => apart x m' x (List.mem_append_left _ m) rfl
  have notL : ∀ x ∈ a :: f :: rest, x ∉ l.addrs := fun x m m' => outside x m x (List.mem_append_left _ m') rfl
  have notR : ∀ x ∈ a :: f :: rest, x ∉ r.addrs := fun x m m' => outside x m x (List.mem_append_right _ m') rfl
  have cl : ∀ x ∈ l.addrs, x ∉ c.addrs :=
    fun x m m' => apart x m' x (List.mem_append_right _ (List.mem_append_left _ m)) rfl
  have cr : ∀ x ∈ r.addrs, x ∉ c.addrs :=
    fun x m m' => apart x m' x (List.mem_append_right _ (List.mem_append_right _ m)) rfl
  have inA : a ∈ a :: f :: rest := List.mem_cons_self
  have inF : f ∈ a :: f :: rest := List.mem_cons_of_mem a List.mem_cons_self
  have notFirst : f ≠ a := fun same => (List.nodup_cons.mp nodupA).1 (same ▸ List.mem_cons_self)
  have fwd : σ.fwd a = f := node.cycle.fwd_of_cons
  -- `f` gets the parent of `a` and is linked there
  let σ₀ : Links Addr := { σ with parent := Function.update σ.parent f (c.parent none) }
  have relinked := relink_relinked (repC.congr (Links.agree_parent (notC f inF) (c.parent none))) nodupC (notC a inA) (some f)
  generalize step : relink (c.parent none) a (some f) root σ₀ = res at relinked
  obtain ⟨root₁, σ₁⟩ := res
  have kept : ∀ xs : List Addr, f ∉ xs → (∀ x ∈ xs, x ∉ c.addrs) → σ.Agree σ₁ xs :=
    fun xs notF away => (Links.agree_parent notF _).trans (relinked.agree xs away)
  have leftA : σ₁.left a = l.root := ((relinked.agree [a] (by simpa using notC a inA)).left a (by simp)).trans node.left
  have rightA : σ₁.right a = r.root := ((relinked.agree [a] (by simpa using notC a inA)).right a (by simp)).trans node.right
  -- and gets its children
  let σ₂ : Links Addr := adopt l.root (some f) { σ₁ with left := Function.update σ₁.left f l.root }
  let σ₃ : Links Addr := adopt r.root (some f) { σ₂ with right := Function.update σ₂.right f r.root }
  have ran : pooldel fuel a root σ = some (root₁, σ₃.unlink a) := by
    rw [pooldel, if_neg (not_detached repC node.parent), if_pos (by rw [fwd]; exact notFirst)]
    simp only [fwd, node.parent]
    rw [show relink (c.parent none) a (some f) root { σ with parent := Function.update σ.parent f (c.parent none) } =
      (root₁, σ₁) from step]
    simp only [leftA, adopt_right, rightA, σ₃, σ₂]
  have agree : ∀ xs : List Addr, f ∉ xs → (∀ x, l.root = some x → x ∉ xs) → (∀ x, r.root = some x → x ∉ xs) →
      σ₁.Agree σ₃ xs := fun xs notF leftAway rightAway =>
    ((Links.agree_left notF _).trans (agree_adopt leftAway)).trans ((Links.agree_right notF _).trans (agree_adopt rightAway))
  have repC₃ : c.Rep σ₃ none root₁ (some f) := relinked.rep.congr (agree c.addrs (notC f inF)
    (fun x here => cl x (root_mem here)) fun x here => cr x (root_mem here))
  have repL₃ : l.Rep σ₃ (some f) := by
    have moved := rep_adopt ((repL.congr (kept l.addrs (notL f inF) cl)).congr (Links.agree_left (notL f inF) l.root))
      nodupL (some f)
    exact moved.congr ((Links.agree_right (notL f inF) _).trans
      (agree_adopt fun x here m => disjoint x m x (root_mem here) rfl))
  have repR₃ : r.Rep σ₃ (some f) := by
    have before := (repR.congr (kept r.addrs (notR f inF) cr)).congr
      ((Links.agree_left (notR f inF) l.root).trans
        (agree_adopt (f := some f) fun x here m => disjoint x (root_mem here) x m rfl))
    exact rep_adopt (before.congr (Links.agree_right (notR f inF) r.root)) nodupR (some f)
  have parent₃ : ∀ x ∈ a :: f :: rest, σ₃.parent x = σ₀.parent x := by
    intro x member
    have first : l.root ≠ some x := fun here => notL x member (root_mem here)
    have second : r.root ≠ some x := fun here => notR x member (root_mem here)
    have last : σ₃.parent x = σ₂.parent x := adopt_parent_of_ne second
    have middle : σ₂.parent x = σ₁.parent x := adopt_parent_of_ne first
    rw [last, middle]
    exact congrFun relinked.parent x
  -- the ring without `a`, entered at `f`
  have cycle : σ₃.Ring f (rest ++ a :: []) := by
    have sameFwd : σ₁.fwd = σ.fwd := relinked.fwd
    have samePrev : σ₁.prev = σ.prev := relinked.prev
    exact Ring.of_eq node.cycle.rotate (by simp only [σ₃, σ₂, adopt_fwd, sameFwd])
      (by simp only [σ₃, σ₂, adopt_prev, samePrev])
  have nodupF : (f :: (rest ++ a :: [])).Nodup := by
    have moved : (a :: f :: rest).Perm (f :: rest ++ [a]) := (List.perm_append_singleton a (f :: rest)).symm
    exact moved.nodup_iff.mp nodupA
  obtain ⟨u, v, front, back⟩ := cycle.around
  have prevIn : σ₃.prev a ∈ f :: rest := front ▸ List.mem_append_right u (List.mem_singleton_self _)
  have notSelf : σ₃.prev a ≠ a := fun same => (List.nodup_cons.mp nodupA).1 (same ▸ prevIn)
  have fwd₃ : σ₃.fwd a = f := by simpa using (congrArg List.head? back).symm
  have agreeU : ∀ xs : List Addr, (∀ x ∈ a :: f :: rest, x ∉ xs) → σ₃.Agree (σ₃.unlink a) xs := fun xs away =>
    Links.agree_unlink notSelf (away _ (List.mem_cons_of_mem a prevIn)) (by rw [fwd₃]; exact away f inF)
  have fields : (σ₃.unlink a).left = σ₃.left ∧ (σ₃.unlink a).right = σ₃.right ∧ (σ₃.unlink a).parent = σ₃.parent := by
    rw [Links.unlink_eq notSelf]
    exact ⟨rfl, rfl, rfl⟩
  refine ⟨_, ran, Deleted.of_plug (repC₃.congr (agreeU c.addrs notC)) ⟨⟨?_, ?_, ?_, ?_, ?_⟩, ?_, ?_⟩ (.refl _) fun fine => fine⟩
  · rw [fields.1]
    simp only [σ₃, σ₂, adopt_left, Function.update_self]
  · rw [fields.2.1]
    simp only [σ₃, adopt_right, Function.update_self]
  · rw [fields.2.2, parent₃ f inF]
    exact Function.update_self _ _ _
  · have shorter := cycle.unlink nodupF
    rwa [List.append_nil] at shorter
  · intro x member
    have other : x ≠ f := fun same => (List.nodup_cons.mp (List.nodup_cons.mp nodupA).2).1 (same ▸ member)
    rw [fields.2.2, parent₃ x (by simp [member])]
    exact (Function.update_of_ne other _ _).trans (node.behind x (List.mem_cons_of_mem f member))
  · exact repL₃.congr (agreeU l.addrs notL)
  · exact repR₃.congr (agreeU r.addrs notR)

/-- A node alone in its ring leaves the tree below it in its place. -/
theorem pooldel_alone {fuel : Nat} (repC : c.Rep σ none root (some a))
    (rep : (RingTree.node l key a [] r).Rep σ (c.parent none))
    (nodup : (c.addrs ++ (RingTree.node l key a [] r).addrs).Nodup) (enough : r.addrs.length ≤ fuel) :
    ∃ res t, pooldel fuel a root σ = some res ∧ Deleted (a, key) (c.plug (.node l key a [] r)) res (c.plug t) := by
  obtain ⟨node, repL, repR⟩ := rep
  have own : (RingTree.node l key a [] r).addrs = a :: (l.addrs ++ r.addrs) := rfl
  rw [own] at nodup
  obtain ⟨nodupC, nodupN, apart⟩ := List.nodup_append.mp nodup
  obtain ⟨⟨rp, σ₁⟩, t, spliced, ⟨rfl, ⟨par, rep₁⟩, entriesT, orderedT, agree⟩⟩ :=
    poolsplice_spliced node.left node.right repL repR nodupN enough
  have addrsT : t.addrs.Perm (l.addrs ++ r.addrs) := by
    simpa only [map_fst_entries, List.map_append] using entriesT.map Prod.fst
  have nodupB := (List.nodup_cons.mp nodupN)
  have notC : a ∉ c.addrs := fun m => apart a m a List.mem_cons_self rfl
  have away : ∀ x ∈ c.addrs, x ∉ l.addrs ∧ x ∉ r.addrs := fun x m =>
    ⟨fun m' => apart x m x (List.mem_cons_of_mem a (List.mem_append_left _ m')) rfl,
      fun m' => apart x m x (List.mem_cons_of_mem a (List.mem_append_right _ m')) rfl⟩
  have awayT : ∀ x ∈ t.addrs, x ∉ c.addrs := fun x m m' => by
    rcases List.mem_append.mp (addrsT.mem_iff.mp m) with inL | inR
    · exact (away x m').1 inL
    · exact (away x m').2 inR
  have parentA : σ₁.parent a = c.parent none := by
    refine ((agree [a] fun x m => ?_).parent a (List.mem_singleton_self a)).trans node.parent
    rw [List.mem_singleton.mp m]
    exact ⟨fun m' => nodupB.1 (List.mem_append_left _ m'), fun m' => nodupB.1 (List.mem_append_right _ m')⟩
  have relinked := relink_relinked (repC.congr (agree c.addrs away)) nodupC notC t.root
  refine ⟨((relink (c.parent none) a t.root root σ₁).1, adopt t.root (c.parent none) (relink (c.parent none) a t.root root σ₁).2),
    t, ?_, Deleted.of_plug (relinked.rep.congr (agree_adopt fun x here => awayT x (root_mem here))) ?_ ?_ ?_⟩
  · have single : σ.fwd a = a := node.cycle.fwd_of_nil
    rw [pooldel, if_neg (not_detached repC node.parent), if_neg (by simpa using single), spliced]
    simp only [Option.bind_eq_bind, Option.bind_some, parentA]
    rfl
  · exact rep_adopt (rep₁.congr (relinked.agree t.addrs awayT)) (addrsT.nodup_iff.mpr nodupB.2) _
  · exact List.Perm.cons _ entriesT.symm
  · rintro ⟨small, large, fineL, fineR⟩
    exact orderedT (fun x m y m' => (small x m).trans (large y m')) fineL fineR

/-- `pooldel` takes any free block out of the tree and its rings. -/
theorem pooldel_deleted {fuel : Nat} {e : Addr × Nat} (rep : t.Rep σ none) (here : root = t.root)
    (nodup : t.addrs.Nodup) (member : e ∈ t.entries) (enough : t.addrs.length ≤ fuel) :
    ∃ res t', pooldel fuel e.1 root σ = some res ∧ Deleted e t res t' := by
  obtain ⟨b, key⟩ := e
  obtain ⟨c, l, a, ring, r, rfl, inside⟩ := exists_plug member
  obtain ⟨repC, repN⟩ := Ctx.rep_plug.mp ⟨rep, here⟩
  rw [(c.addrs_plug _).nodup_iff] at nodup
  rw [(c.addrs_plug _).length_eq] at enough
  rcases List.mem_cons.mp inside with rfl | behind
  · cases ring with
    | cons f rest =>
      obtain ⟨res, ran, deleted⟩ := pooldel_promote repC repN nodup
      exact ⟨res, _, ran, deleted⟩
    | nil =>
      have below : r.addrs.length ≤ fuel := by
        simp only [addrs, List.length_append, List.length_cons] at enough
        omega
      obtain ⟨res, t, ran, deleted⟩ := pooldel_alone repC repN nodup below
      exact ⟨res, _, ran, deleted⟩
  · obtain ⟨before, after, rfl⟩ := List.append_of_mem behind
    obtain ⟨res, ran, deleted⟩ := pooldel_behind repC repN nodup
    exact ⟨res, _, ran, deleted⟩

end Inferno.Pool
