import Inferno.Pool.Arena

namespace Inferno.Pool

open Inferno.Lib

variable {s s' : State} {t t' : RingTree Nat} {q k : Nat} {live live' : List Nat} {as xs ys : List Arena}

/-- The tree of a pool, as its loops find it. -/
structure TreeOk (s : State) (t : RingTree Nat) : Prop where
  rep : t.Rep s.links none
  root : s.pool.root = t.root
  ordered : t.Ordered
  nodup : t.addrs.Nodup
  sizes : ∀ e ∈ t.entries, s.size e.1 = e.2
  fits : t.addrs.length ≤ s.fuel

theorem TreeOk.congr (ok : TreeOk s t) (links : s'.links = s.links) (root : s'.pool.root = s.pool.root)
    (sizes : ∀ x ∈ t.addrs, s'.size x = s.size x) (fits : s.fuel ≤ s'.fuel) : TreeOk s' t where
  rep := by
    rw [links]
    exact ok.rep
  root := root.trans ok.root
  ordered := ok.ordered
  nodup := ok.nodup
  sizes e member := by
    rw [sizes e.1 (by rw [← t.map_fst_entries]; exact List.mem_map_of_mem member)]
    exact ok.sizes e member
  fits := ok.fits.trans fits

theorem asInt_eq (small : k < 2 ^ 31) : asInt k = k := by
  have range : (k : Int).bmod (2 ^ 32) = k := by rw [Int.bmod_eq_of_le] <;> omega
  unfold asInt
  rw [range]
  omega

/-- A block leaves the tree; nothing but links changes. -/
theorem remove_spec {e : Nat × Nat} (ok : TreeOk s t) (member : e ∈ t.entries) :
    ∃ root links t', s.remove e.1 = some { s with pool.root := root, links } ∧
      TreeOk { s with pool.root := root, links } t' ∧ t.entries.Perm (e :: t'.entries) := by
  obtain ⟨⟨root, links⟩, t', ran, deleted⟩ := pooldel_deleted ok.rep ok.root ok.nodup member ok.fits
  have addrs : t.addrs.Perm (e.1 :: t'.addrs) := by
    simpa only [RingTree.map_fst_entries, List.map_cons] using deleted.entries.map Prod.fst
  refine ⟨root, links, t', ?_, ⟨deleted.rep, deleted.root, deleted.ordered ok.ordered, ?_, fun x m => ?_, ?_⟩,
    deleted.entries⟩
  · rw [State.remove, ran]
    rfl
  · exact (List.nodup_cons.mp (addrs.nodup_iff.mp ok.nodup)).2
  · exact ok.sizes x (deleted.entries.mem_iff.mpr (List.mem_cons_of_mem e m))
  · have length := addrs.length_eq
    rw [List.length_cons] at length
    have fits := ok.fits
    simp only [State.fuel] at *
    omega

/-- A block joins the tree. -/
theorem pooladd_spec (ok : TreeOk s t) (fresh : q ∉ t.addrs) (small : s.size q < 2 ^ 31)
    (room : t.addrs.length < s.fuel) :
    ∃ root links t', s.pooladd q = some { s.setMagic q magicF with pool.root := root, links } ∧
      TreeOk { s.setMagic q magicF with pool.root := root, links } t' ∧ t'.entries.Perm ((q, s.size q) :: t.entries) := by
  let σ : Links Nat :=
    { left := Function.update s.links.left q none
      right := Function.update s.links.right q none
      parent := Function.update s.links.parent q none
      fwd := Function.update s.links.fwd q q
      prev := Function.update s.links.prev q q }
  have blank : Blank σ q := ⟨Function.update_self _ _ _, Function.update_self _ _ _, Function.update_self _ _ _,
    Function.update_self _ _ _, Function.update_self _ _ _⟩
  have agree : s.links.Agree σ t.addrs :=
    ⟨fun _ m => Links.update_of_mem m fresh, fun _ m => Links.update_of_mem m fresh,
      fun _ m => Links.update_of_mem m fresh, fun _ m => Links.update_of_mem m fresh,
      fun _ m => Links.update_of_mem m fresh⟩
  have done : ∀ (links : Links Nat) (t' : RingTree Nat), Inserted (q, s.size q) t links t' →
      TreeOk { s.setMagic q magicF with pool.root := t'.root, links } t' := by
    intro links t' inserted
    have addrs : t'.addrs.Perm (q :: t.addrs) := by
      simpa only [RingTree.map_fst_entries, List.map_cons] using inserted.entries.map Prod.fst
    refine ⟨inserted.rep, rfl, inserted.ordered ok.ordered, addrs.nodup_iff.mpr (List.nodup_cons.mpr ⟨fresh, ok.nodup⟩),
      fun e m => ?_, ?_⟩
    · rcases List.mem_cons.mp (inserted.entries.mem_iff.mp m) with rfl | old
      · rfl
      · exact ok.sizes e old
    · rw [addrs.length_eq, List.length_cons]
      exact room
  cases here : t.root with
  | none =>
    have empty : t = .nil := eq_nil_of_root here
    subst empty
    have inserted : Inserted (q, s.size q) .nil σ (.node .nil (s.size q) q [] .nil) := by
      refine ⟨⟨⟨blank.left, blank.right, blank.parent, Links.Ring.single blank.fwd blank.prev, fun x m => (nomatch m)⟩,
        trivial, trivial⟩, .refl _, fun _ => ?_⟩
      simp [RingTree.Ordered, RingTree.entries]
    refine ⟨some q, σ, _, ?_, done σ _ inserted, inserted.entries⟩
    have none : s.pool.root = none := ok.root.trans here
    simp only [State.pooladd, State.setMagic, none]
    rfl
  | some root =>
    have inner : RingTree.Ctx.top = (.top : RingTree.Ctx Nat) → t.root ≠ none := fun _ => by
      rw [here]
      exact Option.some_ne_none root
    have sizes : ∀ e ∈ (RingTree.Ctx.top : RingTree.Ctx Nat).entries ++ t.entries, s.size e.1 = e.2 := by
      simpa [RingTree.Ctx.entries] using ok.sizes
    obtain ⟨links, t', ran, same, inserted⟩ := pooladdLoop_inserted (c := .top) (k := s.size q) ok.root
      (ok.rep.congr agree) (by simpa [RingTree.Ctx.addrs] using ok.nodup) blank (by simpa [RingTree.Ctx.addrs] using fresh)
      sizes trivial inner ok.fits
    refine ⟨t'.root, links, t', ?_, done links t' inserted, inserted.entries⟩
    have top : s.pool.root = some root := ok.root.trans here
    rw [here] at ran
    simp only [State.pooladd, State.setMagic, top, asInt_eq small]
    have ran' : pooladdLoop s.size (s.size q) q σ s.fuel (some root) none = some links := ran
    rw [State.fuel] at ran'
    simp only [State.fuel, σ] at ran' ⊢
    rw [ran', ← same]
    rfl

/-- The representation invariant of a pool, with its arenas and its tree. `live`
are the pointers given out. -/
structure Inv (s : State) (live : List Nat) (as : List Arena) (t : RingTree Nat) : Prop where
  chained : Chained s s.pool.chain as
  arenas : ∀ a ∈ as, ArenaOk s a
  disjoint : as.Pairwise fun a a' => a.stop ≤ a'.base ∨ a'.stop ≤ a.base
  rep : t.Rep s.links none
  root : s.pool.root = t.root
  ordered : t.Ordered
  free : t.entries.Perm (freeOf (layouts as))
  used : live.Perm (usedOf (layouts as))
  cursize : s.pool.cursize = usedSum (layouts as)
  arenasize : s.pool.arenasize = (as.map Arena.length).sum
  obtained : s.pool.arenasize = (s.mapped.map Prod.snd).sum
  inside : ∀ a ∈ as, ∀ x, a.base ≤ x → x < a.stop → ∃ m ∈ s.mapped, m.1 ≤ x ∧ x < m.1 + m.2
  limit : s.pool.arenasize ≤ s.pool.maxsize
  small : s.pool.maxsize < 2 ^ 31
  chunk : quanta + 1 ∣ s.pool.chunk

theorem map_fst_freeOf (L : List (Nat × Block)) : ((freeOf L).map Prod.fst).Sublist (L.map Prod.fst) := by
  rw [freeOf, List.map_map]
  exact List.filter_sublist.map _

theorem mem_freeOf {L : List (Nat × Block)} {e : Nat × Nat} :
    e ∈ freeOf L ↔ ∃ p ∈ L, p.2.free = true ∧ e = (p.1, p.2.size) := by
  simp only [freeOf, List.mem_map, List.mem_filter]
  constructor
  · rintro ⟨p, ⟨inside, free⟩, rfl⟩
    exact ⟨p, inside, free, rfl⟩
  · rintro ⟨p, inside, free, rfl⟩
    exact ⟨p, ⟨inside, free⟩, rfl⟩

namespace Inv

theorem block (inv : Inv s live as t) {p : Nat × Block} (member : p ∈ layouts as) : BlockOk s p.1 p.2 := by
  obtain ⟨a, inside, here⟩ := mem_layouts.mp member
  exact (inv.arenas a inside).tiled p here

/-- A block is smaller than what an `int` holds. -/
theorem size_lt (inv : Inv s live as t) {p : Nat × Block} (member : p ∈ layouts as) : p.2.size < 2 ^ 31 := by
  have bound := size_le_length member
  rw [← inv.arenasize] at bound
  have limit := inv.limit
  have small := inv.small
  omega

theorem treeOk (inv : Inv s live as t) : TreeOk s t := by
  have addrs : t.addrs.Perm ((freeOf (layouts as)).map Prod.fst) := by
    simpa only [RingTree.map_fst_entries] using inv.free.map Prod.fst
  refine ⟨inv.rep, inv.root, inv.ordered, ?_, fun e member => ?_, ?_⟩
  · rw [addrs.nodup_iff]
    exact (layouts_nodup inv.arenas inv.disjoint).sublist (map_fst_freeOf _)
  · obtain ⟨p, inside, _, rfl⟩ := mem_freeOf.mp (inv.free.mem_iff.mp member)
    exact (inv.block inside).size
  · rw [addrs.length_eq, State.fuel, inv.arenasize]
    have fewer := (map_fst_freeOf (layouts as)).length_le
    rw [List.length_map (Prod.fst : Nat × Block → Nat)] at fewer
    exact fewer.trans (length_layouts inv.arenas)

/-- An address in the tree is that of a free block. -/
theorem mem_addrs (inv : Inv s live as t) {x : Nat} (member : x ∈ t.addrs) :
    ∃ p ∈ layouts as, p.2.free = true ∧ p.1 = x := by
  rw [← t.map_fst_entries] at member
  obtain ⟨e, inside, rfl⟩ := List.mem_map.mp member
  obtain ⟨p, here, free, rfl⟩ := mem_freeOf.mp (inv.free.mem_iff.mp inside)
  exact ⟨p, here, free, rfl⟩

end Inv

/-- What no operation inside one arena changes: everything outside the stretch of
`len` bytes at `b`, and the pool's limits and arenas. -/
structure Within (b len : Nat) (s s' : State) : Prop where
  outside : ∀ x, x < b ∨ b + len ≤ x → s'.magic x = s.magic x ∧ s'.size x = s.size x
  tails : ∀ e, e ≤ b ∨ b + len < e → s'.tail e = s.tail e
  csize : s'.csize = s.csize
  clink : s'.clink = s.clink
  chain : s'.pool.chain = s.pool.chain
  arenasize : s'.pool.arenasize = s.pool.arenasize
  maxsize : s'.pool.maxsize = s.pool.maxsize
  chunk : s'.pool.chunk = s.pool.chunk
  mapped : s'.mapped = s.mapped

theorem Chained.congr {head : Option Nat} (chained : Chained s head as) (clink : ∀ a ∈ as, s'.clink a.base = s.clink a.base) :
    Chained s' head as := by
  induction as generalizing head with
  | nil => exact chained
  | cons a as ih =>
    refine ⟨chained.1, ?_⟩
    rw [clink a List.mem_cons_self]
    exact ih chained.2 fun a' m => clink a' (List.mem_cons_of_mem a m)

theorem Chained.same_bases {head : Option Nat} {as as' : List Arena} (chained : Chained s head as)
    (bases : as'.map Arena.base = as.map Arena.base) : Chained s head as' := by
  induction as generalizing head as' with
  | nil =>
    cases as' with
    | nil => exact chained
    | cons => nomatch bases
  | cons a as ih =>
    cases as' with
    | nil => nomatch bases
    | cons a' as' =>
      obtain ⟨same, rest⟩ := List.cons.inj bases
      refine ⟨by rw [same]; exact chained.1, ?_⟩
      rw [same]
      exact ih chained.2 rest

section

variable {base : Nat} {pre mid mid' post : List Block}

theorem Inv.rewrite (inv : Inv s live (xs ++ ⟨base, pre ++ mid ++ post⟩ :: ys) t)
    (within : Within (base + (quanta + 1) + total pre) (total mid) s s') (size : total mid' = total mid)
    (pos : 0 < total mid) (fresh : ∀ p ∈ layout (base + (quanta + 1) + total pre) mid', BlockOk s' p.1 p.2)
    (apart : (pre ++ mid' ++ post).IsChain Apart) (tree : TreeOk s' t')
    (free : ∀ R, t.entries.Perm (freeOf (layout (base + (quanta + 1) + total pre) mid) ++ R) →
      t'.entries.Perm (freeOf (layout (base + (quanta + 1) + total pre) mid') ++ R))
    (used : ∀ R, live.Perm (usedOf (layout (base + (quanta + 1) + total pre) mid) ++ R) →
      live'.Perm (usedOf (layout (base + (quanta + 1) + total pre) mid') ++ R))
    (cursize : s'.pool.cursize + usedSum (layout (base + (quanta + 1) + total pre) mid) =
      s.pool.cursize + usedSum (layout (base + (quanta + 1) + total pre) mid')) :
    Inv s' live' (xs ++ ⟨base, pre ++ mid' ++ post⟩ :: ys) t' := by
  have before := layouts_split xs ys base pre mid post
  have after := layouts_split xs ys base pre mid' post
  rw [size] at after
  have sameStop : (Arena.mk base (pre ++ mid' ++ post)).stop = (Arena.mk base (pre ++ mid ++ post)).stop := by
    simp only [Arena.stop, Arena.limit, Arena.csize, total_append, size]
  have sameLength : (Arena.mk base (pre ++ mid' ++ post)).length = (Arena.mk base (pre ++ mid ++ post)).length := by
    simp only [Arena.length, Arena.csize, total_append, size]
  have here : (Arena.mk base (pre ++ mid ++ post)) ∈ xs ++ ⟨base, pre ++ mid ++ post⟩ :: ys := by simp
  have bounds : base + (quanta + 1) + total pre + total mid ≤ (Arena.mk base (pre ++ mid ++ post)).limit := by
    simp only [Arena.limit, Arena.csize, total_append]
    omega
  obtain ⟨orderX, orderY, orderXY⟩ := List.pairwise_append.mp inv.disjoint
  obtain ⟨orderA, orderY⟩ := List.pairwise_cons.mp orderY
  -- the other arenas lie outside
  have others : ∀ a, (a.stop ≤ base ∨ (Arena.mk base (pre ++ mid ++ post)).stop ≤ a.base) → ArenaOk s a → ArenaOk s' a := by
    intro a away ok
    refine ok.congr fun x low high => ?_
    have far : x < base + (quanta + 1) + total pre ∨ base + (quanta + 1) + total pre + total mid < x := by
      simp only [Arena.stop, quanta] at away bounds high ⊢
      omega
    exact ⟨(within.outside x (far.imp_right Nat.le_of_lt)).1, (within.outside x (far.imp_right Nat.le_of_lt)).2,
      by rw [within.csize], by rw [within.clink], within.tails x (far.imp_left Nat.le_of_lt)⟩
  refine ⟨?_, fun a member => ?_, ?_, tree.rep, tree.root, tree.ordered, ?_, ?_, ?_, ?_, ?_, fun a member => ?_, ?_, ?_, ?_⟩
  · rw [within.chain]
    exact (inv.chained.congr fun a _ => by rw [within.clink]).same_bases (by simp)
  · simp only [List.mem_append, List.mem_cons] at member
    rcases member with early | rfl | late
    · exact others a (orderXY a early _ List.mem_cons_self) (inv.arenas a (List.mem_append_left _ early))
    · exact (inv.arenas _ here).replace size pos fresh apart within.outside within.csize within.tails
    · exact others a (orderA a late).symm (inv.arenas a (List.mem_append_right _ (List.mem_cons_of_mem _ late)))
  · refine List.pairwise_append.mpr ⟨orderX, List.pairwise_cons.mpr ⟨fun a m => ?_, orderY⟩, fun a m a' m' => ?_⟩
    · rw [sameStop]
      exact orderA a m
    · rcases List.mem_cons.mp m' with rfl | late
      · rw [sameStop]
        exact orderXY a m _ List.mem_cons_self
      · exact orderXY a m a' (List.mem_cons_of_mem _ late)
  · have old := inv.free.trans ((before.filter _).map _)
    rw [List.filter_append, List.map_append] at old
    refine (free _ old).trans ?_
    have new : (freeOf (layouts (xs ++ ⟨base, pre ++ mid' ++ post⟩ :: ys))).Perm _ := (after.filter _).map _
    rw [List.filter_append, List.map_append] at new
    exact new.symm
  · have old := inv.used.trans ((before.filter _).map _)
    rw [List.filter_append, List.map_append] at old
    refine (used _ old).trans ?_
    have new : (usedOf (layouts (xs ++ ⟨base, pre ++ mid' ++ post⟩ :: ys))).Perm _ := (after.filter _).map _
    rw [List.filter_append, List.map_append] at new
    exact new.symm
  · have old : usedSum (layouts (xs ++ ⟨base, pre ++ mid ++ post⟩ :: ys)) = _ := ((before.filter _).map _).sum_nat
    have new : usedSum (layouts (xs ++ ⟨base, pre ++ mid' ++ post⟩ :: ys)) = _ := ((after.filter _).map _).sum_nat
    rw [List.filter_append, List.map_append, List.sum_append] at old new
    have was := inv.cursize
    rw [new]
    rw [old] at was
    simp only [usedSum] at cursize ⊢
    omega
  · rw [within.arenasize, inv.arenasize]
    simp only [List.map_append, List.map_cons, sameLength]
  · rw [within.arenasize, within.mapped]
    exact inv.obtained
  · intro x low high
    rw [within.mapped]
    simp only [List.mem_append, List.mem_cons] at member
    rcases member with early | rfl | late
    · exact inv.inside a (List.mem_append_left _ early) x low high
    · rw [sameStop] at high
      exact inv.inside _ here x low high
    · exact inv.inside a (List.mem_append_right _ (List.mem_cons_of_mem _ late)) x low high
  · rw [within.arenasize, within.maxsize]
    exact inv.limit
  · rw [within.maxsize]
    exact inv.small
  · rw [within.chunk]
    exact inv.chunk

end

end Inferno.Pool
