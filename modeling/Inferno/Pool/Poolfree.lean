import Inferno.Pool.Inv

namespace Inferno.Pool

open Inferno.Lib

variable {s s' : State} {t : RingTree Nat} {b c n m : Nat} {live : List Nat} {as xs ys : List Arena} {base : Nat}
  {pre post : List Block} {k : Block}

theorem Within.trans {s'' : State} {b' len len' : Nat} (first : Within b len s s') (next : Within b' len' s' s'')
    (low : b' ≤ b) (high : b + len ≤ b' + len') : Within b' len' s s'' where
  outside x far := by
    have before := first.outside x (by omega)
    have after := next.outside x far
    exact ⟨after.1.trans before.1, after.2.trans before.2⟩
  tails e far := (next.tails e far).trans (first.tails e (by omega))
  csize := next.csize.trans first.csize
  clink := next.clink.trans first.clink
  chain := next.chain.trans first.chain
  arenasize := next.arenasize.trans first.arenasize
  maxsize := next.maxsize.trans first.maxsize
  chunk := next.chunk.trans first.chunk
  mapped := next.mapped.trans first.mapped

/-- A block of `n` bytes is made at `b`, within its own bytes; of the pool only the root changes. -/
structure Made (b n : Nat) (s s' : State) : Prop where
  within : Within b n s s'
  size : s'.size b = n
  tail : s'.tail (b + n) = b
  pool : ∃ root, s'.pool = { s.pool with root }

/-- `b` takes in the free block behind it. -/
theorem joinForward_free (ok : TreeOk s t) (size : s.size b = n) (magic : s.magic (b + n) = magicF)
    (entry : (b + n, m) ∈ t.entries) (posN : 0 < n) (posM : 0 < m) (outside : b ∉ t.addrs) :
    ∃ s' t', s.joinForward b = some s' ∧ TreeOk s' t' ∧ t.entries.Perm ((b + n, m) :: t'.entries) ∧ Made b (n + m) s s' := by
  have sizeC : s.size (b + n) = m := ok.sizes _ entry
  let s₁ : State := { s with ptr := if s.ptr = b + n then b else s.ptr }
  have ok₁ : TreeOk s₁ t := ok.congr rfl rfl (fun _ _ => rfl) (le_refl _)
  obtain ⟨root, links, t', removed, ok₂, perm⟩ := remove_spec ok₁ entry
  have notIn : b ∉ t'.addrs := by
    intro inside
    rw [← t'.map_fst_entries] at inside
    obtain ⟨e, member, rfl⟩ := List.mem_map.mp inside
    apply outside
    rw [← t.map_fst_entries]
    exact List.mem_map_of_mem (perm.mem_iff.mpr (List.mem_cons_of_mem _ member))
  let s₂ : State := ({ s₁ with pool.root := root, links }.setMagic (b + n) 0).setSize b (n + m)
  refine ⟨s₂, t', ?_, ok₂.congr rfl rfl (fun x inside => ?_) (le_refl _), perm, ⟨⟨fun x far => ⟨?_, ?_⟩, fun e far => ?_,
    rfl, rfl, rfl, rfl, rfl, rfl, rfl⟩, ?_, ?_, ⟨root, rfl⟩⟩⟩
  · simp only [State.joinForward, size, if_pos magic]
    rw [removed]
    simp only [Option.bind_eq_bind, Option.bind_some, s₂]
    have same : ({ s₁ with pool.root := root, links }.setMagic (b + n) 0).size = s.size := rfl
    rw [same, size, sizeC]
    rfl
  · have other : x ≠ b := fun same => notIn (same ▸ inside)
    exact Function.update_of_ne other _ _
  · have other : x ≠ b + n := by omega
    exact Function.update_of_ne other _ _
  · have other : x ≠ b := by omega
    exact Function.update_of_ne other _ _
  · have other : e ≠ b + (n + m) := by omega
    exact Function.update_of_ne other _ _
  · exact Function.update_self _ _ _
  · exact Function.update_self _ _ _

/-- `b` becomes part of the free block `c` before it. -/
theorem joinBackward_free (ok : TreeOk s t) (size : s.size (c + m) = n) (tail : s.tail (c + m) = c)
    (magic : s.magic c = magicF) (entry : (c, m) ∈ t.entries) (posN : 0 < n) (posM : 0 < m) :
    ∃ s' t', s.joinBackward (c + m) = some (c, s') ∧ TreeOk s' t' ∧ t.entries.Perm ((c, m) :: t'.entries) ∧
      Made c (m + n) s s' ∧ c ∉ t'.addrs := by
  have sizeC : s.size c = m := ok.sizes _ entry
  let s₁ : State := { s with ptr := if s.ptr = c + m then c else s.ptr }
  have ok₁ : TreeOk s₁ t := ok.congr rfl rfl (fun _ _ => rfl) (le_refl _)
  obtain ⟨root, links, t', removed, ok₂, perm⟩ := remove_spec ok₁ entry
  have notIn : c ∉ t'.addrs := by
    have addrs : t.addrs.Perm (c :: t'.addrs) := by
      simpa only [RingTree.map_fst_entries, List.map_cons] using perm.map Prod.fst
    exact (List.nodup_cons.mp (addrs.nodup_iff.mp ok.nodup)).1
  let s₂ : State := ({ s₁ with pool.root := root, links }.setMagic (c + m) 0).setSize c (m + n)
  refine ⟨s₂, t', ?_, ok₂.congr rfl rfl (fun x inside => ?_) (le_refl _), perm, ⟨⟨fun x far => ⟨?_, ?_⟩, fun e far => ?_,
    rfl, rfl, rfl, rfl, rfl, rfl, rfl⟩, ?_, ?_, ⟨root, rfl⟩⟩, notIn⟩
  · simp only [State.joinBackward, tail, if_pos magic]
    rw [removed]
    simp only [Option.bind_eq_bind, Option.bind_some, s₂]
    have same : ({ s₁ with pool.root := root, links }.setMagic (c + m) 0).size = s.size := rfl
    rw [same, size, sizeC]
    rfl
  · have other : x ≠ c := fun same => notIn (same ▸ inside)
    exact Function.update_of_ne other _ _
  · have other : x ≠ c + m := by omega
    exact Function.update_of_ne other _ _
  · have other : x ≠ c := by omega
    exact Function.update_of_ne other _ _
  · have other : e ≠ c + (m + n) := by omega
    exact Function.update_of_ne other _ _
  · exact Function.update_self _ _ _
  · exact Function.update_self _ _ _

theorem freeOf_all (ks : List Block) (all : ∀ k ∈ ks, k.free = true) :
    usedOf (layout b ks) = [] ∧ usedSum (layout b ks) = 0 := by
  have none : (layout b ks).filter (fun p => !p.2.free) = [] := by
    rw [List.filter_eq_nil_iff]
    intro p member
    have inside : p.2 ∈ ks := by
      rw [← map_snd_layout b ks]
      exact List.mem_map_of_mem member
    simp [all p.2 inside]
  rw [usedOf, usedSum, none]
  exact ⟨rfl, rfl⟩

/-- Among free blocks the one in use. -/
theorem usedOf_middle {bwd fwd : List Block} (used : k.free = false) (bwdFree : ∀ x ∈ bwd, x.free = true)
    (fwdFree : ∀ x ∈ fwd, x.free = true) :
    usedOf (layout b (bwd ++ k :: fwd)) = [b + total bwd + dataOffset] ∧
      usedSum (layout b (bwd ++ k :: fwd)) = k.size := by
  rw [layout_append, layout, ← List.singleton_append, usedOf_append, usedOf_append, usedSum_append, usedSum_append,
    (freeOf_all bwd bwdFree).1, (freeOf_all bwd bwdFree).2, (freeOf_all fwd fwdFree).1, (freeOf_all fwd fwdFree).2]
  simp [usedOf, usedSum, used]

/-- With a block in use the tree has fewer nodes than its loops may take steps. -/
theorem Inv.room (inv : Inv s live as t) {p : Nat × Block} (member : p ∈ layouts as) (used : p.2.free = false) :
    t.addrs.length < s.fuel := by
  have addrs : t.addrs.length = (freeOf (layouts as)).length := by
    rw [← t.map_fst_entries, List.length_map, inv.free.length_eq]
  have other : ∃ p ∈ layouts as, ¬ (p.2.free = true) := ⟨p, member, by simp [used]⟩
  have fewer : ((layouts as).filter fun p => p.2.free).length < (layouts as).length :=
    List.length_filter_lt_length_iff_exists.mpr other
  have bound := length_layouts inv.arenas
  rw [addrs, freeOf, List.length_map, State.fuel, inv.arenasize]
  omega

theorem Inv.total_lt (inv : Inv s live (xs ++ ⟨base, pre⟩ :: ys) t) : total pre < 2 ^ 31 := by
  have length := inv.arenasize
  simp only [List.map_append, List.map_cons, List.sum_append, List.sum_cons, Arena.length, Arena.csize] at length
  have limit := inv.limit
  have small := inv.small
  omega

theorem dvd_total {ks : List Block} (each : ∀ x ∈ ks, quanta + 1 ∣ x.size) : quanta + 1 ∣ total ks := by
  induction ks with
  | nil => exact Nat.dvd_zero _
  | cons x ks ih =>
    rw [total_cons]
    exact Nat.dvd_add (each x List.mem_cons_self) (ih fun y m => each y (List.mem_cons_of_mem x m))

/-- The joined block is added to the tree. -/
theorem Inv.freed {bwd fwd : List Block} {s₁ : State} {t₁ : RingTree Nat} {live' : List Nat}
    (inv : Inv s live (xs ++ ⟨base, pre ++ (bwd ++ k :: fwd) ++ post⟩ :: ys) t) (used : k.free = false)
    (bwdFree : ∀ x ∈ bwd, x.free = true) (fwdFree : ∀ x ∈ fwd, x.free = true)
    (within : Within (base + (quanta + 1) + total pre) (total (bwd ++ k :: fwd)) s s₁)
    (size : s₁.size (base + (quanta + 1) + total pre) = total (bwd ++ k :: fwd))
    (tail : s₁.tail (base + (quanta + 1) + total pre + total (bwd ++ k :: fwd)) = base + (quanta + 1) + total pre)
    (apart : (pre ++ [Block.mk (total (bwd ++ k :: fwd)) true] ++ post).IsChain Apart)
    (ok : TreeOk s₁ t₁) (fresh : base + (quanta + 1) + total pre ∉ t₁.addrs)
    (entries : t.entries.Perm (freeOf (layout (base + (quanta + 1) + total pre) (bwd ++ k :: fwd)) ++ t₁.entries))
    (gone : live.Perm ((base + (quanta + 1) + total pre + total bwd + dataOffset) :: live'))
    (cursize : s₁.pool.cursize + k.size = s.pool.cursize) :
    ∃ s' t', s₁.pooladd (base + (quanta + 1) + total pre) = some s' ∧
      Inv s' live' (xs ++ ⟨base, pre ++ [Block.mk (total (bwd ++ k :: fwd)) true] ++ post⟩ :: ys) t' ∧
      (base + (quanta + 1) + total pre, total (bwd ++ k :: fwd)) ∈ t'.entries ∧
      ∃ root, s'.pool = { s₁.pool with root } := by
  have around := layouts_split xs ys base pre (bwd ++ k :: fwd) post
  have member : (base + (quanta + 1) + total pre + total bwd, k) ∈
      layouts (xs ++ ⟨base, pre ++ (bwd ++ k :: fwd) ++ post⟩ :: ys) := by
    refine around.mem_iff.mpr (List.mem_append_left _ ?_)
    rw [layout_append]
    exact List.mem_append_right _ List.mem_cons_self
  have posN : 0 < total (bwd ++ k :: fwd) := by
    have posK : 0 < k.size := (inv.block member).pos
    simp only [total_append, total_cons]
    omega
  have small : s₁.size (base + (quanta + 1) + total pre) < 2 ^ 31 := by
    rw [size]
    have bound := inv.total_lt
    simp only [total_append] at bound ⊢
    omega
  have room : t₁.addrs.length < s₁.fuel := by
    have more := inv.room member used
    have length := entries.length_eq
    rw [List.length_append] at length
    have one : t.addrs.length = t.entries.length := by rw [← t.map_fst_entries, List.length_map]
    have two : t₁.addrs.length = t₁.entries.length := by rw [← t₁.map_fst_entries, List.length_map]
    have fuel : s₁.fuel = s.fuel := within.arenasize
    omega
  have quantum : quanta + 1 ∣ total (bwd ++ k :: fwd) := by
    refine dvd_total fun x inBlocks => ?_
    rw [← map_snd_layout (base + (quanta + 1) + total pre) (bwd ++ k :: fwd)] at inBlocks
    obtain ⟨p, here, rfl⟩ := List.mem_map.mp inBlocks
    exact (inv.block (around.mem_iff.mpr (List.mem_append_left _ here))).quantum
  obtain ⟨root, links, t', added, ok', perm⟩ := pooladd_spec ok fresh small room
  rw [size] at perm
  refine ⟨_, t', added, inv.rewrite (within.trans ⟨fun x far => ⟨?_, rfl⟩, fun _ _ => rfl, rfl, rfl, rfl, rfl, rfl, rfl, rfl⟩
    (le_refl _) (le_refl _)) ?_ posN ?_ apart ok' (fun R old => ?_) (fun R old => ?_) ?_, ?_, ⟨root, rfl⟩⟩
  · have other : x ≠ base + (quanta + 1) + total pre := by omega
    exact Function.update_of_ne other _ _
  · simp
  · intro p inside
    rw [layout, layout, List.mem_singleton] at inside
    subst inside
    exact ⟨size, Function.update_self _ _ _, tail, quantum, posN⟩
  · have rest := (List.perm_append_left_iff _).mp (entries.symm.trans old)
    exact perm.trans (rest.cons _)
  · rw [(usedOf_middle used bwdFree fwdFree).1] at old
    exact (List.perm_cons _).mp (gone.symm.trans old)
  · have one := (usedOf_middle (b := base + (quanta + 1) + total pre) used bwdFree fwdFree).2
    rw [one]
    simpa [layout, usedSum, State.setMagic] using cursize
  · exact perm.mem_iff.mpr List.mem_cons_self

/-- Two blocks around a stretch that is not free at its ends. -/
theorem apart_free {pre mid post : List Block} {n : Nat} (chain : (pre ++ mid ++ post).IsChain Apart)
    (before : ∀ x ∈ pre.getLast?, x.free = false) (after : ∀ y ∈ post.head?, y.free = false) :
    (pre ++ [Block.mk n true] ++ post).IsChain Apart := by
  obtain ⟨front, back, _⟩ := List.isChain_append.mp chain
  obtain ⟨first, _, _⟩ := List.isChain_append.mp front
  refine List.isChain_append.mpr ⟨List.isChain_append.mpr ⟨first, .singleton _, fun x m y m' both => ?_⟩, back,
    fun x m y m' both => ?_⟩
  · rw [before x m] at both
    exact nomatch both.1
  · rw [after y m'] at both
    exact nomatch both.2

/-- The neighbours of a free block are not free. -/
theorem apart_next (chain : (k :: post).IsChain Apart) (free : k.free = true) : ∀ y ∈ post.head?, y.free = false := by
  intro y member
  cases same : y.free with
  | false => rfl
  | true => exact absurd ⟨free, same⟩ ((List.isChain_cons.mp chain).1 y member)

theorem apart_previous (chain : (pre ++ k :: post).IsChain Apart) (free : k.free = true) :
    ∀ x ∈ pre.getLast?, x.free = false := by
  intro x member
  cases same : x.free with
  | false => rfl
  | true => exact absurd ⟨same, free⟩ ((List.isChain_append.mp chain).2.2 x member k rfl)

section

variable (inv : Inv s live (xs ++ ⟨base, pre ++ k :: post⟩ :: ys) t)
include inv

theorem Inv.mem_here : (base + (quanta + 1) + total pre, k) ∈ layouts (xs ++ ⟨base, pre ++ k :: post⟩ :: ys) := by
  refine mem_layouts.mpr ⟨⟨base, pre ++ k :: post⟩, by simp, ?_⟩
  rw [Arena.layout, layout_append]
  exact List.mem_append_right _ List.mem_cons_self

theorem Inv.arena_here : ArenaOk s ⟨base, pre ++ k :: post⟩ := inv.arenas _ (by simp)

/-- The address of a block in use is not in the tree. -/
theorem Inv.not_in_tree (used : k.free = false) : base + (quanta + 1) + total pre ∉ t.addrs := by
  intro member
  obtain ⟨p, inside, free, same⟩ := inv.mem_addrs member
  have nodup := layouts_nodup inv.arenas inv.disjoint
  have equal : p = (base + (quanta + 1) + total pre, k) :=
    List.inj_on_of_nodup_map nodup inside inv.mem_here same
  rw [equal, used] at free
  exact nomatch free

/-- What `joinForward` finds behind the block and does with it. -/
theorem Inv.forward (s₁ : State) (used : k.free = false) (magic : s₁.magic = s.magic) (size : s₁.size = s.size)
    (tail : s₁.tail = s.tail) (ok : TreeOk s₁ t) :
    ∃ fwd post₂ s₂ t₂, post = fwd ++ post₂ ∧ (∀ x ∈ fwd, x.free = true) ∧ (∀ y ∈ post₂.head?, y.free = false) ∧
      s₁.joinForward (base + (quanta + 1) + total pre) = some s₂ ∧ TreeOk s₂ t₂ ∧
      t.entries.Perm (freeOf (layout (base + (quanta + 1) + total pre + k.size) fwd) ++ t₂.entries) ∧
      Made (base + (quanta + 1) + total pre) (k.size + total fwd) s₁ s₂ := by
  have block := inv.block inv.mem_here
  have sizeB : s₁.size (base + (quanta + 1) + total pre) = k.size := (congrFun size _).trans block.size
  have stay : ∀ m, s₁.magic (base + (quanta + 1) + total pre + k.size) = m → m ≠ magicF →
      s₁.joinForward (base + (quanta + 1) + total pre) = some s₁ ∧
        Made (base + (quanta + 1) + total pre) (k.size + total []) s₁ s₁ := by
    intro m here other
    refine ⟨?_, ⟨fun _ _ => ⟨rfl, rfl⟩, fun _ _ => rfl, rfl, rfl, rfl, rfl, rfl, rfl, rfl⟩, sizeB,
      (congrFun tail _).trans block.tail, ⟨_, rfl⟩⟩
    rw [State.joinForward, sizeB, if_neg (by rw [here]; exact other)]
  cases post with
  | nil =>
    have last : s₁.magic (base + (quanta + 1) + total pre + k.size) = magicE := by
      rw [magic, ← inv.arena_here.limit]
      simp [Arena.limit, Arena.csize, Nat.add_assoc]
    obtain ⟨ran, made⟩ := stay _ last (by decide)
    exact ⟨[], [], s₁, t, rfl, fun _ m => (by cases m), fun _ m => (by cases m), ran, ok, .refl _, made⟩
  | cons k' post =>
    have member : (base + (quanta + 1) + total pre + k.size, k') ∈
        layouts (xs ++ ⟨base, pre ++ k :: k' :: post⟩ :: ys) := by
      have split : pre ++ k :: k' :: post = (pre ++ [k]) ++ k' :: post := by simp
      have found : Inv s live (xs ++ ⟨base, (pre ++ [k]) ++ k' :: post⟩ :: ys) t := split ▸ inv
      have there := found.mem_here
      simpa [Nat.add_assoc] using there
    have next := inv.block member
    have magic' : s₁.magic (base + (quanta + 1) + total pre + k.size) = if k'.free then magicF else magicA :=
      (congrFun magic _).trans next.magic
    cases free : k'.free with
    | false =>
      rw [free] at magic'
      obtain ⟨ran, made⟩ := stay _ magic' (by decide)
      refine ⟨[], k' :: post, s₁, t, rfl, fun _ m => (by cases m), fun y m => ?_, ran, ok, .refl _, made⟩
      cases m
      exact free
    | true =>
      rw [free, if_pos rfl] at magic'
      have entry : (base + (quanta + 1) + total pre + k.size, k'.size) ∈ t.entries :=
        inv.free.mem_iff.mpr (mem_freeOf.mpr ⟨_, member, free, rfl⟩)
      obtain ⟨s₂, t₂, ran, ok₂, perm, made⟩ := joinForward_free ok sizeB magic' entry block.pos next.pos
        (inv.not_in_tree used)
      refine ⟨[k'], post, s₂, t₂, rfl, fun x m => ?_, fun y m => ?_, ran, ok₂, ?_, made⟩
      · rw [List.mem_singleton.mp m]
        exact free
      · exact apart_next (List.isChain_append.mp inv.arena_here.apart).2.1.tail free y m
      · simpa [layout, freeOf, free] using perm

/-- What `joinBackward` finds before the block and does with it. -/
theorem Inv.backward {n : Nat} (s₁ : State) {s₂ : State} {t₂ : RingTree Nat} (used : k.free = false)
    (magic : s₁.magic = s.magic) (tail : s₁.tail = s.tail) (ok : TreeOk s₂ t₂)
    (made : Made (base + (quanta + 1) + total pre) n s₁ s₂) (pos : 0 < n)
    (entries : ∀ e ∈ t.entries, e.1 < base + (quanta + 1) + total pre → e ∈ t₂.entries)
    (sub : ∀ x ∈ t₂.addrs, x ∈ t.addrs) :
    ∃ bwd pre₂ s₃ t₃, pre = pre₂ ++ bwd ∧ (∀ x ∈ bwd, x.free = true) ∧ (∀ x ∈ pre₂.getLast?, x.free = false) ∧
      s₂.joinBackward (base + (quanta + 1) + total pre) = some (base + (quanta + 1) + total pre₂, s₃) ∧ TreeOk s₃ t₃ ∧
      t₂.entries.Perm (freeOf (layout (base + (quanta + 1) + total pre₂) bwd) ++ t₃.entries) ∧
      Made (base + (quanta + 1) + total pre₂) (total bwd + n) s₂ s₃ ∧ base + (quanta + 1) + total pre₂ ∉ t₃.addrs := by
  have sameTail : s₂.tail (base + (quanta + 1) + total pre) = s.tail (base + (quanta + 1) + total pre) :=
    (made.within.tails _ (Or.inl (le_refl _))).trans (congrFun tail _)
  have sameMagic : ∀ x : Nat, x < base + (quanta + 1) + total pre → s₂.magic x = s.magic x :=
    fun x low => (made.within.outside x (Or.inl low)).1.trans (congrFun magic x)
  have stay : ∀ c : Nat, s.tail (base + (quanta + 1) + total pre) = c → c < base + (quanta + 1) + total pre →
      s.magic c ≠ magicF →
      s₂.joinBackward (base + (quanta + 1) + total pre) = some (base + (quanta + 1) + total pre, s₂) := by
    intro c here low other
    rw [State.joinBackward, sameTail, here, if_neg (by rw [sameMagic c low]; exact other)]
  have alone : Made (base + (quanta + 1) + total pre) (total [] + n) s₂ s₂ := by
    rw [total_nil, Nat.zero_add]
    exact ⟨⟨fun _ _ => ⟨rfl, rfl⟩, fun _ _ => rfl, rfl, rfl, rfl, rfl, rfl, rfl, rfl⟩, made.size, made.tail, ⟨_, rfl⟩⟩
  have notIn : base + (quanta + 1) + total pre ∉ t₂.addrs := fun m => inv.not_in_tree used (sub _ m)
  rcases List.eq_nil_or_concat' pre with rfl | ⟨pre₂, d, rfl⟩
  · have ran := stay base (by simpa using inv.arena_here.tail) (by simp only [quanta]; omega)
      (by rw [inv.arena_here.leader]; decide)
    exact ⟨[], [], s₂, t₂, rfl, fun _ m => (by cases m), fun _ m => (by cases m), ran, ok, .refl _, alone, notIn⟩
  · have split : (pre₂ ++ [d]) ++ k :: post = pre₂ ++ d :: k :: post := by simp
    have found : Inv s live (xs ++ ⟨base, pre₂ ++ d :: k :: post⟩ :: ys) t := split ▸ inv
    have block := found.block found.mem_here
    have at_ : base + (quanta + 1) + total (pre₂ ++ [d]) = base + (quanta + 1) + total pre₂ + d.size := by
      simp [Nat.add_assoc]
    have posD : 0 < d.size := block.pos
    have previous : s.tail (base + (quanta + 1) + total (pre₂ ++ [d])) = base + (quanta + 1) + total pre₂ := by
      rw [at_]
      exact block.tail
    have low : base + (quanta + 1) + total pre₂ < base + (quanta + 1) + total (pre₂ ++ [d]) := by omega
    have magicD : s.magic (base + (quanta + 1) + total pre₂) = if d.free then magicF else magicA := block.magic
    cases free : d.free with
    | false =>
      rw [free] at magicD
      have ran := stay _ previous low (by rw [magicD]; decide)
      refine ⟨[], pre₂ ++ [d], s₂, t₂, by simp, fun _ m => (by cases m), fun x m => ?_, ran, ok, .refl _, alone, notIn⟩
      rw [List.getLast?_concat] at m
      cases m
      exact free
    | true =>
      rw [free, if_pos rfl, ← sameMagic _ low] at magicD
      have entry : (base + (quanta + 1) + total pre₂, d.size) ∈ t₂.entries :=
        entries _ (found.free.mem_iff.mpr (mem_freeOf.mpr ⟨_, found.mem_here, free, rfl⟩)) low
      have size : s₂.size (base + (quanta + 1) + total pre₂ + d.size) = n := by
        rw [← at_]
        exact made.size
      have back : s₂.tail (base + (quanta + 1) + total pre₂ + d.size) = base + (quanta + 1) + total pre₂ := by
        rw [← at_]
        exact sameTail.trans previous
      obtain ⟨s₃, t₃, ran, ok₃, perm, made₃, gone⟩ := joinBackward_free ok size back magicD entry pos posD
      rw [← at_] at ran
      refine ⟨[d], pre₂, s₃, t₃, rfl, fun x m => ?_, ?_, ran, ok₃, ?_, ?_, gone⟩
      · rw [List.mem_singleton.mp m]
        exact free
      · exact apart_previous found.arena_here.apart free
      · simpa [layout, freeOf, free] using perm
      · simpa using made₃

end

theorem size_le_usedSum {L : List (Nat × Block)} {p : Nat × Block} (member : p ∈ L) (used : p.2.free = false) :
    p.2.size ≤ usedSum L := by
  obtain ⟨before, after, rfl⟩ := List.append_of_mem member
  rw [← List.singleton_append, usedSum_append, usedSum_append]
  simp only [usedSum, List.filter_cons, used]
  simp only [Bool.not_false, if_true, List.filter_nil, List.map_cons, List.map_nil, List.sum_cons, List.sum_nil]
  omega

theorem mem_usedOf {L : List (Nat × Block)} {v : Nat} (member : v ∈ usedOf L) :
    ∃ p ∈ L, p.2.free = false ∧ v = p.1 + dataOffset := by
  simp only [usedOf, List.mem_map, List.mem_filter] at member
  obtain ⟨p, ⟨inside, used⟩, rfl⟩ := member
  exact ⟨p, inside, by simpa using used, rfl⟩

/-- `poolfree` of a pointer that was given out returns and keeps the invariant. -/
theorem poolfree_spec {v : Nat} (inv : Inv s live as t) (valid : v ∈ live) :
    ∃ s' as' t', s.poolfree v = some s' ∧ Inv s' (live.erase v) as' t' ∧
      (∃ e ∈ t'.entries, s.size (v - dataOffset) ≤ e.2) ∧ s.size (v - dataOffset) ≤ s.pool.cursize ∧
      ∃ root, s'.pool = { s.pool with
        root, nfree := s.pool.nfree + 1, cursize := s.pool.cursize - s.size (v - dataOffset) } := by
  obtain ⟨⟨b, k⟩, inside, used, rfl⟩ := mem_usedOf (inv.used.mem_iff.mp valid)
  have charged := size_le_usedSum inside used
  rw [← inv.cursize] at charged
  obtain ⟨xs, base, pre, post, ys, rfl, at_⟩ := exists_of_mem_layouts inside
  dsimp only at *
  have block := inv.block inside
  subst at_
  have here : base + (quanta + 1) + total pre + dataOffset - dataOffset = base + (quanta + 1) + total pre := by omega
  have sizeB : s.size (base + (quanta + 1) + total pre) = k.size := block.size
  rw [here, sizeB]
  let s₁ : State := { s with pool.nfree := s.pool.nfree + 1, pool.cursize := s.pool.cursize - k.size }
  have ok₁ : TreeOk s₁ t := inv.treeOk.congr rfl rfl (fun _ _ => rfl) (le_refl _)
  obtain ⟨fwd, post₂, s₂, t₂, rfl, fwdFree, after, ran₁, ok₂, perm₂, made₂⟩ := inv.forward s₁ used rfl rfl rfl ok₁
  have pos : 0 < k.size + total fwd := by
    have posK : 0 < k.size := block.pos
    omega
  have keep : ∀ e ∈ t.entries, e.1 < base + (quanta + 1) + total pre → e ∈ t₂.entries := by
    intro e member low
    rcases List.mem_append.mp (perm₂.mem_iff.mp member) with joined | rest
    · obtain ⟨p, inL, _, rfl⟩ := mem_freeOf.mp joined
      have bounds := layout_bounds inL
      dsimp only at low
      omega
    · exact rest
  have sub : ∀ x ∈ t₂.addrs, x ∈ t.addrs := by
    intro x member
    rw [← RingTree.map_fst_entries] at member ⊢
    obtain ⟨e, inT, rfl⟩ := List.mem_map.mp member
    exact List.mem_map_of_mem (perm₂.mem_iff.mpr (List.mem_append_right _ inT))
  obtain ⟨bwd, pre₂, s₃, t₃, rfl, bwdFree, before, ran₂, ok₃, perm₃, made₃, gone⟩ :=
    inv.backward s₁ used rfl rfl ok₂ made₂ pos keep sub
  have whole : (pre₂ ++ bwd) ++ k :: (fwd ++ post₂) = pre₂ ++ (bwd ++ k :: fwd) ++ post₂ := by simp
  have inv' : Inv s live (xs ++ ⟨base, pre₂ ++ (bwd ++ k :: fwd) ++ post₂⟩ :: ys) t := whole ▸ inv
  have length : total bwd + (k.size + total fwd) = total (bwd ++ k :: fwd) := by simp
  rw [length] at made₃
  have w₂ : Within (base + (quanta + 1) + total (pre₂ ++ bwd)) (k.size + total fwd) s s₂ :=
    ⟨made₂.within.outside, made₂.within.tails, made₂.within.csize, made₂.within.clink, made₂.within.chain,
      made₂.within.arenasize, made₂.within.maxsize, made₂.within.chunk, made₂.within.mapped⟩
  have within := w₂.trans made₃.within (by rw [total_append]; omega) (by simp only [total_append, total_cons]; omega)
  obtain ⟨root₂, pool₂⟩ := made₂.pool
  obtain ⟨root₃, pool₃⟩ := made₃.pool
  have cursize : s₃.pool.cursize + k.size = s.pool.cursize := by
    rw [pool₃, pool₂]
    exact Nat.sub_add_cancel charged
  have entries : t.entries.Perm (freeOf (layout (base + (quanta + 1) + total pre₂) (bwd ++ k :: fwd)) ++ t₃.entries) := by
    have middle : freeOf (layout (base + (quanta + 1) + total pre₂) (bwd ++ k :: fwd)) =
        freeOf (layout (base + (quanta + 1) + total pre₂) bwd) ++
          freeOf (layout (base + (quanta + 1) + total (pre₂ ++ bwd) + k.size) fwd) := by
      rw [layout_append, freeOf_append, layout, total_append]
      simp [freeOf, used, Nat.add_assoc]
    rw [middle]
    refine (perm₂.trans (List.Perm.append_left _ perm₃)).trans ?_
    rw [List.append_assoc]
    exact List.perm_append_comm_assoc _ _ _
  have live' : live.Perm ((base + (quanta + 1) + total pre₂ + total bwd + dataOffset) ::
      live.erase (base + (quanta + 1) + total (pre₂ ++ bwd) + dataOffset)) := by
    have taken := List.perm_cons_erase valid
    simpa [Nat.add_assoc] using taken
  have chain := (inv'.arenas ⟨base, pre₂ ++ (bwd ++ k :: fwd) ++ post₂⟩ (by simp)).apart
  obtain ⟨s', t', added, done, entry, root', pool'⟩ := inv'.freed used bwdFree fwdFree within made₃.size made₃.tail
    (apart_free chain before after) ok₃ gone entries live' cursize
  refine ⟨s', _, t', ?_, done, ⟨_, entry, by simp only [total_append, total_cons]; omega⟩, charged, root', ?_⟩
  · have magicB : s.magic (base + (quanta + 1) + total (pre₂ ++ bwd)) = magicA := by
      rw [block.magic, used]
      rfl
    have found : s.d2b (base + (quanta + 1) + total (pre₂ ++ bwd) + dataOffset) =
        some (base + (quanta + 1) + total (pre₂ ++ bwd)) := by
      rw [State.d2b, here, if_pos (Or.inl magicB)]
    simp only [State.poolfree, found, sizeB, Option.bind_eq_bind, Option.bind_some]
    rw [show State.joinForward _ _ = some s₂ from ran₁, Option.bind_some, ran₂, Option.bind_some]
    exact added
  · rw [pool', pool₃, pool₂]

end Inferno.Pool
