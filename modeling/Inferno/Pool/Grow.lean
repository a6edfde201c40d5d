import Inferno.Pool.Poolalloc

namespace Inferno.Pool

open Inferno.Lib

variable {s s' : State} {t t' : RingTree Nat} {T n size ns : Nat} {live live' : List Nat} {as : List Arena}
  {blocks : List Block}

/-- The system gives memory that is not in use. -/
def Unmapped (s : State) (T n : Nat) : Prop :=
  ∀ x, T ≤ x → x < T + n → ∀ m ∈ s.mapped, ¬ (m.1 ≤ x ∧ x < m.1 + m.2)

/-- A chunk lies apart from the arenas. -/
theorem Inv.apart (inv : Inv s live as t) (unmapped : Unmapped s T n) (pos : 0 < n) {a : Arena} (member : a ∈ as) :
    a.stop ≤ T ∨ T + n ≤ a.base := by
  by_contra overlap
  have low : a.base < T + n := by omega
  have high : T < a.stop := by omega
  have length : a.base < a.stop := by
    simp only [Arena.stop, Arena.limit, Arena.csize, quanta]
    omega
  have inside := inv.inside a member (max a.base T) (by omega) (by omega)
  obtain ⟨m, inMapped, bounds⟩ := inside
  exact unmapped (max a.base T) (by omega) (by omega) m inMapped bounds

/-- An arena is put before the others. -/
theorem Inv.add_arena (inv : Inv s live as t) (unmapped : Unmapped s T (Arena.mk T blocks).length)
    (outside : ∀ x, x < T ∨ T + (Arena.mk T blocks).length ≤ x → SameAt s s' x)
    (arena : ArenaOk s' ⟨T, blocks⟩) (clink : s'.clink T = s.pool.chain) (chain : s'.pool.chain = some T)
    (arenasize : s'.pool.arenasize = s.pool.arenasize + (Arena.mk T blocks).length)
    (mapped : s'.mapped = (T, (Arena.mk T blocks).length) :: s.mapped)
    (maxsize : s'.pool.maxsize = s.pool.maxsize) (chunk : s'.pool.chunk = s.pool.chunk)
    (limit : s.pool.arenasize + (Arena.mk T blocks).length ≤ s.pool.maxsize) (tree : TreeOk s' t')
    (free : t'.entries.Perm (freeOf (layout (T + (quanta + 1)) blocks) ++ t.entries))
    (used : live'.Perm (usedOf (layout (T + (quanta + 1)) blocks) ++ live))
    (cursize : s'.pool.cursize = usedSum (layout (T + (quanta + 1)) blocks) + s.pool.cursize) :
    Inv s' live' (⟨T, blocks⟩ :: as) t' := by
  have stop : (Arena.mk T blocks).stop = T + (Arena.mk T blocks).length := by
    simp only [Arena.stop, Arena.limit, Arena.length]
    omega
  have pos : 0 < (Arena.mk T blocks).length := by
    simp only [Arena.length, quanta]
    omega
  have away : ∀ a ∈ as, ∀ x, a.base ≤ x → x < a.stop → SameAt s s' x := by
    intro a member x low high
    have apart := inv.apart unmapped pos member
    exact outside x (by omega)
  have bases : ∀ a ∈ as, SameAt s s' a.base := fun a member =>
    away a member a.base (le_refl _) (by simp only [Arena.stop, Arena.limit, Arena.csize, quanta]; omega)
  refine ⟨⟨chain, ?_⟩, fun a member => ?_, List.pairwise_cons.mpr ⟨fun a member => ?_, inv.disjoint⟩, tree.rep, tree.root,
    tree.ordered, ?_, ?_, ?_, ?_, ?_, fun a member x low high => ?_, ?_, ?_, ?_⟩
  · rw [clink]
    exact inv.chained.congr fun a member => (bases a member).clink
  · rcases List.mem_cons.mp member with rfl | old
    · exact arena
    · exact (inv.arenas a old).congr (away a old)
  · rw [stop]
    exact (inv.apart unmapped pos member).symm
  · rw [layouts, List.flatMap_cons, freeOf_append]
    exact free.trans (List.Perm.append_left _ inv.free)
  · rw [layouts, List.flatMap_cons, usedOf_append]
    exact used.trans (List.Perm.append_left _ inv.used)
  · rw [layouts, List.flatMap_cons, usedSum_append, cursize, inv.cursize]
    rfl
  · rw [arenasize, List.map_cons, List.sum_cons, inv.arenasize, Nat.add_comm]
  · rw [arenasize, mapped, List.map_cons, List.sum_cons, inv.obtained, Nat.add_comm]
  · rw [mapped]
    rcases List.mem_cons.mp member with rfl | old
    · rw [stop] at high
      exact ⟨_, List.mem_cons_self, low, high⟩
    · obtain ⟨m, inMapped, bounds⟩ := inv.inside a old x low high
      exact ⟨m, List.mem_cons_of_mem _ inMapped, bounds⟩
  · rw [arenasize, maxsize]
    exact limit
  · rw [maxsize]
    exact inv.small
  · rw [chunk]
    exact inv.chunk

/-- The counters that no clause of the invariant mentions. -/
theorem Inv.counters (inv : Inv s live as t) (p : Pool) (chain : p.chain = s.pool.chain) (root : p.root = s.pool.root)
    (cursize : p.cursize = s.pool.cursize) (arenasize : p.arenasize = s.pool.arenasize)
    (maxsize : p.maxsize = s.pool.maxsize) (chunk : p.chunk = s.pool.chunk) : Inv { s with pool := p } live as t where
  chained := by
    dsimp only
    rw [chain]
    exact inv.chained.congr fun _ _ => rfl
  arenas a member := (inv.arenas a member).congr fun _ _ _ => ⟨rfl, rfl, rfl, rfl, rfl⟩
  disjoint := inv.disjoint
  rep := inv.rep
  root := root.trans inv.root
  ordered := inv.ordered
  free := inv.free
  used := inv.used
  cursize := cursize.trans inv.cursize
  arenasize := arenasize.trans inv.arenasize
  obtained := arenasize.trans inv.obtained
  inside := inv.inside
  limit := by
    dsimp only
    rw [arenasize, maxsize]
    exact inv.limit
  small := by
    dsimp only
    rw [maxsize]
    exact inv.small
  chunk := by
    dsimp only
    rw [chunk]
    exact inv.chunk

/-- No block of the tree is in a chunk. -/
theorem Inv.outside (inv : Inv s live as t) (unmapped : Unmapped s T n) (pos : 0 < n) {x : Nat} (member : x ∈ t.addrs) :
    x < T ∨ T + n ≤ x := by
  obtain ⟨p, inside, _, rfl⟩ := inv.mem_addrs member
  obtain ⟨a, inA, here⟩ := mem_layouts.mp inside
  have bounds := Arena.bounds here
  have positive := ((inv.arenas a inA).tiled p here).pos
  have apart := inv.apart unmapped pos inA
  simp only [Arena.stop, quanta] at apart bounds
  omega

/-- What the system has given is counted before it is used. -/
def State.obtained (s : State) (T alloc : Nat) : State :=
  { s with
    pool.arenasize := s.pool.arenasize + alloc
    pool.nbrk := s.pool.nbrk + 1
    mapped := (T, alloc) :: s.mapped }

theorem update_far {β : Type} {f : Nat → β} {a x : Nat} {v : β} (far : x ≠ a) : Function.update f a v x = f x :=
  Function.update_of_ne far v f

/-- The blocks of a new arena. -/
def carved (size ns : Nat) : List Block := Block.mk size false :: if size < ns then [Block.mk (ns - size) true] else []

theorem total_carved (fits : size ≤ ns) : total (carved size ns) = ns := by
  rw [carved]
  split <;> simp only [total_cons, total_nil] <;> omega

/-- What `newArena` writes in a chunk of `ns` bytes. -/
structure Fresh (s s' : State) (T ns size : Nat) : Prop where
  leader : s'.magic T = magicE ∧ s'.size T = quanta + 1 ∧ s'.csize T = ns + (quanta + 1) ∧ s'.clink T = s.pool.chain ∧
    s'.tail (T + (quanta + 1)) = T
  first : BlockOk s' (T + (quanta + 1)) ⟨size, false⟩
  rest : size < ns → BlockOk s' (T + (quanta + 1) + size) ⟨ns - size, true⟩
  limit : s'.magic (T + (quanta + 1) + ns) = magicE
  outside : ∀ x, x < T ∨ T + (ns + (quanta + 1) + (quanta + 1)) ≤ x → SameAt s s' x

theorem Fresh.arenaOk (fresh : Fresh s s' T ns size) (fits : size ≤ ns) : ArenaOk s' ⟨T, carved size ns⟩ := by
  obtain ⟨magic, own, csize, _, tail⟩ := fresh.leader
  refine ⟨magic, own, ?_, tail, fun p member => ?_, ?_, ?_⟩
  · rw [csize, Arena.csize, total_carved fits, Nat.add_comm]
  · simp only [Arena.layout, carved, layout, List.mem_cons] at member
    rcases member with rfl | rest
    · exact fresh.first
    · split at rest
      · rename_i less
        rw [layout, layout, List.mem_singleton] at rest
        subst rest
        exact fresh.rest less
      · cases rest
  · dsimp only [carved]
    split
    · exact List.isChain_cons_cons.mpr ⟨fun both => (by cases both.1), .singleton _⟩
    · exact .singleton _
  · rw [Arena.limit, Arena.csize, total_carved fits, ← Nat.add_assoc]
    exact fresh.limit

theorem newArena_whole (s : State) (pos : 0 < size) (quantum : quanta + 1 ∣ size) :
    ∃ s', s.newArena T size size = some (some (T + (quanta + 1) + dataOffset), s') ∧ Fresh s s' T size size ∧
      s'.links = s.links ∧ s'.mapped = s.mapped ∧ ∃ hw,
      s'.pool = { s.pool with chain := some T, cursize := s.pool.cursize + size, hw } := by
  have sizeFirst : (s.leader T size size).size (T + (quanta + 1)) = size := Function.update_self _ _ _
  let s' := ((s.leader T size size).setMagic (T + (quanta + 1) + size) magicE).charge size
  have ran : s.newArena T size size = some (some (T + (quanta + 1) + dataOffset), s') := by
    simp only [State.newArena, Nat.sub_self, gt_iff_lt, Nat.lt_irrefl, if_false, Option.bind_eq_bind, Option.bind_some,
      sizeFirst]
    simp only [State.setMagic, sizeFirst]
    rfl
  refine ⟨s', ran, ⟨⟨?_, ?_, ?_, ?_, ?_⟩, ⟨?_, ?_, ?_, quantum, pos⟩, fun less => (Nat.lt_irrefl _ less).elim, ?_,
    fun x far => ?_⟩, rfl, rfl, _, rfl⟩
  case refine_10 =>
    simp only [quanta] at far
    constructor <;> simp (disch := omega) only [State.charge, State.setMagic, State.leader, State.setSize, update_far, quanta, s']
  all_goals
    simp (disch := omega) only [State.charge, State.setMagic, State.leader, State.setSize, update_far, Function.update_self,
      quanta, s', Bool.false_eq_true, if_false]

/-- The rest of the chunk is a free block. -/
theorem newArena_split (s : State) (pos : 0 < size) (quantum : quanta + 1 ∣ size) (less : size < ns)
    (quantum' : quanta + 1 ∣ ns) {root : Option Nat} {links : Links Nat}
    (added : ((s.leader T ns size).setSize (T + (quanta + 1) + size) (ns - size)).pooladd (T + (quanta + 1) + size) =
      some { ((s.leader T ns size).setSize (T + (quanta + 1) + size) (ns - size)).setMagic (T + (quanta + 1) + size) magicF
        with pool.root := root, links }) :
    ∃ s', s.newArena T ns size = some (some (T + (quanta + 1) + dataOffset), s') ∧ Fresh s s' T ns size ∧
      s'.links = links ∧ s'.size = ((s.leader T ns size).setSize (T + (quanta + 1) + size) (ns - size)).size ∧
      s'.mapped = s.mapped ∧ ∃ hw, s'.pool = { s.pool with root, chain := some T, cursize := s.pool.cursize + size, hw } := by
  have sizeRest : ((s.leader T ns size).setSize (T + (quanta + 1) + size) (ns - size)).size (T + (quanta + 1) + size) =
      ns - size := Function.update_self _ _ _
  have sizeFirst : ((s.leader T ns size).setSize (T + (quanta + 1) + size) (ns - size)).size (T + (quanta + 1)) = size := by
    simp (disch := omega) only [State.leader, State.setSize, update_far, Function.update_self]
  let s' := ({ ((s.leader T ns size).setSize (T + (quanta + 1) + size) (ns - size)).setMagic (T + (quanta + 1) + size) magicF
      with pool.root := root, links }.setMagic (T + (quanta + 1) + ns) magicE).charge size
  have ran : s.newArena T ns size = some (some (T + (quanta + 1) + dataOffset), s') := by
    have rest : 0 < ns - size := by omega
    have end_ : T + (quanta + 1) + size + (ns - size) = T + (quanta + 1) + ns := by omega
    simp only [State.newArena, gt_iff_lt, rest, if_true, added, Option.bind_eq_bind, Option.bind_some]
    simp only [State.setMagic, sizeRest, sizeFirst, end_]
    rfl
  refine ⟨s', ran, ⟨⟨?_, ?_, ?_, ?_, ?_⟩, ⟨?_, ?_, ?_, quantum, pos⟩,
    fun _ => ⟨?_, ?_, ?_, Nat.dvd_sub quantum' quantum, by dsimp only; omega⟩, ?_, fun x far => ?_⟩, rfl, rfl, rfl, _, rfl⟩
  case refine_13 =>
    simp only [quanta] at far
    constructor <;> simp (disch := omega) only [State.charge, State.setMagic, State.leader, State.setSize, update_far, quanta, s']
  all_goals
    simp (disch := omega) only [State.charge, State.setMagic, State.leader, State.setSize, update_far, Function.update_self,
      quanta, s', Bool.false_eq_true, if_false, if_true]

/-- A new arena keeps the invariant. -/
theorem Inv.newArena (inv : Inv s live as t) (unmapped : Unmapped s T (ns + (quanta + 1) + (quanta + 1)))
    (pos : 0 < size) (quantum : quanta + 1 ∣ size) (fits : size ≤ ns) (quantum' : quanta + 1 ∣ ns)
    (limit : s.pool.arenasize + (ns + (quanta + 1) + (quanta + 1)) ≤ s.pool.maxsize) :
    ∃ s' t', (s.obtained T (ns + (quanta + 1) + (quanta + 1))).newArena T ns size =
        some (some (T + (quanta + 1) + dataOffset), s') ∧
      Inv s' ((T + (quanta + 1) + dataOffset) :: live) (⟨T, carved size ns⟩ :: as) t' := by
  have length : (Arena.mk T (carved size ns)).length = ns + (quanta + 1) + (quanta + 1) := by
    simp only [Arena.length, Arena.csize, total_carved fits]
    omega
  have positive : 0 < ns + (quanta + 1) + (quanta + 1) := by omega
  have finish : ∀ s' t', Fresh (s.obtained T (ns + (quanta + 1) + (quanta + 1))) s' T ns size → TreeOk s' t' →
      t'.entries.Perm (freeOf (layout (T + (quanta + 1)) (carved size ns)) ++ t.entries) →
      s'.mapped = (T, ns + (quanta + 1) + (quanta + 1)) :: s.mapped →
      (∃ root hw, s'.pool = { (s.obtained T (ns + (quanta + 1) + (quanta + 1))).pool with
        root, chain := some T, cursize := s.pool.cursize + size, hw }) →
      Inv s' ((T + (quanta + 1) + dataOffset) :: live) (⟨T, carved size ns⟩ :: as) t' := by
    rintro s' t' fresh tree free mapped ⟨root, hw, pool⟩
    rw [← length] at unmapped limit mapped
    refine inv.add_arena unmapped (fun x far => ?_) (fresh.arenaOk fits) fresh.leader.2.2.2.1 ?_ ?_ mapped ?_ ?_ limit tree free
      ?_ ?_
    · rw [length] at far
      have same := fresh.outside x far
      exact ⟨same.magic, same.size, same.csize, same.clink, same.tail⟩
    · rw [pool]
    · rw [pool, length]
      rfl
    · rw [pool]
      rfl
    · rw [pool]
      rfl
    · have used : usedOf (layout (T + (quanta + 1)) (carved size ns)) = [T + (quanta + 1) + dataOffset] := by
        rw [carved, layout]
        split <;> rfl
      rw [used]
      exact .refl _
    · have used : usedSum (layout (T + (quanta + 1)) (carved size ns)) = size := by
        rw [carved, layout]
        split <;> rfl
      rw [used, pool]
      exact Nat.add_comm _ _
  have away : ∀ x ∈ t.addrs, x < T ∨ T + (ns + (quanta + 1) + (quanta + 1)) ≤ x := fun x member =>
    inv.outside unmapped positive member
  rcases Nat.eq_or_lt_of_le fits with rfl | less
  · obtain ⟨s', ran, fresh, links, mapped, hw, pool⟩ :=
      newArena_whole (T := T) (s.obtained T (size + (quanta + 1) + (quanta + 1))) pos quantum
    have tree : TreeOk s' t := by
      refine inv.treeOk.congr links (by rw [pool]; rfl) (fun x member => (fresh.outside x (away x member)).size) ?_
      rw [State.fuel, State.fuel, pool]
      exact Nat.le_add_right _ _
    refine ⟨s', t, ran, finish s' t fresh tree ?_ mapped ⟨_, hw, pool⟩⟩
    rw [carved, if_neg (Nat.lt_irrefl _)]
    exact .refl _
  · let s₀ := s.obtained T (ns + (quanta + 1) + (quanta + 1))
    let s₁ := (s₀.leader T ns size).setSize (T + (quanta + 1) + size) (ns - size)
    have sizeRest : s₁.size (T + (quanta + 1) + size) = ns - size := Function.update_self _ _ _
    have ok₁ : TreeOk s₁ t := by
      refine inv.treeOk.congr rfl rfl (fun x member => ?_) (Nat.le_add_right _ _)
      have far := away x member
      simp only [quanta] at far
      simp (disch := omega) only [s₁, s₀, State.leader, State.setSize, State.setMagic, State.obtained, update_far, quanta]
    have notRest : T + (quanta + 1) + size ∉ t.addrs := by
      intro member
      have far := away _ member
      omega
    have small : s₁.size (T + (quanta + 1) + size) < 2 ^ 31 := by
      rw [sizeRest]
      have bound := inv.small
      omega
    have room : t.addrs.length < s₁.fuel := by
      have fits := inv.treeOk.fits
      have more : s₁.fuel = s.fuel + (ns + (quanta + 1) + (quanta + 1)) := rfl
      omega
    obtain ⟨root, links, t', added, ok', perm⟩ := pooladd_spec ok₁ notRest small room
    obtain ⟨s', ran, fresh, links', sizes, mapped, hw, pool⟩ := newArena_split s₀ pos quantum less quantum' added
    have tree : TreeOk s' t' := by
      refine ok'.congr links' (by rw [pool]) (fun x member => ?_) ?_
      · rw [sizes]
        rfl
      · rw [State.fuel, State.fuel, pool]
        exact le_refl _
    refine ⟨s', t', ran, finish s' t' fresh tree ?_ mapped ⟨root, hw, pool⟩⟩
    rw [carved, if_pos less]
    rw [sizeRest] at perm
    simpa [layout, freeOf] using perm

section

variable {base alloc : Nat}

theorem ArenaOk.extend (ok : ArenaOk s ⟨base, blocks⟩) (pos : 0 < alloc) (quantum : quanta + 1 ∣ alloc) :
    ArenaOk (s.extend base (Arena.mk base blocks).limit alloc) ⟨base, blocks ++ [Block.mk alloc false]⟩ := by
  have low : base < (Arena.mk base blocks).limit := by
    simp only [Arena.limit, Arena.csize, quanta]
    omega
  have grown : (Arena.mk base (blocks ++ [Block.mk alloc false])).limit = (Arena.mk base blocks).limit + alloc := by
    simp only [Arena.limit, Arena.csize, total_append, total_cons, total_nil]
    omega
  have first : base + (quanta + 1) ≤ (Arena.mk base blocks).limit := by
    simp only [Arena.limit, Arena.csize]
    omega
  refine ⟨?_, ?_, ?_, ?_, fun p member => ?_, ?_, ?_⟩
  · simp (disch := omega) only [State.extend, State.setMagic, State.setSize, update_far]
    exact ok.leader
  · simp (disch := omega) only [State.extend, State.setMagic, State.setSize, update_far]
    exact ok.size
  · have own : s.csize base = quanta + 1 + total blocks := ok.csize
    simp only [State.extend, State.setMagic, State.setSize, Function.update_self, Arena.csize, total_append, total_cons,
      total_nil, own]
    omega
  · simp (disch := omega) only [State.extend, State.setMagic, State.setSize, update_far]
    exact ok.tail
  · rw [Arena.layout, layout_append, List.mem_append] at member
    rcases member with old | new
    · have bounds := Arena.bounds (a := ⟨base, blocks⟩) old
      have block := ok.tiled p old
      have positive := block.pos
      refine ⟨?_, ?_, ?_, block.quantum, positive⟩
      all_goals simp (disch := omega) only [State.extend, State.setMagic, State.setSize, update_far]
      · exact block.size
      · exact block.magic
      · exact block.tail
    · rw [layout, layout, List.mem_singleton] at new
      have at_ : base + (quanta + 1) + total blocks = (Arena.mk base blocks).limit := by
        simp only [Arena.limit, Arena.csize]
        omega
      subst new
      dsimp only
      rw [at_]
      refine ⟨?_, ?_, ?_, quantum, pos⟩ <;>
        simp (disch := omega) only [State.extend, State.setMagic, State.setSize, update_far, Function.update_self,
          Bool.false_eq_true, if_false]
  · refine List.isChain_append.mpr ⟨ok.apart, .singleton _, fun x _ y m' both => ?_⟩
    cases m'
    cases both.2
  · rw [grown]
    exact Function.update_self _ _ _

theorem extend_outside (s : State) {base limit alloc x : Nat} (notBase : x ≠ base) (notLimit : x ≠ limit) (notEnd : x ≠ limit + alloc) :
    SameAt s (s.extend base limit alloc) x := by
  constructor <;> simp (disch := assumption) only [State.extend, State.setMagic, State.setSize, update_far]

/-- The head of the chain grows by a chunk that follows it. -/
theorem Inv.extend (inv : Inv s live (⟨base, blocks⟩ :: as) t)
    (unmapped : Unmapped s ((Arena.mk base blocks).limit + (quanta + 1)) alloc) (more : quanta + 1 < alloc)
    (quantum : quanta + 1 ∣ alloc) (limit : s.pool.arenasize + alloc ≤ s.pool.maxsize) :
    Inv ((s.obtained ((Arena.mk base blocks).limit + (quanta + 1)) alloc).extend base (Arena.mk base blocks).limit alloc)
      (((Arena.mk base blocks).limit + dataOffset) :: live) (⟨base, blocks ++ [Block.mk alloc false]⟩ :: as) t := by
  have pos : 0 < alloc := by omega
  have own := inv.arenas ⟨base, blocks⟩ List.mem_cons_self
  obtain ⟨first, rest⟩ := List.pairwise_cons.mp inv.disjoint
  have low : base < (Arena.mk base blocks).limit := by
    simp only [Arena.limit, Arena.csize, quanta]
    omega
  have grownLimit : (Arena.mk base (blocks ++ [Block.mk alloc false])).limit = (Arena.mk base blocks).limit + alloc := by
    simp only [Arena.limit, Arena.csize, total_append, total_cons, total_nil]
    omega
  have grownLength : (Arena.mk base (blocks ++ [Block.mk alloc false])).length = (Arena.mk base blocks).length + alloc := by
    simp only [Arena.length, Arena.csize, total_append, total_cons, total_nil]
    omega
  have grownLayouts : layouts (⟨base, blocks ++ [Block.mk alloc false]⟩ :: as) = layout (base + (quanta + 1)) blocks ++
      ([((Arena.mk base blocks).limit, Block.mk alloc false)] ++ layouts as) := by
    simp only [layouts, List.flatMap_cons, Arena.layout, layout_append, layout, Arena.limit, Arena.csize,
      List.append_assoc, Nat.add_assoc]
  have before : layouts (⟨base, blocks⟩ :: as) = layout (base + (quanta + 1)) blocks ++ layouts as := rfl
  let s₁ := (s.obtained ((Arena.mk base blocks).limit + (quanta + 1)) alloc).extend base (Arena.mk base blocks).limit alloc
  have away : ∀ a ∈ as, a.stop ≤ base ∨ (Arena.mk base blocks).limit + (quanta + 1) + alloc ≤ a.base := by
    intro a member
    have apart := first a member
    have beyond := inv.apart unmapped pos (List.mem_cons_of_mem _ member)
    have length : a.base < a.stop := by
      simp only [Arena.stop, Arena.limit, Arena.csize, quanta]
      omega
    simp only [Arena.stop] at apart beyond length ⊢
    omega
  have others : ∀ a ∈ as, ∀ x, a.base ≤ x → x < a.stop → SameAt s s₁ x := by
    intro a member x above below
    have apart := away a member
    have same : SameAt (s.obtained ((Arena.mk base blocks).limit + (quanta + 1)) alloc) s₁ x :=
      extend_outside _ (by omega) (by omega) (by omega)
    exact ⟨same.magic, same.size, same.csize, same.clink, same.tail⟩
  have head : ArenaOk (s.obtained ((Arena.mk base blocks).limit + (quanta + 1)) alloc) ⟨base, blocks⟩ :=
    own.congr fun _ _ _ => ⟨rfl, rfl, rfl, rfl, rfl⟩
  refine ⟨⟨inv.chained.1, inv.chained.2.congr fun _ _ => rfl⟩, fun a member => ?_,
    List.pairwise_cons.mpr ⟨fun a member => ?_, rest⟩, inv.rep, inv.root, inv.ordered, ?_, ?_, ?_, ?_, ?_,
    fun a member x above below => ?_, limit, inv.small, inv.chunk⟩
  · rcases List.mem_cons.mp member with rfl | old
    · exact head.extend pos quantum
    · exact (inv.arenas a (List.mem_cons_of_mem _ old)).congr (others a old)
  · have apart := away a member
    simp only [Arena.stop, grownLimit] at apart ⊢
    omega
  · rw [grownLayouts, freeOf_append, freeOf_append]
    have free := inv.free
    rw [before, freeOf_append] at free
    exact free
  · rw [grownLayouts, usedOf_append, usedOf_append]
    have used := inv.used
    rw [before, usedOf_append] at used
    exact (used.cons _).trans List.perm_middle.symm
  · rw [grownLayouts, usedSum_append, usedSum_append]
    have cursize := inv.cursize
    rw [before, usedSum_append] at cursize
    have more : s₁.pool.cursize = s.pool.cursize + alloc := rfl
    rw [more, cursize]
    simp only [usedSum, List.filter_cons, List.filter_nil, Bool.not_false, if_true, List.map_cons, List.map_nil, List.sum_cons,
      List.sum_nil]
    omega
  · have arenasize := inv.arenasize
    rw [List.map_cons, List.sum_cons] at arenasize ⊢
    have more : s₁.pool.arenasize = s.pool.arenasize + alloc := rfl
    rw [more, grownLength, arenasize]
    omega
  · have more : s₁.pool.arenasize = s.pool.arenasize + alloc := rfl
    rw [more, inv.obtained]
    exact Nat.add_comm _ _
  · rcases List.mem_cons.mp member with rfl | old
    · by_cases within : x < (Arena.mk base blocks).stop
      · obtain ⟨m, inMapped, bounds⟩ := inv.inside _ List.mem_cons_self x above within
        exact ⟨m, List.mem_cons_of_mem _ inMapped, bounds⟩
      · simp only [Arena.stop, grownLimit] at within below
        have high : x < (Arena.mk base blocks).limit + (quanta + 1) + alloc := by omega
        exact ⟨((Arena.mk base blocks).limit + (quanta + 1), alloc), List.mem_cons_self, Nat.le_of_not_lt within, high⟩
    · obtain ⟨m, inMapped, bounds⟩ := inv.inside a (List.mem_cons_of_mem _ old) x above below
      exact ⟨m, List.mem_cons_of_mem _ inMapped, bounds⟩

end

end Inferno.Pool
