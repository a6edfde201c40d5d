import Inferno.Pool.Dopoolalloc

namespace Inferno.Pool

open Inferno.Lib

variable {s s' : State} {t : RingTree Nat} {v : Nat} {live : List Nat} {as : List Arena}

/-- The holder of `v` writes: what `w` has between the header and the tail of its
block. The fields of `u` are in the data. -/
def State.store (s : State) (v : Nat) (w : State) : State :=
  let b := v - dataOffset
  let data {β : Type} (old new : Nat → β) (x : Nat) : β := if b ≤ x ∧ x < b + s.size b then new x else old x
  let inner {β : Type} (old new : Nat → β) (x : Nat) : β := if b < x ∧ x < b + s.size b then new x else old x
  { s with
    links := ⟨data s.links.left w.links.left, data s.links.right w.links.right, data s.links.parent w.links.parent,
      data s.links.prev w.links.prev, data s.links.fwd w.links.fwd⟩
    magic := inner s.magic w.magic
    size := inner s.size w.size
    clink := data s.clink w.clink
    csize := data s.csize w.csize
    tail := inner s.tail w.tail }

/-- A call, with the answers the system gives it, or what happens between calls. -/
inductive Event
  | poolalloc (restricted : Bool) (asize : Nat) (os : List (Option Nat))
  | poolfree (v : Nat)
  | store (v : Nat) (w : State)

/-- A pool and the pointers into it that were given out. -/
structure Sys where
  state : State
  live : List Nat

namespace Event

/-- The pointer a call returns, and what comes of the pool. -/
def exec : Event → Sys → Option (Option Nat × Sys)
  | poolalloc restricted asize os, m => do
    let (r, s) ← State.poolalloc restricted asize (2 * os.length + 2) os m.state
    return (r, ⟨s, r.toList ++ m.live⟩)
  | poolfree v, m => do
    let s ← m.state.poolfree v
    return (none, ⟨s, m.live.erase v⟩)
  | store v w, m => some (none, ⟨m.state.store v w, m.live⟩)

/-- Only blocks that were given out are freed or written to, and the system gives
out memory as it should. -/
def Valid : Event → Sys → Prop
  | poolalloc _ asize os, m => m.state.Mmap asize os
  | poolfree v, m => v ∈ m.live
  | store v _, m => v ∈ m.live

/-- No call runs into a refusal of the system or into a compaction. -/
def Careful : Event → Sys → Prop
  | poolalloc restricted asize os, m => m.state.CarefulAlloc restricted asize os
  | _, _ => True

end Event

/-- A pool of the table, before its first use. -/
structure Sys.Fresh (m : Sys) : Prop where
  root : m.state.pool.root = none
  chain : m.state.pool.chain = none
  cursize : m.state.pool.cursize = 0
  arenasize : m.state.pool.arenasize = 0
  mapped : m.state.mapped = []
  small : m.state.pool.maxsize < 2 ^ 31
  chunk : quanta + 1 ∣ m.state.pool.chunk
  live : m.live = []

theorem Sys.Fresh.sound {m : Sys} (fresh : m.Fresh) : Sound m.state m.live := by
  refine ⟨[], .nil, fresh.chain, fun a member => (nomatch member), .nil, trivial, fresh.root, trivial, .refl _, ?_, fresh.cursize,
    fresh.arenasize, ?_, fun a member => (nomatch member), ?_, fresh.small, fresh.chunk⟩
  · rw [fresh.live]
    exact .refl _
  · rw [fresh.arenasize, fresh.mapped]
    rfl
  · rw [fresh.arenasize]
    exact Nat.zero_le _

theorem layout_apart {b : Nat} {ks : List Block} {p p' : Nat × Block} (member : p ∈ layout b ks) (member' : p' ∈ layout b ks) :
    p = p' ∨ p.1 + p.2.size ≤ p'.1 ∨ p'.1 + p'.2.size ≤ p.1 := by
  induction ks generalizing b with
  | nil => nomatch member
  | cons k ks ih =>
    rcases List.mem_cons.mp member with rfl | later <;> rcases List.mem_cons.mp member' with rfl | later'
    · exact Or.inl rfl
    · exact Or.inr (Or.inl (layout_bounds later').1)
    · exact Or.inr (Or.inr (layout_bounds later).1)
    · exact ih later later'

theorem Inv.arenas_apart (inv : Inv s live as t) {a a' : Arena} (member : a ∈ as) (member' : a' ∈ as) :
    a = a' ∨ a.stop ≤ a'.base ∨ a'.stop ≤ a.base := by
  by_cases same : a = a'
  · exact Or.inl same
  · have : Std.Symm fun a a' : Arena => a.stop ≤ a'.base ∨ a'.stop ≤ a.base := ⟨fun _ _ apart => apart.symm⟩
    exact Or.inr (inv.disjoint.forall member member' same)

/-- Blocks do not overlap. -/
theorem Inv.blocks_apart (inv : Inv s live as t) {p p' : Nat × Block} (member : p ∈ layouts as) (member' : p' ∈ layouts as) :
    p = p' ∨ p.1 + p.2.size ≤ p'.1 ∨ p'.1 + p'.2.size ≤ p.1 := by
  obtain ⟨a, inA, here⟩ := mem_layouts.mp member
  obtain ⟨a', inA', here'⟩ := mem_layouts.mp member'
  rcases inv.arenas_apart inA inA' with rfl | apart
  · exact layout_apart here here'
  · have bounds := Arena.bounds here
    have bounds' := Arena.bounds here'
    simp only [Arena.stop, quanta] at apart bounds bounds'
    omega

/-- Leader and limit of an arena are not inside a block. -/
theorem Inv.edges_outside (inv : Inv s live as t) {a : Arena} (inA : a ∈ as) {p : Nat × Block} (member : p ∈ layouts as) :
    (a.base < p.1 ∨ p.1 + p.2.size ≤ a.base) ∧ (a.base + (quanta + 1) ≤ p.1 ∨ p.1 + p.2.size ≤ a.base + (quanta + 1)) ∧
      (a.limit ≤ p.1 ∨ p.1 + p.2.size ≤ a.limit) := by
  obtain ⟨a', inA', here⟩ := mem_layouts.mp member
  have bounds := Arena.bounds here
  have length : a.base + (quanta + 1) ≤ a.limit := by
    simp only [Arena.limit, Arena.csize]
    omega
  rcases inv.arenas_apart inA inA' with rfl | apart
  · omega
  · simp only [Arena.stop] at apart
    omega

theorem State.store_outside {b x : Nat} (s w : State) (far : x ≤ b ∨ b + s.size b ≤ x) :
    (s.store (b + dataOffset) w).magic x = s.magic x ∧ (s.store (b + dataOffset) w).size x = s.size x ∧
      (s.store (b + dataOffset) w).tail x = s.tail x := by
  have outer : ¬ (b < x ∧ x < b + s.size b) := by omega
  simp [State.store, outer]

/-- A holder that writes to its own block does no harm. -/
theorem Inv.store (inv : Inv s live as t) (valid : v ∈ live) (w : State) : Inv (s.store v w) live as t := by
  obtain ⟨p, inside, used, rfl⟩ := mem_usedOf (inv.used.mem_iff.mp valid)
  have own : s.size p.1 = p.2.size := (inv.block inside).size
  have posP := (inv.block inside).pos
  have edges := fun a (member : a ∈ as) => inv.edges_outside member inside
  rw [← own] at edges
  have leaders : ∀ a ∈ as, (s.store (p.1 + dataOffset) w).csize a.base = s.csize a.base ∧
      (s.store (p.1 + dataOffset) w).clink a.base = s.clink a.base := by
    intro a member
    have far := (edges a member).1
    have outer : ¬ (p.1 ≤ a.base ∧ a.base < p.1 + s.size p.1) := by omega
    simp [State.store, outer]
  have same : ∀ p' ∈ layouts as, BlockOk (s.store (p.1 + dataOffset) w) p'.1 p'.2 := by
    intro p' member
    have block := inv.block member
    have apart := inv.blocks_apart inside member
    have posP' := block.pos
    rw [← own] at apart
    have start : p'.1 ≤ p.1 ∨ p.1 + s.size p.1 ≤ p'.1 := by
      rcases apart with rfl | apart
      · omega
      · omega
    have end_ : p'.1 + p'.2.size ≤ p.1 ∨ p.1 + s.size p.1 ≤ p'.1 + p'.2.size := by
      rcases apart with rfl | apart
      · omega
      · omega
    obtain ⟨magic, size, _⟩ := s.store_outside w start
    obtain ⟨_, _, tail⟩ := s.store_outside w end_
    exact ⟨size.trans block.size, magic.trans block.magic, tail.trans block.tail, block.quantum, posP'⟩
  refine ⟨inv.chained.congr fun a member => (leaders a member).2, fun a member => ?_, inv.disjoint, ?_, inv.root, inv.ordered,
    inv.free, inv.used, inv.cursize, inv.arenasize, inv.obtained, inv.inside, inv.limit, inv.small, inv.chunk⟩
  · have ok := inv.arenas a member
    obtain ⟨magic, size, _⟩ := s.store_outside w ((edges a member).1.imp_left Nat.le_of_lt)
    obtain ⟨_, _, tail⟩ := s.store_outside w (edges a member).2.1
    obtain ⟨limit, _⟩ := s.store_outside w (edges a member).2.2
    exact ⟨magic.trans ok.leader, size.trans ok.size, (leaders a member).1.trans ok.csize, tail.trans ok.tail,
      fun p' here => same p' (mem_layouts.mpr ⟨a, member, here⟩), ok.apart, limit.trans ok.limit⟩
  · have outer : ∀ x ∈ t.addrs, ¬ (p.1 ≤ x ∧ x < p.1 + s.size p.1) := by
      intro x member
      obtain ⟨p', here, free, rfl⟩ := inv.mem_addrs member
      have posP' := (inv.block here).pos
      rcases inv.blocks_apart inside here with rfl | apart
      · exact absurd (free.symm.trans used) (by decide)
      · omega
    refine inv.rep.congr ⟨?_, ?_, ?_, ?_, ?_⟩ <;>
    · intro x member
      simp [State.store, outer x member]

/-- A pool and the pointers given out, after calls that are valid and careful. -/
inductive CarefulRun (m₀ : Sys) : Sys → Prop
  | start : CarefulRun m₀ m₀
  | step {m m' : Sys} {e : Event} {r : Option Nat} : CarefulRun m₀ m → e.Valid m → e.Careful m → e.exec m = some (r, m') →
      CarefulRun m₀ m'

/-- One careful call returns and keeps the invariant; an allocation that fails changes nothing. -/
theorem Event.step_sound {m : Sys} {e : Event} (sound : Sound m.state m.live) (valid : e.Valid m) (careful : e.Careful m) :
    ∃ r m', e.exec m = some (r, m') ∧ Sound m'.state m'.live ∧
      (∀ restricted asize os, e = .poolalloc restricted asize os → r = none → Untouched m.state m'.state) := by
  obtain ⟨as, t, inv⟩ := sound
  cases e with
  | poolalloc restricted asize os =>
    obtain ⟨r, s', ran, kept, same⟩ := poolalloc_spec inv valid careful (2 * os.length)
    refine ⟨r, ⟨s', r.toList ++ m.live⟩, ?_, kept, fun _ _ _ _ => same⟩
    simp [Event.exec, ran]
  | poolfree v =>
    obtain ⟨s', as', t', ran, kept, _⟩ := poolfree_spec inv valid
    refine ⟨none, ⟨s', m.live.erase v⟩, ?_, ⟨as', t', kept⟩, fun _ _ _ other => nomatch other⟩
    simp [Event.exec, ran]
  | store v w => exact ⟨none, _, rfl, ⟨as, t, inv.store valid w⟩, fun _ _ _ other => nomatch other⟩

theorem CarefulRun.sound {m₀ m : Sys} (fresh : m₀.Fresh) (run : CarefulRun m₀ m) : Sound m.state m.live := by
  induction run with
  | start => exact fresh.sound
  | step before valid careful done ih =>
    obtain ⟨r, m', ran, kept, _⟩ := Event.step_sound ih valid careful
    cases ran.symm.trans done
    exact kept

/-- In every state that careful calls lead to, the representation invariant holds,
every further careful call returns, and one that returns nil changes nothing. -/
theorem pool_ok {m₀ m : Sys} (fresh : m₀.Fresh) (run : CarefulRun m₀ m) :
    Sound m.state m.live ∧ ∀ e : Event, e.Valid m → e.Careful m → ∃ r m', e.exec m = some (r, m') ∧
      (∀ restricted asize os, e = .poolalloc restricted asize os → r = none → Untouched m.state m'.state) :=
  ⟨run.sound fresh, fun _ valid careful =>
    let ⟨r, m', ran, _, same⟩ := Event.step_sound (run.sound fresh) valid careful
    ⟨r, m', ran, same⟩⟩

/-- A pool before its first use. -/
def unused (maxsize chunk ressize : Nat) (move : Bool) : Sys where
  state :=
    { pool := ⟨maxsize, chunk, ressize, 0, 0, 0, none, none, 0, 0, 0, 0, move⟩
      links := ⟨fun _ => none, fun _ => none, fun _ => none, id, id⟩
      magic _ := 0
      size _ := 0
      clink _ := none
      csize _ := 0
      tail _ := 0
      ptr := 0
      mapped := [] }
  live := []

theorem unused_fresh {maxsize chunk ressize : Nat} {move : Bool} (small : maxsize < 2 ^ 31) (quantum : quanta + 1 ∣ chunk) :
    (unused maxsize chunk ressize move).Fresh :=
  ⟨rfl, rfl, rfl, rfl, rfl, small, quantum, rfl⟩

/-- The pool `main` of the table. -/
def mainmem : Sys := unused (32 * 1024 * 1024) (512 * 1024) (31 * 1024 * 1024) false

theorem mainmem_fresh : mainmem.Fresh := unused_fresh (by decide) (by decide)

/-- 100 bytes are allocated and freed again. -/
theorem pool_ok_alloc_free : ∃ r m, (Event.poolalloc false 100 [some 0x10000]).exec mainmem = some (r, m) ∧
    Sound m.state m.live ∧ ∃ r' m', (Event.poolfree 0x100a0).exec m = some (r', m') := by
  have grown : mainmem.state.growth (State.blockSize 100) = some (512 * 1024) := by decide
  have valid : (Event.poolalloc false 100 [some 0x10000]).Valid mainmem := by
    intro ns T os' _ given
    cases given
    exact ⟨by decide, fun x _ _ m member => (nomatch member)⟩
  have careful : (Event.poolalloc false 100 [some 0x10000]).Careful mainmem := by
    intro _ _ _
    rw [grown]
    exact ⟨_, _, rfl⟩
  obtain ⟨r, m, ran, _⟩ := (pool_ok mainmem_fresh .start).2 _ valid careful
  have given : ((Event.poolalloc false 100 [some 0x10000]).exec mainmem).map (fun x => x.2.live) = some [0x100a0] := by decide
  rw [ran] at given
  obtain ⟨sound, returns⟩ := pool_ok mainmem_fresh (.step .start valid careful ran)
  have member : 0x100a0 ∈ m.live := by
    have live : m.live = [0x100a0] := Option.some.inj given
    rw [live]
    exact List.mem_cons_self
  obtain ⟨r', m', freed, _⟩ := returns (.poolfree 0x100a0) member trivial
  exact ⟨r, m, ran, sound, r', m', freed⟩

/-- The pool `image`, whose blocks can be moved. -/
def imagmem : Sys := unused (64 * 1024 * 1024 + 256) (4 * 1024 * 1024) (63 * 1024 * 1024) true

/-- Two blocks are allocated, the first is freed and more is asked for than the pool may hold. -/
def compacting : List Event :=
  [.poolalloc false 80 [some 0x10000], .poolalloc false 80 [], .poolfree 0x100a0, .poolalloc false (200 * 1024 * 1024) []]

def Sys.after (m : Sys) (es : List Event) : Option Sys := es.foldlM (fun m e => (Event.exec e m).map Prod.snd) m

/-- The first block of the last arena has its tail. -/
theorem Sound.first_tail {base : Nat} (sound : Sound s live) (chain : s.pool.chain = some base)
    (blocks : quanta + 1 < s.csize base) :
    s.tail (base + (quanta + 1) + s.size (base + (quanta + 1))) = base + (quanta + 1) := by
  obtain ⟨as, t, inv⟩ := sound
  have chained := inv.chained
  rw [chain] at chained
  cases as with
  | nil => nomatch chained
  | cons a as =>
    cases chained.1
    have ok := inv.arenas a List.mem_cons_self
    rw [ok.csize, Arena.csize] at blocks
    cases first : a.blocks with
    | nil =>
      rw [first, total_nil] at blocks
      omega
    | cons k ks =>
      have block : BlockOk s (a.base + (quanta + 1)) k := ok.tiled (a.base + (quanta + 1), k) (by
        rw [Arena.layout, first]
        exact List.mem_cons_self)
      rw [block.size]
      exact block.tail

/-- A refusal of the system leaves `arenasize` raised, and a compaction leaves
the tails of the blocks it has moved as they were. -/
theorem pool_broken : mainmem.Fresh ∧ imagmem.Fresh ∧ (Event.poolalloc false 100 [none]).Valid mainmem ∧
    (∃ m, (Event.poolalloc false 100 [none]).exec mainmem = some (none, m) ∧ ¬ Sound m.state m.live ∧
      ¬ Untouched mainmem.state m.state) ∧
    ∃ m, imagmem.after compacting = some m ∧ ∀ live, ¬ Sound m.state live := by
  refine ⟨mainmem_fresh, unused_fresh (by decide) (by decide), fun _ _ _ _ given => (nomatch given), ?_, ?_⟩
  · have ran : ((Event.poolalloc false 100 [none]).exec mainmem).map (fun x => (x.1, x.2.state.pool.arenasize, x.2.state.mapped)) =
        some (none, 512 * 1024 + 256, []) := by decide
    obtain ⟨⟨r, m⟩, done, result⟩ := Option.map_eq_some_iff.mp ran
    obtain ⟨rfl, arenasize, mapped⟩ : r = none ∧ m.state.pool.arenasize = 512 * 1024 + 256 ∧ m.state.mapped = [] := by
      simpa using result
    refine ⟨m, done, ?_, fun untouched => ?_⟩
    · rintro ⟨as, t, inv⟩
      have obtained := inv.obtained
      rw [arenasize, mapped] at obtained
      nomatch obtained
    · have same := untouched.arenasize
      rw [arenasize] at same
      nomatch same
  · have ran : (imagmem.after compacting).map (fun m =>
        (m.state.pool.chain, m.state.csize 0x10000, m.state.size 0x10080, m.state.tail 0x10100)) =
        some (some 0x10000, 4 * 1024 * 1024 + 128, 128, 0x10100) := by decide +kernel
    obtain ⟨m, done, result⟩ := Option.map_eq_some_iff.mp ran
    obtain ⟨chain, csize, size, tail⟩ : m.state.pool.chain = some 0x10000 ∧ m.state.csize 0x10000 = 4 * 1024 * 1024 + 128 ∧
        m.state.size 0x10080 = 128 ∧ m.state.tail 0x10100 = 0x10100 := by
      simpa using result
    refine ⟨m, done, fun live sound => ?_⟩
    have first := sound.first_tail chain (by rw [csize]; decide)
    have wrong : m.state.tail (0x10080 + m.state.size 0x10080) = 0x10080 := first
    rw [size, tail] at wrong
    nomatch wrong

end Inferno.Pool
