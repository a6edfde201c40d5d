import Inferno.Lib.LinkRing

namespace Inferno.Pool

open Inferno.Lib

abbrev Addr := Nat

/-- The magic numbers of allocated and free blocks, of the two ends of an arena
and of blocks hidden from the collector. -/
def magicA : Nat := 0xa110c
def magicF : Nat := 0xbadc0c0a
def magicE : Nat := 0xdeadbabe
def magicI : Nat := 0xabba

/-- The quanta of every pool in the table. -/
def quanta : Nat := 127

/-- The offset of `u.data` in a `Bhdr`. -/
def dataOffset : Nat := 32

/-- That and a `Btail`. -/
def bhdrsize : Nat := dataOffset + 8

/-- `n & ~quanta`. -/
def align (n : Int) : Int := n / (quanta + 1) * (quanta + 1)

/-- A `uintptr` kept in an `int` and compared with a `uintptr` again. -/
def asInt (n : Nat) : Nat := ((n : Int).bmod (2 ^ 32) % 2 ^ 64).toNat

/-- `move` tells whether there is a function to move blocks. -/
structure Pool where
  maxsize : Nat
  chunk : Nat
  ressize : Nat
  cursize : Nat
  arenasize : Nat
  hw : Nat
  root : Option Addr
  chain : Option Addr
  nalloc : Nat
  nfree : Nat
  nbrk : Nat
  lastfree : Nat
  move : Bool

/-- A pool and the memory its headers are in, one function a field. `links` are
the fields of `u.s`, which only free blocks use, `clink` and `csize` those of
`u.l`, which only the leader of an arena uses. `tail e` is the `Btail` that ends
at `e`. `ptr` is where the collector stands, `mapped` what the system has given. -/
structure State where
  pool : Pool
  links : Links Addr
  magic : Addr → Nat
  size : Addr → Nat
  clink : Addr → Option Addr
  csize : Addr → Nat
  tail : Addr → Addr
  ptr : Addr
  mapped : List (Addr × Nat)

/-- `if(q == nil) p->root = rp; else if(q->left == t) q->left = rp; else q->right = rp`. -/
def relink (q : Option Addr) (t : Addr) (rp root : Option Addr) (σ : Links Addr) : Option Addr × Links Addr :=
  match q with
  | none => (rp, σ)
  | some q =>
    if σ.left q = some t then (root, { σ with left := Function.update σ.left q rp })
    else (root, { σ with right := Function.update σ.right q rp })

/-- `if(s != nil) s->parent = f`. -/
def adopt (s f : Option Addr) (σ : Links Addr) : Links Addr :=
  match s with
  | none => σ
  | some s => { σ with parent := Function.update σ.parent s f }

/-- The loop of `pooldel` down the left children of `rp`, with `f` above it. A
loop that has not ended when its fuel has gives `none`. -/
def leftmost (σ : Links Addr) : Nat → Addr → Addr → Option (Addr × Addr)
  | 0, f, rp => if σ.left rp = none then some (f, rp) else none
  | fuel + 1, f, rp =>
    match σ.left rp with
    | none => some (f, rp)
    | some s => leftmost σ fuel rp s

/-- The middle of `pooldel`: what takes the place of a node without a ring. -/
def poolsplice (fuel : Nat) (t : Addr) (σ : Links Addr) : Option (Option Addr × Links Addr) :=
  match σ.left t, σ.right t with
  | none, r => some (r, σ)
  | some l, none => some (some l, σ)
  | some l, some r => do
    let (f, rp) ← leftmost σ fuel t r
    let σ := if f ≠ t then
        let s := σ.right rp
        let σ := { σ with left := Function.update σ.left f s }
        let σ := adopt s (some f) σ
        let s := σ.right t
        let σ := { σ with right := Function.update σ.right rp s }
        adopt s (some rp) σ
      else σ
    let σ := { σ with left := Function.update σ.left rp (some l) }
    let σ := { σ with parent := Function.update σ.parent l (some rp) }
    return (some rp, σ)

def pooldel (fuel : Nat) (t : Addr) (root : Option Addr) (σ : Links Addr) : Option (Option Addr × Links Addr) :=
  if σ.parent t = none ∧ root ≠ some t then some (root, σ.unlink t)
  else if σ.fwd t ≠ t then
    let f := σ.fwd t
    let s := σ.parent t
    let σ := { σ with parent := Function.update σ.parent f s }
    let (root, σ) := relink s t (some f) root σ
    let rp := σ.left t
    let σ := { σ with left := Function.update σ.left f rp }
    let σ := adopt rp (some f) σ
    let rp := σ.right t
    let σ := { σ with right := Function.update σ.right f rp }
    let σ := adopt rp (some f) σ
    some (root, σ.unlink t)
  else do
    let (rp, σ) ← poolsplice fuel t σ
    let q := σ.parent t
    let (root, σ) := relink q t rp root σ
    return (root, adopt rp q σ)

/-- The loop of `pooladd`, at `t` under `tp`. -/
def pooladdLoop (sizes : Addr → Nat) (size : Nat) (q : Addr) (σ : Links Addr) :
    Nat → Option Addr → Option Addr → Option (Links Addr)
  | _, none, none => none
  | _, none, some tp =>
    let σ := { σ with parent := Function.update σ.parent q (some tp) }
    if size < sizes tp then some { σ with left := Function.update σ.left tp (some q) }
    else some { σ with right := Function.update σ.right tp (some q) }
  | 0, some _, _ => none
  | fuel + 1, some t, _ =>
    if size = sizes t then some (σ.linkBefore q t)
    else pooladdLoop sizes size q σ fuel (if size < sizes t then σ.left t else σ.right t) (some t)

namespace State

/-- The blocks of a pool are fewer than the bytes of its arenas. -/
def fuel (s : State) : Nat := s.pool.arenasize

def setMagic (s : State) (b : Addr) (m : Nat) : State := { s with magic := Function.update s.magic b m }

/-- `b->size = n` and `B2T(b)->hdr = b`. -/
def setSize (s : State) (b : Addr) (n : Nat) : State :=
  { s with size := Function.update s.size b n, tail := Function.update s.tail (b + n) b }

def remove (s : State) (t : Addr) : Option State := do
  let (root, links) ← pooldel s.fuel t s.pool.root s.links
  return { s with pool.root := root, links }

def pooladd (s : State) (q : Addr) : Option State := do
  let s := s.setMagic q magicF
  let σ : Links Addr :=
    { left := Function.update s.links.left q none
      right := Function.update s.links.right q none
      parent := Function.update s.links.parent q none
      fwd := Function.update s.links.fwd q q
      prev := Function.update s.links.prev q q }
  match s.pool.root with
  | none => return { s with pool.root := some q, links := σ }
  | some root => return { s with links := ← pooladdLoop s.size (asInt (s.size q)) q σ s.fuel (some root) none }

/-- `cursize` grows by `n` and `hw` with it. -/
def charge (s : State) (n : Nat) : State :=
  { s with
    pool.cursize := s.pool.cursize + n
    pool.hw := if s.pool.cursize + n > s.pool.hw then s.pool.cursize + n else s.pool.hw }

/-- The macro `D2B`: the block of the data at `v`, by way of a `Balign` if need be.
`none` is `poolfault`. -/
def d2b (s : State) (v : Addr) : Option Addr :=
  if s.magic (v - dataOffset) = magicA ∨ s.magic (v - dataOffset) = magicI then some (v - dataOffset)
  else if s.magic (s.tail v) = magicA ∨ s.magic (s.tail v) = magicI then some (s.tail v)
  else none

/-- The first half of `poolfree`: a free block behind `b` becomes part of it. -/
def joinForward (s : State) (b : Addr) : Option State :=
  let c := b + s.size b
  if s.magic c = magicF then do
    let s := { s with ptr := if s.ptr = c then b else s.ptr }
    let s ← s.remove c
    let s := s.setMagic c 0
    return s.setSize b (s.size b + s.size c)
  else some s

/-- The second half: `b` becomes part of a free block before it. -/
def joinBackward (s : State) (b : Addr) : Option (Addr × State) :=
  let c := s.tail b
  if s.magic c = magicF then do
    let s := { s with ptr := if s.ptr = b then c else s.ptr }
    let s ← s.remove c
    let s := s.setMagic b 0
    return (c, s.setSize c (s.size c + s.size b))
  else some (b, s)

def poolfree (s : State) (v : Addr) : Option State := do
  let b ← s.d2b v
  let s := { s with pool.nfree := s.pool.nfree + 1, pool.cursize := s.pool.cursize - s.size b }
  let s ← s.joinForward b
  let (b, s) ← s.joinBackward b
  s.pooladd b

/-- `memmove(dst, src, n)`, as far as headers and tails go. -/
def memmove (s : State) (dst src n : Addr) : State :=
  let copy {β : Type} (f : Addr → β) (x : Addr) : β := if dst ≤ x ∧ x < dst + n then f (x - dst + src) else f x
  { s with
    links := ⟨copy s.links.left, copy s.links.right, copy s.links.parent, copy s.links.prev, copy s.links.fwd⟩
    magic := copy s.magic
    size := copy s.size
    clink := copy s.clink
    csize := copy s.csize
    tail := fun e => if dst < e ∧ e ≤ dst + n then s.tail (e - dst + src) else s.tail e }

/-- The loop of `poolcompact`. -/
def compactLoop : Nat → Addr → Addr → Addr → Addr → Bool → State → Option (Bool × State)
  | 0, _, _, _, _, _, _ => none
  | fuel + 1, base, ptr, limit, stop, compacted, s => do
    let next := ptr + s.size ptr
    let (s, stop, compacted) :=
      if s.magic ptr = magicA ∨ s.magic ptr = magicI then
        let (s, compacted) := if ptr ≠ stop then (s.memmove stop ptr (s.size ptr), true) else (s, compacted)
        (s, stop + s.size stop, compacted)
      else (s, stop, compacted)
    if limit ≤ next then
      let s ← if stop < limit then
          if limit - stop < quanta + 1 then none
          else (s.setSize stop (limit - stop)).pooladd stop
        else some s
      match s.clink base with
      | none => return (compacted, s)
      | some base =>
        let ptr := base + s.size base
        compactLoop fuel base ptr (base + s.csize base) ptr compacted s
    else compactLoop fuel base next limit stop compacted s

def poolcompact (s : State) : Option (Bool × State) := do
  if s.pool.move = false ∨ s.pool.lastfree = s.pool.nfree then return (false, s)
  let s := { s with pool.lastfree := asInt s.pool.nfree }
  let base ← s.pool.chain
  let ptr := base + s.size base
  compactLoop (s.fuel + 1) base ptr (base + s.csize base) ptr false { s with pool.root := none }

/-- The first loop of `dopoolalloc`: a node of the size, or the last larger one seen. -/
def search (sizes : Addr → Nat) (σ : Links Addr) (size : Nat) :
    Nat → Option Addr → Option Addr → Option (Addr ⊕ Option Addr)
  | _, none, q => some (.inr q)
  | 0, some _, _ => none
  | fuel + 1, some t, q =>
    if sizes t = size then some (.inl t)
    else if size < sizes t then search sizes σ size fuel (σ.left t) (some t)
    else search sizes σ size fuel (σ.right t) q

/-- The bytes of blocks to ask the system for, unless the limit is reached. -/
def growth (s : State) (size : Nat) : Option Nat :=
  let ns := if size > s.pool.chunk then size else s.pool.chunk
  let ldr := quanta + 1
  if s.pool.arenasize + (ns + ldr + ldr) > s.pool.maxsize then
    let ns := align ((s.pool.maxsize : Int) - s.pool.arenasize - ldr - ldr)
    if ns < size then none else some ns.toNat
  else some ns

/-- The size of the block that holds `asize` bytes. -/
def blockSize (asize : Nat) : Nat := (align (asize + bhdrsize + quanta)).toNat

/-- A free block that is not much too large is given out whole, any other is split. -/
def allocFrom (s : State) (q : Addr) (size : Nat) : Option (Option Addr × State) := do
  let s ← s.remove q
  let s := s.setMagic q magicA
  let frag := s.size q - size
  if frag < size / 4 ∧ frag < 0x8000 then return (some (q + dataOffset), s.charge (s.size q))
  let ns := s.size q - size
  let s := s.setSize q size
  let t := q + size
  let s := s.setSize t ns
  let s ← s.pooladd t
  return (some (q + dataOffset), s.charge (s.size q))

/-- A leader at `t` for `ns` bytes of blocks, and behind it the block of `size` bytes to return. -/
def leader (s : State) (t ns size : Nat) : State :=
  let ldr := quanta + 1
  let s := (s.setMagic t magicE).setSize t ldr
  let s := { s with
    csize := Function.update s.csize t (ns + ldr)
    clink := Function.update s.clink t s.pool.chain
    pool.chain := some t }
  (s.setMagic (t + ldr) magicA).setSize (t + ldr) size

/-- A new arena of `ns` bytes at `t`, with a block of `size` bytes taken. -/
def newArena (s : State) (t ns size : Nat) : Option (Option Addr × State) := do
  let s := s.leader t ns size
  let t := t + (quanta + 1)
  let ns := ns - size
  let (q, s) ← if ns > 0 then do
      let q := t + size
      some (q, ← (s.setSize q ns).pooladd q)
    else some (t, s)
  let s := s.setMagic (q + s.size q) magicE
  return (some (t + dataOffset), s.charge (s.size t))

/-- The arena that ends at `limit` grows by `alloc` bytes, for now an allocated block. -/
def extend (s : State) (chain limit alloc : Nat) : State :=
  let s := (s.setMagic limit magicA).setSize limit alloc
  let s := s.setMagic (limit + alloc) magicE
  { s with csize := Function.update s.csize chain (s.csize chain + alloc), pool.cursize := s.pool.cursize + alloc }

/-- A chunk for `ns` bytes of blocks is merged with the last arena or becomes an
arena of its own. -/
def place (retry : State → Option (Option Addr × State)) (t ns size : Nat) (s : State) :
    Option (Option Addr × State) :=
  let ldr := quanta + 1
  match s.pool.chain with
  | none => s.newArena t ns size
  | some chain => do
    let limit := chain + s.csize chain
    if t = limit + ldr then
      let s ← (s.extend chain limit (ns + ldr + ldr)).poolfree (limit + dataOffset)
      retry s
    else s.newArena t ns size

/-- `dopoolalloc`. `os` are the answers of the system, `none` for a refusal, and
`retry` is `poolalloc` for the same size. -/
def dopoolalloc (retry : List (Option Addr) → State → Option (Option Addr × State)) (os : List (Option Addr))
    (asize : Nat) (s : State) : Option (Option Addr × State) := do
  if 1024 * 1024 * 1024 ≤ asize then return (none, s)
  let size := blockSize asize
  let s := { s with pool.nalloc := s.pool.nalloc + 1 }
  match ← search s.size s.links size s.fuel s.pool.root none with
  | .inl t =>
    let t := s.links.fwd t
    let s ← s.remove t
    let s := s.setMagic t magicA
    return (some (t + dataOffset), s.charge (s.size t))
  | .inr (some q) => s.allocFrom q size
  | .inr none =>
    match s.growth size with
    | none =>
      let (compacted, s) ← s.poolcompact
      if compacted then retry os s else return (none, s)
    | some ns =>
      let ldr := quanta + 1
      let alloc := ns + ldr + ldr
      let s := { s with pool.arenasize := s.pool.arenasize + alloc, pool.nbrk := s.pool.nbrk + 1 }
      match os with
      | [] => none
      | none :: _ => return (none, { s with pool.nbrk := s.pool.nbrk - 1 })
      | some t :: os =>
        let s := { s with mapped := (t, alloc) :: s.mapped }
        place (retry os) ((t + 7) / 8 * 8) ns size s

/-- `poolalloc`, for a restricted Prog or not. After a compaction or the merge of
a chunk into the last arena it starts again, `tries` times at most. -/
def poolalloc (restricted : Bool) (asize : Nat) : Nat → List (Option Addr) → State → Option (Option Addr × State)
  | 0, _, _ => none
  | tries + 1, os, s =>
    if s.pool.ressize < s.pool.cursize ∧ restricted then some (none, s)
    else dopoolalloc (poolalloc restricted asize tries) os asize s

end State

end Inferno.Pool
