import Mathlib

namespace Inferno.Qio

/-- A `Block`: the bytes from `rp` to `wp`, which lie between `base` and `lim`, and
`lim - base`. `id` tells blocks apart; it names one allocation, not an address. -/
structure Block where
  id : Nat
  data : List UInt8
  alloc : Nat
  room : data.length ≤ alloc
deriving DecidableEq, Repr

/-- `BLEN`. -/
def Block.blen (b : Block) : Nat := b.data.length

/-- `rp += n`, and `wp = rp + n`. -/
def Block.skip (b : Block) (n : Nat) : Block :=
  ⟨b.id, b.data.drop n, b.alloc, Nat.le_trans (List.drop_sublist n b.data).length_le b.room⟩
def Block.cut (b : Block) (n : Nat) : Block :=
  ⟨b.id, b.data.take n, b.alloc, Nat.le_trans (List.take_sublist n b.data).length_le b.room⟩

def ids (bs : List Block) : List Nat := bs.map Block.id

def blocklen (bs : List Block) : Nat := (bs.map Block.blen).sum

def blockalloclen (bs : List Block) : Nat := (bs.map Block.alloc).sum

/-- The bytes of a string of blocks. -/
def bytes (bs : List Block) : List UInt8 := bs.flatMap Block.data

def ehungup : String := "i/o on hungup channel"

/-- `blocks` are those that `bfirst` leads to along `next`, `blast` is the block
that the field of this name points to. The bits of `state` are fields of their
own. Every block comes from a pool of less than 2^31 bytes, so that `len` and
`dlen` do not overflow. -/
structure Queue where
  blocks : List Block
  blast : Option Nat
  len : Int
  dlen : Int
  limit : Int
  flow : Bool
  starve : Bool
  closed : Bool
  msg : Bool
  coalesce : Bool
  noblock : Bool
  eof : Nat
  err : String
  locked : Bool
deriving DecidableEq, Repr

/-- What a locked section did: the queue it leaves, the blocks that were freed by
it or right after it, and the calls of `Wakeup` that follow it. -/
structure Out (α : Type) where
  value : α
  q : Queue
  freed : List Nat
  wr : Bool
  rr : Bool

/-- `p->next = bs` for a block that may be on the string. -/
def setNext (p : Option Nat) (bs : List Block) : List Block → List Block
  | [] => []
  | b :: rest => if some b.id = p then b :: bs else b :: setNext p bs rest

namespace Queue

/-- `if(q->bfirst) q->blast->next = b; else q->bfirst = b`. -/
def link (q : Queue) (bs : List Block) : Queue :=
  if q.blocks = [] then { q with blocks := bs } else { q with blocks := setNext q.blast bs q.blocks }

/-- `blast` and the counters after a string of blocks is linked. -/
def account (q : Queue) (bs : List Block) : Queue :=
  { q with
    blast := bs.getLast?.map Block.id
    len := q.len + blockalloclen bs
    dlen := q.dlen + blocklen bs }

/-- If the writer is flow controlled and `len` is below `bound`, restart it. -/
def restart (q : Queue) (bound : Int) : Queue × Bool :=
  if q.flow ∧ q.len < bound then ({ q with flow := false }, true) else (q, false)

/-- If a reader waits, it is to be woken. -/
def feed (q : Queue) : Queue × Bool := ({ q with starve := false }, q.starve)

/-- `q->limit/2`. -/
def half (q : Queue) : Int := q.limit.tdiv 2

/-- The first block leaves the queue. -/
def unlink (q : Queue) (b : Block) (rest : List Block) : Queue :=
  { q with blocks := rest, len := q.len - b.alloc, dlen := q.dlen - b.blen }

def qremove (q : Queue) : Option Block × Queue :=
  match q.blocks with
  | [] => (none, q)
  | b :: rest => (some b, q.unlink b rest)

def qget (q : Queue) : Out (Option Block) :=
  match q.blocks with
  | [] => ⟨none, { q with starve := true }, [], false, false⟩
  | b :: rest =>
    let (q, wr) := (q.unlink b rest).restart q.half
    ⟨some b, q, [], wr, false⟩

/-- The loop of `qdiscard`, with `left` bytes to go: the number of bytes and the blocks thrown away. -/
def discardLoop : List Block → Nat → Queue → Nat × List Nat × Queue
  | [], _, q => (0, [], q)
  | b :: rest, left, q =>
    if left = 0 then (0, [], q)
    else if b.blen ≤ left then
      let (n, freed, q) := discardLoop rest (left - b.blen) (q.unlink b rest)
      (b.blen + n, b.id :: freed, q)
    else (left, [], { q with blocks := b.skip left :: rest, dlen := q.dlen - left })

def qdiscard (q : Queue) (len : Nat) : Out Nat :=
  let (sofar, freed, q) := discardLoop q.blocks len q
  let (q, wr) := q.restart q.limit
  ⟨sofar, q, freed, wr, false⟩

/-- The loop of `qconsume` over empty blocks, which are put on `tofree`. -/
def skipEmpty : List Block → Queue → List Nat → Queue × List Nat
  | [], q, tofree => (q, tofree)
  | b :: rest, q, tofree =>
    if b.blen = 0 then skipEmpty rest { q with blocks := rest, len := q.len - b.alloc } (b.id :: tofree)
    else (q, tofree)

/-- `none` is the return of -1, which forgets `tofree`. -/
def qconsume (q : Queue) (len : Nat) : Out (Option (List UInt8)) :=
  let (q, tofree) := skipEmpty q.blocks q []
  match q.blocks with
  | [] => ⟨none, { q with starve := true }, [], false, false⟩
  | b :: rest =>
    let n := min b.blen len
    let done := q.msg ∨ n = b.blen
    let q := if done then { q with
        blocks := rest
        len := q.len - b.alloc
        dlen := q.dlen - n - (b.skip n).blen }
      else { q with blocks := b.skip n :: rest, dlen := q.dlen - n }
    let (q, wr) := q.restart q.half
    ⟨some (b.data.take n), q, if done then b.id :: tofree else tofree, wr, false⟩

/-- The end of `qpass` and `qpassnolim`. -/
def add (q : Queue) (bs : List Block) : Out Int :=
  let q := (q.link bs).account bs
  let q := if q.len ≥ q.half then { q with flow := true } else q
  let (q, rr) := q.feed
  ⟨blockalloclen bs, q, [], false, rr⟩

def qpass (q : Queue) (b : Block) (rest : List Block) : Out Int :=
  if q.len ≥ q.limit then ⟨-1, q, ids (b :: rest), false, false⟩
  else if q.closed then ⟨blocklen (b :: rest), q, ids (b :: rest), false, false⟩
  else q.add (b :: rest)

def qpassnolim (q : Queue) (b : Block) (rest : List Block) : Out Int :=
  if q.closed then ⟨b.alloc, q, ids (b :: rest), false, false⟩ else q.add (b :: rest)

/-- `iallocb(len)` and a copy. -/
def newBlock (id : Nat) (data : List UInt8) : Block := ⟨id, data, data.length, Nat.le_refl _⟩

/-- `block` is what `iallocb` returns, `none` for nil. -/
def qproduce (q : Queue) (data : List UInt8) (block : Option Nat) : Out Int :=
  if q.closed then ⟨-1, q, [], false, false⟩
  else if q.len ≥ q.limit then ⟨-1, { q with flow := true }, [], false, false⟩
  else
    match block with
    | none => ⟨-1, q, [], false, false⟩
    | some id =>
      let (q, rr) := ((q.link [newBlock id data]).account [newBlock id data]).feed
      let q := if q.len ≥ q.limit then { q with flow := true } else q
      ⟨data.length, q, [], false, rr⟩

def qaddlist (q : Queue) (b : Block) (rest : List Block) : Queue := (q.link (b :: rest)).account (b :: rest)

/-- `b->next` is overwritten, so what was behind `b` is lost. -/
def qputback (q : Queue) (b : Block) : Queue :=
  { q with
    blocks := b :: q.blocks
    blast := if q.blocks = [] then some b.id else q.blast
    len := q.len + b.alloc
    dlen := q.dlen + b.blen }

/-- `Ready` has at least one block, `eof` and `error` are the returns of 0 and -1,
and `starved` goes to sleep and comes back. -/
inductive Wait
  | ready
  | eof
  | error
  | starved
deriving DecidableEq

/-- One round of the loop of `qwait`. -/
def qwait (q : Queue) : Wait × Queue :=
  if q.blocks ≠ [] then (.ready, q)
  else if q.closed then
    let q := { q with eof := q.eof + 1 }
    if q.eof > 3 then (.error, q)
    else if q.err ≠ "" ∧ q.err ≠ ehungup then (.error, q)
    else (.eof, q)
  else (.starved, { q with starve := true })

/-- What a reading process gets from its locked section. `failed` is the error of `allocb`. -/
inductive Read (α : Type)
  | got (value : α)
  | wait (why : Wait)
  | failed

/-- `qbread`; `block` is what `allocb` finds for the rest of a block that is too
large, `none` when it raises an error, with the queue locked. -/
def qbread (q : Queue) (len : Nat) (block : Option Nat) : Out (Read Block) :=
  match q.qwait with
  | (.ready, q) =>
    match q.blocks with
    | [] => ⟨.wait .ready, q, [], false, false⟩
    | b :: rest =>
      let p := q.unlink b rest
      if b.blen > len then
        if p.msg then
          let (p, wr) := p.restart p.half
          ⟨.got (b.cut len), p, [], wr, false⟩
        else
          match block with
          | none => ⟨.failed, { p with locked := true }, [], false, false⟩
          | some id =>
            let p := p.qputback (newBlock id (b.data.drop len))
            let (p, wr) := p.restart p.half
            ⟨.got (b.cut len), p, [], wr, false⟩
      else
        let (p, wr) := p.restart p.half
        ⟨.got b, p, [], wr, false⟩
  | (why, q) => ⟨.wait why, q, [], false, false⟩

/-- When coalescing, blocks of no length just go away. -/
def dropEmpty : List Block → Queue → List Nat → Queue × List Nat
  | [], q, freed => (q, freed)
  | b :: rest, q, freed => if b.blen = 0 then dropEmpty rest (q.unlink b rest) (freed ++ [b.id]) else (q, freed)

/-- The blocks that still fit the read after `n` bytes of it, and the queue without them. -/
def grab (len : Nat) : List Block → Nat → Queue → List Block × Queue
  | [], _, q => ([], q)
  | b :: rest, n, q =>
    if n + b.blen > len then ([], q)
    else
      let (taken, q) := grab len rest (n + b.blen) (q.unlink b rest)
      (b :: taken, q)

/-- The first locked section of `qread`: the blocks it takes. -/
def qreadTake (q : Queue) (len : Nat) : Out (Read (List Block)) :=
  let (q, freed) := if q.coalesce then dropEmpty q.blocks q [] else (q, [])
  match q.qwait with
  | (.ready, q) =>
    match q.blocks with
    | [] => ⟨.wait .ready, q, freed, false, false⟩
    | b :: rest =>
      let q := q.unlink b rest
      let (taken, q) := if q.coalesce then grab len rest b.blen q else ([], q)
      ⟨.got (b :: taken), q, freed, false, false⟩
  | (why, q) => ⟨.wait why, q, freed, false, false⟩

end Queue

/-- `bl2mem`: the bytes stored, the blocks freed and the first block not used up
with those behind it. -/
def bl2mem : List Block → Nat → List UInt8 × List Nat × List Block
  | [], _ => ([], [], [])
  | b :: next, n =>
    if b.blen > n then (b.data.take n, [], b.skip n :: next)
    else
      let (stored, freed, left) := bl2mem next (n - b.blen)
      (b.data ++ stored, b.id :: freed, left)

namespace Queue

/-- The rest of `qread`, after its blocks `first` were copied to memory of `len`
bytes: the number it returns and the bytes it has stored. -/
def qreadDone (q : Queue) (first : List Block) (len : Nat) : Out (Int × List UInt8) :=
  let (stored, freed, left) := bl2mem first len
  let (n, q, freed) := match left with
    | [] => ((blocklen first : Int), q, freed)
    | b :: _ =>
      if q.msg then ((blocklen first : Int) - b.blen, q, freed ++ [b.id])
      else ((blocklen first : Int) - b.blen, q.qputback b, freed)
  let (q, wr) := q.restart q.half
  ⟨(n, stored), q, freed, wr, false⟩

/-- The section of `qbwrite`; `none` is its error. `b->next` is overwritten. -/
def qbwrite (q : Queue) (b : Block) : Out (Option Nat) :=
  if q.closed then ⟨none, q, [b.id], false, false⟩
  else if q.len ≥ q.limit ∧ q.noblock then ⟨some b.blen, q, [b.id], false, false⟩
  else
    let (q, rr) := ((q.link [b]).account [b]).feed
    ⟨some b.blen, q, [], false, rr⟩

/-- One round of the loop of `qiwrite`, for at most `Maxatomic` bytes. -/
def qiwrite (q : Queue) (data : List UInt8) (block : Option Nat) : Out Nat :=
  match block with
  | none => ⟨0, q, [], false, false⟩
  | some id =>
    let (q, rr) := ((q.link [newBlock id data]).account [newBlock id data]).feed
    ⟨data.length, q, [], false, rr⟩

def qflush (q : Queue) : Out Unit := ⟨(), { q with blocks := [], len := 0, dlen := 0 }, ids q.blocks, true, false⟩

def qclose (q : Queue) : Out Unit :=
  ⟨(), { q with
    blocks := []
    len := 0
    dlen := 0
    closed := true
    flow := false
    starve := false
    err := ehungup
    noblock := false }, ids q.blocks, true, true⟩

def qhangup (q : Queue) (msg : String) : Out Unit :=
  ⟨(), { q with closed := true, err := if msg = "" then ehungup else msg }, [], true, true⟩

/-- `limit` is `inilim` as long as nobody calls `qsetlimit`. -/
def qreopen (q : Queue) : Queue := { q with closed := false, starve := true, eof := 0 }

end Queue

end Inferno.Qio
