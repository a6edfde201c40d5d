import Inferno.Strings.Inv
import Inferno.Strings.Text

namespace Inferno.Qio.Blocks

open Lib
open Strings (int int_of_lt poke readBytes_poke poke_outside)

/-- A `Block`: its memory from `base` on, and where `rp`, `wp` and `lim` are in it. -/
structure Block where
  mem : ByteMem
  rp : Nat
  wp : Nat
  lim : Nat

/-- Why a function does not return: `exhausted` of `allocb`, nil taken for a block, or a store beyond `lim`. -/
inductive Stop
  | exhausted
  | nilref
  | overrun
deriving DecidableEq

abbrev Out := Except Stop

namespace Block

/-- `BLEN` and `BALLOC`. -/
def blen (b : Block) : Nat := b.wp - b.rp
def balloc (b : Block) : Nat := b.lim

/-- The first `n` bytes. -/
def first (b : Block) (n : Nat) : List UInt8 := readBytes b.mem b.rp n

/-- The bytes from `rp` to `wp`. -/
def bytes (b : Block) : List UInt8 := b.first b.blen

/-- `memmove(b->wp, data, n)` and `b->wp += n`. -/
def put (b : Block) (data : List UInt8) : Out Block :=
  if b.wp + data.length > b.lim then throw .overrun
  else return { b with mem := poke b.mem b.wp data, wp := b.wp + data.length }

/-- `b->rp += n`. -/
def skip (b : Block) (n : Nat) : Block := { b with rp := b.rp + n }

/-- `b->wp -= BLEN(b) - len`. -/
def cut (b : Block) (len : Nat) : Block := { b with wp := b.wp - (b.blen - len) }

end Block

/-- The bytes of a chain; nil is the chain of no blocks. -/
def bytes (bs : List Block) : List UInt8 := bs.flatMap Block.bytes

def blocklen (bs : List Block) : Int := bs.foldl (fun len b => int (len + b.blen)) 0

/-- All bytes of a chain, behind those of a block. -/
def putAll (nb : Block) : List Block → Out Block
  | [] => return nb
  | f :: fs => do putAll (← nb.put (f.first f.blen)) fs

/-- The loop of `pullupblock`, where `n` bytes are missing from `b`. -/
def pullupLoop (n : Nat) (b : Block) : List Block → Out (Option (List Block))
  | [] => return none
  | nbp :: bs => do
    let i := nbp.blen
    if i > n then
      let b ← b.put (nbp.first n)
      return some (b :: nbp.skip n :: bs)
    let b ← b.put (nbp.first i)
    if n - i = 0 then return some (b :: bs)
    pullupLoop (n - i) b bs

/-- The block where `offset` lies, and the offset in it. -/
def trimStart (offset : Nat) : List Block → Out (Nat × Block × List Block)
  | [] => throw .nilref
  | b :: bs => if b.blen < offset then trimStart (offset - b.blen) bs else return (offset, b, bs)

/-- The chain up to the block where `len` lies. -/
def trimEnd (len : Nat) : List Block → Out (List Block)
  | [] => throw .nilref
  | b :: bs => if b.blen < len then do return b :: (← trimEnd (len - b.blen) bs) else return [b.cut len]

def trimblock (bs : List Block) (offset len : Nat) : Out (Option (List Block)) := do
  if blocklen bs < int (offset + len) then return none
  let (offset, startb, bs) ← trimStart offset bs
  return some (← trimEnd len (startb.skip offset :: bs))

/-- The loop of `copyblock`: what is left of `count`, and the new block. -/
def copyLoop (count : Nat) (nbp : Block) : List Block → Out (Nat × Block)
  | [] => return (count, nbp)
  | b :: bs =>
    if count > 0 then do
      let l := if b.blen > count then count else b.blen
      copyLoop (count - l) (← nbp.put (b.first l)) bs
    else return (count, nbp)

/-- `pullblock`: the bytes thrown away, and what is left. A block that keeps some has given all that was left of
`count`, so the loop ends. -/
def pullblock : List Block → Nat → Nat × List Block
  | [], _ => (0, [])
  | b :: bs, count =>
    if count = 0 then (0, b :: bs)
    else
      let n := if count < b.blen then count else b.blen
      let b := b.skip n
      if b.blen = 0 then (n + (pullblock bs (count - n)).1, (pullblock bs (count - n)).2) else (n, b :: bs)

/-- `qcopy` goes to `offset`: the position and the bytes from there on in a block, with the chain after it. -/
def seek (offset sofar : Nat) : List Block → Option (Nat × Nat × Block × List Block)
  | [] => none
  | b :: bs =>
    let n := b.blen
    if sofar + n > offset then some (b.rp + offset - sofar, n - (offset - sofar), b, bs)
    else seek offset (sofar + n) bs

/-- `qcopy` copies up to `len` bytes: `n` from `p` on in `mem`, then those of the chain. -/
def qcopyLoop (len sofar : Nat) (nb : Block) (mem : ByteMem) (p n : Nat) : List Block → Out Block
  | [] =>
    if sofar < len then nb.put (readBytes mem p (if n > len - sofar then len - sofar else n)) else return nb
  | b :: bs =>
    if sofar < len then do
      let n := if n > len - sofar then len - sofar else n
      qcopyLoop len (sofar + n) (← nb.put (readBytes mem p n)) b.mem b.rp b.blen bs
    else return nb

section Alloc

variable (heap : Nat → Nat → Option ByteMem)

/-- The call `k` of `allocb`. -/
def allocb (k size : Nat) : Out Block :=
  match heap k size with
  | none => throw .exhausted
  | some mem => return ⟨mem, 0, 0, size⟩

def concatblock : List Block → Out (List Block)
  | [] => throw .nilref
  | [bp] => return [bp]
  | bp :: bs => do
    let nb ← allocb heap 0 (blocklen (bp :: bs)).toNat
    return [← putAll nb (bp :: bs)]

def pullupblock (n : Nat) : List Block → Out (Option (List Block))
  | [] => throw .nilref
  | bp :: bs => do
    if bp.blen ≥ n then return some (bp :: bs)
    if bp.lim - bp.rp < n then
      let nbp ← allocb heap 0 n
      pullupLoop (n - nbp.blen) nbp (bp :: bs)
    else pullupLoop (n - bp.blen) bp bs

def copyblock (bp : List Block) (count : Nat) : Out Block := do
  let nbp ← allocb heap 0 count
  let (count, nbp) ← copyLoop count nbp bp
  if count > 0 then nbp.put (List.replicate count 0) else return nbp

def packblock (k : Nat) : List Block → Out (List Block)
  | [] => return []
  | nbp :: bs => do
    let n := nbp.blen
    if int (n * 4) < nbp.balloc then
      let b ← (← allocb heap k n).put (nbp.first n)
      return b :: (← packblock (k + 1) bs)
    return nbp :: (← packblock k bs)

/-- `qcopy` of the blocks of a queue. -/
def qcopy (bs : List Block) (len offset : Nat) : Out Block := do
  let nb ← allocb heap 0 len
  match seek offset 0 bs with
  | none => return nb
  | some (p, n, b, bs) => qcopyLoop len 0 nb b.mem p n bs

end Alloc

/-- The pointers of a block are in order. -/
structure Block.Good (b : Block) : Prop where
  rp : b.rp ≤ b.wp
  wp : b.wp ≤ b.lim

/-- A function gives a value with `Q`, or `allocb` has found no memory. -/
inductive Yields {α : Type} : Out α → (α → Prop) → Prop
  | ok {a : α} {Q : α → Prop} (holds : Q a) : Yields (.ok a) Q
  | exhausted {Q : α → Prop} : Yields (.error .exhausted) Q

namespace Yields

variable {α β : Type} {r : Out α} {k : α → Out β} {P Q : α → Prop} {R : β → Prop}

theorem pure {a : α} (holds : Q a) : Yields (Pure.pure a : Out α) Q := ok holds

theorem bind (first : Yields r fun a => Yields (k a) R) : Yields (r >>= k) R := by
  cases first with
  | ok rest => exact rest
  | exhausted => exact exhausted

theorem imp (yields : Yields r P) (value : ∀ a, P a → Q a) : Yields r Q := by
  cases yields with
  | ok holds => exact ok (value _ holds)
  | exhausted => exact exhausted

theorem not_nilref : ¬Yields (.error .nilref : Out α) Q := fun yields => nomatch yields

end Yields

variable {b nb f : Block} {bs cs : List Block} {data : List UInt8} {n m count off len sofar : Nat}
  {heap : Nat → Nat → Option ByteMem}

theorem length_bytes (b : Block) : b.bytes.length = b.blen := length_readBytes ..

theorem first_eq (less : n ≤ b.blen) : b.first n = b.bytes.take n := by
  have split := readBytes_add b.mem b.rp n (b.blen - n)
  rw [Nat.add_sub_cancel' less] at split
  rw [Block.bytes, Block.first, Block.first, split, List.take_left' (length_readBytes ..)]

theorem first_bytes (b : Block) : b.first b.blen = b.bytes := rfl

theorem bytes_cons (b : Block) (bs : List Block) : bytes (b :: bs) = b.bytes ++ bytes bs := List.flatMap_cons

theorem bytes_single (b : Block) : bytes [b] = b.bytes := by
  rw [bytes_cons]
  exact List.append_nil _

theorem length_bytes_cons (b : Block) (bs : List Block) : (bytes (b :: bs)).length = b.blen + (bytes bs).length := by
  rw [bytes_cons, List.length_append, length_bytes]

/-- The bytes of a chain from beyond its first block on, and up to a place beyond it. -/
theorem drop_bytes (before : b.blen ≤ n) : (bytes (b :: bs)).drop n = (bytes bs).drop (n - b.blen) := by
  have gone : b.bytes.drop n = [] := List.drop_eq_nil_of_le (by rwa [length_bytes])
  rw [bytes_cons, List.drop_append, length_bytes, gone, List.nil_append]

theorem take_bytes (before : b.blen ≤ n) :
    (bytes (b :: bs)).take n = b.bytes ++ (bytes bs).take (n - b.blen) := by
  have whole : b.bytes.take n = b.bytes := List.take_of_length_le (by rwa [length_bytes])
  rw [bytes_cons, List.take_append, length_bytes, whole]

theorem Block.Good.skip (good : b.Good) (less : n ≤ b.blen) : (b.skip n).Good ∧ (b.skip n).bytes = b.bytes.drop n := by
  have order := good.rp
  unfold blen at less
  have rest : (b.skip n).blen = b.blen - n := by
    simp only [Block.skip, blen]
    omega
  refine ⟨⟨by simp only [Block.skip]; omega, good.wp⟩, ?_⟩
  have split := readBytes_add b.mem b.rp n (b.blen - n)
  rw [Nat.add_sub_cancel' (by unfold blen; omega)] at split
  rw [bytes, rest, bytes, first, first, split, List.drop_left' (length_readBytes ..)]
  rfl

theorem Block.Good.cut (good : b.Good) (less : n ≤ b.blen) : (b.cut n).Good ∧ (b.cut n).bytes = b.bytes.take n := by
  have order := good.rp
  have top := good.wp
  unfold blen at less
  have rest : (b.cut n).blen = n := by
    simp only [Block.cut, blen]
    omega
  refine ⟨⟨by simp only [Block.cut, blen]; omega, by simp only [Block.cut, blen]; omega⟩, ?_⟩
  rw [bytes, rest, ← first_eq (by unfold blen; omega)]
  rfl

/-- `data` has been put behind the bytes of a block. -/
structure Filled (b : Block) (data : List UInt8) (b' : Block) : Prop where
  good : b'.Good
  bytes : b'.bytes = b.bytes ++ data
  rp : b'.rp = b.rp
  wp : b'.wp = b.wp + data.length
  lim : b'.lim = b.lim

theorem put_yields (good : b.Good) (fits : b.wp + data.length ≤ b.lim) : Yields (b.put data) (Filled b data) := by
  have order := good.rp
  unfold Block.put
  rw [if_neg (by omega)]
  refine Yields.pure ⟨⟨by dsimp only; omega, fits⟩, ?_, rfl, rfl, rfl⟩
  have whole : b.wp + data.length - b.rp = b.blen + data.length := by
    unfold Block.blen
    omega
  have here : b.rp + b.blen = b.wp := by
    unfold Block.blen
    omega
  unfold Block.bytes Block.first Block.blen
  dsimp only
  rw [whole, readBytes_add, here, readBytes_poke]
  refine congrArg (· ++ data) (readBytes_congr fun q from_ below => poke_outside (Or.inl ?_))
  omega

theorem allocb_yields (k n : Nat) :
    Yields (allocb heap k n) fun b => b.Good ∧ b.bytes = [] ∧ b.rp = 0 ∧ b.wp = 0 ∧ b.lim = n := by
  unfold allocb
  cases heap k n with
  | none => exact Yields.exhausted
  | some mem => exact Yields.pure ⟨⟨le_refl 0, Nat.zero_le n⟩, rfl, rfl, rfl, rfl⟩

theorem blocklen_eq (small : (bytes bs).length < 2 ^ 31) : blocklen bs = (bytes bs).length := by
  have sum : ∀ len : Nat, len + (bytes bs).length < 2 ^ 31 →
      bs.foldl (fun len b => int (len + b.blen)) (len : Int) = ((len + (bytes bs).length : Nat) : Int) := by
    induction bs with
    | nil => exact fun _ _ => rfl
    | cons b bs ih =>
      intro len less
      rw [length_bytes_cons] at less small ⊢
      have step : int ((len : Int) + b.blen) = ((len + b.blen : Nat) : Int) := by
        rw [int_of_lt (by omega) (by omega)]
        omega
      rw [List.foldl_cons, step, ih (by omega) _ (by omega), Nat.add_assoc]
  have all := sum 0 (by omega)
  rw [Nat.zero_add] at all
  exact all

theorem putAll_yields (good : nb.Good) (fits : nb.wp + (bytes bs).length ≤ nb.lim) :
    Yields (putAll nb bs) (Filled nb (bytes bs)) := by
  induction bs generalizing nb with
  | nil => exact Yields.pure ⟨good, (List.append_nil _).symm, rfl, rfl, rfl⟩
  | cons f fs ih =>
    rw [length_bytes_cons] at fits
    have room : nb.wp + (f.first f.blen).length ≤ nb.lim := by
      rw [first_bytes, length_bytes]
      omega
    refine Yields.bind ((put_yields good room).imp fun b filled => ?_)
    have wp := filled.wp
    have lim := filled.lim
    rw [first_bytes, length_bytes] at wp
    refine (ih filled.good (by omega)).imp fun c rest =>
      ⟨rest.good, ?_, rest.rp.trans filled.rp, ?_, rest.lim.trans lim⟩
    · rw [rest.bytes, filled.bytes, bytes_cons, List.append_assoc, first_bytes]
    · rw [rest.wp, wp, length_bytes_cons, Nat.add_assoc]

/-- `concatblock` keeps the bytes. -/
theorem concatblock_yields (small : (bytes bs).length < 2 ^ 31) (some_ : bs ≠ []) :
    Yields (concatblock heap bs) fun r => bytes r = bytes bs := by
  match bs with
  | [] => exact absurd rfl some_
  | [bp] => exact Yields.pure rfl
  | bp :: c :: bs =>
    have total : (blocklen (bp :: c :: bs)).toNat = (bytes (bp :: c :: bs)).length := by
      rw [blocklen_eq small]
      rfl
    refine Yields.bind ((allocb_yields 0 _).imp fun nb ⟨good, empty, rp, wp, lim⟩ => Yields.bind ?_)
    refine (putAll_yields good (by omega)).imp fun r filled => Yields.pure ?_
    rw [bytes_single, filled.bytes, empty, List.nil_append]

/-- A chain of good blocks. -/
def Good (bs : List Block) : Prop := ∀ b ∈ bs, b.Good

theorem Good.head (good : Good (b :: bs)) : b.Good := good b List.mem_cons_self

theorem Good.tail (good : Good (b :: bs)) : Good bs := fun c member => good c (List.mem_cons_of_mem b member)

theorem good_cons (first : b.Good) (rest : Good bs) : Good (b :: bs) := List.forall_mem_cons.mpr ⟨first, rest⟩

/-- The chain has the bytes, the first `n` of them in its first block; nil where there are fewer. -/
def PulledUp (data : List UInt8) (n : Nat) (r : Option (List Block)) : Prop :=
  if data.length < n then r = none
  else ∃ c cs, r = some (c :: cs) ∧ Good (c :: cs) ∧ bytes (c :: cs) = data ∧ n ≤ c.blen

theorem pullupLoop_yields (good : b.Good) (goods : Good bs) (fits : b.wp + n ≤ b.lim) (more : 0 < n) :
    Yields (pullupLoop n b bs) (PulledUp (b.bytes ++ bytes bs) (b.blen + n)) := by
  have order := good.rp
  induction bs generalizing b n with
  | nil =>
    have few : (b.bytes ++ bytes []).length < b.blen + n := by
      rw [bytes, List.flatMap_nil, List.append_nil, length_bytes]
      lia
    exact Yields.pure (by rw [PulledUp, if_pos few])
  | cons nbp bs ih =>
    unfold pullupLoop
    dsimp only
    by_cases enough : nbp.blen > n
    · rw [if_pos enough]
      have firsts := first_eq enough.le
      have length : (nbp.first n).length = n := length_readBytes ..
      refine Yields.bind ((put_yields good (by lia)).imp fun c filled => Yields.pure ?_)
      obtain ⟨rest, left⟩ := goods.head.skip enough.le
      have whole : ¬(b.bytes ++ bytes (nbp :: bs)).length < b.blen + n := by
        rw [List.length_append, length_bytes, length_bytes_cons]
        lia
      rw [PulledUp, if_neg whole]
      have blen : c.blen = b.blen + n := by
        rw [← length_bytes, filled.bytes, List.length_append, length_bytes, length]
      refine ⟨c, nbp.skip n :: bs, rfl, good_cons filled.good (good_cons rest goods.tail), ?_, blen.ge⟩
      rw [bytes_cons, bytes_cons, bytes_cons, filled.bytes, left, firsts, List.append_assoc,
        ← List.append_assoc _ _ (bytes bs), List.take_append_drop]
    · rw [if_neg enough]
      have length : (nbp.first nbp.blen).length = nbp.blen := length_readBytes ..
      refine Yields.bind ((put_yields good (by lia)).imp fun c filled => ?_)
      have blen : c.blen = b.blen + nbp.blen := by
        rw [← length_bytes, filled.bytes, List.length_append, length_bytes, length]
      have same : c.bytes ++ bytes bs = b.bytes ++ bytes (nbp :: bs) := by
        rw [filled.bytes, bytes_cons, List.append_assoc, first_bytes]
      have wp := filled.wp
      have lim := filled.lim
      by_cases done : n - nbp.blen = 0
      · rw [if_pos done]
        have whole : ¬(b.bytes ++ bytes (nbp :: bs)).length < b.blen + n := by
          rw [List.length_append, length_bytes, length_bytes_cons]
          lia
        refine Yields.pure ?_
        rw [PulledUp, if_neg whole]
        exact ⟨c, bs, rfl, good_cons filled.good goods.tail, by rw [bytes_cons, same], by lia⟩
      · rw [if_neg done]
        have next := ih filled.good goods.tail (n := n - nbp.blen) (by lia) (by lia) filled.good.rp
        rw [same, blen, Nat.add_assoc, Nat.add_sub_cancel' (by lia)] at next
        exact next

theorem pullupblock_yields (goods : Good bs) (some_ : bs ≠ []) :
    Yields (pullupblock heap n bs) (PulledUp (bytes bs) n) := by
  match bs with
  | [] => exact absurd rfl some_
  | bp :: bs =>
    have good := goods.head
    have order := good.rp
    have top := good.wp
    unfold pullupblock
    dsimp only
    by_cases enough : bp.blen ≥ n
    · rw [if_pos enough]
      have whole : ¬(bytes (bp :: bs)).length < n := by
        rw [length_bytes_cons]
        omega
      refine Yields.pure ?_
      rw [PulledUp, if_neg whole]
      exact ⟨bp, bs, rfl, goods, rfl, enough⟩
    · rw [if_neg enough]
      by_cases small : bp.lim - bp.rp < n
      · rw [if_pos small]
        refine Yields.bind ((allocb_yields 0 n).imp fun nb ⟨good, empty, rp, wp, lim⟩ => ?_)
        have none : nb.blen = 0 := by
          unfold Block.blen
          omega
        have next := pullupLoop_yields good goods (n := n - nb.blen) (by omega) (by omega)
        rw [empty, none, List.nil_append, Nat.zero_add, Nat.sub_zero] at next
        rw [none, Nat.sub_zero]
        exact next
      · rw [if_neg small]
        have room : bp.wp + (n - bp.blen) ≤ bp.lim := by
          unfold Block.blen at enough ⊢
          omega
        have next := pullupLoop_yields good goods.tail room (by omega)
        rw [Nat.add_sub_cancel' (by omega), ← bytes_cons] at next
        exact next

/-- `trimStart` gives up at the end of the chain only. -/
theorem trimStart_eq (off : Nat) (goods : Good bs) :
    if bs = [] ∨ (bytes bs).length < off then trimStart off bs = .error .nilref
    else ∃ o b cs, trimStart off bs = .ok (o, b, cs) ∧ o ≤ b.blen ∧ b.Good ∧ Good cs ∧
      b.bytes.drop o ++ bytes cs = (bytes bs).drop off := by
  induction bs generalizing off with
  | nil => exact if_pos (Or.inl rfl) ▸ rfl
  | cons b bs ih =>
    unfold trimStart
    rw [length_bytes_cons]
    by_cases before : b.blen < off
    · rw [if_pos before]
      have next := ih (off - b.blen) goods.tail
      by_cases short : b.blen + (bytes bs).length < off
      · rw [if_pos (Or.inr (by omega))] at next
        rw [if_pos (Or.inr short)]
        exact next
      · have some_ : bs ≠ [] := fun none => short (by rw [none]; exact before)
        rw [if_neg (not_or.mpr ⟨some_, by omega⟩)] at next
        rw [if_neg (not_or.mpr ⟨List.cons_ne_nil _ _, short⟩)]
        obtain ⟨o, c, cs, ran, inside, good, rest, same⟩ := next
        refine ⟨o, c, cs, ran, inside, good, rest, ?_⟩
        rw [same, drop_bytes before.le]
    · rw [if_neg before, if_neg (not_or.mpr ⟨List.cons_ne_nil _ _, by omega⟩)]
      refine ⟨off, b, bs, rfl, by omega, goods.head, goods.tail, ?_⟩
      rw [bytes_cons, List.drop_append_of_le_length (by rw [length_bytes]; omega)]

theorem trimEnd_eq (len : Nat) (goods : Good bs) :
    if bs = [] ∨ (bytes bs).length < len then trimEnd len bs = .error .nilref
    else ∃ cs, trimEnd len bs = .ok cs ∧ Good cs ∧ bytes cs = (bytes bs).take len := by
  induction bs generalizing len with
  | nil => exact if_pos (Or.inl rfl) ▸ rfl
  | cons b bs ih =>
    unfold trimEnd
    rw [length_bytes_cons]
    by_cases before : b.blen < len
    · rw [if_pos before]
      have next := ih (len - b.blen) goods.tail
      by_cases short : b.blen + (bytes bs).length < len
      · rw [if_pos (Or.inr (by omega))] at next
        rw [if_pos (Or.inr short), next]
        rfl
      · have some_ : bs ≠ [] := fun none => short (by rw [none]; exact before)
        rw [if_neg (not_or.mpr ⟨some_, by omega⟩)] at next
        rw [if_neg (not_or.mpr ⟨List.cons_ne_nil _ _, short⟩)]
        obtain ⟨cs, ran, rest, same⟩ := next
        refine ⟨b :: cs, by rw [ran]; rfl, good_cons goods.head rest, ?_⟩
        rw [bytes_cons, same, take_bytes before.le]
    · rw [if_neg before, if_neg (not_or.mpr ⟨List.cons_ne_nil _ _, by omega⟩)]
      obtain ⟨good, same⟩ := goods.head.cut (n := len) (by omega)
      refine ⟨[b.cut len], rfl, good_cons good fun _ member => (nomatch member), ?_⟩
      rw [bytes_single, same, bytes_cons, List.take_append_of_le_length (by rw [length_bytes]; omega)]

/-- The bytes from `off` up to `off + len`; nil where there are fewer. -/
def Trimmed (data : List UInt8) (off len : Nat) (r : Option (List Block)) : Prop :=
  if data.length < off + len then r = none
  else ∃ cs, r = some cs ∧ Good cs ∧ bytes cs = (data.drop off).take len

theorem int_of_ge {i : Int} (high : 2 ^ 31 ≤ i) (less : i < 2 ^ 32) : int i = i - 2 ^ 32 := by
  simp only [int, Int.bmod_def]
  lia

/-- What `trimblock` does once `offset` has been found. -/
theorem trimStart_drop (off : Nat) (goods : Good bs) (some_ : bs ≠ []) (inside : off ≤ (bytes bs).length) :
    ∃ o b cs, trimStart off bs = .ok (o, b, cs) ∧ Good (b.skip o :: cs) ∧
      bytes (b.skip o :: cs) = (bytes bs).drop off := by
  have start := trimStart_eq off goods
  rw [if_neg (not_or.mpr ⟨some_, by omega⟩)] at start
  obtain ⟨o, b, cs, ran, less, good, rest, same⟩ := start
  obtain ⟨good', skipped⟩ := good.skip less
  exact ⟨o, b, cs, ran, good_cons good' rest, by rw [bytes_cons, skipped, same]⟩

theorem trimblock_yields (goods : Good bs) (some_ : bs ≠ []) (small : (bytes bs).length < 2 ^ 31)
    (fits : off + len < 2 ^ 31) : Yields (trimblock bs off len) (Trimmed (bytes bs) off len) := by
  have sum : int ((off : Int) + len) = off + len := int_of_lt (by omega) (by omega)
  unfold trimblock
  rw [blocklen_eq small, sum]
  by_cases short : (bytes bs).length < off + len
  · rw [if_pos (by omega)]
    exact Yields.pure (by rw [Trimmed, if_pos short])
  · rw [if_neg (by omega)]
    obtain ⟨o, b, cs, ran, good, data⟩ := trimStart_drop off goods some_ (by omega)
    have final := trimEnd_eq len good
    rw [data, List.length_drop, if_neg (not_or.mpr ⟨List.cons_ne_nil _ _, by omega⟩)] at final
    obtain ⟨ds, ran', goods', same'⟩ := final
    have trimmed : Trimmed (bytes bs) off len (some ds) := by
      unfold Trimmed
      rw [if_neg short]
      exact ⟨ds, rfl, goods', same'⟩
    rw [ran]
    refine Yields.bind (Yields.ok (Yields.bind ?_))
    rw [ran']
    exact Yields.ok (Yields.pure trimmed)

/-- Where `offset + len` overflows, `trimblock` runs off the chain. -/
theorem trimblock_overflows (goods : Good bs) (some_ : bs ≠ []) (small : (bytes bs).length < 2 ^ 31)
    (low : off < 2 ^ 31) (low' : len < 2 ^ 31) (above : 2 ^ 31 ≤ off + len) :
    trimblock bs off len = .error .nilref := by
  have sum : int ((off : Int) + len) = off + len - 2 ^ 32 := int_of_ge (by omega) (by omega)
  unfold trimblock
  rw [blocklen_eq small, sum, if_neg (by omega)]
  by_cases far : (bytes bs).length < off
  · have start := trimStart_eq off goods
    rw [if_pos (Or.inr far)] at start
    rw [start]
    rfl
  · obtain ⟨o, b, cs, ran, good, data⟩ := trimStart_drop off goods some_ (by omega)
    have final := trimEnd_eq len good
    rw [data, List.length_drop, if_pos (Or.inr (by omega))] at final
    rw [ran]
    exact congrArg (· >>= fun r => pure (some r)) final

theorem min_eq (n m : Nat) : (if n > m then m else n) = min n m := by
  split
  · omega
  · omega

theorem readBytes_min (mem : ByteMem) (p n m : Nat) : readBytes mem p (min n m) = (readBytes mem p n).take m := by
  have split := readBytes_add mem p (min n m) (n - min n m)
  rw [Nat.add_sub_cancel' (min_le_left n m)] at split
  rw [split, List.take_append, length_readBytes, List.take_of_length_le (by rw [length_readBytes]; omega)]
  rcases le_total n m with all | less
  · rw [min_eq_left all, Nat.sub_self]
    exact (List.append_nil _).symm.trans (congrArg (_ ++ ·) List.take_nil.symm)
  · rw [min_eq_right less, Nat.sub_self, List.take_zero, List.append_nil]

theorem copyLoop_yields (good : nb.Good) (goods : Good bs) (fits : nb.wp + count ≤ nb.lim) :
    Yields (copyLoop count nb bs) fun r => r.1 = count - (bytes bs).length ∧
      Filled nb ((bytes bs).take count) r.2 := by
  induction bs generalizing nb count with
  | nil =>
    have none : (bytes []).take count = [] := List.take_nil
    rw [none]
    exact Yields.pure ⟨rfl, good, (List.append_nil _).symm, rfl, rfl, rfl⟩
  | cons b bs ih =>
    unfold copyLoop
    by_cases more : count > 0
    · rw [if_pos more]
      dsimp only
      rw [min_eq]
      have firsts : b.first (min b.blen count) = b.bytes.take count := readBytes_min ..
      have length : (b.first (min b.blen count)).length = min b.blen count := length_readBytes ..
      refine Yields.bind ((put_yields good (by lia)).imp fun c filled => ?_)
      have wp := filled.wp
      have lim := filled.lim
      refine (ih filled.good goods.tail (by lia)).imp fun r ⟨left, rest⟩ => ⟨?_, rest.good, ?_, ?_, ?_, ?_⟩
      · rw [left, length_bytes_cons]
        lia
      · have left : count - min b.blen count = count - b.blen := by lia
        rw [rest.bytes, filled.bytes, firsts, left, bytes_cons, List.take_append, length_bytes, List.append_assoc]
      · exact rest.rp.trans filled.rp
      · rw [rest.wp, wp, length, List.length_take, List.length_take, length_bytes_cons]
        lia
      · exact rest.lim.trans lim
    · rw [if_neg more]
      obtain rfl : count = 0 := by lia
      exact Yields.pure ⟨(Nat.zero_sub _).symm, good, by rw [List.take_zero, List.append_nil], rfl, rfl, rfl⟩

/-- `copyblock` copies the first `count` bytes and pads them with zeros. -/
theorem copyblock_yields (goods : Good bs) :
    Yields (copyblock heap bs count) fun c => c.Good ∧
      c.bytes = (bytes bs).take count ++ List.replicate (count - (bytes bs).length) 0 := by
  refine Yields.bind ((allocb_yields 0 count).imp fun nb ⟨good, empty, rp, wp, lim⟩ => ?_)
  refine Yields.bind ((copyLoop_yields good goods (by omega)).imp fun r ⟨left, filled⟩ => ?_)
  obtain ⟨k, c⟩ := r
  dsimp only at left filled ⊢
  subst left
  have data := filled.bytes
  rw [empty, List.nil_append] at data
  by_cases more : count - (bytes bs).length > 0
  · rw [if_pos more]
    have wp := filled.wp
    have lim := filled.lim
    rw [List.length_take] at wp
    refine (put_yields filled.good (by rw [List.length_replicate]; omega)).imp fun d padded => ⟨padded.good, ?_⟩
    rw [padded.bytes, data]
  · rw [if_neg more]
    refine Yields.pure ⟨filled.good, ?_⟩
    have zero : count - (bytes bs).length = 0 := by omega
    rw [data, zero, List.replicate_zero, List.append_nil]

/-- `pullblock` throws away the first `count` bytes. -/
theorem pullblock_eq (count : Nat) (goods : Good bs) : (pullblock bs count).1 = min count (bytes bs).length ∧
    Good (pullblock bs count).2 ∧ bytes (pullblock bs count).2 = (bytes bs).drop count := by
  induction bs generalizing count with
  | nil => exact ⟨(Nat.min_zero count).symm, goods, List.drop_nil.symm⟩
  | cons b bs ih =>
    unfold pullblock
    by_cases zero : count = 0
    · rw [if_pos zero, zero]
      exact ⟨(Nat.zero_min _).symm, goods, rfl⟩
    · rw [if_neg zero]
      dsimp only
      by_cases part : count < b.blen
      · obtain ⟨good, data⟩ := goods.head.skip part.le
        have left : (b.skip count).blen = b.blen - count := by rw [← length_bytes, data, List.length_drop, length_bytes]
        rw [if_pos part, left, if_neg (by lia)]
        refine ⟨?_, good_cons good goods.tail, ?_⟩
        · rw [length_bytes_cons]
          lia
        · rw [bytes_cons, data, bytes_cons, List.drop_append_of_le_length (by rw [length_bytes]; lia)]
      · obtain ⟨good, data⟩ := goods.head.skip (n := b.blen) (le_refl _)
        have left : (b.skip b.blen).blen = 0 := by
          rw [← length_bytes, data, List.length_drop, length_bytes, Nat.sub_self]
        obtain ⟨thrown, rest, same⟩ := ih (count - b.blen) goods.tail
        rw [if_neg part, left, if_pos rfl]
        refine ⟨?_, rest, ?_⟩
        · rw [thrown, length_bytes_cons]
          lia
        · rw [same, drop_bytes (by lia)]

theorem seek_eq (off sofar : Nat) (goods : Good bs) (before : sofar ≤ off) :
    match seek off sofar bs with
    | none => (bytes bs).drop (off - sofar) = []
    | some (p, n, b, cs) => Good cs ∧ readBytes b.mem p n ++ bytes cs = (bytes bs).drop (off - sofar) := by
  induction bs generalizing sofar with
  | nil => exact List.drop_nil
  | cons b bs ih =>
    unfold seek
    dsimp only
    by_cases here : sofar + b.blen > off
    · rw [if_pos here]
      obtain ⟨good, data⟩ := goods.head.skip (n := off - sofar) (by omega)
      have left : (b.skip (off - sofar)).blen = b.blen - (off - sofar) := by
        rw [← length_bytes, data, List.length_drop, length_bytes]
      have place : b.rp + off - sofar = b.rp + (off - sofar) := by omega
      refine ⟨goods.tail, ?_⟩
      rw [bytes_cons, List.drop_append_of_le_length (by rw [length_bytes]; omega), ← data, place, Block.bytes, left]
      rfl
    · rw [if_neg here, drop_bytes (by omega), Nat.sub_sub]
      exact ih (sofar + b.blen) goods.tail (by omega)

theorem qcopyLoop_yields {mem : ByteMem} {p : Nat} (good : nb.Good) (goods : Good bs)
    (fits : nb.wp + (len - sofar) ≤ nb.lim) :
    Yields (qcopyLoop len sofar nb mem p n bs) fun c =>
      c.Good ∧ c.bytes = nb.bytes ++ (readBytes mem p n ++ bytes bs).take (len - sofar) := by
  induction bs generalizing nb mem p n sofar with
  | nil =>
    unfold qcopyLoop
    rw [bytes, List.flatMap_nil, List.append_nil]
    by_cases more : sofar < len
    · rw [if_pos more, min_eq, readBytes_min]
      refine (put_yields good (by rw [List.length_take, length_readBytes]; lia)).imp fun c filled => ?_
      exact ⟨filled.good, filled.bytes⟩
    · rw [if_neg more]
      have none : len - sofar = 0 := by lia
      exact Yields.pure ⟨good, by rw [none, List.take_zero, List.append_nil]⟩
  | cons b bs ih =>
    unfold qcopyLoop
    by_cases more : sofar < len
    · rw [if_pos more]
      dsimp only
      rw [min_eq]
      have length : (readBytes mem p (min n (len - sofar))).length = min n (len - sofar) := length_readBytes ..
      refine Yields.bind ((put_yields good (by lia)).imp fun c filled => ?_)
      have wp := filled.wp
      have lim := filled.lim
      refine (ih filled.good goods.tail (by lia)).imp fun d ⟨good', data⟩ => ⟨good', ?_⟩
      have rest : len - (sofar + min n (len - sofar)) = len - sofar - n := by lia
      have here : readBytes b.mem b.rp b.blen = b.bytes := rfl
      rw [data, filled.bytes, readBytes_min, rest, here, ← bytes_cons, List.append_assoc, List.take_append,
        length_readBytes]
    · rw [if_neg more]
      have none : len - sofar = 0 := by lia
      exact Yields.pure ⟨good, by rw [none, List.take_zero, List.append_nil]⟩

/-- `qcopy` copies the bytes from `off` up to `off + len`, or to the end. -/
theorem qcopy_yields (goods : Good bs) :
    Yields (qcopy heap bs len off) fun c => c.Good ∧ c.bytes = ((bytes bs).drop off).take len := by
  refine Yields.bind ((allocb_yields 0 len).imp fun nb ⟨good, empty, rp, wp, lim⟩ => ?_)
  have found := seek_eq off 0 goods (Nat.zero_le off)
  rw [Nat.sub_zero] at found
  match seek off 0 bs, found with
  | none, beyond => exact Yields.pure ⟨good, by rw [empty, beyond, List.take_nil]⟩
  | some (p, n, b, cs), ⟨goods', rest⟩ =>
    refine (qcopyLoop_yields good goods' (by omega)).imp fun c ⟨good', data⟩ => ⟨good', ?_⟩
    rw [data, empty, List.nil_append, rest, Nat.sub_zero]

/-- `packblock` keeps the bytes. -/
theorem packblock_yields (goods : Good bs) (k : Nat) :
    Yields (packblock heap k bs) fun cs => Good cs ∧ bytes cs = bytes bs := by
  induction bs generalizing k with
  | nil => exact Yields.pure ⟨goods, rfl⟩
  | cons b bs ih =>
    unfold packblock
    dsimp only
    rcases lt_or_ge (int (b.blen * 4)) b.balloc with loose | tight
    · rw [if_pos loose]
      refine Yields.bind ((allocb_yields k b.blen).imp fun nb ⟨good, empty, rp, wp, lim⟩ => ?_)
      have length : (b.first b.blen).length = b.blen := length_readBytes ..
      refine Yields.bind ((put_yields good (by omega)).imp fun c filled => ?_)
      refine Yields.bind ((ih goods.tail (k + 1)).imp fun cs ⟨rest, same⟩ => Yields.pure ?_)
      refine ⟨good_cons filled.good rest, ?_⟩
      rw [bytes_cons, bytes_cons, same, filled.bytes, empty, List.nil_append, first_bytes]
    · rw [if_neg (not_lt.mpr tight)]
      refine Yields.bind ((ih goods.tail k).imp fun cs ⟨rest, same⟩ => Yields.pure ⟨good_cons goods.head rest, ?_⟩)
      rw [bytes_cons, bytes_cons, same]

/-- What the operations are on the bytes of a chain; three of them are given a block at least. -/
def ListOps (heap : Nat → Nat → Option ByteMem) (bs : List Block) (off len n count : Nat) : Prop :=
  (bs ≠ [] → Yields (trimblock bs off len) (Trimmed (bytes bs) off len)) ∧
  (bs ≠ [] → Yields (pullupblock heap n bs) (PulledUp (bytes bs) n)) ∧
  ((pullblock bs count).1 = min count (bytes bs).length ∧ bytes (pullblock bs count).2 = (bytes bs).drop count) ∧
  (Yields (copyblock heap bs count) fun c =>
    c.bytes = (bytes bs).take count ++ List.replicate (count - (bytes bs).length) 0) ∧
  (Yields (qcopy heap bs len off) fun c => c.bytes = ((bytes bs).drop off).take len) ∧
  (bs ≠ [] → Yields (concatblock heap bs) fun cs => bytes cs = bytes bs) ∧
  Yields (packblock heap 0 bs) fun cs => bytes cs = bytes bs

/-- The operations are right on every chain, but for `trimblock` where `offset + len` overflows. -/
theorem listOps_iff (heap : Nat → Nat → Option ByteMem) (bs : List Block) (off len n count : Nat) (goods : Good bs)
    (small : (bytes bs).length < 2 ^ 31) (low : off < 2 ^ 31) (low' : len < 2 ^ 31) :
    ListOps heap bs off len n count ↔ off + len < 2 ^ 31 ∨ bs = [] := by
  constructor
  · intro ops
    by_contra bad
    obtain ⟨above, some_⟩ := not_or.mp bad
    have yields := ops.1 some_
    rw [trimblock_overflows goods some_ small low low' (by omega)] at yields
    exact Yields.not_nilref yields
  · intro fits
    refine ⟨fun some_ => ?_, pullupblock_yields goods, ?_, ?_, ?_, concatblock_yields small, ?_⟩
    · exact trimblock_yields goods some_ small (fits.resolve_right some_)
    · obtain ⟨thrown, -, rest⟩ := pullblock_eq count goods
      exact ⟨thrown, rest⟩
    · exact (copyblock_yields goods).imp fun c copied => copied.2
    · exact (qcopy_yields goods).imp fun c copied => copied.2
    · exact (packblock_yields goods 0).imp fun cs packed => packed.2

/-- A chain of two blocks, with three bytes and one. -/
def pair : List Block := [⟨fun p => p.toUInt8, 2, 5, 8⟩, ⟨fun p => p.toUInt8, 0, 1, 64⟩]

theorem pair_good : Good pair := good_cons ⟨by decide, by decide⟩ (good_cons ⟨by decide, by decide⟩ fun _ member =>
  (nomatch member))

theorem pair_bytes : bytes pair = [2, 3, 4, 0] := by decide

theorem listOps_pair :
    ListOps (fun _ _ => some fun _ => 0) pair 1 3 4 6 ↔ 1 + 3 < 2 ^ 31 ∨ pair = [] :=
  listOps_iff _ pair 1 3 4 6 pair_good (by rw [pair_bytes]; decide) (by decide) (by decide)

/-- One byte is asked for beyond all others. -/
theorem trimblock_wraps :
    ¬ListOps (fun _ _ => some fun _ => 0) pair (2 ^ 31 - 1) 1 4 6 := by
  intro ops
  have yields := ops.1 (List.cons_ne_nil _ _)
  have ran : trimblock pair (2 ^ 31 - 1) 1 = .error .nilref := by rfl
  rw [ran] at yields
  exact Yields.not_nilref yields

end Inferno.Qio.Blocks
