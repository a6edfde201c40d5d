import Inferno.Lib.Run

namespace Inferno.Mnt

/-- `NMASK` words of `1<<TAGSHIFT` tags each. -/
def tagshift : Nat := 5
def nmask : Nat := 2048
def notag : Nat := 0xFFFF

/-- An `Mntrpc` as the allocator sees it: the tag of its request and the
length of its buffer, a `uint`. -/
structure Mntrpc where
  tag : Nat
  rpclen : Nat
deriving DecidableEq

/-- `mntalloc`. `inuse` is not in the source: the `Mntrpc`s handed out and not
freed since. -/
structure Mntalloc where
  rpcfree : List Mntrpc
  nrpcfree : Int
  nrpcused : Int
  tagmask : Nat → BitVec 64
  inuse : List Mntrpc

/-- The `int` `1<<j` as an operand of a 64-bit `ulong`. -/
def oneShl (j : Nat) : BitVec 64 := (1#32 <<< j).signExtend 64

/-- The inner loop of `alloctag`. -/
def freeBit (v : BitVec 64) : Option Nat :=
  if v = BitVec.allOnes 64 then none else (List.range 32).find? fun j => v &&& oneShl j == 0

/-- The outer loop, over `n` words from word `i`. -/
def freeWord (tagmask : Nat → BitVec 64) : Nat → Nat → Option (Nat × Nat)
  | 0, _ => none
  | n + 1, i =>
    match freeBit (tagmask i) with
    | some j => some (i, j)
    | none => freeWord tagmask n (i + 1)

/-- `alloctag`, with `NOTAG` when every tag is taken. -/
def alloctag (tagmask : Nat → BitVec 64) : Nat × (Nat → BitVec 64) :=
  match freeWord tagmask nmask 0 with
  | some (i, j) => (i * 2 ^ tagshift + j, Function.update tagmask i (tagmask i ||| oneShl j))
  | none => (notag, tagmask)

def freetag (tagmask : Nat → BitVec 64) (t : Nat) : Nat → BitVec 64 :=
  Function.update tagmask (t / 2 ^ tagshift) (tagmask (t / 2 ^ tagshift) &&& ~~~ oneShl (t % 2 ^ tagshift))

/-- `mntinit` keeps 0 and `NOTAG` from being allocated. -/
def mntinit : Mntalloc where
  rpcfree := []
  nrpcfree := 0
  nrpcused := 0
  tagmask := Function.update (Function.update (fun _ => 0) 0 1) (nmask - 1) 0x80000000
  inuse := []

def uint (n : Nat) : Nat := n % 2 ^ 32

namespace Mntalloc

/-- `mntralloc`, with whether the allocation of a header and that of a buffer
succeed. A failure is the text `exhausted` raises. -/
def mntralloc (a : Mntalloc) (msize : Nat) (header buffer : Bool) : Except String Mntrpc × Mntalloc :=
  match a.rpcfree with
  | [] =>
    if header = false then (.error "mount rpc header", a)
    else if buffer = false then (.error "mount rpc buffer", a)
    else
      let (tag, tagmask) := alloctag a.tagmask
      let a := { a with tagmask := tagmask }
      if tag = notag then (.error "rpc tags", a)
      else
        let r := ⟨tag, uint msize⟩
        (.ok r, { a with nrpcused := a.nrpcused + 1, inuse := r :: a.inuse })
  | r :: rpcfree =>
    let a := { a with rpcfree := rpcfree, nrpcfree := a.nrpcfree - 1 }
    if r.rpclen < msize then
      if buffer = false then (.error "mount rpc buffer", { a with nrpcused := a.nrpcused - 1 })
      else
        let r := { r with rpclen := uint msize }
        (.ok r, { a with nrpcused := a.nrpcused + 1, inuse := r :: a.inuse })
    else (.ok r, { a with nrpcused := a.nrpcused + 1, inuse := r :: a.inuse })

def mntfree (a : Mntalloc) (r : Mntrpc) : Mntalloc :=
  let a := { a with inuse := a.inuse.erase r }
  let a :=
    if a.nrpcfree ≥ 10 then { a with tagmask := freetag a.tagmask r.tag }
    else { a with rpcfree := r :: a.rpcfree, nrpcfree := a.nrpcfree + 1 }
  { a with nrpcused := a.nrpcused - 1 }

end Mntalloc

inductive Act
  | mntralloc (msize : Nat) (header buffer : Bool)
  | mntfree (r : Mntrpc)

/-- Only an `Mntrpc` in use is freed. -/
def Mntalloc.exec (act : Act) (a : Mntalloc) : Option Mntalloc :=
  match act with
  | .mntralloc msize header buffer => some (a.mntralloc msize header buffer).2
  | .mntfree r => if r ∈ a.inuse then some (a.mntfree r) else none

/-- The bit of a tag. -/
def tagged (tagmask : Nat → BitVec 64) (t : Nat) : Bool := (tagmask (t / 2 ^ tagshift)).getLsbD (t % 2 ^ tagshift)

def Mntalloc.held (a : Mntalloc) : List Nat := (a.inuse ++ a.rpcfree).map Mntrpc.tag

structure Mntalloc.Ok (a : Mntalloc) : Prop where
  distinct : a.held.Nodup
  valid : ∀ t ∈ a.held, t ≠ 0 ∧ t < notag
  mask : ∀ t < 2 ^ 16, tagged a.tagmask t = true ↔ t = 0 ∨ t = notag ∨ t ∈ a.held
  used : a.nrpcused = a.inuse.length
  free : a.nrpcfree = a.rpcfree.length

/-- A recycled `Mntrpc` whose buffer is too small gets a new one. -/
def Mntalloc.Grows (a : Mntalloc) : Act → Prop
  | .mntralloc msize _ buffer => (∀ r ∈ a.rpcfree.head?, r.rpclen < msize → buffer = true)
  | .mntfree _ => True

/-- The bits above the 32 in use: sign extension makes them copies of bit 31,
except in the last word, whose bit 31 is `NOTAG` and never changes. -/
def WordOk (i : Nat) (v : BitVec 64) : Prop :=
  (∀ k, 31 ≤ k → k < 64 → v.getLsbD k = v.getLsbD 31) ∨ i = nmask - 1 ∧ v.getLsbD 31 = true

theorem getLsbD_oneShl {j k : Nat} (small : j < 32) :
    (oneShl j).getLsbD k = (decide (k < 64) && (decide (k = j) || decide (j = 31) && decide (31 ≤ k))) := by
  have bit {n : Nat} : (1#32 <<< j).getLsbD n = decide (n < 32 ∧ n = j) := by
    simp only [BitVec.getLsbD_shiftLeft, BitVec.getLsbD_one]
    grind
  simp only [oneShl, BitVec.getLsbD_signExtend, BitVec.msb_eq_getLsbD_last, bit]
  grind

theorem and_oneShl_eq_zero {i j : Nat} {v : BitVec 64} (word : WordOk i v) (small : j < 32) :
    v &&& oneShl j = 0 ↔ v.getLsbD j = false := by
  constructor
  · intro none
    have bit : (v &&& oneShl j).getLsbD j = false := by
      rw [none]
      exact BitVec.getLsbD_zero
    rw [BitVec.getLsbD_and, getLsbD_oneShl small] at bit
    grind
  · intro clear
    apply BitVec.eq_of_getLsbD_eq
    intro k inWord
    simp only [BitVec.getLsbD_and, getLsbD_oneShl small]
    rcases word with copies | ⟨_, top⟩
    · have same := copies k
      grind
    · grind

theorem getLsbD_set {j k : Nat} (v : BitVec 64) (small : j < 32) (low : k < 32) :
    (v ||| oneShl j).getLsbD k = (v.getLsbD k || decide (k = j)) := by
  simp only [BitVec.getLsbD_or, getLsbD_oneShl small]
  grind

theorem getLsbD_clear {j k : Nat} (v : BitVec 64) (small : j < 32) (low : k < 32) :
    (v &&& ~~~ oneShl j).getLsbD k = (v.getLsbD k && decide (k ≠ j)) := by
  simp only [BitVec.getLsbD_and, BitVec.getLsbD_not, getLsbD_oneShl small]
  grind

theorem WordOk.set {i j : Nat} {v : BitVec 64} (word : WordOk i v) (small : j < 32) :
    WordOk i (v ||| oneShl j) := by
  rcases word with copies | ⟨last, top⟩
  · left
    intro k high inWord
    have same := copies k high inWord
    simp only [BitVec.getLsbD_or, getLsbD_oneShl small, same]
    grind
  · right
    refine ⟨last, ?_⟩
    rw [BitVec.getLsbD_or, top, Bool.true_or]

theorem WordOk.clear {i j : Nat} {v : BitVec 64} (word : WordOk i v) (small : j < 32)
    (kept : ¬ (i = nmask - 1 ∧ j = 31)) : WordOk i (v &&& ~~~ oneShl j) := by
  rcases word with copies | ⟨last, top⟩
  · left
    intro k high inWord
    have same := copies k high inWord
    simp only [BitVec.getLsbD_and, BitVec.getLsbD_not, getLsbD_oneShl small, same]
    grind
  · right
    refine ⟨last, ?_⟩
    rw [getLsbD_clear v small (by omega), top]
    grind

/-- What the inner loop of `alloctag` finds. -/
theorem freeBit_eq_some {i j : Nat} {v : BitVec 64} (word : WordOk i v) (found : freeBit v = some j) :
    j < 32 ∧ v.getLsbD j = false := by
  unfold freeBit at found
  split at found
  · nomatch found
  · have small : j < 32 := List.mem_range.mp (List.mem_of_find?_eq_some found)
    have clear := List.find?_some found
    exact ⟨small, (and_oneShl_eq_zero word small).mp (by simpa using clear)⟩

theorem tagged_div_mod {tagmask : Nat → BitVec 64} {i j : Nat} (small : j < 32) :
    tagged tagmask (i * 2 ^ tagshift + j) = (tagmask i).getLsbD j := by
  have word : (i * 2 ^ tagshift + j) / 2 ^ tagshift = i := by simp only [tagshift]; omega
  have bit : (i * 2 ^ tagshift + j) % 2 ^ tagshift = j := by simp only [tagshift]; omega
  rw [tagged, word, bit]

theorem freeWord_eq_some {tagmask : Nat → BitVec 64} {n i k j : Nat}
    (found : freeWord tagmask n i = some (k, j)) : k < i + n ∧ freeBit (tagmask k) = some j := by
  induction n generalizing i with
  | zero => nomatch found
  | succ n ih =>
    rw [freeWord] at found
    split at found
    · rename_i bit
      cases found
      exact ⟨by omega, bit⟩
    · have rest := ih found
      exact ⟨by omega, rest.2⟩

/-- A tag that `alloctag` hands out was free, and is the only one that changes. -/
theorem alloctag_spec {tagmask : Nat → BitVec 64} (words : ∀ i, WordOk i (tagmask i))
    (last : tagged tagmask notag = true) {t : Nat} {tagmask' : Nat → BitVec 64}
    (ran : alloctag tagmask = (t, tagmask')) :
    t = notag ∧ tagmask' = tagmask ∨
      t < notag ∧ tagged tagmask t = false ∧ (∀ i, WordOk i (tagmask' i)) ∧
        ∀ u, tagged tagmask' u = (tagged tagmask u || decide (u = t)) := by
  unfold alloctag at ran
  split at ran
  · rename_i i j found
    right
    obtain ⟨inMask, atWord⟩ := freeWord_eq_some found
    cases ran
    obtain ⟨small, clear⟩ := freeBit_eq_some (words i) atWord
    have free : tagged tagmask (i * 2 ^ tagshift + j) = false := by rw [tagged_div_mod small, clear]
    refine ⟨?_, free, ?_, ?_⟩
    · have other : i * 2 ^ tagshift + j ≠ notag := by
        intro same
        rw [same, last] at free
        nomatch free
      simp only [nmask, notag, tagshift] at *
      omega
    · intro k
      by_cases here : k = i
      · rw [here, Function.update_self]
        exact (words i).set small
      · rw [Function.update_of_ne here]
        exact words k
    · intro u
      have low : u % 2 ^ tagshift < 32 := by simp only [tagshift]; omega
      by_cases here : u / 2 ^ tagshift = i
      · rw [tagged, tagged, here, Function.update_self, getLsbD_set _ small low]
        refine congrArg _ (decide_eq_decide.mpr ?_)
        simp only [tagshift] at here ⊢
        omega
      · have other : u ≠ i * 2 ^ tagshift + j := by
          simp only [tagshift] at here ⊢
          omega
        rw [tagged, tagged, Function.update_of_ne here, decide_eq_false other, Bool.or_false]
  · cases ran
    exact Or.inl ⟨rfl, rfl⟩

theorem freetag_spec {tagmask : Nat → BitVec 64} (words : ∀ i, WordOk i (tagmask i)) {t : Nat}
    (kept : t ≠ notag) : (∀ i, WordOk i (freetag tagmask t i)) ∧
      ∀ u, tagged (freetag tagmask t) u = (tagged tagmask u && decide (u ≠ t)) := by
  have small : t % 2 ^ tagshift < 32 := by simp only [tagshift]; omega
  constructor
  · intro k
    by_cases here : k = t / 2 ^ tagshift
    · rw [here, freetag, Function.update_self]
      refine (words _).clear small ?_
      simp only [nmask, notag, tagshift] at *
      omega
    · rw [freetag, Function.update_of_ne here]
      exact words k
  · intro u
    have low : u % 2 ^ tagshift < 32 := by simp only [tagshift]; omega
    by_cases here : u / 2 ^ tagshift = t / 2 ^ tagshift
    · rw [tagged, tagged, freetag, here, Function.update_self, getLsbD_clear _ small low]
      congr 1
      simp only [tagshift] at *
      grind
    · have other : u ≠ t := by
        rintro rfl
        exact here rfl
      rw [tagged, tagged, freetag, Function.update_of_ne here, decide_eq_true other, Bool.and_true]

namespace Mntalloc

variable {a a' : Mntalloc}

structure Inv (a : Mntalloc) : Prop where
  ok : a.Ok
  words : ∀ i, WordOk i (a.tagmask i)

theorem mntinit_inv : mntinit.Inv := by
  have word (i : Nat) : mntinit.tagmask i = if i = nmask - 1 then 0x80000000 else if i = 0 then 1 else 0 := by
    simp only [mntinit, Function.update_apply]
  have last (k : Nat) : (0x80000000 : BitVec 64).getLsbD k = decide (k = 31) := by
    rw [show (0x80000000 : BitVec 64) = BitVec.twoPow 64 31 by decide, BitVec.getLsbD_twoPow]
    grind
  have first (k : Nat) : (1 : BitVec 64).getLsbD k = decide (k = 0) := by
    rw [show (1 : BitVec 64) = BitVec.twoPow 64 0 by decide, BitVec.getLsbD_twoPow]
    grind
  have zero (k : Nat) : (0 : BitVec 64).getLsbD k = false := BitVec.getLsbD_zero
  refine ⟨⟨List.nodup_nil, fun t member => (by cases member), ?_, rfl, rfl⟩, ?_⟩
  · intro t inMask
    have none : mntinit.held = [] := rfl
    rw [tagged, word, none]
    have top : t / 2 ^ tagshift = nmask - 1 ↔ 65504 ≤ t := by
      simp only [tagshift, nmask]
      omega
    have bottom : t / 2 ^ tagshift = 0 ↔ t < 32 := by
      simp only [tagshift]
      omega
    simp only [top, bottom, List.not_mem_nil, or_false, Mnt.notag]
    split_ifs
    · rw [last, decide_eq_true_eq, tagshift]
      omega
    · rw [first, decide_eq_true_eq, tagshift]
      omega
    · rw [zero]
      refine ⟨fun wrong => (by cases wrong), ?_⟩
      omega
  · intro i
    rw [word]
    split
    · exact Or.inr ⟨by assumption, by rw [last]; rfl⟩
    · left
      intro k high _
      split
      · rw [first, first]
        grind
      · rw [zero, zero]

/-- `mntalloc` with the same tags held and the same mask. -/
theorem Inv.of_perm (inv : a.Inv) (mask : a'.tagmask = a.tagmask) (same : a'.held.Perm a.held)
    (used : a'.nrpcused = a'.inuse.length) (free : a'.nrpcfree = a'.rpcfree.length) : a'.Inv where
  ok := {
    distinct := same.nodup_iff.mpr inv.ok.distinct
    valid := fun t member => inv.ok.valid t (same.mem_iff.mp member)
    mask := fun t small => by rw [mask, inv.ok.mask t small, same.mem_iff]
    used := used
    free := free }
  words := fun i => by rw [mask]; exact inv.words i

theorem Inv.notag (inv : a.Inv) : tagged a.tagmask Mnt.notag = true :=
  (inv.ok.mask Mnt.notag (by decide)).mpr (Or.inr (Or.inl rfl))

/-- An `Mntrpc` off the free list. -/
theorem Inv.recycle {r : Mntrpc} {rpcfree : List Mntrpc} {len : Nat} (inv : a.Inv) (list : a.rpcfree = r :: rpcfree) :
    Inv { a with rpcfree := rpcfree, nrpcfree := a.nrpcfree - 1, nrpcused := a.nrpcused + 1,
                 inuse := ⟨r.tag, len⟩ :: a.inuse } := by
  have used := inv.ok.used
  have free := inv.ok.free
  rw [list, List.length_cons] at free
  refine inv.of_perm rfl ?_ ?_ ?_
  · rw [held, held, list]
    simp only [List.map_append, List.map_cons, List.cons_append]
    exact List.perm_middle.symm
  · simp only [List.length_cons]
    omega
  · simp only
    omega

/-- An `Mntrpc` with a new tag. -/
theorem Inv.fresh {t len : Nat} {tagmask : Nat → BitVec 64} (inv : a.Inv)
    (ran : alloctag a.tagmask = (t, tagmask)) (got : t ≠ Mnt.notag) :
    Inv { a with tagmask := tagmask, nrpcused := a.nrpcused + 1, inuse := ⟨t, len⟩ :: a.inuse } := by
  have used := inv.ok.used
  rcases alloctag_spec inv.words inv.notag ran with ⟨none, _⟩ | ⟨small, clear, words, bits⟩
  · exact absurd none got
  have unheld : ¬ (t = 0 ∨ t = Mnt.notag ∨ t ∈ a.held) := by
    rw [← inv.ok.mask t (by simp only [Mnt.notag] at small; omega), clear]
    exact Bool.false_ne_true
  push Not at unheld
  refine ⟨⟨?_, ?_, ?_, ?_, inv.ok.free⟩, words⟩
  · exact List.nodup_cons.mpr ⟨unheld.2.2, inv.ok.distinct⟩
  · intro u member
    rcases List.mem_cons.mp member with rfl | old
    · exact ⟨unheld.1, small⟩
    · exact inv.ok.valid u old
  · intro u inMask
    have new : held { a with tagmask := tagmask, nrpcused := a.nrpcused + 1, inuse := ⟨t, len⟩ :: a.inuse } =
        t :: a.held := rfl
    rw [bits, Bool.or_eq_true, inv.ok.mask u inMask, decide_eq_true_eq, new, List.mem_cons,
      or_comm (a := u = t), or_assoc, or_assoc]
  · simp only [List.length_cons]
    omega

/-- `mntralloc` keeps the books, and changes nothing when it fails. -/
theorem mntralloc_spec (inv : a.Inv) {msize : Nat} {header buffer : Bool}
    (grows : a.Grows (.mntralloc msize header buffer)) :
    (a.mntralloc msize header buffer).2.Inv ∧
      ∀ e, (a.mntralloc msize header buffer).1 = .error e → (a.mntralloc msize header buffer).2 = a := by
  unfold mntralloc
  split
  · split
    · exact ⟨inv, fun _ _ => rfl⟩
    · split
      · exact ⟨inv, fun _ _ => rfl⟩
      · generalize tagEq : alloctag a.tagmask = found
        obtain ⟨t, tagmask⟩ := found
        dsimp only
        split
        · rename_i none
          rcases alloctag_spec inv.words inv.notag tagEq with ⟨_, rfl⟩ | ⟨small, _⟩
          · exact ⟨inv, fun _ _ => rfl⟩
          · omega
        · rename_i got
          exact ⟨inv.fresh tagEq got, fun e failed => (nomatch failed)⟩
  · rename_i r rpcfree list
    dsimp only
    split
    · rename_i short
      split
      · rename_i none
        have got := grows r (by rw [list]; rfl) short
        rw [got] at none
        nomatch none
      · exact ⟨inv.recycle list, fun e failed => (nomatch failed)⟩
    · exact ⟨inv.recycle list, fun e failed => (nomatch failed)⟩

theorem mntfree_inv {r : Mntrpc} (inv : a.Inv) (member : r ∈ a.inuse) : (a.mntfree r).Inv := by
  have used := inv.ok.used
  have free := inv.ok.free
  have shorter := List.length_erase_of_mem member
  have some : 0 < a.inuse.length := List.length_pos_of_mem member
  have split : a.held.Perm (r.tag :: ((a.inuse.erase r) ++ a.rpcfree).map Mntrpc.tag) := by
    have front : (a.inuse ++ a.rpcfree).Perm (r :: (a.inuse.erase r ++ a.rpcfree)) :=
      (List.perm_cons_erase member).append_right _
    exact front.map Mntrpc.tag
  unfold mntfree
  dsimp only
  split
  · have distinct := split.nodup_iff.mp inv.ok.distinct
    rw [List.nodup_cons] at distinct
    have valid := inv.ok.valid r.tag (split.mem_iff.mpr List.mem_cons_self)
    obtain ⟨words, bits⟩ := freetag_spec inv.words (Nat.ne_of_lt valid.2)
    refine ⟨⟨distinct.2, ?_, ?_, ?_, free⟩, words⟩
    · intro t old
      exact inv.ok.valid t (split.mem_iff.mpr (List.mem_cons_of_mem _ old))
    · intro t inMask
      have rest : held ⟨a.rpcfree, a.nrpcfree, a.nrpcused - 1, freetag a.tagmask r.tag, a.inuse.erase r⟩ =
          ((a.inuse.erase r) ++ a.rpcfree).map Mntrpc.tag := rfl
      rw [bits, Bool.and_eq_true, inv.ok.mask t inMask, split.mem_iff, decide_eq_true_eq, rest, List.mem_cons]
      by_cases gone : t = r.tag
      · subst gone
        have nonzero := valid.1
        have below := Nat.ne_of_lt valid.2
        tauto
      · tauto
    · simp only
      omega
  · refine inv.of_perm rfl ?_ ?_ ?_
    · refine List.Perm.trans ?_ split.symm
      rw [held]
      simp only [List.map_append, List.map_cons]
      exact List.perm_middle
    · simp only
      omega
    · simp only [List.length_cons]
      omega

theorem exec_inv (inv : a.Inv) {act : Act} (grows : a.Grows act) (ran : exec act a = some a') : a'.Inv := by
  cases act with
  | mntralloc msize header buffer =>
    cases ran
    exact (mntralloc_spec inv grows).1
  | mntfree r =>
    simp only [exec] at ran
    split at ran
    · rename_i member
      cases ran
      exact mntfree_inv inv member
    · nomatch ran

/-- As long as every recycled `Mntrpc` that is too small gets its new buffer,
the mask, the lists and the counters agree, and a failed `mntralloc` changes
none of them. -/
theorem tags_ok (run : Lib.Run exec (fun act a => a.Grows act) mntinit a) :
    a.Ok ∧ ∀ msize header buffer e, a.Grows (.mntralloc msize header buffer) →
      (a.mntralloc msize header buffer).1 = .error e → (a.mntralloc msize header buffer).2 = a := by
  have inv := run.invariant Inv mntinit_inv fun inv grows ran => exec_inv inv grows ran
  exact ⟨inv.ok, fun msize header buffer e grows failed => (mntralloc_spec inv grows).2 e failed⟩

/-- A second mount with a larger message size recycles the only `Mntrpc` and
runs out of memory for its buffer: its tag is lost, and one use too many is
taken off. -/
def lostTag : Mntalloc :=
  ((mntinit.mntralloc 100 true true).2.mntfree ⟨1, 100⟩ |>.mntralloc 200 true false).2

theorem tag_lost : Lib.Run exec (fun _ _ => True) mntinit lostTag ∧
    lostTag.nrpcused ≠ lostTag.inuse.length ∧ tagged lostTag.tagmask 1 = true ∧ 1 ∉ lostTag.held := by
  refine ⟨?_, by decide, by decide, by decide⟩
  have first : Lib.Run exec (fun _ _ => True) mntinit (mntinit.mntralloc 100 true true).2 :=
    Lib.Run.start.step (a := .mntralloc 100 true true) trivial rfl
  have freed : Lib.Run exec (fun _ _ => True) mntinit ((mntinit.mntralloc 100 true true).2.mntfree ⟨1, 100⟩) :=
    first.step (a := .mntfree ⟨1, 100⟩) trivial rfl
  exact freed.step (a := .mntralloc 200 true false) trivial rfl

theorem tags_ok_mounted : ((mntinit.mntralloc 100 true true).2).Ok :=
  (tags_ok (Lib.Run.start.step (a := .mntralloc 100 true true) (fun _ member => (nomatch member)) rfl)).1

end Mntalloc

end Inferno.Mnt
