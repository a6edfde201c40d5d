import Inferno.Lib.Run

namespace Inferno.Mnt.Blocks

open Lib

/-- Where a process is in a request, whose chain holds its flushes, the newest first, and the request itself last. It
waits in `mountio`, reads there as `m->rip`, is between `mntrpcread` and `mountmux` with the tag of a reply, is in
`mntflushfree`, or is back from `mountio` with the request. -/
inductive Proc where
  | idle
  | waiting (chain : List Nat)
  | reading (chain : List Nat)
  | muxing (chain : List Nat) (tag : Nat)
  | ending (chain : List Nat)
  | ended (r : Nat)
  deriving DecidableEq

/-- The `Mntrpc`s that are in use, with their tags, `done` and blocks, and the queue `m->queue`. Not in the source are
the blocks that have been taken from `m->q` and those that have been freed of them. -/
structure State where
  procs : Nat → Proc
  live : List Nat
  tag : Nat → Nat
  done : Nat → Bool
  b : Nat → List Nat
  queue : List Nat
  rip : Option Nat
  taken : List Nat
  freed : List Nat

def State.proc (s : State) (p : Nat) (c : Proc) : State := { s with procs := Function.update s.procs p c }

/-- `mntralloc`, and the request is linked in the queue. -/
def State.alloc (s : State) (r tag : Nat) : State :=
  { s with
    live := r :: s.live, tag := Function.update s.tag r tag, done := Function.update s.done r false
    b := Function.update s.b r [], queue := r :: s.queue }

/-- `mntgate`, where the process is the reader. -/
def State.gate (s : State) (p : Nat) : State := { s with rip := if s.rip = some p then none else s.rip }

/-- `mntqrm`, unless the request is done. -/
def State.qrm (s : State) (r : Nat) : State :=
  if s.done r then s else { s with queue := s.queue.erase r, done := Function.update s.done r true }

/-- `mntfree`. -/
def State.free (s : State) (r : Nat) : State := { s with live := s.live.erase r, freed := s.b r ++ s.freed }

/-- `mountmux` of the reply that `r` has read. -/
def State.mux (s : State) (r tag : Nat) : State :=
  match s.queue.find? (s.tag · = tag) with
  | some q =>
    let s := { s with queue := s.queue.erase q, done := Function.update s.done q true }
    if q = r then s else { s with b := Function.update (Function.update s.b q (s.b r)) r [] }
  | none => s

inductive Act where
  | start (p r tag : Nat)
  | gate (p : Nat)
  | wake (p : Nat)
  | interrupt (p r tag : Nat)
  | fail (p : Nat)
  | read (p : Nat) (blocks : List Nat) (tag : Nat)
  | readSplit (p : Nat) (blocks : List Nat) (lost : Nat)
  | mux (p : Nat)
  | leave (p : Nat)
  | flush (p : Nat)
  | flushExhausted (p : Nat)
  | copy (p k : Nat)
  | free (p : Nat)

/-- One step of a process. `readSplit` is a `mntrpcread` in which the `allocb` of the rest of the last block fails,
`flushExhausted` an interrupt for which there is no flush request. -/
def exec : Act → State → Option State
  | .start p r tag, s =>
    if s.procs p = .idle ∧ r ∉ s.live then some ((s.alloc r tag).proc p (.waiting [r])) else none
  | .gate p, s =>
    match s.procs p with
    | .waiting c => if s.rip = none then some ({ s with rip := some p }.proc p (.reading c)) else none
    | _ => none
  | .wake p, s =>
    match s.procs p with
    | .waiting (r :: c) => if s.done r then some (s.proc p (.ending (r :: c))) else none
    | _ => none
  | .interrupt p r tag, s =>
    if r ∈ s.live then none
    else
      match s.procs p with
      | .waiting c => some ((s.alloc r tag).proc p (.waiting (r :: c)))
      | .reading c => some (((s.gate p).alloc r tag).proc p (.waiting (r :: c)))
      | _ => none
  | .fail p, s =>
    match s.procs p with
    | .waiting c => some (s.proc p (.ending c))
    | .reading c => some ((s.gate p).proc p (.ending c))
    | _ => none
  | .read p blocks tag, s =>
    match s.procs p with
    | .reading (r :: c) =>
      if s.done r = false ∧ blocks.Nodup ∧ ∀ x ∈ blocks, x ∉ s.taken then
        some ({ s with b := Function.update s.b r blocks, taken := blocks ++ s.taken }.proc p (.muxing (r :: c) tag))
      else none
    | _ => none
  | .readSplit p blocks lost, s =>
    match s.procs p with
    | .reading (r :: c) =>
      if s.done r = false ∧ (lost :: blocks).Nodup ∧ ∀ x ∈ lost :: blocks, x ∉ s.taken then
        some (({ s with b := Function.update s.b r blocks, taken := lost :: blocks ++ s.taken }.gate p).proc p
          (.ending (r :: c)))
      else none
    | _ => none
  | .mux p, s =>
    match s.procs p with
    | .muxing (r :: c) tag => some ((s.mux r tag).proc p (.reading (r :: c)))
    | _ => none
  | .leave p, s =>
    match s.procs p with
    | .reading (r :: c) => if s.done r then some ((s.gate p).proc p (.ending (r :: c))) else none
    | _ => none
  | .flush p, s =>
    match s.procs p with
    | .ending (r :: r' :: c) => some (((s.qrm r).free r).proc p (.ending (r' :: c)))
    | .ending [r] => some ((s.qrm r).proc p (.ended r))
    | _ => none
  | .flushExhausted p, s =>
    match s.procs p with
    | .waiting (r :: c) => some (s.proc p (.ended ((r :: c).getLast (List.cons_ne_nil r c))))
    | .reading (r :: c) => some ((s.gate p).proc p (.ended ((r :: c).getLast (List.cons_ne_nil r c))))
    | _ => none
  | .copy p k, s =>
    match s.procs p with
    | .ended r =>
      some { s with b := Function.update s.b r ((s.b r).drop k), freed := (s.b r).take k ++ s.freed }
    | _ => none
  | .free p, s =>
    match s.procs p with
    | .ended r => some ((s.free r).proc p .idle)
    | _ => none

/-- The mount has been made, and nothing was sent. -/
def mounted : State := ⟨fun _ => .idle, [], fun _ => 0, fun _ => false, fun _ => [], [], none, [], []⟩

/-- The blocks that `Mntrpc`s in use have. -/
def State.held (s : State) : List Nat := s.live.flatMap s.b

/-- Each block that was taken from `m->q` is held by one `Mntrpc` or has been freed once, and it has been freed when no
request is left. -/
def Good (s : State) : Prop :=
  s.taken.Nodup ∧ (s.freed ++ s.held).Perm s.taken ∧ ((∀ p, s.procs p = .idle) → s.freed.Perm s.taken)

/-- A reply is read only into an `Mntrpc` without blocks, and given only to another one that has none; allocations do
not fail. -/
def Clear : Act → State → Prop
  | .read p _ _, s =>
    match s.procs p with
    | .reading (r :: _) => s.b r = []
    | _ => True
  | .mux p, s =>
    match s.procs p with
    | .muxing (r :: _) tag => ∀ q, s.queue.find? (s.tag · = tag) = some q → q = r ∨ s.b q = []
    | _ => True
  | .readSplit _ _ _, _ | .flushExhausted _, _ => False
  | _, _ => True

/-- A reply is distributed only where a request with its tag waits, and allocations do not fail. -/
def Awaited : Act → State → Prop
  | .mux p, s =>
    match s.procs p with
    | .muxing _ tag => ∃ q ∈ s.queue, s.tag q = tag
    | _ => True
  | .readSplit _ _ _, _ | .flushExhausted _, _ => False
  | _, _ => True

variable {strict : Prop} {s s' : State} {p q r tag : Nat} {c l : List Nat} {d : Proc} {a : Act} {b : Nat → List Nat}

def Proc.chain : Proc → List Nat
  | .idle => []
  | .waiting c | .reading c | .muxing c _ | .ending c => c
  | .ended r => [r]

/-- The process is `m->rip`. -/
def Proc.Reads : Proc → Prop
  | .reading _ | .muxing _ _ => True
  | _ => False

/-- The process has a reply that it has not distributed. -/
def Proc.Muxes (d : Proc) (r : Nat) : Prop := ∃ c tag, d = .muxing (r :: c) tag

/-- Each `Mntrpc` in use is in the chain of one process, once. -/
structure Owned (live : List Nat) (chain : Nat → List Nat) : Prop where
  nodup : live.Nodup
  mem : ∀ r, r ∈ live ↔ ∃ p, r ∈ chain p
  apart : ∀ p p' r, r ∈ chain p → r ∈ chain p' → p = p'
  distinct : ∀ p, (chain p).Nodup

/-- With `strict` every reply so far was awaited. -/
structure Inv (strict : Prop) (s : State) : Prop where
  owned : Owned s.live fun p => (s.procs p).chain
  queue : s.queue.Nodup
  queued : ∀ q ∈ s.queue, q ∈ s.live ∧ s.done q = false
  reader : ∀ p, (s.procs p).Reads → s.rip = some p
  empty : strict → ∀ r ∈ s.live, s.done r = false → (∀ p, ¬(s.procs p).Muxes r) → s.b r = []
  pending : strict → ∀ p r, (s.procs p).Muxes r → s.done r = false
  ended : ∀ p r, s.procs p = .ended r → s.done r = true
  taken : s.taken.Nodup
  ledger : (s.freed ++ s.held).Perm s.taken

section Owned

variable {live : List Nat} {chain : Nat → List Nat}

theorem Owned.inUse (owned : Owned live chain) (here : r ∈ chain p) : r ∈ live := (owned.mem r).mpr ⟨p, here⟩

theorem Owned.cons (owned : Owned live chain) (fresh : r ∉ live) (p : Nat) :
    Owned (r :: live) (Function.update chain p (r :: chain p)) := by
  have places : ∀ q r', r' ∈ Function.update chain p (r :: chain p) q ↔ q = p ∧ r' = r ∨ r' ∈ chain q := fun q r' => by
    by_cases same : q = p
    · subst same
      rw [Function.update_self, List.mem_cons]
      exact or_congr_left ⟨fun new => ⟨rfl, new⟩, And.right⟩
    · rw [Function.update_of_ne same]
      exact ⟨Or.inr, fun here => here.resolve_left fun new => same new.1⟩
  have old : ∀ q, r ∉ chain q := fun q here => fresh (owned.inUse here)
  refine ⟨List.nodup_cons.mpr ⟨fresh, owned.nodup⟩, fun r' => ?_, fun q q' r' here here' => ?_, fun q => ?_⟩
  · simp only [List.mem_cons, places, owned.mem r']
    constructor
    · rintro (new | ⟨q, here⟩)
      · exact ⟨p, Or.inl ⟨rfl, new⟩⟩
      · exact ⟨q, Or.inr here⟩
    · rintro ⟨q, ⟨-, new⟩ | here⟩
      · exact Or.inl new
      · exact Or.inr ⟨q, here⟩
  · rcases (places q r').mp here with ⟨rfl, rfl⟩ | inQ <;> rcases (places q' r').mp here' with ⟨rfl, new⟩ | inQ'
    · rfl
    · exact absurd inQ' (old q')
    · exact absurd (new ▸ inQ) (old q)
    · exact owned.apart q q' r' inQ inQ'
  · by_cases same : q = p
    · subst same
      rw [Function.update_self]
      exact List.nodup_cons.mpr ⟨old q, owned.distinct q⟩
    · rw [Function.update_of_ne same]
      exact owned.distinct q

theorem Owned.tail (owned : Owned live chain) (top : chain p = r :: c) :
    Owned (live.erase r) (Function.update chain p c) := by
  have nodup := owned.distinct p
  rw [top] at nodup
  obtain ⟨out, nodupC⟩ := List.nodup_cons.mp nodup
  have topP : r ∈ chain p := top ▸ List.mem_cons_self
  have places : ∀ q r', r' ∈ Function.update chain p c q ↔ r' ≠ r ∧ r' ∈ chain q := fun q r' => by
    by_cases same : q = p
    · subst same
      rw [Function.update_self, top, List.mem_cons]
      exact ⟨fun here => ⟨fun new => out (new ▸ here), Or.inr here⟩, fun here => here.2.resolve_left here.1⟩
    · rw [Function.update_of_ne same]
      exact ⟨fun here => ⟨fun new => same (owned.apart q p r (new ▸ here) topP), here⟩, And.right⟩
  refine ⟨owned.nodup.erase r, fun r' => ?_, fun q q' r' here here' => ?_, fun q => ?_⟩
  · simp only [owned.nodup.mem_erase_iff, places, owned.mem r', exists_and_left]
  · exact owned.apart q q' r' ((places q r').mp here).2 ((places q' r').mp here').2
  · by_cases same : q = p
    · subst same
      rw [Function.update_self]
      exact nodupC
    · rw [Function.update_of_ne same]
      exact owned.distinct q

end Owned

theorem chain_update (procs : Nat → Proc) (p : Nat) (d : Proc) :
    (fun q => (Function.update procs p d q).chain) = Function.update (fun q => (procs q).chain) p d.chain := by
  funext q
  by_cases same : q = p
  · subst same
    rw [Function.update_self, Function.update_self]
  · rw [Function.update_of_ne same, Function.update_of_ne same]

theorem flatMap_update_of_not_mem (b : Nat → List Nat) (out : r ∉ l) (c : List Nat) :
    l.flatMap (Function.update b r c) = l.flatMap b :=
  List.flatMap_congr fun x here => by
    have other : x ≠ r := fun same => out (same ▸ here)
    rw [Function.update_of_ne other]

/-- What is held, with the blocks of one `Mntrpc` first. -/
theorem flatMap_update (nodup : l.Nodup) (here : r ∈ l) (b : Nat → List Nat) (c : List Nat) :
    (l.flatMap (Function.update b r c)).Perm (c ++ (l.erase r).flatMap b) := by
  have out : r ∉ l.erase r := fun again => (nodup.mem_erase_iff.mp again).1 rfl
  refine ((List.perm_cons_erase here).flatMap_right _).trans ?_
  rw [List.flatMap_cons, Function.update_self, flatMap_update_of_not_mem b out]

theorem flatMap_erase (here : r ∈ l) (b : Nat → List Nat) : (l.flatMap b).Perm (b r ++ (l.erase r).flatMap b) :=
  (List.perm_cons_erase here).flatMap_right b

theorem Proc.Muxes.mem (muxes : d.Muxes r) : r ∈ d.chain := by
  obtain ⟨c, tag, rfl⟩ := muxes
  exact List.mem_cons_self

theorem Proc.Muxes.reads (muxes : d.Muxes r) : d.Reads := by
  obtain ⟨c, tag, rfl⟩ := muxes
  trivial

theorem Inv.good (inv : Inv strict s) : Good s := by
  refine ⟨inv.taken, inv.ledger, fun idle => ?_⟩
  have none : s.live = [] := List.eq_nil_iff_forall_not_mem.mpr fun _ here => by
    obtain ⟨p, member⟩ := (inv.owned.mem _).mp here
    rw [idle p] at member
    exact nomatch member
  have ledger := inv.ledger
  rwa [State.held, none, List.flatMap_nil, List.append_nil] at ledger

theorem mounted_inv (strict : Prop) : Inv strict mounted where
  owned := ⟨List.nodup_nil, fun r => ⟨fun here => (nomatch here), fun ⟨_, here⟩ => (nomatch here)⟩,
    fun _ _ _ here => (nomatch here), fun _ => List.nodup_nil⟩
  queue := List.nodup_nil
  queued _ here := nomatch here
  reader _ reads := reads.elim
  empty _ _ here := nomatch here
  pending _ _ _ muxes := by
    obtain ⟨c, tag, no⟩ := muxes
    nomatch no
  ended _ _ no := nomatch no
  taken := List.nodup_nil
  ledger := List.Perm.refl _

/-- A process goes on with its chain. -/
theorem Inv.move {rip : Option Nat} (inv : Inv strict s) (chain : d.chain = (s.procs p).chain)
    (reads : d.Reads → rip = some p) (others : ∀ q, q ≠ p → (s.procs q).Reads → rip = some q)
    (quiet : ∀ r, ¬d.Muxes r) (before : ∀ r, ¬(s.procs p).Muxes r) (going : ∀ r, d ≠ .ended r) :
    Inv strict ({ s with rip := rip }.proc p d) := by
  have chains : (fun q => (Function.update s.procs p d q).chain) = fun q => (s.procs q).chain := by
    rw [chain_update, chain]
    exact Function.update_eq_self p fun q => (s.procs q).chain
  have muxes : ∀ q r, (Function.update s.procs p d q).Muxes r ↔ (s.procs q).Muxes r := fun q r => by
    by_cases same : q = p
    · rw [same, Function.update_self]
      exact ⟨fun here => absurd here (quiet r), fun here => absurd here (before r)⟩
    · rw [Function.update_of_ne same]
  exact {
    owned := (congrArg (Owned s.live) chains).mpr inv.owned
    queue := inv.queue
    queued := inv.queued
    reader := fun q here => by
      by_cases same : q = p
      · subst same
        simp only [State.proc, Function.update_self] at here
        exact reads here
      · simp only [State.proc, Function.update_of_ne same] at here
        exact others q same here
    empty := fun ok r here undone absent => inv.empty ok r here undone fun q => (muxes q r).not.mp (absent q)
    pending := fun ok q r here => inv.pending ok q r ((muxes q r).mp here)
    ended := fun q r here => by
      by_cases same : q = p
      · subst same
        simp only [State.proc, Function.update_self] at here
        exact absurd here (going r)
      · simp only [State.proc, Function.update_of_ne same] at here
        exact inv.ended q r here
    taken := inv.taken
    ledger := inv.ledger }

theorem Inv.others (inv : Inv strict s) (q : Nat) (other : q ≠ p) (reads : (s.procs q).Reads) :
    (if s.rip = some p then none else s.rip) = some q := by
  have here := inv.reader q reads
  rw [here, if_neg fun same => other (Option.some.inj same)]

/-- A request of a process that does not read is put into the queue. -/
theorem Inv.alloc (inv : Inv strict s) (fresh : r ∉ s.live) (chain : (s.procs p).chain = c) (calm : ¬(s.procs p).Reads)
    (tag : Nat) : Inv strict ((s.alloc r tag).proc p (.waiting (r :: c))) := by
  have atP : Function.update s.procs p (.waiting (r :: c)) p = .waiting (r :: c) := Function.update_self ..
  have off : ∀ q, q ≠ p → Function.update s.procs p (.waiting (r :: c)) q = s.procs q := fun q other =>
    Function.update_of_ne other ..
  have old : ∀ q r', r' ∈ (s.procs q).chain → r' ≠ r := fun q r' here same => fresh (same ▸ inv.owned.inUse here)
  constructor
  · have owned := inv.owned.cons fresh p
    rw [chain] at owned
    exact (congrArg (Owned (r :: s.live)) (chain_update s.procs p (.waiting (r :: c)))).mpr owned
  · exact List.nodup_cons.mpr ⟨fun here => fresh (inv.queued r here).1, inv.queue⟩
  · intro q here
    change q ∈ r :: s.live ∧ Function.update s.done r false q = false
    rcases List.mem_cons.mp here with rfl | here
    · exact ⟨List.mem_cons_self, Function.update_self ..⟩
    · obtain ⟨live, undone⟩ := inv.queued q here
      have other : q ≠ r := fun same => fresh (same ▸ live)
      exact ⟨List.mem_cons_of_mem _ live, by rwa [Function.update_of_ne other]⟩
  · intro q reads
    change (Function.update s.procs p (.waiting (r :: c)) q).Reads at reads
    by_cases same : q = p
    · subst same
      rw [atP] at reads
      exact reads.elim
    · rw [off q same] at reads
      exact inv.reader q reads
  · intro ok r' here undone absent
    change Function.update s.b r [] r' = []
    change Function.update s.done r false r' = false at undone
    rcases List.mem_cons.mp here with rfl | live
    · rw [Function.update_self]
    · have other : r' ≠ r := fun same => fresh (same ▸ live)
      rw [Function.update_of_ne other] at undone ⊢
      refine inv.empty ok r' live undone fun q muxes => ?_
      have apart : q ≠ p := fun same => calm (same ▸ muxes.reads)
      refine absent q ?_
      change (Function.update s.procs p (.waiting (r :: c)) q).Muxes r'
      rwa [off q apart]
  · intro ok q r' muxes
    change (Function.update s.procs p (.waiting (r :: c)) q).Muxes r' at muxes
    change Function.update s.done r false r' = false
    by_cases same : q = p
    · subst same
      rw [atP] at muxes
      obtain ⟨_, _, no⟩ := muxes
      nomatch no
    · rw [off q same] at muxes
      rw [Function.update_of_ne (old q r' muxes.mem)]
      exact inv.pending ok q r' muxes
  · intro q r' ended
    change Function.update s.procs p (.waiting (r :: c)) q = .ended r' at ended
    change Function.update s.done r false r' = true
    by_cases same : q = p
    · subst same
      rw [atP] at ended
      nomatch ended
    · rw [off q same] at ended
      have member : r' ∈ (s.procs q).chain := ended ▸ List.mem_singleton_self r'
      rw [Function.update_of_ne (old q r' member)]
      exact inv.ended q r' ended
  · exact inv.taken
  · have same : ((s.alloc r tag).proc p (.waiting (r :: c))).held = s.held := by
      change (r :: s.live).flatMap (Function.update s.b r []) = s.live.flatMap s.b
      rw [List.flatMap_cons, Function.update_self, List.nil_append, flatMap_update_of_not_mem s.b fresh]
    rw [same]
    exact inv.ledger

/-- The processes with another state of `p`. -/
theorem procs_cases (q : Nat) : (q = p ∧ Function.update s.procs p d q = d) ∨
    q ≠ p ∧ Function.update s.procs p d q = s.procs q := by
  by_cases same : q = p
  · exact Or.inl ⟨same, same ▸ Function.update_self ..⟩
  · exact Or.inr ⟨same, Function.update_of_ne same ..⟩

/-- Only `m->rip` has a reply that is not distributed. -/
theorem Inv.muxes_unique (inv : Inv strict s) (reads : (s.procs p).Reads) (muxes : (s.procs q).Muxes r) : q = p :=
  Option.some.inj ((inv.reader q muxes.reads).symm.trans (inv.reader p reads))

theorem owned_same (owned : Owned s.live fun p => (s.procs p).chain) (chain : d.chain = (s.procs p).chain) :
    Owned s.live fun q => (Function.update s.procs p d q).chain := by
  rw [chain_update, chain]
  exact (congrArg (Owned s.live) (Function.update_eq_self p fun q => (s.procs q).chain)).mpr owned

theorem Inv.read {blocks : List Nat} (inv : Inv strict s) (at_ : s.procs p = .reading (r :: c))
    (undone : s.done r = false) (none : s.b r = []) (nodup : blocks.Nodup) (fresh : ∀ x ∈ blocks, x ∉ s.taken) :
    Inv strict
      ({ s with b := Function.update s.b r blocks, taken := blocks ++ s.taken }.proc p (.muxing (r :: c) tag)) := by
  have reads : (s.procs p).Reads := at_ ▸ trivial
  have live : r ∈ s.live := inv.owned.inUse (p := p) (at_ ▸ List.mem_cons_self)
  have calm : ∀ q r, ¬(s.procs q).Muxes r := fun q r muxes => by
    obtain rfl := inv.muxes_unique reads muxes
    obtain ⟨_, _, no⟩ := muxes
    nomatch at_.symm.trans no
  constructor
  · exact owned_same inv.owned (at_ ▸ rfl)
  · exact inv.queue
  · exact inv.queued
  · intro q here
    rcases procs_cases (s := s) (p := p) (d := .muxing (r :: c) tag) q with ⟨rfl, -⟩ | ⟨other, same⟩
    · exact inv.reader q reads
    · exact inv.reader q (same ▸ here)
  · intro ok r' here undone' absent
    have other : r' ≠ r := fun same => by
      refine absent p ⟨c, tag, ?_⟩
      rw [same]
      exact Function.update_self ..
    change Function.update s.b r blocks r' = []
    rw [Function.update_of_ne other]
    exact inv.empty ok r' here undone' fun q => calm q r'
  · intro _ q r' muxes
    rcases procs_cases (s := s) (p := p) (d := .muxing (r :: c) tag) q with ⟨-, same⟩ | ⟨-, same⟩
    · obtain ⟨_, _, eq⟩ := muxes
      cases same.symm.trans eq
      exact undone
    · exact absurd (show (s.procs q).Muxes r' from same ▸ muxes) (calm q r')
  · intro q r' ended
    rcases procs_cases (s := s) (p := p) (d := .muxing (r :: c) tag) q with ⟨-, same⟩ | ⟨-, same⟩
    · nomatch same.symm.trans ended
    · exact inv.ended q r' (same.symm.trans ended)
  · exact List.nodup_append.mpr ⟨nodup, inv.taken, fun x here y there same => fresh x here (same ▸ there)⟩
  · have before := (flatMap_erase live s.b).append_left s.freed
    rw [none, List.nil_append] at before
    have after := (flatMap_update inv.owned.nodup live s.b blocks).append_left s.freed
    refine after.trans ?_
    refine (List.perm_append_comm_assoc _ _ _).trans (List.Perm.append_left blocks ?_)
    exact before.symm.trans inv.ledger

theorem Inv.mux (inv : Inv strict s) (at_ : s.procs p = .muxing (r :: c) tag)
    (clear : ∀ q, s.queue.find? (s.tag · = tag) = some q → q = r ∨ s.b q = [])
    (awaited : strict → ∃ q ∈ s.queue, s.tag q = tag) : Inv strict ((s.mux r tag).proc p (.reading (r :: c))) := by
  have muxes : (s.procs p).Muxes r := ⟨c, tag, at_⟩
  have reads : (s.procs p).Reads := muxes.reads
  have liveR : r ∈ s.live := inv.owned.inUse (p := p) muxes.mem
  have lone : ∀ p' r', (s.procs p').Muxes r' → r' = r := fun p' r' muxes' => by
    obtain rfl := inv.muxes_unique reads muxes'
    obtain ⟨_, _, eq⟩ := muxes'
    cases at_.symm.trans eq
    rfl
  have empty : strict → ∀ r' ∈ s.live, s.done r' = false → r' ≠ r → s.b r' = [] := fun ok r' here undone' other =>
    inv.empty ok r' here undone' fun p' muxes' => other (lone p' r' muxes')
  have quiet : ∀ p' r', ¬(Function.update s.procs p (.reading (r :: c)) p').Muxes r' := fun p' r' muxes' => by
    rcases procs_cases (s := s) (p := p) (d := .reading (r :: c)) p' with ⟨-, same⟩ | ⟨other, same⟩
    · obtain ⟨_, _, eq⟩ := muxes'
      nomatch same.symm.trans eq
    · rw [same] at muxes'
      exact other (inv.muxes_unique reads muxes')
  have reader : ∀ p', (Function.update s.procs p (.reading (r :: c)) p').Reads → s.rip = some p' := fun p' here => by
    rcases procs_cases (s := s) (p := p) (d := .reading (r :: c)) p' with ⟨rfl, -⟩ | ⟨-, same⟩
    · exact inv.reader p' reads
    · exact inv.reader p' (same ▸ here)
  have ended : ∀ p' r', Function.update s.procs p (.reading (r :: c)) p' = .ended r' → s.done r' = true :=
    fun p' r' ended => by
      rcases procs_cases (s := s) (p := p) (d := .reading (r :: c)) p' with ⟨-, same⟩ | ⟨-, same⟩
      · nomatch same.symm.trans ended
      · exact inv.ended p' r' (same.symm.trans ended)
  have owned : Owned s.live fun p' => (Function.update s.procs p (.reading (r :: c)) p').chain :=
    owned_same inv.owned (at_ ▸ rfl)
  unfold State.mux
  rcases found : s.queue.find? (s.tag · = tag) with _ | q
  · have none : ¬strict := fun ok => by
      obtain ⟨q, here, same⟩ := awaited ok
      exact absurd (decide_eq_true same) (List.find?_eq_none.mp found q here)
    exact ⟨owned, inv.queue, inv.queued, reader, fun ok => absurd ok none, fun ok => absurd ok none, ended, inv.taken,
      inv.ledger⟩
  obtain ⟨liveQ, undone⟩ := inv.queued q (List.mem_of_find?_eq_some found)
  have endedQ : ∀ p' r', Function.update s.procs p (.reading (r :: c)) p' = .ended r' →
      Function.update s.done q true r' = true := fun p' r' here => by
    by_cases same : r' = q
    · rw [same, Function.update_self]
    · rw [Function.update_of_ne same]
      exact ended p' r' here
  have queued : ∀ q' ∈ s.queue.erase q, q' ∈ s.live ∧ Function.update s.done q true q' = false := fun q' here => by
    obtain ⟨other, here⟩ := inv.queue.mem_erase_iff.mp here
    rw [Function.update_of_ne other]
    exact inv.queued q' here
  by_cases self : q = r
  · simp only [if_pos self]
    refine ⟨owned, inv.queue.erase q, queued, reader, fun ok r' here undone' _ => ?_,
      fun _ p' r' muxes' => absurd muxes' (quiet p' r'), endedQ, inv.taken, inv.ledger⟩
    have other : r' ≠ q := fun same => by
      change Function.update s.done q true r' = false at undone'
      rw [same, Function.update_self] at undone'
      nomatch undone'
    change Function.update s.done q true r' = false at undone'
    rw [Function.update_of_ne other] at undone'
    exact empty ok r' here undone' (self ▸ other)
  · simp only [if_neg self]
    refine ⟨owned, inv.queue.erase q, queued, reader, fun ok r' here undone' _ => ?_,
      fun _ p' r' muxes' => absurd muxes' (quiet p' r'), endedQ, inv.taken, ?_⟩
    · change Function.update s.done q true r' = false at undone'
      change Function.update (Function.update s.b q (s.b r)) r [] r' = []
      by_cases same : r' = r
      · rw [same, Function.update_self]
      · have other : r' ≠ q := fun same' => by
          rw [same', Function.update_self] at undone'
          nomatch undone'
        rw [Function.update_of_ne other] at undone'
        rw [Function.update_of_ne same, Function.update_of_ne other]
        exact empty ok r' here undone' same
    · have none : s.b q = [] := (clear q found).resolve_left self
      have inRest : q ∈ s.live.erase r := inv.owned.nodup.mem_erase_iff.mpr ⟨self, liveQ⟩
      have nodup := inv.owned.nodup.erase r
      have before := (flatMap_erase liveR s.b).trans ((flatMap_erase inRest s.b).append_left (s.b r))
      rw [none, List.nil_append] at before
      have after := (flatMap_update inv.owned.nodup liveR (Function.update s.b q (s.b r)) []).trans
        (flatMap_update nodup inRest s.b (s.b r))
      exact ((after.trans before.symm).append_left s.freed).trans inv.ledger

/-- `mntqrm` of a request, done or not. -/
theorem Inv.qrm_eq (inv : Inv strict s) (r : Nat) :
    s.qrm r = { s with queue := s.queue.erase r, done := Function.update s.done r true } := by
  unfold State.qrm
  split
  · rename_i done
    have out : r ∉ s.queue := fun here => by
      have undone := (inv.queued r here).2
      rw [done] at undone
      nomatch undone
    rw [List.erase_of_not_mem out, ← done, Function.update_eq_self]
  · rfl

/-- A request is taken off the queue, and freed with its blocks. -/
theorem Inv.drop (inv : Inv strict s) (chain : (s.procs p).chain = r :: d.chain) (calm : ¬(s.procs p).Reads)
    (next : ¬d.Reads) (going : ∀ r, d ≠ .ended r) : Inv strict (((s.qrm r).free r).proc p d) := by
  have liveR : r ∈ s.live := inv.owned.inUse (p := p) (chain ▸ List.mem_cons_self)
  have apart : ∀ q r', q ≠ p → r' ∈ (s.procs q).chain → r' ≠ r := fun q r' other here same =>
    other (inv.owned.apart q p r (same ▸ here) (chain ▸ List.mem_cons_self))
  rw [inv.qrm_eq]
  constructor
  · exact (congrArg (Owned (s.live.erase r)) (chain_update s.procs p d)).mpr (inv.owned.tail chain)
  · exact inv.queue.erase r
  · intro q here
    obtain ⟨other, here⟩ := inv.queue.mem_erase_iff.mp here
    obtain ⟨live, undone⟩ := inv.queued q here
    refine ⟨inv.owned.nodup.mem_erase_iff.mpr ⟨other, live⟩, ?_⟩
    change Function.update s.done r true q = false
    rwa [Function.update_of_ne other]
  · intro q here
    rcases procs_cases (s := s) (p := p) (d := d) q with ⟨-, same⟩ | ⟨-, same⟩
    · exact absurd (show d.Reads from same ▸ here) next
    · exact inv.reader q (same ▸ here)
  · intro ok r' here undone absent
    obtain ⟨other, live⟩ := inv.owned.nodup.mem_erase_iff.mp here
    change Function.update s.done r true r' = false at undone
    rw [Function.update_of_ne other] at undone
    refine inv.empty ok r' live undone fun q muxes => absent q ?_
    rcases procs_cases (s := s) (p := p) (d := d) q with ⟨rfl, -⟩ | ⟨-, same⟩
    · exact absurd muxes.reads calm
    · change (Function.update s.procs p d q).Muxes r'
      rwa [same]
  · intro ok q r' muxes
    rcases procs_cases (s := s) (p := p) (d := d) q with ⟨-, same⟩ | ⟨other, same⟩
    · exact absurd (show d.Reads from same ▸ muxes.reads) next
    · have old : (s.procs q).Muxes r' := same ▸ muxes
      change Function.update s.done r true r' = false
      rw [Function.update_of_ne (apart q r' other old.mem)]
      exact inv.pending ok q r' old
  · intro q r' ended
    rcases procs_cases (s := s) (p := p) (d := d) q with ⟨-, same⟩ | ⟨other, same⟩
    · exact absurd (same.symm.trans ended) (going r')
    · have old : s.procs q = .ended r' := same.symm.trans ended
      change Function.update s.done r true r' = true
      rw [Function.update_of_ne (apart q r' other (old ▸ List.mem_singleton_self r'))]
      exact inv.ended q r' old
  · exact inv.taken
  · have before := (flatMap_erase liveR s.b).append_left s.freed
    refine List.Perm.trans ?_ (before.symm.trans inv.ledger)
    change ((s.b r ++ s.freed) ++ (s.live.erase r).flatMap s.b).Perm _
    rw [List.append_assoc]
    exact List.perm_append_comm_assoc _ _ _

/-- `mntflushfree` is at the request itself. -/
theorem Inv.finish (inv : Inv strict s) (at_ : s.procs p = .ending [r]) : Inv strict ((s.qrm r).proc p (.ended r)) := by
  have quiet : ∀ q r', (Function.update s.procs p (.ended r) q).Muxes r' → q ≠ p ∧ (s.procs q).Muxes r' :=
    fun q r' muxes => by
      rcases procs_cases (s := s) (p := p) (d := .ended r) q with ⟨-, same⟩ | ⟨other, same⟩
      · obtain ⟨_, _, eq⟩ := muxes
        nomatch same.symm.trans eq
      · exact ⟨other, same ▸ muxes⟩
  rw [inv.qrm_eq]
  constructor
  · exact owned_same inv.owned (at_ ▸ rfl)
  · exact inv.queue.erase r
  · intro q here
    obtain ⟨other, here⟩ := inv.queue.mem_erase_iff.mp here
    refine ⟨(inv.queued q here).1, ?_⟩
    change Function.update s.done r true q = false
    rw [Function.update_of_ne other]
    exact (inv.queued q here).2
  · intro q here
    rcases procs_cases (s := s) (p := p) (d := .ended r) q with ⟨-, same⟩ | ⟨-, same⟩
    · exact absurd (show (Proc.ended r).Reads from same ▸ here) id
    · exact inv.reader q (same ▸ here)
  · intro ok r' live undone absent
    have other : r' ≠ r := fun same => by
      change Function.update s.done r true r' = false at undone
      rw [same, Function.update_self] at undone
      nomatch undone
    change Function.update s.done r true r' = false at undone
    rw [Function.update_of_ne other] at undone
    refine inv.empty ok r' live undone fun q muxes => absent q ?_
    rcases procs_cases (s := s) (p := p) (d := .ended r) q with ⟨rfl, -⟩ | ⟨-, same⟩
    · obtain ⟨_, _, eq⟩ := muxes
      nomatch at_.symm.trans eq
    · change (Function.update s.procs p (.ended r) q).Muxes r'
      rwa [same]
  · intro ok q r' muxes
    obtain ⟨other, old⟩ := quiet q r' muxes
    have apart : r' ≠ r := fun same =>
      other (inv.owned.apart q p r (same ▸ old.mem) (at_ ▸ List.mem_singleton_self r))
    change Function.update s.done r true r' = false
    rw [Function.update_of_ne apart]
    exact inv.pending ok q r' old
  · intro q r' ended
    change Function.update s.done r true r' = true
    by_cases same' : r' = r
    · rw [same', Function.update_self]
    · rw [Function.update_of_ne same']
      rcases procs_cases (s := s) (p := p) (d := .ended r) q with ⟨-, same⟩ | ⟨-, same⟩
      · cases same.symm.trans ended
        exact absurd rfl same'
      · exact inv.ended q r' (same.symm.trans ended)
  · exact inv.taken
  · exact inv.ledger

theorem Inv.copy (inv : Inv strict s) (at_ : s.procs p = .ended r) (k : Nat) :
    Inv strict { s with b := Function.update s.b r ((s.b r).drop k), freed := (s.b r).take k ++ s.freed } where
  owned := inv.owned
  queue := inv.queue
  queued := inv.queued
  reader := inv.reader
  empty ok r' here undone absent := by
    have other : r' ≠ r := fun same => by
      have done := inv.ended p r at_
      rw [← same] at done
      nomatch undone.symm.trans done
    change Function.update s.b r ((s.b r).drop k) r' = []
    rw [Function.update_of_ne other]
    exact inv.empty ok r' here undone absent
  pending := inv.pending
  ended := inv.ended
  taken := inv.taken
  ledger := by
    have live : r ∈ s.live := inv.owned.inUse (p := p) (at_ ▸ List.mem_singleton_self r)
    have before := (flatMap_erase live s.b).append_left s.freed
    have after := (flatMap_update inv.owned.nodup live s.b ((s.b r).drop k)).append_left ((s.b r).take k ++ s.freed)
    refine after.trans (List.Perm.trans ?_ (before.symm.trans inv.ledger))
    rw [List.append_assoc]
    refine (List.perm_append_comm_assoc _ _ _).trans (List.Perm.append_left s.freed ?_)
    rw [← List.append_assoc, List.take_append_drop]

theorem not_muxes (quiet : ¬d.Reads) (r : Nat) : ¬d.Muxes r := fun muxes => quiet muxes.reads

/-- A process leaves `mountio`, with `mntgate` where it is the reader. -/
theorem Inv.left (inv : Inv strict s) (chain : d.chain = (s.procs p).chain) (quiet : ¬d.Reads)
    (before : ∀ r, ¬(s.procs p).Muxes r) (going : ∀ r, d ≠ .ended r) : Inv strict ((s.gate p).proc p d) :=
  inv.move chain (fun reads => absurd reads quiet) (fun q other reads => inv.others q other reads)
    (not_muxes quiet) before going

theorem Inv.stay (inv : Inv strict s) (chain : d.chain = (s.procs p).chain) (quiet : ¬d.Reads)
    (calm : ¬(s.procs p).Reads) (going : ∀ r, d ≠ .ended r) : Inv strict (s.proc p d) :=
  @Inv.move strict s p d s.rip inv chain (fun reads => absurd reads quiet) (fun q _ reads => inv.reader q reads)
    (not_muxes quiet) (not_muxes calm) going

theorem reading_quiet (r : Nat) : ¬(Proc.reading c).Muxes r := fun ⟨_, _, no⟩ => nomatch no

theorem Inv.step (inv : Inv strict s) (clear : Clear a s) (awaited : strict → Awaited a s) (ran : exec a s = some s') :
    Inv strict s' := by
  cases a with
  | start p r tag =>
    obtain ⟨⟨idle, fresh⟩, same⟩ := Option.ite_none_right_eq_some.mp ran
    cases same
    exact inv.alloc fresh (idle ▸ rfl) (idle ▸ id) tag
  | gate p =>
    simp only [exec] at ran
    split at ran
    · rename_i c at_
      obtain ⟨free, same⟩ := Option.ite_none_right_eq_some.mp ran
      cases same
      refine inv.move (at_ ▸ rfl) (fun _ => rfl) (fun q other reads => ?_) reading_quiet
        (at_ ▸ not_muxes id) fun r no => nomatch no
      nomatch free.symm.trans (inv.reader q reads)
    · nomatch ran
  | wake p =>
    simp only [exec] at ran
    split at ran
    · rename_i r c at_
      obtain ⟨done, same⟩ := Option.ite_none_right_eq_some.mp ran
      cases same
      exact inv.stay (at_ ▸ rfl) id (at_ ▸ id) fun r no => nomatch no
    · nomatch ran
  | interrupt p r tag =>
    obtain ⟨fresh, ran⟩ := Option.ite_none_left_eq_some.mp ran
    split at ran
    · rename_i c at_
      cases ran
      exact inv.alloc fresh (at_ ▸ rfl) (at_ ▸ id) tag
    · rename_i c at_
      cases ran
      have gone : Inv strict ((s.gate p).proc p (.waiting c)) :=
        inv.left (at_ ▸ rfl) id (at_ ▸ reading_quiet) fun r no => nomatch no
      have here : ((s.gate p).proc p (.waiting c)).procs p = .waiting c := Function.update_self ..
      have next := gone.alloc (p := p) (c := c) fresh (by rw [here]; rfl) (by rw [here]; exact id) tag
      simpa only [State.alloc, State.proc, State.gate, Function.update_idem] using next
    · nomatch ran
  | fail p =>
    simp only [exec] at ran
    split at ran
    · rename_i c at_
      cases ran
      exact inv.stay (at_ ▸ rfl) id (at_ ▸ id) fun r no => nomatch no
    · rename_i c at_
      cases ran
      exact inv.left (at_ ▸ rfl) id (at_ ▸ reading_quiet) fun r no => nomatch no
    · nomatch ran
  | read p blocks tag =>
    simp only [exec] at ran
    split at ran
    · rename_i r c at_
      obtain ⟨⟨undone, nodup, fresh⟩, same⟩ := Option.ite_none_right_eq_some.mp ran
      cases same
      simp only [Clear, at_] at clear
      exact inv.read at_ undone clear nodup fresh
    · nomatch ran
  | readSplit p blocks lost => exact clear.elim
  | mux p =>
    simp only [exec] at ran
    split at ran
    · rename_i r c tag at_
      cases ran
      simp only [Clear, Awaited, at_] at clear awaited
      exact inv.mux at_ clear awaited
    · nomatch ran
  | leave p =>
    simp only [exec] at ran
    split at ran
    · rename_i r c at_
      obtain ⟨done, same⟩ := Option.ite_none_right_eq_some.mp ran
      cases same
      exact inv.left (at_ ▸ rfl) id (at_ ▸ reading_quiet) fun r no => nomatch no
    · nomatch ran
  | flush p =>
    simp only [exec] at ran
    split at ran
    · rename_i r r' c at_
      cases ran
      exact inv.drop (at_ ▸ rfl) (at_ ▸ id) id fun r no => nomatch no
    · rename_i r at_
      cases ran
      exact inv.finish at_
    · nomatch ran
  | flushExhausted p => exact clear.elim
  | copy p k =>
    simp only [exec] at ran
    split at ran
    · rename_i r at_
      cases ran
      exact inv.copy at_ k
    · nomatch ran
  | free p =>
    simp only [exec] at ran
    split at ran
    · rename_i r at_
      cases ran
      have same : s.qrm r = s := if_pos (inv.ended p r at_)
      have next := inv.drop (p := p) (r := r) (d := .idle) (at_ ▸ rfl) (at_ ▸ id) id fun r no => nomatch no
      rwa [same] at next
    · nomatch ran

/-- Where every reply so far was awaited, the reader and whoever gets the next one have no blocks. -/
theorem Inv.clear (inv : Inv True s) (awaited : Awaited a s) (ran : exec a s = some s') : Clear a s := by
  cases a with
  | read p blocks tag =>
    simp only [exec, Clear] at ran ⊢
    split at ran
    · rename_i r c at_
      have undone := (Option.ite_none_right_eq_some.mp ran).1.1
      refine inv.empty trivial r (inv.owned.inUse (p := p) (at_ ▸ List.mem_cons_self)) undone fun q muxes => ?_
      obtain rfl := inv.muxes_unique (p := p) (at_ ▸ trivial) muxes
      obtain ⟨_, _, no⟩ := muxes
      nomatch at_.symm.trans no
    · nomatch ran
  | mux p =>
    simp only [exec, Clear] at ran ⊢
    split at ran
    · rename_i r c tag at_
      intro q found
      by_cases self : q = r
      · exact Or.inl self
      · obtain ⟨live, undone⟩ := inv.queued q (List.mem_of_find?_eq_some found)
        refine Or.inr (inv.empty trivial q live undone fun p' muxes => self ?_)
        obtain rfl := inv.muxes_unique (p := p) (at_ ▸ trivial) muxes
        obtain ⟨_, _, same⟩ := muxes
        cases at_.symm.trans same
        rfl
    · nomatch ran
  | readSplit p blocks lost => exact awaited.elim
  | flushExhausted p => exact awaited.elim
  | _ => trivial

/-- A run whose replies are all awaited overwrites no blocks. -/
theorem clear_of_awaited (run : Run exec Awaited mounted s) : Run exec Clear mounted s := by
  suffices both : Inv True s ∧ Run exec Clear mounted s from both.2
  refine run.invariant (fun s => Inv True s ∧ Run exec Clear mounted s) ⟨mounted_inv True, Run.start⟩ ?_
  intro a s s' ⟨inv, run⟩ awaited ran
  have clear := inv.clear awaited ran
  exact ⟨inv.step clear (fun _ => awaited) ran, run.step clear ran⟩

/-- No block is lost, and none is freed twice or held twice, in a run that overwrites none. -/
theorem blocks_kept (run : Run exec Clear mounted s) : Good s :=
  (run.invariant (Inv False) (mounted_inv False) fun inv clear ran => inv.step clear False.elim ran).good

/-- A process has sent a request with tag 5 and is the reader. -/
def oneReader : State := { (mounted.alloc 1 5).proc 0 (.waiting [1]) with rip := some 0 }.proc 0 (.reading [1])

/-- Its reply is read. -/
def oneReply : State :=
  { oneReader with b := Function.update oneReader.b 1 [10], taken := [10] }.proc 0 (.muxing [1] 5)

theorem blocks_one : Good ((oneReply.mux 1 5).proc 0 (.reading [1])) := by
  have sent : Run exec Awaited mounted ((mounted.alloc 1 5).proc 0 (.waiting [1])) :=
    Run.start.step (a := .start 0 1 5) trivial rfl
  have reading : Run exec Awaited mounted oneReader := sent.step (a := .gate 0) trivial rfl
  have read : Run exec Awaited mounted oneReply := reading.step (a := .read 0 [10] 5) trivial rfl
  have awaited : Awaited (.mux 0) oneReply := ⟨1, List.mem_cons_self, rfl⟩
  exact blocks_kept (clear_of_awaited (read.step (a := .mux 0) awaited rfl))

/-- A reply with a tag nobody waits for stays with the reader, and its block is lost with the next reply. -/
theorem blocks_lost : ∃ s, Run exec (fun _ _ => True) mounted s ∧ ¬Good s := by
  have some_ : (Run.steps exec [.start 0 1 5, .gate 0, .read 0 [10] 9, .mux 0, .read 0 [11] 5] mounted).map
      (fun s => (s.freed ++ s.held, s.taken)) = some ([11], [11, 10]) := by decide
  obtain ⟨s, ran, same⟩ := Option.map_eq_some_iff.mp some_
  refine ⟨s, Run.of_steps ran, fun good => ?_⟩
  have length := good.2.1.length_eq
  rw [(Prod.mk.inj same).1, (Prod.mk.inj same).2] at length
  nomatch length

end Inferno.Mnt.Blocks
