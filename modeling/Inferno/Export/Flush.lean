import Inferno.Lib.Run

namespace Inferno.Export

section Flush

/-- Where a request is: with `exportproc`, on the list of `exq`, with an `exslave`
(in its fcall, about to reply, in the loop over its flush queue, with a `Tflush`
taken off that queue, or with `q->finished` set and still on `fs->work`), on the
flush queue of another request, or freed. -/
inductive Place
  | received
  | queued
  | running
  | replying
  | draining
  | flushing (fq : Nat)
  | finished
  | waiting (q : Nat)
  | freed
deriving DecidableEq

/-- Where `exportproc` is with a `Tflush`: before the section under `exq.l`, before
that under `fs->l`, or after `exflushed` returned 1. -/
inductive EProc
  | idle
  | inQueue (fq : Nat)
  | inWork (fq : Nat)
  | returned (fq : Nat)
deriving DecidableEq

/-- One export. Requests are numbered in the order in which they arrive; `oldtag`
is that of a `Tflush`. `fsl` says that `fs->l` is held although no one is in a
section under it. `log` is not in the source: the requests answered, in order. -/
structure Flush where
  made : Nat
  tag : Nat → UInt16
  oldtag : Nat → Option UInt16
  queue : List Nat
  tail : Option Nat
  work : List Nat
  flush : Nat → List Nat
  place : Nat → Place
  eproc : EProc
  fsl : Bool
  log : List Nat

namespace Flush

def move (s : Flush) (q : Nat) (p : Place) : Flush := { s with place := Function.update s.place q p }

def answer (s : Flush) (q : Nat) (p : Place) : Flush := { s.move q p with log := s.log ++ [q] }

/-- `exportproc` puts a request on the list. Behind a tail that was taken off the
list and freed it is in no list. -/
def enqueue (s : Flush) (q : Nat) : Flush :=
  let s :=
    if s.queue = [] then { s.move q .queued with queue := [q] }
    else if s.queue.getLast? = s.tail then { s.move q .queued with queue := s.queue ++ [q] }
    else s.move q .freed
  { s with tail := some q }

/-- A message arrives; `refused` where the export is read only. -/
def recv (s : Flush) (tag : UInt16) (oldtag : Option UInt16) (refused : Bool) : Flush :=
  let q := s.made
  let s := { s with made := q + 1, tag := Function.update s.tag q tag, oldtag := Function.update s.oldtag q oldtag,
                    flush := Function.update s.flush q [] }
  if oldtag.isSome then { s.move q .received with eproc := .inQueue q }
  else if refused then s.answer q .freed
  else s.enqueue q

/-- The first request of a list with the tag. -/
def named (s : Flush) (fq : Nat) (xs : List Nat) : Option Nat := xs.find? fun q => s.oldtag fq == some (s.tag q)

/-- The section of `exflushed` under `exq.l`. -/
def flushQueue (s : Flush) (fq : Nat) : Flush :=
  match s.named fq s.queue with
  | some q => { s.move q .freed with queue := s.queue.erase q, eproc := .returned fq }
  | none => { s with eproc := .inWork fq }

/-- The section of `exflushed` under `fs->l`. Where the request is finished it
returns without `unlock(&fs->l)`. -/
def flushWork (s : Flush) (fq : Nat) : Flush :=
  match s.named fq s.work with
  | some q =>
    if s.place q = .finished then { s with fsl := true, eproc := .returned fq }
    else { s.move fq (.waiting q) with flush := Function.update s.flush q (s.flush q ++ [fq]), eproc := .idle }
  | none => { s with eproc := .returned fq }

/-- `exslave` in the loop over the flush queue of `q`, up to `unlock(&q->l)`. -/
def drain (s : Flush) (q : Nat) : Flush :=
  match s.flush q with
  | [] => s.move q .finished
  | fq :: rest => { s.move q (.flushing fq) with flush := Function.update s.flush q rest }

def init : Flush := ⟨0, fun _ => 0, fun _ => none, [], none, [], fun _ => [], fun _ => .freed, .idle, false, []⟩

end Flush

inductive FAct
  | recv (tag : UInt16) (oldtag : Option UInt16) (refused : Bool)
  | flushQueue
  | flushWork
  | rflush
  | take
  | fcall (q : Nat) (err : Bool)
  | reply (q : Nat)
  | drain (q : Nat)
  | rflushed (q : Nat)
  | unlink (q : Nat)

def FAct.exec (a : FAct) (s : Flush) : Option Flush :=
  match a with
  | recv tag oldtag refused => if s.eproc = .idle then some (s.recv tag oldtag refused) else none
  | flushQueue =>
    match s.eproc with
    | .inQueue fq => some (s.flushQueue fq)
    | _ => none
  | flushWork =>
    match s.eproc, s.fsl with
    | .inWork fq, false => some (s.flushWork fq)
    | _, _ => none
  | rflush =>
    match s.eproc with
    | .returned fq => some { s.answer fq .freed with eproc := .idle }
    | _ => none
  | take =>
    match s.queue, s.fsl with
    | q :: rest, false => some { s.move q .running with queue := rest, work := q :: s.work }
    | _, _ => none
  | fcall q err =>
    if s.place q = .running then
      if s.flush q = [] ∨ err = false then some (s.move q .replying) else some (s.drain q)
    else none
  | reply q => if s.place q = .replying then some (s.answer q .draining) else none
  | drain q => if s.place q = .draining then some (s.drain q) else none
  | rflushed q =>
    match s.place q with
    | .flushing fq => some ((s.answer fq .freed).move q .draining)
    | _ => none
  | unlink q =>
    if s.place q = .finished ∧ s.fsl = false then some { s.move q .freed with work := s.work.erase q } else none

/-- The request has not been answered and may still be. -/
def Place.Open : Place → Prop
  | received => True
  | queued => True
  | running => True
  | replying => True
  | waiting _ => True
  | _ => False

namespace Flush

/-- The old tag of the `Tflush` is that of a request that came before it. -/
def Names (s : Flush) (fq r : Nat) : Prop := r < fq ∧ s.oldtag fq = some (s.tag r)

/-- The request that `exflushed` finds for `fq`, if any, is the only one that is
open of those with the old tag. -/
def Alone (s : Flush) (fq : Nat) (found : Option Nat) : Prop := ∀ r, s.Names fq r → (s.place r).Open → found = some r

/-- The flush finds its request neither with others of its tag still to be
answered, nor finished but not unlinked. -/
def Findable (a : FAct) (s : Flush) : Prop :=
  match a with
  | .flushQueue => ∀ fq, s.eproc = .inQueue fq → (s.named fq s.queue).isSome → s.Alone fq (s.named fq s.queue)
  | .flushWork => ∀ fq, s.eproc = .inWork fq →
      s.Alone fq (s.named fq s.work) ∧ ∀ q, s.named fq s.work = some q → s.place q ≠ .finished
  | _ => True

/-- A request is answered once, a `Tflush` too, and after it no request with its
old tag that came before it; and no lock is left. -/
structure Ok (s : Flush) : Prop where
  once : s.log.Nodup
  answered : s.eproc = .idle → s.work = [] → ∀ fq < s.made, (s.oldtag fq).isSome → fq ∈ s.log
  order : ∀ before fq after, s.log = before ++ fq :: after → ∀ r, s.Names fq r → r ∉ after
  unlocked : s.fsl = false

end Flush

end Flush

section FlushInv

/-- An `exslave` has the request. -/
def Place.Held : Place → Prop
  | running => True
  | replying => True
  | draining => True
  | flushing _ => True
  | finished => True
  | _ => False

def EProc.Has (e : EProc) (fq : Nat) : Prop := e = .inQueue fq ∨ e = .inWork fq ∨ e = .returned fq

attribute [grind =] Place.Held Place.Open EProc.Has

namespace Flush

/-- Each request is in one place, and the lists say so. -/
structure Placed (s : Flush) : Prop where
  fresh : ∀ r, s.made ≤ r → s.place r = .freed
  queueOnce : s.queue.Nodup
  queue : ∀ q, q ∈ s.queue ↔ s.place q = .queued
  workOnce : s.work.Nodup
  work : ∀ q, q ∈ s.work ↔ (s.place q).Held
  received : ∀ r, s.place r = .received ↔ s.eproc.Has r
  newest : ∀ fq, s.eproc.Has fq → fq + 1 = s.made ∧ (s.oldtag fq).isSome
  waiting : ∀ fq q, s.place fq = .waiting q ↔ fq ∈ s.flush q ∨ s.place q = .flushing fq
  flushOnce : ∀ q, (s.flush q).Nodup ∧ ∀ fq, s.place q = .flushing fq → fq ∉ s.flush q
  flushHeld : ∀ q, s.flush q ≠ [] → (s.place q).Held ∧ s.place q ≠ .finished
  old : ∀ fq q, s.place fq = .waiting q → s.oldtag fq = some (s.tag q)
  plain : ∀ q, s.place q = .queued ∨ (s.place q).Held → s.oldtag q = none

variable {s : Flush} {q fq : Nat}

namespace Placed

theorem take {rest : List Nat} (placed : s.Placed) (first : s.queue = q :: rest) :
    Placed { s.move q .running with queue := rest, work := q :: s.work } := by
  obtain ⟨fresh, queueOnce, queue, workOnce, work, received, newest, waiting, flushOnce, flushHeld, old, plain⟩ := placed
  have here : s.place q = .queued := (queue q).mp (by rw [first]; exact List.mem_cons_self)
  constructor <;> simp only [move] <;> grind -ring -linarith [Function.update_apply, List.nodup_cons]

theorem flushQueue (placed : s.Placed) (at_ : s.eproc = .inQueue fq) : (s.flushQueue fq).Placed := by
  obtain ⟨fresh, queueOnce, queue, workOnce, work, received, newest, waiting, flushOnce, flushHeld, old, plain⟩ := placed
  unfold Flush.flushQueue
  split
  · rename_i q found
    have member : q ∈ s.queue := List.mem_of_find?_eq_some found
    have here := (queue q).mp member
    constructor <;> simp only [move] <;> grind -ring -linarith [Function.update_apply, List.Nodup.mem_erase_iff, List.Nodup.erase]
  · constructor <;> grind -ring -linarith

theorem flushWork (placed : s.Placed) (at_ : s.eproc = .inWork fq) : (s.flushWork fq).Placed := by
  obtain ⟨fresh, queueOnce, queue, workOnce, work, received, newest, waiting, flushOnce, flushHeld, old, plain⟩ := placed
  unfold Flush.flushWork
  split
  · rename_i q found
    have member : q ∈ s.work := List.mem_of_find?_eq_some found
    have tag := List.find?_some found
    have here := (work q).mp member
    split
    · constructor <;> grind -ring -linarith
    · constructor <;> simp only [move] <;> grind -ring -linarith [Function.update_apply, List.nodup_append]
  · constructor <;> grind -ring -linarith

theorem rflush (placed : s.Placed) (at_ : s.eproc = .returned fq) :
    Placed { s.answer fq .freed with eproc := .idle } := by
  obtain ⟨fresh, queueOnce, queue, workOnce, work, received, newest, waiting, flushOnce, flushHeld, old, plain⟩ := placed
  constructor <;> simp only [answer, move] <;> grind -ring -linarith [Function.update_apply]

theorem replying (placed : s.Placed) (here : s.place q = .running) : (s.move q .replying).Placed := by
  obtain ⟨fresh, queueOnce, queue, workOnce, work, received, newest, waiting, flushOnce, flushHeld, old, plain⟩ := placed
  constructor <;> simp only [move] <;> grind -ring -linarith [Function.update_apply]

theorem reply (placed : s.Placed) (here : s.place q = .replying) : (s.answer q .draining).Placed := by
  obtain ⟨fresh, queueOnce, queue, workOnce, work, received, newest, waiting, flushOnce, flushHeld, old, plain⟩ := placed
  constructor <;> simp only [answer, move] <;> grind -ring -linarith [Function.update_apply]

theorem drain (placed : s.Placed) (here : s.place q = .draining ∨ s.place q = .running ∧ s.flush q ≠ []) :
    (s.drain q).Placed := by
  obtain ⟨fresh, queueOnce, queue, workOnce, work, received, newest, waiting, flushOnce, flushHeld, old, plain⟩ := placed
  unfold Flush.drain
  split
  · constructor <;> simp only [move] <;> grind -ring -linarith [Function.update_apply]
  · constructor <;> simp only [move] <;> grind -ring -linarith [Function.update_apply, List.nodup_cons]

theorem rflushed (placed : s.Placed) (here : s.place q = .flushing fq) :
    ((s.answer fq .freed).move q .draining).Placed := by
  obtain ⟨fresh, queueOnce, queue, workOnce, work, received, newest, waiting, flushOnce, flushHeld, old, plain⟩ := placed
  have mine : s.place fq = .waiting q := (waiting fq q).mpr (Or.inr here)
  have only : ∀ q', s.place q' = .flushing fq → q' = q := fun q' there => by
    have his := (waiting fq q').mpr (Or.inr there)
    rw [mine] at his
    exact (Place.waiting.inj his).symm
  have off : ∀ q', fq ∉ s.flush q' := fun q' member => by
    have his := (waiting fq q').mpr (Or.inl member)
    rw [mine] at his
    exact (flushOnce q).2 fq here (Place.waiting.inj his ▸ member)
  constructor <;> simp only [answer, move] <;> grind -ring -linarith [Function.update_apply]

theorem unlink (placed : s.Placed) (here : s.place q = .finished) :
    Placed { s.move q .freed with work := s.work.erase q } := by
  obtain ⟨fresh, queueOnce, queue, workOnce, work, received, newest, waiting, flushOnce, flushHeld, old, plain⟩ := placed
  constructor <;> simp only [move] <;> grind -ring -linarith [Function.update_apply, List.Nodup.mem_erase_iff, List.Nodup.erase]

theorem recv (placed : s.Placed) (idle : s.eproc = .idle) (tag : UInt16) (oldtag : Option UInt16) (refused : Bool) :
    (s.recv tag oldtag refused).Placed := by
  obtain ⟨fresh, queueOnce, queue, workOnce, work, received, newest, waiting, flushOnce, flushHeld, old, plain⟩ := placed
  have new := fresh s.made (Nat.le_refl _)
  unfold Flush.recv
  dsimp only
  split
  · constructor <;> simp only [move] <;> grind -ring -linarith [Function.update_apply]
  · rename_i noOld
    have none : oldtag = none := by simpa using noOld
    split
    · constructor <;> simp only [answer, move] <;> grind -ring -linarith [Function.update_apply]
    · unfold Flush.enqueue
      dsimp only
      split_ifs
      · constructor <;> simp only [move] <;> grind -ring -linarith [Function.update_apply]
      · constructor <;> simp only [move] <;> grind -ring -linarith [Function.update_apply, List.nodup_append]
      · constructor <;> simp only [move] <;> grind -ring -linarith [Function.update_apply]

end Placed

end Flush

end FlushInv

end Inferno.Export
