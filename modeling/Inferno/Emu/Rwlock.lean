import Inferno.Lib.Run

namespace Inferno.Emu

section Rwlock

structure QLock where
  locked : Bool
  queue : List Nat
deriving DecidableEq

namespace QLock

/-- The section of `qlock`, and whether it took the lock. If not, `osblock` follows. -/
def qlock (q : QLock) (up : Nat) : QLock × Bool :=
  if q.locked then ({ q with queue := q.queue ++ [up] }, false) else ({ q with locked := true }, true)

def canqlock (q : QLock) : QLock × Bool := if q.locked then (q, false) else ({ q with locked := true }, true)

/-- The section of `qunlock`, and the process that is given the lock and for which `osready` follows. -/
def qunlock (q : QLock) : QLock × Option Nat :=
  match q.queue with
  | [] => ({ q with locked := false }, none)
  | p :: ps => ({ q with queue := ps }, some p)

end QLock

inductive After
  | reading
  | unlocking
  | idle
deriving DecidableEq

/-- Where a process is. `xwait` and `kwait` are in `osblock`, `xheld` is after
`qlock(&l->x)`, `counted` is a reader that has yet to give `x` back, `unlocking` a
writer that has, `post` one that has to call `osready` first. -/
inductive Pc
  | idle
  | xwait (w : Bool)
  | xheld (w : Bool)
  | kwait
  | counted
  | reading
  | writing
  | unlocking
  | post (p : Nat) (next : After)
deriving DecidableEq

def After.pc : After → Pc
  | reading => .reading
  | unlocking => .unlocking
  | idle => .idle

/-- An `RWlock`, and the processes with their semaphores. `inside` is not in the
source: the readers that are counted. -/
structure Rwlock where
  x : QLock
  k : QLock
  readers : Int
  pc : Nat → Pc
  sem : Nat → Nat
  inside : List Nat

namespace Rwlock

def goto (s : Rwlock) (p : Nat) (pc : Pc) : Rwlock := { s with pc := Function.update s.pc p pc }

def osready (s : Rwlock) (p : Nat) : Rwlock := { s with sem := Function.update s.sem p (s.sem p + 1) }

def lockX (s : Rwlock) (up : Nat) (w : Bool) : Rwlock :=
  let (x, got) := s.x.qlock up
  { s with x }.goto up (if got then .xheld w else .xwait w)

/-- `qunlock(&l->x)` up to its `osready`. -/
def unlockX (s : Rwlock) (up : Nat) (next : After) : Rwlock :=
  let (x, p) := s.x.qunlock
  { s with x }.goto up (p.elim next.pc fun p => .post p next)

/-- The section of `rlock` under `l->l`. -/
def enter (s : Rwlock) (up : Nat) : Rwlock :=
  { s with readers := s.readers + 1, k := s.k.canqlock.1, inside := up :: s.inside }.goto up .counted

def lockK (s : Rwlock) (up : Nat) : Rwlock :=
  let (k, got) := s.k.qlock up
  { s with k }.goto up (if got then .writing else .kwait)

/-- `qunlock(&l->k)` of a writer, up to its `osready`. -/
def unlockK (s : Rwlock) (up : Nat) : Rwlock :=
  let (k, p) := s.k.qunlock
  { s with k }.goto up (p.elim .unlocking fun p => .post p .unlocking)

def runlock (s : Rwlock) (up : Nat) : Rwlock :=
  let s := { s with readers := s.readers - 1, inside := s.inside.erase up }.goto up .idle
  if s.readers = 0 then
    let (k, p) := s.k.qunlock
    p.elim { s with k } { s with k }.osready
  else s

def init : Rwlock := ⟨⟨false, []⟩, ⟨false, []⟩, 0, fun _ => .idle, fun _ => 0, []⟩

end Rwlock

/-- `busy` is where `canlock` fails, and `wake` the return of `osblock`. -/
inductive RwAct
  | rlock
  | canrlock (busy : Bool)
  | wlock
  | wake
  | enter
  | lockK
  | unlockX
  | post
  | runlock
  | wunlock

def RwAct.exec (a : Nat × RwAct) (s : Rwlock) : Option Rwlock :=
  let up := a.1
  match a.2, s.pc up with
  | rlock, .idle => some (s.lockX up false)
  | canrlock busy, .idle =>
    if busy ∨ s.x.canqlock.2 = false then some s else some ({ s with x := s.x.canqlock.1 }.goto up (.xheld false))
  | wlock, .idle => some (s.lockX up true)
  | wake, .xwait w =>
    if s.sem up = 0 then none else some ({ s with sem := Function.update s.sem up (s.sem up - 1) }.goto up (.xheld w))
  | wake, .kwait =>
    if s.sem up = 0 then none else some ({ s with sem := Function.update s.sem up (s.sem up - 1) }.goto up .writing)
  | enter, .xheld false => some (s.enter up)
  | lockK, .xheld true => some (s.lockK up)
  | unlockX, .counted => some (s.unlockX up .reading)
  | unlockX, .unlocking => some (s.unlockX up .idle)
  | post, .post p next => some ((s.osready p).goto up next.pc)
  | runlock, .reading => some (s.runlock up)
  | wunlock, .writing => some (s.unlockK up)
  | _, _ => none

/-- Readers, from their section under `l->l` to that of `runlock`. -/
def Pc.Counted : Pc → Prop
  | counted => True
  | reading => True
  | post _ .reading => True
  | _ => False

/-- `k` is locked on behalf of the process: it has been given it, whether it has run since or not. -/
def Rwlock.HasK (s : Rwlock) (p : Nat) : Prop := s.pc p = .writing ∨ s.pc p = .kwait ∧ p ∉ s.k.queue

/-- What `rlock` and `wlock` promise, that the result of `canqlock` may be
ignored, and that nothing is left behind. -/
structure Rwlock.Ok (s : Rwlock) : Prop where
  exclusive : ∀ p q, s.pc p = .writing → q ≠ p → s.pc q ≠ .writing ∧ ¬(s.pc q).Counted
  try_ : ∀ p, s.pc p = .xheld false → s.k.canqlock.2 = false → 0 < s.readers ∧ ∀ q, ¬s.HasK q
  done : (∀ p, s.pc p = .idle) → s.x = ⟨false, []⟩ ∧ s.k = ⟨false, []⟩ ∧ s.readers = 0 ∧ ∀ p, s.sem p = 0

end Rwlock

section RwlockInv

/-- In the `osblock` of `qlock(&l->x)`. -/
def Pc.WaitsX : Pc → Prop
  | xwait _ => True
  | _ => False

/-- Holds `x`, or waits in it. -/
def Pc.InX : Pc → Prop
  | xwait _ => True
  | xheld _ => True
  | counted => True
  | kwait => True
  | writing => True
  | unlocking => True
  | post _ .unlocking => True
  | _ => False

theorem Pc.WaitsX.inX {pc : Pc} (waits : pc.WaitsX) : pc.InX := by
  cases pc <;> trivial

attribute [grind =] Pc.WaitsX Pc.InX Pc.Counted After.pc Rwlock.HasK

namespace Rwlock

/-- `x` is locked on behalf of the process, whether it has run since or not. -/
@[grind =] def HasX (s : Rwlock) (p : Nat) : Prop := (s.pc p).InX ∧ p ∉ s.x.queue

/-- In an `osblock` of which the lock has been given to it. -/
@[grind =] def Given (s : Rwlock) (p : Nat) : Prop :=
  ((s.pc p).WaitsX ∨ s.pc p = .kwait) ∧ p ∉ s.x.queue ∧ p ∉ s.k.queue

/-- `xo` and `ko` are the processes on whose behalf `x` and `k` are locked, other than readers for `k`. -/
structure Inv (s : Rwlock) (xo ko : Option Nat) : Prop where
  xonce : s.x.queue.Nodup
  xwait : ∀ p ∈ s.x.queue, (s.pc p).WaitsX
  xowner : ∀ p, s.HasX p ↔ xo = some p
  xlocked : s.x.locked = xo.isSome
  xfull : s.x.queue ≠ [] → xo.isSome
  konce : s.k.queue.Nodup
  kwait : ∀ p ∈ s.k.queue, s.pc p = .kwait
  kowner : ∀ p, s.HasK p ↔ ko = some p
  klocked : s.k.locked = true ↔ s.inside ≠ [] ∨ ko.isSome
  kfull : s.k.queue ≠ [] → s.inside ≠ []
  kone : ko.isSome → s.inside = []
  count : s.readers = s.inside.length
  once : s.inside.Nodup
  counted : ∀ p, p ∈ s.inside ↔ (s.pc p).Counted
  sem : ∀ p, s.sem p ≤ 1
  woken : ∀ p, 0 < s.sem p → s.Given p
  post : ∀ p q next, s.pc q = .post p next → s.Given p ∧ s.sem p = 0
  poster : ∀ p q q' next next', s.pc q = .post p next → s.pc q' = .post p next' → q = q'

variable {s : Rwlock} {up p : Nat} {xo ko : Option Nat}

namespace Inv

/-- A writer that has `k` has `x`. -/
theorem hasX_of_hasK (inv : s.Inv xo ko) (has : s.HasK p) : s.HasX p := by
  have off : p ∉ s.x.queue := fun member => by
    have waits := inv.xwait p member
    obtain here | ⟨here, _⟩ := has <;> simp [here, Pc.WaitsX] at waits
  obtain here | ⟨here, _⟩ := has <;> exact ⟨by rw [here]; trivial, off⟩

theorem x_owner (inv : s.Inv xo ko) (p : Nat) (inX : (s.pc p).InX) (off : p ∉ s.x.queue) : xo = some p :=
  (inv.xowner p).mp ⟨inX, off⟩

theorem k_owner (inv : s.Inv xo ko) (p : Nat) (has : s.pc p = .writing ∨ s.pc p = .kwait ∧ p ∉ s.k.queue) : ko = some p :=
  (inv.kowner p).mp has

/-- While a process is between the two locks no writer has `k`. -/
theorem no_writer {w : Bool} (inv : s.Inv xo ko) (here : s.pc up = .xheld w) : ko = none := by
  cases owner : ko with
  | none => rfl
  | some q =>
    have has := (inv.kowner q).mpr owner
    have mine : s.HasX up := ⟨by rw [here]; trivial, fun member => by simpa [here, Pc.WaitsX] using inv.xwait up member⟩
    have same := ((inv.xowner q).mp (inv.hasX_of_hasK has)).symm.trans ((inv.xowner up).mp mine)
    obtain rfl := Option.some.inj same
    obtain there | ⟨there, _⟩ := has <;> simp [here] at there

theorem lockX {w : Bool} (inv : s.Inv xo ko) (here : s.pc up = .idle) : ∃ xo, (s.lockX up w).Inv xo ko := by
  obtain ⟨xonce, xwait, xowner, xlocked, xfull, konce, kwait, kowner, klocked, kfull, kone, count, once, counted, sem, woken,
    post, poster⟩ := inv
  unfold Rwlock.lockX QLock.qlock
  cases locked : s.x.locked <;> simp only [if_true, if_false, Bool.false_eq_true]
  rotate_left
  · refine ⟨xo, ?_⟩
    constructor <;> simp only [goto] <;> grind -ring -linarith [Function.update_apply, List.nodup_append]
  · refine ⟨some up, ?_⟩
    constructor <;> simp only [goto] <;> grind -ring -linarith [Function.update_apply]

theorem canrlock (inv : s.Inv xo ko) (here : s.pc up = .idle) (got : s.x.locked = false) :
    Inv ({ s with x := { s.x with locked := true } }.goto up (.xheld false)) (some up) ko := by
  obtain ⟨xonce, xwait, xowner, xlocked, xfull, konce, kwait, kowner, klocked, kfull, kone, count, once, counted, sem, woken,
    post, poster⟩ := inv
  constructor <;> simp only [goto] <;> grind -ring -linarith [Function.update_apply]

theorem wakeX {w : Bool} (inv : s.Inv xo ko) (here : s.pc up = .xwait w) (signalled : s.sem up ≠ 0) :
    Inv ({ s with sem := Function.update s.sem up (s.sem up - 1) }.goto up (.xheld w)) xo ko := by
  obtain ⟨xonce, xwait, xowner, xlocked, xfull, konce, kwait, kowner, klocked, kfull, kone, count, once, counted, sem, woken,
    post, poster⟩ := inv
  constructor <;> simp only [goto] <;> grind -ring -linarith [Function.update_apply]

theorem wakeK (inv : s.Inv xo ko) (here : s.pc up = .kwait) (signalled : s.sem up ≠ 0) :
    Inv ({ s with sem := Function.update s.sem up (s.sem up - 1) }.goto up .writing) xo ko := by
  obtain ⟨xonce, xwait, xowner, xlocked, xfull, konce, kwait, kowner, klocked, kfull, kone, count, once, counted, sem, woken,
    post, poster⟩ := inv
  constructor <;> simp only [goto] <;> grind -ring -linarith [Function.update_apply]

theorem enter (inv : s.Inv xo ko) (here : s.pc up = .xheld false) : (s.enter up).Inv xo ko := by
  have free := inv.no_writer here
  obtain ⟨xonce, xwait, xowner, xlocked, xfull, konce, kwait, kowner, klocked, kfull, kone, count, once, counted, sem, woken,
    post, poster⟩ := inv
  unfold Rwlock.enter QLock.canqlock
  cases locked : s.k.locked <;> simp only [if_true, if_false, Bool.false_eq_true]
  · constructor <;> simp only [goto] <;> grind -ring -linarith [Function.update_apply]
  · constructor <;> simp only [goto] <;> grind -ring -linarith [Function.update_apply]

theorem lockK (inv : s.Inv xo ko) (here : s.pc up = .xheld true) : ∃ ko, (s.lockK up).Inv xo ko := by
  have free := inv.no_writer here
  obtain ⟨xonce, xwait, xowner, xlocked, xfull, konce, kwait, kowner, klocked, kfull, kone, count, once, counted, sem, woken,
    post, poster⟩ := inv
  unfold Rwlock.lockK QLock.qlock
  cases locked : s.k.locked <;> simp only [if_true, if_false, Bool.false_eq_true]
  · refine ⟨some up, ?_⟩
    constructor <;> simp only [goto] <;> grind -ring -linarith [Function.update_apply]
  · refine ⟨ko, ?_⟩
    constructor <;> simp only [goto] <;> grind -ring -linarith [Function.update_apply, List.nodup_append]

/-- What follows an `osready` holds what the process held, and is no wait. -/
theorem after_pc (next : After) : (next.pc.InX ↔ (Pc.post p next).InX) ∧ (next.pc.Counted ↔ (Pc.post p next).Counted) ∧
    ¬next.pc.WaitsX ∧ next.pc ≠ .kwait ∧ next.pc ≠ .writing ∧ ∀ q next', next.pc ≠ .post q next' := by
  cases next <;> simp [After.pc, Pc.InX, Pc.Counted, Pc.WaitsX]

theorem post_ (inv : s.Inv xo ko) {next : After} (here : s.pc up = .post p next) :
    ((s.osready p).goto up next.pc).Inv xo ko := by
  obtain ⟨sameX, sameCounted, noWait, noK, noWriter, noPost⟩ := after_pc (p := p) next
  rw [← here] at sameX sameCounted
  generalize next.pc = pc at *
  obtain ⟨xonce, xwait, xowner, xlocked, xfull, konce, kwait, kowner, klocked, kfull, kone, count, once, counted, sem, woken,
    post, poster⟩ := inv
  constructor <;> simp only [goto, osready] <;> grind -ring -linarith [Function.update_apply]

/-- `qunlock(&l->x)` by a reader that is counted, or by a writer that has given `k` back. -/
theorem unlockX_mine (inv : s.Inv xo ko) (here : s.pc up = .counted ∨ s.pc up = .unlocking) : xo = some up := by
  refine inv.x_owner up ?_ fun member => ?_
  · obtain here | here := here <;> (rw [here]; trivial)
  · have waits := inv.xwait up member
    obtain here | here := here <;> simp [here, Pc.WaitsX] at waits

theorem unlockX_free (inv : s.Inv xo ko) (here : s.pc up = .counted ∨ s.pc up = .unlocking) (waiting : s.x.queue = []) :
    (s.unlockX up (if s.pc up = .counted then .reading else .idle)).Inv none ko := by
  have kOwner := inv.k_owner
  obtain rfl := inv.unlockX_mine here
  obtain ⟨xonce, xwait, xowner, xlocked, xfull, konce, kwait, kowner, klocked, kfull, kone, count, once, counted, sem, woken,
    post, poster⟩ := inv
  unfold Rwlock.unlockX QLock.qunlock
  rw [waiting]
  dsimp only [Option.elim]
  obtain here | here := here
  · rw [if_pos here]
    constructor <;> simp only [goto] <;> grind -ring -linarith [Function.update_apply]
  · rw [if_neg (by rw [here]; nofun)]
    constructor <;> simp only [goto] <;> grind -ring -linarith [Function.update_apply]

theorem unlockX_hands (inv : s.Inv xo ko) (here : s.pc up = .counted ∨ s.pc up = .unlocking) {q : Nat} {qs : List Nat}
    (waiting : s.x.queue = q :: qs) :
    (s.unlockX up (if s.pc up = .counted then .reading else .idle)).Inv (some q) ko := by
  have kOwner := inv.k_owner
  obtain rfl := inv.unlockX_mine here
  obtain ⟨xonce, xwait, xowner, xlocked, xfull, konce, kwait, kowner, klocked, kfull, kone, count, once, counted, sem, woken,
    post, poster⟩ := inv
  have waits : (s.pc q).WaitsX := xwait q (by simp [waiting])
  have inX : (s.pc q).InX := waits.inX
  have off : q ∉ qs := by grind -ring -linarith
  unfold Rwlock.unlockX QLock.qunlock
  rw [waiting]
  dsimp only [Option.elim]
  obtain here | here := here
  · rw [if_pos here]
    constructor <;> simp only [goto] <;> grind -ring -linarith [Function.update_apply]
  · rw [if_neg (by rw [here]; nofun)]
    constructor <;> simp only [goto] <;> grind -ring -linarith [Function.update_apply]

theorem unlockX (inv : s.Inv xo ko) (here : s.pc up = .counted ∨ s.pc up = .unlocking) :
    ∃ xo, (s.unlockX up (if s.pc up = .counted then .reading else .idle)).Inv xo ko := by
  cases waiting : s.x.queue with
  | nil => exact ⟨none, inv.unlockX_free here waiting⟩
  | cons q qs => exact ⟨some q, inv.unlockX_hands here waiting⟩

theorem last_empty (inv : s.Inv xo ko) (here : s.pc up = .reading) (last : s.readers - 1 = 0) : s.inside.erase up = [] := by
  have count := inv.count
  have length := List.length_erase_of_mem ((inv.counted up).mpr (by rw [here]; trivial))
  rw [← List.length_eq_zero_iff]
  omega

theorem runlock_last (inv : s.Inv xo ko) (here : s.pc up = .reading) (last : s.readers - 1 = 0) (waiting : s.k.queue = []) :
    (s.runlock up).Inv xo none := by
  have kOwner := inv.k_owner
  have empty := inv.last_empty here last
  obtain ⟨xonce, xwait, xowner, xlocked, xfull, konce, kwait, kowner, klocked, kfull, kone, count, once, counted, sem, woken,
    post, poster⟩ := inv
  unfold Rwlock.runlock QLock.qunlock
  simp only [goto, last, if_true, empty, waiting]
  dsimp only [Option.elim]
  constructor <;> grind -ring -linarith [Function.update_apply]

/-- Only one process waits for `k`, as it has `x`. -/
theorem waiting_one (inv : s.Inv xo ko) {q : Nat} {qs : List Nat} (waiting : s.k.queue = q :: qs) : qs = [] := by
  have xOwner := inv.x_owner
  obtain ⟨xonce, xwait, xowner, xlocked, xfull, konce, kwait, kowner, klocked, kfull, kone, count, once, counted, sem, woken,
    post, poster⟩ := inv
  refine List.eq_nil_iff_forall_not_mem.mpr fun r member => ?_
  have waits : ∀ p ∈ s.k.queue, xo = some p := fun p inK => xOwner p (by grind -ring -linarith) (by grind -ring -linarith)
  have same := (waits q (by grind -ring -linarith)).symm.trans (waits r (by grind -ring -linarith))
  grind -ring -linarith

theorem runlock_hands (inv : s.Inv xo ko) (here : s.pc up = .reading) (last : s.readers - 1 = 0) {q : Nat} {qs : List Nat}
    (waiting : s.k.queue = q :: qs) : (s.runlock up).Inv xo (some q) := by
  have kOwner := inv.k_owner
  have empty := inv.last_empty here last
  have one := inv.waiting_one waiting
  obtain ⟨xonce, xwait, xowner, xlocked, xfull, konce, kwait, kowner, klocked, kfull, kone, count, once, counted, sem, woken,
    post, poster⟩ := inv
  unfold Rwlock.runlock QLock.qunlock
  simp only [goto, last, if_true, empty, waiting]
  dsimp only [Option.elim, osready]
  constructor <;> grind -ring -linarith [Function.update_apply]

theorem runlock_more (inv : s.Inv xo ko) (here : s.pc up = .reading) (last : ¬s.readers - 1 = 0) : (s.runlock up).Inv xo ko := by
  obtain ⟨xonce, xwait, xowner, xlocked, xfull, konce, kwait, kowner, klocked, kfull, kone, count, once, counted, sem, woken,
    post, poster⟩ := inv
  have more : s.inside.erase up ≠ [] := fun empty => by
    have length := List.length_erase_of_mem ((counted up).mpr (by rw [here]; trivial))
    rw [empty, List.length_nil] at length
    have pos := List.length_pos_of_mem ((counted up).mpr (by rw [here]; trivial))
    omega
  unfold Rwlock.runlock
  simp only [goto, last, if_false]
  constructor <;> grind -ring -linarith [Function.update_apply, List.Nodup.mem_erase_iff, List.Nodup.erase]

theorem runlock (inv : s.Inv xo ko) (here : s.pc up = .reading) : ∃ ko, (s.runlock up).Inv xo ko := by
  by_cases last : s.readers - 1 = 0
  · cases waiting : s.k.queue with
    | nil => exact ⟨none, inv.runlock_last here last waiting⟩
    | cons q qs => exact ⟨some q, inv.runlock_hands here last waiting⟩
  · exact ⟨ko, inv.runlock_more here last⟩

theorem unlockK (inv : s.Inv xo ko) (here : s.pc up = .writing) : (s.unlockK up).Inv xo none := by
  have xOwner := inv.x_owner
  have kOwner := inv.k_owner
  obtain ⟨xonce, xwait, xowner, xlocked, xfull, konce, kwait, kowner, klocked, kfull, kone, count, once, counted, sem, woken,
    post, poster⟩ := inv
  have mine : ko = some up := kOwner up (Or.inl here)
  subst mine
  have free : s.inside = [] := kone rfl
  have none : s.k.queue = [] := by grind -ring -linarith
  unfold Rwlock.unlockK QLock.qunlock
  rw [none]
  dsimp only [Option.elim]
  constructor <;> simp only [goto] <;> grind -ring -linarith [Function.update_apply]

end Inv

theorem Inv.init : init.Inv none none := by
  constructor <;> simp [Rwlock.init, HasX, HasK, Pc.InX, Pc.Counted]

theorem Inv.exec {s' : Rwlock} {a : Nat × RwAct} (inv : s.Inv xo ko) (ran : RwAct.exec a s = some s') :
    ∃ xo ko, s'.Inv xo ko := by
  obtain ⟨up, act⟩ := a
  unfold RwAct.exec at ran
  dsimp only at ran
  split at ran
  · cases ran
    exact (inv.lockX ‹_›).imp fun _ inv => ⟨ko, inv⟩
  · split at ran
    · cases ran
      exact ⟨xo, ko, inv⟩
    · rename_i free
      cases ran
      obtain got : s.x.locked = false := by
        unfold QLock.canqlock at free
        cases locked : s.x.locked <;> simp_all
      have taken : s.x.canqlock.1 = { s.x with locked := true } := by simp [QLock.canqlock, got]
      rw [taken]
      exact ⟨_, ko, inv.canrlock ‹_› got⟩
  · cases ran
    exact (inv.lockX ‹_›).imp fun _ inv => ⟨ko, inv⟩
  · split at ran
    · contradiction
    · cases ran
      exact ⟨xo, ko, inv.wakeX ‹_› ‹_›⟩
  · split at ran
    · contradiction
    · cases ran
      exact ⟨xo, ko, inv.wakeK ‹_› ‹_›⟩
  · cases ran
    exact ⟨xo, ko, inv.enter ‹_›⟩
  · cases ran
    exact ⟨xo, inv.lockK ‹_›⟩
  · rename_i here
    cases ran
    have next := inv.unlockX (Or.inl here)
    rw [if_pos here] at next
    exact next.imp fun _ inv => ⟨ko, inv⟩
  · rename_i here
    cases ran
    have next := inv.unlockX (Or.inr here)
    rw [if_neg (by rw [here]; nofun)] at next
    exact next.imp fun _ inv => ⟨ko, inv⟩
  · cases ran
    exact ⟨xo, ko, inv.post_ ‹_›⟩
  · cases ran
    exact ⟨xo, inv.runlock ‹_›⟩
  · cases ran
    exact ⟨xo, none, inv.unlockK ‹_›⟩
  · contradiction

theorem Inv.ok (inv : s.Inv xo ko) : s.Ok := by
  refine ⟨fun p q here other => ?_, fun p here failed => ?_, fun idle => ?_⟩
  · have mine := inv.k_owner p (Or.inl here)
    refine ⟨fun there => other ?_, fun counted => ?_⟩
    · exact (Option.some.inj (mine.symm.trans (inv.k_owner q (Or.inl there)))).symm
    · have member := (inv.counted q).mpr counted
      rw [inv.kone (by rw [mine]; rfl)] at member
      contradiction
  · have free := inv.no_writer here
    have locked : s.k.locked = true := by
      unfold QLock.canqlock at failed
      cases locked : s.k.locked <;> simp_all
    have inside := (inv.klocked.mp locked).resolve_right (by simp [free])
    refine ⟨?_, fun q has => ?_⟩
    · have pos := List.length_pos_iff.mpr inside
      rw [inv.count]
      omega
    · have owner := (inv.kowner q).mp has
      rw [free] at owner
      contradiction
  · have noX : s.x.queue = [] := List.eq_nil_iff_forall_not_mem.mpr fun p member => by
      simpa [idle p, Pc.WaitsX] using inv.xwait p member
    have noK : s.k.queue = [] := List.eq_nil_iff_forall_not_mem.mpr fun p member => by
      simpa [idle p] using inv.kwait p member
    have noReader : s.inside = [] := List.eq_nil_iff_forall_not_mem.mpr fun p member => by
      simpa [idle p, Pc.Counted] using (inv.counted p).mp member
    have noXo : xo = none := Option.eq_none_iff_forall_ne_some.mpr fun p owner => by
      simpa [idle p, Pc.InX] using ((inv.xowner p).mpr owner).1
    have noKo : ko = none := Option.eq_none_iff_forall_ne_some.mpr fun p owner => by
      simpa [HasK, idle p] using (inv.kowner p).mpr owner
    have x : s.x.locked = false := by rw [inv.xlocked, noXo]; rfl
    have k : s.k.locked = false := by
      rw [Bool.eq_false_iff, Ne, inv.klocked, noReader, noKo]
      simp
    refine ⟨?_, ?_, by rw [inv.count, noReader]; rfl, fun p => Nat.eq_zero_of_not_pos fun pos => ?_⟩
    · rw [← x, ← noX]
    · rw [← k, ← noK]
    · simpa [idle p, Pc.WaitsX] using (inv.woken p pos).1

end Rwlock

end RwlockInv

end Inferno.Emu
