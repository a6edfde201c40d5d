import Inferno.Lib.Path
import Inferno.Lib.Run

namespace Inferno.Export

open Lib

/-- An `Exq`. They are numbered in the order in which `exportproc` makes them. -/
abbrev Ref := Nat

/-- The global `exq`, the fields of the requests it links, and `fs->work` of
every export. `queued` is not in the source: the requests enqueued and not yet
dequeued, flushed or shut down, in order of arrival. -/
structure Workq where
  head : Option Ref
  tail : Option Ref
  next : Ref → Option Ref
  fs : Ref → Nat
  tag : Ref → Nat
  work : Nat → Option Ref
  made : Nat
  queued : List Ref

namespace Workq

/-- `*last`, where `last` is `&exq.head` or `&q->next`. -/
def load (s : Workq) (last : Option Ref) : Option Ref := last.elim s.head s.next

def store (s : Workq) (last v : Option Ref) : Workq :=
  match last with
  | none => { s with head := v }
  | some t => { s with next := Function.update s.next t v }

/-- `exportproc` with a request for export `fs`. `none` is a nil dereference. -/
def enqueue (s : Workq) (fs tag : Nat) : Option Workq := do
  let q := s.made
  let s := { s with made := q + 1, fs := Function.update s.fs q fs, tag := Function.update s.tag q tag,
                    queued := s.queued ++ [q] }
  let s ← match s.head with
    | none => some { s with head := some q }
    | some _ => s.tail.map fun t => { s with next := Function.update s.next t (some q) }
  return { s with next := Function.update s.next q none, tail := some q }

/-- `exslave` takes the first request and puts it on the work list of its export. -/
def dequeue (s : Workq) : Workq :=
  match s.head with
  | none => s
  | some q =>
    let fs := s.fs q
    { s with head := s.next q, next := Function.update s.next q (s.work fs),
             work := Function.update s.work fs (some q), queued := s.queued.erase q }

/-- The loop of `exflushed` over the queue. The list has no more nodes than were made. -/
def flushLoop (s : Workq) (fs oldtag : Nat) : Nat → Option Ref → Workq
  | 0, _ => s
  | fuel + 1, last =>
    match s.load last with
    | none => s
    | some q =>
      if s.fs q = fs ∧ s.tag q = oldtag then { s.store last (s.next q) with queued := s.queued.erase q }
      else s.flushLoop fs oldtag fuel (some q)

def exflushed (s : Workq) (fs oldtag : Nat) : Workq := s.flushLoop fs oldtag (s.made + 1) none

/-- The loop of `exshutdown` over the queue. -/
def shutdownLoop (fs : Nat) : Nat → Workq → Option Ref → Workq
  | 0, s, _ => s
  | fuel + 1, s, last =>
    match s.load last with
    | none => s
    | some q =>
      if s.fs q = fs then
        shutdownLoop fs fuel { s.store last (s.next q) with queued := s.queued.erase q } last
      else shutdownLoop fs fuel s (some q)

def exshutdown (s : Workq) (fs : Nat) : Workq :=
  let s := shutdownLoop fs (s.made + 1) s none
  { s with work := Function.update s.work fs none }

/-- The queue at the start. -/
def init : Workq := ⟨none, none, fun _ => none, fun _ => 0, fun _ => 0, fun _ => none, 0, []⟩

end Workq

inductive QAct
  | enqueue (fs tag : Nat)
  | dequeue
  | exflushed (fs oldtag : Nat)
  | exshutdown (fs : Nat)

def QAct.exec (a : QAct) (s : Workq) : Option Workq :=
  match a with
  | enqueue fs tag => s.enqueue fs tag
  | dequeue => some s.dequeue
  | exflushed fs oldtag => some (s.exflushed fs oldtag)
  | exshutdown fs => some (s.exshutdown fs)

namespace Workq

/-- The list from `exq.head` is the requests that wait, and `exq.tail` the last of them. -/
structure Ok (s : Workq) : Prop where
  list : Path s.next s.head s.queued
  tail : s.queued ≠ [] → s.tail = s.queued.getLast?

structure Inv (s : Workq) : Prop where
  ok : s.Ok
  made : ∀ q ∈ s.queued, q < s.made

/-- The last of several waiting requests is neither flushed nor shut down
while another one stays. -/
def KeepsTail (a : QAct) (s : Workq) : Prop :=
  match a with
  | .exflushed fs oldtag =>
    (∀ q, s.queued.find? (fun q => s.fs q = fs ∧ s.tag q = oldtag) = some q → s.queued.getLast? = some q →
      s.queued = [q])
  | .exshutdown fs => (∀ q, s.queued.getLast? = some q → s.fs q = fs → ∀ r ∈ s.queued, s.fs r = fs)
  | _ => True

variable {s s' : Workq} {fs oldtag tag : Nat}

theorem enqueue_inv (inv : s.Inv) (ran : s.enqueue fs tag = some s') : s'.Inv := by
  obtain ⟨⟨list, tail⟩, made⟩ := inv
  have fresh : s.made ∉ s.queued := fun here => Nat.lt_irrefl _ (made _ here)
  have below : ∀ q ∈ s.queued ++ [s.made], q < s.made + 1 := by
    intro q here
    rcases List.mem_append.mp here with old | new
    · exact Nat.lt_succ_of_lt (made q old)
    · rw [List.mem_singleton.mp new]
      exact Nat.lt_succ_self _
  simp only [enqueue, Option.bind_eq_bind, Option.pure_def] at ran
  split at ran
  · rename_i empty
    cases ran
    rw [empty] at list
    have none : s.queued = [] := list.eq_nil
    refine ⟨⟨?_, fun _ => ?_⟩, below⟩
    · simp only [none, List.nil_append]
      exact ⟨rfl, Function.update_self _ _ _⟩
    · simp only [none, List.nil_append, List.getLast?_singleton]
  · rename_i q first
    have some : s.queued ≠ [] := by
      intro none
      rw [none] at list
      nomatch first.symm.trans list
    rw [tail some] at ran
    obtain ⟨t, last⟩ := Option.ne_none_iff_exists'.mp (fun none => some (List.getLast?_eq_none_iff.mp none))
    rw [last] at ran
    cases ran
    have other : t ≠ s.made := by
      rintro rfl
      exact fresh (List.mem_of_getLast? last)
    refine ⟨⟨?_, fun _ => ?_⟩, below⟩
    · simp only
      rw [Function.update_comm other]
      exact list.append last fresh
    · simp only [List.getLast?_append, List.getLast?_singleton, Option.some_or]

theorem dequeue_inv (inv : s.Inv) : s.dequeue.Inv := by
  obtain ⟨⟨list, tail⟩, made⟩ := inv
  unfold dequeue
  split
  · exact ⟨⟨list, tail⟩, made⟩
  · rename_i q first
    rw [first] at list
    obtain ⟨rest, cons, path⟩ := list.eq_cons
    have fresh : q ∉ rest := by
      have nodup := list.nodup
      rw [cons] at nodup
      exact (List.nodup_cons.mp nodup).1
    have left : s.queued.erase q = rest := by rw [cons, List.erase_cons_head]
    refine ⟨⟨?_, ?_⟩, ?_⟩
    · simp only [left]
      exact path.update fresh _
    · simp only [left]
      intro some
      rw [tail (by rw [cons]; exact List.cons_ne_nil _ _), cons]
      cases rest with
      | nil => exact absurd rfl some
      | cons r rest => rw [List.getLast?_cons_cons]
    · simp only [left]
      intro r here
      exact made r (by rw [cons]; exact List.mem_cons_of_mem q here)

variable {u v : List Ref} {last : Option Ref} {q : Ref} {n : Nat}

theorem load_eq (list : Path s.next s.head (u ++ v)) (before : u.getLast? = last) : s.load last = v.head? := by
  cases last with
  | none =>
    have nil : u = [] := List.getLast?_eq_none_iff.mp before
    subst nil
    exact list.head.symm
  | some t =>
    obtain ⟨w, split⟩ := List.getLast?_eq_some_iff.mp before
    rw [split, List.append_assoc, List.singleton_append] at list
    exact list.drop.2.head.symm

theorem store_list (list : Path s.next s.head (u ++ q :: v)) (before : u.getLast? = last) :
    Path (s.store last (s.next q)).next (s.store last (s.next q)).head (u ++ v) := by
  cases last with
  | none =>
    have nil : u = [] := List.getLast?_eq_none_iff.mp before
    subst nil
    exact list.2
  | some t => exact list.unlink before

theorem erase_middle (nodup : (u ++ q :: v).Nodup) : (u ++ q :: v).erase q = u ++ v := by
  rw [List.nodup_append] at nodup
  obtain ⟨_, rest, apart⟩ := nodup
  have fresh : q ∉ u := fun here => apart q here q List.mem_cons_self rfl
  rw [List.erase_append_right _ fresh, List.erase_cons_head]

/-- What `exflushed` and `exshutdown` leave alone. -/
structure SameTail (s s' : Workq) : Prop where
  tail : s'.tail = s.tail
  made : s'.made = s.made
  fs : s'.fs = s.fs

theorem store_sameTail (s : Workq) (last v : Option Ref) (qs : List Ref) :
    SameTail s { s.store last v with queued := qs } := by
  cases last <;> exact ⟨rfl, rfl, rfl⟩

/-- The loop of `exflushed`, after the nodes `u` that do not match. -/
theorem flushLoop_spec (fs oldtag : Nat) (list : Path s.next s.head (u ++ v)) (queued : s.queued = u ++ v)
    (before : u.getLast? = last) (enough : v.length < n) :
    Path (s.flushLoop fs oldtag n last).next (s.flushLoop fs oldtag n last).head (s.flushLoop fs oldtag n last).queued ∧
      (s.flushLoop fs oldtag n last).queued =
        ((v.find? fun q => s.fs q = fs ∧ s.tag q = oldtag).elim s.queued s.queued.erase) ∧
      SameTail s (s.flushLoop fs oldtag n last) := by
  induction n generalizing u v last with
  | zero => omega
  | succ n ih =>
    have here := load_eq list before
    rw [flushLoop]
    cases v with
    | nil =>
      rw [List.head?_nil] at here
      simp only [here, List.find?_nil, Option.elim_none]
      exact ⟨by rw [queued]; exact list, trivial, rfl, rfl, rfl⟩
    | cons q v =>
      rw [List.head?_cons] at here
      simp only [here]
      by_cases found : s.fs q = fs ∧ s.tag q = oldtag
      · rw [if_pos found, List.find?_cons_of_pos (by simpa using found), Option.elim_some]
        have left : s.queued.erase q = u ++ v := by
          rw [queued]
          exact erase_middle list.nodup
        refine ⟨?_, rfl, store_sameTail _ _ _ _⟩
        simp only [left]
        exact store_list list before
      · rw [if_neg found, List.find?_cons_of_neg (by simpa using found)]
        have moved : u ++ q :: v = (u ++ [q]) ++ v := by simp
        rw [moved] at list queued
        exact ih list queued (by simp) (by simpa using enough)

/-- The loop of `exshutdown`, after the nodes `u` of other exports. -/
theorem shutdownLoop_spec (fs : Nat) (list : Path s.next s.head (u ++ v)) (queued : s.queued = u ++ v)
    (before : u.getLast? = last) (enough : v.length < n) :
    Path (shutdownLoop fs n s last).next (shutdownLoop fs n s last).head (shutdownLoop fs n s last).queued ∧
      (shutdownLoop fs n s last).queued = u ++ v.filter (fun q => s.fs q ≠ fs) ∧
      SameTail s (shutdownLoop fs n s last) := by
  induction n generalizing s u v last with
  | zero => omega
  | succ n ih =>
    have here := load_eq list before
    rw [shutdownLoop]
    cases v with
    | nil =>
      rw [List.head?_nil] at here
      simp only [here, List.filter_nil]
      exact ⟨by rw [queued]; exact list, queued, rfl, rfl, rfl⟩
    | cons q v =>
      rw [List.head?_cons] at here
      simp only [here]
      by_cases found : s.fs q = fs
      · rw [if_pos found, List.filter_cons_of_neg (by simpa using found)]
        have left : s.queued.erase q = u ++ v := by
          rw [queued]
          exact erase_middle list.nodup
        have same := store_sameTail s last (s.next q) (s.queued.erase q)
        have step := store_list list before
        obtain ⟨path, rest, kept⟩ := ih (s := { s.store last (s.next q) with queued := s.queued.erase q })
          step left before (by simpa using enough)
        refine ⟨path, ?_, kept.tail.trans same.tail, kept.made.trans same.made, kept.fs.trans same.fs⟩
        rw [rest, same.fs]
      · rw [if_neg found, List.filter_cons_of_pos (by simpa using found)]
        have moved : u ++ q :: v = (u ++ [q]) ++ v := by simp
        rw [moved] at list queued
        obtain ⟨path, rest, kept⟩ := ih list queued (List.getLast?_concat : _ = some q) (by simpa using enough)
        refine ⟨path, ?_, kept⟩
        rw [rest, List.append_assoc, List.singleton_append]

/-- The list has at most one node for each `Exq` made. -/
theorem Inv.length (inv : s.Inv) : s.queued.length < s.made + 1 := by
  have nodup := inv.ok.list.nodup
  have sub : s.queued ⊆ List.range s.made := fun q here => List.mem_range.mpr (inv.made q here)
  have bound := (List.subperm_of_subset nodup sub).length_le
  rw [List.length_range] at bound
  omega

theorem getLast?_erase {xs : List Ref} (kept : xs.getLast? ≠ some q) : (xs.erase q).getLast? = xs.getLast? := by
  rcases xs.eq_nil_or_concat with rfl | ⟨ys, t, rfl⟩
  · rfl
  · rw [List.concat_eq_append, List.getLast?_append, List.getLast?_singleton, Option.some_or] at kept ⊢
    have other : t ≠ q := fun same => kept (congrArg some same)
    rw [List.erase_append]
    split
    · rw [List.getLast?_append, List.getLast?_singleton, Option.some_or]
    · rw [List.erase_cons_tail (by simpa using other), List.erase_nil, List.getLast?_append,
        List.getLast?_singleton, Option.some_or]

theorem exflushed_inv (inv : s.Inv) (keeps : KeepsTail (.exflushed fs oldtag) s) : (s.exflushed fs oldtag).Inv := by
  obtain ⟨list, queued, same⟩ := flushLoop_spec fs oldtag (u := []) (v := s.queued)
    inv.ok.list rfl List.getLast?_nil inv.length
  rw [← exflushed] at list queued same
  cases found : s.queued.find? fun q => s.fs q = fs ∧ s.tag q = oldtag with
  | none =>
    rw [found, Option.elim_none] at queued
    refine ⟨⟨list, ?_⟩, ?_⟩
    · rw [queued, same.tail]
      exact inv.ok.tail
    · rw [queued, same.made]
      exact inv.made
  | some q =>
    rw [found, Option.elim_some] at queued
    refine ⟨⟨list, ?_⟩, ?_⟩
    · rw [queued, same.tail]
      intro some
      have kept : s.queued.getLast? ≠ Option.some q := by
        intro last
        rw [keeps q found last, List.erase_cons_head] at some
        exact some rfl
      rw [getLast?_erase kept]
      refine inv.ok.tail fun none => ?_
      rw [none] at some
      exact some rfl
    · rw [queued, same.made]
      exact fun r here => inv.made r (List.mem_of_mem_erase here)

theorem exshutdown_inv (inv : s.Inv) (keeps : KeepsTail (.exshutdown fs) s) : (s.exshutdown fs).Inv := by
  obtain ⟨list, queued, same⟩ := shutdownLoop_spec fs (u := []) (v := s.queued)
    inv.ok.list rfl List.getLast?_nil inv.length
  rw [List.nil_append] at queued
  refine ⟨⟨list, ?_⟩, ?_⟩
  · show (shutdownLoop fs (s.made + 1) s none).queued ≠ [] → (shutdownLoop fs (s.made + 1) s none).tail =
      (shutdownLoop fs (s.made + 1) s none).queued.getLast?
    rw [queued, same.tail]
    intro some
    rcases s.queued.eq_nil_or_concat with none | ⟨ys, t, split⟩
    · rw [none] at some
      exact absurd rfl some
    · have last : s.queued.getLast? = Option.some t := by
        rw [split, List.concat_eq_append, List.getLast?_append, List.getLast?_singleton, Option.some_or]
      have stays : s.fs t ≠ fs := by
        intro gone
        refine some (List.filter_eq_nil_iff.mpr fun r here => ?_)
        simpa using keeps t last gone r here
      rw [inv.ok.tail (fun none => some (by rw [none]; rfl)), last, split, List.concat_eq_append, List.filter_append,
        List.filter_cons_of_pos (by simpa using stays), List.getLast?_append]
      rfl
  · show ∀ q ∈ (shutdownLoop fs (s.made + 1) s none).queued, q < (shutdownLoop fs (s.made + 1) s none).made
    rw [queued, same.made]
    exact fun r here => inv.made r (List.mem_filter.mp here).1

theorem init_inv : init.Inv where
  ok := ⟨rfl, fun some => absurd rfl some⟩
  made := fun _ here => (nomatch here)

/-- As long as no flush and no shutdown takes the last of several waiting
requests and leaves another one, the list is what it should be. -/
theorem queue_ok (run : Lib.Run QAct.exec KeepsTail init s) : s.Ok := by
  have inv := run.invariant Inv init_inv fun {a} {s s'} inv keeps ran => by
    cases a with
    | enqueue fs tag => exact enqueue_inv inv ran
    | dequeue =>
      cases ran
      exact dequeue_inv inv
    | exflushed fs oldtag =>
      cases ran
      exact exflushed_inv inv keeps
    | exshutdown fs =>
      cases ran
      exact exshutdown_inv inv keeps
  exact inv.ok

theorem queue_ok_flushed : ((((init.enqueue 0 1).get rfl).enqueue 0 2).get rfl |>.exflushed 0 1).Ok := by
  have one : Lib.Run QAct.exec KeepsTail init ((init.enqueue 0 1).get rfl) :=
    Lib.Run.start.step (a := .enqueue 0 1) trivial rfl
  have two : Lib.Run QAct.exec KeepsTail init ((((init.enqueue 0 1).get rfl).enqueue 0 2).get rfl) :=
    one.step (a := .enqueue 0 2) trivial rfl
  refine queue_ok (two.step (a := .exflushed 0 1) ?_ rfl)
  intro q found last
  cases found
  nomatch last

/-- Two requests wait, the second is flushed and a third arrives: it hangs
behind the second and is in no list. -/
def lostRequest : Option Workq :=
  (init.enqueue 0 1).bind fun s => (s.enqueue 0 2).bind fun s => (s.exflushed 0 2).enqueue 0 3

theorem request_lost : ∃ s, lostRequest = some s ∧ Lib.Run QAct.exec (fun _ _ => True) init s ∧
    s.queued = [0, 2] ∧ Path s.next s.head [0] := by
  refine ⟨_, rfl, ?_, rfl, rfl, rfl⟩
  have one : Lib.Run QAct.exec (fun _ _ => True) init ((init.enqueue 0 1).get rfl) :=
    Lib.Run.start.step (a := .enqueue 0 1) trivial rfl
  have two : Lib.Run QAct.exec (fun _ _ => True) init ((((init.enqueue 0 1).get rfl).enqueue 0 2).get rfl) :=
    one.step (a := .enqueue 0 2) trivial rfl
  have flushed := two.step (a := .exflushed 0 2) trivial rfl
  exact flushed.step (a := .enqueue 0 3) trivial rfl

end Workq

end Inferno.Export
