import Inferno.Dis.Channel

namespace Inferno.Dis

/-- A queue in one of its two regular forms: a single empty node, or nodes
that all hold a Prog. -/
def Progq.Sound (q : Progq) : Prop := q = [none] ∨ q ≠ [] ∧ ∀ f ∈ q, f ≠ none

/-- The Progs in a queue, first to be served first. -/
def Progq.waiting (q : Progq) : List Pid := q.filterMap id

namespace Progq

theorem mem_waiting {q : Progq} {p : Pid} : p ∈ waiting q ↔ some p ∈ q := by
  simp [waiting]

theorem waiting_map_some {q : Progq} (full : ∀ f ∈ q, f ≠ none) : q = (waiting q).map some := by
  induction q with
  | nil => rfl
  | cons f q ih =>
    cases f with
    | none => exact absurd rfl (full none List.mem_cons_self)
    | some p =>
      have rest := ih fun f member => full f (List.mem_cons_of_mem _ member)
      have head : waiting (some p :: q) = p :: waiting q := rfl
      rw [head, List.map_cons, ← rest]

/-- A regular queue is determined by the Progs in it. -/
def ofWaiting : List Pid → Progq
  | [] => [none]
  | p :: ps => some p :: ps.map some

theorem Sound.eq {q : Progq} (sound : q.Sound) : q = ofWaiting (waiting q) := by
  rcases sound with rfl | ⟨nonempty, full⟩
  · rfl
  · cases q with
    | nil => exact absurd rfl nonempty
    | cons f q =>
      cases f with
      | none => exact absurd rfl (full none List.mem_cons_self)
      | some p =>
        have rest := waiting_map_some fun f member => full f (List.mem_cons_of_mem _ member)
        change some p :: q = some p :: (waiting q).map some
        rw [← rest]

@[simp] theorem waiting_ofWaiting (ps : List Pid) : waiting (ofWaiting ps) = ps := by
  cases ps with
  | nil => rfl
  | cons p ps => simp [ofWaiting, waiting, List.filterMap_map]

theorem sound_ofWaiting (ps : List Pid) : (ofWaiting ps).Sound := by
  cases ps with
  | nil => exact Or.inl rfl
  | cons p ps => exact Or.inr ⟨by simp [ofWaiting], by simp [ofWaiting]⟩

@[simp] theorem head_ofWaiting (ps : List Pid) : (ofWaiting ps).head? = some ps.head? := by
  cases ps <;> rfl

theorem cqadd_ofWaiting (p : Pid) (ps : List Pid) : cqadd p (ofWaiting ps) = some (ofWaiting (ps ++ [p])) := by
  cases ps with
  | nil => rfl
  | cons f ps => simp [ofWaiting, cqadd]

theorem cqdel_ofWaiting (ps : List Pid) : cqdel (ofWaiting ps) = some (ofWaiting ps.tail) := by
  cases ps with
  | nil => rfl
  | cons f ps => cases ps <;> rfl

/-- Deleting a Prog keeps a queue regular unless it holds two nodes or more,
all of them that Prog's. -/
theorem cqdelp_ofWaiting {p : Pid} {ps : List Pid} (others : ps.length ≤ 1 ∨ ∃ r ∈ ps, r ≠ p) :
    cqdelp p (ofWaiting ps) = some (ofWaiting (ps.filter (· ≠ p))) := by
  match ps with
  | [] => rfl
  | [f] =>
    by_cases same : f = p <;> simp [ofWaiting, cqdelp, same]
  | f :: g :: rest =>
    have kept : (f :: g :: rest).filter (· ≠ p) ≠ [] := by
      obtain short | ⟨r, member, differs⟩ := others
      · simp at short
      · intro empty
        have gone := List.filter_eq_nil_iff.mp empty r member
        simp [differs] at gone
    have mapped : ((f :: g :: rest).map some).filter (· ≠ some p) =
        ((f :: g :: rest).filter (· ≠ p)).map some := by
      rw [List.filter_map]
      congr 1
      refine List.filter_congr fun r _ => ?_
      simp
    change some (((f :: g :: rest).map some).filter (· ≠ some p)) = _
    rw [mapped]
    cases remaining : (f :: g :: rest).filter (· ≠ p) with
    | nil => exact absurd remaining kept
    | cons r rs => rfl

end Progq

def Dir.blocked : Dir → ProgState
  | .send => .send
  | .recv => .recv

/-- No Prog waits and every channel is as `cnewc` made it. -/
structure Sys.Fresh {V : Type} (s : Sys V) : Prop where
  chans : ∀ c, ∃ len fill init, s.chan c = Channel.cnewc len fill init
  idle : ∀ p, (s.prog p).state ≠ .alt ∧ ∀ d : Dir, (s.prog p).state ≠ d.blocked
  running : ∀ p ∈ s.runq, (s.prog p).state = .ready
  nodup : s.runq.Nodup

theorem Sys.Fresh.queue {V : Type} {s : Sys V} (fresh : s.Fresh) (d : Dir) (c : Cid) : s.queue d c = [none] := by
  obtain ⟨len, fill, init, made⟩ := fresh.chans c
  cases d <;> simp only [Sys.queue, made] <;> rfl

end Inferno.Dis
