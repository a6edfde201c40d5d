import Inferno.Dis.WaitInv

namespace Inferno.Dis

open Progq

variable {V : Type} {s : Sys V} {p : Pid} {a : Alt} {ss rs : List Cid}

/-- The channels of `mark`, by direction. -/
def byDir (ss rs : List Cid) : Dir → List Cid
  | .send => ss
  | .recv => rs

theorem queue_mark (s : Sys V) (p : Pid) (ss rs : List Cid) (d : Dir) (c : Cid) :
    (s.mark p ss rs).queue d c =
      ofWaiting (waiting (s.queue d c) ++ List.replicate ((byDir ss rs d).count c) p) := by
  cases d <;> rfl

theorem mark_nil (sound : ∀ e c, (s.queue e c).Sound) (p : Pid) : s.mark p [] [] = s := by
  have chans : ∀ c, ((s.mark p [] []).chan c) = s.chan c := by
    intro c
    have send : (s.chan c).send = ofWaiting (waiting (s.chan c).send) := (sound .send c).eq
    have recv : (s.chan c).recv = ofWaiting (waiting (s.chan c).recv) := (sound .recv c).eq
    simp only [Sys.mark, List.count_nil, List.replicate_zero, List.append_nil, ← send, ← recv]
  exact congrArg (fun chan => { s with chan }) (funext chans)

theorem cqadd_mark (s : Sys V) (p : Pid) (ss rs : List Cid) (d : Dir) (c : Cid) :
    cqadd p ((s.mark p ss rs).queue d c) =
      some (ofWaiting (waiting (s.queue d c) ++ List.replicate ((byDir ss rs d).count c + 1) p)) := by
  rw [queue_mark, cqadd_ofWaiting, List.append_assoc, List.replicate_succ']

/-- Queueing to receive once more. -/
theorem mark_recv (s : Sys V) (p : Pid) (ss rs : List Cid) (c : Cid) :
    (s.mark p ss rs).setQueue .recv c
        (ofWaiting (waiting (s.queue .recv c) ++ List.replicate (rs.count c + 1) p)) =
      s.mark p ss (rs ++ [c]) := by
  refine congrArg (fun chan => { s with chan }) (funext fun c' => ?_)
  by_cases same : c' = c
  · subst same
    simp [Sys.mark, Channel.setQueue, Sys.queue, Channel.queue]
  · have elsewhere : [c].count c' = 0 := List.count_eq_zero.mpr (by simpa using same)
    simp [Sys.mark, same, List.count_append, elsewhere]

theorem mark_send (s : Sys V) (p : Pid) (ss rs : List Cid) (c : Cid) :
    (s.mark p ss rs).setQueue .send c
        (ofWaiting (waiting (s.queue .send c) ++ List.replicate (ss.count c + 1) p)) =
      s.mark p (ss ++ [c]) rs := by
  refine congrArg (fun chan => { s with chan }) (funext fun c' => ?_)
  by_cases same : c' = c
  · subst same
    simp [Sys.mark, Channel.setQueue, Sys.queue, Channel.queue]
  · have elsewhere : [c].count c' = 0 := List.count_eq_zero.mpr (by simpa using same)
    simp [Sys.mark, same, List.count_append, elsewhere]

theorem canRecv_mark (s : Sys V) (p : Pid) (ss rs : List Cid) (c : Cid) :
    ∃ rdy, (s.mark p ss rs).canRecv c = some rdy := by
  have head : ((s.mark p ss rs).chan c).send.head? = some _ := head_ofWaiting _
  rw [Sys.canRecv, head]
  exact ⟨_, rfl⟩

theorem altmark_eq (s : Sys V) (p : Pid) (ss rs : List Cid) (arr : List (Option Cid)) (nrdy : Nat) :
    ∃ n, (s.mark p ss rs).altmark p arr nrdy = some (n, s.mark p ss (rs ++ arr.filterMap id)) := by
  induction arr generalizing rs nrdy with
  | nil => exact ⟨nrdy, by simp [Sys.altmark]⟩
  | cons ch arr ih =>
    cases ch with
    | none => exact ih rs nrdy
    | some c =>
      obtain ⟨rdy, test⟩ := canRecv_mark s p ss rs c
      obtain ⟨n, rest⟩ := ih (rs ++ [c]) (if rdy then nrdy + 1 else nrdy)
      refine ⟨n, ?_⟩
      have added := cqadd_mark s p ss rs .recv c
      rw [List.append_assoc, ← mark_recv] at rest
      simp only [Sys.altmark, test, added, Option.bind_eq_bind, Option.bind_some]
      exact rest

theorem altrdyRecv_eq (s : Sys V) (p : Pid) (ss rs : List Cid) (alts : List (RecvAlt × Addr)) (x : Option AltExn)
    (nrdy : Nat) :
    ∃ e n, (s.mark p ss rs).altrdyRecv p alts x nrdy =
        some (e, n, s.mark p ss (rs ++ alts.flatMap fun r => r.1.chans)) ∧
      (e = none ↔ x = none ∧ ∀ r ∈ alts, r.1 ≠ .nil) := by
  induction alts generalizing rs x nrdy with
  | nil => exact ⟨x, nrdy, by simp [Sys.altrdyRecv], by simp⟩
  | cons r alts ih =>
    obtain ⟨kind, ptr⟩ := r
    cases kind with
    | nil =>
      obtain ⟨e, n, ran, raised⟩ := ih rs (some .exNilref) nrdy
      exact ⟨e, n, ran, by simpa using raised⟩
    | array arr =>
      obtain ⟨m, marking⟩ := altmark_eq s p ss rs arr nrdy
      obtain ⟨e, n, ran, raised⟩ := ih (rs ++ arr.filterMap id) x m
      refine ⟨e, n, ?_, by simpa using raised⟩
      rw [List.append_assoc] at ran
      simp only [Sys.altrdyRecv, marking, Option.bind_eq_bind, Option.bind_some]
      exact ran
    | chan c =>
      obtain ⟨rdy, test⟩ := canRecv_mark s p ss rs c
      obtain ⟨e, n, ran, raised⟩ := ih (rs ++ [c]) x (if rdy then nrdy + 1 else nrdy)
      refine ⟨e, n, ?_, by simpa using raised⟩
      have added := cqadd_mark s p ss rs .recv c
      rw [List.append_assoc, ← mark_recv] at ran
      simp only [Sys.altrdyRecv, test, added, Option.bind_eq_bind, Option.bind_some]
      exact ran

/-- `p` is first to receive where it alone receives. -/
theorem head_mark_recv (absent : ∀ e c, p ∉ waiting (s.queue e c)) (ss : List Cid) (c : Cid) :
    ((s.mark p ss a.recvs).chan c).recv.head? = some (some p) ↔ ¬ s.Admits a .send c := by
  have queue : ((s.mark p ss a.recvs).chan c).recv =
    ofWaiting (waiting (s.queue .recv c) ++ List.replicate (a.recvs.count c) p) := rfl
  rw [queue, head_ofWaiting, Option.some_inj, Sys.Admits]
  cases waits : waiting (s.queue .recv c) with
  | nil =>
    rw [List.nil_append, List.head?_replicate]
    simp [List.count_eq_zero]
  | cons q ps =>
    have other : q ≠ p := fun same => absent .recv c (by rw [waits, same]; exact List.mem_cons_self)
    simpa using other

theorem canSend_mark (s : Sys V) (p : Pid) (ss rs : List Cid) (c : Cid) :
    (s.mark p ss rs).canSend c =
      some ((waiting (s.queue .recv c) ++ List.replicate (rs.count c) p).head?.isSome || (s.chan c).canput) := by
  have head : ((s.mark p ss rs).chan c).recv.head? =
    some (waiting (s.queue .recv c) ++ List.replicate (rs.count c) p).head? := head_ofWaiting _
  rw [Sys.canSend, head]
  rfl

theorem altrdySend_eq (absent : ∀ e c, p ∉ waiting (s.queue e c)) (ss : List Cid) (alts : List (Option Cid × Addr))
    (x : Option AltExn) (nrdy : Nat) :
    ∃ e n, (s.mark p ss a.recvs).altrdySend p alts x nrdy =
        some (e, n, s.mark p (ss ++ (alts.filterMap Prod.fst).filter fun c => s.Admits a .send c) a.recvs) ∧
      (e = none ↔ x = none ∧ (∀ y ∈ alts, y.1 ≠ none) ∧ ∀ c ∈ alts.filterMap Prod.fst, s.Admits a .send c) := by
  induction alts generalizing ss x nrdy with
  | nil => exact ⟨x, nrdy, by simp [Sys.altrdySend], by simp⟩
  | cons y alts ih =>
    obtain ⟨ch, ptr⟩ := y
    cases ch with
    | none =>
      obtain ⟨e, n, ran, raised⟩ := ih ss (some .exNilref) nrdy
      exact ⟨e, n, ran, by simpa using raised⟩
    | some c =>
      have test := canSend_mark s p ss a.recvs c
      by_cases admitted : s.Admits a .send c
      · have notFirst : ((s.mark p ss a.recvs).chan c).recv.head? ≠ some (some p) :=
          fun first => (head_mark_recv absent ss c).mp first admitted
        obtain ⟨e, n, ran, raised⟩ := ih (ss ++ [c]) x (if
          (waiting (s.queue .recv c) ++ List.replicate (a.recvs.count c) p).head?.isSome || (s.chan c).canput
          then nrdy + 1 else nrdy)
        refine ⟨e, n, ?_, by simpa [admitted] using raised⟩
        have added := cqadd_mark s p ss a.recvs .send c
        rw [List.append_assoc, ← mark_send] at ran
        simp only [Sys.altrdySend, test, added, notFirst, Option.bind_eq_bind, Option.bind_some, and_false, if_false]
        rw [List.filterMap_cons_some (f := Prod.fst) rfl, List.filter_cons_of_pos (by simpa using admitted)]
        exact ran
      · have first := (head_mark_recv absent ss c).mpr admitted
        obtain ⟨e, n, ran, raised⟩ := ih ss (some .exAlt) nrdy
        refine ⟨e, n, ?_, by simpa [admitted] using raised⟩
        have head : (waiting (s.queue .recv c) ++ List.replicate (a.recvs.count c) p).head? = some p :=
          Option.some_inj.mp ((head_ofWaiting _).symm.trans first)
        simp only [Sys.altrdySend, test, first, head, Option.bind_eq_bind, Option.bind_some, Option.isSome_some,
          Bool.true_or, and_self, if_true]
        rw [List.filterMap_cons_some (f := Prod.fst) rfl, List.filter_cons_of_neg (by simpa using admitted)]
        exact ran

theorem marks_recv (s : Sys V) (a : Alt) : s.marks a .recv = a.recvs := by
  exact List.filter_eq_self.mpr fun c _ => decide_eq_true trivial

/-- What `altrdy` does before it decides whether to raise an exception. -/
theorem altrdyMark_eq (sound : ∀ e c, (s.queue e c).Sound) (absent : ∀ e c, p ∉ waiting (s.queue e c)) (a : Alt) :
    ∃ e n, s.altrdyMark a p = some (e, n, s.markAll a p) ∧ (e = none ↔ ¬ s.Refuses a) := by
  obtain ⟨x, m, receives, raisedRecv⟩ := altrdyRecv_eq s p [] [] a.recv none 0
  obtain ⟨e, n, sends, raisedSend⟩ := altrdySend_eq (a := a) absent [] a.send x m
  rw [mark_nil sound, List.nil_append] at receives
  refine ⟨e, n, ?_, ?_⟩
  · rw [Sys.altrdyMark, receives, Sys.markAll, marks_recv]
    exact sends
  · rw [raisedSend, raisedRecv, Sys.Refuses]
    simp only [not_or, not_exists, not_and, true_and, not_not]
    rfl

/-- The count `altrdy` makes. -/
theorem altrdyMark_count {n : Nat} {t : Sys V} (ran : s.altrdyMark a p = some (none, n, t)) :
    n = s.countRecv a.recvs + t.countSend a.sends := by
  have counted : s.altrdy a p = some (.inr n, t) := by simp [Sys.altrdy, ran]
  obtain ⟨mid, _, marked, count, _⟩ := altrdy_spec counted
  rw [count, marked.countSend]

end Inferno.Dis
