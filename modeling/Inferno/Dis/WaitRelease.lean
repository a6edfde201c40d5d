import Inferno.Dis.WaitSteps

namespace Inferno.Dis

open Progq

variable {V : Type} {s s' s'' : Sys V} {p q : Pid} {d : Dir} {c : Cid} {L M : List (Dir × Cid)}

/-- `q` was taken out of the queues in `L`. The other queues, what the Progs are
doing, the run queue and the buffers are as before. -/
structure Freed (q : Pid) (L : List (Dir × Cid)) (s s' : Sys V) : Prop where
  inside : ∀ e c, (e, c) ∈ L → s'.queue e c = ofWaiting ((waiting (s.queue e c)).filter (· ≠ q))
  outside : ∀ e c, (e, c) ∉ L → s'.queue e c = s.queue e c
  state : ∀ r, (s'.prog r).state = (s.prog r).state
  chan : ∀ r, (s'.prog r).chan = (s.prog r).chan
  alt : ∀ r, (s'.prog r).alt = (s.prog r).alt
  runq : s'.runq = s.runq
  ok : (∀ c, (s.chan c).Ok) → ∀ c, (s'.chan c).Ok

theorem Freed.refl : Freed q [] s s :=
  ⟨fun _ _ member => (nomatch member), fun _ _ _ => rfl, fun _ => rfl, fun _ => rfl, fun _ => rfl, rfl, fun ok => ok⟩

theorem Freed.append (first : Freed q L s s') (next : Freed q M s' s'') : Freed q (L ++ M) s s'' where
  inside e c member := by
    by_cases early : (e, c) ∈ L <;> by_cases late : (e, c) ∈ M
    · rw [next.inside e c late, first.inside e c early, waiting_ofWaiting, List.filter_filter]
      simp only [Bool.and_self]
    · rw [next.outside e c late, first.inside e c early]
    · rw [next.inside e c late, first.outside e c early]
    · exact absurd (List.mem_append.mp member) (by simp [early, late])
  outside e c absent := by
    rw [next.outside e c fun late => absent (List.mem_append_right _ late),
      first.outside e c fun early => absent (List.mem_append_left _ early)]
  state r := (next.state r).trans (first.state r)
  chan r := (next.chan r).trans (first.chan r)
  alt r := (next.alt r).trans (first.alt r)
  runq := next.runq.trans first.runq
  ok fine := next.ok (first.ok fine)

/-- Notes an alternation leaves with its Prog do not matter here. -/
theorem Freed.setProg (freed : Freed q L s s') {pr : Prog} (state : pr.state = (s'.prog q).state)
    (chan : pr.chan = (s'.prog q).chan) (alt : pr.alt = (s'.prog q).alt) : Freed q L s (s'.setProg q pr) where
  inside := freed.inside
  outside := freed.outside
  state r := by
    by_cases same : r = q
    · subst same
      simp [Sys.setProg, state, freed.state]
    · simp [Sys.setProg, same, freed.state]
  chan r := by
    by_cases same : r = q
    · subst same
      simp [Sys.setProg, chan, freed.chan]
    · simp [Sys.setProg, same, freed.chan]
  alt r := by
    by_cases same : r = q
    · subst same
      simp [Sys.setProg, alt, freed.alt]
    · simp [Sys.setProg, same, freed.alt]
  runq := freed.runq
  ok := freed.ok

theorem Freed.sound (freed : Freed q L s s') (sound : ∀ e c, (s.queue e c).Sound) (e : Dir) (c : Cid) :
    (s'.queue e c).Sound := by
  by_cases inside : (e, c) ∈ L
  · rw [freed.inside e c inside]
    exact sound_ofWaiting _
  · rw [freed.outside e c inside]
    exact sound e c

/-- A queue `q` was taken out of is clear of it. -/
theorem clear_ofWaiting_filter (ps : List Pid) :
    (ofWaiting (ps.filter (· ≠ q))).length ≤ 1 ∨ ∃ f ∈ ofWaiting (ps.filter (· ≠ q)), f ≠ some q := by
  cases left : ps.filter (· ≠ q) with
  | nil => exact Or.inl le_rfl
  | cons r rs =>
    have member : r ∈ ps.filter (· ≠ q) := left ▸ List.mem_cons_self
    have other := (List.mem_filter.mp member).2
    exact Or.inr ⟨some r, List.mem_cons_self, by simpa using other⟩

theorem Freed.clear (freed : Freed q L s s') (clear : s.Clear q) : s'.Clear q := by
  intro e c
  by_cases inside : (e, c) ∈ L
  · rw [freed.inside e c inside]
    exact clear_ofWaiting_filter _
  · rw [freed.outside e c inside]
    exact clear e c

theorem others_of_clear {ps : List Pid} (clear : (ofWaiting ps).length ≤ 1 ∨ ∃ f ∈ ofWaiting ps, f ≠ some q) :
    ps.length ≤ 1 ∨ ∃ r ∈ ps, r ≠ q := by
  cases ps with
  | nil => exact Or.inl (Nat.zero_le 1)
  | cons p ps =>
    rcases clear with short | ⟨f, member, other⟩
    · exact Or.inl (by simpa [ofWaiting] using short)
    · have mapped : f ∈ (p :: ps).map some := member
      obtain ⟨r, inside, rfl⟩ := List.mem_map.mp mapped
      exact Or.inr ⟨r, inside, fun same => other (congrArg some same)⟩

theorem cqdelp_of_clear (sound : (s.queue d c).Sound) (clear : s.Clear q) :
    cqdelp q (s.queue d c) = some (ofWaiting ((waiting (s.queue d c)).filter (· ≠ q))) := by
  have here := clear d c
  rw [sound.eq] at here
  conv_lhs => rw [sound.eq]
  exact cqdelp_ofWaiting (others_of_clear here)

/-- Rewriting one queue. -/
theorem Freed.single {t : Progq} (rewritten : t = ofWaiting ((waiting (s.queue d c)).filter (· ≠ q))) :
    Freed q [(d, c)] s (s.setQueue d c t) where
  inside e c' member := by
    obtain ⟨rfl, rfl⟩ := Prod.mk.inj (List.mem_singleton.mp member)
    rw [Sys.queue_setQueue, if_pos ⟨rfl, rfl⟩, rewritten]
  outside e c' absent := by
    rw [Sys.queue_setQueue, if_neg]
    rintro ⟨rfl, rfl⟩
    exact absent (List.mem_singleton_self _)
  state _ := rfl
  chan _ := rfl
  alt _ := rfl
  runq := rfl
  ok fine c' := by
    by_cases same : c' = c
    · subst same
      simpa [Sys.setQueue, Sys.setChan] using (fine c').setQueue d t
    · simpa [Sys.setQueue, Sys.setChan, same] using fine c'

theorem unqueue_freed (sound : ∀ e c, (s.queue e c).Sound) (clear : s.Clear q) (d : Dir) (c : Cid) :
    ∃ s', s.unqueue d q c = some s' ∧ Freed q [(d, c)] s s' := by
  have head : (s.queue d c).head? = some (waiting (s.queue d c)).head? := by
    conv_lhs => rw [(sound d c).eq]
    exact head_ofWaiting _
  rw [Sys.unqueue, head]
  cases waits : waiting (s.queue d c) with
  | nil =>
    refine ⟨s, rfl, ⟨fun e c' member => ?_, fun _ _ _ => rfl, fun _ => rfl, fun _ => rfl, fun _ => rfl, rfl, fun ok => ok⟩⟩
    obtain ⟨rfl, rfl⟩ := Prod.mk.inj (List.mem_singleton.mp member)
    rw [waits]
    conv_lhs => rw [(sound e c').eq, waits]
    rfl
  | cons r rs =>
    refine ⟨_, ?_, Freed.single rfl⟩
    simp only [List.head?_cons, Option.bind_eq_bind, Option.bind_some, cqdelp_of_clear (sound d c) clear,
      Option.pure_def]

/-- The channels of one half of a table, as queues. -/
def queuesOf (d : Dir) (cs : List Cid) : List (Dir × Cid) := cs.map fun c => (d, c)

theorem altdoneSend_freed (sr : Option Dir) (ss : List (Option Cid × Addr)) (sound : ∀ e c, (s.queue e c).Sound)
    (clear : s.Clear q) (n : Nat) (sel : Option Cid) :
    ∃ sel' s', s.altdoneSend q sr ss n sel = some (sel', s') ∧
      Freed q (queuesOf .send (ss.filterMap Prod.fst)) s s' := by
  induction ss generalizing s n sel with
  | nil => exact ⟨sel, s, rfl, Freed.refl⟩
  | cons x ss ih =>
    obtain ⟨ch, ptr⟩ := x
    cases ch with
    | none => exact ih sound clear (n + 1) sel
    | some c =>
      obtain ⟨mid, ran, freed⟩ := unqueue_freed sound clear .send c
      simp only [Sys.altdoneSend, ran, Option.bind_eq_bind, Option.bind_some]
      split
      · have noted : Freed q [(.send, c)] s (mid.setProg q { mid.prog q with ptr, which := n }) :=
          freed.setProg rfl rfl rfl
        obtain ⟨sel', s', rest, last⟩ := ih (noted.sound sound) (noted.clear clear) (n + 1) none
        exact ⟨sel', s', rest, noted.append last⟩
      · obtain ⟨sel', s', rest, last⟩ := ih (freed.sound sound) (freed.clear clear) (n + 1) sel
        exact ⟨sel', s', rest, freed.append last⟩

theorem altunmark_freed (sr : Option Dir) (arr : List (Option Cid)) (ptr : Addr) (dn : Nat)
    (sound : ∀ e c, (s.queue e c).Sound) (clear : s.Clear q) (n : Nat) (sel : Option Cid) :
    ∃ sel' s', s.altunmark ptr q sr dn arr n sel = some (sel', s') ∧
      Freed q (queuesOf .recv (arr.filterMap id)) s s' := by
  induction arr generalizing s n sel with
  | nil => exact ⟨sel, s, rfl, Freed.refl⟩
  | cons ch arr ih =>
    cases ch with
    | none => exact ih sound clear (n + 1) sel
    | some c =>
      obtain ⟨mid, ran, freed⟩ := unqueue_freed sound clear .recv c
      simp only [Sys.altunmark, ran, Option.bind_eq_bind, Option.bind_some]
      split
      · have noted : Freed q [(.recv, c)] s
            (mid.setProg q { mid.prog q with ptr := ptr + 1, which := dn, elem := n }) := freed.setProg rfl rfl rfl
        obtain ⟨sel', s', rest, last⟩ := ih (noted.sound sound) (noted.clear clear) (n + 1) none
        exact ⟨sel', s', rest, noted.append last⟩
      · obtain ⟨sel', s', rest, last⟩ := ih (freed.sound sound) (freed.clear clear) (n + 1) sel
        exact ⟨sel', s', rest, freed.append last⟩

theorem altdoneRecv_freed (sr : Option Dir) (rs : List (RecvAlt × Addr)) (sound : ∀ e c, (s.queue e c).Sound)
    (clear : s.Clear q) (n : Nat) (sel : Option Cid) :
    ∃ s', s.altdoneRecv q sr rs n sel = some s' ∧
      Freed q (queuesOf .recv (rs.flatMap fun r => r.1.chans)) s s' := by
  induction rs generalizing s n sel with
  | nil => exact ⟨s, rfl, Freed.refl⟩
  | cons r rs ih =>
    obtain ⟨kind, ptr⟩ := r
    cases kind with
    | nil => exact ih sound clear (n + 1) sel
    | array arr =>
      obtain ⟨sel', mid, ran, freed⟩ := altunmark_freed sr arr ptr n sound clear 0 sel
      simp only [Sys.altdoneRecv, ran, Option.bind_eq_bind, Option.bind_some]
      obtain ⟨s', rest, last⟩ := ih (freed.sound sound) (freed.clear clear) (n + 1) sel'
      refine ⟨s', rest, ?_⟩
      rw [queuesOf, List.flatMap_cons, List.map_append]
      exact freed.append last
    | chan c =>
      obtain ⟨mid, ran, freed⟩ := unqueue_freed sound clear .recv c
      simp only [Sys.altdoneRecv, ran, Option.bind_eq_bind, Option.bind_some]
      split
      · have noted : Freed q [(.recv, c)] s (mid.setProg q { mid.prog q with ptr, which := n }) :=
          freed.setProg rfl rfl rfl
        obtain ⟨s', rest, last⟩ := ih (noted.sound sound) (noted.clear clear) (n + 1) none
        exact ⟨s', rest, noted.append last⟩
      · obtain ⟨s', rest, last⟩ := ih (freed.sound sound) (freed.clear clear) (n + 1) sel
        exact ⟨s', rest, freed.append last⟩

/-- On clear queues `altdone` returns and takes the Prog out of every queue of its table. -/
theorem altdone_freed (a : Alt) (sel : Option Cid) (sr : Option Dir) (sound : ∀ e c, (s.queue e c).Sound)
    (clear : s.Clear q) :
    ∃ s', s.altdone a q sel sr = some s' ∧ Freed q (queuesOf .send a.sends ++ queuesOf .recv a.recvs) s s' := by
  obtain ⟨sel', mid, sends, freed⟩ := altdoneSend_freed sr a.send sound clear 0 sel
  obtain ⟨s', receives, last⟩ :=
    altdoneRecv_freed sr a.recv (freed.sound sound) (freed.clear clear) a.send.length sel'
  refine ⟨s', ?_, freed.append last⟩
  rw [Sys.altdone, sends]
  exact receives

theorem mem_queuesOf_chans {a : Alt} {e : Dir} {c : Cid} :
    (e, c) ∈ queuesOf .send a.sends ++ queuesOf .recv a.recvs ↔ c ∈ a.chans e := by
  cases e <;> simp [queuesOf, Alt.chans]

end Inferno.Dis
