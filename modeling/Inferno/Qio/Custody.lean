import Inferno.Qio.Sys
import Inferno.Lib.Run

namespace Inferno.Qio

section Custody

open Queue

variable {m m' : Sys} {q' : Queue} {bs : List Block} {o f lost : List Nat} {a : List UInt8}

/-- A section moves blocks between their places. `new` came to the queue for the
first time, and nobody has the blocks `lost` any more. -/
structure Moved (m m' : Sys) (lost : List Nat) : Prop where
  ok : m'.q.Ok
  fits : ∀ r ∈ m'.reading, r.first.length = 1 ∨ blocklen r.first ≤ r.len
  moved : ∃ new, m'.handed = m.handed ++ new ∧ new.Nodup ∧ (∀ i ∈ new, i ∉ m.handed) ∧
    (m.places ++ new).Perm (m'.places ++ lost)

theorem Moved.inv (step : Moved m m' lost) (inv : m.Inv) : m'.Inv := by
  obtain ⟨new, handed, once, fresh, perm⟩ := step.moved
  have whole : (m.places ++ new).Nodup := by
    refine List.nodup_append.mpr ⟨inv.nodup, once, fun i old j young same => ?_⟩
    exact fresh j young (same ▸ inv.known i old)
  refine ⟨step.ok, (List.nodup_append.mp (perm.nodup_iff.mp whole)).1, fun i here => ?_, step.fits⟩
  rw [handed]
  rcases List.mem_append.mp (perm.mem_iff.mpr (List.mem_append_left lost here)) with old | young
  · exact List.mem_append_left _ (inv.known i old)
  · exact List.mem_append_right _ young

/-- With nothing lost, the blocks handed over stay in their places. -/
theorem Moved.kept (step : Moved m m' []) (all : ∀ i ∈ m.handed, i ∈ m.places) : ∀ i ∈ m'.handed, i ∈ m'.places := by
  obtain ⟨new, handed, _, _, perm⟩ := step.moved
  rw [List.append_nil] at perm
  intro i known
  rw [handed] at known
  refine perm.mem_iff.mp ?_
  rcases List.mem_append.mp known with old | young
  · exact List.mem_append_left _ (all i old)
  · exact List.mem_append_right _ young

theorem Sys.Inv.queued (inv : m.Inv) : (ids m.q.blocks).Nodup := by
  have nodup := inv.nodup
  rw [Sys.places, List.append_assoc, List.append_assoc] at nodup
  exact (List.nodup_append.mp nodup).1

theorem Sys.Inv.out (inv : m.Inv) : m.out.Nodup ∧ ∀ i ∈ m.out, i ∈ m.handed := by
  have nodup := inv.nodup
  have known := inv.known
  simp only [Sys.places, List.mem_append] at nodup known
  refine ⟨?_, fun i here => known i (Or.inl (Or.inr here))⟩
  exact (List.nodup_append.mp (List.nodup_append.mp nodup).1).2.1

/-- Blocks are taken from the queue or from a `qread`. -/
theorem moved_take {reading : Option Reading} {d : List UInt8} (ok : q'.Ok)
    (fits : ∀ r ∈ reading, r.first.length = 1 ∨ blocklen r.first ≤ r.len)
    (perm : (ids m.q.blocks ++ ids m.gap).Perm
      (ids q'.blocks ++ ids ((reading.map Reading.first).getD []) ++ o ++ f ++ lost)) :
    Moved m { m with q := q', reading := reading, out := m.out ++ o, freed := m.freed ++ f, delivered := d } lost := by
  refine ⟨ok, fits, [], (List.append_nil _).symm, List.nodup_nil, fun i none => absurd none List.not_mem_nil, ?_⟩
  rw [List.perm_iff_count] at perm ⊢
  intro i
  have here := perm i
  simp only [Sys.places, Sys.gap, List.count_append, List.count_nil] at here ⊢
  omega

/-- A section that leaves the `qread` alone takes blocks from the queue. -/
theorem moved_unlink {d : List UInt8} (inv : m.Inv) (ok : q'.Ok)
    (perm : (ids m.q.blocks).Perm (ids q'.blocks ++ o ++ f ++ lost)) :
    Moved m { m with q := q', out := m.out ++ o, freed := m.freed ++ f, delivered := d } lost := by
  refine moved_take ok inv.fits ?_
  rw [List.perm_iff_count] at perm ⊢
  intro i
  have here := perm i
  simp only [Sys.gap, List.count_append] at here ⊢
  omega

/-- What a caller has handed over is its own no longer. -/
theorem hand_perm (inv : m.Inv) (own : m.Owned bs) :
    (m.out ++ (ids bs).filter fun i => i ∉ m.handed).Perm ((m.out.filter fun i => i ∉ ids bs) ++ ids bs) := by
  obtain ⟨nodup, known⟩ := inv.out
  obtain ⟨once, mine⟩ := own
  refine (List.perm_ext_iff_of_nodup ?_ ?_).mpr fun i => ?_
  · refine List.nodup_append.mpr ⟨nodup, once.filter _, fun i old j young same => ?_⟩
    have fresh := (List.mem_filter.mp young).2
    exact (of_decide_eq_true fresh) (same ▸ known i old)
  · refine List.nodup_append.mpr ⟨nodup.filter _, once, fun i old j young same => ?_⟩
    exact of_decide_eq_true (List.mem_filter.mp old).2 (same ▸ young)
  · simp only [List.mem_append, List.mem_filter, decide_eq_true_eq]
    have here := mine i
    have there := known i
    tauto

/-- A caller hands over blocks, which are queued, freed or lost. -/
theorem moved_hand (inv : m.Inv) (own : m.Owned bs) (ok : q'.Ok)
    (perm : (ids m.q.blocks ++ ids bs).Perm (ids q'.blocks ++ f ++ lost)) :
    Moved m { m.hand bs with q := q', freed := m.freed ++ f, accepted := a } lost := by
  refine ⟨ok, inv.fits, _, rfl, own.1.filter _, fun i young => of_decide_eq_true (List.mem_filter.mp young).2, ?_⟩
  have mine := hand_perm inv own
  rw [List.perm_iff_count] at perm mine ⊢
  intro i
  have here := perm i
  have there := mine i
  simp only [Sys.places, Sys.gap, Sys.hand, List.count_append] at here there ⊢
  omega

/-- A block allocated for the queue is like one that a caller hands over. -/
theorem alloc_eq_hand {b : Block} (inv : m.Inv) (fresh : b.id ∉ m.handed) : m.alloc b.id = m.hand [b] := by
  have out : (m.out.filter fun i => decide (i ∉ ids [b])) = m.out := by
    refine List.filter_eq_self.mpr fun i here => decide_eq_true fun same => ?_
    rw [ids_cons, ids_nil, List.mem_singleton] at same
    exact fresh (same ▸ inv.out.2 i here)
  have handed : ((ids [b]).filter fun i => decide (i ∉ m.handed)) = [b.id] :=
    List.filter_eq_self.mpr fun i here => by
      rw [ids_cons, ids_nil, List.mem_singleton] at here
      exact decide_eq_true (here ▸ fresh)
  rw [Sys.alloc, Sys.hand, out, handed]

theorem owned_new {b : Block} (fresh : b.id ∉ m.handed) : m.Owned [b] := by
  refine ⟨List.nodup_singleton _, fun i here => Or.inr ?_⟩
  rw [ids_cons, ids_nil, List.mem_singleton] at here
  exact here ▸ fresh

/-- What a write gets is queued or freed, but for the blocks behind the one that `qbwrite` is given. -/
theorem moved_wrote {α : Type} {r : Out α} {data : List UInt8} {kept gone : List Block} (inv : m.Inv)
    (own : m.Owned (kept ++ gone)) (wrote : r.q = m.q ∧ r.freed = ids kept ∨ Extended m.q r.q kept ∧ r.freed = []) :
    Moved m ((m.hand (kept ++ gone)).wrote r data) (ids gone) := by
  rcases wrote with ⟨same, freed⟩ | ⟨more, freed⟩
  · have perm : (ids m.q.blocks ++ ids (kept ++ gone)).Perm (ids r.q.blocks ++ r.freed ++ ids gone) := by
      rw [same, freed, ids_append, List.append_assoc]
    exact moved_hand inv own (same ▸ inv.ok) perm
  · have perm : (ids m.q.blocks ++ ids (kept ++ gone)).Perm (ids r.q.blocks ++ r.freed ++ ids gone) := by
      rw [more.blocks, freed, ids_append, ids_append, List.append_nil, List.append_assoc]
    exact moved_hand inv own more.ok perm

theorem moved_wrote_all {α : Type} {r : Out α} {data : List UInt8} (inv : m.Inv) (own : m.Owned bs)
    (wrote : r.q = m.q ∧ r.freed = ids bs ∨ Extended m.q r.q bs ∧ r.freed = []) :
    Moved m ((m.hand bs).wrote r data) [] := by
  have step : Moved m ((m.hand (bs ++ [])).wrote r data) (ids []) := moved_wrote inv (by rwa [List.append_nil]) wrote
  rwa [List.append_nil] at step

/-- The section does not lose blocks: `qconsume` finds a byte or has nothing to skip,
`qbread` gets the memory for a split, and a single block is written or put back. -/
def Event.Careful : Event → Sys → Prop
  | qconsume _, m => m.q.blocks = [] ∨ ∃ b ∈ m.q.blocks, 0 < b.blen
  | qbread len block, m => m.q.splits len → block ≠ none
  | qbwrite _ rest, _ | qputback _ rest, _ => rest = []
  | _, _ => True

theorem moved_out (inv : m.Inv) (shorter : Shortened m.q q' o) {d : List UInt8} :
    Moved m { m with q := q', out := m.out ++ o, delivered := d } [] := by
  have perm : (ids m.q.blocks).Perm (ids q'.blocks ++ o ++ [] ++ []) := by
    rw [shorter.ids, List.append_nil, List.append_nil]
    exact List.perm_append_comm
  have step := moved_unlink (d := d) inv (shorter.ok inv.ok) perm
  rwa [List.append_nil] at step

theorem moved_freed {gone : List Nat} (inv : m.Inv) (shorter : Shortened m.q q' gone) (freed : f.Perm gone) {d : List UInt8} :
    Moved m { m with q := q', freed := m.freed ++ f, delivered := d } [] := by
  have perm : (ids m.q.blocks).Perm (ids q'.blocks ++ [] ++ f ++ []) := by
    rw [shorter.ids, List.append_nil, List.append_nil]
    exact List.perm_append_comm.trans (freed.symm.append_left _)
  have step := moved_unlink (d := d) inv (shorter.ok inv.ok) perm
  rwa [List.append_nil] at step

theorem moved_flags (inv : m.Inv) (same : SameBlocks m.q q') : Moved m { m with q := q' } [] := by
  have step := moved_out inv same.shortened (d := m.delivered)
  rwa [List.append_nil] at step

theorem flush_shortened {q : Queue} (ok : q.Ok) (blocks : q'.blocks = []) (blast : q'.blast = q.blast) (len : q'.len = 0)
    (dlen : q'.dlen = 0) : Shortened q q' (ids q.blocks) := by
  refine ⟨by rw [blocks, ids_nil, List.append_nil], blast, ?_, ?_, ?_⟩
  · rw [len, blocks, ok.len, blockalloclen_nil]
    omega
  · rw [dlen, blocks, ok.dlen, blocklen_nil]
    omega
  · rw [len, ok.len]
    omega

/-- Blocks that `qconsume` unlinks are lost if it then has nothing to read. -/
theorem qconsume_moved (inv : m.Inv) (len : Nat) (ran : (Event.qconsume len).exec m = some m') :
    ∃ lost, Moved m m' lost ∧ ((Event.qconsume len).Careful m → lost = []) := by
  rw [Event.exec] at ran
  split at ran
  · cases ran
  · injection ran with ran
    subst ran
    obtain ⟨p, gone, shorter, flags, _, left, none | ⟨b, rest, p', more, freed, front, shorter', _, perm, _, out⟩⟩ :=
      qconsume_cases m.q len
    · obtain ⟨none, out⟩ := none
      rw [out]
      refine ⟨gone, ?_, fun careful => ?_⟩
      · have names := shorter.ids
        rw [none, ids_nil, List.append_nil] at names
        have perm : (ids m.q.blocks).Perm (ids ({ p with starve := true } : Queue).blocks ++ [] ++ [] ++ gone) := by
          rw [none, names]
          exact List.Perm.refl _
        have ok : ({ p with starve := true } : Queue).Ok := SameBlocks.ok (q := p) ⟨rfl, rfl, rfl, rfl⟩ (shorter.ok inv.ok)
        have step := moved_unlink (d := m.delivered ++ []) inv ok perm
        rwa [List.append_nil] at step
      · have empty : ∀ b ∈ m.q.blocks, b.blen = 0 := by
          rw [none] at left
          exact fun b here => of_decide_eq_true (List.dropWhile_eq_nil_iff.mp left.symm b here)
        have names := shorter.ids
        rw [none, ids_nil, List.append_nil] at names
        rcases careful with nothing | ⟨b, here, some⟩
        · rw [nothing] at names
          exact names.symm
        · have zero := empty b here
          omega
    · rw [out]
      refine ⟨[], moved_freed inv ((shorter.trans shorter').restart _) perm, fun _ => rfl⟩

theorem qbread_moved (inv : m.Inv) {len : Nat} {block : Option Nat} (valid : (Event.qbread len block).Valid m)
    (ran : (Event.qbread len block).exec m = some m') :
    ∃ lost, Moved m m' lost ∧ ((Event.qbread len block).Careful m → lost = []) := by
  simp only [Event.exec] at ran
  split at ran
  · cases ran
  · split at ran
    · cases ran
    · rcases qbread_cases m.q len block with ⟨none, out⟩ | ⟨b, rest, front, whole | ⟨long, stream, split | lost⟩⟩
      · have splits : m.q.splits len = false := by rw [splits, none]
        simp only [out, splits, Bool.false_eq_true, if_false, Option.some.injEq] at ran
        subst ran
        exact ⟨[], moved_flags inv (sameBlocks_qwait m.q), fun _ => rfl⟩
      · obtain ⟨fits, out⟩ := whole
        have splits : m.q.splits len = false := by
          simp only [splits, front, Bool.and_eq_false_iff, decide_eq_false_iff_not, Bool.not_eq_false']
          exact fits.imp_left Nat.not_lt.mpr
        simp only [out, splits, Bool.false_eq_true, if_false, Option.some.injEq] at ran
        subst ran
        exact ⟨[], moved_out inv ((unlink_shortened front).restart _), fun _ => rfl⟩
      · obtain ⟨id, rfl, out⟩ := split
        have splits : m.q.splits len = true := by simp [splits, front, long, stream]
        have fresh : id ∉ m.handed := valid id rfl
        simp only [out, splits, if_true, Option.elim, Option.some.injEq] at ran
        subst ran
        refine ⟨[], ?_, fun _ => rfl⟩
        refine ⟨(((unlink_shortened front).ok inv.ok).qputback).restart _, inv.fits, [id], rfl, List.nodup_singleton _, ?_, ?_⟩
        · intro i here
          rw [List.mem_singleton] at here
          exact here ▸ fresh
        · rw [List.perm_iff_count]
          intro i
          simp only [Sys.places, Sys.gap, Sys.alloc, (sameBlocks_restart _ _).blocks, front, qputback, unlink, ids_cons,
            newBlock, Block.cut, List.count_append, List.count_cons, List.count_nil]
          omega
      · obtain ⟨rfl, out⟩ := lost
        have splits : m.q.splits len = true := by simp [splits, front, long, stream]
        simp only [out, splits, if_true, Option.elim, Option.some.injEq] at ran
        subst ran
        refine ⟨[b.id], ?_, fun careful => absurd rfl (careful splits)⟩
        have ok : ({ m.q.unlink b rest with locked := true } : Queue).Ok :=
          SameBlocks.ok (q := m.q.unlink b rest) ⟨rfl, rfl, rfl, rfl⟩ ((unlink_shortened front).ok inv.ok)
        have perm : (ids m.q.blocks).Perm (ids ({ m.q.unlink b rest with locked := true } : Queue).blocks ++ [] ++ [] ++ [b.id]) := by
          rw [front, List.append_nil, List.append_nil]
          exact (List.perm_append_singleton _ _).symm
        have step := moved_unlink (d := m.delivered) inv ok perm
        rwa [List.append_nil, List.append_nil] at step

/-- The blocks of a `qread` leave the queue, and those of no length are freed. -/
theorem qread_moved (inv : m.Inv) {len : Nat} (ran : (Event.qread len).exec m = some m') : Moved m m' [] := by
  simp only [Event.exec] at ran
  split at ran
  · cases ran
  · split at ran
    · cases ran
    · rename_i idle
      have none : m.reading = none := by simpa using idle
      obtain ⟨p, freed, shorter, _, _, ⟨_, out⟩ | ⟨first, q', out, _, blocks, shorter', _, fits⟩⟩ := qreadTake_cases m.q len
      · simp only [out, Option.some.injEq] at ran
        subst ran
        exact moved_freed inv (shorter.same (sameBlocks_qwait p)) (List.Perm.refl _)
      · simp only [out, Option.some.injEq] at ran
        subst ran
        have perm : (ids m.q.blocks ++ ids m.gap).Perm
            (ids q'.blocks ++ ids (((some ⟨first, len⟩ : Option Reading).map Reading.first).getD []) ++ [] ++ freed ++ []) := by
          have names := (shorter.trans shorter').ids
          rw [names, List.perm_iff_count]
          intro i
          simp only [Sys.gap, none, Option.map_none, Option.map_some, Option.getD_none, Option.getD_some, ids_nil,
            List.count_append, List.count_nil]
          omega
        have step := moved_take (d := m.delivered) (shorter'.ok (shorter.ok inv.ok)) (fun r here => ?_) perm
        · rwa [List.append_nil] at step
        · cases here
          exact fits

/-- The blocks of a `qread` are freed, but for one that goes back to the queue. -/
theorem qreadDone_moved (inv : m.Inv) (ran : Event.qreadDone.exec m = some m') : Moved m m' [] := by
  simp only [Event.exec] at ran
  split at ran
  · cases ran
  · cases reading : m.reading with
    | none =>
      rw [reading] at ran
      cases ran
    | some r =>
      simp only [reading, Option.some.injEq] at ran
      subst ran
      obtain ⟨stored, freed, left, _, names, cases⟩ := qreadDone_cases m.q (inv.fits r reading)
      have gap : m.gap = r.first := by rw [Sys.gap, reading]; rfl
      have put (q' : Queue) (gone : List Nat) (d : List UInt8) (ok : q'.Ok)
          (perm : (ids m.q.blocks ++ ids r.first).Perm (ids q'.blocks ++ gone)) :
          Moved m { m with q := q', reading := none, freed := m.freed ++ gone, delivered := d } [] := by
        have whole : (ids m.q.blocks ++ ids m.gap).Perm
            (ids q'.blocks ++ ids (((none : Option Reading).map Reading.first).getD []) ++ [] ++ gone ++ []) := by
          rw [gap]
          simpa using perm
        have step := moved_take (d := d) ok (fun r here => absurd here (Option.not_mem_none r)) whole
        rwa [List.append_nil] at step
      rcases cases with ⟨rfl, out⟩ | ⟨b, rfl, ⟨_, out⟩ | ⟨_, out⟩⟩
      · rw [out]
        refine put _ _ _ (inv.ok.restart _) ?_
        rw [(sameBlocks_restart _ _).blocks, names]
        simp
      · rw [out]
        refine put _ _ _ (inv.ok.restart _) ?_
        rw [(sameBlocks_restart _ _).blocks, names]
        simp
      · rw [out]
        refine put _ _ _ (inv.ok.qputback.restart _) ?_
        rw [(sameBlocks_restart _ _).blocks, names, List.perm_iff_count]
        intro i
        simp only [qputback, Option.toList_some, ids_cons, ids_nil, List.count_append, List.count_cons, List.count_nil]
        omega

theorem qproduce_moved (inv : m.Inv) {data : List UInt8} {block : Option Nat} (valid : (Event.qproduce data block).Valid m)
    (ran : (Event.qproduce data block).exec m = some m') : Moved m m' [] := by
  simp only [Event.exec] at ran
  split at ran
  · cases ran
  · obtain ⟨freed, ⟨same, failed⟩ | ⟨id, rfl, more, done⟩⟩ := qproduce_spec inv.ok inv.queued data block
    · cases block with
      | none =>
        injection ran with ran
        subst ran
        exact moved_flags inv same
      | some id =>
        simp only [if_pos failed, Option.some.injEq] at ran
        subst ran
        exact moved_flags inv same
    · have fresh : (newBlock id data).id ∉ m.handed := valid id rfl
      have went : (m.q.qproduce data (some id)).value ≠ -1 := by omega
      simp only [if_neg went, Option.some.injEq] at ran
      subst ran
      have step : Moved m ((m.hand [newBlock id data]).wrote (m.q.qproduce data (some id)) data) [] :=
        moved_wrote_all inv (owned_new fresh) (Or.inr ⟨more, freed⟩)
      rwa [← alloc_eq_hand inv fresh] at step

theorem qiwrite_moved (inv : m.Inv) {data : List UInt8} {block : Option Nat} (valid : (Event.qiwrite data block).Valid m)
    (ran : (Event.qiwrite data block).exec m = some m') : Moved m m' [] := by
  simp only [Event.exec] at ran
  split at ran
  · cases ran
  · obtain ⟨freed, ⟨rfl, _⟩ | ⟨id, rfl, more⟩⟩ := qiwrite_spec inv.ok inv.queued data block
    · injection ran with ran
      subst ran
      exact moved_flags inv ⟨rfl, rfl, rfl, rfl⟩
    · have fresh : (newBlock id data).id ∉ m.handed := valid id rfl
      injection ran with ran
      subst ran
      have step : Moved m ((m.hand [newBlock id data]).wrote (m.q.qiwrite data (some id)) data) [] :=
        moved_wrote_all inv (owned_new fresh) (Or.inr ⟨more, freed⟩)
      rwa [← alloc_eq_hand inv fresh] at step

/-- A section keeps the accounts, and loses no block if it is careful. -/
theorem exec_moved {e : Event} (inv : m.Inv) (valid : e.Valid m) (ran : e.exec m = some m') :
    ∃ lost, Moved m m' lost ∧ (e.Careful m → lost = []) := by
  have free : ¬m.q.locked = true := by
    intro locked
    unfold Event.exec at ran
    rw [if_pos locked] at ran
    nomatch ran
  cases e with
  | qconsume len => exact qconsume_moved inv len ran
  | qbread len block => exact qbread_moved inv valid ran
  | qread len => exact ⟨[], qread_moved inv ran, fun _ => rfl⟩
  | qreadDone => exact ⟨[], qreadDone_moved inv ran, fun _ => rfl⟩
  | qproduce data block => exact ⟨[], qproduce_moved inv valid ran, fun _ => rfl⟩
  | qiwrite data block => exact ⟨[], qiwrite_moved inv valid ran, fun _ => rfl⟩
  | qget =>
    rw [Event.exec, if_neg free] at ran
    injection ran with ran
    subst ran
    exact ⟨[], moved_out inv (qget_spec m.q).1, fun _ => rfl⟩
  | qdiscard len =>
    rw [Event.exec, if_neg free] at ran
    injection ran with ran
    subst ran
    exact ⟨[], moved_freed inv (qdiscard_spec m.q len) (List.Perm.refl _), fun _ => rfl⟩
  | qpass b rest =>
    rw [Event.exec, if_neg free] at ran
    injection ran with ran
    subst ran
    exact ⟨[], moved_wrote_all inv valid (qpass_spec inv.ok inv.queued b rest), fun _ => rfl⟩
  | qpassnolim b rest =>
    rw [Event.exec, if_neg free] at ran
    injection ran with ran
    subst ran
    exact ⟨[], moved_wrote_all inv valid (qpassnolim_spec inv.ok inv.queued b rest), fun _ => rfl⟩
  | qbwrite b rest =>
    rw [Event.exec, if_neg free] at ran
    injection ran with ran
    subst ran
    refine ⟨ids rest, ?_, fun careful => ids_eq_nil.mpr careful⟩
    have own : m.Owned ([b] ++ rest) := valid
    exact moved_wrote inv own (qbwrite_spec inv.ok inv.queued b)
  | qputback b rest =>
    rw [Event.exec, if_neg free] at ran
    injection ran with ran
    subst ran
    refine ⟨ids rest, ?_, fun careful => ids_eq_nil.mpr careful⟩
    have perm : (ids m.q.blocks ++ ids (b :: rest)).Perm (ids (m.q.qputback b).blocks ++ [] ++ ids rest) := by
      rw [List.perm_iff_count]
      intro i
      simp only [qputback, ids_cons, List.count_append, List.count_cons, List.count_nil]
      omega
    have step := moved_hand (a := m.accepted) inv valid inv.ok.qputback perm
    rwa [List.append_nil] at step
  | qaddlist b rest =>
    rw [Event.exec, if_neg free] at ran
    injection ran with ran
    subst ran
    have more := extended_link inv.ok inv.queued (List.cons_ne_nil b rest)
    have perm : (ids m.q.blocks ++ ids (b :: rest)).Perm (ids (m.q.qaddlist b rest).blocks ++ [] ++ []) := by
      rw [List.append_nil, List.append_nil, qaddlist, more.blocks, ids_append]
    have step := moved_hand (a := m.accepted ++ bytes (b :: rest)) inv valid more.ok perm
    rw [List.append_nil] at step
    exact ⟨[], step, fun _ => rfl⟩
  | qflush =>
    rw [Event.exec, if_neg free] at ran
    injection ran with ran
    subst ran
    have all : Shortened m.q m.q.qflush.q (ids m.q.blocks) := flush_shortened inv.ok rfl rfl rfl rfl
    exact ⟨[], moved_freed inv all (List.Perm.refl _), fun _ => rfl⟩
  | qclose =>
    rw [Event.exec, if_neg free] at ran
    injection ran with ran
    subst ran
    have all : Shortened m.q m.q.qclose.q (ids m.q.blocks) := flush_shortened inv.ok rfl rfl rfl rfl
    exact ⟨[], moved_freed inv all (List.Perm.refl _), fun _ => rfl⟩
  | qhangup msg =>
    rw [Event.exec, if_neg free] at ran
    injection ran with ran
    subst ran
    exact ⟨[], moved_flags inv ⟨rfl, rfl, rfl, rfl⟩, fun _ => rfl⟩

end Custody

section CustodyRun

open Queue Lib

variable {m₀ m m' : Sys}

theorem Sys.Fresh.inv (fresh : m.Fresh) : m.Inv := by
  have places : m.places = [] := by
    rw [Sys.places, Sys.gap, fresh.blocks, fresh.reading, fresh.out, fresh.freed]
    rfl
  refine ⟨⟨?_, ?_, fun more => absurd fresh.blocks more⟩, ?_, ?_, ?_⟩
  · rw [fresh.len, fresh.blocks]
    rfl
  · rw [fresh.dlen, fresh.blocks]
    rfl
  · rw [places]
    exact List.nodup_nil
  · rw [places]
    exact fun i none => absurd none List.not_mem_nil
  · rw [fresh.reading]
    exact fun r none => absurd none (Option.not_mem_none r)

theorem run_inv (fresh : m₀.Fresh) (run : Run Event.exec Event.Valid m₀ m) : m.Inv := by
  refine run.invariant Sys.Inv fresh.inv fun inv valid ran => ?_
  obtain ⟨lost, step, _⟩ := exec_moved inv valid ran
  exact step.inv inv

/-- After every sequence of operations `dlen` and `len` are the sums over the blocks
on the queue, and `blast` is the last of them if there is one. -/
theorem queue_accounts (fresh : m₀.Fresh) (run : Run Event.exec Event.Valid m₀ m) :
    m.q.dlen = blocklen m.q.blocks ∧ m.q.len = blockalloclen m.q.blocks ∧
      (m.q.blocks ≠ [] → m.q.blast = (ids m.q.blocks).getLast?) := by
  have inv := run_inv fresh run
  exact ⟨inv.ok.dlen, inv.ok.len, inv.ok.last⟩

/-- `qopen` with `Qmsg` and `Qcoalesce` as given. -/
def Queue.qopen (limit : Int) (msg coalesce : Bool) : Queue where
  blocks := []
  blast := none
  len := 0
  dlen := 0
  limit := limit
  flow := false
  starve := true
  closed := false
  msg := msg
  coalesce := coalesce
  noblock := false
  eof := 0
  err := ""
  locked := false

def Sys.opened (q : Queue) : Sys := ⟨q, none, [], [], [], [], []⟩

theorem fresh_opened (limit : Int) (msg coalesce : Bool) : (Sys.opened (qopen limit msg coalesce)).Fresh :=
  ⟨rfl, rfl, rfl, rfl, rfl, rfl, rfl, rfl, rfl, rfl⟩

/-- A coalescing queue with an empty block and one that `qread` puts back. -/
theorem queue_accounts_putback : ∃ m, Run Event.exec Event.Valid (Sys.opened (qopen 8 false true)) m ∧ ids m.q.blocks = [2, 3] ∧
    m.q.dlen = blocklen m.q.blocks ∧ m.q.len = blockalloclen m.q.blocks ∧
      (m.q.blocks ≠ [] → m.q.blast = (ids m.q.blocks).getLast?) := by
  have run₀ : Run Event.exec Event.Valid (Sys.opened (qopen 8 false true)) _ := Run.start
  have run₁ := run₀.step (a := Event.qbwrite ((newBlock 1 [0, 0]).cut 0) []) (by decide) rfl
  have run₂ := run₁.step (a := Event.qbwrite (newBlock 2 [97, 98, 99]) []) (by decide) rfl
  have run₃ := run₂.step (a := Event.qread 2) (by decide) rfl
  have run₄ := run₃.step (a := Event.qproduce [100] (some 3)) (by decide) rfl
  have run₅ := run₄.step (a := Event.qreadDone) (by decide) rfl
  exact ⟨_, run₅, by decide, queue_accounts (fresh_opened _ _ _) run₅⟩

/-- A section that loses no block leaves the queue unlocked. -/
theorem exec_locked {e : Event} (inv : m.Inv) (careful : e.Careful m) (ran : e.exec m = some m') :
    m'.q.locked = false := by
  have free := exec_free ran
  rw [(exec_queue ran).1]
  cases e with
  | qget => exact (fixed_qget m.q).locked.trans free
  | qdiscard len => exact (fixed_qdiscard m.q len).locked.trans free
  | qconsume len => exact (fixed_qconsume m.q len).locked.trans free
  | qpass b rest => exact (fixed_qpass m.q b rest).locked.trans free
  | qpassnolim b rest => exact (fixed_qpassnolim m.q b rest).locked.trans free
  | qproduce data block => exact (fixed_qproduce m.q data block).locked.trans free
  | qbread len block =>
    rcases fixed_qbread m.q len block with fixed | ⟨⟨b, rest, front, long⟩, stream, none⟩
    · exact fixed.locked.trans free
    · have splits : m.q.splits len = true := by simp [splits, front, long, stream]
      exact absurd none (careful splits)
  | qread len => exact (fixed_qreadTake m.q len).locked.trans free
  | qreadDone =>
    cases reading : m.reading with
    | none =>
      simp only [Event.queue, reading]
      exact free
    | some r =>
      simp only [Event.queue, reading]
      exact (fixed_qreadDone m.q (inv.fits r reading)).locked.trans free
  | qbwrite b rest => exact (fixed_qbwrite m.q b).locked.trans free
  | qiwrite data block => exact (fixed_qiwrite m.q data block).locked.trans free
  | qaddlist b rest => exact (fixed_link m.q (b :: rest)).locked.trans free
  | qputback | qflush | qclose | qhangup => exact free

/-- Every block that was handed to the queue is once on the queue, with a `qread`,
with a caller or freed, and nobody has left the queue locked. -/
structure Sys.Conserved (m : Sys) : Prop where
  once : ∀ i ∈ m.handed, m.places.count i = 1
  unlocked : m.q.locked = false

/-- Blocks are conserved as long as every section is careful. -/
theorem blocks_conserved (fresh : m₀.Fresh) (run : Run Event.exec (fun e m => e.Valid m ∧ e.Careful m) m₀ m) :
    m.Conserved := by
  obtain ⟨inv, all, free⟩ : m.Inv ∧ (∀ i ∈ m.handed, i ∈ m.places) ∧ m.q.locked = false := by
    refine run.invariant (fun m => m.Inv ∧ (∀ i ∈ m.handed, i ∈ m.places) ∧ m.q.locked = false)
      ⟨fresh.inv, ?_, fresh.locked⟩ fun ⟨inv, all, _⟩ ⟨valid, careful⟩ ran => ?_
    · rw [fresh.handed]
      exact fun i none => absurd none List.not_mem_nil
    · obtain ⟨lost, step, none⟩ := exec_moved inv valid ran
      rw [none careful] at step
      exact ⟨step.inv inv, step.kept all, exec_locked inv careful ran⟩
  exact ⟨fun i known => List.count_eq_one_of_mem inv.nodup (all i known), free⟩

/-- `qconsume` frees an empty block, and `qbread` splits one. -/
theorem blocks_conserved_split : ∃ m, Run Event.exec (fun e m => e.Valid m ∧ e.Careful m) (Sys.opened (qopen 8 false false)) m ∧
    m.handed = [1, 2, 3] ∧ m.Conserved := by
  have run₀ : Run Event.exec (fun e m => e.Valid m ∧ e.Careful m) (Sys.opened (qopen 8 false false)) _ := Run.start
  have run₁ := run₀.step (a := Event.qbwrite ((newBlock 1 [0, 0]).cut 0) []) ⟨by decide, rfl⟩ rfl
  have run₂ := run₁.step (a := Event.qbwrite (newBlock 2 [97, 98, 99]) []) ⟨by decide, rfl⟩ rfl
  have run₃ := run₂.step (a := Event.qconsume 1)
    ⟨by decide, Or.inr ⟨newBlock 2 [97, 98, 99], by decide, by decide⟩⟩ rfl
  have run₄ := run₃.step (a := Event.qbread 1 (some 3)) ⟨by decide, fun _ => Option.some_ne_none 3⟩ rfl
  exact ⟨_, run₄, by decide, blocks_conserved (fresh_opened _ _ _) run₄⟩

/-- `qconsume` on a queue with an empty block only unlinks it and returns -1, and
nobody frees it; a split without memory keeps the lock and loses the block. -/
theorem empty_block_lost : (∃ m, Run Event.exec Event.Valid (Sys.opened (qopen 8 false false)) m ∧
      m.q.locked = false ∧ m.handed = [1] ∧ m.places = []) ∧
    ∃ m m', Run Event.exec Event.Valid (Sys.opened (qopen 8 false false)) m ∧ (Event.qbread 1 none).exec m = some m' ∧
      (m.q.len, m.q.dlen, bytes m.q.blocks) = (2, 2, [97, 98]) ∧
      (m'.q.len, m'.q.dlen, bytes m'.q.blocks) = (0, 0, []) ∧ m'.q.locked = true := by
  have run₀ : Run Event.exec Event.Valid (Sys.opened (qopen 8 false false)) _ := Run.start
  constructor
  · have run₁ := run₀.step (a := Event.qbwrite ((newBlock 1 [0, 0]).cut 0) []) (by decide) rfl
    have run₂ := run₁.step (a := Event.qconsume 1) (by decide) rfl
    exact ⟨_, run₂, by decide, by decide, by decide⟩
  · have run₁ := run₀.step (a := Event.qproduce [97, 98] (some 1)) (by decide) rfl
    exact ⟨_, _, run₁, rfl, by decide, by decide, by decide⟩

end CustodyRun

end Inferno.Qio
