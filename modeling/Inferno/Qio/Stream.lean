import Inferno.Qio.Custody

namespace Inferno.Qio

open Queue Lib

variable {m₀ m m' : Sys}

def maxatomic : Nat := 32 * 1024

/-- The bytes of the blocks that `qwrite` hands to `qbwrite`, one after the other. -/
def qwrite (msg : Bool) (data : List UInt8) : List (List UInt8) :=
  if _more : maxatomic < data.length ∧ msg = false then data.take maxatomic :: qwrite msg (data.drop maxatomic)
  else [data.take maxatomic]
termination_by data.length
decreasing_by
  have pos : 0 < maxatomic := by decide
  rw [List.length_drop]
  omega

theorem qwrite_flatten (data : List UInt8) : (qwrite false data).flatten = data := by
  fun_induction qwrite false data with
  | case1 data more ih => rw [List.flatten_cons, ih, List.take_append_drop]
  | case2 data last =>
    have short : data.length ≤ maxatomic := by
      simp only [and_true, Nat.not_lt] at last
      exact last
    rw [List.flatten_singleton, List.take_of_length_le short]

/-- The sections of writers and readers of a stream. `qconsume` has the spin lock
only, and is not run while a `qread` copies its blocks. -/
def Event.Streams (e : Event) (m : Sys) : Prop :=
  e.Valid m ∧ match e with
    | qproduce _ _ | qbwrite _ _ | qbread _ _ | qread _ | qreadDone => True
    | qconsume _ => m.reading = none
    | _ => False

/-- What was written is what was read, what a `qread` copies and what is on the
queue. A queue that is left locked is not read any more. -/
structure Sys.InOrder (m : Sys) : Prop where
  stream : m.q.msg = false
  whole : m.q.locked = false → m.accepted = m.delivered ++ bytes m.gap ++ bytes m.q.blocks
  before : m.delivered <+: m.accepted

theorem inOrder_of (stream : m.q.msg = false) (whole : m.accepted = m.delivered ++ bytes m.gap ++ bytes m.q.blocks) :
    m.InOrder :=
  ⟨stream, fun _ => whole, by rw [whole, List.append_assoc]; exact List.prefix_append _ _⟩

theorem bytes_gap (idle : m.reading = none) : bytes m.gap = [] := by
  rw [Sys.gap, idle]
  rfl

/-- With no `qread` between its sections. -/
theorem inOrder_idle (idle : m.reading = none) (stream : m.q.msg = false)
    (whole : m.accepted = m.delivered ++ bytes m.q.blocks) : m.InOrder :=
  inOrder_of stream (by rw [bytes_gap idle, List.append_nil]; exact whole)

theorem qbwrite_inOrder (inv : m.Inv) (order : m.InOrder) {b : Block} {rest : List Block}
    (ran : (Event.qbwrite b rest).exec m = some m') : m'.InOrder := by
  simp only [Event.exec] at ran
  split at ran
  · cases ran
  · rename_i free
    have whole := order.whole (Bool.eq_false_iff.mpr free)
    injection ran with ran
    subst ran
    refine inOrder_of ((fixed_qbwrite m.q b).msg.trans order.stream) ?_
    rcases qbwrite_spec inv.ok inv.queued b with ⟨same, freed⟩ | ⟨more, freed⟩
    · simp only [Sys.wrote, Sys.hand, Sys.gap, same, freed, List.cons_ne_nil, if_false]
      exact whole
    · simp only [Sys.wrote, Sys.hand, Sys.gap, freed, if_true, more.blocks, bytes_append, bytes_cons, bytes_nil, List.append_nil]
      rw [whole, Sys.gap, List.append_assoc]

theorem qproduce_inOrder (inv : m.Inv) (order : m.InOrder) {data : List UInt8} {block : Option Nat}
    (ran : (Event.qproduce data block).exec m = some m') : m'.InOrder := by
  simp only [Event.exec] at ran
  split at ran
  · cases ran
  · rename_i free
    have whole := order.whole (Bool.eq_false_iff.mpr free)
    have stream := (fixed_qproduce m.q data block).msg.trans order.stream
    obtain ⟨freed, ⟨same, failed⟩ | ⟨id, rfl, more, done⟩⟩ := qproduce_spec inv.ok inv.queued data block
    · have kept : m' = { m with q := (m.q.qproduce data block).q } := by
        cases block with
        | none =>
          injection ran with ran
          exact ran.symm
        | some id =>
          simp only [if_pos failed, Option.some.injEq] at ran
          exact ran.symm
      subst kept
      refine inOrder_of stream ?_
      rw [same.blocks]
      exact whole
    · have went : (m.q.qproduce data (some id)).value ≠ -1 := by omega
      simp only [if_neg went, Option.some.injEq] at ran
      subst ran
      refine inOrder_of stream ?_
      simp only [Sys.wrote, Sys.alloc, Sys.gap, freed, if_true, more.blocks, bytes_append, bytes_cons, bytes_nil,
        List.append_nil, newBlock]
      rw [whole, Sys.gap, List.append_assoc]

theorem qconsume_inOrder (order : m.InOrder) (idle : m.reading = none) {len : Nat}
    (ran : (Event.qconsume len).exec m = some m') : m'.InOrder := by
  simp only [Event.exec] at ran
  split at ran
  · cases ran
  · rename_i free
    have whole := order.whole (Bool.eq_false_iff.mpr free)
    have stream := (fixed_qconsume m.q len).msg.trans order.stream
    rw [bytes_gap idle, List.append_nil] at whole
    injection ran with ran
    subst ran
    refine inOrder_idle idle stream ?_
    dsimp only
    rw [List.append_assoc]
    obtain ⟨p, gone, _, flags, same, _, ⟨none, out⟩ | ⟨b, rest, p', more, freed, front, _, _, _, left, out⟩⟩ :=
      qconsume_cases m.q len
    · rw [out, whole, ← same]
      rfl
    · rw [out, whole, ← same, front]
      dsimp only
      rw [(sameBlocks_restart _ _).blocks]
      rcases left with ⟨all, left⟩ | ⟨_, left⟩
      · have short : b.blen ≤ len := by
          rcases all with msg | short
          · rw [flags.msg, order.stream] at msg
            cases msg
          · exact short
        rw [left, Option.getD_some, List.take_of_length_le short, bytes_cons]
      · rw [left, bytes_cons, bytes_cons, Option.getD_some, Block.skip, ← List.append_assoc (List.take _ _),
          List.take_append_drop]

theorem qbread_inOrder (order : m.InOrder) {len : Nat} {block : Option Nat}
    (ran : (Event.qbread len block).exec m = some m') : m'.InOrder := by
  simp only [Event.exec] at ran
  split at ran
  · cases ran
  · rename_i free
    split at ran
    · cases ran
    · rename_i idle
      have none : m.reading = none := by simpa using idle
      have whole := order.whole (Bool.eq_false_iff.mpr free)
      rw [bytes_gap none, List.append_nil] at whole
      rcases qbread_cases m.q len block with ⟨empty, out⟩ | ⟨b, rest, front, ⟨fits, out⟩ | ⟨long, stream, split | lost⟩⟩
      · have splits : m.q.splits len = false := by rw [splits, empty]
        simp only [out, splits, Bool.false_eq_true, if_false, Option.some.injEq] at ran
        subst ran
        refine inOrder_idle none ((fixed_qwait m.q).msg.trans order.stream) ?_
        rw [(sameBlocks_qwait m.q).blocks]
        exact whole
      · have short : b.blen ≤ len := by
          rcases fits with short | msg
          · exact short
          · rw [order.stream] at msg
            cases msg
        have splits : m.q.splits len = false := by
          simp only [splits, front, decide_eq_false (Nat.not_lt.mpr short), Bool.false_and]
        simp only [out, splits, Bool.false_eq_true, if_false, Option.some.injEq, cut_of_le short] at ran
        subst ran
        refine inOrder_idle none (((sameFlags_unlink m.q b rest).fixed.restart _).msg.trans order.stream) ?_
        dsimp only
        rw [whole, (sameBlocks_restart _ _).blocks, List.append_assoc, front]
        rfl
      · obtain ⟨id, rfl, out⟩ := split
        have splits : m.q.splits len = true := by simp [splits, front, long, stream]
        simp only [out, splits, if_true, Option.elim, Option.some.injEq] at ran
        subst ran
        have fixed : Fixed m.q ((m.q.unlink b rest).qputback (newBlock id (b.data.drop len))) := ⟨rfl, rfl, rfl, rfl⟩
        refine inOrder_idle none ((fixed.restart _).msg.trans order.stream) ?_
        dsimp only [Sys.alloc]
        rw [whole, (sameBlocks_restart _ _).blocks, List.append_assoc, front]
        simp only [qputback, unlink, bytes_cons, newBlock, Block.cut, ← List.append_assoc (List.take _ _),
          List.take_append_drop]
      · obtain ⟨rfl, out⟩ := lost
        have splits : m.q.splits len = true := by simp [splits, front, long, stream]
        simp only [out, splits, if_true, Option.elim, Option.some.injEq] at ran
        subst ran
        exact ⟨order.stream, fun free => (by cases (free : true = false)), order.before⟩

theorem qread_inOrder (order : m.InOrder) {len : Nat} (ran : (Event.qread len).exec m = some m') : m'.InOrder := by
  simp only [Event.exec] at ran
  split at ran
  · cases ran
  · rename_i free
    split at ran
    · cases ran
    · rename_i idle
      have none : m.reading = none := by simpa using idle
      have whole := order.whole (Bool.eq_false_iff.mpr free)
      have stream := (fixed_qreadTake m.q len).msg.trans order.stream
      rw [bytes_gap none, List.append_nil] at whole
      obtain ⟨p, freed, _, _, same, ⟨_, out⟩ | ⟨first, q', out, _, blocks, _, _, _⟩⟩ := qreadTake_cases m.q len
      · rw [out] at stream
        simp only [out, Option.some.injEq] at ran
        subst ran
        refine inOrder_idle none stream ?_
        rw [(sameBlocks_qwait p).blocks, same]
        exact whole
      · rw [out] at stream
        simp only [out, Option.some.injEq] at ran
        subst ran
        refine inOrder_of stream ?_
        rw [whole, ← same, blocks, bytes_append, List.append_assoc]
        rfl

theorem qreadDone_inOrder (inv : m.Inv) (order : m.InOrder) (ran : Event.qreadDone.exec m = some m') : m'.InOrder := by
  simp only [Event.exec] at ran
  split at ran
  · cases ran
  · rename_i free
    have whole := order.whole (Bool.eq_false_iff.mpr free)
    cases reading : m.reading with
    | none =>
      rw [reading] at ran
      cases ran
    | some r =>
      simp only [reading, Option.some.injEq] at ran
      subst ran
      have stream := (fixed_qreadDone m.q (inv.fits r reading)).msg.trans order.stream
      refine inOrder_idle rfl stream ?_
      have gap : m.gap = r.first := by rw [Sys.gap, reading]; rfl
      dsimp only
      rw [whole, gap]
      obtain ⟨stored, freed, left, same, _, ⟨rfl, out⟩ | ⟨b, rfl, ⟨msg, _⟩ | ⟨_, out⟩⟩⟩ :=
        qreadDone_cases m.q (inv.fits r reading)
      · rw [out, same]
        dsimp only
        rw [(sameBlocks_restart _ _).blocks, Option.toList_none, bytes_nil, List.append_nil]
      · rw [order.stream] at msg
        cases msg
      · rw [out, same]
        dsimp only
        rw [(sameBlocks_restart _ _).blocks]
        simp [qputback]

theorem exec_inOrder {e : Event} (inv : m.Inv) (order : m.InOrder) (streams : e.Streams m) (ran : e.exec m = some m') :
    m'.InOrder := by
  cases e with
  | qproduce data block => exact qproduce_inOrder inv order ran
  | qbwrite b rest => exact qbwrite_inOrder inv order ran
  | qbread len block => exact qbread_inOrder order ran
  | qread len => exact qread_inOrder order ran
  | qreadDone => exact qreadDone_inOrder inv order ran
  | qconsume len => exact qconsume_inOrder order streams.2 ran
  | qget | qdiscard | qpass | qpassnolim | qiwrite | qputback | qaddlist | qflush | qclose | qhangup => nomatch streams.2

/-- On a stream with any number of writers and readers, what was read is a prefix
of what was written, block by block and for `qwrite` as a whole, and `qread`
returns the number of bytes it has stored. -/
theorem stream_in_order (fresh : m₀.Fresh) (stream : m₀.q.msg = false) (run : Run Event.exec Event.Streams m₀ m) :
    m.delivered <+: m.accepted ∧
      (∀ r ∈ m.reading, (m.q.qreadDone r.first r.len).value.1 = (m.q.qreadDone r.first r.len).value.2.length) ∧
      ∀ data, (qwrite m.q.msg data).flatten = data := by
  obtain ⟨inv, order⟩ : m.Inv ∧ m.InOrder := by
    refine run.invariant (fun m => m.Inv ∧ m.InOrder) ⟨fresh.inv, inOrder_idle fresh.reading stream ?_⟩
      fun ⟨inv, order⟩ streams ran => ?_
    · rw [fresh.accepted, fresh.delivered, fresh.blocks]
      rfl
    · obtain ⟨lost, step, _⟩ := exec_moved inv streams.1 ran
      exact ⟨step.inv inv, exec_inOrder inv order streams ran⟩
  refine ⟨order.before, fun r reading => ?_, fun data => by rw [order.stream]; exact qwrite_flatten data⟩
  obtain ⟨stored, freed, left, _, _, ⟨_, out⟩ | ⟨b, _, ⟨_, out⟩ | ⟨_, out⟩⟩⟩ :=
    qreadDone_cases m.q (inv.fits r reading)
  · rw [out]
  · rw [out]
  · rw [out]

/-- A write comes between the two sections of a `qread`. -/
theorem stream_in_order_gap : ∃ m, Run Event.exec Event.Streams (Sys.opened (qopen 8 false true)) m ∧
    m.delivered = [97] ∧ m.accepted = [97, 98, 99] ∧ m.delivered <+: m.accepted := by
  have run₀ : Run Event.exec Event.Streams (Sys.opened (qopen 8 false true)) _ := Run.start
  have run₁ := run₀.step (a := Event.qbwrite (newBlock 1 [97, 98]) []) ⟨by decide, trivial⟩ rfl
  have run₂ := run₁.step (a := Event.qread 1) ⟨by decide, trivial⟩ rfl
  have run₃ := run₂.step (a := Event.qproduce [99] (some 2)) ⟨by decide, trivial⟩ rfl
  have run₄ := run₃.step (a := Event.qreadDone) ⟨by decide, trivial⟩ rfl
  exact ⟨_, run₄, by decide, by decide, (stream_in_order (fresh_opened _ _ _) rfl run₄).1⟩

/-- `qconsume` takes what is behind the block that a `qread` has not yet put back. -/
theorem qconsume_overtakes : ∃ m, Run Event.exec Event.Valid (Sys.opened (qopen 8 false false)) m ∧ m.q.msg = false ∧
    m.accepted = [97, 98, 99] ∧ m.delivered = [99, 97] ∧ ¬m.delivered <+: m.accepted := by
  have run₀ : Run Event.exec Event.Valid (Sys.opened (qopen 8 false false)) _ := Run.start
  have run₁ := run₀.step (a := Event.qbwrite (newBlock 1 [97, 98]) []) (by decide) rfl
  have run₂ := run₁.step (a := Event.qbwrite (newBlock 2 [99]) []) (by decide) rfl
  have run₃ := run₂.step (a := Event.qread 1) (by decide) rfl
  have run₄ := run₃.step (a := Event.qconsume 1) (by decide) rfl
  have run₅ := run₄.step (a := Event.qreadDone) (by decide) rfl
  exact ⟨_, run₅, by decide, by decide, by decide, by decide⟩

end Inferno.Qio
