import Inferno.Qio.Custody

namespace Inferno.Qio

section Wakeup

open Queue Lib

/-- Where the writing process is in `qbwrite`: outside, at the head of the loop
behind the section, about to set `Qflow`, about to `Sleep`, and asleep on `wr`. -/
inductive Writer
  | idle
  | loop
  | full
  | flow
  | asleep
deriving DecidableEq

/-- Where the process with `rlock` is in `qwait`: outside, about to `Sleep`, and asleep
on `rr`. One that has been woken goes round the loop of `qwait`, as a new call does. -/
inductive Reader
  | idle
  | starved
  | asleep
deriving DecidableEq

/-- `wr` and `rr` are the calls of `Wakeup` still to come. -/
structure Flow where
  sys : Sys
  writer : Writer
  reader : Reader
  wr : Nat
  rr : Nat

inductive Action
  | op (e : Event)
  | test
  | setFlow
  | sleepWr
  | wakeupWr
  | sleepRr
  | wakeupRr

def Queue.notempty (q : Queue) : Bool := q.closed || q.blocks ≠ []

def Queue.qnotfull (q : Queue) : Bool := q.len < q.limit || q.closed

/-- The calls of `Wakeup(&q->wr)` and `Wakeup(&q->rr)` behind a section. -/
def Event.wakes (e : Event) (m : Sys) : Bool × Bool :=
  match e with
  | qget => (m.q.qget.wr, m.q.qget.rr)
  | qdiscard len => ((m.q.qdiscard len).wr, (m.q.qdiscard len).rr)
  | qconsume len => ((m.q.qconsume len).wr, (m.q.qconsume len).rr)
  | qpass b rest => ((m.q.qpass b rest).wr, (m.q.qpass b rest).rr)
  | qpassnolim b rest => ((m.q.qpassnolim b rest).wr, (m.q.qpassnolim b rest).rr)
  | qproduce data block => ((m.q.qproduce data block).wr, (m.q.qproduce data block).rr)
  | qbread len block => ((m.q.qbread len block).wr, (m.q.qbread len block).rr)
  | qread len => ((m.q.qreadTake len).wr, (m.q.qreadTake len).rr)
  | qreadDone =>
    match m.reading with
    | none => (false, false)
    | some r => ((m.q.qreadDone r.first r.len).wr, (m.q.qreadDone r.first r.len).rr)
  | qbwrite b _ => ((m.q.qbwrite b).wr, (m.q.qbwrite b).rr)
  | qiwrite data block => ((m.q.qiwrite data block).wr, (m.q.qiwrite data block).rr)
  | qputback _ _ | qaddlist _ _ => (false, false)
  | qflush => (m.q.qflush.wr, m.q.qflush.rr)
  | qclose => (m.q.qclose.wr, m.q.qclose.rr)
  | qhangup msg => ((m.q.qhangup msg).wr, (m.q.qhangup msg).rr)

/-- `qbwrite` goes on to its loop if the block was queued. -/
def Event.writer (e : Event) (m : Sys) (w : Writer) : Writer :=
  match e with
  | qbwrite b _ => if (m.q.qbwrite b).freed = [] then .loop else .idle
  | _ => w

/-- A reading process that has found nothing goes to sleep. -/
def Event.reader (e : Event) (m : Sys) (r : Reader) : Reader :=
  match e with
  | qread len =>
    match (m.q.qreadTake len).value with
    | .wait .starved => .starved
    | _ => .idle
  | qbread len block =>
    match (m.q.qbread len block).value with
    | .wait .starved => .starved
    | _ => .idle
  | _ => r

/-- The writer is in one `qbwrite` at a time, and one reading process has `rlock`. -/
def Event.enabled (e : Event) (s : Flow) : Bool :=
  match e with
  | qbwrite _ _ => s.writer = .idle
  | qread _ | qbread _ _ => s.reader = .idle
  | qget | qdiscard _ | qconsume _ | qreadDone | qflush | qclose | qhangup _ => true
  | _ => false

/-- The writer begins a `qbwrite` when it is in no other one. -/
theorem writer_idle {b : Block} {rest : List Block} {s : Flow} (enabled : (Event.qbwrite b rest).enabled s = true) :
    s.writer = .idle :=
  of_decide_eq_true enabled

theorem qread_idle {len : Nat} {s : Flow} (enabled : (Event.qread len).enabled s = true) : s.reader = .idle :=
  of_decide_eq_true enabled

theorem qbread_idle {len : Nat} {block : Option Nat} {s : Flow} (enabled : (Event.qbread len block).enabled s = true) :
    s.reader = .idle :=
  of_decide_eq_true enabled

def Action.exec (a : Action) (s : Flow) : Option Flow :=
  match a with
  | op e =>
    if e.enabled s then
      (e.exec s.sys).map fun m => {
        sys := m
        writer := e.writer s.sys s.writer
        reader := e.reader s.sys s.reader
        wr := s.wr + (e.wakes s.sys).1.toNat
        rr := s.rr + (e.wakes s.sys).2.toNat }
    else none
  | test =>
    if s.writer = .loop then
      some { s with writer := if s.sys.q.noblock || s.sys.q.qnotfull then .idle else .full }
    else none
  | setFlow =>
    if s.writer = .full && !s.sys.q.locked then
      some { s with
        sys := { s.sys with q := { s.sys.q with flow := true } }
        writer := .flow }
    else none
  | sleepWr => if s.writer = .flow then some { s with writer := if s.sys.q.qnotfull then .loop else .asleep } else none
  | wakeupWr =>
    if 0 < s.wr then some { s with
      wr := s.wr - 1
      writer := if s.writer = .asleep then .loop else s.writer }
    else none
  | sleepRr =>
    if s.reader = .starved then some { s with reader := if s.sys.q.notempty then .idle else .asleep } else none
  | wakeupRr =>
    if 0 < s.rr then some { s with
      rr := s.rr - 1
      reader := if s.reader = .asleep then .idle else s.reader }
    else none

/-- Callers hand over what is theirs, and memory that is allocated is new. -/
def Action.Valid (a : Action) (s : Flow) : Prop :=
  match a with
  | op e => e.Valid s.sys
  | _ => True

/-- No sleeper is forgotten. A `qread` between its sections has its `Wakeup` still to come. -/
structure Flow.NoLost (s : Flow) : Prop where
  writer : s.writer = .asleep → s.sys.q.blocks = [] ∨ s.sys.q.closed = true → 0 < s.wr ∨ s.sys.reading.isSome
  reader : s.reader = .asleep → s.sys.q.blocks ≠ [] → 0 < s.rr

/-- The section takes the last block off a queue that has one. -/
def Event.Empties (e : Event) (q : Queue) : Prop :=
  match e with
  | qget => q.blocks.tail = []
  | qdiscard len => blocklen q.blocks.dropLast < len ∧ blocklen q.blocks ≤ len
  | qconsume len => (∀ b ∈ q.blocks.dropLast, b.blen = 0) ∧ (q.msg = true ∨ blocklen q.blocks ≤ len)
  | qflush => True
  | _ => False

/-- While the writer sleeps, no section drops empty blocks and then finds nothing, nor is
a block lost; while a reader is about to sleep and its `Qstarve` has been
answered, no section empties the queue again; and while the writer is about to
sleep and its `Qflow` has been answered, no `qread` puts a block back that fills the queue. -/
def Action.Careful (a : Action) (s : Flow) : Prop :=
  match a with
  | op e =>
    (s.writer = .asleep →
      match e with
      | .qconsume _ => s.sys.q.blocks = [] ∨ ∃ b ∈ s.sys.q.blocks, 0 < b.blen
      | .qread _ => s.sys.q.coalesce = true → s.sys.q.blocks = [] ∨ ∃ b ∈ s.sys.q.blocks, 0 < b.blen
      | .qbread len block => s.sys.q.splits len → block ≠ none
      | _ => True) ∧
    (s.reader = .starved → s.sys.q.starve = false → s.sys.q.closed = false → ¬e.Empties s.sys.q) ∧
    (s.writer = .flow → s.sys.q.flow = false → s.sys.q.closed = false → e = .qreadDone →
      ∀ r ∈ s.sys.reading, s.sys.q.msg = true ∨ blocklen r.first ≤ r.len ∨
        s.sys.q.len + blockalloclen r.first < s.sys.q.limit)
  | _ => True

/-- A queue just opened, which nobody uses. -/
structure Flow.Fresh (s : Flow) : Prop where
  sys : s.sys.Fresh
  limit : 2 ≤ s.sys.q.limit
  writer : s.writer = .idle
  reader : s.reader = .idle

end Wakeup

section WakeupSteps

open Queue Lib

variable {q q' : Queue} {wr busy busy' : Bool} {bound : Int}

namespace Queue

/-- `Qflow` still stands for a writer asleep, and there is a section to come that sees it. -/
def Held (q : Queue) (busy : Bool) : Prop := q.flow = true ∧ q.closed = false ∧ (busy = true ∨ q.half ≤ q.len)

/-- A writer about to sleep does not sleep or is seen. -/
def About (q : Queue) : Prop := q.flow = true ∨ q.len < q.limit ∨ q.closed = true

/-- What the writer waits for has not changed. -/
structure SameFlow (q q' : Queue) : Prop where
  limit : q'.limit = q.limit
  flow : q'.flow = q.flow
  closed : q'.closed = q.closed
  less : q'.len ≤ q.len

theorem SameFlow.about (same : SameFlow q q') (about : q.About) : q'.About := by
  obtain ⟨limit, flow, closed, less⟩ := same
  rw [About, flow, limit, closed]
  rcases about with set | below | done
  · exact Or.inl set
  · exact Or.inr (Or.inl (Int.lt_of_le_of_lt less below))
  · exact Or.inr (Or.inr done)

/-- A section that restarts the writer below `bound`. -/
structure Drains (q q' : Queue) (wr : Bool) (bound : Int) : Prop where
  limit : q'.limit = q.limit
  closed : q'.closed = q.closed
  flow : wr = true ∧ q'.len < bound ∨ wr = false ∧ q'.flow = q.flow ∧ (q.flow = true → bound ≤ q'.len)

theorem drains_restart (flags : SameFlags q q') (bound : Int) : Drains q (q'.restart bound).1 (q'.restart bound).2 bound := by
  rw [restart]
  split
  · rename_i low
    exact ⟨flags.limit, flags.closed, Or.inl ⟨rfl, low.2⟩⟩
  · rename_i high
    refine ⟨flags.limit, flags.closed, Or.inr ⟨rfl, flags.flow, fun set => ?_⟩⟩
    rw [← flags.flow] at set
    exact Int.not_lt.mp fun low => high ⟨set, low⟩

theorem half_eq (same : q'.limit = q.limit) : q'.half = q.half := by rw [half, half, same]

theorem Drains.held (drains : Drains q q' wr bound) (least : q.half ≤ bound) (held : q.Held busy) :
    wr = true ∨ q'.Held busy' := by
  rcases drains.flow with ⟨woken, _⟩ | ⟨_, flow, high⟩
  · exact Or.inl woken
  · refine Or.inr ⟨flow.trans held.1, drains.closed.trans held.2.1, Or.inr ?_⟩
    rw [half_eq drains.limit]
    exact Int.le_trans least (high held.1)

theorem Drains.about (drains : Drains q q' wr bound) (most : bound ≤ q.limit)
    (small : q.flow = true ∨ q'.len < q.limit ∨ q.closed = true) : q'.About := by
  rw [About, drains.limit, drains.closed]
  rcases drains.flow with ⟨_, low⟩ | ⟨_, flow, _⟩
  · exact Or.inr (Or.inl (Int.lt_of_lt_of_le low most))
  · rw [flow]
    exact small

theorem Drains.about_of_less (drains : Drains q q' wr bound) (most : bound ≤ q.limit) (less : q'.len ≤ q.len)
    (about : q.About) : q'.About := by
  refine drains.about most ?_
  rcases about with set | below | done
  · exact Or.inl set
  · exact Or.inr (Or.inl (Int.lt_of_le_of_lt less below))
  · exact Or.inr (Or.inr done)

theorem half_le_limit (limit : 2 ≤ q.limit) : 0 < q.half ∧ q.half ≤ q.limit := by
  rw [half, Int.tdiv_eq_ediv_of_nonneg (by omega)]
  omega

theorem Ok.len_nil (ok : q.Ok) (none : q.blocks = []) : q.len = 0 := by
  rw [ok.len, none]
  rfl

/-- A queue without blocks is not over its mark. -/
theorem Held.copying (held : q.Held busy) (ok : q.Ok) (limit : 2 ≤ q.limit) (none : q.blocks = []) : busy = true := by
  rcases held.2.2 with busy | high
  · exact busy
  · have low := (half_le_limit limit).1
    have zero := ok.len_nil none
    omega

theorem bytes_eq_nil {bs : List Block} : bytes bs = [] ↔ ∀ b ∈ bs, b.blen = 0 := by
  simp only [bytes, List.flatMap_eq_nil_iff, Block.blen, List.length_eq_zero_iff]

theorem empty_of_bytes {bs : List Block} (none : bytes bs = []) (some : bs = [] ∨ ∃ b ∈ bs, 0 < b.blen) : bs = [] := by
  rcases some with nil | ⟨b, here, pos⟩
  · exact nil
  · have zero := bytes_eq_nil.mp none b here
    omega

theorem sameFlags_flow (flags : SameFlags q q') (less : q'.len ≤ q.len) : SameFlow q q' :=
  ⟨flags.limit, flags.flow, flags.closed, less⟩

theorem sameFlow_qwait (q : Queue) : SameFlow q q.qwait.2 := by
  rw [qwait]
  split
  · exact ⟨rfl, rfl, rfl, Int.le_refl _⟩
  · split
    · dsimp only
      split
      · exact ⟨rfl, rfl, rfl, Int.le_refl _⟩
      · split <;> exact ⟨rfl, rfl, rfl, Int.le_refl _⟩
    · exact ⟨rfl, rfl, rfl, Int.le_refl _⟩

/-- A `qread` that does not coalesce waits only for the first block. -/
theorem qreadTake_plain (plain : q.coalesce = false) (more : q.blocks ≠ []) (len : Nat) :
    ∃ first, (q.qreadTake len).value = .got first := by
  cases front : q.blocks with
  | nil => exact absurd front more
  | cons b rest =>
    refine ⟨[b], ?_⟩
    have keep : (q.unlink b rest).coalesce = false := plain
    simp only [qreadTake, plain, Bool.false_eq_true, if_false, qwait_ready more, front, keep]

theorem qget_held (held : q.Held busy) : q.qget.wr = true ∨ q.qget.q.Held busy := by
  rw [qget]
  split
  · exact Or.inr held
  · exact (drains_restart (sameFlags_unlink q _ _) q.half).held (Int.le_refl _) held

theorem qdiscard_held (limit : 2 ≤ q.limit) (len : Nat) (held : q.Held busy) :
    (q.qdiscard len).wr = true ∨ (q.qdiscard len).q.Held busy := by
  have flags := (discardLoop_shortened (q := q) rfl len).2
  refine (drains_restart flags _).held ?_ held
  rw [flags.limit]
  exact (half_le_limit limit).2

theorem qconsume_held (some : q.blocks = [] ∨ ∃ b ∈ q.blocks, 0 < b.blen) (len : Nat) (held : q.Held busy) :
    (q.qconsume len).wr = true ∨ (q.qconsume len).q.Held busy := by
  obtain ⟨p, gone, shorter, flags, same, _, ⟨none, out⟩ | ⟨b, rest, p', more, freed, _, _, flags', _, _, out⟩⟩ :=
    qconsume_cases q len
  · rw [none, bytes_nil] at same
    have nil := empty_of_bytes same.symm some
    have len := shorter.len
    rw [none, nil] at len
    rw [out]
    refine Or.inr ⟨flags.flow.trans held.1, flags.closed.trans held.2.1, held.2.2.imp_right fun high => ?_⟩
    have half := half_eq flags.limit
    dsimp only [Queue.half] at half high ⊢
    omega
  · rw [out]
    exact (drains_restart (flags.trans flags') q.half).held (Int.le_refl _) held

/-- With no `qread` between its sections. -/
theorem qbread_held (ok : q.Ok) (limit : 2 ≤ q.limit) {len : Nat} {block : Option Nat} (found : q.splits len → block ≠ none)
    (held : q.Held false) : (q.qbread len block).wr = true ∨ (q.qbread len block).q.Held false := by
  rcases qbread_cases q len block with ⟨none, _⟩ | ⟨b, rest, front, ⟨_, out⟩ | ⟨long, stream, ⟨id, _, out⟩ | ⟨none, _⟩⟩⟩
  · nomatch held.copying ok limit none
  · rw [out]
    exact (drains_restart (sameFlags_unlink q b rest) q.half).held (Int.le_refl _) held
  · rw [out]
    have flags : SameFlags q ((q.unlink b rest).qputback (newBlock id (b.data.drop len))) :=
      ⟨rfl, rfl, rfl, rfl, rfl, rfl, rfl, rfl⟩
    exact (drains_restart flags q.half).held (Int.le_refl _) held
  · have splits : q.splits len = true := by simp [splits, front, long, stream]
    exact absurd none (found splits)

/-- A `qread` has its second section to come. -/
theorem qreadTake_held (ok : q.Ok) (limit : 2 ≤ q.limit) {len : Nat}
    (some : q.coalesce = true → q.blocks = [] ∨ ∃ b ∈ q.blocks, 0 < b.blen) (held : q.Held false) :
    ∃ first, (q.qreadTake len).value = .got first ∧ (q.qreadTake len).q.Held true := by
  obtain ⟨p, freed, _, flags, same, ⟨none, out⟩ | ⟨first, q', out, _, _, _, flags', _⟩⟩ := qreadTake_cases q len
  · exfalso
    by_cases nil : q.blocks = []
    · nomatch held.copying ok limit nil
    · cases plain : q.coalesce with
      | true =>
        rw [none, bytes_nil] at same
        exact nil (empty_of_bytes same.symm (some plain))
      | false =>
        obtain ⟨first, got⟩ := qreadTake_plain plain nil len
        rw [out] at got
        nomatch got
  · rw [out]
    have flags := flags.trans flags'
    exact ⟨first, rfl, flags.flow.trans held.1, flags.closed.trans held.2.1, Or.inl rfl⟩

theorem qreadDone_held {first : List Block} {len : Nat} (fits : first.length = 1 ∨ blocklen first ≤ len)
    (held : q.Held busy) : (q.qreadDone first len).wr = true ∨ (q.qreadDone first len).q.Held false := by
  obtain ⟨stored, freed, left, _, _, ⟨_, out⟩ | ⟨b, _, ⟨_, out⟩ | ⟨_, out⟩⟩⟩ := qreadDone_cases q fits
  · rw [out]
    exact (drains_restart (SameFlags.refl q) q.half).held (Int.le_refl _) held
  · rw [out]
    exact (drains_restart (SameFlags.refl q) q.half).held (Int.le_refl _) held
  · rw [out]
    have flags : SameFlags q (q.qputback b) := ⟨rfl, rfl, rfl, rfl, rfl, rfl, rfl, rfl⟩
    exact (drains_restart flags q.half).held (Int.le_refl _) held

theorem qget_about (limit : 2 ≤ q.limit) (about : q.About) : q.qget.q.About := by
  have less := (qget_spec q).1.less
  rw [qget] at less ⊢
  split at less
  · exact about
  · exact (drains_restart (sameFlags_unlink q _ _) q.half).about_of_less (half_le_limit limit).2 less about

theorem qdiscard_about (len : Nat) (about : q.About) : (q.qdiscard len).q.About := by
  have flags := (discardLoop_shortened (q := q) rfl len).2
  exact (drains_restart flags _).about_of_less (Int.le_of_eq flags.limit) (qdiscard_spec q len).less about

theorem qconsume_about (limit : 2 ≤ q.limit) (len : Nat) (about : q.About) : (q.qconsume len).q.About := by
  obtain ⟨p, gone, shorter, flags, _, _, ⟨_, out⟩ | ⟨b, rest, p', more, freed, _, shorter', flags', _, _, out⟩⟩ :=
    qconsume_cases q len
  · rw [out]
    exact (sameFlags_flow flags shorter.less).about about
  · rw [out]
    have less := ((shorter.trans shorter').restart q.half).less
    exact (drains_restart (flags.trans flags') q.half).about_of_less (half_le_limit limit).2 less about

theorem qbread_about (limit : 2 ≤ q.limit) (len : Nat) (block : Option Nat) (about : q.About) :
    (q.qbread len block).q.About := by
  rcases qbread_cases q len block with ⟨_, out⟩ | ⟨b, rest, front, ⟨_, out⟩ | ⟨long, _, ⟨id, _, out⟩ | ⟨_, out⟩⟩⟩
  · rw [out]
    exact (sameFlow_qwait q).about about
  · rw [out]
    have less := ((unlink_shortened front).restart q.half).less
    exact (drains_restart (sameFlags_unlink q b rest) q.half).about_of_less (half_le_limit limit).2 less about
  · rw [out]
    have flags : SameFlags q ((q.unlink b rest).qputback (newBlock id (b.data.drop len))) :=
      ⟨rfl, rfl, rfl, rfl, rfl, rfl, rfl, rfl⟩
    refine (drains_restart flags q.half).about_of_less (half_le_limit limit).2 ?_ about
    rw [(sameBlocks_restart _ _).len]
    have room := b.room
    simp only [qputback, unlink, newBlock, List.length_drop]
    omega
  · rw [out]
    have less := (unlink_shortened front).less
    exact SameFlow.about (q := q) ⟨rfl, rfl, rfl, less⟩ about

theorem qreadTake_about (len : Nat) (about : q.About) : (q.qreadTake len).q.About := by
  obtain ⟨p, freed, shorter, flags, _, ⟨_, out⟩ | ⟨first, q', out, _, _, shorter', flags', _⟩⟩ := qreadTake_cases q len
  · rw [out]
    exact (sameFlow_qwait p).about ((sameFlags_flow flags shorter.less).about about)
  · rw [out]
    exact (sameFlags_flow (flags.trans flags') (shorter.trans shorter').less).about about

theorem bl2mem_alloc (bs : List Block) (n : Nat) : blockalloclen (bl2mem bs n).2.2 ≤ blockalloclen bs := by
  induction bs generalizing n with
  | nil => exact Nat.le_refl _
  | cons b bs ih =>
    rw [bl2mem]
    split
    · exact Nat.le_refl _
    · rw [blockalloclen_cons]
      exact Nat.le_trans (ih (n - b.blen)) (Nat.le_add_left _ _)

/-- What a `qread` puts back it had taken. -/
theorem qreadDone_len (q : Queue) (first : List Block) (len : Nat) :
    (q.qreadDone first len).q.len ≤ q.len + blockalloclen first ∧
      (q.msg = true ∨ blocklen first ≤ len → (q.qreadDone first len).q.len ≤ q.len) := by
  have most := bl2mem_alloc first len
  have all := (bl2mem_spec first len).2.2.2
  rcases ran : bl2mem first len with ⟨stored, freed, left⟩
  rw [ran] at most all
  dsimp only at most all
  cases left with
  | nil =>
    simp only [qreadDone, ran, (sameBlocks_restart _ _).len]
    exact ⟨by omega, fun _ => Int.le_refl _⟩
  | cons b rest =>
    rw [blockalloclen_cons] at most
    cases msg : q.msg with
    | true =>
      simp only [qreadDone, ran, msg, if_true, (sameBlocks_restart _ _).len]
      exact ⟨by omega, fun _ => Int.le_refl _⟩
    | false =>
      simp only [qreadDone, ran, msg, Bool.false_eq_true, if_false, (sameBlocks_restart _ _).len, qputback]
      exact ⟨by omega, fun fits => by cases all (fits.resolve_left not_false)⟩

theorem qreadDone_about (limit : 2 ≤ q.limit) {first : List Block} {len : Nat}
    (fits : first.length = 1 ∨ blocklen first ≤ len)
    (room : q.flow = false → q.closed = false →
      q.msg = true ∨ blocklen first ≤ len ∨ q.len + blockalloclen first < q.limit)
    (about : q.About) : (q.qreadDone first len).q.About := by
  have drains : Drains q (q.qreadDone first len).q (q.qreadDone first len).wr q.half := by
    obtain ⟨stored, freed, left, _, _, ⟨_, out⟩ | ⟨b, _, ⟨_, out⟩ | ⟨_, out⟩⟩⟩ := qreadDone_cases q fits
    · rw [out]
      exact drains_restart (SameFlags.refl q) q.half
    · rw [out]
      exact drains_restart (SameFlags.refl q) q.half
    · rw [out]
      have flags : SameFlags q (q.qputback b) := ⟨rfl, rfl, rfl, rfl, rfl, rfl, rfl, rfl⟩
      exact drains_restart flags q.half
  obtain ⟨most, same⟩ := qreadDone_len q first len
  refine drains.about (half_le_limit limit).2 ?_
  cases set : q.flow with
  | true => exact Or.inl rfl
  | false =>
    cases done : q.closed with
    | true => exact Or.inr (Or.inr rfl)
    | false =>
      have below : q.len < q.limit := by
        rcases about with flow | below | closed
        · rw [set] at flow
          nomatch flow
        · exact below
        · rw [done] at closed
          nomatch closed
      refine Or.inr (Or.inl ?_)
      rcases room set done with msg | short | free
      · exact Int.lt_of_le_of_lt (same (Or.inl msg)) below
      · exact Int.lt_of_le_of_lt (same (Or.inr short)) below
      · exact Int.lt_of_le_of_lt most free

/-- `Qstarve` still stands for a reader asleep. -/
def Starved (q : Queue) : Prop := q.starve = true ∧ q.blocks = [] ∧ q.closed = false

/-- A reader about to sleep does not sleep or is seen. -/
def Hungry (q : Queue) : Prop := q.starve = true ∨ q.blocks ≠ [] ∨ q.closed = true

/-- A section that takes blocks off the queue, as a reader sees it. -/
structure Leaves (q q' : Queue) : Prop where
  closed : q'.closed = q.closed
  starve : q.starve = true → q'.starve = true
  nil : q.blocks = [] → q'.blocks = []

theorem Leaves.starved (leaves : Leaves q q') (starved : q.Starved) : q'.Starved :=
  ⟨leaves.starve starved.1, leaves.nil starved.2.1, leaves.closed.trans starved.2.2⟩

theorem Leaves.hungry (leaves : Leaves q q')
    (more : q.starve = false → q.closed = false → q.blocks ≠ [] → q'.blocks ≠ []) (hungry : q.Hungry) : q'.Hungry := by
  rw [Hungry, leaves.closed]
  cases starve : q.starve with
  | true => exact Or.inl (leaves.starve starve)
  | false =>
    rcases hungry with set | some | done
    · rw [starve] at set
      nomatch set
    · cases done : q.closed with
      | true => exact Or.inr (Or.inr rfl)
      | false => exact Or.inr (Or.inl (more starve done some))
    · exact Or.inr (Or.inr done)

theorem Shortened.nil {gone : List Nat} (shorter : Shortened q q' gone) (none : q.blocks = []) : q'.blocks = [] := by
  have names := shorter.ids
  rw [none, ids_nil] at names
  exact ids_eq_nil.mp (List.append_eq_nil_iff.mp names.symm).2

theorem restart_reader (q : Queue) (bound : Int) :
    (q.restart bound).1.closed = q.closed ∧ (q.restart bound).1.starve = q.starve := by
  rw [restart]
  split <;> exact ⟨rfl, rfl⟩

theorem leaves_restart {gone : List Nat} (shorter : Shortened q q' gone) (flags : SameFlags q q') (bound : Int) :
    Leaves q (q'.restart bound).1 := by
  obtain ⟨closed, starve⟩ := restart_reader q' bound
  refine ⟨closed.trans flags.closed, fun set => ?_, (shorter.restart bound).nil⟩
  rw [starve, flags.starve]
  exact set

theorem qget_leaves (q : Queue) : Leaves q q.qget.q := by
  rw [qget]
  split
  · exact ⟨rfl, fun _ => rfl, id⟩
  · rename_i b rest front
    exact leaves_restart (unlink_shortened front) (sameFlags_unlink q b rest) _

theorem qdiscard_leaves (q : Queue) (len : Nat) : Leaves q (q.qdiscard len).q :=
  leaves_restart (discardLoop_shortened rfl len).1 (discardLoop_shortened rfl len).2 _

theorem qconsume_leaves (q : Queue) (len : Nat) : Leaves q (q.qconsume len).q := by
  obtain ⟨p, gone, shorter, flags, _, _, ⟨_, out⟩ | ⟨b, rest, p', more, freed, _, shorter', flags', _, _, out⟩⟩ :=
    qconsume_cases q len
  · rw [out]
    exact ⟨flags.closed, fun _ => rfl, shorter.nil⟩
  · rw [out]
    exact leaves_restart (shorter.trans shorter') (flags.trans flags') _

/-- `qdiscard` empties a queue that it has all the bytes of to discard. -/
theorem discardLoop_nil {bs : List Block} (front : q.blocks = bs) (more : bs ≠ []) (left : Nat)
    (none : (discardLoop bs left q).2.2.blocks = []) : blocklen bs.dropLast < left ∧ blocklen bs ≤ left := by
  induction bs generalizing q left with
  | nil => exact absurd rfl more
  | cons b rest ih =>
    rw [discardLoop] at none
    split at none
    · rw [front] at none
      cases none
    · split at none
      · rename_i pos fits
        rw [blocklen_cons]
        cases rest with
        | nil =>
          rw [List.dropLast_singleton, blocklen_nil]
          omega
        | cons c cs =>
          obtain ⟨front, all⟩ := ih (q := q.unlink b (c :: cs)) rfl (List.cons_ne_nil _ _) (left - b.blen) none
          rw [List.dropLast_cons_of_ne_nil (List.cons_ne_nil _ _), blocklen_cons]
          omega
      · cases none

theorem qget_nil (more : q.blocks ≠ []) (none : q.qget.q.blocks = []) : q.blocks.tail = [] := by
  cases front : q.blocks with
  | nil => exact absurd front more
  | cons b rest =>
    simp only [qget, front] at none
    rw [(sameBlocks_restart _ _).blocks] at none
    exact none

theorem qdiscard_nil {len : Nat} (more : q.blocks ≠ []) (none : (q.qdiscard len).q.blocks = []) :
    blocklen q.blocks.dropLast < len ∧ blocklen q.blocks ≤ len := by
  refine discardLoop_nil rfl more len ?_
  rw [qdiscard, (sameBlocks_restart _ _).blocks] at none
  exact none

theorem qconsume_nil {len : Nat} (none : (q.qconsume len).q.blocks = []) :
    (∀ b ∈ q.blocks.dropLast, b.blen = 0) ∧ (q.msg = true ∨ blocklen q.blocks ≤ len) := by
  obtain ⟨p, gone, _, flags, same, left, ⟨nil, out⟩ | ⟨b, rest, p', _, freed, front, _, _, _, blocks, out⟩⟩ :=
    qconsume_cases q len
  · rw [nil, bytes_nil] at same
    have empty := bytes_eq_nil.mp same.symm
    have zero : blocklen q.blocks = 0 := by
      rw [← length_bytes, ← same]
      rfl
    exact ⟨fun b here => empty b ((List.dropLast_sublist _).subset here), Or.inr (by omega)⟩
  · rw [out] at none
    dsimp only at none
    rw [(sameBlocks_restart _ _).blocks] at none
    rcases blocks with ⟨done, blocks⟩ | ⟨_, blocks⟩
    · rw [none] at blocks
      rw [← blocks, left] at front
      have whole := List.takeWhile_append_dropWhile (p := fun b : Block => decide (b.blen = 0)) (l := q.blocks)
      rw [front] at whole
      refine ⟨fun c here => ?_, ?_⟩
      · rw [← whole, List.dropLast_concat] at here
        have empty := List.mem_takeWhile_imp here
        exact of_decide_eq_true empty
      · rw [left, front] at same
        rw [flags.msg] at done
        refine done.imp_right fun short => ?_
        rw [← length_bytes, ← same, length_bytes, blocklen_cons, blocklen_nil]
        exact short
    · rw [blocks] at none
      nomatch none

end Queue

end WakeupSteps

end Inferno.Qio
