import Inferno.Qio.Queue

namespace Inferno.Qio

section Account

variable {q q' : Queue} {b : Block} {bs rest : List Block} {n len : Nat}

@[simp] theorem ids_nil : ids [] = [] := rfl

@[simp] theorem ids_cons (b : Block) (bs : List Block) : ids (b :: bs) = b.id :: ids bs := rfl

@[simp] theorem ids_append (bs cs : List Block) : ids (bs ++ cs) = ids bs ++ ids cs := by simp [ids]

@[simp] theorem blocklen_nil : blocklen [] = 0 := rfl

@[simp] theorem blocklen_cons (b : Block) (bs : List Block) : blocklen (b :: bs) = b.blen + blocklen bs := rfl

@[simp] theorem blocklen_append (bs cs : List Block) : blocklen (bs ++ cs) = blocklen bs + blocklen cs := by
  simp [blocklen]

@[simp] theorem blockalloclen_nil : blockalloclen [] = 0 := rfl

@[simp] theorem blockalloclen_cons (b : Block) (bs : List Block) :
    blockalloclen (b :: bs) = b.alloc + blockalloclen bs := rfl

@[simp] theorem blockalloclen_append (bs cs : List Block) :
    blockalloclen (bs ++ cs) = blockalloclen bs + blockalloclen cs := by
  simp [blockalloclen]

@[simp] theorem bytes_nil : bytes [] = [] := rfl

@[simp] theorem bytes_cons (b : Block) (bs : List Block) : bytes (b :: bs) = b.data ++ bytes bs := rfl

@[simp] theorem bytes_append (bs cs : List Block) : bytes (bs ++ cs) = bytes bs ++ bytes cs := by simp [bytes]

@[simp] theorem ids_skip (b : Block) (n : Nat) : (b.skip n).id = b.id := rfl

@[simp] theorem alloc_skip (b : Block) (n : Nat) : (b.skip n).alloc = b.alloc := rfl

@[simp] theorem blen_skip (b : Block) (n : Nat) : (b.skip n).blen = b.blen - n := List.length_drop

@[simp] theorem ids_eq_nil : ids bs = [] ↔ bs = [] := by simp [ids]

theorem length_bytes (bs : List Block) : (bytes bs).length = blocklen bs := by
  induction bs with
  | nil => rfl
  | cons b bs ih => rw [bytes_cons, List.length_append, ih, blocklen_cons, Block.blen]

namespace Queue

/-- The counters are the sums over the blocks of the queue, and `blast` is the last of them. -/
structure Ok (q : Queue) : Prop where
  len : q.len = blockalloclen q.blocks
  dlen : q.dlen = blocklen q.blocks
  last : q.blocks ≠ [] → q.blast = (ids q.blocks).getLast?

/-- Two queues that differ in flags only. -/
structure SameBlocks (q q' : Queue) : Prop where
  blocks : q'.blocks = q.blocks
  blast : q'.blast = q.blast
  len : q'.len = q.len
  dlen : q'.dlen = q.dlen

theorem SameBlocks.ok (same : SameBlocks q q') (ok : q.Ok) : q'.Ok := by
  refine ⟨?_, ?_, ?_⟩
  · rw [same.len, same.blocks]
    exact ok.len
  · rw [same.dlen, same.blocks]
    exact ok.dlen
  · rw [same.blast, same.blocks]
    exact ok.last

theorem sameBlocks_restart (q : Queue) (bound : Int) : SameBlocks q (q.restart bound).1 := by
  rw [restart]
  split <;> exact ⟨rfl, rfl, rfl, rfl⟩

theorem Ok.restart (ok : q.Ok) (bound : Int) : (q.restart bound).1.Ok := (sameBlocks_restart q bound).ok ok

theorem sameBlocks_feed (q : Queue) : SameBlocks q q.feed.1 := ⟨rfl, rfl, rfl, rfl⟩

theorem sameBlocks_qwait (q : Queue) : SameBlocks q q.qwait.2 := by
  rw [qwait]
  split
  · exact ⟨rfl, rfl, rfl, rfl⟩
  · split
    · dsimp only
      split
      · exact ⟨rfl, rfl, rfl, rfl⟩
      · split <;> exact ⟨rfl, rfl, rfl, rfl⟩
    · exact ⟨rfl, rfl, rfl, rfl⟩

/-- The blocks `gone` are the front of the queue, and the block behind them may have lost bytes. -/
structure Shortened (q q' : Queue) (gone : List Nat) : Prop where
  ids : Qio.ids q.blocks = gone ++ Qio.ids q'.blocks
  blast : q'.blast = q.blast
  len : q'.len - blockalloclen q'.blocks = q.len - blockalloclen q.blocks
  dlen : q'.dlen - blocklen q'.blocks = q.dlen - blocklen q.blocks
  less : q'.len ≤ q.len

theorem Shortened.refl (q : Queue) : Shortened q q [] := ⟨rfl, rfl, rfl, rfl, Int.le_refl _⟩

theorem Shortened.trans {q'' : Queue} {gone more : List Nat} (one : Shortened q q' gone) (two : Shortened q' q'' more) :
    Shortened q q'' (gone ++ more) :=
  ⟨by rw [one.ids, two.ids, List.append_assoc], two.blast.trans one.blast, two.len.trans one.len, two.dlen.trans one.dlen,
    Int.le_trans two.less one.less⟩

theorem SameBlocks.shortened (same : SameBlocks q q') : Shortened q q' [] :=
  ⟨by rw [same.blocks]; rfl, same.blast, by rw [same.len, same.blocks], by rw [same.dlen, same.blocks],
    Int.le_of_eq same.len⟩

theorem Shortened.same {q'' : Queue} {gone : List Nat} (shorter : Shortened q q' gone) (same : SameBlocks q' q'') :
    Shortened q q'' gone := by
  have whole := shorter.trans same.shortened
  rwa [List.append_nil] at whole

theorem Shortened.restart {gone : List Nat} (shorter : Shortened q q' gone) (bound : Int) :
    Shortened q (q'.restart bound).1 gone :=
  shorter.same (sameBlocks_restart q' bound)

theorem Shortened.ok {gone : List Nat} (shorter : Shortened q q' gone) (ok : q.Ok) : q'.Ok := by
  have len := shorter.len
  have dlen := shorter.dlen
  rw [ok.len] at len
  rw [ok.dlen] at dlen
  refine ⟨by omega, by omega, fun more => ?_⟩
  have here : Qio.ids q'.blocks ≠ [] := fun none => more (ids_eq_nil.mp none)
  have before : q.blocks ≠ [] := by
    intro none
    have ids := shorter.ids
    rw [none, ids_nil] at ids
    exact here (List.append_eq_nil_iff.mp ids.symm).2
  rw [shorter.blast, ok.last before, shorter.ids, List.getLast?_append_of_ne_nil _ here]

theorem unlink_shortened (front : q.blocks = b :: rest) : Shortened q (q.unlink b rest) [b.id] := by
  refine ⟨?_, rfl, ?_, ?_, ?_⟩
  · rw [front]
    rfl
  · simp only [unlink, front, blockalloclen_cons]
    omega
  · simp only [unlink, front, blocklen_cons]
    omega
  · simp only [unlink]
    omega

/-- `blast->next = b` adds to the end of the queue. -/
theorem setNext_last (nodup : (ids bs).Nodup) (more : bs ≠ []) (cs : List Block) :
    setNext (ids bs).getLast? cs bs = bs ++ cs := by
  induction bs with
  | nil => exact absurd rfl more
  | cons b bs ih =>
    obtain ⟨fresh, rest⟩ := List.nodup_cons.mp nodup
    cases bs with
    | nil => simp [setNext]
    | cons c bs =>
      have last : (ids (b :: c :: bs)).getLast? = (ids (c :: bs)).getLast? := by simp
      have other : some b.id ≠ (ids (c :: bs)).getLast? := by
        intro same
        exact fresh (List.mem_of_getLast? same.symm)
      rw [last, setNext, if_neg other, ih rest (List.cons_ne_nil _ _)]
      rfl

theorem link_blocks (ok : q.Ok) (nodup : (ids q.blocks).Nodup) (bs : List Block) : (q.link bs).blocks = q.blocks ++ bs := by
  rw [link]
  split
  · rename_i none
    rw [none]
    rfl
  · rename_i more
    dsimp only
    rw [ok.last more, setNext_last nodup more]

/-- A string of blocks is linked and accounted for. -/
theorem Ok.account (ok : q.Ok) (nodup : (ids q.blocks).Nodup) (more : bs ≠ []) :
    ((q.link bs).account bs).Ok ∧ ((q.link bs).account bs).blocks = q.blocks ++ bs := by
  have blocks : ((q.link bs).account bs).blocks = q.blocks ++ bs := link_blocks ok nodup bs
  have len : (q.link bs).len = q.len := by
    rw [link]
    split <;> rfl
  have dlen : (q.link bs).dlen = q.dlen := by
    rw [link]
    split <;> rfl
  refine ⟨⟨?_, ?_, fun _ => ?_⟩, blocks⟩
  · rw [blocks, blockalloclen_append]
    simp only [Queue.account, len, ok.len]
    omega
  · rw [blocks, blocklen_append]
    simp only [Queue.account, dlen, ok.dlen]
    omega
  · have some : ids bs ≠ [] := fun none => more (ids_eq_nil.mp none)
    rw [blocks, ids_append, List.getLast?_append_of_ne_nil _ some]
    simp [Queue.account, ids]

theorem Ok.qputback (ok : q.Ok) : (q.qputback b).Ok := by
  refine ⟨?_, ?_, fun _ => ?_⟩
  · simp only [Queue.qputback, blockalloclen_cons, ok.len]
    omega
  · simp only [Queue.qputback, blocklen_cons, ok.dlen]
    omega
  · cases blocks : q.blocks with
    | nil => simp [Queue.qputback, blocks]
    | cons c cs =>
      have last := ok.last (by rw [blocks]; exact List.cons_ne_nil _ _)
      rw [blocks] at last
      simp [Queue.qputback, blocks, last]

/-- Nothing but the blocks and the counters has changed. -/
structure SameFlags (q q' : Queue) : Prop where
  limit : q'.limit = q.limit
  flow : q'.flow = q.flow
  starve : q'.starve = q.starve
  closed : q'.closed = q.closed
  msg : q'.msg = q.msg
  coalesce : q'.coalesce = q.coalesce
  noblock : q'.noblock = q.noblock
  locked : q'.locked = q.locked

theorem SameFlags.refl (q : Queue) : SameFlags q q := ⟨rfl, rfl, rfl, rfl, rfl, rfl, rfl, rfl⟩

theorem SameFlags.trans {q'' : Queue} (one : SameFlags q q') (two : SameFlags q' q'') : SameFlags q q'' :=
  ⟨two.limit.trans one.limit, two.flow.trans one.flow, two.starve.trans one.starve, two.closed.trans one.closed,
    two.msg.trans one.msg, two.coalesce.trans one.coalesce, two.noblock.trans one.noblock, two.locked.trans one.locked⟩

theorem sameFlags_unlink (q : Queue) (b : Block) (rest : List Block) : SameFlags q (q.unlink b rest) :=
  ⟨rfl, rfl, rfl, rfl, rfl, rfl, rfl, rfl⟩

theorem discardLoop_shortened (front : q.blocks = bs) (left : Nat) :
    Shortened q (discardLoop bs left q).2.2 (discardLoop bs left q).2.1 ∧ SameFlags q (discardLoop bs left q).2.2 := by
  induction bs generalizing q left with
  | nil => exact ⟨Shortened.refl q, SameFlags.refl q⟩
  | cons b rest ih =>
    rw [discardLoop]
    split
    · exact ⟨Shortened.refl q, SameFlags.refl q⟩
    · split
      · obtain ⟨shorter, flags⟩ := ih (q := q.unlink b rest) rfl (left - b.blen)
        exact ⟨(unlink_shortened front).trans shorter, (sameFlags_unlink q b rest).trans flags⟩
      · rename_i part
        refine ⟨⟨?_, rfl, ?_, ?_, Int.le_refl _⟩, ⟨rfl, rfl, rfl, rfl, rfl, rfl, rfl, rfl⟩⟩
        · simp [front]
        · simp [front]
        · simp only [front, blocklen_cons, blen_skip]
          omega

/-- Only empty blocks are skipped, and none is left in front. -/
theorem skipEmpty_spec (front : q.blocks = bs) (tofree : List Nat) :
    ∃ gone, (skipEmpty bs q tofree).2 = gone.reverse ++ tofree ∧ Shortened q (skipEmpty bs q tofree).1 gone ∧
      SameFlags q (skipEmpty bs q tofree).1 ∧ bytes (skipEmpty bs q tofree).1.blocks = bytes q.blocks ∧
      (skipEmpty bs q tofree).1.blocks = bs.dropWhile (·.blen = 0) := by
  induction bs generalizing q tofree with
  | nil => exact ⟨[], rfl, Shortened.refl q, SameFlags.refl q, rfl, front⟩
  | cons b rest ih =>
    rw [skipEmpty]
    split
    · rename_i empty
      have first : Shortened q { q with blocks := rest, len := q.len - b.alloc } [b.id] := by
        refine ⟨by rw [front]; rfl, rfl, ?_, ?_, by dsimp only; omega⟩
        · simp only [front, blockalloclen_cons]
          omega
        · simp only [front, blocklen_cons, empty]
          omega
      obtain ⟨gone, freed, shorter, flags, same, left⟩ :=
        ih (q := { q with blocks := rest, len := q.len - b.alloc }) rfl (b.id :: tofree)
      refine ⟨b.id :: gone, by rw [freed]; simp, first.trans shorter, ?_, ?_, ?_⟩
      · exact ⟨flags.limit, flags.flow, flags.starve, flags.closed, flags.msg, flags.coalesce, flags.noblock, flags.locked⟩
      · rw [same, front, bytes_cons, List.length_eq_zero_iff.mp empty]
        rfl
      · rw [left, List.dropWhile_cons, if_pos (decide_eq_true empty)]
    · rename_i more
      refine ⟨[], rfl, Shortened.refl q, SameFlags.refl q, rfl, ?_⟩
      rw [front, List.dropWhile_cons, if_neg (by rw [decide_eq_true_eq]; exact more)]

theorem dropEmpty_shortened (front : q.blocks = bs) (freed : List Nat) :
    ∃ gone, (dropEmpty bs q freed).2 = freed ++ gone ∧ Shortened q (dropEmpty bs q freed).1 gone := by
  induction bs generalizing q freed with
  | nil => exact ⟨[], (List.append_nil _).symm, Shortened.refl q⟩
  | cons b rest ih =>
    rw [dropEmpty]
    split
    · obtain ⟨gone, all, shorter⟩ := ih (q := q.unlink b rest) rfl (freed ++ [b.id])
      exact ⟨b.id :: gone, by rw [all]; simp, (unlink_shortened front).trans shorter⟩
    · exact ⟨[], (List.append_nil _).symm, Shortened.refl q⟩

theorem grab_shortened (front : q.blocks = bs) (len n : Nat) :
    Shortened q (grab len bs n q).2 (Qio.ids (grab len bs n q).1) := by
  induction bs generalizing q n with
  | nil => exact Shortened.refl q
  | cons b rest ih =>
    rw [grab]
    split
    · exact Shortened.refl q
    · exact (unlink_shortened front).trans (ih (q := q.unlink b rest) rfl (n + b.blen))

/-- The block a caller gets from `qget` was the first. -/
theorem qget_spec (q : Queue) : Shortened q q.qget.q (q.qget.value.toList.map Block.id) ∧ q.qget.freed = [] := by
  rw [qget]
  split
  · exact ⟨⟨rfl, rfl, rfl, rfl, Int.le_refl _⟩, rfl⟩
  · rename_i b rest front
    exact ⟨(unlink_shortened front).restart _, rfl⟩

theorem qdiscard_spec (q : Queue) (len : Nat) : Shortened q (q.qdiscard len).q (q.qdiscard len).freed :=
  (discardLoop_shortened rfl len).1.restart _

/-- The ways through `qconsume`, once empty blocks are skipped: there is nothing
else, the first block goes, or it stays without its first bytes. -/
theorem qconsume_cases (q : Queue) (len : Nat) :
    ∃ p gone, Shortened q p gone ∧ SameFlags q p ∧ bytes p.blocks = bytes q.blocks ∧
      p.blocks = q.blocks.dropWhile (·.blen = 0) ∧
      ((p.blocks = [] ∧ q.qconsume len = ⟨none, { p with starve := true }, [], false, false⟩) ∨
      ∃ b rest p' more freed, p.blocks = b :: rest ∧ Shortened p p' more ∧ SameFlags p p' ∧ freed.Perm (gone ++ more) ∧
        ((p.msg = true ∨ b.blen ≤ len) ∧ p'.blocks = rest ∨
          ¬(p.msg = true ∨ b.blen ≤ len) ∧ p'.blocks = b.skip len :: rest) ∧
        q.qconsume len = ⟨some (b.data.take len), (p'.restart q.half).1, freed, (p'.restart q.half).2, false⟩) := by
  obtain ⟨gone, freed, shorter, flags, same, left⟩ := skipEmpty_spec (q := q) rfl []
  rw [List.append_nil] at freed
  rcases ran : skipEmpty q.blocks q [] with ⟨p, tofree⟩
  rw [ran] at freed shorter flags same left
  dsimp only at freed shorter flags same left
  subst freed
  refine ⟨p, gone, shorter, flags, same, left, ?_⟩
  cases front : p.blocks with
  | nil =>
    refine Or.inl ⟨rfl, ?_⟩
    simp only [qconsume, ran, front]
  | cons b rest =>
    have half : q.half = p.half := by rw [half, half, flags.limit]
    have bytes : b.data.take (min b.blen len) = b.data.take len := by
      rw [Nat.min_comm, Block.blen, ← List.take_take, List.take_length]
    have whole : min b.blen len = b.blen ↔ b.blen ≤ len := by omega
    refine Or.inr ?_
    by_cases done : p.msg = true ∨ b.blen ≤ len
    · have all : Shortened p { p with
          blocks := rest
          len := p.len - b.alloc
          dlen := p.dlen - ↑(min b.blen len) - ↑(b.skip (min b.blen len)).blen } [b.id] := by
        refine ⟨by rw [front]; rfl, rfl, ?_, ?_, by dsimp only; omega⟩
        · simp only [front, blockalloclen_cons]
          omega
        · simp only [front, blocklen_cons, blen_skip]
          omega
      refine ⟨b, rest, _, [b.id], b.id :: gone.reverse, rfl, all, ⟨rfl, rfl, rfl, rfl, rfl, rfl, rfl, rfl⟩, ?_,
        Or.inl ⟨done, rfl⟩, ?_⟩
      · exact (List.Perm.cons b.id (List.reverse_perm gone)).trans (List.perm_append_singleton b.id gone).symm
      · simp only [qconsume, ran, front, whole, if_pos done, bytes, half]
        rfl
    · have part : Shortened p { p with
          blocks := b.skip (min b.blen len) :: rest
          dlen := p.dlen - ↑(min b.blen len) } [] := by
        refine ⟨by rw [front]; rfl, rfl, ?_, ?_, Int.le_refl _⟩
        · simp [front]
        · simp only [front, blocklen_cons, blen_skip]
          omega
      have some : min b.blen len = len := by omega
      rw [some] at part
      refine ⟨b, rest, _, [], gone.reverse, rfl, part, ⟨rfl, rfl, rfl, rfl, rfl, rfl, rfl, rfl⟩, ?_,
        Or.inr ⟨done, rfl⟩, ?_⟩
      · rw [List.append_nil]
        exact List.reverse_perm gone
      · rw [← whole, some] at done
        simp only [qconsume, ran, front, some, if_neg done, half]
        rfl

/-- A section that adds blocks to the end of the queue. -/
structure Extended (q q' : Queue) (bs : List Block) : Prop where
  blocks : q'.blocks = q.blocks ++ bs
  ok : q'.Ok

theorem Extended.same {q'' : Queue} (more : Extended q q' bs) (same : SameBlocks q' q'') : Extended q q'' bs :=
  ⟨same.blocks.trans more.blocks, same.ok more.ok⟩

theorem extended_link (ok : q.Ok) (nodup : (Qio.ids q.blocks).Nodup) (more : bs ≠ []) :
    Extended q ((q.link bs).account bs) bs :=
  ⟨(ok.account nodup more).2, (ok.account nodup more).1⟩

theorem sameBlocks_flow (q : Queue) (c : Prop) [Decidable c] : SameBlocks q (if c then { q with flow := true } else q) := by
  split <;> exact ⟨rfl, rfl, rfl, rfl⟩

theorem add_spec (ok : q.Ok) (nodup : (Qio.ids q.blocks).Nodup) (more : bs ≠ []) : Extended q (q.add bs).q bs :=
  ((extended_link ok nodup more).same (sameBlocks_flow _ _)).same (sameBlocks_feed _)

/-- The blocks given to `qpass` are queued or freed. -/
theorem qpass_spec (ok : q.Ok) (nodup : (Qio.ids q.blocks).Nodup) (b : Block) (rest : List Block) :
    (q.qpass b rest).q = q ∧ (q.qpass b rest).freed = Qio.ids (b :: rest) ∨
      Extended q (q.qpass b rest).q (b :: rest) ∧ (q.qpass b rest).freed = [] := by
  rw [qpass]
  split
  · exact Or.inl ⟨rfl, rfl⟩
  · split
    · exact Or.inl ⟨rfl, rfl⟩
    · exact Or.inr ⟨add_spec ok nodup (List.cons_ne_nil _ _), rfl⟩

theorem qpassnolim_spec (ok : q.Ok) (nodup : (Qio.ids q.blocks).Nodup) (b : Block) (rest : List Block) :
    (q.qpassnolim b rest).q = q ∧ (q.qpassnolim b rest).freed = Qio.ids (b :: rest) ∨
      Extended q (q.qpassnolim b rest).q (b :: rest) ∧ (q.qpassnolim b rest).freed = [] := by
  rw [qpassnolim]
  split
  · exact Or.inl ⟨rfl, rfl⟩
  · exact Or.inr ⟨add_spec ok nodup (List.cons_ne_nil _ _), rfl⟩

theorem qproduce_spec (ok : q.Ok) (nodup : (Qio.ids q.blocks).Nodup) (data : List UInt8) (block : Option Nat) :
    (q.qproduce data block).freed = [] ∧ (SameBlocks q (q.qproduce data block).q ∧ (q.qproduce data block).value = -1 ∨
      ∃ id, block = some id ∧ Extended q (q.qproduce data block).q [newBlock id data] ∧
        (q.qproduce data block).value = data.length) := by
  unfold qproduce
  split
  · exact ⟨rfl, Or.inl ⟨⟨rfl, rfl, rfl, rfl⟩, rfl⟩⟩
  · split
    · exact ⟨rfl, Or.inl ⟨⟨rfl, rfl, rfl, rfl⟩, rfl⟩⟩
    · cases block with
      | none => exact ⟨rfl, Or.inl ⟨⟨rfl, rfl, rfl, rfl⟩, rfl⟩⟩
      | some id =>
        have linked := extended_link ok nodup (List.cons_ne_nil (newBlock id data) [])
        exact ⟨rfl, Or.inr ⟨id, rfl, (linked.same (sameBlocks_feed _)).same (sameBlocks_flow _ _), rfl⟩⟩

theorem qbwrite_spec (ok : q.Ok) (nodup : (Qio.ids q.blocks).Nodup) (b : Block) :
    (q.qbwrite b).q = q ∧ (q.qbwrite b).freed = [b.id] ∨ Extended q (q.qbwrite b).q [b] ∧ (q.qbwrite b).freed = [] := by
  rw [qbwrite]
  split
  · exact Or.inl ⟨rfl, rfl⟩
  · split
    · exact Or.inl ⟨rfl, rfl⟩
    · exact Or.inr ⟨(extended_link ok nodup (List.cons_ne_nil b [])).same (sameBlocks_feed _), rfl⟩

theorem qiwrite_spec (ok : q.Ok) (nodup : (Qio.ids q.blocks).Nodup) (data : List UInt8) (block : Option Nat) :
    (q.qiwrite data block).freed = [] ∧ (block = none ∧ (q.qiwrite data block).q = q ∨
      ∃ id, block = some id ∧ Extended q (q.qiwrite data block).q [newBlock id data]) := by
  cases block with
  | none => exact ⟨rfl, Or.inl ⟨rfl, rfl⟩⟩
  | some id =>
    have linked := extended_link ok nodup (List.cons_ne_nil (newBlock id data) [])
    exact ⟨rfl, Or.inr ⟨id, rfl, linked.same (sameBlocks_feed _)⟩⟩

theorem qwait_ready (more : q.blocks ≠ []) : q.qwait = (.ready, q) := by
  rw [qwait, if_pos more]

theorem qwait_not_ready (none : q.blocks = []) : q.qwait.1 ≠ .ready := by
  rw [qwait, if_neg (not_not.mpr none)]
  split
  · dsimp only
    split
    · exact Wait.noConfusion
    · split <;> exact Wait.noConfusion
  · exact Wait.noConfusion

theorem cut_of_le (short : b.blen ≤ n) : b.cut n = b := by
  simp only [Block.cut, List.take_of_length_le short]

/-- Only empty blocks are dropped, and none is left in front. -/
theorem dropEmpty_spec (front : q.blocks = bs) (freed : List Nat) :
    SameFlags q (dropEmpty bs q freed).1 ∧ bytes (dropEmpty bs q freed).1.blocks = bytes q.blocks ∧
      ∀ b ∈ (dropEmpty bs q freed).1.blocks.head?, 0 < b.blen := by
  induction bs generalizing q freed with
  | nil =>
    refine ⟨SameFlags.refl q, rfl, fun b first => ?_⟩
    rw [dropEmpty, front] at first
    nomatch first
  | cons b rest ih =>
    rw [dropEmpty]
    split
    · rename_i empty
      obtain ⟨flags, same, first⟩ := ih (q := q.unlink b rest) rfl (freed ++ [b.id])
      refine ⟨(sameFlags_unlink q b rest).trans flags, ?_, first⟩
      rw [same, front, bytes_cons, List.length_eq_zero_iff.mp empty]
      rfl
    · rename_i more
      refine ⟨SameFlags.refl q, rfl, fun c first => ?_⟩
      rw [front] at first
      cases first
      exact Nat.pos_of_ne_zero more

/-- What is grabbed is the front of the queue and fits the read. -/
theorem grab_spec (len : Nat) (front : q.blocks = bs) (n : Nat) :
    SameFlags q (grab len bs n q).2 ∧ q.blocks = (grab len bs n q).1 ++ (grab len bs n q).2.blocks ∧
      ((grab len bs n q).1 ≠ [] → n + blocklen (grab len bs n q).1 ≤ len) := by
  induction bs generalizing q n with
  | nil => exact ⟨SameFlags.refl q, rfl, fun more => absurd rfl more⟩
  | cons b rest ih =>
    rw [grab]
    split
    · exact ⟨SameFlags.refl q, rfl, fun more => absurd rfl more⟩
    · rename_i fits
      obtain ⟨flags, blocks, most⟩ := ih (q := q.unlink b rest) rfl (n + b.blen)
      refine ⟨(sameFlags_unlink q b rest).trans flags, ?_, fun _ => ?_⟩
      · rw [front, List.cons_append]
        exact congrArg _ blocks
      · dsimp only
        rw [blocklen_cons]
        cases taken : (grab len rest (n + b.blen) (q.unlink b rest)).1 with
        | nil =>
          rw [blocklen_nil]
          omega
        | cons c cs =>
          rw [taken] at most
          have bound := most (List.cons_ne_nil _ _)
          omega

/-- The ways through the first half of `qread`, once blocks of no length are gone. -/
theorem qreadTake_cases (q : Queue) (len : Nat) :
    ∃ p freed, Shortened q p freed ∧ SameFlags q p ∧ bytes p.blocks = bytes q.blocks ∧
      ((p.blocks = [] ∧ q.qreadTake len = ⟨.wait p.qwait.1, p.qwait.2, freed, false, false⟩) ∨
      ∃ first q', q.qreadTake len = ⟨.got first, q', freed, false, false⟩ ∧ first ≠ [] ∧ p.blocks = first ++ q'.blocks ∧
        Shortened p q' (Qio.ids first) ∧ SameFlags p q' ∧ (first.length = 1 ∨ blocklen first ≤ len)) := by
  have dropped : ∃ p freed, (if q.coalesce then dropEmpty q.blocks q [] else (q, [])) = (p, freed) ∧
      Shortened q p freed ∧ SameFlags q p ∧ bytes p.blocks = bytes q.blocks := by
    split
    · obtain ⟨gone, freed, shorter⟩ := dropEmpty_shortened (q := q) rfl []
      obtain ⟨flags, same, _⟩ := dropEmpty_spec (q := q) rfl []
      rw [List.nil_append] at freed
      exact ⟨_, _, rfl, freed ▸ shorter, flags, same⟩
    · exact ⟨q, [], rfl, Shortened.refl q, SameFlags.refl q, rfl⟩
  obtain ⟨p, freed, ran, shorter, flags, same⟩ := dropped
  refine ⟨p, freed, shorter, flags, same, ?_⟩
  cases front : p.blocks with
  | nil =>
    refine Or.inl ⟨rfl, ?_⟩
    have not := qwait_not_ready front
    rcases waited : p.qwait with ⟨why, p'⟩
    rw [waited] at not
    cases why with
    | ready => exact absurd rfl not
    | eof | error | starved => simp only [qreadTake, ran, waited]
  | cons b rest =>
    refine Or.inr ?_
    have ready := qwait_ready (q := p) (by rw [front]; exact List.cons_ne_nil _ _)
    simp only [qreadTake, ran, ready, front]
    have keep : (p.unlink b rest).coalesce = p.coalesce := rfl
    rw [keep]
    split
    · have behind : (p.unlink b rest).blocks = rest := rfl
      obtain ⟨flags', blocks, most⟩ := grab_spec len behind b.blen
      have taken := (unlink_shortened front).trans (grab_shortened behind len b.blen)
      refine ⟨_, _, rfl, List.cons_ne_nil _ _, congrArg (b :: ·) blocks, taken, (sameFlags_unlink p b rest).trans flags', ?_⟩
      cases more : (grab len rest b.blen (p.unlink b rest)).1 with
      | nil => exact Or.inl rfl
      | cons c cs =>
        rw [more] at most
        exact Or.inr (most (List.cons_ne_nil _ _))
    · exact ⟨[b], _, rfl, List.cons_ne_nil _ _, rfl, unlink_shortened front, sameFlags_unlink p b rest, Or.inl rfl⟩

/-- The ways through `qbread`: nothing to read, a block that is read whole or cut
off, one that is split, and one that is lost for want of memory. -/
theorem qbread_cases (q : Queue) (len : Nat) (block : Option Nat) :
    (q.blocks = [] ∧ q.qbread len block = ⟨.wait q.qwait.1, q.qwait.2, [], false, false⟩) ∨
    ∃ b rest, q.blocks = b :: rest ∧
      ((b.blen ≤ len ∨ q.msg = true) ∧ q.qbread len block = ⟨.got (b.cut len), ((q.unlink b rest).restart q.half).1, [],
          ((q.unlink b rest).restart q.half).2, false⟩ ∨
        len < b.blen ∧ q.msg = false ∧ ((∃ id, block = some id ∧ q.qbread len block = ⟨.got (b.cut len),
            (((q.unlink b rest).qputback (newBlock id (b.data.drop len))).restart q.half).1, [],
            (((q.unlink b rest).qputback (newBlock id (b.data.drop len))).restart q.half).2, false⟩) ∨
          block = none ∧ q.qbread len block = ⟨.failed, { q.unlink b rest with locked := true }, [], false, false⟩)) := by
  cases front : q.blocks with
  | nil =>
    refine Or.inl ⟨rfl, ?_⟩
    have not := qwait_not_ready front
    unfold qbread
    split
    · rename_i ready
      rw [ready] at not
      exact absurd rfl not
    · rename_i why p _ waited
      rw [waited]
  | cons b rest =>
    have ready := qwait_ready (q := q) (by rw [front]; exact List.cons_ne_nil _ _)
    refine Or.inr ⟨b, rest, rfl, ?_⟩
    by_cases short : b.blen ≤ len
    · refine Or.inl ⟨Or.inl short, ?_⟩
      simp only [qbread, ready, front, if_neg (Nat.not_lt.mpr short), cut_of_le short]
      rfl
    · have long : b.blen > len := Nat.not_le.mp short
      cases msg : q.msg with
      | true =>
        refine Or.inl ⟨Or.inr rfl, ?_⟩
        have keep : (q.unlink b rest).msg = true := msg
        simp only [qbread, ready, front, if_pos long, keep, if_true]
        rfl
      | false =>
        refine Or.inr ⟨long, rfl, ?_⟩
        have keep : (q.unlink b rest).msg = false := msg
        cases block with
        | none =>
          refine Or.inr ⟨rfl, ?_⟩
          simp only [qbread, ready, front, if_pos long, keep, Bool.false_eq_true, if_false]
        | some id =>
          refine Or.inl ⟨id, rfl, ?_⟩
          simp only [qbread, ready, front, if_pos long, keep, Bool.false_eq_true, if_false]
          rfl

end Queue

/-- `bl2mem` splits its blocks into what it has copied and what is left. -/
theorem bl2mem_spec (bs : List Block) (n : Nat) :
    bytes bs = (bl2mem bs n).1 ++ bytes (bl2mem bs n).2.2 ∧ ids bs = (bl2mem bs n).2.1 ++ ids (bl2mem bs n).2.2 ∧
      (bl2mem bs n).2.2.length ≤ bs.length ∧ (blocklen bs ≤ n → (bl2mem bs n).2.2 = []) := by
  induction bs generalizing n with
  | nil => exact ⟨rfl, rfl, Nat.le_refl _, fun _ => rfl⟩
  | cons b bs ih =>
    rw [bl2mem]
    split
    · rename_i long
      refine ⟨?_, rfl, Nat.le_refl _, fun short => ?_⟩
      · simp only [bytes_cons, Block.skip, ← List.append_assoc, List.take_append_drop]
      · rw [blocklen_cons] at short
        omega
    · obtain ⟨same, names, most, all⟩ := ih (n - b.blen)
      refine ⟨?_, ?_, ?_, fun short => all ?_⟩
      · simp only [bytes_cons, same, List.append_assoc]
      · simp only [ids_cons, names, List.cons_append]
      · rw [List.length_cons]
        exact Nat.le_succ_of_le most
      · rw [blocklen_cons] at short
        omega

namespace Queue

/-- The ways through the end of `qread`, whose blocks were one or did fit the read. -/
theorem qreadDone_cases (q : Queue) {first : List Block} {len : Nat} (fits : first.length = 1 ∨ blocklen first ≤ len) :
    ∃ stored freed left, bytes first = stored ++ bytes left.toList ∧ Qio.ids first = freed ++ Qio.ids left.toList ∧
      ((left = none ∧ q.qreadDone first len = ⟨(stored.length, stored), (q.restart q.half).1, freed, (q.restart q.half).2, false⟩) ∨
      ∃ b, left = some b ∧
        (q.msg = true ∧ q.qreadDone first len =
          ⟨(stored.length, stored), (q.restart q.half).1, freed ++ [b.id], (q.restart q.half).2, false⟩ ∨
        q.msg = false ∧ q.qreadDone first len = ⟨(stored.length, stored), ((q.qputback b).restart q.half).1, freed,
          ((q.qputback b).restart q.half).2, false⟩)) := by
  obtain ⟨same, names, most, all⟩ := bl2mem_spec first len
  have total := congrArg List.length same
  rw [List.length_append, length_bytes, length_bytes] at total
  rcases ran : bl2mem first len with ⟨stored, freed, left⟩
  rw [ran] at same names most all total
  dsimp only at same names most all total
  have few : left = [] ∨ ∃ b, left = [b] := by
    rcases fits with one | short
    · rw [one] at most
      match left, most with
      | [], _ => exact Or.inl rfl
      | [b], _ => exact Or.inr ⟨b, rfl⟩
    · exact Or.inl (all short)
  rcases few with rfl | ⟨b, rfl⟩
  · refine ⟨stored, freed, none, same, names, Or.inl ⟨rfl, ?_⟩⟩
    have count : (blocklen first : Int) = stored.length := by
      rw [blocklen_nil] at total
      omega
    simp only [qreadDone, ran, count]
  · refine ⟨stored, freed, some b, same, names, Or.inr ⟨b, rfl, ?_⟩⟩
    have count : (blocklen first : Int) - b.blen = stored.length := by
      rw [blocklen_cons, blocklen_nil] at total
      omega
    cases msg : q.msg with
    | true =>
      refine Or.inl ⟨rfl, ?_⟩
      simp only [qreadDone, ran, count, msg, if_true]
    | false =>
      refine Or.inr ⟨rfl, ?_⟩
      simp only [qreadDone, ran, count, msg, Bool.false_eq_true, if_false]
      rfl

end Queue

end Account

section Flags

namespace Queue

variable {q q' q'' : Queue} {b : Block} {bs rest : List Block}

/-- What a queue keeps from `qopen` on. `locked` is here because a section that ends has unlocked the queue. -/
structure Fixed (q q' : Queue) : Prop where
  limit : q'.limit = q.limit
  msg : q'.msg = q.msg
  coalesce : q'.coalesce = q.coalesce
  locked : q'.locked = q.locked

theorem Fixed.refl (q : Queue) : Fixed q q := ⟨rfl, rfl, rfl, rfl⟩

theorem Fixed.trans (one : Fixed q q') (two : Fixed q' q'') : Fixed q q'' :=
  ⟨two.limit.trans one.limit, two.msg.trans one.msg, two.coalesce.trans one.coalesce, two.locked.trans one.locked⟩

theorem SameFlags.fixed (same : SameFlags q q') : Fixed q q' := ⟨same.limit, same.msg, same.coalesce, same.locked⟩

theorem fixed_restart (q : Queue) (bound : Int) : Fixed q (q.restart bound).1 := by
  rw [restart]
  split <;> exact ⟨rfl, rfl, rfl, rfl⟩

theorem Fixed.restart (fixed : Fixed q q') (bound : Int) : Fixed q (q'.restart bound).1 := fixed.trans (fixed_restart q' bound)

theorem fixed_qwait (q : Queue) : Fixed q q.qwait.2 := by
  rw [qwait]
  split
  · exact Fixed.refl q
  · split
    · dsimp only
      split
      · exact ⟨rfl, rfl, rfl, rfl⟩
      · split <;> exact ⟨rfl, rfl, rfl, rfl⟩
    · exact ⟨rfl, rfl, rfl, rfl⟩

theorem fixed_link (q : Queue) (bs : List Block) : Fixed q ((q.link bs).account bs) := by
  rw [link]
  split <;> exact ⟨rfl, rfl, rfl, rfl⟩

theorem fixed_flow (q : Queue) (c : Prop) [Decidable c] : Fixed q (if c then { q with flow := true } else q) := by
  split <;> exact ⟨rfl, rfl, rfl, rfl⟩

theorem fixed_qget (q : Queue) : Fixed q q.qget.q := by
  rw [qget]
  split
  · exact ⟨rfl, rfl, rfl, rfl⟩
  · exact (sameFlags_unlink q _ _).fixed.restart _

theorem fixed_qdiscard (q : Queue) (len : Nat) : Fixed q (q.qdiscard len).q :=
  (discardLoop_shortened rfl len).2.fixed.restart _

theorem fixed_qconsume (q : Queue) (len : Nat) : Fixed q (q.qconsume len).q := by
  obtain ⟨p, gone, _, flags, _, _, ⟨_, out⟩ | ⟨b, rest, p', more, freed, _, _, flags', _, _, out⟩⟩ := qconsume_cases q len
  · rw [out]
    exact flags.fixed.trans ⟨rfl, rfl, rfl, rfl⟩
  · rw [out]
    exact (flags.trans flags').fixed.restart _

theorem fixed_add (q : Queue) (bs : List Block) : Fixed q (q.add bs).q :=
  ((fixed_link q bs).trans (fixed_flow _ _)).trans ⟨rfl, rfl, rfl, rfl⟩

theorem fixed_qpass (q : Queue) (b : Block) (rest : List Block) : Fixed q (q.qpass b rest).q := by
  rw [qpass]
  split
  · exact Fixed.refl q
  · split
    · exact Fixed.refl q
    · exact fixed_add q _

theorem fixed_qpassnolim (q : Queue) (b : Block) (rest : List Block) : Fixed q (q.qpassnolim b rest).q := by
  rw [qpassnolim]
  split
  · exact Fixed.refl q
  · exact fixed_add q _

theorem fixed_qproduce (q : Queue) (data : List UInt8) (block : Option Nat) : Fixed q (q.qproduce data block).q := by
  unfold qproduce
  split
  · exact Fixed.refl q
  · split
    · exact ⟨rfl, rfl, rfl, rfl⟩
    · cases block with
      | none => exact Fixed.refl q
      | some id =>
        have linked : Fixed q ((q.link [newBlock id data]).account [newBlock id data]).feed.1 :=
          (fixed_link q _).trans ⟨rfl, rfl, rfl, rfl⟩
        exact linked.trans (fixed_flow _ _)

theorem fixed_qbwrite (q : Queue) (b : Block) : Fixed q (q.qbwrite b).q := by
  rw [qbwrite]
  split
  · exact Fixed.refl q
  · split
    · exact Fixed.refl q
    · exact (fixed_link q _).trans ⟨rfl, rfl, rfl, rfl⟩

theorem fixed_qiwrite (q : Queue) (data : List UInt8) (block : Option Nat) : Fixed q (q.qiwrite data block).q := by
  cases block with
  | none => exact Fixed.refl q
  | some id => exact (fixed_link q _).trans ⟨rfl, rfl, rfl, rfl⟩

theorem fixed_qreadTake (q : Queue) (len : Nat) : Fixed q (q.qreadTake len).q := by
  obtain ⟨p, freed, _, flags, _, ⟨_, out⟩ | ⟨first, q', out, _, _, _, flags', _⟩⟩ := qreadTake_cases q len
  · rw [out]
    exact flags.fixed.trans (fixed_qwait p)
  · rw [out]
    exact (flags.trans flags').fixed

theorem fixed_qreadDone (q : Queue) {first : List Block} {len : Nat} (fits : first.length = 1 ∨ blocklen first ≤ len) :
    Fixed q (q.qreadDone first len).q := by
  obtain ⟨stored, freed, left, _, _, ⟨_, out⟩ | ⟨b, _, ⟨_, out⟩ | ⟨_, out⟩⟩⟩ := qreadDone_cases q fits
  · rw [out]
    exact fixed_restart q _
  · rw [out]
    exact fixed_restart q _
  · rw [out]
    have back : Fixed q (q.qputback b) := ⟨rfl, rfl, rfl, rfl⟩
    exact back.restart _

/-- Only a split that fails leaves the queue locked. -/
theorem fixed_qbread (q : Queue) (len : Nat) (block : Option Nat) :
    Fixed q (q.qbread len block).q ∨ (∃ b rest, q.blocks = b :: rest ∧ len < b.blen) ∧ q.msg = false ∧ block = none := by
  rcases qbread_cases q len block with ⟨_, out⟩ | ⟨b, rest, front, ⟨_, out⟩ | ⟨long, stream, ⟨id, _, out⟩ | ⟨none, _⟩⟩⟩
  · rw [out]
    exact Or.inl (fixed_qwait q)
  · rw [out]
    exact Or.inl ((sameFlags_unlink q b rest).fixed.restart _)
  · rw [out]
    have back : Fixed q ((q.unlink b rest).qputback (newBlock id (b.data.drop len))) := ⟨rfl, rfl, rfl, rfl⟩
    exact Or.inl (back.restart _)
  · exact Or.inr ⟨⟨b, rest, front, long⟩, stream, none⟩

end Queue

end Flags

end Inferno.Qio
