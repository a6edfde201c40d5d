import Inferno.Qio.Account

namespace Inferno.Qio

/-- A `qread` between its two locked sections: the blocks it has taken and the
size of the memory it copies them to. -/
structure Reading where
  first : List Block
  len : Nat

/-- A queue and what has become of the blocks that were handed to it: `out` are
with callers, `handed` are all of them. `accepted` are the bytes that writers got
onto the queue and `delivered` those that readers were given, in order. -/
structure Sys where
  q : Queue
  reading : Option Reading
  out : List Nat
  freed : List Nat
  handed : List Nat
  accepted : List UInt8
  delivered : List UInt8

/-- The locked sections of the operations, with what `iallocb` and `allocb` find.
`qread` and `qreadDone` are the two halves of `qread`. -/
inductive Event
  | qget
  | qdiscard (len : Nat)
  | qconsume (len : Nat)
  | qpass (b : Block) (rest : List Block)
  | qpassnolim (b : Block) (rest : List Block)
  | qproduce (data : List UInt8) (block : Option Nat)
  | qbread (len : Nat) (block : Option Nat)
  | qread (len : Nat)
  | qreadDone
  | qbwrite (b : Block) (rest : List Block)
  | qiwrite (data : List UInt8) (block : Option Nat)
  | qputback (b : Block) (rest : List Block)
  | qaddlist (b : Block) (rest : List Block)
  | qflush
  | qclose
  | qhangup (msg : String)

/-- `qbread` has to split the first block. -/
def Queue.splits (q : Queue) (len : Nat) : Bool :=
  match q.blocks with
  | [] => false
  | b :: _ => b.blen > len && !q.msg

namespace Sys

def gap (m : Sys) : List Block := (m.reading.map Reading.first).getD []

/-- A caller hands over its blocks. -/
def hand (m : Sys) (bs : List Block) : Sys :=
  { m with
    out := m.out.filter fun i => i ∉ ids bs
    handed := m.handed ++ (ids bs).filter fun i => i ∉ m.handed }

/-- A block is allocated for the queue. -/
def alloc (m : Sys) (i : Nat) : Sys := { m with handed := m.handed ++ [i] }

/-- What is not freed is on the queue. -/
def wrote {α : Type} (m : Sys) (r : Out α) (data : List UInt8) : Sys :=
  { m with
    q := r.q
    freed := m.freed ++ r.freed
    accepted := if r.freed = [] then m.accepted ++ data else m.accepted }

end Sys

/-- A section is run unless the queue is locked or, for a reading process, another
one has `rlock`. -/
def Event.exec (e : Event) (m : Sys) : Option Sys :=
  if m.q.locked then none
  else
    match e with
    | qget =>
      let r := m.q.qget
      some { m with
        q := r.q
        out := m.out ++ ids r.value.toList
        delivered := m.delivered ++ bytes r.value.toList }
    | qdiscard len =>
      let r := m.q.qdiscard len
      some { m with q := r.q, freed := m.freed ++ r.freed }
    | qconsume len =>
      let r := m.q.qconsume len
      some { m with
        q := r.q
        freed := m.freed ++ r.freed
        delivered := m.delivered ++ r.value.getD [] }
    | qpass b rest => some ((m.hand (b :: rest)).wrote (m.q.qpass b rest) (bytes (b :: rest)))
    | qpassnolim b rest => some ((m.hand (b :: rest)).wrote (m.q.qpassnolim b rest) (bytes (b :: rest)))
    | qproduce data block =>
      let r := m.q.qproduce data block
      match block with
      | none => some { m with q := r.q }
      | some i => if r.value = -1 then some { m with q := r.q } else some ((m.alloc i).wrote r data)
    | qbread len block =>
      if m.reading.isSome then none
      else
        let r := m.q.qbread len block
        let m := if m.q.splits len then block.elim m m.alloc else m
        match r.value with
        | .got b => some { m with
            q := r.q
            out := m.out ++ [b.id]
            delivered := m.delivered ++ b.data }
        | _ => some { m with q := r.q }
    | qread len =>
      if m.reading.isSome then none
      else
        let r := m.q.qreadTake len
        match r.value with
        | .got first => some { m with q := r.q, freed := m.freed ++ r.freed, reading := some ⟨first, len⟩ }
        | _ => some { m with q := r.q, freed := m.freed ++ r.freed }
    | qreadDone =>
      match m.reading with
      | none => none
      | some reading =>
        let r := m.q.qreadDone reading.first reading.len
        some { m with
          q := r.q
          reading := none
          freed := m.freed ++ r.freed
          delivered := m.delivered ++ r.value.2 }
    | qbwrite b rest => some ((m.hand (b :: rest)).wrote (m.q.qbwrite b) b.data)
    | qiwrite data block =>
      match block with
      | none => some m
      | some i => some ((m.alloc i).wrote (m.q.qiwrite data block) data)
    | qputback b rest => some { m.hand (b :: rest) with q := m.q.qputback b }
    | qaddlist b rest =>
      some { m.hand (b :: rest) with
        q := m.q.qaddlist b rest
        accepted := m.accepted ++ bytes (b :: rest) }
    | qflush => some { m with q := m.q.qflush.q, freed := m.freed ++ m.q.qflush.freed }
    | qclose => some { m with q := m.q.qclose.q, freed := m.freed ++ m.q.qclose.freed }
    | qhangup msg => some { m with q := (m.q.qhangup msg).q }

theorem exec_free {m m' : Sys} {e : Event} (ran : e.exec m = some m') : m.q.locked = false := by
  unfold Event.exec at ran
  split at ran
  · nomatch ran
  · rename_i free
    exact Bool.eq_false_iff.mpr free

/-- The queue that a section leaves. -/
def Event.queue (e : Event) (m : Sys) : Queue :=
  match e with
  | qget => m.q.qget.q
  | qdiscard len => (m.q.qdiscard len).q
  | qconsume len => (m.q.qconsume len).q
  | qpass b rest => (m.q.qpass b rest).q
  | qpassnolim b rest => (m.q.qpassnolim b rest).q
  | qproduce data block => (m.q.qproduce data block).q
  | qbread len block => (m.q.qbread len block).q
  | qread len => (m.q.qreadTake len).q
  | qreadDone =>
    match m.reading with
    | none => m.q
    | some r => (m.q.qreadDone r.first r.len).q
  | qbwrite b _ => (m.q.qbwrite b).q
  | qiwrite data block => (m.q.qiwrite data block).q
  | qputback b _ => m.q.qputback b
  | qaddlist b rest => m.q.qaddlist b rest
  | qflush => m.q.qflush.q
  | qclose => m.q.qclose.q
  | qhangup msg => (m.q.qhangup msg).q

/-- The `qread` that is between its sections after a section. -/
def Event.reading (e : Event) (m : Sys) : Option Reading :=
  match e with
  | qread len =>
    match (m.q.qreadTake len).value with
    | .got first => some ⟨first, len⟩
    | _ => none
  | qreadDone => none
  | _ => m.reading

/-- What a section does to the queue and to the `qread`, apart from who has which block. -/
theorem exec_queue {m m' : Sys} {e : Event} (ran : e.exec m = some m') : m'.q = e.queue m ∧ m'.reading = e.reading m := by
  have free := exec_free ran
  simp only [Event.exec, free, Bool.false_eq_true, if_false] at ran
  cases e with
  | qproduce data block =>
    cases block with
    | none =>
      injection ran with ran
      subst ran
      exact ⟨rfl, rfl⟩
    | some id =>
      dsimp only at ran
      split at ran <;> (injection ran with ran; subst ran; exact ⟨rfl, rfl⟩)
  | qbread len block =>
    dsimp only at ran
    split at ran
    · nomatch ran
    · have same : (if m.q.splits len = true then block.elim m m.alloc else m).reading = m.reading := by
        split
        · cases block <;> rfl
        · rfl
      split at ran <;> (injection ran with ran; subst ran; exact ⟨rfl, same⟩)
  | qread len =>
    dsimp only at ran
    split at ran
    · nomatch ran
    · rename_i idle
      have none : m.reading = none := by simpa using idle
      split at ran
      · rename_i got
        injection ran with ran
        subst ran
        exact ⟨rfl, by simp only [Event.reading, got]⟩
      · rename_i wait
        injection ran with ran
        subst ran
        refine ⟨rfl, ?_⟩
        dsimp only [Event.reading]
        split
        · rename_i first got
          exact absurd got (wait first)
        · exact none
  | qreadDone =>
    dsimp only at ran
    split at ran
    · nomatch ran
    · rename_i r reading
      injection ran with ran
      subst ran
      exact ⟨by simp only [Event.queue, reading], rfl⟩
  | qiwrite data block =>
    cases block with
    | none =>
      injection ran with ran
      subst ran
      exact ⟨rfl, rfl⟩
    | some id =>
      injection ran with ran
      subst ran
      exact ⟨rfl, rfl⟩
  | _ =>
    injection ran with ran
    subst ran
    exact ⟨rfl, rfl⟩

/-- A reading process waits for the one that has `rlock`. -/
theorem exec_idle {m m' : Sys} {e : Event} (ran : e.exec m = some m') :
    match e with
    | .qread _ | .qbread _ _ => m.reading = none
    | .qreadDone => m.reading.isSome
    | _ => True := by
  have free := exec_free ran
  simp only [Event.exec, free, Bool.false_eq_true, if_false] at ran
  cases e with
  | qread | qbread =>
    dsimp only at ran
    split at ran
    · nomatch ran
    · rename_i idle
      simpa using idle
  | qreadDone =>
    dsimp only at ran
    split at ran
    · nomatch ran
    · rename_i reading
      rw [reading]
      rfl
  | _ => trivial

/-- A caller hands over blocks of its own, each once. -/
def Sys.Owned (m : Sys) (bs : List Block) : Prop := (ids bs).Nodup ∧ ∀ i ∈ ids bs, i ∈ m.out ∨ i ∉ m.handed

/-- Callers hand over what is theirs, and memory that is allocated is new. -/
def Event.Valid : Event → Sys → Prop
  | qpass b rest, m | qpassnolim b rest, m | qbwrite b rest, m | qputback b rest, m | qaddlist b rest, m => m.Owned (b :: rest)
  | qproduce _ block, m | qbread _ block, m | qiwrite _ block, m => ∀ i ∈ block, i ∉ m.handed
  | _, _ => True

instance (m : Sys) (bs : List Block) : Decidable (m.Owned bs) :=
  inferInstanceAs (Decidable ((ids bs).Nodup ∧ ∀ i ∈ ids bs, i ∈ m.out ∨ i ∉ m.handed))

instance Event.decidableValid : (e : Event) → (m : Sys) → Decidable (e.Valid m)
  | qpass b rest, m | qpassnolim b rest, m | qbwrite b rest, m | qputback b rest, m | qaddlist b rest, m =>
    inferInstanceAs (Decidable (m.Owned (b :: rest)))
  | qproduce _ block, m | qbread _ block, m | qiwrite _ block, m => inferInstanceAs (Decidable (∀ i ∈ block, i ∉ m.handed))
  | qget, _ | qdiscard _, _ | qconsume _, _ | qread _, _ | qreadDone, _ | qflush, _ | qclose, _ | qhangup _, _ =>
    inferInstanceAs (Decidable True)

/-- A queue just opened. -/
structure Sys.Fresh (m : Sys) : Prop where
  blocks : m.q.blocks = []
  len : m.q.len = 0
  dlen : m.q.dlen = 0
  locked : m.q.locked = false
  reading : m.reading = none
  out : m.out = []
  freed : m.freed = []
  handed : m.handed = []
  accepted : m.accepted = []
  delivered : m.delivered = []

/-- Where the blocks are: on the queue, with a `qread`, with callers, and freed. -/
def Sys.places (m : Sys) : List Nat := ids m.q.blocks ++ ids m.gap ++ m.out ++ m.freed

/-- The accounts are right, and no block is in two places. -/
structure Sys.Inv (m : Sys) : Prop where
  ok : m.q.Ok
  nodup : m.places.Nodup
  known : ∀ i ∈ m.places, i ∈ m.handed
  fits : ∀ r ∈ m.reading, r.first.length = 1 ∨ blocklen r.first ≤ r.len

end Inferno.Qio
