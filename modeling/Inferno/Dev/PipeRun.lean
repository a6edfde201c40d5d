import Inferno.Dev.Pipe

namespace Inferno.Dev

open Qio Queue Lib

namespace Pipe

variable {p p' : Pipe} {e : End} {ch : Chan} {i n : Nat}

theorem other_ne (e : End) : e.other ≠ e := by cases e <;> exact nofun

theorem other_other (e : End) : e.other.other = e := by cases e <;> rfl

theorem eq_or_other (e x : End) : x = e ∨ x = e.other := by cases e <;> cases x <;> simp [End.other]

def opens (p : Pipe) (e : End) : Nat := p.chans.count (some ⟨some e, true⟩)

structure Inv (p : Pipe) : Prop where
  strand : ∀ e, Strand (p.q e) (p.life e) (p.wrote e.other) (p.got e)
  qref : ∀ e, p.qref e = p.opens e
  fresh : ∀ e, p.life e = .fresh → p.qref e = 0
  opened : ∀ e, p.life e = .opened → 0 < p.qref e
  reading : ∀ e, (p.q e).reading.isSome → ∃ c, p.reader e = some c ∧ p.chans[c]? = some (some ⟨some e, true⟩)
  idle : (∀ e, p.qref e = 0) → ∀ e, p.life e = .fresh ∧ (p.q e).q.closed = false ∧ p.wrote e = []

/-- What the claims of a session are: each count is that of the open channels, an
end reads in order what was written on the other, and a pipe with no open end is as
new. -/
structure Ok (p : Pipe) : Prop where
  qref : ∀ e, p.qref e = p.opens e
  crossed : ∀ e, p.got e <+: (p.wrote e.other).flatten
  clean : (∀ e, p.qref e = 0) → ∀ e, (p.q e).q.closed = false ∧ (p.q e).q.blocks = [] ∧ p.wrote e = [] ∧ p.got e = []

theorem Inv.ok (inv : p.Inv) : p.Ok := by
  refine ⟨inv.qref, fun e => (inv.strand e).before, fun none e => ?_⟩
  obtain ⟨fresh, closed, _⟩ := inv.idle none e
  obtain ⟨_, _, unsent⟩ := inv.idle none e.other
  obtain ⟨_, _, wrote⟩ := inv.idle none e
  have before := (inv.strand e).before
  rw [unsent] at before
  exact ⟨closed, (inv.strand e).none fresh unsent, wrote, List.prefix_nil.mp before⟩

theorem inv_attach (user : String) : (pipeattach user).Inv where
  strand _ := strand_opened _
  qref e := by cases e <;> rfl
  fresh _ _ := rfl
  opened _ no := nomatch no
  reading _ no := nomatch no
  idle _ _ := ⟨rfl, rfl, rfl⟩

theorem opens_set {o : Option Chan} (there : p.chans[i]? = some (some ch)) (e : End) :
    (p.chans.set i o).count (some ⟨some e, true⟩) + (if ch = ⟨some e, true⟩ then 1 else 0) =
      p.opens e + if o = some ⟨some e, true⟩ then 1 else 0 := by
  obtain ⟨room, is⟩ := List.getElem?_eq_some_iff.mp there
  rw [List.count_set room, is, opens]
  simp only [beq_iff_eq, Option.some.injEq]
  by_cases same : ch = ⟨some e, true⟩
  · have pos : 0 < p.chans.count (some ⟨some e, true⟩) := List.count_pos_iff.mpr (same ▸ is ▸ List.getElem_mem room)
    rw [if_pos same]
    omega
  · rw [if_neg same]
    omega

theorem opens_clear (there : p.chans[i]? = some (some ch)) (e : End) :
    (p.chans.set i none).count (some ⟨some e, true⟩) + (if ch = ⟨some e, true⟩ then 1 else 0) = p.opens e := by
  simpa using opens_set (o := none) there e

theorem opens_pos (there : p.chans[i]? = some (some ⟨some e, true⟩)) : 0 < p.opens e :=
  List.count_pos_iff.mpr (List.mem_of_getElem? there)

theorem Inv.used (inv : p.Inv) (there : p.chans[i]? = some (some ⟨some e, true⟩)) : p.life e ≠ .fresh := by
  intro fresh
  have none := inv.fresh e fresh
  have pos := opens_pos there
  rw [inv.qref] at none
  omega

theorem onq_spec {ev : Event} (ran : p.onq e ev = some p') :
    ∃ m, ev.Valid (p.q e) ∧ ev.exec (p.q e) = some m ∧ p' = { p with q := Function.update p.q e m } := by
  unfold onq at ran
  split at ran
  · rename_i valid
    obtain ⟨m, ran, is⟩ := Option.map_eq_some_iff.mp ran
    exact ⟨m, valid, ran, is.symm⟩
  · nomatch ran

/-- A section of a read or a write changes one queue, and what is known of the
reads of that end or of the writes of the other. -/
theorem Inv.section {m : Sys} {reader : End → Option Nat} {wrote : End → List (List UInt8)} {got : End → List UInt8}
    (inv : p.Inv) (live : ∃ x, 0 < p.qref x) (strand : Strand m (p.life e) (wrote e.other) (got e))
    (wrotes : wrote e = p.wrote e) (gots : got e.other = p.got e.other) (readers : reader e.other = p.reader e.other)
    (reading : m.reading.isSome → ∃ c, reader e = some c ∧ p.chans[c]? = some (some ⟨some e, true⟩)) :
    Inv { p with q := Function.update p.q e m, reader, wrote, got } := by
  refine ⟨fun x => ?_, inv.qref, inv.fresh, inv.opened, fun x more => ?_, fun none => ?_⟩
  · rcases eq_or_other e x with rfl | rfl
    · simp only [Function.update_self]
      exact strand
    · simp only [Function.update_of_ne (other_ne e), other_other, wrotes, gots]
      have old := inv.strand e.other
      rwa [other_other] at old
  · rcases eq_or_other e x with rfl | rfl
    · simp only [Function.update_self] at more
      exact reading more
    · simp only [Function.update_of_ne (other_ne e)] at more
      simp only [readers]
      exact inv.reading e.other more
  · obtain ⟨x, pos⟩ := live
    exact absurd (none x) (Nat.ne_of_gt pos)

theorem Inv.live (inv : p.Inv) (there : p.chans[i]? = some (some ⟨some e, true⟩)) : ∃ x, 0 < p.qref x :=
  ⟨e, inv.qref e ▸ opens_pos there⟩

theorem Inv.piperead (inv : p.Inv) (there : p.chans[i]? = some (some ⟨some e, true⟩)) (ran : p.piperead i e n = some p') :
    p'.Inv := by
  obtain ⟨_, section_, rfl⟩ := Option.map_eq_some_iff.mp ran
  obtain ⟨m, _, moved, rfl⟩ := onq_spec section_
  simp only [Function.update_self]
  refine inv.section (inv.live there) ((inv.strand e).piperead (inv.used there) moved) rfl rfl
    (Function.update_of_ne (other_ne e) _ _) fun more => ⟨i, ?_, there⟩
  rw [Function.update_self, if_pos more]

theorem Inv.readDone (inv : p.Inv) (there : p.chans[i]? = some (some ⟨some e, true⟩)) (ran : p.readDone e = some p') :
    p'.Inv := by
  unfold Pipe.readDone at ran
  split at ran
  · nomatch ran
  · rename_i r reading
    obtain ⟨_, section_, rfl⟩ := Option.map_eq_some_iff.mp ran
    obtain ⟨m, _, moved, rfl⟩ := onq_spec section_
    obtain ⟨strand, done⟩ := (inv.strand e).readDone (inv.used there) reading moved
    refine inv.section (inv.live there) ?_ rfl (Function.update_of_ne (other_ne e) _ _) (Function.update_of_ne (other_ne e) _ _)
      fun more => ?_
    · rw [Function.update_self]
      exact strand
    · rw [done] at more
      nomatch more

theorem Inv.pipebread (inv : p.Inv) (there : p.chans[i]? = some (some ⟨some e, true⟩)) {block : Option Nat}
    (ran : p.pipebread e n block = some p') : p'.Inv := by
  obtain ⟨_, section_, rfl⟩ := Option.map_eq_some_iff.mp ran
  obtain ⟨m, valid, moved, rfl⟩ := onq_spec section_
  obtain ⟨strand, done⟩ := (inv.strand e).bread (inv.used there) valid moved
  have idle (more : m.reading.isSome) : ∃ c, p.reader e = some c ∧ p.chans[c]? = some (some ⟨some e, true⟩) := by
    rw [done] at more
    nomatch more
  cases value : ((p.q e).q.qbread n block).value with
  | got b =>
    rw [value] at strand
    refine inv.section (inv.live there) ?_ rfl (Function.update_of_ne (other_ne e) _ _) rfl idle
    rw [Function.update_self]
    exact strand
  | wait why | failed =>
    rw [value] at strand
    exact inv.section (inv.live there) strand rfl rfl rfl idle

theorem Inv.pipebwrite (inv : p.Inv) (there : p.chans[i]? = some (some ⟨some e, true⟩)) {b : Block}
    (ran : p.pipebwrite e b = some p') : p'.Inv := by
  obtain ⟨_, section_, rfl⟩ := Option.map_eq_some_iff.mp ran
  obtain ⟨m, valid, moved, rfl⟩ := onq_spec section_
  obtain ⟨strand, same⟩ := (inv.strand e.other).bwrite valid moved
  rw [other_other] at strand
  have reading (more : m.reading.isSome) : ∃ c, p.reader e.other = some c ∧ p.chans[c]? = some (some ⟨some e.other, true⟩) := by
    rw [same] at more
    exact inv.reading e.other more
  dsimp only
  split
  · rename_i taken
    rw [if_pos taken] at strand
    refine inv.section (e := e.other) (inv.live there) ?_ (Function.update_of_ne (other_ne e) _ _) rfl rfl reading
    rw [other_other, Function.update_self]
    exact strand
  · rename_i refused
    rw [if_neg refused] at strand
    refine inv.section (e := e.other) (inv.live there) ?_ rfl rfl rfl reading
    rw [other_other]
    exact strand

theorem Inv.pipewalk (inv : p.Inv) {names : List String} (ran : p.pipewalk ch names = some p') : p'.Inv := by
  unfold Pipe.pipewalk at ran
  split at ran
  · cases ran
    exact inv
  · split at ran
    · nomatch ran
    · split at ran
      · cases ran
        exact inv
      · rename_i file walked
        cases ran
        refine ⟨inv.strand, fun x => ?_, inv.fresh, inv.opened, fun x more => ?_, inv.idle⟩
        · have old := inv.qref x
          simp only [opens, List.count_append, List.count_singleton] at old ⊢
          simp [old]
        · obtain ⟨c, is, there⟩ := inv.reading x more
          refine ⟨c, is, ?_⟩
          rw [List.getElem?_append_left (List.getElem?_eq_some_iff.mp there).1]
          exact there

/-- A channel that is not open is not the one of a read. -/
theorem Inv.reading_set (inv : p.Inv) (there : p.chans[i]? = some (some ch)) (shut : ch.isOpen = false) {o : Option Chan}
    {x : End} (more : (p.q x).reading.isSome) :
    ∃ c, p.reader x = some c ∧ (p.chans.set i o)[c]? = some (some ⟨some x, true⟩) := by
  obtain ⟨c, is, at_⟩ := inv.reading x more
  refine ⟨c, is, ?_⟩
  rw [List.getElem?_set_ne]
  · exact at_
  · rintro rfl
    rw [there] at at_
    cases at_
    nomatch shut

theorem Inv.pipeopen (inv : p.Inv) (there : p.chans[i]? = some (some ch)) (shut : ch.isOpen = false) (omode : Nat)
    (user eve : String) : (p.pipeopen i ch omode user eve).Inv := by
  have none (x : End) : ¬ch = ⟨some x, true⟩ := by
    rintro rfl
    nomatch shut
  unfold Pipe.pipeopen
  split
  · split
    · refine ⟨inv.strand, fun x => ?_, inv.fresh, inv.opened, fun x more => inv.reading_set there shut more, inv.idle⟩
      have count := opens_set (o := some ⟨.none, true⟩) there x
      rw [if_neg (none x), if_neg (by simp), Nat.add_zero, Nat.add_zero] at count
      exact (inv.qref x).trans count.symm
    · exact inv
  · rename_i e file
    split
    · exact inv
    · have other (x : End) (ne : x ≠ e) : Function.update p.qref e (p.qref e + 1) x = p.qref x ∧
          Function.update p.life e (if p.life e = .fresh then .opened else p.life e) x = p.life x :=
        ⟨Function.update_of_ne ne _ _, Function.update_of_ne ne _ _⟩
      refine ⟨fun x => ?_, fun x => ?_, fun x => ?_, fun x => ?_, fun x more => inv.reading_set there shut more, fun zero => ?_⟩
      · by_cases same : x = e
        · subst same
          simp only [Function.update_self]
          have strand := inv.strand x
          split
          · rename_i fresh
            rw [fresh] at strand
            exact strand.opens
          · exact strand
        · simp only [(other x same).2]
          exact inv.strand x
      · have count := opens_set (o := some ⟨some e, true⟩) there x
        have old := inv.qref x
        rw [if_neg (none x), Nat.add_zero] at count
        simp only [opens, setChan] at count old ⊢
        rw [count]
        by_cases same : x = e
        · subst same
          simp only [Function.update_self, if_true]
          omega
        · rw [(other x same).1, if_neg (by simpa using Ne.symm same)]
          omega
      · by_cases same : x = e
        · subst same
          simp only [Function.update_self]
          intro fresh
          split at fresh
          · nomatch fresh
          · contradiction
        · simp only [other x same]
          exact inv.fresh x
      · by_cases same : x = e
        · subst same
          simp only [Function.update_self]
          exact fun _ => Nat.succ_pos _
        · simp only [other x same]
          exact inv.opened x
      · have none : Function.update p.qref e (p.qref e + 1) e = 0 := zero e
        rw [Function.update_self] at none
        omega

/-- What is left of a close after the queues are hung up. -/
theorem inv_closed {h r : Pipe} (strand : ∀ x, Strand (h.q x) (h.life x) (h.wrote x.other) (h.got x))
    (qref : ∀ x, h.qref x = (h.chans.set i none).count (some ⟨some x, true⟩)) (fresh : ∀ x, h.life x = .fresh → h.qref x = 0)
    (opened : ∀ x, h.life x = .opened → 0 < h.qref x)
    (reading : ∀ x, (h.q x).reading.isSome → ∃ c, h.reader x = some c ∧ (h.chans.set i none)[c]? = some (some ⟨some x, true⟩))
    (empty : (∀ x, h.qref x = 0) → ∀ x, (h.q x).q.blocks = []) (ran : h.reopen = some r) :
    Inv { r.setChan i none with ref := r.ref - 1 } := by
  unfold reopen at ran
  split at ran
  · rename_i zero
    split at ran
    · nomatch ran
    · cases ran
      have none (x : End) : h.qref x = 0 := by cases x <;> simp only [zero]
      have idle (x : End) : (h.q x).reading = .none := by
        cases is : (h.q x).reading with
        | none => rfl
        | some r =>
          obtain ⟨c, _, there⟩ := reading x (by rw [is]; rfl)
          have pos : 0 < (h.chans.set i .none).count (some ⟨some x, true⟩) := List.count_pos_iff.mpr (List.mem_of_getElem? there)
          have := none x
          rw [qref] at this
          omega
      refine ⟨fun x => (strand x).reopen (empty none x) (idle x), qref, fun x _ => none x, fun x no => (nomatch no),
        fun x more => ?_, fun _ x => ⟨rfl, rfl, rfl⟩⟩
      have no : (h.q x).reading.isSome := more
      rw [idle x] at no
      nomatch no
  · rename_i some_
    cases ran
    exact ⟨strand, qref, fresh, opened, reading, fun zero => absurd ⟨zero .data0, zero .data1⟩ some_⟩

theorem Inv.idle_of_alone (inv : p.Inv) (there : p.chans[i]? = some (some ⟨some e, true⟩)) (alone : p.qref e = 1)
    (still : p.reader e ≠ some i) : (p.q e).reading = none := by
  cases is : (p.q e).reading with
  | none => rfl
  | some r =>
    obtain ⟨c, reader, at_⟩ := inv.reading e (by rw [is]; rfl)
    have ne : i ≠ c := fun same => still (same ▸ reader)
    have count := opens_clear there e
    rw [if_pos rfl, ← inv.qref, alone] at count
    have pos : 0 < (p.chans.set i none).count (some ⟨some e, true⟩) :=
      List.count_pos_iff.mpr (List.mem_of_getElem? (i := c) (by rw [List.getElem?_set_ne ne]; exact at_))
    omega

/-- The last channel of the pipe is closed on the end `e`. The other end was
opened too, or nothing was written to it. -/
def Left (p : Pipe) (e : End) : Prop := p.qref e = 1 → p.qref e.other = 0 → p.life e.other = .fresh → p.wrote e = []

instance (p : Pipe) (e : End) : Decidable (p.Left e) :=
  inferInstanceAs (Decidable (p.qref e = 1 → p.qref e.other = 0 → p.life e.other = .fresh → p.wrote e = []))

theorem Inv.hangup {h r : Pipe} (inv : p.Inv) (left : p.Left e) (there : p.chans[i]? = some (some ⟨some e, true⟩))
    (still : ∀ x, p.reader x ≠ some i) (hung : p.hangup e = some h) (ran : h.reopen = some r) :
    Inv { r.setChan i none with ref := r.ref - 1 } := by
  have pos : 0 < p.qref e := inv.qref e ▸ opens_pos there
  have count (x : End) : Function.update p.qref e (p.qref e - 1) x = (p.chans.set i none).count (some ⟨some x, true⟩) := by
    have set := opens_clear there x
    rw [← inv.qref] at set
    rcases eq_or_other e x with rfl | rfl
    · rw [if_pos rfl] at set
      rw [Function.update_self]
      omega
    · rw [if_neg (by simpa using (other_ne e).symm)] at set
      rw [Function.update_of_ne (other_ne e)]
      omega
  have reading (x : End) (more : (p.q x).reading.isSome) :
      ∃ c, p.reader x = some c ∧ (p.chans.set i none)[c]? = some (some ⟨some x, true⟩) := by
    obtain ⟨c, reader, at_⟩ := inv.reading x more
    have ne : i ≠ c := fun same => still x (same ▸ reader)
    exact ⟨c, reader, by rw [List.getElem?_set_ne ne]; exact at_⟩
  unfold Pipe.hangup at hung
  simp only [Function.update_self] at hung
  split at hung
  · rename_i last
    have alone : p.qref e = 1 := by omega
    obtain ⟨_, both, rfl⟩ := Option.map_eq_some_iff.mp hung
    obtain ⟨_, one, two⟩ := Option.bind_eq_some_iff.mp both
    obtain ⟨m, _, hangs, rfl⟩ := onq_spec one
    obtain ⟨m', _, closes, rfl⟩ := onq_spec two
    simp only [Function.update_of_ne (other_ne e).symm] at closes
    have idle := inv.idle_of_alone there alone (still e)
    obtain ⟨strand, keeps, blocks⟩ := (inv.strand e.other).hangup hangs
    have dead := (inv.strand e).close idle closes
    have self (x : End) (P : Sys → Prop) (here : P m') (other : P m) :
        P (Function.update (Function.update p.q e.other m) e m' x) := by
      rcases eq_or_other e x with rfl | rfl
      · rw [Function.update_self]
        exact here
      · rw [Function.update_of_ne (other_ne e), Function.update_self]
        exact other
    refine inv_closed (fun x => ?_) count (fun x => ?_) (fun x => ?_) (fun x more => ?_) (fun zero x => ?_) ran
    · rcases eq_or_other e x with rfl | rfl
      · simp only [Function.update_self]
        exact dead
      · simp only [Function.update_of_ne (other_ne e), Function.update_self]
        exact strand
    · rcases eq_or_other e x with rfl | rfl
      · simp only [Function.update_self]
        exact fun no => nomatch no
      · simp only [Function.update_of_ne (other_ne e)]
        exact inv.fresh e.other
    · rcases eq_or_other e x with rfl | rfl
      · simp only [Function.update_self]
        exact fun no => nomatch no
      · simp only [Function.update_of_ne (other_ne e)]
        exact inv.opened e.other
    · rcases eq_or_other e x with rfl | rfl
      · simp only [Function.update_self, (dead.dead rfl).2.2.1] at more
        nomatch more
      · simp only [Function.update_of_ne (other_ne e), Function.update_self, keeps] at more
        exact reading e.other more
    · have none := zero e.other
      rcases eq_or_other e x with rfl | rfl
      · simp only [Function.update_self]
        exact (dead.dead rfl).2.1
      · simp only [Function.update_of_ne (other_ne e), Function.update_self, blocks] at none ⊢
        have old := inv.strand e.other
        rw [other_other] at old
        cases life : p.life e.other with
        | fresh => exact old.none life (left alone none life)
        | opened => exact absurd none (Nat.ne_of_gt (inv.opened e.other life))
        | closed => exact (old.dead life).2.1
  · rename_i more
    cases hung
    have fresh (x : End) (is : p.life x = .fresh) : Function.update p.qref e (p.qref e - 1) x = 0 := by
      rcases eq_or_other e x with rfl | rfl
      · exact absurd (inv.fresh x is) (Nat.ne_of_gt pos)
      · rw [Function.update_of_ne (other_ne e)]
        exact inv.fresh e.other is
    have opened (x : End) (is : p.life x = .opened) : 0 < Function.update p.qref e (p.qref e - 1) x := by
      rcases eq_or_other e x with rfl | rfl
      · rw [Function.update_self]
        exact Nat.pos_of_ne_zero more
      · rw [Function.update_of_ne (other_ne e)]
        exact inv.opened e.other is
    refine inv_closed (h := { p with qref := Function.update p.qref e (p.qref e - 1) }) inv.strand count fresh opened reading (fun zero => ?_) ran
    have none : Function.update p.qref e (p.qref e - 1) e = 0 := zero e
    rw [Function.update_self] at none
    exact absurd none more

theorem Inv.pipeclose (inv : p.Inv) (there : p.chans[i]? = some (some ch))
    (left : ∀ e, ch = ⟨some e, true⟩ → p.Left e) (ran : p.pipeclose i ch = some p') : p'.Inv := by
  unfold Pipe.pipeclose at ran
  split at ran
  · nomatch ran
  · rename_i busy
    have still (x : End) : p.reader x ≠ some i := by
      intro is
      cases x
      · exact busy (Or.inl is)
      · exact busy (Or.inr is)
    obtain ⟨r, both, rfl⟩ := Option.map_eq_some_iff.mp ran
    obtain ⟨h, hung, reopens⟩ := Option.bind_eq_some_iff.mp both
    split at hung
    · rename_i e file isOpen
      obtain ⟨file', isOpen'⟩ := ch
      cases file
      cases isOpen
      exact inv.hangup (left e rfl) there still hung reopens
    · rename_i other
      cases hung
      have none (x : End) : ¬ch = ⟨some x, true⟩ := by
        rintro rfl
        exact other x rfl rfl
      refine inv_closed inv.strand (fun x => ?_) inv.fresh inv.opened (fun x more => ?_) (fun zero => ?_) reopens
      · have set := opens_clear there x
        rw [if_neg (none x), Nat.add_zero] at set
        exact (inv.qref x).trans set.symm
      · obtain ⟨c, reader, at_⟩ := inv.reading x more
        have ne : i ≠ c := fun same => still x (same ▸ reader)
        exact ⟨c, reader, by rw [List.getElem?_set_ne ne]; exact at_⟩
      · exact fun x => (inv.ok.clean zero x).2.1

end Pipe

namespace PipeAct

variable {p p' : Pipe} {a : PipeAct}

/-- A close that leaves no end open is of an end whose other end was opened too
since both were last closed, or on which nothing was written since. -/
def Drained (a : PipeAct) (p : Pipe) : Prop :=
  match a with
  | close c => ∀ e, side p c = some e → p.Left e
  | _ => True

theorem side_spec {c : Nat} {e : End} (is : side p c = some e) : p.chans[c]? = some (some ⟨some e, true⟩) := by
  obtain ⟨ch, found, file⟩ := Option.bind_eq_some_iff.mp is
  obtain ⟨there, isOpen⟩ := Option.filter_eq_some_iff.mp found
  obtain ⟨file', isOpen'⟩ := ch
  cases file
  cases isOpen
  exact Option.join_eq_some_iff.mp there

theorem exec_inv (inv : p.Inv) (drained : a.Drained p) (ran : a.exec p = some p') : p'.Inv := by
  cases a with
  | walk c names =>
    obtain ⟨ch, there, ran⟩ := Option.bind_eq_some_iff.mp ran
    exact inv.pipewalk ran
  | opens c omode user eve =>
    obtain ⟨ch, found, rfl⟩ := Option.map_eq_some_iff.mp ran
    obtain ⟨there, shut⟩ := Option.filter_eq_some_iff.mp found
    exact inv.pipeopen (Option.join_eq_some_iff.mp there) (by simpa using shut) omode user eve
  | close c =>
    obtain ⟨ch, there, ran⟩ := Option.bind_eq_some_iff.mp ran
    refine inv.pipeclose (Option.join_eq_some_iff.mp there) (fun e is => drained e ?_) ran
    rw [side, there, is]
    rfl
  | read c n =>
    obtain ⟨e, is, ran⟩ := Option.bind_eq_some_iff.mp ran
    exact inv.piperead (side_spec is) ran
  | readDone c =>
    obtain ⟨e, is, ran⟩ := Option.bind_eq_some_iff.mp ran
    split at ran
    · exact inv.readDone (side_spec is) ran
    · nomatch ran
  | bread c n block =>
    obtain ⟨e, is, ran⟩ := Option.bind_eq_some_iff.mp ran
    exact inv.pipebread (side_spec is) ran
  | bwrite c b =>
    obtain ⟨e, is, ran⟩ := Option.bind_eq_some_iff.mp ran
    exact inv.pipebwrite (side_spec is) ran

end PipeAct

namespace Pipe

variable {p : Pipe}

/-- In every run in which the pipe is drained when it is last closed. -/
theorem pipe_ok (user : String) (run : Run PipeAct.exec PipeAct.Drained (pipeattach user) p) : p.Ok :=
  (run.invariant Inv (inv_attach user) fun inv drained ran => PipeAct.exec_inv inv drained ran).ok

/-- Two bytes through the pipe, of which one is read, and another byte through it
when it is opened again. -/
theorem pipe_ok_again : ∃ p, Run PipeAct.exec PipeAct.Drained (pipeattach "inferno") p ∧
    p.got .data1 = [99] ∧ (p.wrote .data0).flatten = [99] ∧ p.Ok := by
  have run₀ : Run PipeAct.exec PipeAct.Drained (pipeattach "inferno") (pipeattach "inferno") := Run.start
  have run₁ := run₀.step (a := PipeAct.walk 0 ["data"]) trivial rfl
  have run₂ := run₁.step (a := PipeAct.walk 0 ["data1"]) trivial rfl
  have run₃ := run₂.step (a := PipeAct.opens 1 2 "inferno" "inferno") trivial rfl
  have run₄ := run₃.step (a := PipeAct.opens 2 2 "inferno" "inferno") trivial rfl
  have run₅ := run₄.step (a := PipeAct.bwrite 1 (newBlock 1 [97, 98])) trivial rfl
  have run₆ := run₅.step (a := PipeAct.bread 2 1 (some 2)) trivial rfl
  have run₇ := run₆.step (a := PipeAct.close 2) (fun e is => by cases is; decide) rfl
  have run₈ := run₇.step (a := PipeAct.close 1) (fun e is => by cases is; decide) rfl
  have run₉ := run₈.step (a := PipeAct.walk 0 ["data"]) trivial rfl
  have run₁₀ := run₉.step (a := PipeAct.walk 0 ["data1"]) trivial rfl
  have run₁₁ := run₁₀.step (a := PipeAct.opens 3 2 "inferno" "inferno") trivial rfl
  have run₁₂ := run₁₁.step (a := PipeAct.opens 4 2 "inferno" "inferno") trivial rfl
  have run₁₃ := run₁₂.step (a := PipeAct.bwrite 3 (newBlock 3 [99])) trivial rfl
  have run₁₄ := run₁₃.step (a := PipeAct.read 4 8) trivial rfl
  have run₁₅ := run₁₄.step (a := PipeAct.readDone 4) trivial rfl
  exact ⟨_, run₁₅, by decide, by decide, pipe_ok "inferno" run₁₅⟩

/-- One end is written on and closed, and the other is opened only then. -/
theorem pipe_stale : ∃ p p', Run PipeAct.exec (fun _ _ => True) (pipeattach "inferno") p ∧
    p.qref .data0 = 0 ∧ p.qref .data1 = 0 ∧ bytes (p.q .data1).q.blocks = [97] ∧ ¬p.Ok ∧
    Run PipeAct.exec (fun _ _ => True) (pipeattach "inferno") p' ∧
    p'.got .data1 = [97] ∧ p'.wrote .data0 = [] ∧ ¬p'.Ok := by
  have run₀ : Run PipeAct.exec (fun _ _ => True) (pipeattach "inferno") (pipeattach "inferno") := Run.start
  have run₁ := run₀.step (a := PipeAct.walk 0 ["data"]) trivial rfl
  have run₂ := run₁.step (a := PipeAct.opens 1 2 "inferno" "inferno") trivial rfl
  have run₃ := run₂.step (a := PipeAct.bwrite 1 (newBlock 1 [97])) trivial rfl
  have run₄ := run₃.step (a := PipeAct.close 1) trivial rfl
  have run₅ := run₄.step (a := PipeAct.walk 0 ["data1"]) trivial rfl
  have run₆ := run₅.step (a := PipeAct.opens 2 2 "inferno" "inferno") trivial rfl
  have run₇ := run₆.step (a := PipeAct.read 2 8) trivial rfl
  have run₈ := run₇.step (a := PipeAct.readDone 2) trivial rfl
  refine ⟨_, _, run₄, by decide, by decide, by decide, fun ok => ?_, run₈, by decide, by decide, fun ok => ?_⟩
  · have empty := (ok.clean (fun e => by cases e <;> decide) .data1).2.1
    revert empty
    decide
  · have crossed := ok.crossed .data1
    revert crossed
    decide

end Pipe

end Inferno.Dev
