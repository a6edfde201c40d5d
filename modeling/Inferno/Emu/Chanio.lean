import Inferno.Lib.Run

namespace Inferno.Emu.Chanio

open Lib

/-- A value stored in a `vlong`. -/
def vlong (x : Int) : Int := x.bmod (2 ^ 64)

/-- Where a call is between two of its steps; with `own` the call is without an offset of its own argument. -/
inductive Call where
  | idle
  | rewinds
  | reads (own : Bool) (off : Int)
  | adds (own : Bool) (m : Int)
  | writes (own : Bool) (n off : Int)
  | takesBack (k : Int)
  deriving DecidableEq

/-- A channel shared by processes, and their calls. `mark` is the offset set by the last seek plus the bytes that reads
and writes have transferred since, `used` lists the offset of each of their device operations with the mark then, and
`moved` tells that a `pread` has changed the offset. -/
structure State where
  dir : Bool
  umh : Bool
  offset : Int
  calls : Nat → Call
  mark : Int
  used : List (Int × Int)
  moved : Bool

inductive Act where
  | read (p : Nat)
  | pread (p : Nat) (off : Int64)
  | rewind (p : Nat)
  | device (p : Nat) (r : Option Int)
  | add (p : Nat)
  | write (p n : Nat)
  | pwrite (p n : Nat) (off : Int64)
  | takeBack (p : Nat)
  | seek (whence : Nat) (off length : Int64)

def State.set (s : State) (p : Nat) (c : Call) : State := { s with calls := Function.update s.calls p c }

/-- The state at the start of a call of a process. -/
def State.call (s : State) (p : Nat) (s' : State) : Option State := if s.calls p = .idle then some s' else none

/-- A device operation of a call at `off` ends. -/
def State.transfer (s : State) (own : Bool) (off : Int) (r : Option Int) : State :=
  if own then { s with mark := s.mark + max (r.getD 0) 0, used := (off, s.mark) :: s.used } else s

/-- `c->offset = off` of `kseek`. -/
def State.sought (s : State) (off : Int) : State := { s with offset := off, mark := off }

/-- One step of `rread`, of `rwrite`, or `kseek`. A union is read where `unionread` is in it, whatever the offset. -/
def exec : Act → State → Option State
  | .read p, s => s.call p <|
      if s.dir ∧ s.umh then s
      else if s.offset < 0 then s
      else if s.offset = 0 then s.set p .rewinds
      else s.set p (.reads true s.offset)
  | .pread p off, s => s.call p <|
      if s.dir ∧ s.umh then s
      else if off.toInt < 0 then s
      else s.set p (.reads false off.toInt)
  | .rewind p, s =>
      match s.calls p with
      | .rewinds => some ({ s with offset := 0 }.set p (.reads true 0))
      | _ => none
  | .device p r, s =>
      match s.calls p with
      | .reads own off =>
          let s := s.transfer own off r
          match r with
          | none => some (s.set p .idle)
          | some m => some (s.set p (.adds own m))
      | .writes own n off =>
          let s := s.transfer own off r
          match r with
          | none => some (s.set p (if own then .takesBack n else .idle))
          | some m => some (s.set p (if own ∧ m < n then .takesBack (n - m) else .idle))
      | _ => none
  | .add p, s =>
      match s.calls p with
      | .adds own m =>
          some ({ s with offset := vlong (s.offset + m), moved := s.moved || (!own && decide (m ≠ 0)) }.set p .idle)
      | _ => none
  | .write p n, s => s.call p <|
      if s.dir then s
      else { s with offset := vlong (s.offset + n) }.set p
        (if s.offset < 0 then .takesBack n else .writes true n s.offset)
  | .pwrite p n off, s => s.call p <|
      if s.dir then s
      else if off.toInt < 0 then s
      else s.set p (.writes false n off.toInt)
  | .takeBack p, s =>
      match s.calls p with
      | .takesBack k => some ({ s with offset := vlong (s.offset - k) }.set p .idle)
      | _ => none
  | .seek whence off length, s => some <|
      match whence with
      | 0 => if s.dir then if off.toInt ≠ 0 then s else s.sought 0
          else if off.toInt < 0 then s else s.sought off.toInt
      | 1 => if s.dir ∨ vlong (off.toInt + s.offset) < 0 then s else s.sought (vlong (off.toInt + s.offset))
      | 2 => if s.dir ∨ vlong (off.toInt + length.toInt) < 0 then s else s.sought (vlong (off.toInt + length.toInt))
      | _ => s

/-- The channel is open. -/
def opened (dir umh : Bool) : State := ⟨dir, umh, 0, fun _ => .idle, 0, [], false⟩

/-- Every read and write is made where the last seek and the bytes transferred since say, and no other call has moved
the offset. -/
def Good (s : State) : Prop := (∀ x ∈ s.used, x.1 = x.2) ∧ s.moved = false

/-- The call has taken the offset, and is not done with it. -/
def Call.Pending : Call → Prop
  | .rewinds | .reads true _ | .adds true _ | .writes true _ _ | .takesBack _ => True
  | _ => False

def Free (s : State) : Prop := ∀ q, ¬(s.calls q).Pending

/-- A call takes or sets the offset only while no other one is between that and its last use of it; a device gives no
negative count and no more than was written, a `pread` gives nothing, and the offset stays a `vlong`. -/
def Apart : Act → State → Prop
  | .read _, s | .write _ _, s | .seek _ _ _, s => Free s
  | .device p (some m), s =>
      match s.calls p with
      | .reads true _ => 0 ≤ m ∧ s.mark + m < 2 ^ 63
      | .reads false _ => m = 0
      | .writes true n _ => 0 ≤ m ∧ m ≤ n ∧ s.mark + m < 2 ^ 63
      | _ => True
  | _, _ => True

variable {s s' t : State} {p n : Nat} {c : Call} {a : Act} {off m x : Int} {own : Bool}

theorem vlong_of_range (low : 0 ≤ x) (high : x < 2 ^ 63) : vlong x = x := by
  unfold vlong
  rw [Int.bmod_eq_iff (by decide)]
  refine ⟨by omega, by omega, 0, by omega⟩

theorem vlong_vlong (x : Int) : vlong (vlong x) = vlong x := Int.bmod_bmod

/-- What a call has of the offset agrees with the mark. -/
def Agrees (offset mark : Int) : Call → Prop
  | .rewinds => offset = mark ∧ mark = 0
  | .reads true off => offset = mark ∧ off = mark
  | .adds true m => vlong (offset + m) = mark
  | .adds false m => m = 0
  | .writes true n off => offset = vlong (mark + n) ∧ off = mark
  | .takesBack k => vlong (offset - k) = mark
  | _ => True

structure Inv (s : State) : Prop where
  good : Good s
  low : 0 ≤ s.mark
  high : s.mark < 2 ^ 63
  word : vlong s.offset = s.offset
  single : ∀ q r, (s.calls q).Pending → (s.calls r).Pending → q = r
  free : Free s → s.offset = s.mark
  agrees : ∀ q, Agrees s.offset s.mark (s.calls q)

theorem Agrees.of_idle {offset mark : Int} (agrees : Agrees offset mark c) (idle : ¬c.Pending) (offset' mark' : Int) :
    Agrees offset' mark' c := by
  cases c with
  | idle => trivial
  | rewinds => exact absurd trivial idle
  | reads own off => cases own with
    | false => trivial
    | true => exact absurd trivial idle
  | adds own m => cases own with
    | false => exact agrees
    | true => exact absurd trivial idle
  | writes own n off => cases own with
    | false => trivial
    | true => exact absurd trivial idle
  | takesBack k => exact absurd trivial idle

/-- No call but that of `p` has taken the offset. -/
def Alone (s : State) (p : Nat) : Prop := ∀ q, q ≠ p → ¬(s.calls q).Pending

theorem Free.alone (free : Free s) (p : Nat) : Alone s p := fun q _ => free q

theorem Inv.alone (inv : Inv s) (pending : (s.calls p).Pending) : Alone s p := fun q other here =>
  other (inv.single q p here pending)

/-- A step of the only call that has taken the offset. -/
theorem Inv.taken (inv : Inv s) (alone : Alone s p) (calls : t.calls = Function.update s.calls p c) (good : Good t)
    (low : 0 ≤ t.mark) (high : t.mark < 2 ^ 63) (word : vlong t.offset = t.offset) (agrees : Agrees t.offset t.mark c)
    (done : ¬c.Pending → t.offset = t.mark) : Inv t where
  good := good
  low := low
  high := high
  word := word
  single q r hereQ hereR := by
    rw [calls] at hereQ hereR
    have atP : ∀ q, (Function.update s.calls p c q).Pending → q = p := fun q here => by
      by_contra other
      rw [Function.update_of_ne other] at here
      exact alone q other here
    rw [atP q hereQ, atP r hereR]
  free free := by
    refine done fun pending => free p ?_
    rw [calls, Function.update_self]
    exact pending
  agrees q := by
    rw [calls]
    by_cases same : q = p
    · subst same
      rw [Function.update_self]
      exact agrees
    · rw [Function.update_of_ne same]
      exact (inv.agrees q).of_idle (alone q same) _ _

/-- A step of a call that is at an offset of its own. -/
theorem Inv.positioned (inv : Inv s) (before : ¬(s.calls p).Pending) (after : ¬c.Pending)
    (agrees : Agrees s.offset s.mark c) : Inv (s.set p c) where
  good := inv.good
  low := inv.low
  high := inv.high
  word := inv.word
  single q r hereQ hereR := by
    have old : ∀ q, (Function.update s.calls p c q).Pending → (s.calls q).Pending := fun q here => by
      by_cases same : q = p
      · subst same
        rw [Function.update_self] at here
        exact absurd here after
      · rwa [Function.update_of_ne same] at here
    exact inv.single q r (old q hereQ) (old r hereR)
  free free := by
    refine inv.free fun q here => ?_
    by_cases same : q = p
    · exact before (same ▸ here)
    · refine free q ?_
      change (Function.update s.calls p c q).Pending
      rwa [Function.update_of_ne same]
  agrees q := by
    change Agrees s.offset s.mark (Function.update s.calls p c q)
    by_cases same : q = p
    · subst same
      rw [Function.update_self]
      exact agrees
    · rw [Function.update_of_ne same]
      exact inv.agrees q

theorem call_some (ran : s.call p t = some s') : s.calls p = .idle ∧ t = s' := by
  unfold State.call at ran
  split at ran
  · exact ⟨by assumption, Option.some.inj ran⟩
  · nomatch ran

theorem Inv.read (inv : Inv s) (free : Free s) (ran : exec (.read p) s = some s') : Inv s' := by
  obtain ⟨-, rfl⟩ := call_some ran
  have same := inv.free free
  split
  · exact inv
  · split
    · exact inv
    · split
      · rename_i zero
        exact inv.taken (free.alone p) rfl inv.good inv.low inv.high inv.word ⟨same, same.symm.trans zero⟩
          fun idle => absurd trivial idle
      · exact inv.taken (free.alone p) rfl inv.good inv.low inv.high inv.word ⟨same, same⟩
          fun idle => absurd trivial idle

theorem Inv.pread {off : Int64} (inv : Inv s) (ran : exec (.pread p off) s = some s') : Inv s' := by
  obtain ⟨idle, rfl⟩ := call_some ran
  have before : ¬(s.calls p).Pending := by
    rw [idle]
    exact id
  split
  · exact inv
  · split
    · exact inv
    · exact inv.positioned before id trivial

theorem Inv.rewind (inv : Inv s) (ran : exec (.rewind p) s = some s') : Inv s' := by
  rw [exec] at ran
  split at ran
  · rename_i here
    have agrees := inv.agrees p
    rw [here] at agrees
    obtain rfl := Option.some.inj ran
    exact inv.taken (inv.alone (here ▸ trivial)) rfl inv.good inv.low inv.high rfl ⟨agrees.2.symm, agrees.2.symm⟩
      fun idle => absurd trivial idle
  · nomatch ran

theorem Inv.add (inv : Inv s) (ran : exec (.add p) s = some s') : Inv s' := by
  rw [exec] at ran
  split at ran
  · rename_i own m here
    have agrees := inv.agrees p
    rw [here] at agrees
    obtain rfl := Option.some.inj ran
    cases own with
    | true =>
      refine inv.taken (inv.alone (here ▸ trivial)) rfl ⟨inv.good.1, ?_⟩ inv.low inv.high (vlong_vlong _) trivial
        fun _ => agrees
      change (s.moved || false) = false
      rw [inv.good.2]
      rfl
    | false =>
      obtain rfl : m = 0 := agrees
      have before : ¬(s.calls p).Pending := by
        rw [here]
        exact id
      have next := inv.positioned before (c := .idle) id trivial
      have same : vlong (s.offset + 0) = s.offset := by rw [Int.add_zero, inv.word]
      have still : (s.moved || (!false && decide ((0 : Int) ≠ 0))) = s.moved := Bool.or_false _
      rw [same, still]
      exact next
  · nomatch ran

theorem Inv.write (inv : Inv s) (free : Free s) (ran : exec (.write p n) s = some s') : Inv s' := by
  obtain ⟨-, rfl⟩ := call_some ran
  have same := inv.free free
  split
  · exact inv
  · have low := inv.low
    rw [if_neg (by omega)]
    refine inv.taken (free.alone p) rfl inv.good inv.low inv.high (vlong_vlong _) ⟨?_, same⟩
      fun idle => absurd trivial idle
    change vlong (s.offset + n) = vlong (s.mark + n)
    rw [same]

theorem Inv.pwrite {off : Int64} (inv : Inv s) (ran : exec (.pwrite p n off) s = some s') : Inv s' := by
  obtain ⟨idle, rfl⟩ := call_some ran
  have before : ¬(s.calls p).Pending := by
    rw [idle]
    exact id
  split
  · exact inv
  · split
    · exact inv
    · exact inv.positioned before id trivial

theorem Inv.takeBack (inv : Inv s) (ran : exec (.takeBack p) s = some s') : Inv s' := by
  rw [exec] at ran
  split at ran
  · rename_i k here
    have agrees := inv.agrees p
    rw [here] at agrees
    obtain rfl := Option.some.inj ran
    exact inv.taken (inv.alone (here ▸ trivial)) rfl inv.good inv.low inv.high (vlong_vlong _) trivial fun _ => agrees
  · nomatch ran

/-- The device has transferred `m` bytes for the only call that has taken the offset. -/
theorem Inv.transferred {r : Option Int} (inv : Inv s) (alone : Alone s p) (same : off = s.mark)
    (low : 0 ≤ r.getD 0) (high : s.mark + r.getD 0 < 2 ^ 63) (agrees : Agrees s.offset (s.mark + r.getD 0) c)
    (done : ¬c.Pending → s.offset = s.mark + r.getD 0) : Inv ((s.transfer true off r).set p c) := by
  have sum : (s.transfer true off r).mark = s.mark + r.getD 0 := by
    change s.mark + max (r.getD 0) 0 = _
    rw [Int.max_eq_left low]
  have pos := inv.low
  refine inv.taken alone rfl ⟨fun x here => ?_, inv.good.2⟩ ?_ ?_ inv.word ?_ ?_
  · rcases List.mem_cons.mp here with rfl | old
    · exact same
    · exact inv.good.1 x old
  · change 0 ≤ (s.transfer true off r).mark
    omega
  · change (s.transfer true off r).mark < 2 ^ 63
    omega
  · change Agrees s.offset (s.transfer true off r).mark c
    rw [sum]
    exact agrees
  · change ¬c.Pending → s.offset = (s.transfer true off r).mark
    rw [sum]
    exact done

theorem Inv.device {r : Option Int} (inv : Inv s) (ok : Apart (.device p r) s) (ran : exec (.device p r) s = some s') :
    Inv s' := by
  rw [exec] at ran
  have agrees := inv.agrees p
  have low := inv.low
  have high := inv.high
  split at ran
  · rename_i own off here
    rw [here] at agrees
    cases own with
    | true =>
      have alone := inv.alone (p := p) (here ▸ trivial)
      cases r with
      | none =>
        obtain rfl := Option.some.inj ran
        exact inv.transferred (r := none) alone agrees.2 (Int.le_refl _) (by simpa using high) trivial
          fun _ => by simpa using agrees.1
      | some m =>
        obtain rfl := Option.some.inj ran
        simp only [Apart, here] at ok
        refine inv.transferred (r := some m) alone agrees.2 ok.1 ok.2 ?_ fun idle => absurd trivial idle
        change vlong (s.offset + m) = s.mark + m
        rw [agrees.1, vlong_of_range (by omega) ok.2]
    | false =>
      have before : ¬(s.calls p).Pending := by
        rw [here]
        exact id
      cases r with
      | none =>
        obtain rfl := Option.some.inj ran
        exact inv.positioned before id trivial
      | some m =>
        obtain rfl := Option.some.inj ran
        simp only [Apart, here] at ok
        exact inv.positioned before id ok
  · rename_i own n off here
    rw [here] at agrees
    cases own with
    | true =>
      have alone := inv.alone (p := p) (here ▸ trivial)
      have taken : ∀ x, vlong (s.offset - x) = vlong (s.mark + (n - x)) := fun x => by
        rw [agrees.1, vlong, vlong, Int.bmod_sub_bmod, ← Int.add_sub_assoc]
        rfl
      cases r with
      | none =>
        obtain rfl := Option.some.inj ran
        refine inv.transferred (r := none) alone agrees.2 (Int.le_refl _) (by simpa using high) ?_
          fun idle => absurd trivial idle
        change vlong (s.offset - n) = s.mark + 0
        rw [taken, Int.sub_self, vlong_of_range (by omega) (by omega)]
      | some m =>
        obtain rfl := Option.some.inj ran
        simp only [Apart, here] at ok
        obtain ⟨pos, most, fits⟩ := ok
        refine inv.transferred (r := some m) alone agrees.2 pos fits ?_ ?_
        · split
          · change vlong (s.offset - (n - m)) = s.mark + m
            rw [taken, Int.sub_sub_self, vlong_of_range (by omega) fits]
          · trivial
        · split
          · exact fun idle => absurd trivial idle
          · rename_i whole
            obtain rfl : m = n := by
              have := mt (fun less => (⟨rfl, less⟩ : True = True ∧ m < n)) (by simpa using whole)
              omega
            intro _
            change s.offset = s.mark + m
            rw [agrees.1, vlong_of_range (by omega) fits]
    | false =>
      have before : ¬(s.calls p).Pending := by
        rw [here]
        exact id
      cases r with
      | none =>
        obtain rfl := Option.some.inj ran
        exact inv.positioned before id trivial
      | some m =>
        obtain rfl := Option.some.inj ran
        exact inv.positioned before id trivial
  · nomatch ran

theorem Inv.sought (inv : Inv s) (free : Free s) (low : 0 ≤ x) (high : x < 2 ^ 63) : Inv (s.sought x) where
  good := inv.good
  low := low
  high := high
  word := vlong_of_range low high
  single := inv.single
  free _ := rfl
  agrees q := (inv.agrees q).of_idle (free q) _ _

theorem vlong_lt (x : Int) : vlong x < 2 ^ 63 := by
  have less := Int.bmod_lt (x := x) (m := 2 ^ 64) (by decide)
  unfold vlong
  omega

theorem Inv.seek {whence : Nat} {off length : Int64} (inv : Inv s) (free : Free s)
    (ran : exec (.seek whence off length) s = some s') : Inv s' := by
  obtain rfl := Option.some.inj ran
  split
  · split
    · split
      · exact inv
      · exact inv.sought free (Int.le_refl _) (by decide)
    · split
      · exact inv
      · exact inv.sought free (by omega) off.toInt_lt
  · split
    · exact inv
    · exact inv.sought free (by omega) (vlong_lt _)
  · split
    · exact inv
    · exact inv.sought free (by omega) (vlong_lt _)
  · exact inv

theorem Inv.step (inv : Inv s) (ok : Apart a s) (ran : exec a s = some s') : Inv s' := by
  cases a with
  | read p => exact inv.read ok ran
  | pread p off => exact inv.pread ran
  | rewind p => exact inv.rewind ran
  | device p r => exact inv.device ok ran
  | add p => exact inv.add ran
  | write p n => exact inv.write ok ran
  | pwrite p n off => exact inv.pwrite ran
  | takeBack p => exact inv.takeBack ran
  | seek whence off length => exact inv.seek ok ran

theorem Inv.start (dir umh : Bool) : Inv (opened dir umh) where
  good := ⟨fun _ here => (nomatch here), rfl⟩
  low := Int.le_refl _
  high := (by decide : (0 : Int) < 2 ^ 63)
  word := rfl
  single _ _ here := here.elim
  free _ := rfl
  agrees _ := trivial

/-- Reads and writes of calls that keep apart are made where the last seek and the bytes transferred since say. -/
theorem run_good (dir umh : Bool) (run : Run exec Apart (opened dir umh) s) : Good s :=
  (run.invariant Inv (Inv.start dir umh) fun inv ok ran => inv.step ok ran).good

/-- A process reads five bytes. -/
theorem run_five : Good (((((opened false false).set 0 .rewinds).set 0 (.reads true 0)).transfer true 0 (some 5)).set 0
    (.adds true 5)) := by
  have first : Run exec Apart (opened false false) ((opened false false).set 0 .rewinds) :=
    Run.start.step (a := .read 0) (fun _ => id) rfl
  have second : Run exec Apart (opened false false) (((opened false false).set 0 .rewinds).set 0 (.reads true 0)) :=
    first.step (a := .rewind 0) trivial rfl
  have fits : Apart (.device 0 (some 5)) (((opened false false).set 0 .rewinds).set 0 (.reads true 0)) := by
    change (0 : Int) ≤ 5 ∧ (0 : Int) + 5 < 2 ^ 63
    decide
  have third := second.step (a := .device 0 (some 5)) fits rfl
  exact run_good false false third

/-- A process reads five bytes with `pread` at 0; another one then reads at 5, which no seek and no transfer has
set. -/
theorem pread_moves : ∃ s, Run exec (fun _ _ => True) (opened false false) s ∧ ¬Good s := by
  have some_ : (Run.steps exec [.pread 0 0, .device 0 (some 5), .add 0, .read 1, .device 1 (some 1)]
      (opened false false)).map State.used = some [(5, 0)] := by decide
  obtain ⟨s, ran, used⟩ := Option.map_eq_some_iff.mp some_
  refine ⟨s, Run.of_steps ran, fun good => ?_⟩
  exact absurd (good.1 (5, 0) (used ▸ List.mem_cons_self)) (by decide)

end Inferno.Emu.Chanio
