import Inferno.Lib.Run

namespace Inferno.Emu

section Sleep

/-- Where the process is. In `Sleep` on the `Rendez` `r` for the condition `c` it has `rlock`
(`entered`), is in `r->p` (`queued`), in `osblock`, after it (`woken`), and before the test of the
flags. In a system call it is in `host`, and in `osleave` it has still to clear `syscall`
(`leaving`) and to wait for the note. -/
inductive SleepPc
  | idle
  | entered (r c : Nat)
  | queued (r c : Nat)
  | osblock (r c : Nat)
  | woken (r : Nat)
  | flags
  | host
  | leaving
  | waitnote
deriving DecidableEq

/-- Where a call of `swiproc` is: it has `rlock` and has read `p->r`, it has given `rlock` back
as `p->r` was nil, or it has to send the note. -/
inductive Swi
  | idle
  | taken (r : Option Nat)
  | sysio
  | note
deriving DecidableEq

/-- The process of `Sleep`, the conditions it waits for, and those that interrupt it. `rp r` is
`r->p == up`. Not in the source: `rung r c`, that `c` is true and there was a `Wakeup(r)` since it
became so; the numbers of `osblock`, `osready` and `Eintr` in `Sleep`; those of the calls of
`swiproc` and of the flags they set. -/
structure Sleeper where
  pc : SleepPc
  rlock : Bool
  rp : Nat → Bool
  r : Option Nat
  killed : Bool
  swipend : Bool
  syscall : Bool
  intwait : Bool
  signalled : Bool
  sem : Nat
  panicked : Bool
  cond : Nat → Bool
  swi : Nat → Swi
  rung : Nat → Nat → Bool
  osblocks : Nat
  osreadys : Nat
  eintrs : Nat
  calls : Nat
  marks : Nat

namespace Sleeper

def osready (s : Sleeper) : Sleeper := { s with sem := s.sem + 1, osreadys := s.osreadys + 1 }

def setSwi (s : Sleeper) (i : Nat) (at_ : Swi) : Sleeper := { s with swi := Function.update s.swi i at_ }

/-- The section of `Sleep` under `r->l`. -/
def check (s : Sleeper) (r c : Nat) : Sleeper :=
  if s.killed ∨ s.cond c then { s with pc := .flags }
  else if s.rp r then { s with panicked := true }
  else { s with rp := Function.update s.rp r true, pc := .queued r c, osblocks := s.osblocks + 1 }

/-- The rest of the section under `rlock`, up to `osblock`. -/
def queue (s : Sleeper) (r c : Nat) : Sleeper :=
  { s with swipend := false, r := some r, rlock := false, pc := .osblock r c }

/-- The end of `Sleep`. -/
def testflags (s : Sleeper) : Sleeper :=
  if s.killed ∨ s.swipend then
    { s with killed := false, swipend := false, rlock := false, pc := .idle, eintrs := s.eintrs + 1 }
  else { s with rlock := false, pc := .idle }

def wakeup (s : Sleeper) (r : Nat) : Sleeper :=
  let s := { s with rung := fun r' c => s.rung r' c || r' == r && s.cond c }
  if s.rp r then { s with rp := Function.update s.rp r false }.osready else s

/-- `swiproc` up to its reading of `p->r`. -/
def swiproc (s : Sleeper) (i : Nat) (interp : Bool) : Sleeper :=
  { s with rlock := true, killed := s.killed || !interp, calls := s.calls + 1,
           marks := if interp then s.marks else s.marks + 1 }.setSwi i (.taken s.r)

/-- The section of `swiproc` under `r->l`, and its `unlock(&p->rlock)`. -/
def pull (s : Sleeper) (i : Nat) (r : Option Nat) : Sleeper :=
  match r with
  | none => { s with rlock := false }.setSwi i .sysio
  | some r =>
    if s.rp r then
      { s with swipend := true, marks := s.marks + 1, rp := Function.update s.rp r false,
               rlock := false }.osready.setSwi i .idle
    else { s with rlock := false }.setSwi i .idle

/-- The section of `swiproc` under `sysio`. -/
def hostintr (s : Sleeper) (i : Nat) : Sleeper :=
  if s.syscall ∧ s.intwait = false then { s with swipend := true, intwait := true, marks := s.marks + 1 }.setSwi i .note
  else s.setSwi i .idle

/-- A condition becomes true or false. -/
def setCond (s : Sleeper) (c : Nat) (value : Bool) : Sleeper :=
  { s with cond := Function.update s.cond c value, rung := fun r c' => s.rung r c' && (c' != c || value) }

def init (cond : Nat → Bool) : Sleeper :=
  { pc := .idle, rlock := false, rp := fun _ => false, r := none, killed := false, swipend := false, syscall := false,
    intwait := false, signalled := false, sem := 0, panicked := false, cond, swi := fun _ => .idle,
    rung := fun _ _ => false, osblocks := 0, osreadys := 0, eintrs := 0, calls := 0, marks := 0 }

end Sleeper

/-- Steps of the process, of wakers, of interrupters `i`, of the handler of the note, and of
what the conditions are about. -/
inductive SleepAct
  | sleep (r c : Nat)
  | check
  | queue
  | osblock
  | relock
  | testflags
  | notkilled
  | osenter
  | osleave
  | clear
  | noted
  | wakeup (r : Nat)
  | swiproc (i : Nat) (interp : Bool)
  | pull (i : Nat)
  | hostintr (i : Nat)
  | oshostintr (i : Nat)
  | handler
  | setCond (c : Nat) (value : Bool)

def SleepAct.exec (a : SleepAct) (s : Sleeper) : Option Sleeper :=
  match a with
  | sleep r c => if s.pc = .idle ∧ s.rlock = false then some { s with rlock := true, pc := .entered r c } else none
  | check => match s.pc with
    | .entered r c => some (s.check r c)
    | _ => none
  | queue => match s.pc with
    | .queued r c => some (s.queue r c)
    | _ => none
  | osblock => match s.pc with
    | .osblock r _ => if s.sem = 0 then none else some { s with sem := s.sem - 1, pc := .woken r }
    | _ => none
  | relock => match s.pc with
    | .woken _ => if s.rlock then none else some { s with rlock := true, r := none, pc := .flags }
    | _ => none
  | testflags => if s.pc = .flags then some s.testflags else none
  | notkilled => if s.pc = .idle ∧ s.rlock = false then some { s with killed := false } else none
  | osenter => if s.pc = .idle then some { s with syscall := true, pc := .host } else none
  | osleave => if s.pc = .host ∧ s.rlock = false then some { s with swipend := false, pc := .leaving } else none
  | clear => if s.pc = .leaving then some { s with syscall := false, pc := .waitnote } else none
  | noted => if s.pc = .waitnote ∧ s.intwait = false then some { s with pc := .idle } else none
  | wakeup r => some (s.wakeup r)
  | swiproc i interp => if s.swi i = .idle ∧ s.rlock = false then some (s.swiproc i interp) else none
  | pull i => match s.swi i with
    | .taken r => some (s.pull i r)
    | _ => none
  | hostintr i => if s.swi i = .sysio then some (s.hostintr i) else none
  | oshostintr i => if s.swi i = .note then some ({ s with signalled := true }.setSwi i .idle) else none
  | handler => if s.signalled then some { s with signalled := false, intwait := false } else none
  | setCond c value => some (s.setCond c value)

/-- Between its being put into `r->p` and the return of `osblock`. -/
def SleepPc.Blocking : SleepPc → Prop
  | queued _ _ => True
  | osblock _ _ => True
  | _ => False

/-- What `Sleep`, `Wakeup` and `swiproc` promise. Every `osblock` gets one `osready`; a process that
waits for a condition for which the `Wakeup` came can go on, past `rlock` as well; and there is no
`Eintr` without a flag that a call of `swiproc` has set for it. -/
structure Sleeper.Ok (s : Sleeper) : Prop where
  single : s.panicked = false
  outside : ¬s.pc.Blocking → s.sem = 0 ∧ s.osreadys = s.osblocks
  inside : s.pc.Blocking → s.sem ≤ 1 ∧ s.osreadys + 1 = s.osblocks + s.sem
  awake : ∀ r c, s.pc = .osblock r c → s.rung r c = true → (SleepAct.osblock.exec s).isSome
  released : s.rlock = true → (SleepAct.check.exec s).isSome ∨ (SleepAct.queue.exec s).isSome ∨
    (SleepAct.testflags.exec s).isSome ∨ ∃ i, ((SleepAct.pull i).exec s).isSome
  eintr : s.eintrs ≤ s.marks ∧ (0 < s.eintrs → 0 < s.calls)

end Sleep

section SleepInv

variable {r r' c i : Nat}

/-- The process has `rlock`. -/
@[grind =] def SleepPc.Holds : SleepPc → Prop
  | entered _ _ => True
  | queued _ _ => True
  | flags => True
  | _ => False

/-- It was put into `r->p` for the `osblock` that it is in, or that comes next. -/
@[grind =] def SleepPc.At (r : Nat) : SleepPc → Prop
  | queued r' _ => r' = r
  | osblock r' _ => r' = r
  | _ => False

theorem SleepPc.At.same {pc : SleepPc} (here : pc.At r) (there : pc.At r') : r = r' := by
  cases pc with
  | queued _ _ => exact Eq.trans (Eq.symm here) there
  | osblock _ _ => exact Eq.trans (Eq.symm here) there
  | _ => exact False.elim here

/-- What is in `up->r`. -/
@[grind =] def SleepPc.rendez : SleepPc → Option Nat
  | osblock r _ => some r
  | woken r => some r
  | _ => none

@[grind =] def Swi.Holds : Swi → Prop
  | taken _ => True
  | _ => False

attribute [grind =] SleepPc.Blocking
attribute [grind →] SleepPc.At.same

namespace Sleeper

/-- `owner` has `rlock`: the process, or a call of `swiproc`. -/
structure Inv (s : Sleeper) (owner : Option (Option Nat)) : Prop where
  single : s.panicked = false
  locked : s.rlock = owner.isSome
  mine : s.pc.Holds ↔ owner = some none
  theirs : ∀ i, (s.swi i).Holds ↔ owner = some (some i)
  read : ∀ i r, s.swi i = .taken r → r = s.r
  upr : s.r = s.pc.rendez
  registered : ∀ r, s.rp r = true → s.pc.At r
  outside : ¬s.pc.Blocking → s.sem = 0 ∧ s.osreadys = s.osblocks
  waits : ∀ r, s.pc.At r → s.rp r = true → s.sem = 0 ∧ s.osreadys + 1 = s.osblocks
  pulled : ∀ r, s.pc.At r → s.rp r = false → s.sem = 1 ∧ s.osreadys = s.osblocks
  rung : ∀ r c, s.rung r c = true → s.cond c = true
  heard : ∀ r c, s.pc = .queued r c ∨ s.pc = .osblock r c → s.rung r c = true → s.rp r = false
  marked : s.eintrs + s.killed.toNat + s.swipend.toNat ≤ s.marks
  called : 0 < s.marks → 0 < s.calls
  caller : ∀ i, s.swi i ≠ .idle → 0 < s.calls

variable {s s' : Sleeper} {owner : Option (Option Nat)}

namespace Inv

theorem sleep (inv : s.Inv owner) (here : s.pc = .idle) (free : s.rlock = false) :
    Inv { s with rlock := true, pc := .entered r c } (some none) := by
  obtain ⟨single, locked, mine, theirs, read, upr, registered, outside, waits, pulled, rung, heard, marked, called,
    caller⟩ := inv
  constructor <;> grind -ring -linarith

theorem check (inv : s.Inv owner) (here : s.pc = .entered r c) : (s.check r c).Inv owner := by
  obtain ⟨single, locked, mine, theirs, read, upr, registered, outside, waits, pulled, rung, heard, marked, called,
    caller⟩ := inv
  have nobody : ∀ r, s.rp r = false := fun r => Bool.eq_false_iff.mpr fun is => by
    have at_ := registered r is
    rw [here] at at_
    exact at_
  unfold Sleeper.check
  split
  · constructor <;> grind -ring -linarith
  · rw [if_neg (by simp [nobody])]
    constructor <;> grind -ring -linarith [Function.update_apply]

theorem queue (inv : s.Inv owner) (here : s.pc = .queued r c) : (s.queue r c).Inv none := by
  obtain ⟨single, locked, mine, theirs, read, upr, registered, outside, waits, pulled, rung, heard, marked, called,
    caller⟩ := inv
  unfold Sleeper.queue
  constructor <;> grind -ring -linarith

theorem osblock (inv : s.Inv owner) (here : s.pc = .osblock r c) (signalled : s.sem ≠ 0) :
    Inv { s with sem := s.sem - 1, pc := .woken r } owner := by
  obtain ⟨single, locked, mine, theirs, read, upr, registered, outside, waits, pulled, rung, heard, marked, called,
    caller⟩ := inv
  constructor <;> grind -ring -linarith

theorem relock (inv : s.Inv owner) (here : s.pc = .woken r) (free : s.rlock = false) :
    Inv { s with rlock := true, r := none, pc := .flags } (some none) := by
  obtain ⟨single, locked, mine, theirs, read, upr, registered, outside, waits, pulled, rung, heard, marked, called,
    caller⟩ := inv
  constructor <;> grind -ring -linarith

theorem testflags (inv : s.Inv owner) (here : s.pc = .flags) : s.testflags.Inv none := by
  obtain ⟨single, locked, mine, theirs, read, upr, registered, outside, waits, pulled, rung, heard, marked, called,
    caller⟩ := inv
  unfold Sleeper.testflags
  split <;> constructor <;> grind -ring -linarith [Bool.toNat]

theorem wakeup (inv : s.Inv owner) : (s.wakeup r).Inv owner := by
  obtain ⟨single, locked, mine, theirs, read, upr, registered, outside, waits, pulled, rung, heard, marked, called,
    caller⟩ := inv
  unfold Sleeper.wakeup
  dsimp only [osready]
  split <;> constructor <;> grind -ring -linarith [Function.update_apply]

theorem swiproc {interp : Bool} (inv : s.Inv owner) (here : s.swi i = .idle) (free : s.rlock = false) :
    (s.swiproc i interp).Inv (some (some i)) := by
  obtain ⟨single, locked, mine, theirs, read, upr, registered, outside, waits, pulled, rung, heard, marked, called,
    caller⟩ := inv
  unfold Sleeper.swiproc
  dsimp only [setSwi]
  constructor <;> grind -ring -linarith [Function.update_apply, Bool.toNat]

theorem pull {r : Option Nat} (inv : s.Inv owner) (here : s.swi i = .taken r) : (s.pull i r).Inv none := by
  obtain ⟨single, locked, mine, theirs, read, upr, registered, outside, waits, pulled, rung, heard, marked, called,
    caller⟩ := inv
  unfold Sleeper.pull
  cases r with
  | none =>
    dsimp only [setSwi]
    constructor <;> grind -ring -linarith [Function.update_apply]
  | some r =>
    dsimp only [setSwi, osready]
    split <;> constructor <;> grind -ring -linarith [Function.update_apply, Bool.toNat]

theorem hostintr (inv : s.Inv owner) (here : s.swi i = .sysio) : (s.hostintr i).Inv owner := by
  obtain ⟨single, locked, mine, theirs, read, upr, registered, outside, waits, pulled, rung, heard, marked, called,
    caller⟩ := inv
  unfold Sleeper.hostintr
  dsimp only [setSwi]
  split <;> constructor <;> grind -ring -linarith [Function.update_apply, Bool.toNat]

theorem oshostintr (inv : s.Inv owner) (here : s.swi i = .note) :
    Inv ({ s with signalled := true }.setSwi i .idle) owner := by
  obtain ⟨single, locked, mine, theirs, read, upr, registered, outside, waits, pulled, rung, heard, marked, called,
    caller⟩ := inv
  dsimp only [setSwi]
  constructor <;> grind -ring -linarith [Function.update_apply]

theorem setCond {value : Bool} (inv : s.Inv owner) : (s.setCond c value).Inv owner := by
  obtain ⟨single, locked, mine, theirs, read, upr, registered, outside, waits, pulled, rung, heard, marked, called,
    caller⟩ := inv
  unfold Sleeper.setCond
  constructor <;> grind -ring -linarith [Function.update_apply]

theorem notkilled (inv : s.Inv owner) : Inv { s with killed := false } owner := by
  obtain ⟨single, locked, mine, theirs, read, upr, registered, outside, waits, pulled, rung, heard, marked, called,
    caller⟩ := inv
  have less : s.eintrs + false.toNat + s.swipend.toNat ≤ s.marks := by
    dsimp only [Bool.toNat_false]
    omega
  exact ⟨single, locked, mine, theirs, read, upr, registered, outside, waits, pulled, rung, heard, less, called, caller⟩

/-- The steps outside of `Sleep` that do not take `rlock` for longer. -/
theorem move {pc : SleepPc} {swipend syscall : Bool} (inv : s.Inv owner)
    (here : s.pc = .idle ∨ s.pc = .host ∨ s.pc = .leaving ∨ s.pc = .waitnote)
    (there : pc = .idle ∨ pc = .host ∨ pc = .leaving ∨ pc = .waitnote) (less : swipend = true → s.swipend = true) :
    Inv { s with pc, swipend, syscall } owner := by
  obtain ⟨single, locked, mine, theirs, read, upr, registered, outside, waits, pulled, rung, heard, marked, called,
    caller⟩ := inv
  have fewer : swipend.toNat ≤ s.swipend.toNat := by
    cases swipend
    · exact Nat.zero_le _
    · simp [less rfl]
  constructor <;> grind -ring -linarith

theorem init {cond : Nat → Bool} : (Sleeper.init cond).Inv none := by
  constructor <;> simp [Sleeper.init, SleepPc.Holds, Swi.Holds, SleepPc.rendez, SleepPc.At]

theorem exec {a : SleepAct} (inv : s.Inv owner) (ran : a.exec s = some s') : ∃ owner, s'.Inv owner := by
  unfold SleepAct.exec at ran
  cases a <;> dsimp only at ran
  case sleep r c =>
    split at ran
    · rename_i here
      cases ran
      exact ⟨_, inv.sleep here.1 here.2⟩
    · contradiction
  case check =>
    split at ran
    · cases ran
      exact ⟨_, inv.check ‹_›⟩
    · contradiction
  case queue =>
    split at ran
    · cases ran
      exact ⟨_, inv.queue ‹_›⟩
    · contradiction
  case osblock =>
    split at ran
    · split at ran
      · contradiction
      · cases ran
        exact ⟨_, inv.osblock ‹_› ‹_›⟩
    · contradiction
  case relock =>
    split at ran
    · split at ran
      · contradiction
      · rename_i here free
        cases ran
        exact ⟨_, inv.relock here (Bool.eq_false_iff.mpr free)⟩
    · contradiction
  case testflags =>
    split at ran
    · cases ran
      exact ⟨_, inv.testflags ‹_›⟩
    · contradiction
  case notkilled =>
    split at ran
    · cases ran
      exact ⟨_, inv.notkilled⟩
    · contradiction
  case osenter =>
    split at ran
    · rename_i here
      cases ran
      exact ⟨_, inv.move (Or.inl here) (Or.inr (Or.inl rfl)) id⟩
    · contradiction
  case osleave =>
    split at ran
    · rename_i here
      cases ran
      exact ⟨_, inv.move (Or.inr (Or.inl here.1)) (Or.inr (Or.inr (Or.inl rfl))) nofun⟩
    · contradiction
  case clear =>
    split at ran
    · rename_i here
      cases ran
      exact ⟨_, inv.move (Or.inr (Or.inr (Or.inl here))) (Or.inr (Or.inr (Or.inr rfl))) id⟩
    · contradiction
  case noted =>
    split at ran
    · rename_i here
      cases ran
      exact ⟨_, inv.move (Or.inr (Or.inr (Or.inr here.1))) (Or.inl rfl) id⟩
    · contradiction
  case wakeup r =>
    cases ran
    exact ⟨_, inv.wakeup⟩
  case swiproc i interp =>
    split at ran
    · rename_i here
      cases ran
      exact ⟨_, inv.swiproc here.1 here.2⟩
    · contradiction
  case pull i =>
    split at ran
    · cases ran
      exact ⟨_, inv.pull ‹_›⟩
    · contradiction
  case hostintr i =>
    split at ran
    · cases ran
      exact ⟨_, inv.hostintr ‹_›⟩
    · contradiction
  case oshostintr i =>
    split at ran
    · cases ran
      exact ⟨_, inv.oshostintr ‹_›⟩
    · contradiction
  case handler =>
    split at ran
    · cases ran
      exact ⟨owner, by cases inv; constructor <;> assumption⟩
    · contradiction
  case setCond c value =>
    cases ran
    exact ⟨_, inv.setCond⟩

/-- Whoever has `rlock` can go on. -/
theorem released (inv : s.Inv owner) (locked : s.rlock = true) : (SleepAct.check.exec s).isSome ∨
    (SleepAct.queue.exec s).isSome ∨ (SleepAct.testflags.exec s).isSome ∨ ∃ i, ((SleepAct.pull i).exec s).isSome := by
  have owned := inv.locked.symm.trans locked
  cases holder : owner with
  | none => simp [holder] at owned
  | some party =>
    cases party with
    | none =>
      have holds := inv.mine.mpr holder
      cases here : s.pc with
      | entered r c => exact Or.inl (by simp [SleepAct.exec, here])
      | queued r c => exact Or.inr (Or.inl (by simp [SleepAct.exec, here]))
      | flags => exact Or.inr (Or.inr (Or.inl (by simp [SleepAct.exec, here])))
      | _ => simp [here, SleepPc.Holds] at holds
    | some i =>
      have holds := (inv.theirs i).mpr holder
      cases here : s.swi i with
      | taken r => exact Or.inr (Or.inr (Or.inr ⟨i, by simp [SleepAct.exec, here]⟩))
      | _ => simp [here, Swi.Holds] at holds

theorem ok (inv : s.Inv owner) : s.Ok where
  single := inv.single
  outside := inv.outside
  inside blocking := by
    obtain ⟨r, at_⟩ : ∃ r, s.pc.At r := by
      cases here : s.pc <;> simp [here, SleepPc.Blocking, SleepPc.At] at blocking ⊢
    cases still : s.rp r with
    | true => have := inv.waits r at_ still; omega
    | false => have := inv.pulled r at_ still; omega
  awake r c here rung := by
    have pulled := (inv.pulled r (by rw [here]; rfl) (inv.heard r c (Or.inr here) rung)).1
    simp [SleepAct.exec, here, pulled]
  released := inv.released
  eintr := by
    have marked := inv.marked
    refine ⟨by omega, fun some_ => inv.called (by omega)⟩

end Inv

/-- In every run every `osblock` gets its `osready`, no `Wakeup` is lost, and no `Eintr` comes without a `swiproc`. -/
theorem sleep_ok {cond : Nat → Bool} (run : Lib.Run SleepAct.exec (fun _ _ => True) (init cond) s) : s.Ok := by
  obtain ⟨owner, inv⟩ := run.invariant (fun s => ∃ owner, s.Inv owner) ⟨none, Inv.init⟩
    fun ⟨_, inv⟩ _ ran => inv.exec ran
  exact inv.ok

/-- A `Wakeup` and a `swiproc` race for the process: it gets one `osready`, and `Eintr` for the flag. -/
theorem sleep_ok_race : ∃ s : Sleeper, s.pc = .idle ∧ s.eintrs = 1 ∧ s.osreadys = 1 ∧ s.Ok :=
  have ran : Lib.Run.steps SleepAct.exec [.sleep 0 0, .check, .queue, .swiproc 0 false, .setCond 0 true,
      .wakeup 0, .pull 0, .osblock, .relock, .testflags] (init fun _ => false) = some _ := rfl
  ⟨_, rfl, rfl, rfl, sleep_ok (Lib.Run.of_steps ran)⟩

end Sleeper

end SleepInv

end Inferno.Emu
