import Inferno.Lib.Path
import Inferno.Lib.Run

namespace Inferno.Emu

section Isched

open Lib

/-- A kernel process. -/
abbrev Proc := Nat

/-- Where a kernel process is: `acquiring` is blocked in `acquire`, `idling` in `iyield`
or `startup`. `handed` has been taken off its queue by a section that goes on to
call `osready`, and has not yet run. `starting` is a `vmachine` before its `startup`. -/
inductive Status
  | absent
  | outside
  | starting
  | inside
  | acquiring
  | idling
  | handed
deriving DecidableEq

/-- The fields of `isched` that its lock is for, and the links of the processes. -/
structure Isched where
  idle : Bool
  nyield : Nat
  creating : Bool
  vmq : Option Proc
  vmqt : Option Proc
  idlevmq : Option Proc
  qnext : Proc → Option Proc
  status : Proc → Status

namespace Isched

def mark (s : Isched) (p : Proc) (st : Status) : Isched := { s with status := Function.update s.status p st }

def link (s : Isched) (p : Proc) (next : Option Proc) : Isched := { s with qnext := Function.update s.qnext p next }

/-- `none` is a nil dereference. -/
def acquire (s : Isched) (up : Proc) : Option Isched :=
  if s.idle then some ({ s with idle := false }.mark up .inside)
  else
    let s := s.link up none
    match s.vmq, s.vmqt with
    | some _, some t => some ({ s.link t (some up) with vmqt := some up }.mark up .acquiring)
    | some _, none => none
    | none, _ => some ({ s with vmq := some up, vmqt := some up }.mark up .acquiring)

/-- `new` is the process that `kproc` makes if it is called. -/
def release (s : Isched) (up new : Proc) : Isched :=
  match s.vmq, s.idlevmq with
  | some p, _ => ({ s with vmq := s.qnext p }.mark up .outside).mark p .handed
  | none, some p => ({ s with idlevmq := s.qnext p }.mark up .outside).mark p .handed
  | none, none =>
    let f := s.creating
    let s := { s with idle := true, creating := true }.mark up .outside
    if f then s else s.mark new .starting

def iyield (s : Isched) (up : Proc) : Isched :=
  match s.vmq with
  | none => s
  | some p =>
    let s := { s with nyield := s.nyield + 1, vmq := s.qnext p }
    (({ s.link up s.idlevmq with idlevmq := some up }).mark up .idling).mark p .handed

def startup (s : Isched) (up : Proc) : Isched :=
  let s := { s with creating := false }
  if s.idle then { s with idle := false }.mark up .inside
  else { s.link up s.idlevmq with idlevmq := some up }.mark up .idling

end Isched

/-- `run` is the end of `osblock`. Processes that do not come from `release` are made and go away. -/
inductive Act
  | acquire (up : Proc)
  | release (up new : Proc)
  | iyield (up : Proc)
  | startup (up : Proc)
  | run (p : Proc)
  | kproc (p : Proc) (st : Status)
  | pexit (p : Proc)

/-- A process that owns the interpreter releases or yields it, and one that does
not acquires it. -/
def Act.exec (a : Act) (s : Isched) : Option Isched :=
  match a with
  | acquire up => if s.status up = .outside then s.acquire up else none
  | release up new => if s.status up = .inside ∧ s.status new = .absent then some (s.release up new) else none
  | iyield up => if s.status up = .inside then some (s.iyield up) else none
  | startup up => if s.status up = .starting then some (s.startup up) else none
  | run p => if s.status p = .handed then some (s.mark p .inside) else none
  | kproc p st => if s.status p = .absent ∧ (st = .outside ∨ st = .starting) then some (s.mark p st) else none
  | pexit p => if s.status p = .outside then some (s.mark p .absent) else none

namespace Isched

/-- The process owns the interpreter or has been handed it. -/
def Owns (s : Isched) (p : Proc) : Prop := s.status p = .inside ∨ s.status p = .handed

/-- As `disinit` leaves it: nobody has run, and processes may be there. -/
structure Fresh (s : Isched) : Prop where
  idle : s.idle = true
  vmq : s.vmq = none
  idlevmq : s.idlevmq = none
  status : ∀ p, s.status p = .absent ∨ s.status p = .outside ∨ s.status p = .starting

/-- `q` and `r` are the processes on `vmq` and `idlevmq`. -/
structure Inv (s : Isched) (q r : List Proc) : Prop where
  vmq : Path s.qnext s.vmq q
  idlevmq : Path s.qnext s.idlevmq r
  last : q ≠ [] → s.vmqt = q.getLast?
  acquiring : ∀ p, p ∈ q ↔ s.status p = .acquiring
  idling : ∀ p, p ∈ r ↔ s.status p = .idling
  free : s.idle = true → ∀ p, ¬s.Owns p
  owned : s.idle = false → ∃ o, ∀ p, s.Owns p ↔ p = o

end Isched

end Isched

section IschedInv

open Lib

variable {s s' s₀ : Isched} {up new p x : Proc} {st : Status} {q r : List Proc}

namespace Isched

@[simp] theorem mark_status (s : Isched) (p x : Proc) (st : Status) :
    (s.mark p st).status x = if x = p then st else s.status x := by
  simp only [mark, Function.update_apply]

@[simp] theorem link_status (s : Isched) (p : Proc) (next : Option Proc) : (s.link p next).status = s.status := rfl

/-- The one who owns the interpreter is known. -/
theorem Inv.owner (inv : s.Inv q r) (owns : s.Owns up) : s.idle = false ∧ ∀ p, s.Owns p ↔ p = up := by
  have busy : s.idle = false := by
    cases idle : s.idle with
    | false => rfl
    | true => exact absurd owns (inv.free idle up)
  obtain ⟨o, only⟩ := inv.owned busy
  rw [(only up).mp owns]
  exact ⟨busy, only⟩

/-- A process that is not blocked is on no queue. -/
theorem Inv.queued (inv : s.Inv q r) : (p ∈ q → s.status p = .acquiring) ∧ (p ∈ r → s.status p = .idling) :=
  ⟨(inv.acquiring p).mp, (inv.idling p).mp⟩

theorem acquire_first (busy : ¬s.idle = true) (first : s.vmq = none) :
    s.acquire up = some ({ s.link up none with vmq := some up, vmqt := some up }.mark up .acquiring) := by
  simp only [acquire, if_neg busy, link, first]

theorem acquire_behind {f t : Proc} (busy : ¬s.idle = true) (first : s.vmq = some f) (tail : s.vmqt = some t) :
    s.acquire up = some ({ (s.link up none).link t (some up) with vmqt := some up }.mark up .acquiring) := by
  simp only [acquire, if_neg busy, link, first, tail]

theorem release_vmq (first : s.vmq = some p) :
    s.release up new = ({ s with vmq := s.qnext p }.mark up .outside).mark p .handed := by
  simp only [release, first]

theorem release_idlevmq (none : s.vmq = none) (first : s.idlevmq = some p) :
    s.release up new = ({ s with idlevmq := s.qnext p }.mark up .outside).mark p .handed := by
  simp only [release, none, first]

theorem iyield_vmq (first : s.vmq = some p) :
    s.iyield up = (({ { s with nyield := s.nyield + 1, vmq := s.qnext p }.link up s.idlevmq with idlevmq := some up }).mark
      up .idling).mark p .handed := by
  simp only [iyield, first]

theorem acquire_inv (inv : s.Inv q r) (outside : s.status up = .outside) :
    ∃ s', s.acquire up = some s' ∧ ∃ q, s'.Inv q r := by
  have notq : up ∉ q := fun here => by
    have acquiring := inv.queued.1 here
    rw [outside] at acquiring
    nomatch acquiring
  have notr : up ∉ r := fun here => by
    have idling := inv.queued.2 here
    rw [outside] at idling
    nomatch idling
  by_cases idle : s.idle = true
  · refine ⟨_, if_pos idle, q, inv.vmq, inv.idlevmq, inv.last, fun p => ?_, fun p => ?_, fun none => (nomatch none),
      fun _ => ⟨up, fun p => ?_⟩⟩
    · rw [mark_status, inv.acquiring p]
      grind
    · rw [mark_status, inv.idling p]
      grind
    · have nobody := inv.free idle p
      rw [Owns, mark_status]
      simp only [Owns] at nobody
      grind
  · obtain ⟨o, only⟩ := inv.owned (Bool.eq_false_iff.mpr idle)
    have other : o ≠ up := by
      intro same
      have owns := (only o).mpr rfl
      rw [same, Owns, outside] at owns
      rcases owns with inside | handed
      · nomatch inside
      · nomatch handed
    -- the owner is the one it was, and the process is behind the others
    have blocked (s' : Isched) (status : ∀ x, s'.status x = if x = up then .acquiring else s.status x)
        (same : s'.idle = s.idle) (vmq : Path s'.qnext s'.vmq (q ++ [up])) (idlevmq : Path s'.qnext s'.idlevmq r)
        (last : s'.vmqt = some up) : s'.Inv (q ++ [up]) r := by
      refine ⟨vmq, idlevmq, fun _ => by rw [last, List.getLast?_concat], fun p => ?_, fun p => ?_, fun free => ?_,
        fun _ => ⟨o, fun p => ?_⟩⟩
      · rw [status, List.mem_append, List.mem_singleton, inv.acquiring p]
        grind
      · rw [status, inv.idling p]
        grind
      · rw [same] at free
        exact absurd free idle
      · have only := only p
        simp only [Owns, status] at only ⊢
        grind
    cases first : s.vmq with
    | none =>
      have path := inv.vmq
      rw [first] at path
      have nil := path.eq_nil
      refine ⟨_, acquire_first idle first, q ++ [up], blocked _ (fun x => mark_status _ _ _ _) rfl ?_ ?_ rfl⟩
      · rw [nil]
        exact ⟨rfl, Function.update_self _ _ _⟩
      · exact inv.idlevmq.update notr none
    | some f =>
      have path := inv.vmq
      rw [first] at path
      have more : q ≠ [] := by
        rintro rfl
        nomatch path
      obtain ⟨t, last⟩ := Option.isSome_iff_exists.mp (List.getLast?_isSome.mpr more)
      have tail : s.vmqt = some t := (inv.last more).trans last
      have there : t ∉ r := fun here => by
        have acquiring := inv.queued.1 (List.mem_of_getLast? last)
        rw [inv.queued.2 here] at acquiring
        nomatch acquiring
      refine ⟨_, acquire_behind idle first tail, q ++ [up], blocked _ (fun x => mark_status _ _ _ _) rfl ?_ ?_ rfl⟩
      · exact inv.vmq.append last notq
      · exact (inv.idlevmq.update notr none).update there (some up)

/-- The owner passes the interpreter to the first on a queue. -/
theorem passed (inv : s.Inv q r) (owns : s.Owns up) (gone : st = .outside ∨ st = .idling)
    (status : ∀ x, s'.status x = if x = p then .handed else if x = up then st else s.status x) :
    ∀ x, s'.Owns x ↔ x = p := by
  intro x
  have only := (inv.owner owns).2 x
  simp only [Owns, status] at only ⊢
  grind

theorem not_owner (inv : s.Inv q r) (owns : s.Owns up) : up ∉ q ∧ up ∉ r := by
  refine ⟨fun here => ?_, fun here => ?_⟩
  · rw [Owns, inv.queued.1 here] at owns
    rcases owns with inside | handed
    · nomatch inside
    · nomatch handed
  · rw [Owns, inv.queued.2 here] at owns
    rcases owns with inside | handed
    · nomatch inside
    · nomatch handed

theorem release_inv (inv : s.Inv q r) (inside : s.status up = .inside) (absent : s.status new = .absent) :
    ∃ q r, (s.release up new).Inv q r := by
  have owns : s.Owns up := Or.inl inside
  obtain ⟨notq, notr⟩ := not_owner inv owns
  have busy := (inv.owner owns).1
  cases first : s.vmq with
  | some p =>
    rw [release_vmq first]
    have path := inv.vmq
    rw [first] at path
    obtain ⟨rest, rfl, behind⟩ := path.eq_cons
    have nodup := List.nodup_cons.mp inv.vmq.nodup
    refine ⟨rest, r, behind, inv.idlevmq, fun more => ?_, fun x => ?_, fun x => ?_, fun free => ?_, fun _ => ?_⟩
    · have last := inv.last (List.cons_ne_nil p rest)
      rw [List.getLast?_cons_of_ne_nil more] at last
      exact last
    · have here := inv.acquiring x
      rw [List.mem_cons] at here
      simp only [mark_status]
      grind
    · have acquiring := inv.queued.1 (List.mem_cons_self (a := p) (l := rest))
      rw [inv.idling x]
      simp only [mark_status]
      grind
    · nomatch busy.symm.trans free
    · exact ⟨p, passed inv owns (Or.inl rfl) fun x => by simp only [mark_status]⟩
  | none =>
    have path := inv.vmq
    rw [first] at path
    have nil := path.eq_nil
    subst nil
    cases next : s.idlevmq with
    | some p =>
      rw [release_idlevmq first next]
      have path := inv.idlevmq
      rw [next] at path
      obtain ⟨rest, rfl, behind⟩ := path.eq_cons
      have nodup := List.nodup_cons.mp inv.idlevmq.nodup
      refine ⟨[], rest, first, behind, fun more => absurd rfl more, fun x => ?_, fun x => ?_, fun free => ?_, fun _ => ?_⟩
      · have idling := inv.queued.2 (List.mem_cons_self (a := p) (l := rest))
        rw [inv.acquiring x]
        simp only [mark_status]
        grind
      · have here := inv.idling x
        rw [List.mem_cons] at here
        simp only [mark_status]
        grind
      · nomatch busy.symm.trans free
      · exact ⟨p, passed inv owns (Or.inl rfl) fun x => by simp only [mark_status]⟩
    | none =>
      have status : ∀ x, (s.release up new).status x =
          if x = new ∧ s.creating = false then .starting else if x = up then .outside else s.status x := by
        intro x
        simp only [release, first, next]
        split <;> simp_all
      have kept : (s.release up new).vmq = none ∧ (s.release up new).idlevmq = none ∧
          (s.release up new).qnext = s.qnext ∧ (s.release up new).idle = true := by
        simp only [release, first, next]
        split <;> exact ⟨rfl, rfl, rfl, rfl⟩
      obtain ⟨vmq, idlevmq, qnext, idle⟩ := kept
      have path := inv.idlevmq
      rw [next] at path
      have nil := path.eq_nil
      subst nil
      refine ⟨[], [], vmq, idlevmq, fun more => absurd rfl more, fun x => ?_, fun x => ?_, fun _ x => ?_, fun busy => ?_⟩
      · rw [inv.acquiring x, status]
        grind
      · rw [inv.idling x, status]
        grind
      · have only := (inv.owner owns).2 x
        simp only [Owns, status] at only ⊢
        grind
      · nomatch busy.symm.trans idle

theorem iyield_inv (inv : s.Inv q r) (inside : s.status up = .inside) : ∃ q r, (s.iyield up).Inv q r := by
  have owns : s.Owns up := Or.inl inside
  obtain ⟨notq, notr⟩ := not_owner inv owns
  have busy := (inv.owner owns).1
  cases first : s.vmq with
  | none =>
    have same : s.iyield up = s := by simp only [iyield, first]
    rw [same]
    exact ⟨q, r, inv⟩
  | some p =>
    rw [iyield_vmq first]
    have path := inv.vmq
    rw [first] at path
    obtain ⟨rest, rfl, behind⟩ := path.eq_cons
    have nodup := List.nodup_cons.mp inv.vmq.nodup
    have acquiring := inv.queued.1 (List.mem_cons_self (a := p) (l := rest))
    refine ⟨rest, up :: r, ?_, inv.idlevmq.push notr, fun more => ?_, fun x => ?_, fun x => ?_, fun free => ?_, fun _ => ?_⟩
    · exact behind.update (fun here => notq (List.mem_cons_of_mem p here)) _
    · have last := inv.last (List.cons_ne_nil p rest)
      rw [List.getLast?_cons_of_ne_nil more] at last
      exact last
    · have here := inv.acquiring x
      rw [List.mem_cons] at here
      simp only [mark_status, link_status]
      grind
    · have here := inv.idling x
      rw [List.mem_cons]
      simp only [mark_status, link_status]
      grind
    · nomatch busy.symm.trans free
    · exact ⟨p, passed inv owns (Or.inr rfl) fun x => by simp only [mark_status, link_status]⟩

theorem startup_inv (inv : s.Inv q r) (starting : s.status up = .starting) : ∃ q r, (s.startup up).Inv q r := by
  have notr : up ∉ r := fun here => by
    have idling := inv.queued.2 here
    rw [starting] at idling
    nomatch idling
  have notq : up ∉ q := fun here => by
    have acquiring := inv.queued.1 here
    rw [starting] at acquiring
    nomatch acquiring
  by_cases idle : s.idle = true
  · have ran : s.startup up = { s with creating := false, idle := false }.mark up .inside := by
      simp only [startup, idle, if_true]
    rw [ran]
    refine ⟨q, r, inv.vmq, inv.idlevmq, inv.last, fun x => ?_, fun x => ?_, fun none => (nomatch none),
      fun _ => ⟨up, fun x => ?_⟩⟩
    · rw [inv.acquiring x, mark_status]
      grind
    · rw [inv.idling x, mark_status]
      grind
    · have nobody := inv.free idle x
      simp only [Owns, mark_status] at nobody ⊢
      grind
  · have ran : s.startup up =
        { { s with creating := false }.link up s.idlevmq with idlevmq := some up }.mark up .idling := by
      simp only [startup, if_neg idle]
    rw [ran]
    obtain ⟨o, only⟩ := inv.owned (Bool.eq_false_iff.mpr idle)
    refine ⟨q, up :: r, inv.vmq.update notq _, inv.idlevmq.push notr, inv.last, fun x => ?_, fun x => ?_,
      fun free => absurd free idle, fun _ => ⟨o, fun x => ?_⟩⟩
    · rw [inv.acquiring x]
      simp only [mark_status, link_status]
      grind
    · rw [List.mem_cons, inv.idling x]
      simp only [mark_status, link_status]
      grind
    · have only := only x
      simp only [Owns, mark_status, link_status] at only ⊢
      grind

/-- A change between two states in which a process neither waits for the interpreter nor has it. -/
theorem mark_inv (inv : s.Inv q r) (before : s.status p = .absent ∨ s.status p = .outside)
    (after : st = .outside ∨ st = .starting ∨ st = .absent) : (s.mark p st).Inv q r := by
  refine ⟨inv.vmq, inv.idlevmq, inv.last, fun x => ?_, fun x => ?_, fun idle x => ?_, fun busy => ?_⟩
  · rw [inv.acquiring x, mark_status]
    grind
  · rw [inv.idling x, mark_status]
    grind
  · have nobody := inv.free idle x
    simp only [Owns, mark_status] at nobody ⊢
    grind
  · obtain ⟨o, only⟩ := inv.owned busy
    refine ⟨o, fun x => ?_⟩
    have only := only x
    simp only [Owns, mark_status] at only ⊢
    grind

/-- The one who was handed the interpreter runs. -/
theorem run_inv (inv : s.Inv q r) (handed : s.status p = .handed) : (s.mark p .inside).Inv q r := by
  obtain ⟨busy, only⟩ := inv.owner (Or.inr handed)
  refine ⟨inv.vmq, inv.idlevmq, inv.last, fun x => ?_, fun x => ?_, fun idle => ?_, fun _ => ⟨p, fun x => ?_⟩⟩
  · rw [inv.acquiring x, mark_status]
    grind
  · rw [inv.idling x, mark_status]
    grind
  · nomatch busy.symm.trans idle
  · have only := only x
    simp only [Owns, mark_status] at only ⊢
    grind

theorem Fresh.inv (fresh : s.Fresh) : s.Inv [] [] := by
  refine ⟨fresh.vmq, fresh.idlevmq, fun more => absurd rfl more, fun p => ?_, fun p => ?_, fun _ p => ?_, fun busy => ?_⟩
  · have status := fresh.status p
    grind
  · have status := fresh.status p
    grind
  · have status := fresh.status p
    simp only [Owns]
    grind
  · nomatch busy.symm.trans fresh.idle

end Isched

open Isched

theorem exec_inv {a : Act} (inv : s.Inv q r) (ran : a.exec s = some s') : ∃ q r, s'.Inv q r := by
  cases a with
  | acquire up =>
    rw [Act.exec] at ran
    split at ran
    · rename_i outside
      obtain ⟨s'', went, q, inv⟩ := acquire_inv inv outside
      cases Option.some.inj (ran.symm.trans went)
      exact ⟨q, r, inv⟩
    · nomatch ran
  | release up new =>
    rw [Act.exec] at ran
    split at ran
    · rename_i may
      injection ran with ran
      subst ran
      exact release_inv inv may.1 may.2
    · nomatch ran
  | iyield up =>
    rw [Act.exec] at ran
    split at ran
    · rename_i inside
      injection ran with ran
      subst ran
      exact iyield_inv inv inside
    · nomatch ran
  | startup up =>
    rw [Act.exec] at ran
    split at ran
    · rename_i starting
      injection ran with ran
      subst ran
      exact startup_inv inv starting
    · nomatch ran
  | run p =>
    rw [Act.exec] at ran
    split at ran
    · rename_i handed
      injection ran with ran
      subst ran
      exact ⟨q, r, run_inv inv handed⟩
    · nomatch ran
  | kproc p st =>
    rw [Act.exec] at ran
    split at ran
    · rename_i may
      injection ran with ran
      subst ran
      exact ⟨q, r, mark_inv inv (Or.inl may.1) (by tauto)⟩
    · nomatch ran
  | pexit p =>
    rw [Act.exec] at ran
    split at ran
    · rename_i outside
      injection ran with ran
      subst ran
      exact ⟨q, r, mark_inv inv (Or.inr outside) (Or.inr (Or.inr rfl))⟩
    · nomatch ran

/-- The interpreter is idle and nobody owns it, or it is not and exactly one process
owns it or has been handed it; the processes blocked in `acquire` are on `vmq`, each
once; and no process that calls `acquire` meets a nil `vmqt`. -/
theorem vm_ownership (fresh : s₀.Fresh) (run : Run Act.exec (fun _ _ => True) s₀ s) :
    (s.idle = true ∧ (∀ p, ¬s.Owns p) ∨ s.idle = false ∧ ∃! p, s.Owns p) ∧
      (∃ q, Path s.qnext s.vmq q ∧ ∀ p, s.status p = .acquiring → q.count p = 1) ∧
      ∀ up, s.status up = .outside → (s.acquire up).isSome := by
  obtain ⟨q, r, inv⟩ := run.invariant (fun s => ∃ q r, s.Inv q r) ⟨[], [], fresh.inv⟩
    fun ⟨_, _, inv⟩ _ ran => exec_inv inv ran
  refine ⟨?_, ⟨q, inv.vmq, fun p acquiring => ?_⟩, fun up outside => ?_⟩
  · cases idle : s.idle with
    | true => exact Or.inl ⟨rfl, inv.free idle⟩
    | false =>
      obtain ⟨o, only⟩ := inv.owned idle
      exact Or.inr ⟨rfl, o, (only o).mpr rfl, fun p owns => (only p).mp owns⟩
  · exact List.count_eq_one_of_mem inv.vmq.nodup ((inv.acquiring p).mpr acquiring)
  · obtain ⟨s', ran, _⟩ := acquire_inv inv outside
    rw [ran]
    rfl

/-- Three processes, of which the first is about to run `vmachine`. -/
def Isched.disinit : Isched where
  idle := true
  nyield := 0
  creating := false
  vmq := none
  vmqt := none
  idlevmq := none
  qnext := fun _ => none
  status := fun p => if p = 0 then .starting else if p ≤ 2 then .outside else .absent

/-- Two processes wait for the interpreter, which the first of them is handed. -/
theorem vm_ownership_yield : ∃ s, Run Act.exec (fun _ _ => True) Isched.disinit s ∧
    s.status 0 = .idling ∧ s.status 1 = .handed ∧ s.status 2 = .acquiring ∧ s.vmq = some 2 ∧
    (s.idle = true ∧ (∀ p, ¬s.Owns p) ∨ s.idle = false ∧ ∃! p, s.Owns p) := by
  have fresh : Isched.disinit.Fresh := by
    refine ⟨rfl, rfl, rfl, fun p => ?_⟩
    simp only [Isched.disinit]
    split
    · exact Or.inr (Or.inr rfl)
    · split
      · exact Or.inr (Or.inl rfl)
      · exact Or.inl rfl
  have run₀ : Run Act.exec (fun _ _ => True) Isched.disinit _ := Run.start
  have run₁ := run₀.step (a := Act.startup 0) trivial rfl
  have run₂ := run₁.step (a := Act.acquire 1) trivial rfl
  have run₃ := run₂.step (a := Act.acquire 2) trivial rfl
  have run₄ := run₃.step (a := Act.iyield 0) trivial rfl
  exact ⟨_, run₄, by decide, by decide, by decide, by decide, (vm_ownership fresh run₄).1⟩

end IschedInv

end Inferno.Emu
