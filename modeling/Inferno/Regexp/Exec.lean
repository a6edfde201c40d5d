import Inferno.Regexp.Class
import Inferno.Strings.Utf

namespace Inferno.Regexp

open Lib Strings

/-- Pointers into the string are offsets from `bol`. -/
structure Resub where
  sp : Option Nat
  ep : Option Nat
deriving DecidableEq

section Code

def NSUBEXP : Nat := 32

/-- The instructions that `regexec1` knows; it ends a thread at any other one. -/
inductive Inst where
  | rune (r next : Nat)
  | lbra (subid next : Nat)
  | rbra (subid next : Nat)
  | any (next : Nat)
  | anynl (next : Nat)
  | bol (next : Nat)
  | eol (next : Nat)
  | cclass (spans : List Span) (next : Nat)
  | ncclass (spans : List Span) (next : Nat)
  | or (right left : Nat)
  | final
  | nop

structure Reprog where
  startinst : Nat
  firstinst : List Inst

def Reprog.inst (prog : Reprog) (i : Nat) : Inst := prog.firstinst.getD i .nop

/-- An entry of a list of threads. -/
structure Relist where
  inst : Nat
  se : List Resub

/-- `<` of two pointers. -/
def below : Option Nat → Option Nat → Bool
  | _, none => false
  | none, some _ => true
  | some a, some b => a < b

def whole (m : List Resub) : Resub := m.headD ⟨none, none⟩

/-- The list, and its length if it got longer. -/
def renewthread (ip : Nat) (sep : List Resub) : List Relist → List Relist × Option Nat
  | [] => ([⟨ip, sep⟩], some 1)
  | p :: l =>
    if p.inst = ip then ((if below (whole sep).sp (whole p.se).sp then { p with se := sep } else p) :: l, none)
    else
      let (l, length) := renewthread ip sep l
      (p :: l, length.map (· + 1))

def emptySe (sp : Nat) : List Resub := ⟨some sp, none⟩ :: List.replicate (NSUBEXP - 1) ⟨none, none⟩

def renewemptythread (ip sp : Nat) : List Relist → List Relist
  | [] => [⟨ip, emptySe sp⟩]
  | p :: l =>
    if p.inst = ip then (if below (some sp) (whole p.se).sp then { p with se := emptySe sp } else p) :: l
    else p :: renewemptythread ip sp l

def renewmatch (mp sp : List Resub) : List Resub :=
  if mp = [] then mp
  else if (whole mp).sp = none || below (whole sp).sp (whole mp).sp ||
      (decide ((whole sp).sp = (whole mp).sp) && below (whole mp).ep (whole sp).ep) then
    sp.take mp.length ++ List.replicate (mp.length - NSUBEXP) ⟨none, none⟩
  else mp

/-- What the machine has at a character: the threads from `tlp` on, the number of those before it, the next list. -/
structure Local where
  tl : List Relist
  before : Nat
  nl : List Relist
  found : Bool
  mp : List Resub

def Local.se (l : Local) : List Resub := (l.tl.headD ⟨0, []⟩).se

def Local.mark (l : Local) (se : List Resub) : Local :=
  { l with tl := l.tl.modifyHead fun p => { p with se } }

/-- A machine that does not get out of a loop, and one without room for a thread. -/
inductive Stop where
  | hang
  | full
deriving DecidableEq

-- `nelem` is the size of both lists
variable (fuel nelem : Nat) (prog : Reprog) (text : List UInt8) (eol : Option Nat)

def byteAt (s : Nat) : Nat := (ofBytes text s).toNat

def runeAt (s : Nat) : Nat × Nat := chartorune fun i => ofBytes text (s + i)

theorem byteAt_inside {text : List UInt8} {s : Nat} (some_ : byteAt text s ≠ 0) : s < text.length := by
  refine Nat.lt_of_not_le fun beyond => some_ ?_
  rw [byteAt, ofBytes, List.getD_eq_getElem?_getD, List.getElem?_eq_none beyond]
  rfl

theorem runeAt_one {text : List UInt8} {s : Nat} (low : byteAt text s < 0x80) : runeAt text s = (byteAt text s, 1) :=
  Strings.chartorune_one low

/-- A rune of more than one byte is no ASCII character, and none of its bytes is. -/
theorem chartoruneLoop_high {str : ByteMem} (first : 0x80 ≤ (str 0).toNat) (k : Nat) :
    ∀ i l, 1 ≤ i → (∀ j < i, 0x80 ≤ (str j).toNat) → 0x80 ≤ (chartoruneLoop str k i l).1 ∧
      0 < (chartoruneLoop str k i l).2 ∧ ∀ j < (chartoruneLoop str k i l).2, 0x80 ≤ (str j).toNat := by
  have bad : 0x80 ≤ (runeerror, 1).1 ∧ 0 < (runeerror, 1).2 ∧ ∀ j < (runeerror, 1).2, 0x80 ≤ (str j).toNat := by
    refine ⟨by decide, Nat.one_pos, fun j less => ?_⟩
    obtain rfl : j = 0 := Nat.lt_one_iff.mp less
    exact first
  induction k with
  | zero => exact fun _ _ _ _ => bad
  | succ k ih =>
    intro i l pos high
    unfold chartoruneLoop
    dsimp only
    split
    · exact bad
    · rename_i tail
      have here : 0x80 ≤ (str i).toNat := by
        have all : ∀ b < 128, (b ^^^ 0x80) &&& 0xC0 ≠ 0 := by decide
        exact Nat.le_of_not_lt fun low => tail (all _ low)
      have next : ∀ j < i + 1, 0x80 ≤ (str j).toNat := fun j less =>
        (Nat.lt_succ_iff_lt_or_eq.mp less).elim (high j) fun same => same ▸ here
      split
      · split
        · exact bad
        · rename_i two
          split
          · exact bad
          · rename_i more
            split
            · exact bad
            · refine ⟨?_, Nat.succ_pos i, next⟩
              by_cases one : i = 1
              · have large := fun small => two ⟨one, .inr small⟩
                have size : runeX 0 = 127 := rfl
                omega
              · have large := fun small => more ⟨one, .inl small⟩
                have size : 2 ^ 7 ≤ 2 ^ (7 - i + (i - 1) * 6) := Nat.pow_le_pow_right (by decide) (by omega)
                have limit : runeX i = 2 ^ (7 - i + (i - 1) * 6) - 1 := rfl
                omega
      · exact ih (i + 1) _ (by omega) next

theorem runeAt_high {text : List UInt8} {s : Nat} (high : 0x80 ≤ byteAt text s) : 0x80 ≤ (runeAt text s).1 ∧
    0 < (runeAt text s).2 ∧ ∀ j < (runeAt text s).2, 0x80 ≤ byteAt text (s + j) := by
  unfold runeAt chartorune
  dsimp only [Nat.add_zero]
  rw [if_neg (show ¬(ofBytes text s).toNat < 0x80 from Nat.not_lt.mpr high)]
  refine @chartoruneLoop_high (fun i => ofBytes text (s + i)) high _ 1 _ (le_refl 1) fun j less => ?_
  obtain rfl : j = 0 := Nat.lt_one_iff.mp less
  exact high

theorem runeAt_pos (text : List UInt8) (s : Nat) : 0 < (runeAt text s).2 := by
  rcases Nat.lt_or_ge (byteAt text s) 0x80 with low | high
  · rw [runeAt_one low]
    exact Nat.one_pos
  · exact (runeAt_high high).2.1

theorem runeAt_inside {text : List UInt8} {s : Nat} (some_ : (runeAt text s).1 ≠ 0) : s < text.length := by
  refine byteAt_inside fun none => some_ ?_
  rw [runeAt_one (by omega), none]

def push (next : Nat) (l : Local) : Except Stop Local :=
  let (nl, length) := renewthread next l.se l.nl
  if length = some (nelem - 2) then .error .full else .ok { l with nl }

/-- The inner loop: the thread goes on to an instruction that takes a character. -/
def follow (s r : Nat) : Nat → Nat → Local → Except Stop Local
  | 0, _, _ => .error .hang
  | k + 1, i, l =>
    match prog.inst i with
    | .rune c next => if c = r then push nelem next l else .ok l
    | .lbra id next => follow s r k next (l.mark (l.se.modify id ({ · with sp := some s })))
    | .rbra id next => follow s r k next (l.mark (l.se.modify id ({ · with ep := some s })))
    | .any next => if r ≠ 10 then push nelem next l else .ok l
    | .anynl next => push nelem next l
    | .bol next => if s = 0 ∨ byteAt text (s - 1) = 10 then follow s r k next l else .ok l
    | .eol next => if eol = some s ∨ r = 0 ∨ r = 10 then follow s r k next l else .ok l
    | .cclass spans next => if spans.any fun p => p.1 ≤ r && r ≤ p.2 then push nelem next l else .ok l
    | .ncclass spans next => if spans.any fun p => p.1 ≤ r && r ≤ p.2 then .ok l else push nelem next l
    | .or right left =>
      let (tl, length) := renewthread right l.se l.tl
      if length.map (· + l.before) = some (nelem - 2) then .error .full else follow s r k left { l with tl }
    | .final =>
      let l := l.mark (l.se.modify 0 ({ · with ep := some s }))
      .ok { l with found := true, mp := renewmatch l.mp l.se }
    | .nop => .ok l

def threads (s r : Nat) : Nat → Local → Except Stop Local
  | k, l =>
    match l.tl with
    | [] => .ok l
    | p :: _ =>
      match k with
      | 0 => .error .hang
      | k + 1 =>
        match follow nelem prog text eol s r (fuel + 2) p.inst l with
        | .error e => .error e
        | .ok l => threads s r k { l with tl := l.tl.tail, before := l.before + 1 }

/-- The machine at the character `s`, with the threads that are alive. -/
def position (s : Nat) (tl : List Relist) (found : Bool) (mp : List Resub) : Except Stop Local :=
  threads fuel nelem prog text eol s (runeAt text s).1 (fuel + 2)
    ⟨if found then tl else renewemptythread prog.startinst s tl, 0, [], found, mp⟩

/-- `strchr`, which is what `utfrune` is for a character below `Runesync`. -/
def strchr (s c : Nat) : Option Nat :=
  if byteAt text s = c then some s
  else if byteAt text s = 0 then none
  else strchr (s + 1) c
termination_by text.length - s
decreasing_by
  have inside := byteAt_inside ‹¬byteAt text s = 0›
  omega

inductive Starttype where
  | zero
  | rune (startchar : Nat)
  | bol
deriving DecidableEq

/-- The call of `utfrune` where `checkstart` is set: the character it looks for. -/
def looksFor (starttype : Starttype) (checkstart : Bool) (s : Nat) : Option Nat :=
  match starttype with
  | .zero => none
  | .rune c => if checkstart then some c else none
  | .bol => if checkstart ∧ s ≠ 0 then some 10 else none

/-- The place the machine is executed at next; none if there is no such place. -/
def target (starttype : Starttype) (checkstart : Bool) (s : Nat) : Option Nat :=
  match looksFor starttype checkstart s with
  | none => some s
  | some c => if eol = some s then none else strchr text s c

theorem strchr_spec {text : List UInt8} (s c : Nat) :
    match strchr text s c with
    | some p => s ≤ p ∧ byteAt text p = c ∧ ∀ q, s ≤ q → q < p → byteAt text q ≠ c ∧ byteAt text q ≠ 0
    | none => ∃ z, s ≤ z ∧ byteAt text z = 0 ∧ ∀ q, s ≤ q → q ≤ z → byteAt text q ≠ c := by
  induction s using strchr.induct text c with
  | case1 s same =>
    rw [strchr, if_pos same]
    exact ⟨le_refl s, same, fun q least less => by omega⟩
  | case2 s other ends =>
    rw [strchr, if_neg other, if_pos ends]
    refine ⟨s, le_refl s, ends, fun q least most => ?_⟩
    obtain rfl : q = s := by omega
    exact other
  | case3 s other more ih =>
    rw [strchr, if_neg other, if_neg more]
    split at ih
    · obtain ⟨least, same, before⟩ := ih
      refine ⟨by omega, same, fun q from_ less => ?_⟩
      rcases Nat.eq_or_lt_of_le from_ with rfl | behind
      · exact ⟨other, more⟩
      · exact before q behind less
    · obtain ⟨z, least, ends, none⟩ := ih
      refine ⟨z, by omega, ends, fun q from_ less => ?_⟩
      rcases Nat.eq_or_lt_of_le from_ with rfl | behind
      · exact other
      · exact none q behind less

theorem target_le {text : List UInt8} {eol : Option Nat} {starttype : Starttype} {checkstart : Bool} {s p : Nat}
    (goes : target text eol starttype checkstart s = some p) : s ≤ p := by
  unfold target at goes
  split at goes
  · exact (Option.some.inj goes).le
  · rename_i c _
    split at goes
    · nomatch goes
    · have spec := @strchr_spec text s c
      rw [goes] at spec
      exact spec.1

/-- A call of `utfrune`: from where, whether there was a match, and where it leads. -/
structure Jump where
  start : Nat
  found : Bool
  landed : Option Nat
deriving DecidableEq

/-- What a run returns and leaves in `mp`, the places the machine was executed at, and its jumps. -/
structure Run where
  result : Except Stop (Bool × List Resub)
  seen : List Nat
  jumps : List Jump

/-- The loop of `regexec1`, from `s` with the threads that are alive there. -/
def loop (starttype : Starttype) (s : Nat) (tl : List Relist) (checkstart found : Bool) (mp : List Resub) : Run :=
  let jumps :=
    match looksFor starttype checkstart s with
    | none => []
    | some _ => [⟨s, found, target text eol starttype checkstart s⟩]
  match _goes : target text eol starttype checkstart s with
  | none => ⟨.ok (found, mp), [], jumps⟩
  | some p =>
    match position fuel nelem prog text eol p tl found mp with
    | .error e => ⟨.error e, [p], jumps⟩
    | .ok l =>
      if eol = some p then ⟨.ok (l.found, l.mp), [p], jumps⟩
      else if (runeAt text p).1 = 0 then ⟨.ok (l.found, l.mp), [p], jumps⟩
      else
        let run := loop starttype (p + (runeAt text p).2) l.nl (starttype ≠ .zero && l.nl.isEmpty) l.found l.mp
        { run with seen := p :: run.seen, jumps := jumps ++ run.jumps }
termination_by text.length - s
decreasing_by
  have inside := runeAt_inside ‹¬(runeAt text p).1 = 0›
  have pos := runeAt_pos text p
  have behind := target_le _goes
  omega

def regexec1 (starttype : Starttype) (starts ms : Nat) : Run :=
  loop fuel nelem prog text eol starttype starts [] (starttype ≠ .zero) false (List.replicate ms ⟨none, none⟩)

/-- The shortcut that `regexec` picks. -/
def starttype : Starttype :=
  match prog.inst prog.startinst with
  | .rune r _ => if r < 0x80 then .rune r else .zero
  | .bol _ => .bol
  | _ => .zero

end Code

variable {fuel nelem : Nat} {prog : Reprog} {text : List UInt8} {eol : Option Nat} {s p e : Nat} {mp : List Resub}
  {found checkstart : Bool} {tl : List Relist} {shortcut : Starttype} {c : Nat}

/-- The machine gets from `s` to `e` one character after another. -/
inductive Walk (text : List UInt8) : Nat → Nat → Prop where
  | here {e : Nat} : Walk text e e
  | step {s e : Nat} : Walk text (s + (runeAt text s).2) e → Walk text s e

/-- The jump keeps within the end, and is not made from the start of a line where a match is still to be found. -/
structure Jump.Keeps (text : List UInt8) (eol : Option Nat) (shortcut : Starttype) (jump : Jump) : Prop where
  within : ∀ p e, jump.landed = some p → eol = some e → p ≤ e
  line : shortcut = .bol → jump.found = false → jump.landed ≠ some jump.start → byteAt text (jump.start - 1) ≠ 10

/-- The shortcut makes no difference, and nothing behind the end is examined. -/
structure Same (fuel nelem : Nat) (prog : Reprog) (text : List UInt8) (eol : Option Nat) (starts ms : Nat) : Prop where
  result : (regexec1 fuel nelem prog text eol (starttype prog) starts ms).result =
    (regexec1 fuel nelem prog text eol .zero starts ms).result
  within : ∀ s ∈ (regexec1 fuel nelem prog text eol (starttype prog) starts ms).seen, ∀ e, eol = some e → s ≤ e

/-- What the loop returns without the shortcut. -/
def plain (fuel nelem : Nat) (prog : Reprog) (text : List UInt8) (eol : Option Nat) (s : Nat) (tl : List Relist)
    (found : Bool) (mp : List Resub) : Except Stop (Bool × List Resub) :=
  (loop fuel nelem prog text eol .zero s tl false found mp).result

theorem plain_eq : plain fuel nelem prog text eol s tl found mp =
    match position fuel nelem prog text eol s tl found mp with
    | .error e => .error e
    | .ok l =>
      if eol = some s ∨ (runeAt text s).1 = 0 then .ok (l.found, l.mp)
      else plain fuel nelem prog text eol (s + (runeAt text s).2) l.nl l.found l.mp := by
  unfold plain
  rw [loop]
  simp only [target, looksFor]
  split
  · rfl
  · rename_i l _
    by_cases last : eol = some s
    · rw [if_pos last, if_pos (.inl last)]
    · rw [if_neg last]
      by_cases ends : (runeAt text s).1 = 0
      · rw [if_pos ends, if_pos (.inr ends)]
      · rw [if_neg ends, if_neg (by rw [not_or]; exact ⟨last, ends⟩)]
        rfl

/-- A match cannot begin at `s`, as far as the first instruction tells. -/
def Fails (prog : Reprog) (text : List UInt8) (s : Nat) : Prop :=
  match prog.inst prog.startinst with
  | .rune c _ => (runeAt text s).1 ≠ c
  | .bol _ => s ≠ 0 ∧ byteAt text (s - 1) ≠ 10
  | _ => False

theorem Walk.le (walk : Walk text s e) : s ≤ e := by
  induction walk with
  | here => exact le_refl _
  | step _ ih => omega

theorem runeAt_zero (more : byteAt text s ≠ 0) : (runeAt text s).1 ≠ 0 := by
  rcases Nat.lt_or_ge (byteAt text s) 0x80 with low | high
  · rw [runeAt_one low]
    exact more
  · have large := (runeAt_high high).1
    omega

/-- An ASCII character is never stepped over. -/
theorem runeAt_le (less : s < p) (low : byteAt text p < 0x80) : s + (runeAt text s).2 ≤ p := by
  rcases Nat.lt_or_ge (byteAt text s) 0x80 with one | high
  · rw [runeAt_one one]
    exact less
  · refine Nat.le_of_not_lt fun past => ?_
    have inside := (runeAt_high high).2.2 (p - s) (by omega)
    rw [Nat.add_sub_cancel' less.le] at inside
    omega

theorem Walk.from_ascii (walk : Walk text s e) (least : s ≤ p) (most : p ≤ e) (low : byteAt text p < 0x80) :
    Walk text p e := by
  induction walk with
  | here =>
    obtain rfl := Nat.le_antisymm least most
    exact .here
  | step walk ih =>
    rcases Nat.eq_or_lt_of_le least with rfl | less
    · exact .step walk
    · exact ih (runeAt_le less low) most

theorem runeAt_ne (small : c < 0x80) (other : byteAt text s ≠ c) : (runeAt text s).1 ≠ c := by
  rcases Nat.lt_or_ge (byteAt text s) 0x80 with low | high
  · rw [runeAt_one low]
    exact other
  · have large := (runeAt_high high).1
    omega

theorem threads_nil {k r before : Nat} {nl : List Relist} :
    threads fuel nelem prog text eol s r k ⟨[], before, nl, found, mp⟩ = .ok ⟨[], before, nl, found, mp⟩ := by
  rw [threads.eq_def]

/-- With no thread alive and none that begins, the machine goes on as it was. -/
theorem position_fails (stays : found = true ∨ Fails prog text s) :
    ∃ before, position fuel nelem prog text eol s [] found mp = .ok ⟨[], before, [], found, mp⟩ := by
  unfold position
  cases found with
  | true => exact ⟨0, threads_nil⟩
  | false =>
    have fails := stays.resolve_left Bool.false_ne_true
    refine ⟨1, ?_⟩
    rw [if_neg Bool.false_ne_true, renewemptythread, threads]
    dsimp only
    rw [follow]
    unfold Fails at fails
    split at fails
    · rename_i c next start
      rw [start]
      dsimp only
      rw [if_neg fails.symm]
      exact threads_nil
    · rename_i next start
      rw [start]
      dsimp only
      rw [if_neg (by rw [not_or]; exact fails)]
      exact threads_nil
    · exact absurd fails id

theorem plain_fails (stays : found = true ∨ Fails prog text s) :
    plain fuel nelem prog text eol s [] found mp =
      if eol = some s ∨ (runeAt text s).1 = 0 then .ok (found, mp)
      else plain fuel nelem prog text eol (s + (runeAt text s).2) [] found mp := by
  obtain ⟨before, same⟩ := @position_fails fuel nelem prog text eol s mp found stays
  rw [plain_eq, same]

/-- Without the shortcut the machine gets to `p` all the same. -/
theorem plain_skip (k : Nat) : ∀ s, s ≤ p → p ≤ s + k → byteAt text p < 0x80 →
    (∀ q, s ≤ q → q < p → (found = true ∨ Fails prog text q) ∧ eol ≠ some q ∧ byteAt text q ≠ 0) →
    plain fuel nelem prog text eol s [] found mp = plain fuel nelem prog text eol p [] found mp := by
  induction k with
  | zero =>
    intro s least most _ _
    obtain rfl := Nat.le_antisymm least most
    rfl
  | succ k ih =>
    intro s least most low clear
    rcases Nat.eq_or_lt_of_le least with rfl | less
    · rfl
    · obtain ⟨stays, inside, more⟩ := clear s (le_refl s) less
      have pos := runeAt_pos text s
      rw [plain_fails stays, if_neg (by rw [not_or]; exact ⟨inside, runeAt_zero more⟩)]
      exact ih _ (runeAt_le less low) (by omega) low fun q behind before => clear q (by omega) before

theorem plain_end {z : Nat} (k : Nat) : ∀ s, s ≤ z → z ≤ s + k → byteAt text z = 0 →
    (∀ q, s ≤ q → q ≤ z → found = true ∨ Fails prog text q) →
    plain fuel nelem prog text eol s [] found mp = .ok (found, mp) := by
  have last (s : Nat) (ends : byteAt text s = 0) (stays : found = true ∨ Fails prog text s) :
      plain fuel nelem prog text eol s [] found mp = .ok (found, mp) := by
    rw [plain_fails stays, runeAt_one (by omega), if_pos (.inr ends)]
  induction k with
  | zero =>
    intro s least most ends clear
    obtain rfl := Nat.le_antisymm least most
    exact last s ends (clear s least most)
  | succ k ih =>
    intro s least most ends clear
    rcases Nat.eq_or_lt_of_le least with rfl | less
    · exact last s ends (clear s least (le_refl s))
    · have pos := runeAt_pos text s
      rw [plain_fails (clear s (le_refl s) least)]
      split
      · rfl
      · exact ih _ (runeAt_le less (by omega)) (by omega) ends fun q behind before => clear q (by omega) before

/-- The jump of the loop, if it makes one. -/
def jumps (text : List UInt8) (eol : Option Nat) (shortcut : Starttype) (checkstart found : Bool) (s : Nat) :
    List Jump :=
  match looksFor shortcut checkstart s with
  | none => []
  | some _ => [⟨s, found, target text eol shortcut checkstart s⟩]

theorem loop_at (goes : target text eol shortcut checkstart s = some p) :
    loop fuel nelem prog text eol shortcut s tl checkstart found mp =
      match position fuel nelem prog text eol p tl found mp with
      | .error e => ⟨.error e, [p], jumps text eol shortcut checkstart found s⟩
      | .ok l =>
        if eol = some p ∨ (runeAt text p).1 = 0 then
          ⟨.ok (l.found, l.mp), [p], jumps text eol shortcut checkstart found s⟩
        else
          let run := loop fuel nelem prog text eol shortcut (p + (runeAt text p).2) l.nl
            (shortcut ≠ .zero && l.nl.isEmpty) l.found l.mp
          { run with seen := p :: run.seen, jumps := jumps text eol shortcut checkstart found s ++ run.jumps } := by
  rw [loop]
  split
  · rename_i none
    rw [goes] at none
    nomatch none
  · rename_i q same
    obtain rfl := Option.some.inj (goes.symm.trans same)
    split
    · rfl
    · by_cases last : eol = some p
      · rw [if_pos last, if_pos (.inl last)]
        rfl
      · rw [if_neg last]
        by_cases ends : (runeAt text p).1 = 0
        · rw [if_pos ends, if_pos (.inr ends)]
          rfl
        · rw [if_neg ends, if_neg (by rw [not_or]; exact ⟨last, ends⟩)]
          rfl

theorem loop_none (none : target text eol shortcut checkstart s = none) :
    loop fuel nelem prog text eol shortcut s tl checkstart found mp =
      ⟨.ok (found, mp), [], jumps text eol shortcut checkstart found s⟩ := by
  rw [loop]
  split
  · rfl
  · rename_i q same
    rw [none] at same
    nomatch same

def listsize (big : Bool) : Nat := if big then 100 else 10

/-- At the end the first instruction can begin a thread, but no match. -/
theorem plain_stop {big : Bool} (last : eol = some s)
    (stays : found = true ∨ Fails prog text s ∨ ∃ c next, prog.inst prog.startinst = .rune c next) :
    plain fuel (listsize big) prog text eol s [] found mp = .ok (found, mp) := by
  have dead (stays : found = true ∨ Fails prog text s) :
      plain fuel (listsize big) prog text eol s [] found mp = .ok (found, mp) := by
    rw [plain_fails stays, if_pos (.inl last)]
  rcases stays with found | fails | ⟨c, next, start⟩
  · exact dead (.inl found)
  · exact dead (.inr fails)
  · by_cases same : c = (runeAt text s).1
    · cases found with
      | true => exact dead (.inl rfl)
      | false =>
        have room : (some 1 : Option Nat) ≠ some (listsize big - 2) := by cases big <;> decide
        rw [plain_eq, position, if_neg Bool.false_ne_true, renewemptythread, threads]
        dsimp only
        rw [follow, start]
        dsimp only
        rw [if_pos same, push, renewthread]
        dsimp only
        rw [if_neg room]
        dsimp only [List.tail_cons]
        rw [threads.eq_def]
        dsimp only
        rw [if_pos (.inl last)]
    · refine dead (.inr ?_)
      unfold Fails
      rw [start]
      exact fun other => same other.symm

/-- Between the place a jump is made from and the one it leads to no match begins. -/
theorem fails_before (kind : starttype prog = shortcut) (looks : looksFor shortcut checkstart s = some c)
    (keeps : Jump.Keeps text eol shortcut ⟨s, found, target text eol shortcut checkstart s⟩)
    (moved : target text eol shortcut checkstart s ≠ some s) {q : Nat} (least : s ≤ q)
    (clear : ∀ k, s ≤ k → k ≤ q → byteAt text k ≠ c) : found = true ∨ Fails prog text q := by
  cases found with
  | true => exact .inl rfl
  | false =>
    refine .inr ?_
    unfold starttype at kind
    unfold Fails
    unfold looksFor at looks
    split at kind
    · split at kind
      · rename_i small
        subst kind
        dsimp only at looks
        split at looks
        · obtain rfl := Option.some.inj looks
          exact runeAt_ne small (clear q least (le_refl q))
        · nomatch looks
      · subst kind
        nomatch looks
    · subst kind
      dsimp only at looks
      split at looks
      · rename_i both
        obtain rfl := Option.some.inj looks
        refine ⟨by omega, ?_⟩
        rcases Nat.eq_or_lt_of_le least with rfl | less
        · exact keeps.line rfl rfl moved
        · exact clear (q - 1) (by omega) (by omega)
      · nomatch looks
    · subst kind
      nomatch looks

theorem looksFor_checked (looks : looksFor shortcut checkstart s = some c) : checkstart = true := by
  unfold looksFor at looks
  split at looks
  · nomatch looks
  · split at looks
    · assumption
    · nomatch looks
  · split at looks
    · rename_i both
      exact both.1
    · nomatch looks

theorem target_looks (looks : looksFor shortcut checkstart s = some c) :
    target text eol shortcut checkstart s = if eol = some s then none else strchr text s c := by
  rw [target, looks]

/-- Where the loop ends with no jump the machine finds nothing either. -/
theorem plain_none {big : Bool} (kind : starttype prog = shortcut) (looks : looksFor shortcut checkstart s = some c)
    (none : target text eol shortcut checkstart s = none)
    (keeps : Jump.Keeps text eol shortcut ⟨s, found, target text eol shortcut checkstart s⟩) :
    plain fuel (listsize big) prog text eol s [] found mp = .ok (found, mp) := by
  have moved : target text eol shortcut checkstart s ≠ some s := by
    rw [none]
    exact nofun
  rw [target_looks looks] at none
  by_cases last : eol = some s
  · refine plain_stop last ?_
    by_cases first : ∃ c next, prog.inst prog.startinst = .rune c next
    · exact .inr (.inr first)
    · cases found with
      | true => exact .inl rfl
      | false =>
        refine .inr (.inl ?_)
        unfold starttype at kind
        unfold Fails
        split at kind
        · rename_i r next start
          exact absurd ⟨r, next, start⟩ first
        · rename_i next start
          subst kind
          unfold looksFor at looks
          dsimp only at looks
          split at looks
          · rename_i both
            exact ⟨both.2, keeps.line rfl rfl moved⟩
          · nomatch looks
        · subst kind
          nomatch looks
  · rw [if_neg last] at none
    have spec := @strchr_spec text s c
    rw [none] at spec
    obtain ⟨z, least, ends, clear⟩ := spec
    refine plain_end (z - s) s least (by omega) ends fun q from_ less => ?_
    exact fails_before kind looks keeps moved from_ fun k low high => clear k low (by omega)

/-- A jump leads to where the machine gets without it. -/
theorem plain_target (kind : starttype prog = shortcut) (looks : looksFor shortcut checkstart s = some c)
    (goes : target text eol shortcut checkstart s = some p)
    (keeps : Jump.Keeps text eol shortcut ⟨s, found, target text eol shortcut checkstart s⟩) :
    byteAt text p < 0x80 ∧
      plain fuel nelem prog text eol s [] found mp = plain fuel nelem prog text eol p [] found mp := by
  have small : c < 0x80 := by
    unfold starttype at kind
    unfold looksFor at looks
    split at looks
    · nomatch looks
    · split at looks
      · obtain rfl := Option.some.inj looks
        split at kind
        · split at kind
          · rename_i low
            injection kind with same
            exact same ▸ low
          · nomatch kind
        · nomatch kind
        · nomatch kind
      · nomatch looks
    · split at looks
      · obtain rfl := Option.some.inj looks
        decide
      · nomatch looks
  have within := keeps.within
  by_cases moved : p = s
  · subst moved
    rw [target_looks looks] at goes
    split at goes
    · nomatch goes
    · have spec := @strchr_spec text p c
      rw [goes] at spec
      exact ⟨spec.2.1 ▸ small, rfl⟩
  have away : target text eol shortcut checkstart s ≠ some s := by
    rw [goes]
    exact fun same => moved (Option.some.inj same)
  rw [goes] at within
  rw [target_looks looks] at goes
  split at goes
  · nomatch goes
  · have spec := @strchr_spec text s c
    rw [goes] at spec
    obtain ⟨least, here, clear⟩ := spec
    have low : byteAt text p < 0x80 := here ▸ small
    refine ⟨low, plain_skip (p - s) s least (by omega) low fun q from_ less => ?_⟩
    refine ⟨?_, fun last => ?_, (clear q from_ less).2⟩
    · exact fails_before kind looks keeps away from_ fun k above below => (clear k above (by omega)).1
    · exact absurd (within p q rfl last) (Nat.not_le.mpr less)

/-- One character at a time the shortcut keeps to what the machine does without it. -/
theorem loop_shortcut {big : Bool} (kind : starttype prog = shortcut) (checked : checkstart = true → tl = [])
    (walk : ∀ e, eol = some e → Walk text s e)
    (keeps : ∀ jump ∈ (loop fuel (listsize big) prog text eol shortcut s tl checkstart found mp).jumps,
      jump.Keeps text eol shortcut) :
    (loop fuel (listsize big) prog text eol shortcut s tl checkstart found mp).result =
      plain fuel (listsize big) prog text eol s tl found mp ∧
    ∀ q ∈ (loop fuel (listsize big) prog text eol shortcut s tl checkstart found mp).seen,
      ∀ e, eol = some e → q ≤ e := by
  induction left : text.length - s using Nat.strong_induction_on generalizing s tl checkstart found mp with
  | h n ih =>
    subst left
    cases goes : target text eol shortcut checkstart s with
    | none =>
      rw [loop_none goes] at keeps ⊢
      cases looks : looksFor shortcut checkstart s with
      | none =>
        rw [target, looks] at goes
        nomatch goes
      | some c =>
        obtain rfl := checked (looksFor_checked looks)
        rw [jumps, looks] at keeps
        exact ⟨(plain_none kind looks goes (keeps _ (List.mem_singleton_self _))).symm, nofun⟩
    | some p =>
      have least := target_le goes
      have came : (plain fuel (listsize big) prog text eol s tl found mp =
          plain fuel (listsize big) prog text eol p tl found mp) ∧ ∀ e, eol = some e → Walk text p e := by
        cases looks : looksFor shortcut checkstart s with
        | none =>
          rw [target, looks] at goes
          obtain rfl := Option.some.inj goes
          exact ⟨rfl, walk⟩
        | some c =>
          obtain rfl := checked (looksFor_checked looks)
          have kept : Jump.Keeps text eol shortcut ⟨s, found, target text eol shortcut checkstart s⟩ := by
            refine keeps _ ?_
            have first : jumps text eol shortcut checkstart found s =
                [⟨s, found, target text eol shortcut checkstart s⟩] := by
              rw [jumps, looks]
            rw [loop_at goes, first]
            split
            · exact List.mem_singleton_self _
            · split
              · exact List.mem_singleton_self _
              · exact List.mem_cons_self ..
          obtain ⟨low, same⟩ :=
            @plain_target fuel (listsize big) prog text eol s p mp found checkstart shortcut c kind looks goes kept
          refine ⟨same, fun e last => (walk e last).from_ascii least (kept.within p e goes last) low⟩
      obtain ⟨same, walk⟩ := came
      rw [same, plain_eq]
      rw [loop_at goes] at keeps ⊢
      have here : ∀ q ∈ [p], ∀ e, eol = some e → q ≤ e := by
        intro q member e last
        obtain rfl := List.mem_singleton.mp member
        exact (walk e last).le
      split at keeps
      · exact ⟨rfl, here⟩
      · rename_i l _
        split at keeps
        · rename_i last
          rw [if_pos last, if_pos last]
          exact ⟨rfl, here⟩
        · rename_i more
          rw [if_neg more, if_neg more]
          rw [not_or] at more
          have inside := runeAt_inside more.2
          have pos := runeAt_pos text p
          have next : ∀ e, eol = some e → Walk text (p + (runeAt text p).2) e := by
            intro e last
            rcases walk e last with _ | walk
            · exact absurd last more.1
            · exact walk
          have empty : (shortcut ≠ .zero && l.nl.isEmpty) = true → l.nl = [] := by
            intro check
            rw [Bool.and_eq_true] at check
            exact List.isEmpty_iff.mp check.2
          obtain ⟨result, seen⟩ := ih (text.length - (p + (runeAt text p).2)) (by omega) empty next
            (fun jump member => keeps jump (List.mem_append_right _ member)) rfl
          refine ⟨result, fun q member => ?_⟩
          rcases List.mem_cons.mp member with rfl | member
          · exact here q (List.mem_singleton_self q)
          · exact seen q member

/-- The machine is executed where a jump leads. -/
theorem loop_landed (checkstart : Bool) :
    ∀ jump ∈ (loop fuel nelem prog text eol shortcut s tl checkstart found mp).jumps, ∀ p, jump.landed = some p →
      p ∈ (loop fuel nelem prog text eol shortcut s tl checkstart found mp).seen := by
  have own (s : Nat) (checkstart found : Bool) : ∀ jump ∈ jumps text eol shortcut checkstart found s,
      jump.landed = target text eol shortcut checkstart s := by
    intro jump member
    unfold jumps at member
    split at member
    · nomatch member
    · rw [List.mem_singleton.mp member]
  induction left : text.length - s using Nat.strong_induction_on generalizing s tl checkstart found mp with
  | h n ih =>
    subst left
    intro jump member p landed
    cases goes : target text eol shortcut checkstart s with
    | none =>
      rw [loop_none goes] at member
      rw [own s checkstart found jump member, goes] at landed
      nomatch landed
    | some q =>
      have least := target_le goes
      have here (member : jump ∈ jumps text eol shortcut checkstart found s) : p = q := by
        rw [own s checkstart found jump member, goes] at landed
        exact (Option.some.inj landed).symm
      rw [loop_at goes] at member ⊢
      split at member
      · exact List.mem_singleton.mpr (here member)
      · split at member
        · rename_i last
          rw [if_pos last]
          exact List.mem_singleton.mpr (here member)
        · rename_i more
          rw [if_neg more]
          rw [not_or] at more
          have inside := runeAt_inside more.2
          have pos := runeAt_pos text q
          rcases List.mem_append.mp member with member | member
          · exact List.mem_cons.mpr (.inl (here member))
          · refine List.mem_cons_of_mem _ ?_
            exact ih (text.length - (q + (runeAt text q).2)) (by omega) _ rfl jump member p landed

/-- `^b`, as it is compiled. -/
def lineB : Reprog := ⟨0, [.bol 1, .rune 98 2, .final]⟩

def onlyB : Reprog := ⟨0, [.rune 98 1, .final]⟩

end Inferno.Regexp
