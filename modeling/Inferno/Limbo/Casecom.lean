import Inferno.Dis.Icase

namespace Inferno.Limbo
open Inferno.Dis

/-- A C `int` on the host. -/
def s32 (v : Int) : Int := v.bmod (2 ^ 32)

/-- The qualifiers of a case arm: `Oconst`, `Orange` and `Owild` nodes. -/
inductive Qual
  | const (v : Int)
  | range (left right : Int)
  | wild
  deriving DecidableEq

/-- The first and the last value of a qualifier. -/
def Qual.bounds : Qual → Option (Int × Int)
  | .const v => some (v, v)
  | .range left right => some (left, right)
  | .wild => none

def Qual.Covers (q : Qual) (v : Int) : Prop := ∃ b ∈ q.bounds, b.1 ≤ v ∧ v ≤ b.2

instance (q : Qual) (v : Int) : Decidable (q.Covers v) :=
  inferInstanceAs (Decidable (∃ b ∈ q.bounds, b.1 ≤ v ∧ v ≤ b.2))

/-- An arm and the pc at which its code starts (`nextinst()` when it is compiled). -/
structure Arm where
  quals : List Qual
  inst : Nat
  deriving DecidableEq

def Arm.Covers (a : Arm) (v : Int) : Prop := ∃ q ∈ a.quals, q.Covers v

instance (a : Arm) (v : Int) : Decidable (a.Covers v) :=
  inferInstanceAs (Decidable (∃ q ∈ a.quals, q.Covers v))

/-- `Label` of `limbo.h`; `inst` is nil until an arm claims the label. -/
structure Lab where
  start : Int
  stop : Int
  inst : Option Nat
  deriving DecidableEq

/-- A checked `case` on an int: the arms in source order and the labels as
`checklabels` leaves them, sorted, disjoint, and merged only within one arm.
`endpc` is the pc after the whole statement. -/
structure IntCase where
  arms : List Arm
  labs : List (Int × Int)
  endpc : Nat
  sorted : labs.Pairwise (fun a b => a.2 < b.1)
  ranges : ∀ l ∈ labs, -2 ^ 31 ≤ l.1 ∧ l.1 ≤ l.2 ∧ l.2 < 2 ^ 31
  within : ∀ a ∈ arms, ∀ q ∈ a.quals, ∀ lo hi, q.bounds = some (lo, hi) →
    lo ≤ hi ∧ ∃ l ∈ labs, l.1 ≤ lo ∧ hi ≤ l.2
  covered : ∀ l ∈ labs, ∃ a ∈ arms, ∀ v, l.1 ≤ v → v ≤ l.2 → a.Covers v
  disjoint : ∀ a ∈ arms, ∀ b ∈ arms, ∀ v, a.Covers v → b.Covers v → a.inst = b.inst
  pcs : ∀ a ∈ arms, a.inst < 2 ^ 31
  endpc_lt : endpc < 2 ^ 31
  count : 3 * labs.length < 2 ^ 31

/-- The inner loop of `dogoto`, which writes one entry of `nl` for each `j` up
to `q`. `room` counts the entries left; the result is nil once the loop runs
past the end of the array. -/
def expand : Nat → Int → Int → Option (List Int × Nat)
  | 0, j, q => if j ≤ q then none else some ([], 0)
  | room + 1, j, q =>
    if j ≤ q then (expand room (s32 (j + 1)) q).map (fun (js, left) => (j :: js, left))
    else some ([], room + 1)

/-- The outer loop of `dogoto`; `v` is the stop of the previous label. -/
def expandLabs : List (Int × Int) → Int → Nat → Option (List Int × Nat)
  | [], _, room => some ([], room)
  | l :: rest, v, room => do
    let (js, room) ← expand room (s32 (v + 1)) (s32 l.2)
    let (ks, room) ← expandLabs rest (s32 l.2) room
    some (js ++ ks, room)

/-- The span of the labels as `dogoto` computes it, in an `int`. -/
def span (labs : List (Int × Int)) : Int :=
  match labs.head?, labs.getLast? with
  | some first, some last => s32 (last.2 - first.1 + 1)
  | _, _ => 0

/-- `dogoto`'s test for a dense table. -/
def Dense (labs : List (Int × Int)) : Prop :=
  3 ≤ span labs ∧ span labs ≤ 3 * labs.length

instance (labs : List (Int × Int)) : Decidable (Dense labs) :=
  inferInstanceAs (Decidable (_ ∧ _))

/-- The labels of a goto table with ranges removed and gaps filled in; any
other number of entries than `r` is the fatal error. -/
def expansion (labs : List (Int × Int)) (first r : Int) : Option (List Lab) :=
  match expandLabs labs (s32 (first - 1)) r.toNat with
  | some (js, 0) => some (js.map (fun j => ⟨j, j, none⟩))
  | _ => none

/-- `dogoto`: whether a goto table is used, and the labels it leaves in `c`. -/
def dogoto (labs : List (Int × Int)) : Option (Bool × List Lab) :=
  let plain := labs.map (fun l => ⟨l.1, l.2, none⟩)
  match labs with
  | [] => some (false, plain)
  | first :: _ =>
    let r := span labs
    if Dense labs then
      if r = labs.length then some (true, plain)
      else (expansion labs first.1 r).map (fun labs => (true, labs))
    else some (false, plain)

/-- The loop of `fillrange` from the entry whose start is `p` on. -/
def fillLoop (inst : Nat) : List Lab → Int → Int → Option (List Lab)
  | [], j, q => if j ≤ q then none else some []
  | l :: rest, j, q =>
    if j ≤ q then (fillLoop inst rest (s32 (j + 1)) q).map ({ l with inst := some inst } :: ·)
    else some (l :: rest)

/-- `fillrange`: nil when no entry starts at `p`, or when the loop leaves the table. -/
def fillrange (inst : Nat) : List Lab → Int → Int → Option (List Lab)
  | [], _, _ => none
  | l :: rest, p, q =>
    if l.start = p then fillLoop inst (l :: rest) p q
    else (fillrange inst rest p q).map (l :: ·)

/-- The loop of `findlab`. -/
def findlabLoop (labs : List Lab) (v : Int) : Nat → Nat → Nat → Nat
  | 0, l, _ => l
  | fuel + 1, l, r =>
    if l ≤ r then
      let m := (r + l) / 2
      match labs[m]? with
      | some lab => if lab.start ≤ v then findlabLoop labs v fuel (m + 1) r
        else findlabLoop labs v fuel l (m - 1)
      | none => l
    else l

/-- `findlab`: the index of the label that holds `v`; nil is the fatal error. -/
def findlab (labs : List Lab) (v : Int) : Option Nat :=
  if labs.length ≤ 1 then some 0
  else
    let m := findlabLoop labs v labs.length 1 (labs.length - 1) - 1
    match labs[m]? with
    | some lab => if lab.start ≤ v ∧ v ≤ lab.stop then some m else none
    | none => none

/-- `labs[m].inst = j`. -/
def setInst (labs : List Lab) (m inst : Nat) : List Lab :=
  labs.modify m (fun l => { l with inst := some inst })

/-- What `casecom` does to the labels for one qualifier of an arm. -/
def setQual (igoto : Bool) (inst : Nat) (labs : List Lab) : Qual → Option (List Lab)
  | .const v => (findlab labs v).map (setInst labs · inst)
  | .range left right => do
    let m ← findlab labs left
    let labs := setInst labs m inst
    if igoto then fillrange inst labs left right else some labs
  | .wild => some labs

def setArms (igoto : Bool) (labs : List Lab) (arms : List Arm) : Option (List Lab) :=
  arms.foldlM (fun labs a => a.quals.foldlM (setQual igoto a.inst) labs) labs

/-- The wildcard instruction: the last arm qualified by `*`, or what follows
the statement. -/
def IntCase.wild (c : IntCase) : Nat :=
  match c.arms.reverse.find? (fun a => decide (Qual.wild ∈ a.quals)) with
  | some a => a.inst
  | none => c.endpc

/-- Operands of the dispatch code: the selector, the temporary `tmpc`, constants. -/
inductive Opnd
  | left
  | tmpc
  | imm (v : Int)

/-- The instructions `casecom` emits before the arms. -/
inductive Instr
  | movw (s : Opnd)
  | subw (s m : Opnd)
  | bltw (s m : Opnd) (dest : Nat)
  | bgtw (s m : Opnd) (dest : Nat)
  | goto (s : Opnd)
  | case (s : Opnd)

/-- What `casecom` leaves: the dispatch code, the labels of the table it
refers to and the wildcard, and which of the two kinds of table it is. -/
structure CaseCode where
  igoto : Bool
  code : List Instr
  labs : List Lab
  iwild : Nat

/-- The dispatch code. `indirect` says that the selector is addressed through
a pointer, in which case it is copied first; `first` and `last` are
`labs[0].start` and `labs[nlab-1].start` after `dogoto`. -/
def gotoCode (indirect : Bool) (first last : Int) (wild : Nat) : List Instr :=
  let sel : Opnd := if first ≠ 0 then .tmpc else .left
  (if first ≠ 0 then
    (if indirect then [.movw .left, .subw (.imm first) .tmpc] else [.subw (.imm first) .left])
    else []) ++
  [.bltw sel (.imm 0) wild, .bgtw sel (.imm (last - first)) wild, .goto sel]

/-- `casecom` for a `case` on an int. A nil result means that the compiler
itself ran off the end of its label array. -/
def casecom (indirect : Bool) (c : IntCase) : Option CaseCode := do
  let (igoto, labs) ← dogoto c.labs
  let filled ← setArms igoto labs c.arms
  match igoto, labs.head?, labs.getLast? with
  | true, some first, some last =>
    some ⟨true, gotoCode indirect first.start last.start c.wild,
      filled.map (fun l => if l.inst = none then { l with inst := some c.wild } else l), c.wild⟩
  | _, _, _ => some ⟨false, [.case .left], filled, c.wild⟩

/-- `disdatum` for `Tcase`, after the count. -/
def caseEntries (wild : Nat) : Nat → List Lab → List Datum
  | off, [] => [disint off wild]
  | off, lab :: rest =>
    disint off lab.start :: disint (off + iby2wd) (lab.stop + 1) ::
      disint (off + iby2wd + iby2wd) (lab.inst.getD 0) ::
      caseEntries wild (off + iby2wd + iby2wd + iby2wd) rest

/-- `disdatum` for `Tgoto`, after the count. -/
def gotoEntries (wild : Nat) : Nat → List Lab → List Datum
  | off, [] => [disint off wild]
  | off, lab :: rest => disint off (lab.inst.getD 0) :: gotoEntries wild (off + iby2wd) rest

/-- `disdatum` for the table of a case statement. The count word of a goto
table is `size/IBY2WD - 1`, with `sizetype`'s size for `Tgoto`. -/
def disdatumCase (off : Nat) (c : CaseCode) : List Datum :=
  if c.igoto then
    disint off ((c.labs.length * iby2wd + iby2wd + iby2wd : Nat) / iby2wd - 1 : Nat) ::
      gotoEntries c.iwild (off + iby2wd) c.labs
  else disint off c.labs.length :: caseEntries c.iwild (off + iby2wd) c.labs

/-- The two frame words the dispatch code works on. -/
structure Regs where
  left : Int
  tmpc : Int

def Regs.get (r : Regs) : Opnd → Int
  | .left => r.left
  | .tmpc => r.tmpc
  | .imm v => v

/-- The VM on the dispatch code, for the table at `off`. `movw` and `subw`
store into `tmpc`; words are 64 bits wide, branches compare their low halves. -/
def exec (mem : Mem) (off : Nat) : List Instr → Regs → Option Int
  | [], _ => none
  | .movw s :: rest, r => exec mem off rest { r with tmpc := r.get s }
  | .subw s m :: rest, r => exec mem off rest { r with tmpc := (r.get m - r.get s).bmod (2 ^ 64) }
  | .bltw s m dest :: rest, r => if w32 (r.get s) < w32 (r.get m) then some dest else exec mem off rest r
  | .bgtw s m dest :: rest, r => if w32 (r.get m) < w32 (r.get s) then some dest else exec mem off rest r
  | .goto s :: _, r => some (igoto mem (off + iby2wd) (r.get s))
  | .case s :: _, r => some (icase mem off (r.get s))

/-- The pc of the arm that covers a value. -/
def IntCase.owner (c : IntCase) (v : Int) : Option Nat :=
  (c.arms.find? (fun a => decide (a.Covers v))).map Arm.inst

/-- Where a selector must go: to the arm that covers it, or to the wildcard. -/
def IntCase.target (c : IntCase) (v : Int) : Nat := (c.owner v).getD c.wild

/-- The compiler produces dispatch code, and the VM running it on the loaded
table sends every 32-bit selector where it must go. -/
def CaseDispatches (indirect : Bool) (c : IntCase) (off : Nat) (mem : Mem) : Prop :=
  ∃ code, casecom indirect c = some code ∧
    ∀ v tmpc, -2 ^ 31 ≤ v → v < 2 ^ 31 →
      exec (loadData mem (disdatumCase off code)) off code.code ⟨v, tmpc⟩ = some (c.target v : Int)

end Inferno.Limbo
