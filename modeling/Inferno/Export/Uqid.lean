import Inferno.Export.Fids

namespace Inferno.Export

def nqidhash : Nat := 32
def qidmask : UInt64 := ((1 : UInt64) <<< 48) - 1

/-- What a `Chan` says of its file: `c->type`, `c->dev` and `c->qid.path`. -/
structure File where
  type : UInt16
  dev : UInt64
  path : UInt64
deriving DecidableEq

/-- `q->type` is an `int`, which holds every `ushort`. -/
structure Uqid where
  ref : Int
  type : UInt16
  dev : Int32
  oldpath : UInt64
  newpath : UInt64
deriving DecidableEq

/-- A `Uqidtab`. `held` is not in the source: the references, each with the file
that it was taken for. -/
structure Uqidtab where
  uqid : Nat → Uqid
  made : Nat
  qids : Nat → List Nat
  pathgen : Nat
  held : List (File × Nat)

def uqidhash (path : UInt64) : Nat := (((path >>> 16) ^^^ (path >>> 8) ^^^ path) &&& 31).toNat

def nextgen (pathgen : Nat) : Nat := if pathgen + 1 ≥ 2 ^ 16 then 1 else pathgen + 1

def generated (pathgen : Nat) (path : UInt64) : UInt64 := (UInt64.ofNat pathgen <<< 48) ||| (path &&& qidmask)

namespace Uqidtab

variable (s : Uqidtab)

def uqidlook (c : File) : Option Nat :=
  (s.qids (uqidhash c.path)).find? fun q =>
    (s.uqid q).type == c.type && intUlong (s.uqid q).dev == c.dev && (s.uqid q).oldpath == c.path

def live : List Nat := (List.range nqidhash).flatMap s.qids

def uqidexists (path : UInt64) : Bool := s.live.any fun q => (s.uqid q).newpath == path

/-- The loop of `uqidalloc` until the path is new. -/
def freshLoop : Nat → UInt64 → Nat → Option (UInt64 × Nat)
  | 0, _, _ => none
  | fuel + 1, newpath, pathgen =>
    if s.uqidexists newpath then freshLoop fuel (generated (nextgen pathgen) newpath) (nextgen pathgen)
    else some (newpath, pathgen)

/-- After 2^16 turns the loop has seen every path that it will see. -/
def fresh (path : UInt64) : Option (UInt64 × Nat) := s.freshLoop (2 ^ 16) path s.pathgen

def incref (q : Nat) : Uqidtab :=
  { s with uqid := Function.update s.uqid q { s.uqid q with ref := (s.uqid q).ref + 1 } }

/-- `none` where it does not return. -/
def uqidalloc (c : File) : Option (Nat × Uqidtab) :=
  match s.uqidlook c with
  | some q => some (q, s.incref q)
  | none =>
    match s.fresh c.path with
    | none => none
    | some (newpath, pathgen) =>
      let q := s.made
      let b := uqidhash c.path
      some (q, { s with
        uqid := Function.update s.uqid q ⟨1, c.type, ulongInt c.dev, c.path, newpath⟩, made := q + 1,
        qids := Function.update s.qids b (s.qids b ++ [q]), pathgen })

def freeuqid (q : Nat) : Uqidtab :=
  let s := { s with uqid := Function.update s.uqid q { s.uqid q with ref := (s.uqid q).ref - 1 } }
  if (s.uqid q).ref = 0 then
    let b := uqidhash (s.uqid q).oldpath
    { s with qids := Function.update s.qids b ((s.qids b).erase q) }
  else s

def init : Uqidtab := ⟨fun _ => ⟨0, 0, 0, 0, 0⟩, 0, fun _ => [], 0, []⟩

end Uqidtab

/-- A handler takes a reference for a file, or for another channel to the same
file, or it frees one. -/
inductive UAct
  | alloc (c : File)
  | share (c : File) (q : Nat)
  | free (c : File) (q : Nat)

def UAct.exec (a : UAct) (s : Uqidtab) : Option Uqidtab :=
  match a with
  | alloc c => (s.uqidalloc c).map fun (q, s) => { s with held := (c, q) :: s.held }
  | share c q => if (c, q) ∈ s.held then some { s.incref q with held := (c, q) :: s.held } else none
  | free c q => if (c, q) ∈ s.held then some { s.freeuqid q with held := s.held.erase (c, q) } else none

/-- The device number is the same as an `int`. -/
def UAct.Fits (a : UAct) (_ : Uqidtab) : Prop :=
  match a with
  | alloc c => intUlong (ulongInt c.dev) = c.dev
  | _ => True

/-- Fewer live entries than generations have a path with the low bits of `path`. -/
def Uqidtab.Roomy (s : Uqidtab) (path : UInt64) : Prop :=
  (s.live.filter fun q => (s.uqid q).newpath &&& qidmask == path &&& qidmask).length < 65535

/-- `uqidalloc` ends, finds the entry of a file as long as there is a reference to
it, and different entries have different paths; so paths are the same for the same file. -/
structure Uqidtab.Ok (s : Uqidtab) : Prop where
  ends : ∀ c : File, s.Roomy c.path → (s.uqidalloc c).isSome
  same : ∀ c q, (c, q) ∈ s.held → (s.uqidalloc c).map Prod.fst = some q
  injective : ∀ q ∈ s.live, ∀ q' ∈ s.live, (s.uqid q).newpath = (s.uqid q').newpath → q = q'
  unique : ∀ a ∈ s.held, ∀ b ∈ s.held, (s.uqid a.2).newpath = (s.uqid b.2).newpath ↔ a.1 = b.1

end Inferno.Export
