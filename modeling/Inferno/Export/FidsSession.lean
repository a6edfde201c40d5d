import Inferno.Export.Fids

namespace Inferno.Export

inductive FidReq
  | attach (fid : UInt32)
  | walk (fid newfid : UInt32) (names : List String)
  | open_ (fid : UInt32)
  | create (fid : UInt32) (name : String)
  | read (fid : UInt32) (count : Nat) (offset : Int)
  | write (fid : UInt32) (count : Nat) (offset : Int)
  | stat (fid : UInt32)
  | wstat (fid : UInt32)
  | clunk (fid : UInt32)
  | remove (fid : UInt32)

namespace FidReq

def handle (r : FidReq) (d : Devs) (s : Fids) : Reply × Fids :=
  match r with
  | attach fid => s.exattach fid d
  | walk fid newfid names => s.exwalk fid newfid names d
  | open_ fid => s.exopen fid d
  | create fid name => s.excreate fid name d
  | read fid count offset => s.exread fid count offset d
  | write fid count offset => s.exwrite fid count offset d
  | stat fid => s.exstat fid d
  | wstat fid => s.exwstat fid d
  | clunk fid => s.exclunk fid
  | remove fid => s.exremove fid d

/-- The fid that a reply says is now in use. A walk that stops early makes none. -/
def made (r : FidReq) (reply : Reply) : Option UInt32 :=
  match r, reply with
  | attach fid, .ok => some fid
  | walk fid newfid names, .walk n => if n = names.length ∧ newfid ≠ fid then some newfid else none
  | _, _ => none

/-- A fid that is not in use any more, whatever the reply. -/
def dropped : FidReq → Option UInt32
  | clunk fid => some fid
  | remove fid => some fid
  | _ => none

end FidReq

/-- An export and the fids that its client has in use. -/
structure Session where
  fids : Fids
  used : List UInt32

namespace Session

def step (a : FidReq × Devs) (w : Session) : Option Session :=
  let (reply, fids) := a.1.handle a.2 w.fids
  some ⟨fids, (a.1.made reply).toList ++ w.used.filter fun fid => a.1.dropped ≠ some fid⟩

/-- The fid is known and its channel is not open. -/
def Unopened (w : Session) (fid : UInt32) : Prop :=
  ∃ f c, w.fids.find fid.toUInt64 = some f ∧ (w.fids.fid f).chan = some c ∧ (w.fids.chan c).opened = false

/-- No fid from 2^31 on is made, and no device raises an error where the handler
has no label of its own. -/
def Clear (a : FidReq × Devs) (w : Session) : Prop :=
  match a.1 with
  | .attach fid => fid.toNat < 2 ^ 31
  | .walk fid newfid _ => w.Unopened fid → a.2.clone ≠ none ∧ (newfid ≠ fid → newfid.toNat < 2 ^ 31)
  | .open_ fid => w.Unopened fid → a.2.mount ≠ .raises
  | .stat fid => w.Unopened fid → a.2.mount ≠ .raises
  | _ => True

/-- The table has the fids that are in use, none of them is made again, no request
keeps a reference to one, and each channel is closed once, when its fid goes. -/
structure Ok (w : Session) : Prop where
  known : ∀ fid, (w.fids.exgetfid fid.toUInt64).isSome ↔ fid ∈ w.used
  refused : ∀ r d, ∀ fid ∈ w.used, FidReq.made r (r.handle d w.fids).1 ≠ some fid
  ref : ∀ b, ∀ f ∈ w.fids.hash b, (w.fids.fid f).ref = 0
  alone : ∀ b b' f g c, f ∈ w.fids.hash b → g ∈ w.fids.hash b' → (w.fids.fid f).chan = some c →
    (w.fids.fid g).chan = some c → f = g
  closed : ∀ c < w.fids.opens, c ∈ w.fids.closed ↔ c ≠ 0 ∧ ∀ b, ∀ f ∈ w.fids.hash b, (w.fids.fid f).chan ≠ some c
  once : w.fids.closed.Nodup
  safe : w.fids.crashed = false

def init (msize : Int) (root : Chan) : Session :=
  ⟨⟨fun _ => ⟨0, 0, false, none, 0⟩, 0, fun _ => [], fun _ => root, fun c => if c = 0 then 1 else 0, 1, [], msize, false⟩, []⟩

end Session

end Inferno.Export
