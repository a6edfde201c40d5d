import Inferno.Styxservers.Answer
import Inferno.Styxlib.Exact
import Inferno.Lib.Run

namespace Inferno.Styxservers

open Styxlib Lib

variable {σ : Type} {junk : UInt8} {nav : Navigator σ} {srv srv' : Styxserver σ} {t t' : σ} {c b : Fid} {names : List Str}

open Styxserver

/-- The loop of `walk` changes a fid's path and type only. -/
theorem walknames_kept : ∀ {names : List Str} {t t' : σ} {c c' : Fid} {qids : List Qid} {stop : Option Str},
    walknames nav names t c = ((c', qids, stop), t') →
      { c' with path := c.path, qtype := c.qtype } = c ∧ (stop = none → qids.length = names.length) ∧
        (stop ≠ none → qids.length < names.length)
  | [], t, t', c, c', qids, stop, walked => by
    cases walked
    exact ⟨rfl, fun _ => rfl, fun some_ => absurd rfl some_⟩
  | name :: names, t, t', c, c', qids, stop, walked => by
    unfold walknames at walked
    split at walked
    · cases walked
      exact ⟨rfl, fun none_ => (nomatch none_), fun _ => Nat.zero_lt_succ _⟩
    · rename_i d err t₁ one
      rcases rest : walknames nav names t₁ (c.walk d.qid) with ⟨⟨c₁, qids₁, stop₁⟩, t₂⟩
      rw [rest] at walked
      cases walked
      obtain ⟨same, whole, part⟩ := walknames_kept rest
      refine ⟨?_, fun none_ => congrArg (· + 1) (whole none_), fun some_ => Nat.succ_lt_succ (part some_)⟩
      have back := congrArg (fun f : Fid => { f with path := c.path, qtype := c.qtype }) same
      exact back

/-- It reads a fid's path and user only. -/
theorem walknames_congr (path : c.path = b.path) (uname : c.uname = b.uname) :
    (walknames nav names t c).1.2 = (walknames nav names t b).1.2 ∧ (walknames nav names t c).2 = (walknames nav names t b).2 := by
  induction names generalizing t c b with
  | nil => exact ⟨rfl, rfl⟩
  | cons name names ih =>
    have one : walk1 nav t c name = walk1 nav t b name := by
      unfold walk1
      rw [path, uname]
    unfold walknames
    rw [one]
    rcases walk1 nav t b name with ⟨⟨d, err⟩, t₁⟩
    cases d with
    | none => exact ⟨rfl, rfl⟩
    | some d =>
      obtain ⟨first, second⟩ := ih (t := t₁) (c := c.walk d.qid) (b := b.walk d.qid) rfl uname
      dsimp only
      rcases eq₁ : walknames nav names t₁ (c.walk d.qid) with ⟨⟨c₁, qids₁, stop₁⟩, t₂⟩
      rcases eq₂ : walknames nav names t₁ (b.walk d.qid) with ⟨⟨c₂, qids₂, stop₂⟩, t₃⟩
      rw [eq₁, eq₂] at first second
      cases first
      exact ⟨rfl, second⟩

theorem walk1_small {name : Str} {err : Str} (small : nav.Small) (stopped : walk1 nav t c name = ((none, err), t')) :
    utflen err + 73 < 2 ^ 31 := by
  unfold walk1 at stopped
  have first := (small.stat t c.path).1
  rcases eq : nav.stat t c.path with ⟨⟨d, err₁⟩, t₁⟩
  rw [eq] at stopped first
  cases d with
  | none =>
    cases stopped
    exact first
  | some d =>
    dsimp only at stopped
    split at stopped
    · cases stopped
      decide
    · split at stopped
      · cases stopped
        decide
      · have second := small.walk t₁ d.qid.path name
        rw [stopped] at second
        exact second

theorem walknames_small (small : nav.Small) : ∀ {names : List Str} {t t' : σ} {c c' : Fid} {qids : List Qid} {err : Str},
    walknames nav names t c = ((c', qids, some err), t') → utflen err + 73 < 2 ^ 31
  | [], t, t', c, c', qids, err, walked => by
    nomatch walked
  | name :: names, t, t', c, c', qids, err, walked => by
    unfold walknames at walked
    split at walked
    · rename_i one
      cases walked
      exact walk1_small small one
    · rename_i d _ t₁ one
      rcases rest : walknames nav names t₁ (c.walk d.qid) with ⟨⟨c₁, qids₁, stop₁⟩, t₂⟩
      rw [rest] at walked
      cases walked
      exact walknames_small small rest

theorem fine_walkfrom {s : Styxserver σ} {tag fid newfid : Int} (session : Session s) (start : s.fd = srv.fd)
    (found : s.getfid newfid = some c) (back : ∀ t, Same srv (if newfid ≠ fid then { s with t := t }.delfid c else { s with t := t }))
    (small : nav.Small) (array : 24 * names.length + 64 < 2 ^ 31)
    (fits : (walknames nav names s.t c).1.2.2 = none → (9 + 13 * names.length : Int) ≤ s.msize) :
    Fine junk ⟨tag, .walk fid newfid names⟩ srv (s.walkfrom junk nav tag fid newfid names c) := by
  obtain ⟨least, most⟩ := session.agreed found
  have agreed : s.msize ≠ 0 := by omega
  unfold walkfrom
  rw [if_neg (by omega)]
  rcases walked : walknames nav names s.t c with ⟨⟨c', qids, stop⟩, t⟩
  rw [walked] at fits
  obtain ⟨restored, whole, part⟩ := walknames_kept walked
  have size : Rmsg.packedsize ⟨tag, .walk qids⟩ = 9 + 13 * qids.length := rfl
  dsimp only
  cases stop with
  | none =>
    have all := whole rfl
    have room := fits rfl
    refine fine_fits start (session.with_t.setfid agreed) trivial rfl ?_ agreed ?_
    · exact fun less => absurd all (Nat.ne_of_lt less)
    · change ((Rmsg.packedsize ⟨tag, .walk qids⟩ : Nat) : Int) ≤ s.msize
      omega
  | some err =>
    have less := part (Option.some_ne_none err)
    have same := back t
    have short := walknames_small small walked
    have again : ({ s with t := t } : Styxserver σ).setfid c = { s with t := t } := setfid_found (n := newfid) found
    have number : c'.fid = c.fid := (congrArg Fid.fid restored :)
    dsimp only
    rw [restored, again, show ({ s with t := t } : Styxserver σ).delfid c' = { s with t := t }.delfid c by unfold delfid; rw [number]]
    generalize into : (if newfid ≠ fid then ({ s with t := t } : Styxserver σ).delfid c else { s with t := t }) = s' at same ⊢
    have kept : s'.fd = srv.fd ∧ Session s' := by
      rw [← into]
      split
      · exact ⟨start, session.with_t.delfid agreed⟩
      · exact ⟨start, session.with_t⟩
    split
    · exact fine_error kept.1 kept.2 short same
    · have room : (Rmsg.packedsize ⟨tag, .walk qids⟩) + 64 < 2 ^ 31 := by omega
      exact fine_reply kept.1 kept.2 trivial room (.inl rfl) (fun _ => same) fun _ _ _ => same

/-- What `walk` needs of a message that it can begin with: qids that an array holds and, if all the names are there, a reply. -/
def WalkSound (nav : Navigator σ) (srv : Styxserver σ) (fid newfid : Int) (names : List Str) : Prop :=
  ∀ c, srv.getfid fid = some c → c.isopen = 0 → newfid = fid ∨ srv.getfid newfid = none →
    24 * names.length + 64 < 2 ^ 31 ∧ ((walknames nav names srv.t c).1.2.2 = none → (9 + 13 * names.length : Int) ≤ srv.msize)

theorem fine_walk {tag fid newfid : Int} (session : Session srv) (small : nav.Small) (sound : WalkSound nav srv fid newfid names) :
    Fine junk ⟨tag, .walk fid newfid names⟩ srv (srv.walk junk nav tag fid newfid names) := by
  unfold Styxserver.walk
  cases found : srv.getfid fid with
  | none => exact fine_error rfl session (by decide) Same.refl
  | some c =>
    dsimp only
    by_cases opened : c.isopen ≠ 0
    · rw [if_pos opened]
      exact fine_error rfl session (by decide) Same.refl
    rw [if_neg opened]
    have sound := sound c found (not_not.mp opened)
    by_cases other : newfid ≠ fid
    · rw [if_pos other]
      obtain ⟨least, -⟩ := session.agreed found
      cases made : srv.newfid newfid with
      | none => exact fine_error rfl session (by decide) Same.refl
      | some made' =>
        obtain ⟨nc, srv'⟩ := made'
        obtain ⟨unused, fresh, grown⟩ := newfid_eq made
        obtain ⟨array, fits⟩ := sound (.inr unused)
        have number : (c.clone nc).fid = newfid := by rw [fresh]; rfl
        have next : Session (srv'.setfid (c.clone nc)) := (session.newfid (by omega) made).setfid (by rw [grown]; change srv.msize ≠ 0; omega)
        refine fine_walkfrom next (by rw [grown]; rfl) (getfid_new made number) (fun t => ?_) small array fun ended => ?_
        · rw [if_pos other]
          exact same_delfid made number
        · have same := (@walknames_congr _ nav srv.t c (c.clone nc) names rfl rfl).1
          have here : (srv'.setfid (c.clone nc)).t = srv.t := by rw [grown]; rfl
          rw [here, ← same] at ended
          exact (fits ended).trans_eq (by rw [grown]; rfl)
    · rw [if_neg other]
      have same := not_not.mp other
      obtain ⟨array, fits⟩ := sound (.inl same)
      refine fine_walkfrom session rfl (same ▸ found) (fun t => ?_) small array fits
      rw [if_neg other]
      exact Same.with_t

theorem readents_fits {moffset : Int} {len : Nat} : ∀ {ds : List Dir} {r : Reading}, r.a.length = len → (r.p : Int) + r.count = len →
    0 ≤ r.count → len + 64 < 2 ^ 31 → ∃ r' stop, readents junk moffset ds r = some (r', stop) ∧ r'.a.length = len ∧ r'.p ≤ len ∧
      (stop = false → (r'.p : Int) + r'.count = len ∧ 0 ≤ r'.count)
  | [], r, length, room, positive, small => ⟨r, false, rfl, length, by omega, fun _ => ⟨room, positive⟩⟩
  | d :: ds, r, length, room, positive, small => by
    unfold readents
    dsimp only
    by_cases skip : r.offset + packdirsize d < moffset
    · rw [if_pos skip]
      exact readents_fits (r := { r with offset := r.offset + packdirsize d, index := r.index + 1 }) length room positive small
    rw [if_neg skip]
    by_cases full : r.count - packdirsize d < 0
    · rw [if_pos full]
      exact ⟨_, true, rfl, length, by dsimp only; omega, fun some_ => by cases some_⟩
    rw [if_neg full, packdir_eq d (by omega)]
    have inside : r.p + (dirBytes junk d).length ≤ r.a.length := by
      rw [length_dirBytes]
      omega
    simp only [Option.bind_eq_bind, Option.bind_some, put]
    rw [if_pos inside, Option.bind_some]
    refine readents_fits ?_ ?_ ?_ small
    · simp only [List.length_append, List.length_take, List.length_drop, length_dirBytes] at inside ⊢
      omega
    · dsimp only
      omega
    · dsimp only
      omega

theorem dread_fits {path : Int64} {moffset : Int} {len : Nat} (small : len + 64 < 2 ^ 31) (t : σ) (r : Reading) (length : r.a.length = len)
    (room : (r.p : Int) + r.count = len) (positive : 0 ≤ r.count) :
    ∃ r' t', dread junk nav path moffset t r = some (r', t') ∧ r'.a.length = len ∧ r'.p ≤ len := by
  induction left : r.left moffset using Nat.strong_induction_on generalizing t r with
  | _ k ih =>
    unfold dread
    rcases Styxserver.readdir nav t path r.index ((r.count + DIRREADSIZE - 1).tdiv DIRREADSIZE) with ⟨ds, t'⟩
    cases ds with
    | nil => exact ⟨r, t', rfl, length, by omega⟩
    | cons d ds =>
      obtain ⟨r', stop, ran, length', within, more⟩ := @readents_fits junk moffset _ (d :: ds) _ length room positive small
      dsimp only
      split
      · rename_i none_
        rw [ran] at none_
        cases none_
      · rename_i r₁ stopped
        rw [ran] at stopped
        cases stopped
        exact ⟨r', t', rfl, length', within⟩
      · rename_i r₁ on
        rw [ran] at on
        cases on
        obtain ⟨room', positive'⟩ := more rfl
        exact ih _ (left ▸ (readents_left ran).2 (List.cons_ne_nil d ds)) t' r' length' room' positive' rfl

theorem fine_read {tag fid count : Int} {offset : Int64} (session : Session srv) :
    Fine junk ⟨tag, .read fid offset count⟩ srv (srv.read junk nav tag fid offset count) := by
  have refused : ∀ {err}, utflen err + 73 < 2 ^ 31 → Fine junk ⟨tag, .read fid offset count⟩ srv (srv.error junk tag err) :=
    fun short => fine_error rfl session short Same.refl
  unfold Styxserver.read Styxserver.canread
  cases found : srv.getfid fid with
  | none => exact refused (by decide)
  | some c =>
    obtain ⟨least, most⟩ := session.agreed found
    have agreed : srv.msize ≠ 0 := by omega
    have header : ((IOHDRSZ : Nat) : Int) = 24 := rfl
    dsimp only
    by_cases closed : c.isopen = 0
    · rw [if_pos closed]
      exact refused (by decide)
    rw [if_neg closed]
    by_cases mode : c.mode % 4 ≠ OREAD ∧ c.mode % 4 ≠ ORDWR
    · rw [if_pos mode]
      exact refused (by decide)
    rw [if_neg mode]
    by_cases large : count < 0 ∨ count > srv.msize - IOHDRSZ
    · rw [if_pos large]
      exact refused (by decide)
    rw [if_neg large]
    by_cases before : offset < 0
    · rw [if_pos before]
      exact refused (by decide)
    rw [if_neg before]
    dsimp only
    by_cases file : Int.land c.qtype QTDIR = 0
    · rw [if_pos file]
      exact refused (by decide)
    rw [if_neg file]
    by_cases empty : count ≤ 0
    · rw [if_pos empty]
      refine fine_fits rfl session trivial rfl id agreed ?_
      change (11 : Int) ≤ srv.msize
      omega
    rw [if_neg empty, newarray, if_pos (by omega), Option.bind_eq_bind, Option.bind_some]
    generalize (if offset.toInt ≠ c.doffset.1 then ((0 : Int), (0 : Int)) else c.doffset) = place
    obtain ⟨place, index⟩ := place
    obtain ⟨r, t, ran, length, within⟩ := @dread_fits _ junk nav c.path offset.toInt
      count.toNat (by omega) srv.t ⟨place, index, count, 0, List.replicate count.toNat junk⟩ (List.length_replicate ..)
      (by dsimp only; omega) (by dsimp only; omega)
    dsimp only
    rw [ran, Option.bind_eq_bind, Option.bind_some]
    refine fine_fits rfl (session.with_t.setfid agreed) trivial rfl id agreed ?_
    have size : Rmsg.packedsize ⟨tag, .read (r.a.take r.p)⟩ = 11 + (r.a.take r.p).length := rfl
    change ((Rmsg.packedsize ⟨tag, .read (r.a.take r.p)⟩ : Nat) : Int) ≤ srv.msize
    rw [size, List.length_take]
    omega

/-- The messages that no slip of the handlers concerns. -/
def Sound (nav : Navigator σ) (srv : Styxserver σ) (m : Tmsg) : Prop :=
  match m.req with
  | .version msize _ => ¬(srv.msize ≤ 0 ∧ msize < 256)
  | .attach _ _ _ _ => srv.msize = 0 → ∀ d, (nav.stat srv.t srv.rootpath).1.1 = some d → Int.land d.qid.qtype QTDIR = 0
  | .walk fid newfid names => WalkSound nav srv fid newfid names
  | _ => True

theorem fine_default {m : Tmsg} (session : Session srv) (small : nav.Small) (real : m.req.Real) (sound : Sound nav srv m) :
    Fine junk m srv (srv.default_ junk nav (some m)) := by
  obtain ⟨tag, req⟩ := m
  cases req with
  | readerror _ => nomatch real
  | version msize ver => exact fine_version session sound
  | auth afid uname aname => exact fine_error rfl session (by decide) Same.refl
  | attach fid afid uname aname => exact fine_attach session small sound
  | flush oldtag => exact fine_flush session
  | walk fid newfid names => exact fine_walk session small sound
  | open_ fid mode => exact fine_open session small
  | create fid name perm mode => exact fine_error rfl session (by decide) Same.refl
  | read fid offset count => exact fine_read session
  | write fid offset data => exact fine_error rfl session (by decide) Same.refl
  | clunk fid => exact fine_clunk session
  | stat fid => exact fine_stat session small
  | remove fid => exact fine_remove session
  | wstat fid stat => exact fine_error rfl session (by decide) Same.refl

theorem session_new (t : σ) (rootpath : Int64) : Session (Styxserver.new t rootpath) :=
  ⟨fun _ => ⟨fun _ member => absurd member List.not_mem_nil, List.nodup_nil⟩, .inl ⟨rfl, fun _ => rfl⟩⟩

/-- A request whose answer was packed as an error was refused. -/
theorem refused {srv srv' : Styxserver σ} {m : Tmsg} {bytes : List UInt8} (fd : srv'.fd = srv.fd ++ [bytes]) (error : bytes[4]? = some 107)
    (keeps : ∀ fid, m.req ≠ .remove fid) (answered : Answered junk m srv srv') : Same srv srv' := by
  obtain ⟨r, ⟨bytes', packed, written, -⟩, -, kind, same⟩ := answered
  obtain rfl : bytes = bytes' := List.singleton_inj.mp (List.append_cancel_left (fd.symm.trans written))
  obtain ⟨tag, rep⟩ := r
  have real : rep.Real := by
    cases rep with
    | readerror _ =>
      obtain rfl := Option.some.inj packed
      nomatch error
    | _ => trivial
  have whole := @Rmsg.pack_eq junk ⟨tag, rep⟩ real (Rmsg.pack_small real packed)
  obtain rfl := Option.some.inj (packed.symm.trans whole)
  have type := Option.some.inj (error : some (byte rep.mtype) = some 107)
  have number : rep.mtype = 107 := by
    cases rep with
    | error _ => rfl
    | readerror _ => nomatch real
    | _ => nomatch type
  obtain ⟨ename, rfl⟩ : ∃ ename, rep = .error ename := by
    refine kind.resolve_left fun other => ?_
    obtain ⟨tag, req⟩ := m
    rw [number] at other
    cases req with
    | _ => nomatch other
  refine same ?_
  obtain ⟨tag, req⟩ := m
  cases req with
  | remove fid => exact absurd rfl (keeps fid)
  | _ => trivial

def here : Dir := { (default : Dir) with qid := ⟨1, 0, QTDIR⟩, mode := DMDIR + 0o777 }

/-- A navigator of one directory, in which a walk goes from path to path. -/
def stay : Navigator Unit where
  stat _ path := ((some { here with qid := ⟨path, 0, QTDIR⟩ }, []), ())
  walk _ path _ := ((some { here with qid := ⟨path + 1, 0, QTDIR⟩ }, []), ())
  readdir _ _ _ _ := ([], ())

theorem stay_small : stay.Small := by
  constructor
  · intro t path
    refine ⟨show utflen [] + 73 < 2 ^ 31 by decide, fun d same => ?_⟩
    obtain rfl := Option.some.inj same
    change packdirsize here + 73 < 2 ^ 31
    decide
  · intro t path name
    change utflen [] + 73 < 2 ^ 31
    decide

/-- A server of it on which a version was agreed, with fid 5 at its root. -/
def attached : Styxserver Unit :=
  { Styxserver.new () 1 with msize := 256, fids := fun i => if i = slot 5 then [⟨5, 1, QTDIR, 0, 0, (0, 0), [], [], []⟩] else [] }

end Inferno.Styxservers
