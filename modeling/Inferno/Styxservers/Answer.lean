import Inferno.Styxservers.Table

namespace Inferno.Styxservers

open Styxlib

variable {σ : Type} {junk : UInt8} {nav : Navigator σ} {srv srv' s s' : Styxserver σ} {t : σ} {c b : Fid} {n : Int} {m : Tmsg}
  {rep : Rrep}

/-- No answer has strings that fill an array. -/
structure Navigator.Small (nav : Navigator σ) : Prop where
  stat : ∀ t path, utflen (nav.stat t path).1.2 + 73 < 2 ^ 31 ∧ ∀ d, (nav.stat t path).1.1 = some d → packdirsize d + 73 < 2 ^ 31
  walk : ∀ t path name, utflen (nav.walk t path name).1.2 + 73 < 2 ^ 31

/-- A session's message size: none yet, or what a `Tversion` agreed to. -/
structure Session (srv : Styxserver σ) : Prop where
  inv : Inv srv
  msize : (srv.msize = 0 ∧ ∀ i, srv.fids i = []) ∨ 256 ≤ srv.msize ∧ srv.msize ≤ MAXRPC

/-- `r` alone was written, within the message size. -/
def Wrote (junk : UInt8) (srv : Styxserver σ) (r : Rmsg) (srv' : Styxserver σ) : Prop :=
  ∃ bytes, r.pack junk = some bytes ∧ srv'.fd = srv.fd ++ [bytes] ∧ (srv'.msize ≠ 0 → (bytes.length : Int) ≤ srv'.msize)

/-- An error, or a walk that did not get to its end. -/
def Refusal : Treq → Rrep → Prop
  | .remove _, .error _ => False
  | _, .error _ => True
  | .walk _ _ names, .walk qids => qids.length < names.length
  | _, _ => False

/-- One reply of the message's tag and kind, or an error; and no change where it is refused. -/
def Answered (junk : UInt8) (m : Tmsg) (srv srv' : Styxserver σ) : Prop :=
  ∃ r : Rmsg, Wrote junk srv r srv' ∧ r.tag = m.tag ∧ (r.rep.mtype = m.req.mtype + 1 ∨ ∃ ename, r.rep = .error ename) ∧
    (Refusal m.req r.rep → Same srv srv')

theorem error_pack (tag : Int) (ename : Str) (small : utflen ename + 73 < 2 ^ 31) :
    ∃ bytes, Rmsg.pack junk ⟨tag, .error ename⟩ = some bytes ∧ bytes.length = 9 + utflen ename := by
  have size : Rmsg.packedsize ⟨tag, .error ename⟩ = 9 + utflen ename := rfl
  refine ⟨_, Rmsg.pack_eq ⟨tag, .error ename⟩ trivial (by omega), ?_⟩
  rw [List.length_append, length_hdrBytes, Rrep.body, length_strBytes]
  unfold H STR
  omega

/-- What is replied is written, or an error in its place: where no version was agreed, or it is too long. -/
theorem reply_spec {tag : Int} (session : srv.msize = 0 ∨ 256 ≤ srv.msize) (real : rep.Real)
    (small : (Rmsg.mk tag rep).packedsize + 64 < 2 ^ 31) :
    ∃ r fd, srv.reply junk ⟨tag, rep⟩ = some { srv with fd := fd } ∧ Wrote junk srv r { srv with fd := fd } ∧ r.tag = tag ∧
      (r.rep = rep ∧ srv.msize ≠ 0 ∨
        (srv.msize ≠ 0 → (((Rmsg.mk tag rep).packedsize : Nat) : Int) > srv.msize) ∧ ∃ ename, r.rep = .error ename) := by
  unfold Styxserver.reply Styxserver.replydirect
  rcases session with none_ | agreed
  · obtain ⟨bytes, packed, -⟩ := @error_pack junk tag (str "Tversion not seen") (by decide)
    refine ⟨⟨tag, .error (str "Tversion not seen")⟩, srv.fd ++ [bytes], ?_, ⟨bytes, packed, rfl, fun some_ => absurd none_ some_⟩, rfl,
      .inr ⟨fun some_ => absurd none_ some_, _, rfl⟩⟩
    rw [if_pos none_]
    simp only [packed, Option.bind_eq_bind, Option.bind_some]
    rw [if_neg fun both => both.1 none_]
    rfl
  · have some_ : srv.msize ≠ 0 := by omega
    have packed := @Rmsg.pack_eq junk ⟨tag, rep⟩ real small
    have size := @Rmsg.packedsize_eq junk ⟨tag, rep⟩ real
    have length : (hdrBytes (Rmsg.packedsize ⟨tag, rep⟩) rep.mtype tag ++ rep.body junk).length = Rmsg.packedsize ⟨tag, rep⟩ := by
      rw [List.length_append, length_hdrBytes, size]
    rw [if_neg some_]
    simp only [packed, Option.bind_eq_bind, Option.bind_some, length]
    split
    · rename_i long
      obtain ⟨bytes, packed, short⟩ := @error_pack junk tag (str "Styx reply didn't fit") (by decide)
      have few : utflen (str "Styx reply didn't fit") = 21 := by decide
      refine ⟨⟨tag, .error (str "Styx reply didn't fit")⟩, srv.fd ++ [bytes], ?_, ⟨bytes, packed, rfl, fun _ => ?_⟩, rfl,
        .inr ⟨fun _ => long.2, _, rfl⟩⟩
      · rw [packed]
        rfl
      · dsimp only
        omega
    · rename_i fits
      refine ⟨⟨tag, rep⟩, _, rfl, ⟨_, packed, rfl, fun _ => ?_⟩, rfl, .inl ⟨rfl, some_⟩⟩
      rw [length]
      dsimp only
      omega

/-- The call comes back, with its answer and a session that goes on. -/
def Fine (junk : UInt8) (m : Tmsg) (srv : Styxserver σ) (o : Option (Styxserver σ)) : Prop :=
  ∃ s', o = some s' ∧ Session s' ∧ Answered junk m srv s'

/-- The rule for a reply from `s`: nothing has changed by then if it is an error, or if an error can take its place. -/
theorem fine_reply (start : s.fd = srv.fd) (session : Session s) (real : rep.Real) (small : (Rmsg.mk m.tag rep).packedsize + 64 < 2 ^ 31)
    (kind : rep.mtype = m.req.mtype + 1 ∨ ∃ ename, rep = .error ename) (keep : Refusal m.req rep → Same srv s)
    (instead : ∀ ename, Refusal m.req (.error ename) → (s.msize ≠ 0 → (((Rmsg.mk m.tag rep).packedsize : Nat) : Int) > s.msize) → Same srv s) :
    Fine junk m srv (s.reply junk ⟨m.tag, rep⟩) := by
  obtain ⟨r, fd, done, ⟨bytes, packed, written, within⟩, tag, what⟩ := @reply_spec _ junk s rep m.tag
    (session.msize.imp And.left And.left) real small
  refine ⟨_, done, ⟨session.inv, session.msize⟩, r, ⟨bytes, packed, start ▸ written, within⟩, tag, ?_, fun refused => ?_⟩
  · rcases what with ⟨same, -⟩ | ⟨-, ename, other⟩
    · exact same ▸ kind
    · exact .inr ⟨ename, other⟩
  · rcases what with ⟨same, -⟩ | ⟨long, ename, other⟩
    · obtain ⟨msize, fids⟩ := keep (same ▸ refused)
      exact ⟨msize, fids⟩
    · obtain ⟨msize, fids⟩ := instead ename (other ▸ refused) long
      exact ⟨msize, fids⟩

theorem fine_error {ename : Str} (start : s.fd = srv.fd) (session : Session s) (small : utflen ename + 73 < 2 ^ 31) (same : Same srv s) :
    Fine junk m srv (s.error junk m.tag ename) := by
  have size : Rmsg.packedsize ⟨m.tag, .error ename⟩ = 9 + utflen ename := rfl
  exact fine_reply start session trivial (by omega) (.inr ⟨ename, rfl⟩) (fun _ => same) fun _ _ _ => same

/-- A reply that fits. -/
theorem fine_fits (start : s.fd = srv.fd) (session : Session s) (real : rep.Real) (kind : rep.mtype = m.req.mtype + 1)
    (granted : ¬Refusal m.req rep) (agreed : s.msize ≠ 0) (fits : ((Rmsg.mk m.tag rep).packedsize : Int) ≤ s.msize) :
    Fine junk m srv (s.reply junk ⟨m.tag, rep⟩) := by
  have most : s.msize ≤ 8216 := by
    rcases session.msize with ⟨zero, -⟩ | ⟨-, most⟩
    · exact absurd zero agreed
    · exact most
  refine fine_reply start session real (by omega) (.inl kind) (fun refused => absurd refused granted) fun _ _ long => ?_
  have := long agreed
  omega

theorem Session.with_t (session : Session srv) : Session { srv with t := t } := ⟨session.inv, session.msize⟩

theorem Same.with_t : Same srv { srv with t := t } := ⟨rfl, fun _ => List.Perm.refl _⟩

/-- A session with a fid has a message size. -/
theorem Session.agreed (session : Session srv) (found : srv.getfid n = some c) : 256 ≤ srv.msize ∧ srv.msize ≤ 8216 := by
  rcases session.msize with ⟨-, empty⟩ | agreed
  · unfold Styxserver.getfid at found
    rw [empty] at found
    nomatch found
  · exact agreed

theorem Session.setfid (session : Session srv) (agreed : srv.msize ≠ 0) : Session (srv.setfid c) := by
  refine ⟨Styxserver.inv_setfid session.inv, ?_⟩
  rcases session.msize with ⟨zero, -⟩ | within
  · exact absurd zero agreed
  · exact .inr within

theorem Session.delfid (session : Session srv) (agreed : srv.msize ≠ 0) : Session (srv.delfid c) := by
  refine ⟨Styxserver.inv_delfid session.inv, ?_⟩
  rcases session.msize with ⟨zero, -⟩ | within
  · exact absurd zero agreed
  · exact .inr within

theorem Session.newfid (session : Session srv) (agreed : srv.msize ≠ 0) (made : srv.newfid n = some (c, srv')) : Session srv' := by
  refine ⟨Styxserver.inv_newfid session.inv made, ?_⟩
  obtain ⟨-, rfl, rfl⟩ := Styxserver.newfid_eq made
  rcases session.msize with ⟨zero, -⟩ | within
  · exact absurd zero agreed
  · exact .inr within

theorem fine_attach {tag fid afid : Int} {uname aname : Str} (session : Session srv) (small : nav.Small)
    (sound : srv.msize = 0 → ∀ d, (nav.stat srv.t srv.rootpath).1.1 = some d → Int.land d.qid.qtype QTDIR = 0) :
    Fine junk ⟨tag, .attach fid afid uname aname⟩ srv (srv.attach junk nav tag fid uname aname) := by
  have answer := (small.stat srv.t srv.rootpath).1
  unfold Styxserver.attach
  rcases eq : nav.stat srv.t srv.rootpath with ⟨⟨d, err⟩, t⟩
  rw [eq] at answer sound
  cases d with
  | none => exact fine_error rfl session.with_t answer Same.with_t
  | some d =>
    dsimp only
    split
    · exact fine_error rfl session.with_t (by decide) Same.with_t
    · rename_i dir
      have agreed : srv.msize ≠ 0 := fun zero => dir (sound zero d rfl)
      split
      · exact fine_error rfl session.with_t (by decide) Same.with_t
      · rename_i c srv' made
        have next := session.with_t (t := t)
        have kept := (next.newfid agreed made).setfid (c := { c with uname := uname, param := aname, path := d.qid.path, qtype := d.qid.qtype })
        obtain ⟨-, rfl, rfl⟩ := Styxserver.newfid_eq made
        have least : 256 ≤ srv.msize := by
          rcases session.msize with ⟨zero, -⟩ | ⟨least, -⟩
          · exact absurd zero agreed
          · exact least
        refine fine_fits rfl (kept agreed) trivial rfl id agreed ?_
        change (20 : Int) ≤ srv.msize
        omega

theorem fine_open {tag fid mode : Int} (session : Session srv) (small : nav.Small) :
    Fine junk ⟨tag, .open_ fid mode⟩ srv (srv.open_ junk nav tag fid mode) := by
  have refused : ∀ {err t}, utflen err + 73 < 2 ^ 31 →
      Fine junk ⟨tag, .open_ fid mode⟩ srv ({ srv with t := t }.error junk tag err) :=
    fun short => fine_error rfl session.with_t short Same.with_t
  have granted : ∀ {c t omode f}, srv.getfid fid = some c → Fine junk ⟨tag, .open_ fid mode⟩ srv
      (({ srv with t := t }.setfid (c.open_ omode f)).reply junk ⟨tag, .open_ f srv.iounit⟩) := by
    intro c t omode f found
    obtain ⟨least, -⟩ := session.agreed found
    have agreed : srv.msize ≠ 0 := by omega
    refine fine_fits rfl (session.with_t.setfid agreed) trivial rfl id agreed ?_
    change (24 : Int) ≤ srv.msize
    omega
  unfold Styxserver.open_ Styxserver.canopen
  cases found : srv.getfid fid with
  | none => exact refused (by decide)
  | some c =>
    dsimp only
    by_cases opened : c.isopen ≠ 0
    · rw [if_pos opened]
      exact refused (by decide)
    rw [if_neg opened]
    have answer := (small.stat srv.t c.path).1
    rcases eq : nav.stat srv.t c.path with ⟨⟨f, err⟩, t⟩
    rw [eq] at answer
    cases f with
    | none => exact refused answer
    | some f =>
      dsimp only
      by_cases bad : openmode mode = -1
      · rw [if_pos bad]
        exact refused (by decide)
      rw [if_neg bad]
      by_cases directory : openmode mode ≠ OREAD ∧ Int.land f.qid.qtype QTDIR ≠ 0
      · rw [if_pos directory]
        exact refused (by decide)
      rw [if_neg directory]
      by_cases denied : ¬openok c.uname mode f.mode f.uid f.gid
      · rw [if_pos denied]
        exact refused (by decide)
      rw [if_neg denied]
      by_cases removes : Int.land mode ORCLOSE ≠ 0
      · rw [if_pos removes]
        rcases nav.walk t c.path (str "..") with ⟨⟨dir, _⟩, t⟩
        cases dir with
        | none => exact refused (by decide)
        | some dir =>
          dsimp only
          by_cases root : dir.qid.path = f.qid.path ∧ dir.qid.qtype = f.qid.qtype ∨ ¬openok c.uname OWRITE dir.mode dir.uid dir.gid
          · rw [if_pos root]
            exact refused (by decide)
          · rw [if_neg root]
            exact granted found
      · rw [if_neg removes]
        exact granted found

theorem fine_stat {tag fid : Int} (session : Session srv) (small : nav.Small) :
    Fine junk ⟨tag, .stat fid⟩ srv (srv.stat junk nav tag fid) := by
  unfold Styxserver.stat
  cases srv.getfid fid with
  | none => exact fine_error rfl session (by decide) Same.refl
  | some c =>
    have answer := small.stat srv.t c.path
    dsimp only
    rcases eq : nav.stat srv.t c.path with ⟨⟨d, err⟩, t⟩
    rw [eq] at answer
    cases d with
    | none => exact fine_error rfl session.with_t answer.1 Same.with_t
    | some d =>
      have short := answer.2 d rfl
      have size : 9 + packdirsize d + 64 < 2 ^ 31 := by omega
      exact fine_reply rfl session.with_t trivial size (.inl rfl) (fun _ => Same.with_t) fun _ _ _ => Same.with_t

theorem fine_remove {tag fid : Int} (session : Session srv) : Fine junk ⟨tag, .remove fid⟩ srv (srv.remove junk tag fid) := by
  unfold Styxserver.remove
  cases found : srv.getfid fid with
  | none => exact fine_error rfl session (by decide) Same.refl
  | some c =>
    obtain ⟨least, -⟩ := session.agreed found
    have size : 9 + utflen Eperm + 64 < 2 ^ 31 := by decide
    exact fine_reply rfl (session.delfid (by omega)) trivial size (.inr ⟨_, rfl⟩) (fun refused => refused.elim)
      fun _ refused => refused.elim

theorem fine_clunk {tag fid : Int} (session : Session srv) : Fine junk ⟨tag, .clunk fid⟩ srv (srv.clunk junk tag fid) := by
  unfold Styxserver.clunk
  cases found : srv.getfid fid with
  | none => exact fine_error rfl session (by decide) Same.refl
  | some c =>
    obtain ⟨least, -⟩ := session.agreed found
    have agreed : srv.msize ≠ 0 := by omega
    refine fine_fits rfl (session.delfid agreed) trivial rfl id agreed ?_
    change (7 : Int) ≤ srv.msize
    omega

theorem fine_flush {tag oldtag : Int} (session : Session srv) : Fine junk ⟨tag, .flush oldtag⟩ srv (srv.reply junk ⟨tag, .flush⟩) :=
  fine_reply rfl session trivial (show 7 + 64 < 2 ^ 31 by decide) (.inl rfl) (fun _ => Same.refl) fun _ _ _ => Same.refl

theorem compatible_spec (tmsize msize : Int) (v : Str) : (compatible tmsize v msize VERSION).1 = min tmsize msize ∧
    ((compatible tmsize v msize VERSION).2 = str "unknown" ∨ (compatible tmsize v msize VERSION).2 = VERSION) := by
  have cut : (if tmsize < msize then tmsize else msize) = min tmsize msize := by
    split
    · omega
    · omega
  unfold compatible
  rw [cut, if_neg (show VERSION ≠ [] by decide)]
  dsimp only
  split
  · exact ⟨rfl, .inl rfl⟩
  · split
    · exact ⟨rfl, .inl rfl⟩
    · split
      · exact ⟨rfl, .inl rfl⟩
      · exact ⟨rfl, .inr rfl⟩

theorem fine_version {tag msize : Int} {ver : Str} (session : Session srv) (sound : ¬(srv.msize ≤ 0 ∧ msize < 256)) :
    Fine junk ⟨tag, .version msize ver⟩ srv (srv.version junk tag msize ver) := by
  have max : ((MAXRPC : Nat) : Int) = 8216 := rfl
  unfold Styxserver.version
  generalize start : (if srv.msize ≤ 0 then ({ srv with msize := MAXRPC } : Styxserver σ) else srv) = s
  have kept : s.fd = srv.fd ∧ s.fids = srv.fids ∧ 256 ≤ s.msize ∧ s.msize ≤ 8216 ∧ (srv.msize ≤ 0 ∨ s.msize = srv.msize) := by
    rw [← start]
    rcases session.msize with ⟨zero, -⟩ | ⟨least, most⟩
    · rw [if_pos (by omega)]
      dsimp only
      exact ⟨rfl, rfl, by omega, by omega, .inl (by omega)⟩
    · rw [if_neg (by omega)]
      exact ⟨rfl, rfl, by omega, by omega, .inr rfl⟩
  obtain ⟨fd, fids, least, most, before⟩ := kept
  have inv : Inv s := fun i => by
    rw [fids]
    exact session.inv i
  obtain ⟨cut, text⟩ := compatible_spec msize s.msize ver
  dsimp only
  generalize compatible msize ver s.msize VERSION = agreed at cut text ⊢
  obtain ⟨msize', ver'⟩ := agreed
  dsimp only at cut text ⊢
  split
  · rename_i few
    have same : s.msize = srv.msize := by omega
    exact fine_error fd ⟨inv, .inr ⟨by omega, by omega⟩⟩ (by decide) ⟨same, fun i => by rw [fids]⟩
  · rename_i enough
    have size : Rmsg.packedsize ⟨tag, .version msize' ver'⟩ = 13 + utflen ver' := rfl
    have short : utflen ver' ≤ 7 := by
      rcases text with rfl | rfl
      · decide
      · decide
    have next : Session ({ s with msize := msize' } : Styxserver σ) := ⟨inv, .inr ⟨by dsimp only; omega, by dsimp only; omega⟩⟩
    refine fine_fits fd next trivial rfl id ?_ ?_
    · dsimp only
      omega
    · dsimp only
      omega

end Inferno.Styxservers
