import Inferno.Export.Buffers

namespace Inferno.Export

open Styx

/-- What `convS2M` returns fits the buffer and has the size `sizeS2M` says. -/
theorem convS2M_length {f : Sent} {nap : Nat} {bytes : List UInt8} (stored : convS2M f nap = some bytes) :
    bytes.length = sizeS2M f ∧ sizeS2M f ≤ nap := by
  unfold convS2M at stored
  simp only [Option.bind_eq_bind, Option.pure_def] at stored
  split at stored
  · nomatch stored
  · split at stored
    · nomatch stored
    · rename_i fits
      simp only [Option.bind_eq_some_iff] at stored
      obtain ⟨pieces, _, rest⟩ := stored
      split at rest
      · nomatch rest
      · rename_i same
        cases rest
        exact ⟨(Decidable.not_not.mp same).symm, Nat.le_of_not_lt fits⟩

/-- The texts of `exreply` fit the smallest message size. -/
theorem sizeS2M_fallback (tag : UInt16) (msize : Int) :
    sizeS2M ⟨tag, .rerror (text (if msize = 0 then "Tversion not seen" else "failed to convert R-message"))⟩ ≤ 64 := by
  split
  · exact (by decide : sizeS2M ⟨0, .rerror (text "Tversion not seen")⟩ ≤ 64)
  · exact (by decide : sizeS2M ⟨0, .rerror (text "failed to convert R-message")⟩ ≤ 64)

theorem exreply_le {msize : Int} {r : Req} {out : XMsg} {a : Nat} (least : 64 ≤ a)
    (safe : ¬(a < sizeS2M ⟨r.tag, out⟩ ∧ sizeS2M ⟨r.tag, out⟩ ≤ r.bsize)) : exreply msize r out ≤ a := by
  unfold exreply
  split
  · rename_i bytes stored
    obtain ⟨length, fits⟩ := convS2M_length stored
    rw [length]
    omega
  · have small := sizeS2M_fallback r.tag msize
    dsimp only
    split
    · rename_i bytes stored
      rw [(convS2M_length stored).1]
      exact Nat.le_trans small least
    · exact Nat.zero_le a

structure Req.Ok (r : Req) : Prop where
  bsize : 64 ≤ r.bsize ∧ r.bsize ≤ maxrpcmax
  looping : ∀ dir fid offset count, r.phase = .looping dir → r.msg = .tread fid offset count →
    iohdrsz + count.toNat ≤ r.bsize
  opening : ∀ first, r.phase = .opening first → first = -24 ∨ 0 ≤ first
  version : ∀ m v, r.phase = .answered (.rversion m v) → 64 ≤ m.toNat

structure Fs.Inv (s : Fs) : Prop where
  msize : s.msize = 0 ∨ 64 ≤ s.msize ∧ s.msize ≤ maxrpcmax
  reqs : ∀ q r, s.reqs q = some r → r.Ok
  agreed : ∀ a, s.agreed = some a → 64 ≤ a
  log : ∀ e ∈ s.log, e.Ok

theorem Req.Ok.answered {r : Req} (ok : r.Ok) {out : XMsg} (plain : ∀ m v, out = .rversion m v → 64 ≤ m.toNat) :
    Req.Ok { r with phase := .answered out } where
  bsize := ok.bsize
  looping := fun _ _ _ _ phase _ => nomatch phase
  opening := fun _ phase => nomatch phase
  version := fun m v phase => plain m v (Phase.answered.inj phase)

namespace Fs

variable {s : Fs} {q : Nat} {r : Req}

theorem Inv.put (inv : s.Inv) (ok : r.Ok) : (s.put q r).Inv where
  msize := inv.msize
  agreed := inv.agreed
  log := inv.log
  reqs := by
    intro p other atP
    simp only [Fs.put] at atP
    by_cases here : p = q
    · subst here
      rw [Function.update_self] at atP
      cases atP
      exact ok
    · rw [Function.update_of_ne here] at atP
      exact inv.reqs p other atP

theorem Inv.note (inv : s.Inv) {e : Event} (ok : e.Ok) : (s.note e).Inv where
  msize := inv.msize
  reqs := inv.reqs
  agreed := inv.agreed
  log := by
    intro d member
    rcases List.mem_append.mp member with old | new
    · exact inv.log d old
    · rw [List.mem_singleton.mp new]
      exact ok

theorem Inv.foffset (inv : s.Inv) (foffset : Nat → Int) : Inv { s with foffset := foffset } :=
  ⟨inv.msize, inv.reqs, inv.agreed, inv.log⟩

theorem Inv.answer (inv : s.Inv) (ok : r.Ok) {out : XMsg} (plain : ∀ m v, out = .rversion m v → 64 ≤ m.toNat) :
    (s.answer q r out).Inv := inv.put (ok.answered plain)

theorem Inv.alloc (inv : s.Inv) : s.alloc.Inv := by
  have ok : Req.Ok ⟨if s.msize = 0 then maxrpcdef else s.msize.toNat, 0, .rflush, .reading⟩ := by
    refine ⟨?_, fun _ _ _ _ phase => (nomatch phase), fun _ phase => (nomatch phase), fun _ _ phase => (nomatch phase)⟩
    have range : s.msize = 0 ∨ 64 ≤ s.msize ∧ s.msize ≤ 65560 := inv.msize
    show 64 ≤ (if s.msize = 0 then 8216 else s.msize.toNat) ∧ (if s.msize = 0 then 8216 else s.msize.toNat) ≤ 65560
    split <;> omega
  exact ⟨inv.msize, (inv.put ok).reqs, inv.agreed, inv.log⟩

theorem rmsize_le (ioiounit : Int) (msize : Nat) : rmsize ioiounit msize ≤ maxrpcmax := by
  unfold rmsize
  simp only
  split_ifs <;> omega

theorem toNat_ofNat_small {n : Nat} (small : n ≤ maxrpcmax) : (UInt64.ofNat n).toNat = n := by
  have below : n ≤ 65560 := small
  rw [UInt64.toNat_ofNat']
  omega

theorem Inv.exversion (inv : s.Inv) (ok : r.Ok) (ioiounit : Int) (msize : Nat) (version : List UInt8) :
    (s.exversion q r ioiounit msize version).Inv := by
  have most := rmsize_le ioiounit msize
  unfold Fs.exversion
  dsimp only
  split
  · exact inv.answer ok fun _ _ same => (nomatch same)
  · rename_i large
    have least (m : UInt64) (v : Option (List UInt8)) (w : Option (List UInt8))
        (same : (Msg.rversion (UInt64.ofNat (rmsize ioiounit msize)) w : XMsg) = .rversion m v) : 64 ≤ m.toNat := by
      cases same
      rw [toNat_ofNat_small most]
      omega
    split
    · have moved : Inv { s with msize := (rmsize ioiounit msize : Int) } :=
        ⟨Or.inr ⟨Int.ofNat_le.mpr (Nat.le_of_not_lt large), Int.ofNat_le.mpr most⟩, inv.reqs, inv.agreed, inv.log⟩
      exact moved.answer ok fun m v same => least m v _ same
    · exact inv.answer ok fun m v same => least m v _ same

theorem Inv.exreadTests (inv : s.Inv) (ok : r.Ok) {fid : UInt64} {offset : Int64} {count : UInt64} {dir : Bool}
    (msg : r.msg = .tread fid offset count)
    (safe : ¬(r.bsize < iohdrsz + count.toNat ∧ countTooBig s.msize count.toNat = false)) :
    (s.exreadTests q r fid.toNat offset.toInt count.toNat dir).Inv := by
  unfold Fs.exreadTests
  split
  · exact inv.answer ok fun _ _ same => (nomatch same)
  · rename_i small
    have loops : Req.Ok { r with phase := .looping dir } := by
      refine ⟨ok.bsize, fun d f o c _ same => ?_, fun _ phase => (nomatch phase), fun _ _ phase => (nomatch phase)⟩
      cases msg.symm.trans same
      rcases Nat.lt_or_ge r.bsize (iohdrsz + count.toNat) with large | fits
      · exact absurd ⟨large, Bool.eq_false_iff.mpr small⟩ safe
      · exact fits
    split
    · exact inv.answer ok fun _ _ same => (nomatch same)
    · split
      · split
        · exact inv.answer ok fun _ _ same => (nomatch same)
        · exact (inv.foffset _).put loops
      · exact inv.put loops

/-- The loop of `Exread` asks for no more than the request. -/
theorem want_le {fid : Nat} {offset : Int} {count : Nat} {dir : Bool}
    (safe : dir = true → s.foffset fid ≠ offset → min (s32 (offset - s.foffset fid)) maxfdata ≤ count) :
    (s.want fid offset count dir).1.toNat ≤ count := by
  unfold want
  split
  · rename_i moved
    have bound := safe moved.1 moved.2
    dsimp only
    split <;> omega
  · simp only [s32, Int.bmod_def]
    split <;> omega

theorem Inv.exreadLoop (inv : s.Inv) (ok : r.Ok) {fid : UInt64} {offset : Int64} {count : UInt64} {dir : Bool}
    (msg : r.msg = .tread fid offset count) (phase : r.phase = .looping dir) (data : List UInt8)
    (safe : dir = true → s.foffset fid.toNat ≠ offset.toInt →
      min (s32 (offset.toInt - s.foffset fid.toNat)) maxfdata ≤ count.toNat) :
    (s.exreadLoop q r fid.toNat offset.toInt count.toNat dir data).Inv := by
  have room := ok.looping dir fid offset count phase msg
  have asked := want_le safe
  unfold Fs.exreadLoop
  generalize s.want fid.toNat offset.toInt count.toNat dir = w at asked
  obtain ⟨n, seek⟩ := w
  dsimp only at asked ⊢
  have stored : Event.Ok (.store r.bsize iohdrsz n.toNat count.toNat) := ⟨by omega, asked⟩
  split
  · exact ((inv.note stored).foffset _).answer ok fun _ _ same => (nomatch same)
  · exact (inv.note stored).foffset _

theorem Inv.exstat (inv : s.Inv) (ok : r.Ok) (dir : List UInt8) : (s.exstat q r dir).Inv := by
  have stored : Event.Ok (.store r.bsize (msghdrsz + 2) (nstat r) (nstat r)) := by
    have least := ok.bsize.1
    refine ⟨?_, Nat.le_refl _⟩
    simp only [nstat, msghdrsz]
    omega
  unfold Fs.exstat
  dsimp only
  split
  · exact (inv.note stored).answer ok fun _ _ same => (nomatch same)
  · exact (inv.note stored).answer ok fun _ _ same => (nomatch same)

theorem exiounit_ok (inv : s.Inv) {first : Int} {ciounit : Nat} (known : first = -24 ∨ 0 ≤ first)
    (safe : if ciounit ≠ 0 ∧ ciounit < s.msize then ciounit ≤ s.msize - iohdrsz
      else first ≤ s.msize - iohdrsz ∧ (first < 0 → s.msize = 0)) :
    countTooBig s.msize (exiounit first s.msize ciounit % 2 ^ 32).toNat = false := by
  have range : s.msize = 0 ∨ 64 ≤ s.msize ∧ s.msize ≤ 65560 := inv.msize
  have header : iohdrsz = 24 := rfl
  have same : ulong s.msize = s.msize.toNat := by
    rw [ulong]
    omega
  rw [header] at safe
  rw [countTooBig, decide_eq_false_iff_not, header]
  by_cases chosen : ciounit ≠ 0 ∧ (ciounit : Int) < s.msize
  · rw [if_pos chosen] at safe
    have value : exiounit first s.msize ciounit = s32 ciounit := if_pos ⟨chosen.1, by omega⟩
    rw [value, ulong, s32, Int.bmod_def]
    split <;> omega
  · rw [if_neg chosen] at safe
    have value : exiounit first s.msize ciounit = first := if_neg fun other => chosen ⟨other.1, by omega⟩
    rw [value, ulong]
    omega

theorem Inv.exopened (inv : s.Inv) (ok : r.Ok) {first : Int} {ciounit : Nat} {qid : Qid}
    (phase : r.phase = .opening first)
    (safe : if ciounit ≠ 0 ∧ ciounit < s.msize then ciounit ≤ s.msize - iohdrsz
      else first ≤ s.msize - iohdrsz ∧ (first < 0 → s.msize = 0)) : (s.exopened q r first ciounit qid).Inv := by
  have announced : Event.Ok (.announce (exiounit first s.msize ciounit % 2 ^ 32).toNat s.msize) :=
    exiounit_ok inv (ok.opening first phase) safe
  unfold Fs.exopened
  dsimp only
  split
  · exact ((inv.note announced).foffset _).answer ok fun _ _ same => (nomatch same)
  · exact (inv.note announced).answer ok fun _ _ same => (nomatch same)

theorem Inv.send (inv : s.Inv) (ok : r.Ok) {out : XMsg} (phase : r.phase = .answered out)
    (safe : ∀ a, s.agreed = some a → ¬(a < sizeS2M ⟨r.tag, out⟩ ∧ sizeS2M ⟨r.tag, out⟩ ≤ r.bsize)) :
    (s.send q r out).Inv := by
  have replied : Event.Ok (.reply (exreply s.msize r out) s.agreed) :=
    fun a last => exreply_le (inv.agreed a last) (safe a last)
  have done : Req.Ok { r with phase := .sent } :=
    ⟨ok.bsize, fun _ _ _ _ wrong => (nomatch wrong), fun _ wrong => (nomatch wrong), fun _ _ wrong => (nomatch wrong)⟩
  have sent := (inv.note replied).put (q := q) done
  unfold Fs.send
  dsimp only
  split
  · rename_i m version
    split
    · refine ⟨sent.msize, sent.reqs, ?_, sent.log⟩
      intro a last
      cases last
      exact ok.version m version phase
    · exact sent
  · exact sent

theorem exec_inv {s' : Fs} {a : BAct} (inv : s.Inv) (safe : a.Safe s) (ran : a.exec s = some s') : s'.Inv := by
  cases a with
  | alloc =>
    cases ran
    exact inv.alloc
  | recv q tag msg =>
    simp only [BAct.exec, Option.bind_eq_bind, Option.bind_eq_some_iff] at ran
    obtain ⟨r, atQ, ran⟩ := ran
    split at ran
    · cases ran
      exact inv.put ⟨(inv.reqs q r atQ).bsize, fun _ _ _ _ wrong => (nomatch wrong), fun _ wrong => (nomatch wrong),
        fun _ _ wrong => (nomatch wrong)⟩
    · nomatch ran
  | version q ioiounit =>
    simp only [BAct.exec, Option.bind_eq_bind, Option.bind_eq_some_iff] at ran
    obtain ⟨r, atQ, ran⟩ := ran
    split at ran
    · cases ran
      exact inv.exversion (inv.reqs q r atQ) _ _ _
    · nomatch ran
  | readTests q dir =>
    simp only [BAct.exec, Option.bind_eq_bind, Option.bind_eq_some_iff] at ran
    obtain ⟨r, atQ, ran⟩ := ran
    split at ran
    · rename_i fid offset count _ msg
      cases ran
      exact inv.exreadTests (inv.reqs q r atQ) msg (safe r fid offset count atQ msg)
    · nomatch ran
  | readLoop q data =>
    simp only [BAct.exec, Option.bind_eq_bind, Option.bind_eq_some_iff] at ran
    obtain ⟨r, atQ, ran⟩ := ran
    split at ran
    · rename_i dir fid offset count phase msg
      split at ran
      · cases ran
        refine inv.exreadLoop (inv.reqs q r atQ) msg phase data fun isDir => ?_
        subst isDir
        exact safe r fid offset count atQ msg phase
      · nomatch ran
    · nomatch ran
  | stat q dir =>
    simp only [BAct.exec, Option.bind_eq_bind, Option.bind_eq_some_iff] at ran
    obtain ⟨r, atQ, ran⟩ := ran
    split at ran
    · split at ran
      · cases ran
        exact inv.exstat (inv.reqs q r atQ) dir
      · nomatch ran
    · nomatch ran
  | iounit q =>
    simp only [BAct.exec, Option.bind_eq_bind, Option.bind_eq_some_iff] at ran
    obtain ⟨r, atQ, ran⟩ := ran
    have opening : Req.Ok { r with phase := .opening (s.msize - iohdrsz) } := by
      refine ⟨(inv.reqs q r atQ).bsize, fun _ _ _ _ wrong => (nomatch wrong), fun first phase => ?_,
        fun _ _ wrong => (nomatch wrong)⟩
      have range : s.msize = 0 ∨ 64 ≤ s.msize ∧ s.msize ≤ 65560 := inv.msize
      have value : s.msize - 24 = first := Phase.opening.inj phase
      omega
    split at ran
    · cases ran
      exact inv.put opening
    · cases ran
      exact inv.put opening
    · nomatch ran
  | opened q ciounit qid =>
    simp only [BAct.exec, Option.bind_eq_bind, Option.bind_eq_some_iff] at ran
    obtain ⟨r, atQ, ran⟩ := ran
    split at ran
    · rename_i first phase
      cases ran
      exact inv.exopened (inv.reqs q r atQ) phase (safe r first atQ phase)
    · nomatch ran
  | other q out =>
    simp only [BAct.exec, Option.bind_eq_bind, Option.bind_eq_some_iff] at ran
    obtain ⟨r, atQ, ran⟩ := ran
    have failed (error : isRerror out = true) : (s.answer q r out).Inv := by
      refine inv.answer (inv.reqs q r atQ) fun m v same => ?_
      subst same
      nomatch error
    split at ran
    · split at ran
      · rename_i kind
        cases ran
        rw [Bool.or_eq_true] at kind
        rcases kind with error | plain
        · exact failed error
        · refine inv.answer (inv.reqs q r atQ) fun m v same => ?_
          subst same
          simp only [special, Bool.and_eq_true, Bool.not_eq_true', Bool.or_eq_false_iff, beq_eq_false_iff_ne,
            beq_iff_eq, Msg.type] at plain
          omega
      · nomatch ran
    · split at ran
      · rename_i error
        cases ran
        exact failed error
      · nomatch ran
    · split at ran
      · rename_i error
        cases ran
        exact failed error
      · nomatch ran
    · nomatch ran
  | send q =>
    simp only [BAct.exec, Option.bind_eq_bind, Option.bind_eq_some_iff] at ran
    obtain ⟨r, atQ, ran⟩ := ran
    split at ran
    · rename_i out phase
      cases ran
      exact inv.send (inv.reqs q r atQ) phase fun a last => safe r out a atQ phase last
    · nomatch ran

theorem init_inv : init.Inv where
  msize := Or.inl rfl
  reqs := fun _ _ wrong => (nomatch wrong)
  agreed := fun _ wrong => (nomatch wrong)
  log := fun _ wrong => (nomatch wrong)

/-- Attach, open, then a `Tversion` that is handled while `exportproc` already
waits for the next message, which is a `Tread`. -/
def overflow : List BAct :=
  [.alloc, .recv 0 1 (.tattach 1 0 none none), .alloc, .other 0 (.rattach ⟨0, 0, 0⟩), .send 0,
   .recv 1 1 (.topen 1 0), .alloc, .iounit 1, .opened 1 0 ⟨1, 0, 0⟩, .send 1,
   .recv 2 1 (.tversion 65560 (some version9p)), .alloc, .version 2 0, .send 2,
   .recv 3 1 (.tread 1 0 60000), .readTests 3 false, .readLoop 3 []]

end Fs

end Inferno.Export
