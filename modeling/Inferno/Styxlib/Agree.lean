import Inferno.Styxlib.Decode
import Inferno.Styx.Fcall

namespace Inferno.Styxlib

open Strings Lib

variable {f stored : List UInt8} {i o n : Nat} {s : Str} {junk : UInt8} {v : Int}

/-- A string of which UTF-8 has the runes and C the bytes. -/
def Text (s : Str) : Prop := Scalars s ∧ 0 ∉ s

/-- `string2c`, as far as C reads it. -/
def string2c (s : Str) : Option (List UInt8) := some ((s.flatMap runetochar).takeWhile (· ≠ 0))

def uchar (v : Int) : UInt8 := UInt8.ofNat (v % 2 ^ 8).toNat

def ushort (v : Int) : UInt16 := UInt16.ofNat (v % 2 ^ 16).toNat

def uint (v : Int) : UInt32 := UInt32.ofNat (v % 2 ^ 32).toNat

def ulong (v : Int) : UInt64 := UInt64.ofNat (v % 2 ^ 64).toNat

def Qid.fcall (q : Qid) : Styx.Qid := ⟨q.path.toUInt64, uint q.vers, uchar q.qtype⟩

/-- The fields of the `Fcall` that says the same. -/
def Treq.fcall (junk : UInt8) : Treq → Option (Styx.Msg (Option (List UInt8)) (List UInt8))
  | readerror _ => none
  | version msize ver => some (.tversion (ulong msize) (string2c ver))
  | auth afid uname aname => some (.tauth (ulong afid) (string2c uname) (string2c aname))
  | attach fid afid uname aname => some (.tattach (ulong fid) (ulong afid) (string2c uname) (string2c aname))
  | flush oldtag => some (.tflush (ushort oldtag))
  | walk fid newfid names => some (.twalk (ulong fid) (ulong newfid) (names.map string2c))
  | open_ fid mode => some (.topen (ulong fid) (uchar mode))
  | create fid name perm mode => some (.tcreate (ulong fid) (string2c name) (ulong perm) (uchar mode))
  | read fid offset count => some (.tread (ulong fid) offset (ulong count))
  | write fid offset data => some (.twrite (ulong fid) offset (ulong data.length) data)
  | clunk fid => some (.tclunk (ulong fid))
  | stat fid => some (.tstat (ulong fid))
  | remove fid => some (.tremove (ulong fid))
  | wstat fid dir => (packdir junk dir).map fun stat => .twstat (ulong fid) (ushort stat.length) stat

def Rrep.fcall (junk : UInt8) : Rrep → Option (Styx.Msg (Option (List UInt8)) (List UInt8))
  | readerror _ => none
  | version msize ver => some (.rversion (ulong msize) (string2c ver))
  | auth aqid => some (.rauth aqid.fcall)
  | attach qid => some (.rattach qid.fcall)
  | flush => some .rflush
  | error ename => some (.rerror (string2c ename))
  | clunk => some .rclunk
  | remove => some .rremove
  | wstat => some .rwstat
  | walk qids => some (.rwalk (qids.map Qid.fcall))
  | create qid iounit => some (.rcreate qid.fcall (ulong iounit))
  | open_ qid iounit => some (.ropen qid.fcall (ulong iounit))
  | read data => some (.rread (ulong data.length) data)
  | write count => some (.rwrite (ulong count))
  | stat dir => (packdir junk dir).map fun stat => .rstat (ushort stat.length) stat

def Tmsg.fcall (junk : UInt8) (t : Tmsg) : Option Styx.Sent := (t.req.fcall junk).map (⟨ushort t.tag, ·⟩)

def Rmsg.fcall (junk : UInt8) (r : Rmsg) : Option Styx.Sent := (r.rep.fcall junk).map (⟨ushort r.tag, ·⟩)

/-- The message comes back whole, and its bytes are those of C. -/
def Tmsg.Agrees (junk : UInt8) (t : Tmsg) : Prop :=
  ∃ bytes, t.pack junk = some bytes ∧ bytes.length = t.packedsize ∧ Tmsg.unpack bytes = some ((t.packedsize : Int), some t) ∧
    ∃ f, t.fcall junk = some f ∧ Styx.convS2M f t.packedsize = some bytes

def Rmsg.Agrees (junk : UInt8) (r : Rmsg) : Prop :=
  ∃ bytes, r.pack junk = some bytes ∧ bytes.length = r.packedsize ∧ Rmsg.unpack bytes = some ((r.packedsize : Int), some r) ∧
    ∃ f, r.fcall junk = some f ∧ Styx.convS2M f r.packedsize = some bytes

theorem byte_eq {n : Nat} (same : (n : Int) % 256 = v % 256) : UInt8.ofNat n = byte v := by
  refine UInt8.toNat_inj.mp ?_
  have value := byte_toNat v
  rw [UInt8.toNat_ofNat']
  omega

theorem pbit8_eq {n : Nat} (same : (n : Int) % 256 = v % 256) : Styx.pbit8 n = [byte v] := by
  unfold Styx.pbit8
  simp only [leBytes, byte_eq same]

theorem pbit16_eq {n : Nat} (same : (n : Int) % 65536 = v % 65536) : Styx.pbit16 n = le16 v := by
  unfold Styx.pbit16 le16
  simp only [leBytes]
  rw [byte_eq (v := v) (by lia), byte_eq (v := v >>> (8 : Nat)) (by rw [Int.shiftRight_eq_div_pow]; lia)]

theorem pbit32_eq {n : Nat} (same : (n : Int) % 2 ^ 32 = v % 2 ^ 32) : Styx.pbit32 n = le32 v := by
  unfold Styx.pbit32 le32
  simp only [leBytes]
  rw [byte_eq (v := v) (by lia), byte_eq (v := v >>> (8 : Nat)) (by rw [Int.shiftRight_eq_div_pow]; lia),
    byte_eq (v := v >>> (16 : Nat)) (by rw [Int.shiftRight_eq_div_pow]; lia),
    byte_eq (v := v >>> (24 : Nat)) (by rw [Int.shiftRight_eq_div_pow]; lia)]

@[simp] theorem pbit32_ulong (v : Int) : Styx.pbit32 (ulong v).toNat = le32 v := by
  refine pbit32_eq ?_
  unfold ulong
  rw [UInt64.toNat_ofNat']
  omega

@[simp] theorem pbit8_uchar (v : Int) : Styx.pbit8 (uchar v).toNat = [byte v] := by
  refine pbit8_eq ?_
  unfold uchar
  rw [UInt8.toNat_ofNat']
  omega

@[simp] theorem pbit16_ushort (v : Int) : Styx.pbit16 (ushort v).toNat = le16 v := by
  refine pbit16_eq ?_
  unfold ushort
  rw [UInt16.toNat_ofNat']
  omega

@[simp] theorem pbit64_eq (b : Int64) : Styx.pbit64 b.toUInt64.toNat = le64 b := by
  have same : ((b.toUInt64.toNat : Nat) : Int) % 2 ^ 64 = b.toInt % 2 ^ 64 := by
    change ((b.toBitVec.toNat : Nat) : Int) % 2 ^ 64 = b.toBitVec.toInt % 2 ^ 64
    rw [BitVec.toInt_eq_toNat_bmod]
    exact (Int.bmod_emod ..).symm
  generalize b.toUInt64.toNat = n at same
  have halves : Styx.pbit64 n = Styx.pbit32 n ++ Styx.pbit32 (n / 256 / 256 / 256 / 256) := rfl
  rw [halves, pbit32_eq (v := b.toInt) (by lia), pbit32_eq (v := b.toInt >>> (32 : Nat)) (by rw [Int.shiftRight_eq_div_pow]; lia)]
  rfl

@[simp] theorem pqid_fcall (q : Qid) : Styx.pqid q.fcall = qidBytes q := by
  unfold Styx.pqid Qid.fcall qidBytes
  dsimp only
  rw [pbit8_uchar, pbit64_eq]
  refine congrArg (fun x => [byte q.qtype] ++ x ++ le64 q.path) (pbit32_eq ?_)
  unfold uint
  rw [UInt32.toNat_ofNat']
  omega

theorem nul_free (text : Text s) : ∀ b ∈ s.flatMap runetochar, b ≠ 0 := by
  obtain ⟨scalars, nonzero⟩ := text
  rintro b member rfl
  obtain ⟨c, inside, there⟩ := List.mem_flatMap.mp member
  by_cases small : c < 0x80
  · rw [runetochar_one small, List.mem_singleton] at there
    have zero := congrArg UInt8.toNat there
    rw [UInt8.toNat_ofNat'] at zero
    have : c = 0 := by
      change 0 = c % 256 at zero
      omega
    exact nonzero (this ▸ inside)
  · have high := high_bytes (scalars c inside) small there
    exact absurd high (by decide)

theorem string2c_text (text : Text s) : string2c s = some (cvtca junk s) := by
  unfold string2c
  rw [cvtca_scalars text.1, List.takeWhile_eq_self_iff.mpr]
  intro b member
  exact decide_eq_true (nul_free text b member)

theorem pstring_text (text : Text s) : Styx.pstring (string2c s) = strBytes junk s := by
  rw [@string2c_text _ junk text, Styx.pstring, strBytes, pbit16_eq (by rfl)]

theorem stringsz_text (text : Text s) : Styx.stringsz (string2c s) = STR + utflen s := by
  rw [@string2c_text _ 0 text, Styx.stringsz, length_cvtca, utflen_eq]
  rfl

/-- What `convS2M` makes of a message whose pieces are the body. -/
theorem convS2M_body {m : Styx.Msg (Option (List UInt8)) (List UInt8)} {tag : Int} {body : List UInt8} {pieces : List (List UInt8)}
    (size : m.size = body.length) (stored : m.pieces = some pieces) (same : pieces.flatten = body) (small : H + body.length < 2 ^ 31) :
    Styx.convS2M ⟨ushort tag, m⟩ (H + body.length) = some (hdrBytes (H + body.length) m.type tag ++ body) := by
  have whole : Styx.sizeS2M ⟨ushort tag, m⟩ = H + body.length := by
    unfold Styx.sizeS2M
    rw [size]
    exact Nat.mod_eq_of_lt (by omega)
  unfold Styx.convS2M
  rw [whole, if_neg (by rw [H]; omega), if_neg (Nat.lt_irrefl _), stored]
  simp only [Option.bind_eq_bind, Option.bind_some]
  have bytes : (Styx.pbit32 (H + body.length) :: Styx.pbit8 m.type :: Styx.pbit16 (ushort tag).toNat :: pieces).flatten
      = hdrBytes (H + body.length) m.type tag ++ body := by
    simp only [List.flatten_cons, same, hdrBytes]
    rw [pbit32_eq (v := ((H + body.length : Nat) : Int)) rfl, pbit8_eq (v := ((m.type : Nat) : Int)) rfl, pbit16_ushort]
    simp only [List.append_assoc]
  rw [bytes, if_neg (by rw [List.length_append, length_hdrBytes]; exact not_not.mpr rfl)]
  rfl

/-- Its body is what the library packs. -/
def Stores (body : List UInt8) (mtype : Nat) (m : Styx.Msg (Option (List UInt8)) (List UInt8)) : Prop :=
  m.type = mtype ∧ m.size = body.length ∧ ∃ pieces, m.pieces = some pieces ∧ pieces.flatten = body

theorem names_text {names : List Str} (plain : ∀ name ∈ names, Text name) :
    ((names.map string2c).map Styx.pstring).flatten = names.flatMap (strBytes junk) ∧
      ((names.map string2c).map Styx.stringsz).sum = (names.flatMap (strBytes junk)).length := by
  rw [length_names, List.map_map, List.map_map, List.flatMap_def]
  exact ⟨congrArg List.flatten (List.map_congr_left fun name member => pstring_text (plain name member)),
    congrArg List.sum (List.map_congr_left fun name member => stringsz_text (plain name member))⟩

theorem Treq.stores {req : Treq} (plain : req.Fits Text) (domain : req.Domain) (small : (req.body junk).length + 64 < 2 ^ 31) :
    ∃ m, req.fcall junk = some m ∧ Stores (req.body junk) req.mtype m := by
  cases req with
  | readerror _ => nomatch plain
  | version msize ver =>
    refine ⟨_, rfl, rfl, ?_, _, rfl, ?_⟩
    · simp only [Styx.Msg.size, body, stringsz_text plain.2, List.length_append, length_le32, length_strBytes]
    · simp only [List.flatten_cons, List.flatten_nil, List.append_nil, pbit32_ulong, @pstring_text _ junk plain.2, body]
  | auth afid uname aname =>
    obtain ⟨-, first, second⟩ := plain
    refine ⟨_, rfl, rfl, ?_, _, rfl, ?_⟩
    · simp only [Styx.Msg.size, body, stringsz_text first, stringsz_text second, List.length_append, length_le32, length_strBytes]
    · simp only [List.flatten_cons, List.flatten_nil, List.append_nil, List.append_assoc, pbit32_ulong,
        @pstring_text _ junk first, @pstring_text _ junk second, body]
  | attach fid afid uname aname =>
    obtain ⟨-, -, first, second⟩ := plain
    refine ⟨_, rfl, rfl, ?_, _, rfl, ?_⟩
    · simp only [Styx.Msg.size, body, stringsz_text first, stringsz_text second, List.length_append, length_le32, length_strBytes]
    · simp only [List.flatten_cons, List.flatten_nil, List.append_nil, List.append_assoc, pbit32_ulong,
        @pstring_text _ junk first, @pstring_text _ junk second, body]
  | walk fid newfid names =>
    obtain ⟨-, -, texts⟩ := plain
    have few : ¬(names.map string2c).length > Styx.maxwelem := by
      rw [List.length_map]
      exact Nat.not_lt.mpr domain.2.2.1
    obtain ⟨bytes, sizes⟩ := @names_text junk _ texts
    refine ⟨_, rfl, rfl, ?_, _, if_neg few, ?_⟩
    · simp only [Styx.Msg.size, body, sizes, List.length_append, length_le32, length_le16]
    · simp only [List.flatten_cons, bytes, pbit32_ulong, body, List.length_map, List.append_assoc]
      rw [pbit16_eq (v := (names.length : Int)) rfl]
  | create fid name perm mode =>
    obtain ⟨-, text, -, -⟩ := plain
    refine ⟨_, rfl, rfl, ?_, _, rfl, ?_⟩
    · simp only [Styx.Msg.size, body, stringsz_text text, List.length_append, length_le32, length_strBytes, List.length_singleton]
    · simp only [List.flatten_cons, List.flatten_nil, List.append_nil, List.append_assoc, pbit32_ulong, pbit8_uchar,
        @pstring_text _ junk text, body]
  | read fid offset count =>
    refine ⟨_, rfl, rfl, rfl, _, rfl, ?_⟩
    simp only [List.flatten_cons, List.flatten_nil, List.append_nil, List.append_assoc, pbit32_ulong, pbit64_eq, body]
  | write fid offset data =>
    rw [body, List.length_append] at small
    have count : (ulong data.length).toNat = data.length := by
      unfold ulong
      rw [UInt64.toNat_ofNat']
      lia
    refine ⟨_, rfl, rfl, ?_, _, rfl, ?_⟩
    · simp only [Styx.Msg.size, body, count, List.length_append, length_le32, length_le64]
    · simp only [List.flatten_cons, List.flatten_nil, List.append_nil, List.append_assoc, pbit32_ulong, pbit64_eq, body, count,
        List.take_length]
      rw [pbit32_eq (v := (data.length : Int)) rfl]
  | wstat fid dir =>
    have size := domain.2.size
    have count : (ushort (packdirsize dir)).toNat = packdirsize dir := by
      unfold ushort
      rw [UInt16.toNat_ofNat']
      lia
    refine ⟨_, congrArg (Option.map _) (packdir_eq dir (by lia)), rfl, ?_, _, rfl, ?_⟩
    · simp only [Styx.Msg.size, body, length_dirBytes, count, List.length_append, length_le32, length_le16]
    · simp only [List.flatten_cons, List.flatten_nil, List.append_nil, List.append_assoc, pbit32_ulong, body, length_dirBytes, count]
      rw [List.take_of_length_le (length_dirBytes junk dir).le, pbit16_eq (v := (packdirsize dir : Int)) rfl]
  | flush oldtag => exact ⟨_, rfl, rfl, rfl, _, rfl, by simp only [List.flatten_cons, List.flatten_nil, List.append_nil, pbit16_ushort, body]⟩
  | open_ fid mode =>
    refine ⟨_, rfl, rfl, rfl, _, rfl, ?_⟩
    simp only [List.flatten_cons, List.flatten_nil, List.append_nil, pbit32_ulong, pbit8_uchar, body]
  | clunk fid => exact ⟨_, rfl, rfl, rfl, _, rfl, by simp only [List.flatten_cons, List.flatten_nil, List.append_nil, pbit32_ulong, body]⟩
  | stat fid => exact ⟨_, rfl, rfl, rfl, _, rfl, by simp only [List.flatten_cons, List.flatten_nil, List.append_nil, pbit32_ulong, body]⟩
  | remove fid => exact ⟨_, rfl, rfl, rfl, _, rfl, by simp only [List.flatten_cons, List.flatten_nil, List.append_nil, pbit32_ulong, body]⟩

theorem Rrep.stores {rep : Rrep} (plain : rep.Fits Text) (domain : rep.Domain) (few : ∀ qids, rep = .walk qids → qids.length ≤ MAXWELEM)
    (small : (rep.body junk).length + 64 < 2 ^ 31) : ∃ m, rep.fcall junk = some m ∧ Stores (rep.body junk) rep.mtype m := by
  cases rep with
  | readerror _ => nomatch plain
  | version msize ver =>
    refine ⟨_, rfl, rfl, ?_, _, rfl, ?_⟩
    · simp only [Styx.Msg.size, body, stringsz_text plain.2, List.length_append, length_le32, length_strBytes]
    · simp only [List.flatten_cons, List.flatten_nil, List.append_nil, pbit32_ulong, @pstring_text _ junk plain.2, body]
  | auth aqid => exact ⟨_, rfl, rfl, rfl, _, rfl, by simp only [List.flatten_cons, List.flatten_nil, List.append_nil, pqid_fcall, body]⟩
  | attach qid => exact ⟨_, rfl, rfl, rfl, _, rfl, by simp only [List.flatten_cons, List.flatten_nil, List.append_nil, pqid_fcall, body]⟩
  | flush => exact ⟨_, rfl, rfl, rfl, _, rfl, rfl⟩
  | clunk => exact ⟨_, rfl, rfl, rfl, _, rfl, rfl⟩
  | remove => exact ⟨_, rfl, rfl, rfl, _, rfl, rfl⟩
  | wstat => exact ⟨_, rfl, rfl, rfl, _, rfl, rfl⟩
  | error ename =>
    refine ⟨_, rfl, rfl, ?_, _, rfl, ?_⟩
    · simp only [Styx.Msg.size, body, stringsz_text plain, length_strBytes]
    · simp only [List.flatten_cons, List.flatten_nil, List.append_nil, @pstring_text _ junk plain, body]
  | walk qids =>
    have within : ¬(qids.map Qid.fcall).length > Styx.maxwelem := by
      rw [List.length_map]
      exact Nat.not_lt.mpr (few qids rfl)
    refine ⟨_, rfl, rfl, ?_, _, if_neg within, ?_⟩
    · simp only [Styx.Msg.size, body, List.length_map, List.length_append, length_le16, length_qids]
      rw [Nat.mul_comm]
      rfl
    · simp only [List.flatten_cons, List.length_map, List.map_map, body, List.flatMap_def]
      rw [pbit16_eq (v := (qids.length : Int)) rfl, show Styx.pqid ∘ Qid.fcall = qidBytes from funext pqid_fcall]
  | create qid iounit =>
    refine ⟨_, rfl, rfl, rfl, _, rfl, ?_⟩
    simp only [List.flatten_cons, List.flatten_nil, List.append_nil, pbit32_ulong, pqid_fcall, body]
  | open_ qid iounit =>
    refine ⟨_, rfl, rfl, rfl, _, rfl, ?_⟩
    simp only [List.flatten_cons, List.flatten_nil, List.append_nil, pbit32_ulong, pqid_fcall, body]
  | read data =>
    rw [body, List.length_append] at small
    have count : (ulong data.length).toNat = data.length := by
      unfold ulong
      rw [UInt64.toNat_ofNat']
      lia
    refine ⟨_, rfl, rfl, ?_, _, rfl, ?_⟩
    · simp only [Styx.Msg.size, body, count, List.length_append, length_le32]
    · simp only [List.flatten_cons, List.flatten_nil, List.append_nil, body, count, List.take_length]
      rw [pbit32_eq (v := (data.length : Int)) rfl]
  | write count => exact ⟨_, rfl, rfl, rfl, _, rfl, by simp only [List.flatten_cons, List.flatten_nil, List.append_nil, pbit32_ulong, body]⟩
  | stat dir =>
    have size := domain.size
    have count : (ushort (packdirsize dir)).toNat = packdirsize dir := by
      unfold ushort
      rw [UInt16.toNat_ofNat']
      lia
    refine ⟨_, congrArg (Option.map _) (packdir_eq dir (by lia)), rfl, ?_, _, rfl, ?_⟩
    · simp only [Styx.Msg.size, body, length_dirBytes, count, List.length_append, length_le16]
    · simp only [List.flatten_cons, List.flatten_nil, List.append_nil, body, length_dirBytes, count]
      rw [List.take_of_length_le (length_dirBytes junk dir).le, pbit16_eq (v := (packdirsize dir : Int)) rfl]

theorem Treq.Fits.scalars {req : Treq} (plain : req.Fits Text) : req.Fits Scalars := by
  cases req with
  | version _ _ => exact ⟨plain.1, plain.2.1⟩
  | auth _ _ _ => exact ⟨plain.1, plain.2.1.1, plain.2.2.1⟩
  | attach _ _ _ _ => exact ⟨plain.1, plain.2.1, plain.2.2.1.1, plain.2.2.2.1⟩
  | walk _ _ _ => exact ⟨plain.1, plain.2.1, fun name member => (plain.2.2 name member).1⟩
  | create _ _ _ _ => exact ⟨plain.1, plain.2.1.1, plain.2.2⟩
  | _ => exact plain

theorem Rrep.Fits.scalars {rep : Rrep} (plain : rep.Fits Text) : rep.Fits Scalars := by
  cases rep with
  | version _ _ => exact ⟨plain.1, plain.2.1⟩
  | error _ => exact plain.1
  | _ => exact plain

theorem Tmsg.agrees {t : Tmsg} (word : Word 16 t.tag) (domain : t.req.Domain) (plain : t.req.Fits Text)
    (small : t.packedsize + 64 < 2 ^ 31) : t.Agrees junk := by
  have size := @Tmsg.packedsize_eq junk t plain.real
  obtain ⟨m, same, kind, sum, pieces, stored, flat⟩ := @Treq.stores junk _ plain domain (by omega)
  refine ⟨_, t.pack_eq plain.real small, ?_, Tmsg.unpack_eq word plain.scalars domain (by omega), ⟨ushort t.tag, m⟩, ?_, ?_⟩
  · rw [List.length_append, length_hdrBytes, size]
  · rw [Tmsg.fcall, same]
    rfl
  · rw [size, convS2M_body sum stored flat (by omega), kind]

theorem Rmsg.agrees {r : Rmsg} (word : Word 16 r.tag) (domain : r.rep.Domain) (plain : r.rep.Fits Text)
    (few : ∀ qids, r.rep = .walk qids → qids.length ≤ MAXWELEM) (small : r.packedsize + 64 < 2 ^ 31) : r.Agrees junk := by
  have size := @Rmsg.packedsize_eq junk r plain.real
  obtain ⟨m, same, kind, sum, pieces, stored, flat⟩ := @Rrep.stores junk _ plain domain few (by omega)
  refine ⟨_, r.pack_eq plain.real small, ?_, Rmsg.unpack_eq word plain.scalars domain (by omega), ⟨ushort r.tag, m⟩, ?_, ?_⟩
  · rw [List.length_append, length_hdrBytes, size]
  · rw [Rmsg.fcall, same]
    rfl
  · rw [size, convS2M_body sum stored flat (by omega), kind]

end Inferno.Styxlib
