import Inferno.Styxlib.Unpack

namespace Inferno.Styxlib

open Strings

variable {f : List UInt8} {i o n : Nat} {s : Str} {junk : UInt8} {v : Int}

/-- What the wire can carry: fields that fit, and strings as `T` says. -/
def Treq.Fits (T : Str → Prop) : Treq → Prop
  | readerror _ => False
  | version msize ver => Word 32 msize ∧ T ver
  | auth afid uname aname => Word 32 afid ∧ T uname ∧ T aname
  | attach fid afid uname aname => Word 32 fid ∧ Word 32 afid ∧ T uname ∧ T aname
  | flush oldtag => Word 16 oldtag
  | walk fid newfid names => Word 32 fid ∧ Word 32 newfid ∧ ∀ name ∈ names, T name
  | open_ fid mode => Word 32 fid ∧ Word 8 mode
  | create fid name perm mode => Word 32 fid ∧ T name ∧ Word 32 perm ∧ Word 8 mode
  | read fid _ count => Word 32 fid ∧ Word 32 count
  | write fid _ _ => Word 32 fid
  | clunk fid => Word 32 fid
  | stat fid => Word 32 fid
  | remove fid => Word 32 fid
  | wstat fid dir => Word 32 fid ∧ dir.Plain ∧ packdirsize dir ≤ 255

def Rrep.Fits (T : Str → Prop) : Rrep → Prop
  | readerror _ => False
  | version msize ver => Word 32 msize ∧ T ver
  | auth aqid => aqid.Plain
  | attach qid => qid.Plain
  | flush => True
  | error ename => T ename
  | clunk => True
  | remove => True
  | wstat => True
  | walk qids => qids.length < 65536 ∧ ∀ qid ∈ qids, qid.Plain
  | create qid iounit => qid.Plain ∧ Word 32 iounit
  | open_ qid iounit => qid.Plain ∧ Word 32 iounit
  | read _ => True
  | write count => Word 32 count
  | stat dir => dir.Plain

/-- A field that is meant to have 32 bits. -/
def Wide (v : Int) : Prop := Word 32 v ∨ v = NOFID

instance (v : Int) : Decidable (Wide v) := inferInstanceAs (Decidable (_ ∨ _))

def Short (s : Str) : Prop := utflen s ≤ 65535

instance (s : Str) : Decidable (Short s) := inferInstanceAs (Decidable (_ ≤ _))

structure Dir.Domain (d : Dir) : Prop where
  vers : Wide d.qid.vers
  mode : Wide d.mode
  atime : Wide d.atime
  mtime : Wide d.mtime
  dev : Wide d.dev
  size : packdirsize d ≤ 65535

/-- What the parts of a message are meant to be. -/
def Treq.Domain : Treq → Prop
  | readerror text => Short text
  | version msize ver => Wide msize ∧ Short ver
  | auth afid uname aname => Wide afid ∧ Short uname ∧ Short aname
  | attach fid afid uname aname => Wide fid ∧ Wide afid ∧ Short uname ∧ Short aname
  | flush _ => True
  | walk fid newfid names => Wide fid ∧ Wide newfid ∧ names.length ≤ MAXWELEM ∧ ∀ name ∈ names, Short name
  | open_ fid _ => Wide fid
  | create fid name perm _ => Wide fid ∧ Short name ∧ Wide perm
  | read fid _ count => Wide fid ∧ Wide count
  | write fid _ _ => Wide fid
  | clunk fid => Wide fid
  | stat fid => Wide fid
  | remove fid => Wide fid
  | wstat fid dir => Wide fid ∧ dir.Domain

def Rrep.Domain : Rrep → Prop
  | readerror text => Short text
  | version msize ver => Wide msize ∧ Short ver
  | auth aqid => Wide aqid.vers
  | attach qid => Wide qid.vers
  | flush => True
  | error ename => Short ename
  | clunk => True
  | remove => True
  | wstat => True
  | walk qids => ∀ qid ∈ qids, Wide qid.vers
  | create qid iounit => Wide qid.vers ∧ Wide iounit
  | open_ qid iounit => Wide qid.vers ∧ Wide iounit
  | read _ => True
  | write count => Wide count
  | stat dir => dir.Domain

theorem Treq.Fits.real {T : Str → Prop} {req : Treq} (plain : req.Fits T) : req.Real := by
  cases req with
  | readerror _ => nomatch plain
  | _ => trivial

theorem Rrep.Fits.real {T : Str → Prop} {rep : Rrep} (plain : rep.Fits T) : rep.Real := by
  cases rep with
  | readerror _ => nomatch plain
  | _ => trivial

theorem le32_eq (v : Int) : le32 v = le16 v ++ le16 (v >>> (16 : Nat)) := by
  have third : (v >>> (16 : Nat)) >>> (8 : Nat) = v >>> (24 : Nat) := (Int.shiftRight_add v 16 8).symm
  unfold le32 le16
  rw [third]
  rfl

/-- The head of a whole message. -/
theorem unpackhdr_eq {ds mtype parity : Nat} {tag : Int} {body : List UInt8} (size : ds = H + body.length) (small : ds < 2 ^ 31)
    (known : mtype < 128 ∧ mtype % 2 = parity ∧ hdrlen mtype ≤ ds) (word : Word 16 tag) :
    ∃ n : Nat, (n : Int) = tag ∧ unpackhdr (hdrBytes ds mtype tag ++ body) parity =
      some (.inr (hdrBytes ds mtype tag ++ body, mtype, n)) := by
  generalize whole : hdrBytes ds mtype tag ++ body = f
  have holds : Holds f 0 (hdrBytes ds mtype tag) := ⟨[], body, by rw [whole]; rfl, rfl⟩
  have length : f.length = ds := by
    rw [← whole, List.length_append, length_hdrBytes, size]
  have h : H = 7 := rfl
  simp only [hdrBytes, le32_eq, List.append_assoc, holds_append, length_le16, List.length_singleton, Nat.zero_add,
    Nat.reduceAdd] at holds
  obtain ⟨low, high, type, last⟩ := holds
  obtain ⟨n, value, eq⟩ := g16_word last word
  have first := g16_holds low
  have second := g16_holds high
  rw [Int.shiftRight_eq_div_pow] at second
  have total : ((ds : Int) % 65536).toNat ||| (((ds : Int) / (2 ^ 16 : Nat)) % 65536).toNat <<< 16 = ds := by
    rw [Nat.or_comm, ← Nat.shiftLeft_add_eq_or_of_lt (i := 16) (by lia), Nat.shiftLeft_eq]
    lia
  have kind := get_holds type
  have byte := byte_toNat mtype
  refine ⟨n, eq, ?_⟩
  unfold unpackhdr
  rw [if_neg (by lia), first, second, Option.bind_eq_bind, Option.bind_some, Option.bind_some]
  dsimp only
  rw [total, if_neg (by lia), if_neg (by lia), kind, show (Styxlib.byte mtype).toNat = mtype by lia, Option.bind_some,
    if_neg (by lia), value]
  rfl

theorem gnames_holds {names : List Str} (plain : ∀ name ∈ names, Scalars name) (short : ∀ name ∈ names, Short name) :
    ∀ {o : Nat} {p : Int}, 0 < o → p = o → Holds f o (names.flatMap (strBytes junk)) → gnames f names.length p =
      some (some (names, ((o + (names.flatMap (strBytes junk)).length : Nat) : Int))) := by
  induction names with
  | nil =>
    intro o p _ place _
    subst place
    rfl
  | cons name names ih =>
    intro o p positive place holds
    have len := short name List.mem_cons_self
    rw [List.flatMap_cons, holds_append, length_strBytes] at holds
    have rest := ih (fun x member => plain x (List.mem_cons_of_mem _ member))
      (fun x member => short x (List.mem_cons_of_mem _ member)) (by lia) rfl holds.2
    rw [List.length_cons]
    unfold gnames
    rw [gstring_holds holds.1 (plain name List.mem_cons_self) (Nat.lt_succ_of_le len) place, Option.bind_eq_bind,
      Option.bind_some]
    dsimp only
    rw [if_neg (by lia), rest, Option.bind_eq_bind, Option.bind_some, List.flatMap_cons, List.length_append, length_strBytes, Nat.add_assoc o]
    rfl

theorem gqids_holds {qids : List Qid} (plain : ∀ qid ∈ qids, qid.Plain) : ∀ {o : Nat}, Holds f o (qids.flatMap qidBytes) →
    gqids f qids.length o = some (qids, o + (qids.flatMap qidBytes).length) := by
  induction qids with
  | nil => exact fun _ => rfl
  | cons qid qids ih =>
    intro o holds
    rw [List.flatMap_cons, holds_append, length_qidBytes] at holds
    have rest := ih (fun x member => plain x (List.mem_cons_of_mem _ member)) holds.2
    rw [List.length_cons]
    unfold gqids
    rw [gqid_holds holds.1 (plain qid List.mem_cons_self), Option.bind_eq_bind, Option.bind_some, rest, Option.bind_eq_bind, Option.bind_some,
      List.flatMap_cons, List.length_append, length_qidBytes, ← Nat.add_assoc]
    rfl

theorem some_then {α β : Type} {x : α} {k : α → Option β} : (some x >>= k) = k x := rfl

theorem fid_eq {fid : Nat} (holds : Holds f i (le32 v)) (word : Word 32 v) (first : g32 f i = some fid) : (fid : Int) = v := by
  obtain ⟨n, value, eq⟩ := g32_word holds word
  cases value.symm.trans first
  exact eq

/-- The cases of `Tmsg.unpack` on the bytes of a message. -/
theorem Tmsg.decode_eq {req : Treq} {fid : Nat} (plain : req.Fits Scalars) (domain : req.Domain) (holds : Holds f H (req.body junk))
    (length : f.length = H + (req.body junk).length) (small : f.length < 2 ^ 31) (first : H + FID ≤ hdrlen req.mtype → g32 f H = some fid) :
    Tmsg.decode f fid req.mtype = some (some ((f.length : Int), req)) := by
  have h : H = 7 := rfl
  have str : STR = 2 := rfl
  cases req with
  | readerror _ => nomatch plain
  | version msize ver =>
    obtain ⟨word, text⟩ := plain
    have short : utflen ver ≤ 65535 := domain.2
    simp only [Treq.body, holds_append, length_le32] at holds
    obtain ⟨low, high⟩ := holds
    have eq := fid_eq low word (first (Nat.le_of_ble_eq_true rfl))
    rw [Treq.body, List.length_append, length_le32, length_strBytes] at length
    simp only [Treq.mtype, Tmsg.decode]
    rw [gstring_holds (p := (H + COUNT : Nat)) high text (by lia) rfl, some_then]
    dsimp only
    rw [if_neg (by lia), eq, length, Nat.add_assoc]
    rfl
  | auth afid uname aname =>
    obtain ⟨word, text, text'⟩ := plain
    have short : utflen uname ≤ 65535 := domain.2.1
    have short' : utflen aname ≤ 65535 := domain.2.2
    simp only [Treq.body, List.append_assoc, holds_append, length_le32, length_strBytes] at holds
    obtain ⟨low, name, name'⟩ := holds
    have eq := fid_eq low word (first (Nat.le_of_ble_eq_true rfl))
    rw [Treq.body, List.length_append, List.length_append, length_le32, length_strBytes, length_strBytes] at length
    simp only [Treq.mtype, Tmsg.decode]
    rw [gstring_holds (p := (H + FID : Nat)) name text (by lia) rfl, some_then]
    dsimp only
    rw [gstring_holds name' text' (by lia) rfl, some_then]
    dsimp only
    rw [if_neg (by lia), eq, show f.length = H + 4 + (STR + utflen uname) + (STR + utflen aname) by lia]
    rfl
  | attach fid' afid uname aname =>
    obtain ⟨word, word', text, text'⟩ := plain
    have short : utflen uname ≤ 65535 := domain.2.2.1
    have short' : utflen aname ≤ 65535 := domain.2.2.2
    simp only [Treq.body, List.append_assoc, holds_append, length_le32, length_strBytes] at holds
    obtain ⟨low, high, name, name'⟩ := holds
    have eq := fid_eq low word (first (Nat.le_of_ble_eq_true rfl))
    obtain ⟨n, value, eq'⟩ := g32_word high word'
    rw [Treq.body, List.length_append, List.length_append, List.length_append, length_le32, length_le32, length_strBytes,
      length_strBytes] at length
    simp only [Treq.mtype, Tmsg.decode]
    rw [show H + FID = H + 4 from rfl, value, some_then,
      gstring_holds (p := (H + 2 * FID : Nat)) name text (by lia) rfl, some_then]
    dsimp only
    rw [gstring_holds name' text' (by lia) rfl, some_then]
    dsimp only
    rw [if_neg (by lia), eq, eq', show f.length = H + 4 + 4 + (STR + utflen uname) + (STR + utflen aname) by lia]
    rfl
  | flush oldtag =>
    obtain ⟨n, value, eq⟩ := g16_word holds plain
    simp only [Treq.mtype, Tmsg.decode]
    rw [value, some_then, eq, length]
    rfl
  | walk fid' newfid names =>
    obtain ⟨word, word', texts⟩ := plain
    obtain ⟨-, -, few, short⟩ := domain
    have few : names.length ≤ 16 := few
    simp only [Treq.body, List.append_assoc, holds_append, length_le32, length_le16] at holds
    obtain ⟨low, high, count, rest⟩ := holds
    have eq := fid_eq low word (first (Nat.le_of_ble_eq_true rfl))
    obtain ⟨n, value, eq'⟩ := g32_word high word'
    have number := g16_holds count
    rw [show ((names.length : Int) % 65536).toNat = names.length by lia] at number
    rw [Treq.body, List.length_append] at length
    simp only [Treq.mtype, Tmsg.decode]
    rw [show H + FID = H + 4 from rfl, value, some_then, show H + 2 * FID = H + 4 + 4 from rfl, number,
      some_then, if_neg (c := names.length > MAXWELEM) (Nat.not_lt.mpr few), gnames_holds (p := (H + 4 + 4 + LEN : Nat)) texts short (by decide) rfl rest,
      some_then]
    dsimp only
    rw [eq, eq', length, ← Nat.add_assoc]
    rfl
  | open_ fid' mode =>
    obtain ⟨word, byte⟩ := plain
    simp only [Treq.body, holds_append, length_le32] at holds
    obtain ⟨low, high⟩ := holds
    have eq := fid_eq low word (first (Nat.le_of_ble_eq_true rfl))
    obtain ⟨n, value, eq'⟩ := get_word high byte
    simp only [Treq.mtype, Tmsg.decode]
    rw [show H + FID = H + 4 from rfl, value, some_then, eq, eq', length]
    rfl
  | create fid' name perm mode =>
    obtain ⟨word, text, word', byte⟩ := plain
    have short : utflen name ≤ 65535 := domain.2.1
    simp only [Treq.body, List.append_assoc, holds_append, length_le32, length_strBytes] at holds
    obtain ⟨low, name', bits, last⟩ := holds
    have eq := fid_eq low word (first (Nat.le_of_ble_eq_true rfl))
    obtain ⟨n, value, eq'⟩ := g32_word bits word'
    obtain ⟨m, value', eq''⟩ := get_word last byte
    have bit32 : BIT32SZ = 4 := rfl
    have bit8 : BIT8SZ = 1 := rfl
    rw [Treq.body, List.length_append, List.length_append, List.length_append, length_le32, length_le32, length_strBytes,
      List.length_singleton] at length
    simp only [Treq.mtype, Tmsg.decode]
    rw [gstring_holds (p := (H + FID : Nat)) name' text (by lia) rfl, some_then]
    dsimp only
    rw [if_neg (by lia), Int.toNat_natCast, value, some_then, bit32, value', some_then, eq, eq', eq'', length]
    refine congrArg (fun n => some (some (n, _))) ?_
    lia
  | read fid' offset count =>
    obtain ⟨word, word'⟩ := plain
    simp only [Treq.body, List.append_assoc, holds_append, length_le32, length_le64] at holds
    obtain ⟨low, wide, bits⟩ := holds
    have eq := fid_eq low word (first (Nat.le_of_ble_eq_true rfl))
    obtain ⟨n, value, eq'⟩ := g32_word bits word'
    simp only [Treq.mtype, Tmsg.decode]
    rw [show H + FID = H + 4 from rfl, g64_holds wide, some_then,
      show H + 4 + OFFSET = H + 4 + 8 from rfl, value, some_then, eq, eq', length]
    rfl
  | write fid' offset data =>
    simp only [Treq.body, List.append_assoc, holds_append, length_le32, length_le64] at holds
    obtain ⟨low, wide, bits, bytes⟩ := holds
    have eq := fid_eq low plain (first (Nat.le_of_ble_eq_true rfl))
    have number := g32_holds bits
    rw [Treq.body, List.length_append, List.length_append, List.length_append, length_le32, length_le64, length_le32] at length
    have exact : ((data.length : Int) % 2 ^ 32).toNat = data.length := by lia
    rw [exact] at number
    simp only [Treq.mtype, Tmsg.decode]
    rw [show H + FID = H + 4 from rfl, g64_holds wide, some_then, show H + 4 + OFFSET = H + 4 + 8 from rfl, number, some_then]
    rw [show H + 4 + 8 + COUNT = H + 4 + 8 + 4 from rfl, if_neg (by lia), bytes.slice, eq,
      show f.length = H + 4 + 8 + 4 + data.length by lia]
    rfl
  | clunk fid' =>
    simp only [Treq.mtype, Tmsg.decode]
    rw [fid_eq holds plain (first (Nat.le_of_ble_eq_true rfl)), length]
    rfl
  | stat fid' =>
    simp only [Treq.mtype, Tmsg.decode]
    rw [fid_eq holds plain (first (Nat.le_of_ble_eq_true rfl)), length]
    rfl
  | remove fid' =>
    simp only [Treq.mtype, Tmsg.decode]
    rw [fid_eq holds plain (first (Nat.le_of_ble_eq_true rfl)), length]
    rfl
  | wstat fid' dir =>
    obtain ⟨word, fields, small⟩ := plain
    simp only [Treq.body, List.append_assoc, holds_append, length_le32, length_le16] at holds
    obtain ⟨low, count, entry⟩ := holds
    have eq := fid_eq low word (first (Nat.le_of_ble_eq_true rfl))
    have whole := unpackdir_holds (f := f.drop (H + 4 + 2)) (Holds.drop entry) fields (by lia)
    have byte := byte_toNat (packdirsize dir)
    rw [Treq.body, List.length_append, List.length_append, length_le32, length_le16, length_dirBytes] at length
    simp only [Treq.mtype, Tmsg.decode]
    rw [show H + FID = H + 4 from rfl, get_holds count.tail, some_then, get_holds count, some_then, Nat.shiftLeft_eq,
      show ∀ x, x * 2 ^ 8 % 256 = 0 from fun x => Nat.mul_mod_left x 256, Nat.zero_or,
      show (Styxlib.byte (packdirsize dir)).toNat = packdirsize dir by lia]
    rw [show H + 4 + LEN = H + 4 + 2 from rfl, if_neg (by lia), whole, some_then]
    dsimp only
    rw [if_neg (not_not.mpr rfl), eq, show f.length = H + 4 + 2 + packdirsize dir by lia]
    rfl

/-- The cases of `Rmsg.unpack`. -/
theorem Rmsg.decode_eq {rep : Rrep} (plain : rep.Fits Scalars) (domain : rep.Domain) (holds : Holds f H (rep.body junk))
    (length : f.length = H + (rep.body junk).length) (small : f.length < 2 ^ 31) :
    Rmsg.decode f rep.mtype = some (some ((f.length : Int), rep)) := by
  have h : H = 7 := rfl
  have str : STR = 2 := rfl
  cases rep with
  | readerror _ => nomatch plain
  | version msize ver =>
    obtain ⟨word, text⟩ := plain
    have short : utflen ver ≤ 65535 := domain.2
    simp only [Rrep.body, holds_append, length_le32] at holds
    obtain ⟨low, high⟩ := holds
    obtain ⟨n, value, eq⟩ := g32_word low word
    rw [Rrep.body, List.length_append, length_le32, length_strBytes] at length
    simp only [Rrep.mtype, Rmsg.decode]
    rw [value, some_then, gstring_holds (p := (H + BIT32SZ : Nat)) high text (by lia) rfl, some_then]
    dsimp only
    rw [if_neg (by lia), eq, length, Nat.add_assoc]
    rfl
  | auth aqid =>
    simp only [Rrep.mtype, Rmsg.decode]
    rw [gqid_holds holds plain, some_then, length]
    rfl
  | attach qid =>
    simp only [Rrep.mtype, Rmsg.decode]
    rw [gqid_holds holds plain, some_then, length]
    rfl
  | flush => exact congrArg (fun n : Nat => some (some ((n : Int), Rrep.flush))) length.symm
  | clunk => exact congrArg (fun n : Nat => some (some ((n : Int), Rrep.clunk))) length.symm
  | remove => exact congrArg (fun n : Nat => some (some ((n : Int), Rrep.remove))) length.symm
  | wstat => exact congrArg (fun n : Nat => some (some ((n : Int), Rrep.wstat))) length.symm
  | error ename =>
    have short : utflen ename ≤ 65535 := domain
    rw [Rrep.body, length_strBytes] at length
    simp only [Rrep.mtype, Rmsg.decode]
    rw [gstring_holds (p := (H : Nat)) holds plain (by lia) rfl, some_then]
    dsimp only
    rw [if_neg (by lia), length]
    rfl
  | walk qids =>
    obtain ⟨few, plain⟩ := plain
    simp only [Rrep.body, holds_append, length_le16] at holds
    obtain ⟨count, rest⟩ := holds
    have number := g16_holds count
    rw [show ((qids.length : Int) % 65536).toNat = qids.length by lia] at number
    rw [Rrep.body, List.length_append, length_le16, length_qids] at length
    have len : LEN = 2 := rfl
    have size := Nat.mul_comm QID qids.length
    simp only [Rrep.mtype, Rmsg.decode]
    rw [number, some_then, if_neg (by lia), gqids_holds plain (o := H + LEN) rest, some_then, length, length_qids, ← Nat.add_assoc]
    rfl
  | create qid iounit =>
    obtain ⟨plain, word⟩ := plain
    simp only [Rrep.body, holds_append, length_qidBytes] at holds
    obtain ⟨low, high⟩ := holds
    obtain ⟨n, value, eq⟩ := g32_word high word
    simp only [Rrep.mtype, Rmsg.decode]
    rw [gqid_holds low plain, some_then, value, some_then, eq, length]
    rfl
  | open_ qid iounit =>
    obtain ⟨plain, word⟩ := plain
    simp only [Rrep.body, holds_append, length_qidBytes] at holds
    obtain ⟨low, high⟩ := holds
    obtain ⟨n, value, eq⟩ := g32_word high word
    simp only [Rrep.mtype, Rmsg.decode]
    rw [gqid_holds low plain, some_then, value, some_then, eq, length]
    rfl
  | read data =>
    simp only [Rrep.body, holds_append, length_le32] at holds
    obtain ⟨count, bytes⟩ := holds
    have number := g32_holds count
    rw [Rrep.body, List.length_append, length_le32] at length
    have exact : ((data.length : Int) % 2 ^ 32).toNat = data.length := by lia
    rw [exact] at number
    simp only [Rrep.mtype, Rmsg.decode]
    rw [number, some_then, show H + COUNT = H + 4 from rfl, if_neg (by lia), bytes.slice, length, ← Nat.add_assoc]
    rfl
  | write count =>
    obtain ⟨n, value, eq⟩ := g32_word holds plain
    simp only [Rrep.mtype, Rmsg.decode]
    rw [value, some_then, eq, length]
    rfl
  | stat dir =>
    have short : packdirsize dir ≤ 65535 := domain.size
    simp only [Rrep.body, holds_append, length_le16] at holds
    obtain ⟨count, entry⟩ := holds
    have whole := unpackdir_holds (f := f.drop (H + 2)) (Holds.drop entry) plain (by lia)
    have number := g16_holds count
    rw [show ((packdirsize dir : Int) % 65536).toNat = packdirsize dir by lia] at number
    have positive : packdirsize dir ≥ 49 := by
      unfold packdirsize
      rw [show STATFIXLEN = 49 from rfl]
      lia
    rw [Rrep.body, List.length_append, length_le16, length_dirBytes] at length
    simp only [Rrep.mtype, Rmsg.decode]
    rw [number, some_then, show H + LEN = H + 2 from rfl, if_neg (by lia), whole, some_then]
    dsimp only
    rw [if_neg (by lia), if_neg (not_not.mpr rfl), show f.length = H + 2 + packdirsize dir by lia]
    rfl

theorem get_some (inside : i < f.length) : ∃ n, get f i = some n := by
  unfold get
  rw [List.getElem?_eq_getElem inside]
  exact ⟨_, rfl⟩

theorem g32_some (inside : i + 4 ≤ f.length) : ∃ n, g32 f i = some n := by
  obtain ⟨b₀, first⟩ := get_some (f := f) (i := i) (by omega)
  obtain ⟨b₁, second⟩ := get_some (f := f) (i := i + 1) (by omega)
  obtain ⟨b₂, third⟩ := get_some (f := f) (i := i + 2) (by omega)
  obtain ⟨b₃, fourth⟩ := get_some (f := f) (i := i + 3) (by omega)
  unfold g32
  rw [first, second, third, fourth]
  exact ⟨_, rfl⟩

theorem Treq.known {req : Treq} (real : req.Real) :
    req.mtype < 128 ∧ req.mtype % 2 = 0 ∧ hdrlen req.mtype ≤ H + (req.body junk).length := by
  cases req with
  | readerror _ => nomatch real
  | _ =>
    refine ⟨by simp [Treq.mtype], by simp [Treq.mtype], ?_⟩
    simp only [Treq.mtype, hdrlen, Treq.body, List.length_append, length_le16, length_le32, length_le64, length_strBytes,
      length_dirBytes, packdirsize, STATFIXLEN, List.length_singleton, H, FID, TAG, STR, COUNT, OFFSET, LEN, BIT8SZ, BIT32SZ]
    lia

theorem Rrep.known {rep : Rrep} (real : rep.Real) :
    rep.mtype < 128 ∧ rep.mtype % 2 = 1 ∧ hdrlen rep.mtype ≤ H + (rep.body junk).length := by
  cases rep with
  | readerror _ => nomatch real
  | _ =>
    refine ⟨by simp [Rrep.mtype], by simp [Rrep.mtype], ?_⟩
    simp only [Rrep.mtype, hdrlen, Rrep.body, List.length_append, length_le16, length_le32, length_qidBytes, length_strBytes,
      length_dirBytes, packdirsize, STATFIXLEN, List.length_nil, H, STR, COUNT, LEN, QID]
    omega

/-- `unpack` gives back what `pack` was given. -/
theorem Tmsg.unpack_eq {t : Tmsg} (word : Word 16 t.tag) (plain : t.req.Fits Scalars) (domain : t.req.Domain)
    (small : t.packedsize < 2 ^ 31) :
    Tmsg.unpack (hdrBytes t.packedsize t.req.mtype t.tag ++ t.req.body junk) = some ((t.packedsize : Int), some t) := by
  have size := @Tmsg.packedsize_eq junk t plain.real
  obtain ⟨even, parity, room⟩ := @Treq.known junk _ plain.real
  obtain ⟨tag, req⟩ := t
  dsimp only at size even parity room
  generalize (Tmsg.mk tag req).packedsize = ds at *
  obtain ⟨n, eq, head⟩ := unpackhdr_eq size small ⟨even, parity, size ▸ room⟩ word
  have length : (hdrBytes ds req.mtype tag ++ req.body junk).length = H + (req.body junk).length := by
    rw [List.length_append, length_hdrBytes]
  have holds : Holds (hdrBytes ds req.mtype tag ++ req.body junk) H (req.body junk) :=
    ⟨hdrBytes ds req.mtype tag, [], by rw [List.append_nil], rfl⟩
  dsimp only
  generalize hdrBytes ds req.mtype tag ++ req.body junk = f at *
  unfold Tmsg.unpack
  rw [head, some_then]
  dsimp only
  split
  · rename_i there
    obtain ⟨fid, value⟩ := g32_some (f := f) (i := H) (by
      rw [show FID = 4 from rfl] at there
      omega)
    rw [value, some_then, Tmsg.decode_eq plain domain holds length (by omega) fun _ => value, some_then, eq, length, ← size]
    rfl
  · rename_i none_
    rw [some_then, Tmsg.decode_eq plain domain holds length (by omega) fun there => absurd there none_, some_then, eq, length,
      ← size]
    rfl

theorem Rmsg.unpack_eq {r : Rmsg} (word : Word 16 r.tag) (plain : r.rep.Fits Scalars) (domain : r.rep.Domain)
    (small : r.packedsize < 2 ^ 31) :
    Rmsg.unpack (hdrBytes r.packedsize r.rep.mtype r.tag ++ r.rep.body junk) = some ((r.packedsize : Int), some r) := by
  have size := @Rmsg.packedsize_eq junk r plain.real
  obtain ⟨odd, parity, room⟩ := @Rrep.known junk _ plain.real
  obtain ⟨tag, rep⟩ := r
  dsimp only at size odd parity room
  generalize (Rmsg.mk tag rep).packedsize = ds at *
  obtain ⟨n, eq, head⟩ := unpackhdr_eq size small ⟨odd, parity, size ▸ room⟩ word
  have length : (hdrBytes ds rep.mtype tag ++ rep.body junk).length = H + (rep.body junk).length := by
    rw [List.length_append, length_hdrBytes]
  have holds : Holds (hdrBytes ds rep.mtype tag ++ rep.body junk) H (rep.body junk) :=
    ⟨hdrBytes ds rep.mtype tag, [], by rw [List.append_nil], rfl⟩
  dsimp only
  generalize hdrBytes ds rep.mtype tag ++ rep.body junk = f at *
  unfold Rmsg.unpack
  rw [head, some_then]
  dsimp only
  rw [Rmsg.decode_eq plain domain holds length (by omega), some_then, eq, length, ← size]
  rfl

end Inferno.Styxlib
