import Inferno.Styxlib.Pack

namespace Inferno.Styxlib

open Strings

variable {f a b bytes : List UInt8} {i o n : Nat} {s : Str} {junk : UInt8} {v : Int}

/-- The bytes of `f` from `i` on start with `bytes`. -/
def Holds (f : List UInt8) (i : Nat) (bytes : List UInt8) : Prop := ∃ w rest, f = w ++ (bytes ++ rest) ∧ w.length = i

theorem Holds.left (holds : Holds f i (a ++ b)) : Holds f i a := by
  obtain ⟨w, rest, whole, place⟩ := holds
  exact ⟨w, b ++ rest, by rw [whole, List.append_assoc], place⟩

theorem Holds.right (holds : Holds f i (a ++ b)) (place : o = i + a.length) : Holds f o b := by
  obtain ⟨w, rest, whole, rfl⟩ := holds
  exact ⟨w ++ a, rest, by rw [whole]; simp only [List.append_assoc], by rw [List.length_append, place]⟩

theorem holds_append : Holds f i (a ++ b) ↔ Holds f i a ∧ Holds f (i + a.length) b := by
  refine ⟨fun holds => ⟨holds.left, holds.right rfl⟩, ?_⟩
  rintro ⟨⟨w, rest, rfl, rfl⟩, w', rest', same, place⟩
  have tail : rest = b ++ rest' := by
    rw [← List.append_assoc] at same
    exact (List.append_inj same (by rw [List.length_append, place])).2
  exact ⟨w, rest', by rw [tail, List.append_assoc], rfl⟩

theorem Holds.length (holds : Holds f i bytes) : i + bytes.length ≤ f.length := by
  obtain ⟨w, rest, rfl, rfl⟩ := holds
  simp only [List.length_append]
  omega

theorem Holds.slice (holds : Holds f i bytes) : (f.drop i).take bytes.length = bytes := by
  obtain ⟨w, rest, rfl, rfl⟩ := holds
  rw [List.drop_left, List.take_left]

theorem Holds.drop (holds : Holds f (n + i) bytes) : Holds (f.drop n) i bytes := by
  obtain ⟨w, rest, rfl, place⟩ := holds
  refine ⟨w.drop n, rest, ?_, ?_⟩
  · rw [List.drop_append_of_le_length (by omega)]
  · rw [List.length_drop]
    omega

theorem get_holds {x : UInt8} (holds : Holds f i (x :: bytes)) : get f i = some x.toNat := by
  obtain ⟨w, rest, rfl, rfl⟩ := holds
  unfold get
  rw [List.getElem?_append_right (Nat.le_refl _), Nat.sub_self]
  rfl

theorem Holds.tail {x : UInt8} (holds : Holds f i (x :: bytes)) : Holds f (i + 1) bytes :=
  Holds.right (a := [x]) (b := bytes) holds rfl

theorem get_lt (value : get f i = some n) : n < 256 := by
  unfold get at value
  obtain ⟨x, -, rfl⟩ := Option.map_eq_some_iff.mp value
  exact x.toNat_lt

theorem byte_toNat (v : Int) : ((byte v).toNat : Int) = v % 256 := by
  unfold byte
  rw [UInt8.toNat_ofNat']
  omega

theorem byte_shift (v : Int) (k : Nat) : ((byte (v >>> k)).toNat : Int) = v / 2 ^ k % 256 := by
  rw [byte_toNat, Int.shiftRight_eq_div_pow]
  rfl

theorem shift_byte {x y : Nat} (small : y < 256) : x <<< 8 ||| y = x * 256 + y := by
  rw [← Nat.shiftLeft_add_eq_or_of_lt (i := 8) small, Nat.shiftLeft_eq]

theorem g16_holds (holds : Holds f i (le16 v)) : g16 f i = some (v % 65536).toNat := by
  unfold le16 at holds
  unfold g16
  rw [get_holds holds.tail, get_holds holds, Option.bind_eq_bind, Option.bind_some, Option.bind_some, shift_byte (UInt8.toNat_lt _)]
  have low := byte_toNat v
  have high := byte_shift v 8
  exact congrArg some (by omega)

theorem g32_holds (holds : Holds f i (le32 v)) : g32 f i = some (v % 2 ^ 32).toNat := by
  unfold le32 at holds
  unfold g32
  rw [get_holds holds.tail.tail.tail, get_holds holds.tail.tail, get_holds holds.tail, get_holds holds]
  simp only [Option.bind_eq_bind, Option.bind_some]
  rw [shift_byte (UInt8.toNat_lt _), shift_byte (UInt8.toNat_lt _), shift_byte (UInt8.toNat_lt _)]
  have first := byte_toNat v
  have second := byte_shift v 8
  have third := byte_shift v 16
  have fourth := byte_shift v 24
  exact congrArg some (by omega)

theorem g64_holds {b : Int64} (holds : Holds f i (le64 b)) : g64 f i = some b := by
  unfold g64
  rw [g32_holds holds.left, g32_holds (holds.right (o := i + 4) rfl)]
  simp only [Option.bind_eq_bind, Option.bind_some]
  rw [Int.shiftRight_eq_div_pow]
  have low : (b.toInt % 2 ^ 32).toNat &&& 0xFFFFFFFF = (b.toInt % 2 ^ 32).toNat :=
    (Nat.and_two_pow_sub_one_eq_mod _ 32).trans (Nat.mod_eq_of_lt (by omega))
  rw [low, ← Nat.shiftLeft_add_eq_or_of_lt (i := 32) (by omega), Nat.shiftLeft_eq]
  have value : (((b.toInt / (2 ^ 32 : Nat) % 2 ^ 32).toNat * 2 ^ 32 + (b.toInt % 2 ^ 32).toNat : Nat) : Int) = b.toInt % 2 ^ 64 := by
    omega
  refine congrArg some (Int64.toInt_inj.mp ?_)
  rw [Int64.toInt_ofNat', value, show (b.toInt % 2 ^ 64) = b.toInt % ((Int64.size : Nat) : Int) from rfl, Int.emod_bmod]
  have least := Int64.le_toInt b
  have most := Int64.toInt_lt b
  refine Int.bmod_eq_of_le ?_ ?_
  · change -((2 ^ 64 : Nat) : Int) / 2 ≤ b.toInt
    omega
  · change b.toInt < (((2 ^ 64 : Nat) : Int) + 1) / 2
    omega

/-- A field of `k` bits. -/
def Word (k : Nat) (v : Int) : Prop := 0 ≤ v ∧ v < 2 ^ k

instance (k : Nat) (v : Int) : Decidable (Word k v) := inferInstanceAs (Decidable (_ ∧ _))

theorem g32_word (holds : Holds f i (le32 v)) (word : Word 32 v) : ∃ n : Nat, g32 f i = some n ∧ (n : Int) = v := by
  obtain ⟨low, high⟩ := word
  exact ⟨_, g32_holds holds, by omega⟩

theorem g16_word (holds : Holds f i (le16 v)) (word : Word 16 v) : ∃ n : Nat, g16 f i = some n ∧ (n : Int) = v := by
  obtain ⟨low, high⟩ := word
  exact ⟨_, g16_holds holds, by omega⟩

theorem get_word (holds : Holds f i [byte v]) (word : Word 8 v) : ∃ n : Nat, get f i = some n ∧ (n : Int) = v := by
  obtain ⟨low, high⟩ := word
  have same := byte_toNat v
  exact ⟨_, get_holds holds, by omega⟩

structure Qid.Plain (q : Qid) : Prop where
  vers : Word 32 q.vers
  qtype : Word 8 q.qtype

theorem gqid_holds {q : Qid} (holds : Holds f i (qidBytes q)) (plain : q.Plain) : gqid f i = some q := by
  unfold qidBytes at holds
  obtain ⟨qtype, first, eq₁⟩ := get_word holds.left.left plain.qtype
  obtain ⟨vers, second, eq₂⟩ := g32_word (holds.left.right (o := i + 1) rfl) plain.vers
  unfold gqid
  rw [first, second, g64_holds (holds.right (o := i + BIT8SZ + BIT32SZ) rfl)]
  simp only [Option.bind_eq_bind, Option.bind_some]
  rw [eq₁, eq₂]
  rfl

theorem gstring_holds {p : Int} (holds : Holds f o (strBytes junk s)) (scalars : ∀ c ∈ s, Scalar c) (short : utflen s < 65536)
    (place : p = o) : gstring f p = some (s, ((o + (STR + utflen s) : Nat) : Int)) := by
  subst place
  have length := holds.length
  have same : (cvtca junk s).length = utflen s := by rw [length_cvtca, utflen_eq]
  rw [length_strBytes] at length
  have count := g16_holds holds.left
  rw [same, show ((utflen s : Int) % 65536).toNat = utflen s by omega] at count
  have text := (holds.right (o := o + STR) rfl).slice
  rw [same] at text
  unfold gstring
  rw [if_neg (by omega), Int.toNat_natCast, count, Option.bind_eq_bind, Option.bind_some]
  dsimp only
  rw [if_neg (by omega), text, runesOf_cvtca scalars, Nat.add_assoc]
  rfl

/-- A string of which UTF-8 has the runes. -/
def Scalars (s : Str) : Prop := ∀ c ∈ s, Scalar c

structure Dir.Plain (d : Dir) : Prop where
  name : Scalars d.name
  uid : Scalars d.uid
  gid : Scalars d.gid
  muid : Scalars d.muid
  qid : d.qid.Plain
  mode : Word 32 d.mode
  atime : Word 32 d.atime
  mtime : Word 32 d.mtime
  dtype : Word 16 d.dtype
  dev : Word 32 d.dev

theorem unpackdir_holds {d : Dir} (holds : Holds f 0 (dirBytes junk d)) (plain : d.Plain) (short : packdirsize d < 65536) :
    unpackdir f = some (packdirsize d, d) := by
  have length := holds.length
  rw [length_dirBytes] at length
  have sum : packdirsize d = STATFIXLEN + utflen d.name + utflen d.uid + utflen d.gid + utflen d.muid := rfl
  have fixed : STATFIXLEN = 49 := rfl
  have str : STR = 2 := rfl
  have len : LEN = 2 := rfl
  simp only [dirBytes, List.append_assoc, holds_append, length_le16, length_le32, length_le64, length_qidBytes, length_strBytes,
    QID, Nat.zero_add, Nat.reduceAdd] at holds
  obtain ⟨size, dtype, dev, qid, mode, atime, mtime, wide, name, uid, gid, muid⟩ := holds
  obtain ⟨sz, count, eq₁⟩ := g16_word size ⟨by omega, by omega⟩
  obtain ⟨n₂, dtype, eq₂⟩ := g16_word dtype plain.dtype
  obtain ⟨n₃, dev, eq₃⟩ := g32_word dev plain.dev
  obtain ⟨n₄, mode, eq₄⟩ := g32_word mode plain.mode
  obtain ⟨n₅, atime, eq₅⟩ := g32_word atime plain.atime
  obtain ⟨n₆, mtime, eq₆⟩ := g32_word mtime plain.mtime
  have whole : sz + LEN = packdirsize d := by omega
  unfold unpackdir
  rw [if_neg (by omega), count, Option.bind_eq_bind, Option.bind_some]
  dsimp only
  rw [whole, if_neg (by omega), dtype, dev, gqid_holds qid plain.qid, mode, atime, mtime, g64_holds wide]
  simp only [Option.bind_eq_bind, Option.bind_some]
  rw [gstring_holds (p := 41) name plain.name (by omega) rfl, Option.bind_some]
  dsimp only
  rw [gstring_holds uid plain.uid (by omega) rfl, Option.bind_some]
  dsimp only
  rw [gstring_holds gid plain.gid (by omega) rfl, Option.bind_some]
  dsimp only
  rw [gstring_holds muid plain.muid (by omega) rfl, Option.bind_some]
  dsimp only
  rw [if_neg (by omega), eq₂, eq₃, eq₄, eq₅, eq₆]
  rfl

end Inferno.Styxlib
