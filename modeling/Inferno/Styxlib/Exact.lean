import Inferno.Styxlib.Agree

namespace Inferno.Styxlib

open Strings Lib

variable {f : List UInt8} {i n m : Nat} {o p : Int} {s : Str} {junk : UInt8} {v : Int}

theorem g16_word_of (value : g16 f i = some n) : Word 16 n := by
  unfold g16 at value
  simp only [Option.bind_eq_bind, Option.bind_eq_some_iff] at value
  obtain ⟨b₁, first, b₀, second, eq⟩ := value
  have high := get_lt first
  have low := get_lt second
  obtain rfl := Option.some.inj eq
  rw [shift_byte low]
  constructor <;> omega

theorem g32_word_of (value : g32 f i = some n) : Word 32 n := by
  unfold g32 at value
  simp only [Option.bind_eq_bind, Option.bind_eq_some_iff] at value
  obtain ⟨b₃, first, b₂, second, b₁, third, b₀, fourth, eq⟩ := value
  have := get_lt first
  have second := get_lt second
  have third := get_lt third
  have fourth := get_lt fourth
  obtain rfl := Option.some.inj eq
  rw [shift_byte second, shift_byte third, shift_byte fourth]
  constructor <;> omega

theorem get_word_of (value : get f i = some n) : Word 8 n := by
  have := get_lt value
  constructor <;> omega

theorem gqid_plain {q : Qid} (value : gqid f i = some q) : q.Plain := by
  unfold gqid at value
  simp only [Option.bind_eq_bind, Option.bind_eq_some_iff] at value
  obtain ⟨qtype, first, vers, second, path, third, eq⟩ := value
  obtain rfl := Option.some.inj eq
  exact ⟨g32_word_of second, get_word_of first⟩

theorem gstring_scalars (value : gstring f o = some (s, p)) : Scalars s := by
  unfold gstring at value
  split at value
  · obtain ⟨rfl, -⟩ := Prod.mk.inj (Option.some.inj value)
    exact fun c member => nomatch member
  · simp only [Option.bind_eq_bind, Option.bind_eq_some_iff] at value
    obtain ⟨l, -, value⟩ := value
    split at value
    · obtain ⟨rfl, -⟩ := Prod.mk.inj (Option.some.inj value)
      exact fun c member => nomatch member
    · obtain ⟨rfl, -⟩ := Prod.mk.inj (Option.some.inj value)
      exact runesOf_scalar

theorem plain_default : (default : Dir).Plain := by
  have empty : Scalars (default : Str) := fun c member => nomatch member
  exact ⟨empty, empty, empty, empty, ⟨by decide, by decide⟩, by decide, by decide, by decide, by decide, by decide⟩

theorem unpackdir_plain {d : Dir} (value : unpackdir f = some (n, d)) : d.Plain := by
  unfold unpackdir at value
  split at value
  · obtain ⟨-, rfl⟩ := Prod.mk.inj (Option.some.inj value)
    exact plain_default
  · obtain ⟨sz, -, value⟩ := Option.bind_eq_some_iff.mp value
    dsimp only at value
    split at value
    · obtain ⟨-, rfl⟩ := Prod.mk.inj (Option.some.inj value)
      exact plain_default
    · obtain ⟨dtype, h₁, value⟩ := Option.bind_eq_some_iff.mp value
      obtain ⟨dev, h₂, value⟩ := Option.bind_eq_some_iff.mp value
      obtain ⟨qid, h₃, value⟩ := Option.bind_eq_some_iff.mp value
      obtain ⟨mode, h₄, value⟩ := Option.bind_eq_some_iff.mp value
      obtain ⟨atime, h₅, value⟩ := Option.bind_eq_some_iff.mp value
      obtain ⟨mtime, h₆, value⟩ := Option.bind_eq_some_iff.mp value
      obtain ⟨length, h₇, value⟩ := Option.bind_eq_some_iff.mp value
      obtain ⟨⟨name, p₁⟩, h₈, value⟩ := Option.bind_eq_some_iff.mp value
      obtain ⟨⟨uid, p₂⟩, h₉, value⟩ := Option.bind_eq_some_iff.mp value
      obtain ⟨⟨gid, p₃⟩, h₁₀, value⟩ := Option.bind_eq_some_iff.mp value
      obtain ⟨⟨muid, p₄⟩, h₁₁, value⟩ := Option.bind_eq_some_iff.mp value
      have plain : Dir.Plain ⟨name, uid, gid, muid, qid, mode, atime, mtime, length, dtype, dev⟩ :=
        ⟨gstring_scalars h₈, gstring_scalars h₉, gstring_scalars h₁₀, gstring_scalars h₁₁, gqid_plain h₃, g32_word_of h₄,
          g32_word_of h₅, g32_word_of h₆, g16_word_of h₁, g32_word_of h₂⟩
      split at value
      · obtain ⟨-, rfl⟩ := Prod.mk.inj (Option.some.inj value)
        exact plain
      · obtain ⟨-, rfl⟩ := Prod.mk.inj (Option.some.inj value)
        exact plain

theorem gnames_scalars : ∀ {n : Nat} {o p : Int} {names : List Str}, gnames f n o = some (some (names, p)) →
    ∀ name ∈ names, Scalars name
  | 0, _, _, names, value => by
    obtain ⟨rfl, -⟩ := Prod.mk.inj (Option.some.inj (Option.some.inj value))
    exact fun name member => nomatch member
  | n + 1, o, p, names, value => by
    unfold gnames at value
    simp only [Option.bind_eq_bind, Option.bind_eq_some_iff, Prod.exists] at value
    obtain ⟨name, o', first, value⟩ := value
    split at value
    · nomatch value
    · simp only [Option.bind_eq_some_iff] at value
      obtain ⟨later, second, value⟩ := value
      split at value
      · nomatch value
      · obtain ⟨rfl, -⟩ := Prod.mk.inj (Option.some.inj (Option.some.inj value))
        exact List.forall_mem_cons.mpr ⟨gstring_scalars first, gnames_scalars second⟩

theorem gqids_plain : ∀ {n o k : Nat} {qids : List Qid}, gqids f n o = some (qids, k) → qids.length = n ∧ ∀ qid ∈ qids, qid.Plain
  | 0, _, _, qids, value => by
    obtain ⟨rfl, -⟩ := Prod.mk.inj (Option.some.inj value)
    exact ⟨rfl, fun qid member => nomatch member⟩
  | n + 1, o, k, qids, value => by
    unfold gqids at value
    simp only [Option.bind_eq_bind, Option.bind_eq_some_iff, Prod.exists] at value
    obtain ⟨qid, first, later, k', second, value⟩ := value
    obtain ⟨rfl, -⟩ := Prod.mk.inj (Option.some.inj value)
    obtain ⟨count, plain⟩ := gqids_plain second
    exact ⟨congrArg (· + 1) count, List.forall_mem_cons.mpr ⟨gqid_plain first, plain⟩⟩

/-- Whatever is decoded fits, if the size it is said to have is its own. -/
theorem Tmsg.decode_fits {t : Tmsg} {fid k : Nat} (word : Word 32 fid) (value : Tmsg.decode f fid k = some (some ((t.packedsize : Int), t.req))) :
    t.req.Fits Scalars := by
  obtain ⟨tag, req⟩ := t
  generalize size : (Tmsg.mk tag req).packedsize = ds at value
  dsimp only at value ⊢
  unfold Tmsg.decode at value
  split at value
  · simp only [Option.bind_eq_bind, Option.bind_eq_some_iff, Prod.exists] at value
    obtain ⟨ver, o, text, value⟩ := value
    split at value
    · nomatch value
    obtain ⟨-, rfl⟩ := Prod.mk.inj (Option.some.inj (Option.some.inj value))
    exact ⟨word, gstring_scalars text⟩
  · simp only [Option.bind_eq_bind, Option.bind_eq_some_iff, Prod.exists] at value
    obtain ⟨uname, o₁, first, aname, o₂, second, value⟩ := value
    split at value
    · nomatch value
    obtain ⟨-, rfl⟩ := Prod.mk.inj (Option.some.inj (Option.some.inj value))
    exact ⟨word, gstring_scalars first, gstring_scalars second⟩
  · simp only [Option.bind_eq_bind, Option.bind_eq_some_iff] at value
    obtain ⟨oldtag, first, value⟩ := value
    obtain ⟨-, rfl⟩ := Prod.mk.inj (Option.some.inj (Option.some.inj value))
    exact g16_word_of first
  · simp only [Option.bind_eq_bind, Option.bind_eq_some_iff, Prod.exists] at value
    obtain ⟨afid, number, uname, o₁, first, aname, o₂, second, value⟩ := value
    split at value
    · nomatch value
    obtain ⟨-, rfl⟩ := Prod.mk.inj (Option.some.inj (Option.some.inj value))
    exact ⟨word, g32_word_of number, gstring_scalars first, gstring_scalars second⟩
  · simp only [Option.bind_eq_bind, Option.bind_eq_some_iff] at value
    obtain ⟨newfid, number, count, -, value⟩ := value
    split at value
    · nomatch value
    simp only [Option.bind_eq_some_iff] at value
    obtain ⟨names, texts, value⟩ := value
    split at value
    · nomatch value
    obtain ⟨-, rfl⟩ := Prod.mk.inj (Option.some.inj (Option.some.inj value))
    exact ⟨word, g32_word_of number, gnames_scalars texts⟩
  · simp only [Option.bind_eq_bind, Option.bind_eq_some_iff] at value
    obtain ⟨mode, first, value⟩ := value
    obtain ⟨-, rfl⟩ := Prod.mk.inj (Option.some.inj (Option.some.inj value))
    exact ⟨word, get_word_of first⟩
  · simp only [Option.bind_eq_bind, Option.bind_eq_some_iff, Prod.exists] at value
    obtain ⟨name, o, text, value⟩ := value
    split at value
    · nomatch value
    simp only [Option.bind_eq_some_iff] at value
    obtain ⟨perm, number, mode, first, value⟩ := value
    obtain ⟨-, rfl⟩ := Prod.mk.inj (Option.some.inj (Option.some.inj value))
    exact ⟨word, gstring_scalars text, g32_word_of number, get_word_of first⟩
  · simp only [Option.bind_eq_bind, Option.bind_eq_some_iff] at value
    obtain ⟨offset, -, count, number, value⟩ := value
    obtain ⟨-, rfl⟩ := Prod.mk.inj (Option.some.inj (Option.some.inj value))
    exact ⟨word, g32_word_of number⟩
  · simp only [Option.bind_eq_bind, Option.bind_eq_some_iff] at value
    obtain ⟨offset, -, count, -, value⟩ := value
    split at value
    · nomatch value
    obtain ⟨-, rfl⟩ := Prod.mk.inj (Option.some.inj (Option.some.inj value))
    exact word
  · obtain ⟨-, rfl⟩ := Prod.mk.inj (Option.some.inj (Option.some.inj value))
    exact word
  · obtain ⟨-, rfl⟩ := Prod.mk.inj (Option.some.inj (Option.some.inj value))
    exact word
  · obtain ⟨-, rfl⟩ := Prod.mk.inj (Option.some.inj (Option.some.inj value))
    exact word
  · -- the count of an entry is a byte
    simp only [Option.bind_eq_bind, Option.bind_eq_some_iff] at value
    obtain ⟨high, first, low, second, value⟩ := value
    split at value
    · nomatch value
    simp only [Option.bind_eq_some_iff, Prod.exists] at value
    obtain ⟨sz, dir, entry, value⟩ := value
    split at value
    · nomatch value
    obtain ⟨same, rfl⟩ := Prod.mk.inj (Option.some.inj (Option.some.inj value))
    refine ⟨word, unpackdir_plain entry, ?_⟩
    have count : (high <<< 8) % 256 ||| low < 2 ^ 8 := Nat.or_lt_two_pow (Nat.mod_lt _ (by decide)) (get_lt second)
    have whole : ds = H + FID + LEN + packdirsize dir := size.symm
    rw [whole] at same
    omega
  · nomatch value

theorem Rmsg.decode_fits {rep : Rrep} {k : Nat} (value : Rmsg.decode f k = some (some (p, rep))) : rep.Fits Scalars := by
  unfold Rmsg.decode at value
  split at value
  · simp only [Option.bind_eq_bind, Option.bind_eq_some_iff, Prod.exists] at value
    obtain ⟨msize, number, ver, o, text, value⟩ := value
    split at value
    · nomatch value
    obtain ⟨-, rfl⟩ := Prod.mk.inj (Option.some.inj (Option.some.inj value))
    exact ⟨g32_word_of number, gstring_scalars text⟩
  · simp only [Option.bind_eq_bind, Option.bind_eq_some_iff] at value
    obtain ⟨qid, entry, value⟩ := value
    obtain ⟨-, rfl⟩ := Prod.mk.inj (Option.some.inj (Option.some.inj value))
    exact gqid_plain entry
  · obtain ⟨-, rfl⟩ := Prod.mk.inj (Option.some.inj (Option.some.inj value))
    trivial
  · simp only [Option.bind_eq_bind, Option.bind_eq_some_iff, Prod.exists] at value
    obtain ⟨ename, o, text, value⟩ := value
    split at value
    · nomatch value
    obtain ⟨-, rfl⟩ := Prod.mk.inj (Option.some.inj (Option.some.inj value))
    exact gstring_scalars text
  · obtain ⟨-, rfl⟩ := Prod.mk.inj (Option.some.inj (Option.some.inj value))
    trivial
  · obtain ⟨-, rfl⟩ := Prod.mk.inj (Option.some.inj (Option.some.inj value))
    trivial
  · obtain ⟨-, rfl⟩ := Prod.mk.inj (Option.some.inj (Option.some.inj value))
    trivial
  · simp only [Option.bind_eq_bind, Option.bind_eq_some_iff] at value
    obtain ⟨qid, entry, value⟩ := value
    obtain ⟨-, rfl⟩ := Prod.mk.inj (Option.some.inj (Option.some.inj value))
    exact gqid_plain entry
  · simp only [Option.bind_eq_bind, Option.bind_eq_some_iff] at value
    obtain ⟨nqid, count, value⟩ := value
    split at value
    · nomatch value
    simp only [Option.bind_eq_some_iff, Prod.exists] at value
    obtain ⟨qids, o, entries, value⟩ := value
    obtain ⟨-, rfl⟩ := Prod.mk.inj (Option.some.inj (Option.some.inj value))
    obtain ⟨length, plain⟩ := gqids_plain entries
    obtain ⟨-, small⟩ := g16_word_of count
    exact ⟨by omega, plain⟩
  · simp only [Option.bind_eq_bind, Option.bind_eq_some_iff] at value
    obtain ⟨qid, entry, iounit, number, value⟩ := value
    obtain ⟨-, rfl⟩ := Prod.mk.inj (Option.some.inj (Option.some.inj value))
    exact ⟨gqid_plain entry, g32_word_of number⟩
  · simp only [Option.bind_eq_bind, Option.bind_eq_some_iff] at value
    obtain ⟨qid, entry, iounit, number, value⟩ := value
    obtain ⟨-, rfl⟩ := Prod.mk.inj (Option.some.inj (Option.some.inj value))
    exact ⟨gqid_plain entry, g32_word_of number⟩
  · simp only [Option.bind_eq_bind, Option.bind_eq_some_iff] at value
    obtain ⟨count, -, value⟩ := value
    split at value
    · nomatch value
    obtain ⟨-, rfl⟩ := Prod.mk.inj (Option.some.inj (Option.some.inj value))
    trivial
  · simp only [Option.bind_eq_bind, Option.bind_eq_some_iff] at value
    obtain ⟨count, number, value⟩ := value
    obtain ⟨-, rfl⟩ := Prod.mk.inj (Option.some.inj (Option.some.inj value))
    exact g32_word_of number
  · simp only [Option.bind_eq_bind, Option.bind_eq_some_iff] at value
    obtain ⟨n, -, value⟩ := value
    split at value
    · nomatch value
    simp only [Option.bind_eq_some_iff, Prod.exists] at value
    obtain ⟨sz, dir, entry, value⟩ := value
    split at value
    · nomatch value
    split at value
    · nomatch value
    obtain ⟨-, rfl⟩ := Prod.mk.inj (Option.some.inj (Option.some.inj value))
    exact unpackdir_plain entry
  · nomatch value

theorem Tmsg.unpack_fits {t : Tmsg} (value : Tmsg.unpack f = some ((t.packedsize : Int), some t)) : t.req.Fits Scalars := by
  have last : ∀ {g : List UInt8} {k tag : Nat} {r : Int × Treq} (fid : Nat), Word 32 fid →
      Tmsg.decode g fid k = some (some r) →
      some (r.1, some (Tmsg.mk tag r.2)) = some ((t.packedsize : Int), some t) → t.req.Fits Scalars := by
    rintro g k tag ⟨n, req⟩ fid word inner rest
    dsimp only at rest
    obtain ⟨same, eq⟩ := Prod.mk.inj (Option.some.inj rest)
    rw [← Option.some.inj eq] at same ⊢
    exact decode_fits (t := ⟨tag, _⟩) word (same ▸ inner)
  unfold Tmsg.unpack at value
  simp only [Option.bind_eq_bind, Option.bind_eq_some_iff] at value
  obtain ⟨head, -, value⟩ := value
  split at value
  · cases value
  split at value
  · simp only [Option.bind_eq_some_iff] at value
    obtain ⟨fid, first, decoded, inner, value⟩ := value
    cases decoded with
    | none => cases value
    | some r => exact last fid (g32_word_of first) inner value
  · obtain ⟨decoded, inner, value⟩ := Option.bind_eq_some_iff.mp (some_then.symm.trans value)
    cases decoded with
    | none => cases value
    | some r => exact last 0 (by decide) inner value

theorem Rmsg.unpack_fits {r : Rmsg} (value : Rmsg.unpack f = some (p, some r)) : r.rep.Fits Scalars := by
  unfold Rmsg.unpack at value
  simp only [Option.bind_eq_bind, Option.bind_eq_some_iff] at value
  obtain ⟨head, -, value⟩ := value
  split at value
  · nomatch value
  simp only [Option.bind_eq_some_iff] at value
  obtain ⟨decoded, inner, value⟩ := value
  split at value
  · nomatch value
  obtain ⟨-, eq⟩ := Prod.mk.inj (Option.some.inj value)
  rw [← Option.some.inj eq]
  exact decode_fits inner

/-- What C sees of a string is no longer than it, and as long only without a NUL. -/
theorem length_pstring (scalars : Scalars s) :
    (Styx.pstring (string2c s)).length ≤ STR + utflen s ∧ (STR + utflen s ≤ (Styx.pstring (string2c s)).length → Text s) := by
  have whole : utflen s = (s.flatMap runetochar).length := (utflen_eq s).trans (length_encoded scalars).symm
  have first : (s.flatMap runetochar).takeWhile (· ≠ 0) <+: s.flatMap runetochar := List.takeWhile_prefix _
  have length : (Styx.pstring (string2c s)).length = STR + ((s.flatMap runetochar).takeWhile (· ≠ 0)).length := by
    rw [string2c, Styx.pstring, List.length_append, Styx.pbit16, length_leBytes]
    rfl
  rw [length, whole]
  refine ⟨Nat.add_le_add_left first.length_le _, fun long => ⟨scalars, fun zero => ?_⟩⟩
  have all := List.takeWhile_eq_self_iff.mp (first.eq_of_length (Nat.le_antisymm first.length_le (by omega)))
  exact of_decide_eq_true (all 0 (List.mem_flatMap.mpr ⟨0, zero, by decide⟩)) rfl

theorem length_pstrings {names : List Str} (scalars : ∀ name ∈ names, Scalars name) :
    (((names.map string2c).map Styx.pstring).flatten).length ≤ (names.flatMap (strBytes junk)).length ∧
      ((names.flatMap (strBytes junk)).length ≤ (((names.map string2c).map Styx.pstring).flatten).length → ∀ name ∈ names, Text name) := by
  induction names with
  | nil => exact ⟨Nat.le_refl _, fun _ name member => nomatch member⟩
  | cons name names ih =>
    obtain ⟨here, later⟩ := List.forall_mem_cons.mp scalars
    obtain ⟨le, only⟩ := ih later
    obtain ⟨first, text⟩ := length_pstring here
    simp only [List.map_cons, List.flatten_cons, List.flatMap_cons, List.length_append, length_strBytes]
    exact ⟨by omega, fun long => List.forall_mem_cons.mpr ⟨text (by omega), only (by omega)⟩⟩

theorem convS2M_length {c : Styx.Sent} {nap : Nat} {bytes : List UInt8} (value : Styx.convS2M c nap = some bytes) :
    ∃ pieces, c.msg.pieces = some pieces ∧ bytes.length = H + pieces.flatten.length := by
  unfold Styx.convS2M at value
  simp only [Option.bind_eq_bind] at value
  split at value
  · nomatch value
  split at value
  · nomatch value
  simp only [Option.bind_eq_some_iff] at value
  obtain ⟨pieces, stored, value⟩ := value
  split at value
  · nomatch value
  obtain rfl := Option.some.inj value
  refine ⟨pieces, stored, ?_⟩
  simp only [List.flatten_cons, List.length_append, Styx.pbit8, Styx.pbit16, Styx.pbit32, length_leBytes, H]
  omega

theorem Treq.text_of {req : Treq} {m : Styx.Msg (Option (List UInt8)) (List UInt8)} {pieces : List (List UInt8)}
    (plain : req.Fits Scalars) (same : req.fcall junk = some m) (stored : m.pieces = some pieces)
    (length : (req.body junk).length = pieces.flatten.length) : req.Fits Text := by
  cases req with
  | version msize ver =>
    obtain ⟨word, scalars⟩ := plain
    obtain rfl := Option.some.inj same
    obtain rfl := Option.some.inj stored
    refine ⟨word, (length_pstring scalars).2 ?_⟩
    simp only [body, List.flatten_cons, List.flatten_nil, List.append_nil, List.length_append, length_le32, length_strBytes,
      pbit32_ulong] at length
    omega
  | auth afid uname aname =>
    obtain ⟨word, first, second⟩ := plain
    obtain rfl := Option.some.inj same
    obtain rfl := Option.some.inj stored
    obtain ⟨le₁, text₁⟩ := length_pstring first
    obtain ⟨le₂, text₂⟩ := length_pstring second
    simp only [body, List.flatten_cons, List.flatten_nil, List.append_nil, List.length_append, length_le32, length_strBytes,
      pbit32_ulong] at length
    exact ⟨word, text₁ (by omega), text₂ (by omega)⟩
  | attach fid afid uname aname =>
    obtain ⟨word, word', first, second⟩ := plain
    obtain rfl := Option.some.inj same
    obtain rfl := Option.some.inj stored
    obtain ⟨le₁, text₁⟩ := length_pstring first
    obtain ⟨le₂, text₂⟩ := length_pstring second
    simp only [body, List.flatten_cons, List.flatten_nil, List.append_nil, List.length_append, length_le32, length_strBytes,
      pbit32_ulong] at length
    exact ⟨word, word', text₁ (by omega), text₂ (by omega)⟩
  | walk fid newfid names =>
    obtain ⟨word, word', scalars⟩ := plain
    obtain rfl := Option.some.inj same
    simp only [Styx.Msg.pieces] at stored
    split at stored
    · cases stored
    obtain rfl := Option.some.inj stored
    refine ⟨word, word', (@length_pstrings junk _ scalars).2 ?_⟩
    simp only [body, List.flatten_cons, List.length_append, length_le32, length_le16, pbit32_ulong, Styx.pbit16, length_leBytes]
      at length
    omega
  | create fid name perm mode =>
    obtain ⟨word, scalars, word', byte'⟩ := plain
    obtain rfl := Option.some.inj same
    obtain rfl := Option.some.inj stored
    refine ⟨word, (length_pstring scalars).2 ?_, word', byte'⟩
    simp only [body, List.flatten_cons, List.flatten_nil, List.append_nil, List.length_append, length_le32, length_strBytes,
      pbit32_ulong, pbit8_uchar] at length
    omega
  | _ => exact plain

theorem Rrep.text_of {rep : Rrep} {m : Styx.Msg (Option (List UInt8)) (List UInt8)} {pieces : List (List UInt8)}
    (plain : rep.Fits Scalars) (same : rep.fcall junk = some m) (stored : m.pieces = some pieces)
    (length : (rep.body junk).length = pieces.flatten.length) : rep.Fits Text := by
  cases rep with
  | version msize ver =>
    obtain ⟨word, scalars⟩ := plain
    obtain rfl := Option.some.inj same
    obtain rfl := Option.some.inj stored
    refine ⟨word, (length_pstring scalars).2 ?_⟩
    simp only [body, List.flatten_cons, List.flatten_nil, List.append_nil, List.length_append, length_le32, length_strBytes,
      pbit32_ulong] at length
    omega
  | error ename =>
    obtain rfl := Option.some.inj same
    obtain rfl := Option.some.inj stored
    refine (length_pstring plain).2 ?_
    simp only [body, List.flatten_cons, List.flatten_nil, List.append_nil, length_strBytes] at length
    omega
  | _ => exact plain

/-- The data is not too long for an array that holds it. -/
def Treq.Room : Treq → Prop
  | write _ _ data => data.length + 23 + 64 < 2 ^ 31
  | _ => True

/-- And C has room for the qids. -/
def Rrep.Room : Rrep → Prop
  | read data => data.length + 11 + 64 < 2 ^ 31
  | walk qids => qids.length ≤ MAXWELEM
  | _ => True

theorem newarray_small {ds : Nat} {d : List UInt8} (value : newarray junk ds = some d) : ds + 64 < 2 ^ 31 := by
  unfold newarray at value
  split at value
  · assumption
  · nomatch value

theorem packhdr_small {ds mtype : Nat} {tag : Int} {d : List UInt8} (value : packhdr junk ds mtype tag = some d) : ds + 64 < 2 ^ 31 := by
  unfold packhdr at value
  obtain ⟨a, first, -⟩ := Option.bind_eq_some_iff.mp value
  exact newarray_small first

theorem Tmsg.pack_small {t : Tmsg} {bytes : List UInt8} (real : t.req.Real) (value : t.pack junk = some bytes) :
    t.packedsize + 64 < 2 ^ 31 := by
  have size := @Tmsg.packedsize_eq junk t real
  unfold Tmsg.pack at value
  dsimp only at value
  rw [if_neg (by rw [size, H]; omega)] at value
  obtain ⟨d, first, -⟩ := Option.bind_eq_some_iff.mp value
  exact packhdr_small first

theorem Rmsg.pack_small {r : Rmsg} {bytes : List UInt8} (real : r.rep.Real) (value : r.pack junk = some bytes) :
    r.packedsize + 64 < 2 ^ 31 := by
  have size := @Rmsg.packedsize_eq junk r real
  unfold Rmsg.pack at value
  dsimp only at value
  rw [if_neg (by rw [size, H]; omega)] at value
  obtain ⟨d, first, -⟩ := Option.bind_eq_some_iff.mp value
  exact packhdr_small first

theorem sum_short {names : List Str} (short : ∀ name ∈ names, Short name) : (names.flatMap (strBytes junk)).length ≤ 65537 * names.length := by
  induction names with
  | nil => exact Nat.le_refl _
  | cons name names ih =>
    obtain ⟨here, later⟩ := List.forall_mem_cons.mp short
    have rest := ih later
    have first : STR + utflen name ≤ 65537 := Nat.add_le_add_left here 2
    rw [List.flatMap_cons, List.length_append, length_strBytes, List.length_cons]
    omega

theorem Treq.small_iff {req : Treq} (domain : req.Domain) : (req.body junk).length + H + 64 < 2 ^ 31 ↔ req.Room := by
  cases req with
  | write fid offset data =>
    simp only [body, Room, List.length_append, length_le32, length_le64, H]
    omega
  | walk fid newfid names =>
    obtain ⟨-, -, few, short⟩ := domain
    have sum := @sum_short junk _ short
    unfold MAXWELEM at few
    simp only [body, Room, List.length_append, length_le32, length_le16, H, iff_true]
    omega
  | wstat fid dir =>
    have size := domain.2.size
    simp only [body, Room, List.length_append, length_le32, length_le16, length_dirBytes, H, iff_true]
    omega
  | _ =>
    simp only [Domain, Short] at domain
    simp only [body, Room, List.length_append, List.length_nil, List.length_singleton, length_le32, length_le16, length_le64,
      length_strBytes, STR, H, iff_true]
    omega

theorem Rrep.small_iff {rep : Rrep} (domain : rep.Domain) (few : ∀ qids, rep = .walk qids → qids.length ≤ MAXWELEM) :
    (rep.body junk).length + H + 64 < 2 ^ 31 ↔ rep.Room := by
  cases rep with
  | read data =>
    simp only [body, Room, List.length_append, length_le32, H]
    omega
  | walk qids =>
    have few := few qids rfl
    simp only [body, Room, List.length_append, length_le16, length_qids, QID, H, few, iff_true]
    unfold MAXWELEM at few
    omega
  | stat dir =>
    have size := domain.size
    simp only [body, Room, List.length_append, length_le16, length_dirBytes, H, iff_true]
    omega
  | _ =>
    simp only [Domain, Short] at domain
    simp only [body, Room, List.length_append, List.length_nil, length_le32, length_qidBytes, length_strBytes, STR, QID, H, iff_true]
    omega

theorem Tmsg.agrees_iff {t : Tmsg} (word : Word 16 t.tag) (domain : t.req.Domain) :
    t.Agrees junk ↔ t.req.Fits Text ∧ t.req.Room := by
  constructor
  · rintro ⟨bytes, packed, length, whole, c, same, stored⟩
    have plain := unpack_fits whole
    have size := @Tmsg.packedsize_eq junk t plain.real
    have small := t.pack_small plain.real packed
    obtain ⟨pieces, made, sum⟩ := convS2M_length stored
    obtain ⟨m, told, rfl⟩ := Option.map_eq_some_iff.mp same
    exact ⟨Treq.text_of plain told made (by omega), (@Treq.small_iff junk _ domain).mp (by omega)⟩
  · rintro ⟨plain, room⟩
    have size := @Tmsg.packedsize_eq junk t plain.real
    have small := (@Treq.small_iff junk _ domain).mpr room
    exact agrees word domain plain (by omega)

theorem Rmsg.agrees_iff {r : Rmsg} (word : Word 16 r.tag) (domain : r.rep.Domain) :
    r.Agrees junk ↔ r.rep.Fits Text ∧ r.rep.Room := by
  constructor
  · rintro ⟨bytes, packed, length, whole, c, same, stored⟩
    have plain := unpack_fits whole
    have size := @Rmsg.packedsize_eq junk r plain.real
    have small := r.pack_small plain.real packed
    obtain ⟨pieces, made, sum⟩ := convS2M_length stored
    obtain ⟨m, told, rfl⟩ := Option.map_eq_some_iff.mp same
    have few : ∀ qids, r.rep = .walk qids → qids.length ≤ MAXWELEM := by
      intro qids eq
      rw [eq] at told
      obtain rfl := Option.some.inj told
      simp only [Styx.Msg.pieces, List.length_map] at made
      split at made
      · nomatch made
      · exact Nat.not_lt.mp ‹_›
    exact ⟨Rrep.text_of plain told made (by omega), (@Rrep.small_iff junk _ domain few).mp (by omega)⟩
  · rintro ⟨plain, room⟩
    have few : ∀ qids, r.rep = .walk qids → qids.length ≤ MAXWELEM := by
      intro qids eq
      rw [eq] at room
      exact room
    have size := @Rmsg.packedsize_eq junk r plain.real
    have small := (@Rrep.small_iff junk _ domain few).mpr room
    exact agrees word domain plain few (by omega)

/-- The two codecs agree on exactly the messages that 32 bits, UTF-8 without NULs, a byte for the size of a `Twstat`'s entry and
the arrays have room for. -/
theorem codecs_agree (junk : UInt8) :
    (∀ t : Tmsg, Word 16 t.tag → t.req.Domain → (t.Agrees junk ↔ t.req.Fits Text ∧ t.req.Room)) ∧
      ∀ r : Rmsg, Word 16 r.tag → r.rep.Domain → (r.Agrees junk ↔ r.rep.Fits Text ∧ r.rep.Room) :=
  ⟨fun _ word domain => Tmsg.agrees_iff word domain, fun _ word domain => Rmsg.agrees_iff word domain⟩

theorem codecs_agree_sent : (Tmsg.mk 7 (.attach 1 2 [0x69, 0x20AC] [])).Agrees 0 ∧ (Rmsg.mk 7 (.walk [⟨-3, 1, 128⟩])).Agrees 0 := by
  have text : Text [0x69, 0x20AC] := ⟨by unfold Scalars; decide, by decide⟩
  have empty : Text [] := ⟨by unfold Scalars; decide, by decide⟩
  constructor
  · exact ((codecs_agree 0).1 ⟨7, .attach 1 2 [0x69, 0x20AC] []⟩ (by decide) ⟨by decide, by decide, by decide, by decide⟩).mpr
      ⟨⟨by decide, by decide, text, empty⟩, trivial⟩
  · refine ((codecs_agree 0).2 ⟨7, .walk [⟨-3, 1, 128⟩]⟩ (by decide) ?_).mpr ⟨⟨by decide, ?_⟩, by unfold Rrep.Room; decide⟩
    · intro qid member
      obtain rfl := List.mem_singleton.mp member
      decide
    · intro qid member
      obtain rfl := List.mem_singleton.mp member
      exact ⟨by decide, by decide⟩

def longdir : Dir := { (default : Dir) with name := List.replicate 207 0x61 }

/-- The fid that stands for none comes back as another number, and an entry of 256 bytes not at all. -/
theorem attach_nofid : let t := Tmsg.mk 7 (.attach 1 NOFID [] [])
    Word 16 t.tag ∧ t.req.Domain ∧ (t.pack 0 >>= Tmsg.unpack) = some (19, some ⟨7, .attach 1 4294967295 [] []⟩) ∧ ¬t.Agrees 0 ∧
      let t := Tmsg.mk 7 (.wstat 1 longdir)
      Word 16 t.tag ∧ t.req.Domain ∧ (t.pack 0 >>= Tmsg.unpack) = some (-1, none) ∧ ¬t.Agrees 0 := by
  have first : Treq.Domain (.attach 1 NOFID [] []) := ⟨by decide, by decide, by decide, by decide⟩
  have second : Treq.Domain (.wstat 1 longdir) :=
    ⟨by decide, by decide, by decide, by decide, by decide, by decide, by decide +kernel⟩
  refine ⟨by decide, first, by decide +kernel, fun agrees => ?_, by decide, second, by decide +kernel, fun agrees => ?_⟩
  · exact absurd ((Tmsg.agrees_iff (by decide) first).mp agrees).1.2.1 (by decide)
  · exact absurd ((Tmsg.agrees_iff (by decide) second).mp agrees).1.2.2 (by decide +kernel)

end Inferno.Styxlib
