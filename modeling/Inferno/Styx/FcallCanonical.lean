import Inferno.Lib.CursorBack
import Inferno.Styx.FcallRoundTrip

namespace Inferno.Styx

open Inferno.Lib

/-- The string decoded at `p` has no NUL, by the count and the bytes that were
there before it was moved down. -/
def NulFree (mem : ByteMem) (p : Nat) : Prop :=
  ∀ b ∈ readBytes mem (p + 1) (leNat (readBytes mem (p - 1) 2)), b ≠ 0

section Primitives

variable {ep : Nat}

theorem consumes_gbit (n : Nat) : Consumes (gbit n) fun v _ _ bytes => leBytes n v = bytes ∧ v < 256 ^ n := by
  refine (Consumes.next n).bind fun a => Consumes.pure ?_
  rintro _ _ xs ⟨rfl, length⟩
  rw [List.append_nil, ← length]
  exact ⟨leBytes_leNat a, leNat_lt a⟩

theorem consumes_gbit8 : Consumes gbit8 fun v _ _ bytes => pbit8 v.toNat = bytes := by
  refine (consumes_gbit 1).bind fun a => Consumes.pure ?_
  rintro _ _ xs ⟨rfl, fits⟩
  rw [List.append_nil, UInt8.toNat_ofNat', Nat.mod_eq_of_lt (show a < 2 ^ 8 from fits), pbit8]

theorem consumes_gbit16 : Consumes gbit16 fun v _ _ bytes => pbit16 v.toNat = bytes := by
  refine (consumes_gbit 2).bind fun a => Consumes.pure ?_
  rintro _ _ xs ⟨rfl, fits⟩
  rw [List.append_nil, UInt16.toNat_ofNat', Nat.mod_eq_of_lt (show a < 2 ^ 16 from fits), pbit16]

theorem consumes_gbit32 : Consumes gbit32 fun v _ _ bytes => pbit32 v.toNat = bytes ∧ v.toNat < 2 ^ 32 := by
  refine (consumes_gbit 4).bind fun a => Consumes.pure ?_
  rintro _ _ xs ⟨rfl, fits⟩
  have same : (UInt64.ofNat a).toNat = a := by
    rw [UInt64.toNat_ofNat']
    exact Nat.mod_eq_of_lt (fits.trans (by decide))
  rw [List.append_nil, same]
  exact ⟨rfl, fits⟩

theorem consumes_gbit64 : Consumes gbit64 fun v _ _ bytes => pbit64 v.toNat = bytes := by
  refine (consumes_gbit 8).bind fun a => Consumes.pure ?_
  rintro _ _ xs ⟨rfl, fits⟩
  rw [List.append_nil, UInt64.toNat_ofNat', Nat.mod_eq_of_lt (show a < 2 ^ 64 from fits), pbit64]

theorem consumes_gqid : Consumes (gqid ep) fun q _ _ bytes => pqid q = bytes := by
  refine Consumes.need (consumes_gbit8.bind fun type => (consumes_gbit 4).bind fun vers =>
    consumes_gbit64.bind fun path => Consumes.pure ?_)
  rintro _ _ path rfl vers ⟨rfl, fits⟩ type rfl
  rw [pqid, List.append_nil, UInt32.toNat_ofNat', Nat.mod_eq_of_lt (show vers < 2 ^ 32 from fits),
    List.append_assoc]
  rfl

theorem consumes_gdata (n : Nat) : Consumes (gdata ep n) fun p _ later bytes => readBytes later p n = bytes := by
  refine Consumes.need fun c a c' ran => ?_
  cases ran
  refine ⟨n, rfl, fun _ _ => rfl, fun before later one two => ?_⟩
  rw [readBytes_congr one, readBytes_congr two]

theorem holds_count (mem : ByteMem) (p : Nat) : Holds mem p (pbit16 (leNat (readBytes mem p 2))) := by
  have back := leBytes_leNat (readBytes mem p 2)
  rw [length_readBytes] at back
  rw [pbit16, back]
  exact holds_readBytes mem p 2

theorem count_lt (mem : ByteMem) (p : Nat) : leNat (readBytes mem p 2) < 65536 := by
  have small := leNat_lt (readBytes mem p 2)
  rwa [length_readBytes] at small

/-- The three ways through `gstring`: no room for the count, none for the string, or a string. -/
theorem gstring_eq (ep : Nat) (c : Cursor) :
    (ep < c.p + 2 ∧ gstring ep c = (none, c)) ∨
    (c.p + 2 ≤ ep ∧ ep < c.p + 2 + leNat (readBytes c.mem c.p 2) ∧ gstring ep c = (none, ⟨c.mem, c.p + 2⟩)) ∨
    (c.p + 2 + leNat (readBytes c.mem c.p 2) ≤ ep ∧ gstring ep c =
      (some (c.p + 1), ⟨moveDown c.mem (c.p + 1) (leNat (readBytes c.mem c.p 2)),
        c.p + 2 + leNat (readBytes c.mem c.p 2)⟩)) := by
  by_cases short : c.p + 2 > ep
  · refine Or.inl ⟨short, ?_⟩
    rw [gstring, Dec.bind_none (show need ep 2 c = (none, c) from if_pos short)]
  · by_cases beyond : c.p + 2 + leNat (readBytes c.mem c.p 2) > ep
    · have counted : gbit 2 c = (some (leNat (readBytes c.mem c.p 2)), ⟨c.mem, c.p + 2⟩) := rfl
      have cut : need ep (leNat (readBytes c.mem c.p 2)) ⟨c.mem, c.p + 2⟩ = (none, ⟨c.mem, c.p + 2⟩) := if_pos beyond
      refine Or.inr (Or.inl ⟨Nat.not_lt.mp short, beyond, ?_⟩)
      rw [gstring, Dec.bind_some (show need ep 2 c = (some (), c) from if_neg short), Dec.bind_some counted]
      exact Dec.bind_none cut
    · refine Or.inr (Or.inr ⟨Nat.not_lt.mp beyond, ?_⟩)
      exact gstring_run (holds_count c.mem c.p) (count_lt c.mem c.p) (Nat.not_lt.mp beyond)

theorem consumes_gstring :
    Consumes (gstring ep) fun p before later bytes => NulFree before p → pstring (some (cstring later ep p)) = bytes := by
  intro c p c' ran
  rcases gstring_eq ep c with ⟨_, none⟩ | ⟨_, _, none⟩ | ⟨room, done⟩
  · cases none.symm.trans ran
  · cases none.symm.trans ran
  cases done.symm.trans ran
  refine ⟨2 + leNat (readBytes c.mem c.p 2), by dsimp only; omega, fun q outside => ?_, fun before later one two clean => ?_⟩
  · dsimp only
    rw [moveDown, if_neg (by omega), if_neg (by omega)]
  · have count : readBytes before c.p 2 = readBytes c.mem c.p 2 := readBytes_congr fun q lower upper => one q lower (by omega)
    rw [NulFree, Nat.add_sub_cancel, count] at clean
    have text : readBytes before (c.p + 1 + 1) (leNat (readBytes c.mem c.p 2)) =
        readBytes c.mem (c.p + 1 + 1) (leNat (readBytes c.mem c.p 2)) :=
      readBytes_congr fun q lower upper => one q (by omega) (by omega)
    rw [text] at clean
    have moved := holds_moveDown (holds_readBytes c.mem (c.p + 1 + 1) (leNat (readBytes c.mem c.p 2)))
    rw [length_readBytes] at moved
    have string : cstring later ep (c.p + 1) = readBytes c.mem (c.p + 1 + 1) (leNat (readBytes c.mem c.p 2)) := by
      refine cstring_of_holds clean (by rw [length_readBytes]; omega) (moved.congr fun q lower upper => ?_)
      rw [List.length_append, length_readBytes, List.length_singleton] at upper
      exact two q (by omega) (by omega)
    have front := leBytes_leNat (readBytes c.mem c.p 2)
    rw [length_readBytes] at front
    rw [string, pstring, length_readBytes, readBytes_add, count, pbit16, front, ← text]

theorem consumes_gmany {α : Type} {get : Dec α} {clean : ByteMem → α → Prop} {put : ByteMem → α → List UInt8}
    (each : Consumes get fun a before later bytes => clean before a → put later a = bytes) (n : Nat) :
    Consumes (gmany get n) fun as before later bytes =>
      as.length = n ∧ ((∀ a ∈ as, clean before a) → (as.map (put later)).flatten = bytes) := by
  induction n with
  | zero => exact Consumes.pure fun _ _ => ⟨rfl, fun _ => rfl⟩
  | succ n ih =>
    refine each.bind fun a => ih.bind fun as => Consumes.pure ?_
    rintro before later tail ⟨length, rest⟩ head first
    refine ⟨congrArg (· + 1) length, fun all => ?_⟩
    rw [List.map_cons, List.flatten_cons, first (all a List.mem_cons_self),
      rest fun a' member => all a' (List.mem_cons_of_mem a member), List.append_nil]

end Primitives

/-- What was decoded is what `convS2M` stores, if its strings are whole. -/
def Msg.Stored (ep type : Nat) (m : Msg Nat Nat) (before later : ByteMem) (bytes : List UInt8) : Prop :=
  (∀ p ∈ m.strings, NulFree before p) → m.type = type ∧ (m.at later ep).nelem ≤ maxwelem ∧ (m.at later ep).Counted ∧
    ∃ pieces, (m.at later ep).pieces = some pieces ∧ pieces.flatten = bytes

section Stored

variable {ep : Nat}

theorem stored_versions : Consumes (gmsg ep 100) (Msg.Stored ep 100) ∧ Consumes (gmsg ep 101) (Msg.Stored ep 101) := by
  constructor <;>
  · refine Consumes.need (consumes_gbit32.bind fun msize => consumes_gstring.bind fun version => Consumes.pure ?_)
    rintro before later ys text xs ⟨rfl, _⟩ clean
    refine ⟨rfl, Nat.zero_le _, trivial, _, rfl, ?_⟩
    simp [text (clean version List.mem_cons_self)]

theorem stored_tflush : Consumes (gmsg ep 108) (Msg.Stored ep 108) := by
  refine Consumes.need (consumes_gbit16.bind fun oldtag => Consumes.pure ?_)
  rintro before later xs rfl _
  exact ⟨rfl, Nat.zero_le _, trivial, _, rfl, by simp⟩

theorem stored_tauth : Consumes (gmsg ep 102) (Msg.Stored ep 102) := by
  refine Consumes.need (consumes_gbit32.bind fun afid => consumes_gstring.bind fun uname =>
    consumes_gstring.bind fun aname => Consumes.pure ?_)
  rintro before later zs tree ys user xs ⟨rfl, _⟩ clean
  refine ⟨rfl, Nat.zero_le _, trivial, _, rfl, ?_⟩
  simp [user (clean uname (by simp [Msg.strings])), tree (clean aname (by simp [Msg.strings]))]

theorem stored_tattach : Consumes (gmsg ep 104) (Msg.Stored ep 104) := by
  refine Consumes.need (consumes_gbit32.bind fun fid => Consumes.need (consumes_gbit32.bind fun afid =>
    consumes_gstring.bind fun uname => consumes_gstring.bind fun aname => Consumes.pure ?_))
  rintro before later zs tree ys user xs ⟨rfl, _⟩ ws ⟨rfl, _⟩ clean
  refine ⟨rfl, Nat.zero_le _, trivial, _, rfl, ?_⟩
  simp [user (clean uname (by simp [Msg.strings])), tree (clean aname (by simp [Msg.strings]))]

theorem stored_twalk : Consumes (gmsg ep 110) (Msg.Stored ep 110) := by
  refine Consumes.need (consumes_gbit32.bind fun fid => consumes_gbit32.bind fun newfid => (consumes_gbit 2).bind fun n => ?_)
  refine Consumes.ite (fun _ => Consumes.fail) fun few => ?_
  refine (consumes_gmany consumes_gstring n).bind fun names => Consumes.pure ?_
  rintro before later zs ⟨length, texts⟩ ys ⟨rfl, _⟩ xs ⟨rfl, _⟩ ws ⟨rfl, _⟩ clean
  have count : (names.map fun p => some (cstring later ep p)).length = n := by rw [List.length_map, length]
  have most : ¬ (names.map fun p => some (cstring later ep p)).length > maxwelem := by rwa [count]
  refine ⟨rfl, Nat.not_lt.mp most, trivial, _, if_neg most, ?_⟩
  have bytes := texts clean
  simp only [List.flatten_cons, List.map_map, count, pbit16, List.append_nil]
  rw [← bytes]
  rfl

theorem stored_rwalk : Consumes (gmsg ep 111) (Msg.Stored ep 111) := by
  refine Consumes.need ((consumes_gbit 2).bind fun n => Consumes.ite (fun _ => Consumes.fail) fun few => ?_)
  have each : Consumes (gqid ep) fun q _ _ bytes => True → pqid q = bytes := consumes_gqid.congr fun _ _ _ _ same _ => same
  refine (consumes_gmany each n).bind fun qids => Consumes.pure ?_
  rintro before later ys ⟨rfl, put⟩ xs ⟨rfl, _⟩ _
  refine ⟨rfl, Nat.not_lt.mp few, trivial, _, if_neg few, ?_⟩
  rw [List.flatten_cons, put fun _ _ => trivial, List.append_nil]
  rfl

theorem stored_topen : Consumes (gmsg ep 112) (Msg.Stored ep 112) := by
  refine Consumes.need (consumes_gbit32.bind fun fid => consumes_gbit8.bind fun mode => Consumes.pure ?_)
  rintro before later ys rfl xs ⟨rfl, _⟩ _
  exact ⟨rfl, Nat.zero_le _, trivial, _, rfl, by simp⟩

theorem stored_tcreate : Consumes (gmsg ep 114) (Msg.Stored ep 114) := by
  refine Consumes.need (consumes_gbit32.bind fun fid => consumes_gstring.bind fun name => Consumes.need
    (consumes_gbit32.bind fun perm => consumes_gbit8.bind fun mode => Consumes.pure ?_))
  rintro before later ws rfl zs ⟨rfl, _⟩ ys text xs ⟨rfl, _⟩ clean
  refine ⟨rfl, Nat.zero_le _, trivial, _, rfl, ?_⟩
  simp [text (clean name List.mem_cons_self)]

theorem stored_tread : Consumes (gmsg ep 116) (Msg.Stored ep 116) := by
  refine Consumes.need (consumes_gbit32.bind fun fid => consumes_gbit64.bind fun offset =>
    consumes_gbit32.bind fun count => Consumes.pure ?_)
  rintro before later zs ⟨rfl, fits⟩ ys rfl xs ⟨rfl, _⟩ _
  exact ⟨rfl, Nat.zero_le _, fits, _, rfl, by simp⟩

theorem stored_twrite : Consumes (gmsg ep 118) (Msg.Stored ep 118) := by
  refine Consumes.need (consumes_gbit32.bind fun fid => consumes_gbit64.bind fun offset =>
    consumes_gbit32.bind fun count => (consumes_gdata count.toNat).bind fun data => Consumes.pure ?_)
  rintro before later ws rfl zs ⟨rfl, fits⟩ ys rfl xs ⟨rfl, _⟩ _
  exact ⟨rfl, Nat.zero_le _, ⟨fits, length_readBytes _ _ _⟩, _, rfl, by simp [List.take_of_length_le]⟩

/-- The messages that carry a fid alone. -/
theorem stored_fid : Consumes (gmsg ep 120) (Msg.Stored ep 120) ∧ Consumes (gmsg ep 122) (Msg.Stored ep 122) ∧
    Consumes (gmsg ep 124) (Msg.Stored ep 124) := by
  refine ⟨?_, ?_, ?_⟩ <;>
  · refine Consumes.need (consumes_gbit32.bind fun fid => Consumes.pure ?_)
    rintro before later xs ⟨rfl, _⟩ _
    exact ⟨rfl, Nat.zero_le _, trivial, _, rfl, by simp⟩

theorem stored_twstat : Consumes (gmsg ep 126) (Msg.Stored ep 126) := by
  refine Consumes.need (consumes_gbit32.bind fun fid => consumes_gbit16.bind fun nstat =>
    (consumes_gdata nstat.toNat).bind fun stat => Consumes.pure ?_)
  rintro before later zs rfl ys rfl xs ⟨rfl, _⟩ _
  exact ⟨rfl, Nat.zero_le _, length_readBytes _ _ _, _, rfl, by simp [List.take_of_length_le]⟩

theorem stored_rerror : Consumes (gmsg ep 107) (Msg.Stored ep 107) := by
  refine consumes_gstring.bind fun ename => Consumes.pure ?_
  rintro before later xs text clean
  refine ⟨rfl, Nat.zero_le _, trivial, _, rfl, ?_⟩
  simp [text (clean ename List.mem_cons_self)]

/-- The replies that say no more than their type. -/
theorem stored_empty : Consumes (gmsg ep 109) (Msg.Stored ep 109) ∧ Consumes (gmsg ep 121) (Msg.Stored ep 121) ∧
    Consumes (gmsg ep 123) (Msg.Stored ep 123) ∧ Consumes (gmsg ep 127) (Msg.Stored ep 127) :=
  ⟨Consumes.pure fun _ _ _ => ⟨rfl, Nat.zero_le _, trivial, _, rfl, rfl⟩,
    Consumes.pure fun _ _ _ => ⟨rfl, Nat.zero_le _, trivial, _, rfl, rfl⟩,
    Consumes.pure fun _ _ _ => ⟨rfl, Nat.zero_le _, trivial, _, rfl, rfl⟩,
    Consumes.pure fun _ _ _ => ⟨rfl, Nat.zero_le _, trivial, _, rfl, rfl⟩⟩

theorem stored_qid : Consumes (gmsg ep 103) (Msg.Stored ep 103) ∧ Consumes (gmsg ep 105) (Msg.Stored ep 105) := by
  constructor <;>
  · refine consumes_gqid.bind fun qid => Consumes.pure ?_
    rintro before later xs rfl _
    exact ⟨rfl, Nat.zero_le _, trivial, _, rfl, by simp⟩

theorem stored_opened : Consumes (gmsg ep 113) (Msg.Stored ep 113) ∧ Consumes (gmsg ep 115) (Msg.Stored ep 115) := by
  constructor <;>
  · refine consumes_gqid.bind fun qid => Consumes.need (consumes_gbit32.bind fun iounit => Consumes.pure ?_)
    rintro before later ys ⟨rfl, _⟩ xs rfl _
    exact ⟨rfl, Nat.zero_le _, trivial, _, rfl, by simp⟩

theorem stored_rread : Consumes (gmsg ep 117) (Msg.Stored ep 117) := by
  refine Consumes.need (consumes_gbit32.bind fun count => (consumes_gdata count.toNat).bind fun data => Consumes.pure ?_)
  rintro before later ys rfl xs ⟨rfl, fits⟩ _
  exact ⟨rfl, Nat.zero_le _, ⟨fits, length_readBytes _ _ _⟩, _, rfl, by simp [List.take_of_length_le]⟩

theorem stored_rwrite : Consumes (gmsg ep 119) (Msg.Stored ep 119) := by
  refine Consumes.need (consumes_gbit32.bind fun count => Consumes.pure ?_)
  rintro before later xs ⟨rfl, fits⟩ _
  exact ⟨rfl, Nat.zero_le _, fits, _, rfl, by simp⟩

theorem stored_rstat : Consumes (gmsg ep 125) (Msg.Stored ep 125) := by
  refine Consumes.need (consumes_gbit16.bind fun nstat => (consumes_gdata nstat.toNat).bind fun stat => Consumes.pure ?_)
  rintro before later ys rfl xs rfl _
  exact ⟨rfl, Nat.zero_le _, length_readBytes _ _ _, _, rfl, by simp [List.take_of_length_le]⟩

theorem consumes_gmsg (type : Nat) : Consumes (gmsg ep type) (Msg.Stored ep type) := by
  unfold gmsg
  split
  · exact stored_versions.1
  · exact stored_tflush
  · exact stored_tauth
  · exact stored_tattach
  · exact stored_twalk
  · exact stored_topen
  · exact stored_tcreate
  · exact stored_tread
  · exact stored_twrite
  · exact stored_fid.1
  · exact stored_fid.2.1
  · exact stored_fid.2.2
  · exact stored_twstat
  · exact stored_versions.2
  · exact stored_rerror
  · exact stored_empty.1
  · exact stored_qid.1
  · exact stored_qid.2
  · exact stored_rwalk
  · exact stored_opened.1
  · exact stored_opened.2
  · exact stored_rread
  · exact stored_rwrite
  · exact stored_empty.2.1
  · exact stored_empty.2.2.1
  · exact stored_rstat
  · exact stored_empty.2.2.2
  · exact Consumes.fail

end Stored

section Bounds

variable {ep room : Nat}

theorem confined_gbit (n left : Nat) (enough : n + left ≤ room) : Confined ep room left (gbit n) :=
  (Confined.next enough).bind fun _ => Confined.pure le_rfl

theorem confined_gbit8 (left : Nat) (enough : 1 + left ≤ room) : Confined ep room left gbit8 :=
  (confined_gbit 1 left enough).bind fun _ => Confined.pure le_rfl

theorem confined_gbit16 (left : Nat) (enough : 2 + left ≤ room) : Confined ep room left gbit16 :=
  (confined_gbit 2 left enough).bind fun _ => Confined.pure le_rfl

theorem confined_gbit32 (left : Nat) (enough : 4 + left ≤ room) : Confined ep room left gbit32 :=
  (confined_gbit 4 left enough).bind fun _ => Confined.pure le_rfl

theorem confined_gbit64 (left : Nat) (enough : 8 + left ≤ room) : Confined ep room left gbit64 :=
  (confined_gbit 8 left enough).bind fun _ => Confined.pure le_rfl

theorem confined_gqid : Confined ep room 0 (gqid ep) :=
  (Confined.need qidsz).bind fun _ => (confined_gbit8 12 (by decide)).bind fun _ => (confined_gbit 4 8 (by decide)).bind
    fun _ => (confined_gbit64 0 (by decide)).bind fun _ => Confined.pure le_rfl

theorem confined_gdata (n : Nat) : Confined ep room 0 (gdata ep n) := by
  refine (Confined.need n).bind fun _ c c' start fits same => ?_
  exact ⟨congrArg some start, congrArg (· + n) start, same, fun _ _ => rfl, fun _ => fits⟩

/-- The move stays between the count and the end of the string. -/
theorem confined_gstring : Confined ep room 0 (gstring ep) := by
  intro c c' start _ same
  have count : c.p + 2 ≤ ep → leNat (readBytes c.mem c.p 2) = leNat (readBytes c'.mem c'.p 2) := by
    intro fits
    rw [← start]
    exact congrArg leNat (readBytes_congr fun q _ upper => same q (by omega))
  rcases gstring_eq ep c with ⟨short, ran⟩ | ⟨fits, beyond, ran⟩ | ⟨fits, ran⟩ <;>
    rcases gstring_eq ep c' with ⟨short', ran'⟩ | ⟨fits', beyond', ran'⟩ | ⟨fits', ran'⟩
  · rw [ran, ran']
    exact ⟨rfl, start, same, fun _ _ => rfl, fun done => nomatch done⟩
  · omega
  · omega
  · omega
  · rw [ran, ran']
    exact ⟨rfl, congrArg (· + 2) start, same, fun _ _ => rfl, fun done => nomatch done⟩
  · have equal := count fits
    omega
  · omega
  · have equal := count (by omega)
    omega
  · have equal := count (by omega)
    rw [ran, ran', ← equal, ← start]
    refine ⟨rfl, rfl, fun q below => ?_, fun q beyond => ?_, fun _ => fits⟩
    · dsimp only [moveDown]
      split
      · exact same (q + 1) (by omega)
      · split
        · rfl
        · exact same q below
    · dsimp only
      rw [moveDown, if_neg (by omega), if_neg (by omega)]

theorem confined_gmany {α : Type} {get : Dec α} (each : Confined ep 0 0 get) (n : Nat) : Confined ep 0 0 (gmany get n) := by
  induction n with
  | zero => exact Confined.pure le_rfl
  | succ n ih => exact each.bind fun _ => ih.bind fun _ => Confined.pure le_rfl

theorem confined_version (make : UInt64 → Nat → Msg Nat Nat) :
    Confined ep 0 0 (do need ep 4; let msize ← gbit32; let version ← gstring ep; return make msize version) :=
  (Confined.need 4).bind fun _ => (confined_gbit32 0 (by decide)).bind fun _ => confined_gstring.bind fun _ =>
    Confined.pure le_rfl

/-- The messages of one 32-bit field. -/
theorem confined_ulong (make : UInt64 → Msg Nat Nat) : Confined ep 0 0 (do need ep 4; let v ← gbit32; return make v) :=
  (Confined.need 4).bind fun _ => (confined_gbit32 0 (by decide)).bind fun _ => Confined.pure le_rfl

theorem confined_qid (make : Qid → Msg Nat Nat) : Confined ep 0 0 (do let qid ← gqid ep; return make qid) :=
  confined_gqid.bind fun _ => Confined.pure le_rfl

theorem confined_opened (make : Qid → UInt64 → Msg Nat Nat) :
    Confined ep 0 0 (do let qid ← gqid ep; need ep 4; let iounit ← gbit32; return make qid iounit) :=
  confined_gqid.bind fun _ => (Confined.need 4).bind fun _ => (confined_gbit32 0 (by decide)).bind fun _ =>
    Confined.pure le_rfl

theorem confined_gmsg (type : Nat) : Confined ep 0 0 (gmsg ep type) := by
  unfold gmsg
  split
  · exact confined_version _
  · exact (Confined.need 2).bind fun _ => (confined_gbit16 0 (by decide)).bind fun _ => Confined.pure le_rfl
  · exact (Confined.need 4).bind fun _ => (confined_gbit32 0 (by decide)).bind fun _ => confined_gstring.bind fun _ =>
      confined_gstring.bind fun _ => Confined.pure le_rfl
  · exact (Confined.need 4).bind fun _ => (confined_gbit32 0 (by decide)).bind fun _ => (Confined.need 4).bind fun _ =>
      (confined_gbit32 0 (by decide)).bind fun _ => confined_gstring.bind fun _ => confined_gstring.bind fun _ =>
        Confined.pure le_rfl
  · exact (Confined.need 10).bind fun _ => (confined_gbit32 6 (by decide)).bind fun _ => (confined_gbit32 2 (by decide)).bind
      fun _ => (confined_gbit 2 0 (by decide)).bind fun n => Confined.ite Confined.fail
        ((confined_gmany confined_gstring n).bind fun _ => Confined.pure le_rfl)
  · exact (Confined.need 5).bind fun _ => (confined_gbit32 1 (by decide)).bind fun _ => (confined_gbit8 0 (by decide)).bind
      fun _ => Confined.pure le_rfl
  · exact (Confined.need 4).bind fun _ => (confined_gbit32 0 (by decide)).bind fun _ => confined_gstring.bind fun _ =>
      (Confined.need 5).bind fun _ => (confined_gbit32 1 (by decide)).bind fun _ => (confined_gbit8 0 (by decide)).bind
        fun _ => Confined.pure le_rfl
  · exact (Confined.need 16).bind fun _ => (confined_gbit32 12 (by decide)).bind fun _ => (confined_gbit64 4 (by decide)).bind
      fun _ => (confined_gbit32 0 (by decide)).bind fun _ => Confined.pure le_rfl
  · exact (Confined.need 16).bind fun _ => (confined_gbit32 12 (by decide)).bind fun _ => (confined_gbit64 4 (by decide)).bind
      fun _ => (confined_gbit32 0 (by decide)).bind fun n => (confined_gdata n.toNat).bind fun _ => Confined.pure le_rfl
  · exact confined_ulong _
  · exact confined_ulong _
  · exact confined_ulong _
  · exact (Confined.need 6).bind fun _ => (confined_gbit32 2 (by decide)).bind fun _ => (confined_gbit16 0 (by decide)).bind
      fun n => (confined_gdata n.toNat).bind fun _ => Confined.pure le_rfl
  · exact confined_version _
  · exact confined_gstring.bind fun _ => Confined.pure le_rfl
  · exact Confined.pure le_rfl
  · exact confined_qid _
  · exact confined_qid _
  · exact (Confined.need 2).bind fun _ => (confined_gbit 2 0 (by decide)).bind fun n => Confined.ite Confined.fail
      ((confined_gmany confined_gqid n).bind fun _ => Confined.pure le_rfl)
  · exact confined_opened _
  · exact confined_opened _
  · exact (Confined.need 4).bind fun _ => (confined_gbit32 0 (by decide)).bind fun n => (confined_gdata n.toNat).bind fun _ =>
      Confined.pure le_rfl
  · exact confined_ulong _
  · exact Confined.pure le_rfl
  · exact Confined.pure le_rfl
  · exact (Confined.need 2).bind fun _ => (confined_gbit16 0 (by decide)).bind fun n => (confined_gdata n.toNat).bind fun _ =>
      Confined.pure le_rfl
  · exact Confined.pure le_rfl
  · exact Confined.fail

theorem confined_convM2SFields (nap : Nat) : Confined nap 0 0 (convM2SFields nap) :=
  (Confined.need 7).bind fun _ => (confined_gbit 4 3 (by decide)).bind fun _ => Confined.ite Confined.fail
    ((confined_gbit 1 2 (by decide)).bind fun type => (confined_gbit16 0 (by decide)).bind fun _ =>
      (confined_gmsg type).bind fun _ => Confined.pure le_rfl)

end Bounds

@[simp] theorem Msg.type_at (m : Msg Nat Nat) (mem : ByteMem) (nap : Nat) : (m.at mem nap).type = m.type := by
  cases m <;> rfl

/-- Every string of a decoded message has no NUL. -/
def Received.NulFree (f : Received) (mem : ByteMem) : Prop := ∀ p ∈ f.msg.strings, Styx.NulFree mem p

theorem consumes_convM2SFields (nap : Nat) :
    Consumes (convM2SFields nap) fun r before later bytes => 4 + 1 + 2 ≤ r.1 ∧ r.1 < 2 ^ 32 ∧ (r.2.NulFree before →
      (r.2.msg.at later nap).nelem ≤ maxwelem ∧ (r.2.msg.at later nap).Counted ∧
        ∃ pieces, (r.2.msg.at later nap).pieces = some pieces ∧
          pbit32 r.1 ++ (pbit8 r.2.msg.type ++ (pbit16 r.2.tag.toNat ++ pieces.flatten)) = bytes) := by
  refine Consumes.need ((consumes_gbit 4).bind fun size => Consumes.ite (fun _ => Consumes.fail) fun long => ?_)
  refine (consumes_gbit 1).bind fun type => consumes_gbit16.bind fun tag => (consumes_gmsg type).bind fun msg =>
    Consumes.pure ?_
  rintro before later ws stored zs rfl ys ⟨rfl, _⟩ xs ⟨rfl, fits⟩
  refine ⟨Nat.not_lt.mp long, fits, fun clean => ?_⟩
  obtain ⟨same, nelem, counted, pieces, put, bytes⟩ := stored clean
  refine ⟨nelem, counted, pieces, put, ?_⟩
  rw [List.append_nil, ← bytes, same]
  rfl

theorem convM2S_snd (mem : ByteMem) (nap : Nat) : (convM2S mem nap).2 = (convM2SFields nap ⟨mem, 0⟩).2.mem := by
  rcases ran : convM2SFields nap ⟨mem, 0⟩ with ⟨_ | r, c⟩ <;> rw [convM2S, ran]

theorem convM2S_fst (mem : ByteMem) (nap : Nat) :
    (convM2S mem nap).1 = (convM2SFields nap ⟨mem, 0⟩).1.bind fun r =>
      if (convM2SFields nap ⟨mem, 0⟩).2.p > nap then none
      else if r.1 = (convM2SFields nap ⟨mem, 0⟩).2.p then some r else none := by
  rcases ran : convM2SFields nap ⟨mem, 0⟩ with ⟨_ | r, c⟩ <;> rw [convM2S, ran] <;> rfl

/-- A message is accepted if it ends where it says, within the buffer. -/
theorem convM2S_accepted {mem : ByteMem} {nap size : Nat} {r : Received} (accepted : (convM2S mem nap).1 = some (size, r)) :
    ∃ c, convM2SFields nap ⟨mem, 0⟩ = (some (size, r), c) ∧ c.p = size ∧ size ≤ nap := by
  rcases ran : convM2SFields nap ⟨mem, 0⟩ with ⟨_ | ⟨declared, f⟩, c⟩
  · rw [convM2S, ran] at accepted
    cases accepted
  · rw [convM2S, ran] at accepted
    dsimp only at accepted
    split at accepted
    · cases accepted
    · split at accepted
      · rename_i within same
        cases accepted
        exact ⟨c, rfl, same.symm, by omega⟩
      · cases accepted

/-- What `convM2S` has accepted, `convS2M` writes back. -/
theorem convS2M_accepted {mem : ByteMem} {nap size room : Nat} {r : Received}
    (accepted : (convM2S mem nap).1 = some (size, r)) (clean : r.NulFree mem) (enough : size ≤ room) :
    convS2M (r.resolve (convM2S mem nap).2 nap) room = some (readBytes mem 0 size) := by
  obtain ⟨c, ran, stop, _⟩ := convM2S_accepted accepted
  have left : (convM2S mem nap).2 = c.mem := by rw [convM2S_snd, ran]
  obtain ⟨n, atEnd, _, good⟩ := consumes_convM2SFields nap ⟨mem, 0⟩ (size, r) c ran
  dsimp only at atEnd good
  have whole : n = size := by omega
  subst whole
  obtain ⟨long, fits, stored⟩ := good mem c.mem (fun _ _ _ => rfl) fun _ _ _ => rfl
  obtain ⟨nelem, counted, pieces, put, bytes⟩ := stored clean
  obtain ⟨_, again, length⟩ := Msg.pieces_size nelem counted
  cases Option.some.inj (put.symm.trans again)
  have total := congrArg List.length bytes
  simp only [List.length_append, length_pbit32, length_pbit8, length_pbit16, length_readBytes] at total
  have size : sizeS2M (r.resolve c.mem nap) = n := by
    rw [sizeS2M]
    change (4 + 1 + 2 + (r.msg.at c.mem nap).size) % 2 ^ 32 = n
    rw [← length, Nat.mod_eq_of_lt] <;> omega
  rw [left, convS2M, size]
  dsimp only
  rw [if_neg (by omega), if_neg (by omega), show (r.resolve c.mem nap).msg.pieces = some pieces from put]
  have flat : (pbit32 n :: pbit8 (r.resolve c.mem nap).msg.type :: pbit16 (r.resolve c.mem nap).tag.toNat :: pieces).flatten =
      readBytes mem 0 n := by
    rw [← bytes]
    simp only [List.flatten_cons, Received.resolve, Msg.type_at]
  simp only [Option.bind_eq_bind, Option.bind_some, Option.pure_def, flat]
  rw [if_neg (by rw [length_readBytes]; exact fun other => other rfl)]

/-- `convM2S` depends on the first `nap` bytes only and leaves all others alone,
and `convS2M` stores a message it has accepted as it was. -/
theorem convM2S_canonical (mem : ByteMem) (nap : Nat) :
    (∀ other : ByteMem, (∀ q < nap, other q = mem q) → (convM2S other nap).1 = (convM2S mem nap).1 ∧
      ∀ q < nap, (convM2S other nap).2 q = (convM2S mem nap).2 q) ∧
    (∀ q, nap ≤ q → (convM2S mem nap).2 q = mem q) ∧
    ∀ size r, (convM2S mem nap).1 = some (size, r) → r.NulFree mem →
      0 < size ∧ size ≤ nap ∧ ∀ room, size ≤ room →
        convS2M (r.resolve (convM2S mem nap).2 nap) room = some (readBytes mem 0 size) := by
  have confined := confined_convM2SFields nap
  refine ⟨fun other same => ?_, fun q beyond => ?_, fun size r accepted clean => ?_⟩
  · obtain ⟨value, stop, kept, _⟩ := confined ⟨other, 0⟩ ⟨mem, 0⟩ rfl (Nat.zero_le _) same
    refine ⟨?_, fun q below => ?_⟩
    · rw [convM2S_fst, convM2S_fst, value, stop]
    · rw [convM2S_snd, convM2S_snd]
      exact kept q below
  · obtain ⟨_, _, _, outer, _⟩ := confined ⟨mem, 0⟩ ⟨mem, 0⟩ rfl (Nat.zero_le _) fun _ _ => rfl
    rw [convM2S_snd]
    exact outer q beyond
  · obtain ⟨c, ran, stop, within⟩ := convM2S_accepted accepted
    refine ⟨?_, within, fun room enough => convS2M_accepted accepted clean enough⟩
    obtain ⟨n, _, _, good⟩ := consumes_convM2SFields nap ⟨mem, 0⟩ (size, r) c ran
    have long := (good mem c.mem (fun _ lower upper => rfl) fun _ _ _ => rfl).1
    omega

/-- An `Rerror` that says "eof", in the middle of a larger buffer. -/
def eofReply : ByteMem := fun q => [12, 0, 0, 0, 107, 7, 0, 3, 0, 101, 111, 102, 55, 55].getD q 55

theorem convM2S_canonical_eof : (convM2S eofReply 14).1 = some (12, ⟨7, .rerror 8⟩) ∧
    convS2M (Received.resolve (convM2S eofReply 14).2 14 ⟨7, .rerror 8⟩) 12 = some (readBytes eofReply 0 12) := by
  have accepted : (convM2S eofReply 14).1 = some (12, ⟨7, .rerror 8⟩) := by decide
  have clean : Received.NulFree ⟨7, .rerror 8⟩ eofReply := by
    intro p member
    cases List.mem_singleton.mp member
    unfold NulFree
    decide +kernel
  exact ⟨accepted, ((convM2S_canonical eofReply 14).2.2 12 _ accepted clean).2.2 12 (le_refl 12)⟩

end Inferno.Styx
