import Inferno.Styx.FcallCanonical

namespace Inferno.Styx

open Inferno.Lib

/-- A string as `strlen` into a `uint` sees it. -/
def uintString (s : Option (List UInt8)) : Option (List UInt8) := s.map fun s => s.take (s.length % 2 ^ 32)

/-- The message of which `convS2M` stores every string to the length that it has found. -/
def Fcall.uints (f : Sent) : Sent := ⟨f.tag, f.msg.map uintString fun _ bytes => bytes⟩

/-- Strings are C strings, and data are as long as their counts say. -/
structure Fcall.Formed (f : Sent) : Prop where
  strings : ∀ s ∈ f.msg.strings, 0 ∉ s.getD []
  data : ∀ d ∈ f.msg.data, d.2.length = d.1

/-- Where `convS2M` does not return 0, its bytes decode to the message. -/
def Fcall.Faithful (f : Sent) (nap : Nat) : Prop :=
  ∀ stored, convS2M f.uints nap = some stored → ∀ mem, Holds mem 0 stored →
    ∃ r left, convM2S mem stored.length = (some (stored.length, r), left) ∧ r.resolve left stored.length = f.denil

/-- The counts of the strings and the 32-bit fields hold their values. -/
structure Msg.Within (m : Msg (Option (List UInt8)) (List UInt8)) : Prop where
  strings : ∀ s ∈ m.strings, (s.getD []).length < 65536
  ulongs : ∀ v ∈ m.ulongs, v.toNat < 2 ^ 32

section Decoded

variable {ep : Nat}

theorem length_cstring_le {mem : ByteMem} {fuel p n : Nat} (zero : mem (p + n) = 0) :
    (cstring mem fuel p).length ≤ n := by
  induction fuel generalizing p n with
  | zero => exact Nat.zero_le n
  | succ fuel ih =>
    unfold cstring
    split
    · exact Nat.zero_le n
    · rename_i other
      cases n with
      | zero => exact absurd zero other
      | succ n => exact Nat.succ_le_succ (ih (by rwa [Nat.add_assoc, Nat.add_comm 1]))

theorem short_gstring : Consumes (gstring ep) fun p _ later _ => (cstring later ep p).length < 65536 := by
  intro c p c' ran
  rcases gstring_eq ep c with ⟨_, none⟩ | ⟨_, _, none⟩ | ⟨room, done⟩
  · cases none.symm.trans ran
  · cases none.symm.trans ran
  obtain ⟨n, atEnd, kept, -⟩ := consumes_gstring c p c' ran
  refine ⟨n, atEnd, kept, fun before later _ same => ?_⟩
  cases done.symm.trans ran
  have small := count_lt c.mem c.p
  dsimp only at atEnd same
  refine lt_of_le_of_lt (length_cstring_le (n := leNat (readBytes c.mem c.p 2)) ?_) small
  rw [same _ (by omega) (by omega), moveDown, if_neg (by omega), if_pos rfl]

theorem short_gmany (n : Nat) : Consumes (gmany (gstring ep) n) fun ps _ later _ =>
    ∀ p ∈ ps, (cstring later ep p).length < 65536 := by
  induction n with
  | zero => exact Consumes.pure fun _ _ p member => nomatch member
  | succ n ih =>
    refine short_gstring.bind fun p => ih.bind fun ps => Consumes.pure ?_
    intro before later _ rest _ first q member
    rcases List.mem_cons.mp member with rfl | member
    · exact first
    · exact rest q member

/-- A decoded message with its strings and fields. -/
def Msg.Fits (ep : Nat) (m : Msg Nat Nat) (_ later : ByteMem) (_ : List UInt8) : Prop := (m.at later ep).Within

theorem within_of {m : Msg (Option (List UInt8)) (List UInt8)} (none : m.strings = [])
    (ulongs : ∀ v ∈ m.ulongs, v.toNat < 2 ^ 32) : m.Within := by
  refine ⟨fun s member => ?_, ulongs⟩
  rw [none] at member
  nomatch member

theorem fits_tflush : Consumes (gmsg ep 108) (Msg.Fits ep) :=
  Consumes.need (consumes_gbit16.bind fun _ =>
    Consumes.pure fun _ _ _ _ => within_of rfl fun _ member => nomatch member)

theorem fits_qid : Consumes (gmsg ep 103) (Msg.Fits ep) ∧ Consumes (gmsg ep 105) (Msg.Fits ep) := by
  constructor <;>
  · exact consumes_gqid.bind fun _ => Consumes.pure fun _ _ _ _ => within_of rfl fun _ member => nomatch member

theorem fits_empty : Consumes (gmsg ep 109) (Msg.Fits ep) ∧ Consumes (gmsg ep 121) (Msg.Fits ep) ∧
    Consumes (gmsg ep 123) (Msg.Fits ep) ∧ Consumes (gmsg ep 127) (Msg.Fits ep) := by
  refine ⟨?_, ?_, ?_, ?_⟩ <;>
  · exact Consumes.pure fun _ _ => within_of rfl fun _ member => nomatch member

theorem fits_rstat : Consumes (gmsg ep 125) (Msg.Fits ep) :=
  Consumes.need (consumes_gbit16.bind fun nstat => (consumes_gdata nstat.toNat).bind fun _ =>
    Consumes.pure fun _ _ _ _ _ _ => within_of rfl fun _ member => nomatch member)

theorem fits_fid : Consumes (gmsg ep 120) (Msg.Fits ep) ∧ Consumes (gmsg ep 122) (Msg.Fits ep) ∧
    Consumes (gmsg ep 124) (Msg.Fits ep) ∧ Consumes (gmsg ep 119) (Msg.Fits ep) := by
  refine ⟨?_, ?_, ?_, ?_⟩ <;>
  · refine Consumes.need (consumes_gbit32.bind fun v => Consumes.pure ?_)
    rintro before later _ ⟨-, fits⟩
    exact within_of rfl (List.forall_mem_singleton.mpr fits)

theorem fits_topen : Consumes (gmsg ep 112) (Msg.Fits ep) := by
  refine Consumes.need (consumes_gbit32.bind fun fid => consumes_gbit8.bind fun mode => Consumes.pure ?_)
  rintro before later _ - _ ⟨-, fits⟩
  exact within_of rfl (List.forall_mem_singleton.mpr fits)

theorem fits_opened : Consumes (gmsg ep 113) (Msg.Fits ep) ∧ Consumes (gmsg ep 115) (Msg.Fits ep) := by
  constructor <;>
  · refine consumes_gqid.bind fun qid => Consumes.need (consumes_gbit32.bind fun iounit => Consumes.pure ?_)
    rintro before later _ ⟨-, fits⟩ _ -
    exact within_of rfl (List.forall_mem_singleton.mpr fits)

theorem fits_tread : Consumes (gmsg ep 116) (Msg.Fits ep) := by
  refine Consumes.need (consumes_gbit32.bind fun fid => consumes_gbit64.bind fun offset =>
    consumes_gbit32.bind fun count => Consumes.pure ?_)
  rintro before later _ ⟨-, fits'⟩ _ - _ ⟨-, fits⟩
  exact within_of rfl (List.forall_mem_cons.mpr ⟨fits, List.forall_mem_singleton.mpr fits'⟩)

theorem fits_twrite : Consumes (gmsg ep 118) (Msg.Fits ep) := by
  refine Consumes.need (consumes_gbit32.bind fun fid => consumes_gbit64.bind fun offset =>
    consumes_gbit32.bind fun count => (consumes_gdata count.toNat).bind fun data => Consumes.pure ?_)
  rintro before later _ - _ ⟨-, fits'⟩ _ - _ ⟨-, fits⟩
  exact within_of rfl (List.forall_mem_cons.mpr ⟨fits, List.forall_mem_singleton.mpr fits'⟩)

theorem fits_twstat : Consumes (gmsg ep 126) (Msg.Fits ep) := by
  refine Consumes.need (consumes_gbit32.bind fun fid => consumes_gbit16.bind fun nstat =>
    (consumes_gdata nstat.toNat).bind fun stat => Consumes.pure ?_)
  rintro before later _ - _ - _ ⟨-, fits⟩
  exact within_of rfl (List.forall_mem_singleton.mpr fits)

theorem fits_rread : Consumes (gmsg ep 117) (Msg.Fits ep) := by
  refine Consumes.need (consumes_gbit32.bind fun count => (consumes_gdata count.toNat).bind fun data =>
    Consumes.pure ?_)
  rintro before later _ - _ ⟨-, fits⟩
  exact within_of rfl (List.forall_mem_singleton.mpr fits)

theorem fits_rwalk : Consumes (gmsg ep 111) (Msg.Fits ep) := by
  refine Consumes.need ((consumes_gbit 2).bind fun n => Consumes.ite (fun _ => Consumes.fail) fun _ => ?_)
  have each : Consumes (gqid ep) fun q _ _ bytes => True → pqid q = bytes :=
    consumes_gqid.congr fun _ _ _ _ same _ => same
  exact (consumes_gmany each n).bind fun _ => Consumes.pure fun _ _ _ _ _ _ =>
    within_of rfl fun _ member => nomatch member

theorem fits_version : Consumes (gmsg ep 100) (Msg.Fits ep) ∧ Consumes (gmsg ep 101) (Msg.Fits ep) := by
  constructor <;>
  · refine Consumes.need (consumes_gbit32.bind fun msize => short_gstring.bind fun version => Consumes.pure ?_)
    rintro before later _ short _ ⟨-, fits⟩
    exact ⟨List.forall_mem_singleton.mpr short, List.forall_mem_singleton.mpr fits⟩

theorem fits_rerror : Consumes (gmsg ep 107) (Msg.Fits ep) := by
  refine short_gstring.bind fun ename => Consumes.pure ?_
  intro before later _ short
  exact ⟨List.forall_mem_singleton.mpr short, fun v member => nomatch member⟩

theorem fits_tauth : Consumes (gmsg ep 102) (Msg.Fits ep) := by
  refine Consumes.need (consumes_gbit32.bind fun afid => short_gstring.bind fun uname =>
    short_gstring.bind fun aname => Consumes.pure ?_)
  rintro before later _ tree _ user _ ⟨-, fits⟩
  exact ⟨List.forall_mem_cons.mpr ⟨user, List.forall_mem_singleton.mpr tree⟩, List.forall_mem_singleton.mpr fits⟩

theorem fits_tattach : Consumes (gmsg ep 104) (Msg.Fits ep) := by
  refine Consumes.need (consumes_gbit32.bind fun fid => Consumes.need (consumes_gbit32.bind fun afid =>
    short_gstring.bind fun uname => short_gstring.bind fun aname => Consumes.pure ?_))
  rintro before later _ tree _ user _ ⟨-, fits'⟩ _ ⟨-, fits⟩
  exact ⟨List.forall_mem_cons.mpr ⟨user, List.forall_mem_singleton.mpr tree⟩,
    List.forall_mem_cons.mpr ⟨fits, List.forall_mem_singleton.mpr fits'⟩⟩

theorem fits_twalk : Consumes (gmsg ep 110) (Msg.Fits ep) := by
  refine Consumes.need (consumes_gbit32.bind fun fid => consumes_gbit32.bind fun newfid =>
    (consumes_gbit 2).bind fun n => ?_)
  refine Consumes.ite (fun _ => Consumes.fail) fun _ => (short_gmany n).bind fun names => Consumes.pure ?_
  rintro before later _ short _ - _ ⟨-, fits'⟩ _ ⟨-, fits⟩
  exact ⟨List.forall_mem_map.mpr short, List.forall_mem_cons.mpr ⟨fits, List.forall_mem_singleton.mpr fits'⟩⟩

theorem fits_tcreate : Consumes (gmsg ep 114) (Msg.Fits ep) := by
  refine Consumes.need (consumes_gbit32.bind fun fid => short_gstring.bind fun name => Consumes.need
    (consumes_gbit32.bind fun perm => consumes_gbit8.bind fun mode => Consumes.pure ?_))
  rintro before later _ - _ ⟨-, fits'⟩ _ short _ ⟨-, fits⟩
  exact ⟨List.forall_mem_singleton.mpr short, List.forall_mem_cons.mpr ⟨fits, List.forall_mem_singleton.mpr fits'⟩⟩

theorem fits_gmsg (type : Nat) : Consumes (gmsg ep type) (Msg.Fits ep) := by
  unfold gmsg
  split
  · exact fits_version.1
  · exact fits_tflush
  · exact fits_tauth
  · exact fits_tattach
  · exact fits_twalk
  · exact fits_topen
  · exact fits_tcreate
  · exact fits_tread
  · exact fits_twrite
  · exact fits_fid.1
  · exact fits_fid.2.1
  · exact fits_fid.2.2.1
  · exact fits_twstat
  · exact fits_version.2
  · exact fits_rerror
  · exact fits_empty.1
  · exact fits_qid.1
  · exact fits_qid.2
  · exact fits_rwalk
  · exact fits_opened.1
  · exact fits_opened.2
  · exact fits_rread
  · exact fits_fid.2.2.2
  · exact fits_empty.2.1
  · exact fits_empty.2.2.1
  · exact fits_rstat
  · exact fits_empty.2.2.2
  · exact Consumes.fail

/-- What `convM2S` accepts has short strings and narrow fields. -/
theorem convM2S_within {mem left : ByteMem} {nap size : Nat} {r : Received}
    (accepted : convM2S mem nap = (some (size, r), left)) : (r.resolve left nap).msg.Within := by
  have fields : Consumes (convM2SFields nap) fun r _ later _ => (r.2.msg.at later nap).Within := by
    refine Consumes.need ((consumes_gbit 4).bind fun size => Consumes.ite (fun _ => Consumes.fail) fun _ => ?_)
    refine (consumes_gbit 1).bind fun type => consumes_gbit16.bind fun tag => (fits_gmsg type).bind fun msg =>
      Consumes.pure ?_
    intro before later _ fits _ _ _ _ _ _
    exact fits
  obtain ⟨c, ran, -, -⟩ := convM2S_accepted (congrArg Prod.fst accepted)
  have same : left = c.mem := by
    have after := convM2S_snd mem nap
    rw [accepted, ran] at after
    exact after
  obtain ⟨n, -, -, within⟩ := fields ⟨mem, 0⟩ (size, r) c ran
  rw [same]
  exact within mem c.mem (fun _ _ _ => rfl) fun _ _ _ => rfl

end Decoded

section Encoded

variable {f : Sent} {nap : Nat}

theorem strings_map {S B S' B' : Type} (str : S → S') (bytes : Nat → B → B') (m : Msg S B) :
    (m.map str bytes).strings = m.strings.map str := by
  cases m <;> rfl

theorem ulongs_map {S B S' B' : Type} (str : S → S') (bytes : Nat → B → B') (m : Msg S B) :
    (m.map str bytes).ulongs = m.ulongs := by
  cases m <;> rfl

theorem data_map {S S' B : Type} (str : S → S') (m : Msg S B) : (m.map str fun _ bytes => bytes).data = m.data := by
  cases m <;> rfl

theorem nelem_map {S B S' B' : Type} (str : S → S') (bytes : Nat → B → B') (m : Msg S B) :
    (m.map str bytes).nelem = m.nelem := by
  cases m <;> simp [Msg.map, Msg.nelem]

theorem map_id_of {S B : Type} {str : S → S} {m : Msg S B} (same : ∀ s ∈ m.strings, str s = s) :
    (m.map str fun _ bytes => bytes) = m := by
  cases m with
  | twalk fid newfid wname =>
    exact congrArg (Msg.twalk fid newfid) ((List.map_congr_left same).trans (List.map_id wname))
  | _ => simp_all [Msg.map, Msg.strings]

theorem denil_within (within : f.denil.msg.Within) : f.msg.Within := by
  refine ⟨fun s member => ?_, fun v member => ?_⟩
  · have there := within.strings (some (s.getD [])) (by
      rw [Fcall.denil, Msg.denil, strings_map]
      exact List.mem_map_of_mem member)
    exact there
  · exact within.ulongs v (by rwa [Fcall.denil, Msg.denil, ulongs_map])

/-- A message whose strings are short is stored as it is. -/
theorem uints_eq (within : f.msg.Within) : f.uints = f := by
  have same : ∀ s ∈ f.msg.strings, uintString s = s := fun s member => by
    cases s with
    | none => rfl
    | some s =>
      have short : s.length < 65536 := within.strings (some s) member
      rw [uintString, Option.map_some, Nat.mod_eq_of_lt (by omega), List.take_length]
  rw [Fcall.uints, map_id_of same]

/-- What `convS2M` stores where it does not return 0. -/
theorem convS2M_stored (few : f.msg.nelem ≤ maxwelem) (data : ∀ d ∈ f.msg.data, d.2.length = d.1)
    (small : 4 + 1 + 2 + f.msg.size < 2 ^ 32) (room : sizeS2M f ≤ nap) :
    ∃ stored, convS2M f nap = some stored ∧ stored.length = sizeS2M f := by
  obtain ⟨pieces, put, length⟩ := Msg.length_pieces few data
  have size : sizeS2M f = 4 + 1 + 2 + f.msg.size := Nat.mod_eq_of_lt small
  have stored : sizeS2M f =
      (pbit32 (sizeS2M f) :: pbit8 f.msg.type :: pbit16 f.tag.toNat :: pieces).flatten.length := by
    simp only [List.flatten_cons, List.length_append, length_pbit32, length_pbit16, length_pbit8]
    omega
  refine ⟨_, ?_, stored.symm⟩
  rw [convS2M, put]
  dsimp only
  rw [if_neg (by omega), if_neg (by omega)]
  simp only [Option.bind_eq_bind, Option.bind_some, Option.pure_def]
  exact if_neg (not_not.mpr stored)

/-- The conditions under which `convS2M` does not return 0. -/
theorem of_convS2M {stored : List UInt8} (data : ∀ d ∈ f.msg.data, d.2.length = d.1)
    (ran : convS2M f nap = some stored) :
    sizeS2M f ≤ nap ∧ f.msg.nelem ≤ maxwelem ∧ 4 + 1 + 2 + f.msg.size < 2 ^ 32 := by
  unfold convS2M at ran
  dsimp only at ran
  split at ran
  · nomatch ran
  split at ran
  · nomatch ran
  rename_i room
  obtain ⟨pieces, put, rest⟩ := Option.bind_eq_some_iff.mp ran
  split at rest
  · nomatch rest
  rename_i same
  have few : f.msg.nelem ≤ maxwelem := by
    by_contra many
    cases m : f.msg with
    | twalk fid newfid wname =>
      rw [m] at put many
      nomatch put.symm.trans (if_pos (Nat.not_le.mp many))
    | rwalk wqid =>
      rw [m] at put many
      nomatch put.symm.trans (if_pos (Nat.not_le.mp many))
    | _ =>
      rw [m] at many
      exact many (Nat.zero_le _)
  obtain ⟨_, put', length⟩ := Msg.length_pieces few data
  cases Option.some.inj (put.symm.trans put')
  simp only [List.flatten_cons, List.length_append, length_pbit32, length_pbit16, length_pbit8] at same
  have cut : sizeS2M f < 2 ^ 32 := Nat.mod_lt _ (by decide)
  exact ⟨Nat.not_lt.mp room, few, by omega⟩

theorem Fcall.Formed.cstring (formed : f.Formed) (within : f.msg.Within) : ∀ s ∈ f.msg.strings, CString s := by
  intro s member
  cases s with
  | none => trivial
  | some s => exact ⟨fun b here zero => formed.strings (some s) member (zero ▸ here), within.strings (some s) member⟩

theorem Msg.Within.counted {m : Msg (Option (List UInt8)) (List UInt8)} (within : m.Within)
    (data : ∀ d ∈ m.data, d.2.length = d.1) : m.Counted := by
  have narrow := within.ulongs
  cases m with
  | tread fid offset count => exact narrow count (List.mem_cons_of_mem _ List.mem_cons_self)
  | rread count bytes => exact ⟨narrow count List.mem_cons_self, data (count.toNat, bytes) List.mem_cons_self⟩
  | twrite fid offset count bytes =>
    exact ⟨narrow count (List.mem_cons_of_mem _ List.mem_cons_self), data (count.toNat, bytes) List.mem_cons_self⟩
  | rwrite count => exact narrow count List.mem_cons_self
  | rstat nstat stat => exact data (nstat.toNat, stat) List.mem_cons_self
  | twstat fid nstat stat => exact data (nstat.toNat, stat) List.mem_cons_self
  | _ => trivial

/-- For every message, `convS2M` returns 0 or stores what decodes to the message, exactly where it finds no room, too
many elements or 2^32 bytes or more, or all strings are shorter than 65536 bytes and the fields fit 32 bits. -/
theorem faithful_iff (formed : f.Formed) (nap : Nat) :
    f.Faithful nap ↔ nap < sizeS2M f.uints ∨ maxwelem < f.msg.nelem ∨ 2 ^ 32 ≤ 4 + 1 + 2 + f.uints.msg.size ∨
      f.msg.Within := by
  have nelem : f.uints.msg.nelem = f.msg.nelem :=
    nelem_map uintString (fun _ bytes => bytes) f.msg
  have data : ∀ d ∈ f.uints.msg.data, d.2.length = d.1 := by
    rw [Fcall.uints, data_map]
    exact formed.data
  constructor
  · intro faithful
    by_contra other
    obtain ⟨room, few, small, wide⟩ := not_or.mp other |>.imp id fun other => not_or.mp other |>.imp id not_or.mp
    obtain ⟨stored, ran, length⟩ := @convS2M_stored f.uints nap (by omega) data (by omega) (by omega)
    obtain ⟨mem, holds⟩ := exists_holds stored
    obtain ⟨r, left, back, same⟩ := faithful stored ran mem holds
    exact wide (denil_within (same ▸ convM2S_within back))
  · rintro cases stored ran mem holds
    obtain ⟨room, few, small⟩ := of_convS2M data ran
    rw [nelem] at few
    rcases cases with short | many | large | within
    · omega
    · omega
    · omega
    · rw [uints_eq within] at ran room small
      have legal : f.Legal := ⟨formed.cstring within, few, within.counted formed.data⟩
      obtain ⟨stored', ran', length, back⟩ := legal.returns ⟨within.ulongs, small⟩ nap room
      cases Option.some.inj (ran.symm.trans ran')
      rw [length]
      rw [length] at back
      exact back mem holds

end Encoded

end Inferno.Styx
