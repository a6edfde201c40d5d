import Inferno.Styx.Fcall

namespace Inferno.Styx

open Inferno.Lib

section Primitives

variable {ep : Nat}

@[simp] theorem length_pbit8 (v : Nat) : (pbit8 v).length = 1 := length_leBytes 1 v
@[simp] theorem length_pbit16 (v : Nat) : (pbit16 v).length = 2 := length_leBytes 2 v
@[simp] theorem length_pbit32 (v : Nat) : (pbit32 v).length = 4 := length_leBytes 4 v
@[simp] theorem length_pbit64 (v : Nat) : (pbit64 v).length = 8 := length_leBytes 8 v

@[simp] theorem length_pstring (s : Option (List UInt8)) : (pstring s).length = stringsz s := by
  cases s <;> simp [pstring, stringsz]

@[simp] theorem length_pqid (q : Qid) : (pqid q).length = qidsz := by
  simp [pqid, qidsz]

/-- A value read and then converted. -/
theorem decodes_map {α β : Type} {d : Dec α} {bytes : List UInt8} {v : α} (g : α → β)
    (read : Decodes ep d bytes fun a _ => a = v) :
    Decodes ep (do return g (← d)) bytes fun b _ => b = g v := by
  have whole := read.bind_eq (k := fun a => (return g a : Dec β)) (R := fun b _ => b = g v)
    (Decodes.pure fun _ => rfl)
  rwa [List.append_nil] at whole

theorem decodes_gbit (n v : Nat) : Decodes ep (gbit n) (leBytes n v) fun a _ => a = v % 256 ^ n := by
  have read : Decodes ep _ _ _ := decodes_map leNat (Decodes.next (leBytes n v))
  rwa [length_leBytes, leNat_leBytes] at read

theorem decodes_gbit_of_lt {n v : Nat} (fits : v < 256 ^ n) :
    Decodes ep (gbit n) (leBytes n v) fun a _ => a = v := by
  have read : Decodes ep _ _ _ := decodes_gbit n v
  rwa [Nat.mod_eq_of_lt fits] at read

theorem decodes_gbit8 (v : UInt8) : Decodes ep gbit8 (pbit8 v.toNat) fun a _ => a = v := by
  have read : Decodes ep _ _ _ := decodes_map UInt8.ofNat (decodes_gbit_of_lt (n := 1) v.toNat_lt)
  rwa [UInt8.ofNat_toNat] at read

theorem decodes_gbit16 (v : UInt16) : Decodes ep gbit16 (pbit16 v.toNat) fun a _ => a = v := by
  have read : Decodes ep _ _ _ := decodes_map UInt16.ofNat (decodes_gbit_of_lt (n := 2) v.toNat_lt)
  rwa [UInt16.ofNat_toNat] at read

theorem decodes_gbit32 {v : UInt64} (fits : v.toNat < 2 ^ 32) :
    Decodes ep gbit32 (pbit32 v.toNat) fun a _ => a = v := by
  have read : Decodes ep _ _ _ := decodes_map UInt64.ofNat (decodes_gbit_of_lt (n := 4) fits)
  rwa [UInt64.ofNat_toNat] at read

theorem decodes_gbit64 (v : UInt64) : Decodes ep gbit64 (pbit64 v.toNat) fun a _ => a = v := by
  have read : Decodes ep _ _ _ := decodes_map UInt64.ofNat (decodes_gbit_of_lt (n := 8) v.toNat_lt)
  rwa [UInt64.ofNat_toNat] at read

theorem decodes_gqid (q : Qid) : Decodes ep (gqid ep) (pqid q) fun a _ => a = q := by
  refine Decodes.need (by simp) ?_
  rw [pqid, List.append_assoc, ← List.append_nil (pbit64 _)]
  refine (decodes_gbit8 q.type).bind_eq ((decodes_gbit_of_lt (n := 4) q.vers.toNat_lt).bind_eq
    ((decodes_gbit64 q.path).bind_eq (Decodes.pure fun _ => ?_)))
  rw [UInt32.ofNat_toNat]

/-- The run of bytes a pointer names is what was copied there. -/
theorem decodes_gdata {n : Nat} {bytes : List UInt8} (length : bytes.length = n) :
    Decodes ep (gdata ep n) bytes fun p mem => readBytes mem p n = bytes := by
  subst length
  refine Decodes.need le_rfl fun c holds _ => ⟨c.p, c.mem, rfl, fun _ _ => rfl, fun later agrees => ?_⟩
  exact readBytes_of_holds (holds.congr agrees)

theorem cstring_of_holds {mem : ByteMem} {p fuel : Nat} {s : List UInt8} (clean : ∀ b ∈ s, b ≠ 0)
    (enough : s.length < fuel) (holds : Holds mem p (s ++ [0])) : cstring mem fuel p = s := by
  induction s generalizing p fuel with
  | nil =>
    cases fuel with
    | zero => rfl
    | succ fuel => rw [cstring, if_pos holds.1]
  | cons b s ih =>
    cases fuel with
    | zero => exact absurd enough (Nat.not_lt_zero _)
    | succ fuel =>
      have head : mem p = b := holds.1
      have rest := ih (p := p + 1) (fun d member => clean d (List.mem_cons_of_mem _ member))
        (Nat.lt_of_succ_lt_succ enough) holds.2
      rw [cstring, head, if_neg (clean b List.mem_cons_self), rest]

theorem holds_shift {mem : ByteMem} {p : Nat} {s : List UInt8} (holds : Holds mem (p + 1) s) :
    Holds (fun a => mem (a + 1)) p s := by
  induction s generalizing p with
  | nil => trivial
  | cons b s ih => exact ⟨holds.1, ih holds.2⟩

/-- After the move the string lies one byte lower, with its NUL. -/
theorem holds_moveDown {mem : ByteMem} {p : Nat} {s : List UInt8} (holds : Holds mem (p + 1) s) :
    Holds (moveDown mem p s.length) p (s ++ [0]) := by
  refine holds_append.mpr ⟨?_, ?_, trivial⟩
  · refine (holds_shift holds).congr fun q lower upper => ?_
    rw [moveDown, if_pos ⟨lower, upper⟩]
  · rw [moveDown, if_neg (by omega), if_pos rfl]

/-- A string the wire can carry: NUL-free and shorter than 65536 bytes. -/
def CString : Option (List UInt8) → Prop
  | none => True
  | some s => (∀ b ∈ s, b ≠ 0) ∧ s.length < 65536

theorem pstring_eq (s : Option (List UInt8)) :
    pstring s = pbit16 (s.getD []).length ++ s.getD [] := by
  cases s <;> rfl

theorem CString.getD {s : Option (List UInt8)} (carried : CString s) :
    (∀ b ∈ s.getD [], b ≠ 0) ∧ (s.getD []).length < 65536 := by
  cases s with
  | none => exact ⟨fun b member => (nomatch member), by decide⟩
  | some s => exact carried

theorem gstring_run {c : Cursor} {n : Nat} (count : Holds c.mem c.p (pbit16 n)) (fits : n < 65536)
    (room : c.p + 2 + n ≤ ep) :
    gstring ep c = (some (c.p + 1), ⟨moveDown c.mem (c.p + 1) n, c.p + 2 + n⟩) := by
  have value : leNat (readBytes c.mem c.p 2) = n := by
    have read := readBytes_of_holds count
    rw [length_pbit16] at read
    rw [read, pbit16, leNat_leBytes]
    exact Nat.mod_eq_of_lt fits
  have counted : gbit 2 c = (some n, ⟨c.mem, c.p + 2⟩) := by rw [← value]; rfl
  have enough : need ep 2 c = (some (), c) := by rw [need, if_neg (by omega)]
  have fitsIn : need ep n ⟨c.mem, c.p + 2⟩ = (some (), ⟨c.mem, c.p + 2⟩) := by
    rw [need, if_neg (by dsimp only; omega)]
  simp only [gstring, Bind.bind, Dec.bind, enough, counted, fitsIn]
  rfl

theorem decodes_gstring {s : Option (List UInt8)} (carried : CString s) :
    Decodes ep (gstring ep) (pstring s) fun p mem => cstring mem ep p = s.getD [] := by
  obtain ⟨clean, short⟩ := carried.getD
  rw [pstring_eq]
  generalize s.getD [] = text at clean short
  intro c holds room
  rw [List.length_append, length_pbit16] at room ⊢
  obtain ⟨count, body⟩ := holds_append.mp holds
  rw [length_pbit16] at body
  have ran : gstring ep c = _ := gstring_run count short (by omega)
  rw [Nat.add_assoc c.p 2] at ran
  refine ⟨_, _, ran, fun q outside => ?_, fun later agrees => ?_⟩
  · rw [moveDown, if_neg (by omega), if_neg (by omega)]
  · refine cstring_of_holds clean (by omega) ((holds_moveDown body).congr fun q lower upper => ?_)
    rw [List.length_append, List.length_singleton] at upper
    exact agrees q (by omega) (by omega)

/-- A loop of equal steps, one element of the list each. -/
theorem decodes_gmany {α β : Type} {get : Dec α} {put : β → List UInt8} {value : α → ByteMem → β}
    {want : β → β} {xs : List β}
    (each : ∀ x ∈ xs, Decodes ep get (put x) fun a mem => value a mem = want x) :
    Decodes ep (gmany get xs.length) (xs.map put).flatten fun as mem =>
      as.map (fun a => value a mem) = xs.map want := by
  induction xs with
  | nil => exact Decodes.pure fun _ => rfl
  | cons x xs ih =>
    have rest := ih fun y member => each y (List.mem_cons_of_mem _ member)
    rw [List.map_cons, List.flatten_cons, ← List.append_nil (xs.map put).flatten]
    refine (each x List.mem_cons_self).bind fun a _ => rest.bind fun as _ => Decodes.pure fun mem tail head => ?_
    rw [List.map_cons, List.map_cons, head, tail]

end Primitives

/-- The strings of a message, its 32-bit fields and the number of its names or qids. -/
def Msg.strings {S B : Type} : Msg S B → List S
  | .tversion _ version => [version]
  | .rversion _ version => [version]
  | .tauth _ uname aname => [uname, aname]
  | .tattach _ _ uname aname => [uname, aname]
  | .rerror ename => [ename]
  | .twalk _ _ wname => wname
  | .tcreate _ name _ _ => [name]
  | _ => []

def Msg.ulongs {S B : Type} : Msg S B → List UInt64
  | .tversion msize _ => [msize]
  | .rversion msize _ => [msize]
  | .tauth afid _ _ => [afid]
  | .tattach fid afid _ _ => [fid, afid]
  | .twalk fid newfid _ => [fid, newfid]
  | .topen fid _ => [fid]
  | .ropen _ iounit => [iounit]
  | .tcreate fid _ perm _ => [fid, perm]
  | .rcreate _ iounit => [iounit]
  | .tread fid _ count => [fid, count]
  | .rread count _ => [count]
  | .twrite fid _ count _ => [fid, count]
  | .rwrite count => [count]
  | .tclunk fid => [fid]
  | .tremove fid => [fid]
  | .tstat fid => [fid]
  | .twstat fid _ _ => [fid]
  | _ => []

def Msg.nelem {S B : Type} : Msg S B → Nat
  | .twalk _ _ wname => wname.length
  | .rwalk wqid => wqid.length
  | _ => 0

/-- Counts fit their wire fields and say how many bytes there are. -/
def Msg.Counted : Msg (Option (List UInt8)) (List UInt8) → Prop
  | .tread _ _ count => count.toNat < 2 ^ 32
  | .rread count data => count.toNat < 2 ^ 32 ∧ data.length = count.toNat
  | .twrite _ _ count data => count.toNat < 2 ^ 32 ∧ data.length = count.toNat
  | .rwrite count => count.toNat < 2 ^ 32
  | .rstat nstat stat => stat.length = nstat.toNat
  | .twstat _ nstat stat => stat.length = nstat.toNat
  | _ => True

/-- What a sender has to keep to. -/
structure Fcall.Legal (f : Sent) : Prop where
  strings : ∀ s ∈ f.msg.strings, CString s
  nelem : f.msg.nelem ≤ maxwelem
  counted : f.msg.Counted

/-- The values and the whole message fit the 32-bit fields of the wire. -/
structure Fcall.Narrow (f : Sent) : Prop where
  ulongs : ∀ v ∈ f.msg.ulongs, v.toNat < 2 ^ 32
  size : 4 + 1 + 2 + f.msg.size < 2 ^ 32

/-- A nil string travels as an empty one. -/
def Msg.denil (m : Msg (Option (List UInt8)) (List UInt8)) : Msg (Option (List UInt8)) (List UInt8) :=
  m.map (fun s => some (s.getD [])) fun _ bytes => bytes

def Fcall.denil (f : Sent) : Sent := ⟨f.tag, f.msg.denil⟩

/-- In every buffer large enough `convS2M` stores `sizeS2M` bytes, from which
`convM2S` returns that size and the message `g`. -/
def Fcall.Returns (f g : Sent) : Prop :=
  ∀ nap, sizeS2M f ≤ nap → ∃ stored, convS2M f nap = some stored ∧ stored.length = sizeS2M f ∧
    ∀ mem, Holds mem 0 stored → ∃ r left, convM2S mem stored.length = (some (sizeS2M f, r), left) ∧
      r.resolve left stored.length = g

end Inferno.Styx
