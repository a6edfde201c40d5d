import Inferno.Lib.CursorBack
import Inferno.Strings.Fields
import Inferno.Strings.Inv
import Inferno.Styx.FcallCodec

namespace Inferno.Lib9

open Lib Styx Strings

def bit8sz : Nat := 1
def bit16sz : Nat := 2
def bit32sz : Nat := 4
def bit64sz : Nat := 8
def statfixlen : Nat := bit16sz + qidsz + 5 * bit16sz + 4 * bit32sz + bit64sz

/-- `Dir` of `lib9.h`; a nil string is `none`. -/
structure Dir where
  type : UInt16
  dev : UInt32
  qid : Qid
  mode : UInt32
  atime : UInt32
  mtime : UInt32
  length : Int64
  name : Option (List UInt8)
  uid : Option (List UInt8)
  gid : Option (List UInt8)
  muid : Option (List UInt8)
deriving DecidableEq

/-- The array `sv` of the three functions. -/
def Dir.sv (d : Dir) : List (Option (List UInt8)) := [d.name, d.uid, d.gid, d.muid]

/-- `if(sv[i]) strlen(sv[i])` as an `int`. -/
def nsv (s : Option (List UInt8)) : Int := int (s.getD []).length

def sizeD2M (d : Dir) : Nat :=
  let ns := d.sv.foldl (fun ns s => int (ns + nsv s)) 0
  u32 (int (statfixlen + ns))

/-- The strings, stored from `p` on: what stands in the buffer then, and whether they fit. -/
def putStrings (nbuf : Nat) : List (Option (List UInt8)) → List UInt8 → Bool × List UInt8
  | [], p => (true, p)
  | s :: sv, p =>
    let ns := nsv s
    if p.length + ns + bit16sz > nbuf then (false, p)
    else putStrings nbuf sv (p ++ pbit16 (u32 ns) ++ (s.getD []).take ns.toNat)

/-- The fields of fixed size, as `convD2M` stores them. -/
def Dir.fixed (d : Dir) : List UInt8 :=
  pbit16 d.type.toNat ++ (pbit32 d.dev.toNat ++ (pbit8 d.qid.type.toNat ++ (pbit32 d.qid.vers.toNat ++
    (pbit64 d.qid.path.toNat ++ (pbit32 d.mode.toNat ++ (pbit32 d.atime.toNat ++ (pbit32 d.mtime.toNat ++
    pbit64 d.length.toUInt64.toNat)))))))

/-- `convD2M` into a buffer of `nbuf` bytes: its value, and the bytes at the start of the buffer. -/
def convD2M (d : Dir) (nbuf : Nat) : Nat × List UInt8 :=
  if nbuf < bit16sz then (0, [])
  else
    let ns := d.sv.foldl (fun ns s => int (ns + nsv s)) 0
    let ss := int (statfixlen + ns)
    let p := pbit16 (u32 (ss - bit16sz))
    if u32 ss > nbuf then (bit16sz, p)
    else
      let r := putStrings nbuf d.sv (p ++ d.fixed)
      if !r.1 ∨ ss ≠ r.2.length then (0, r.2) else (r.2.length, r.2)

section Decode

variable (buf : ByteMem) (nbuf : Nat)

/-- A read of `n` bytes at `p`; `none` where one of them is not in the buffer. -/
def read (p n : Nat) : Option (List UInt8) := if p + n ≤ nbuf then some (readBytes buf p n) else none

/-- `GBIT8` to `GBIT64`, by their number of bytes. -/
def gbit (p n : Nat) : Option Nat := (read buf nbuf p n).map leNat

/-- The loop of `statcheck`: where it ends, or `none` within for `return -1`. -/
def checkStrings : Nat → Nat → Option (Option Nat)
  | 0, p => some (some p)
  | i + 1, p => do
    if p + bit16sz > nbuf then return none
    checkStrings i (p + bit16sz + (← gbit buf nbuf p bit16sz))

def statcheck : Option Int := do
  if nbuf < statfixlen then return -1
  if nbuf ≠ bit16sz + (← gbit buf nbuf 0 bit16sz) then return -1
  match ← checkStrings buf nbuf 4 (statfixlen - 4 * bit16sz) with
  | none => return -1
  | some p => return if p ≠ nbuf then -1 else 0

/-- The strings of `convM2D`: where the loop is, the bytes stored at `strs` and the positions there. -/
structure Strs where
  p : Nat
  out : List UInt8
  sv : List Nat

/-- What `convM2D` does with the string at `p`. -/
def Strs.take (strs : Bool) (ns : Nat) (s : Strs) : Option Strs :=
  if strs then do
    let bytes ← read buf nbuf s.p ns
    return ⟨s.p + ns, s.out ++ bytes ++ [0], s.sv ++ [s.out.length]⟩
  else return { s with p := s.p + ns }

/-- The loop of `convM2D`; `none` within for `return 0`. -/
def getStrings (strs : Bool) : Nat → Strs → Option (Option Strs)
  | 0, s => some (some s)
  | i + 1, s => do
    if s.p + bit16sz > nbuf then return none
    let ns ← gbit buf nbuf s.p bit16sz
    if s.p + bit16sz + ns > nbuf then return none
    getStrings strs i (← Strs.take buf nbuf strs ns { s with p := s.p + bit16sz })

/-- The fields of fixed size, from `p` on. -/
def getFixed (p : Nat) (d : Dir) : Option (Nat × Dir) := do
  let type ← gbit buf nbuf p bit16sz
  let p := p + bit16sz
  let dev ← gbit buf nbuf p bit32sz
  let p := p + bit32sz
  let qtype ← gbit buf nbuf p bit8sz
  let p := p + bit8sz
  let vers ← gbit buf nbuf p bit32sz
  let p := p + bit32sz
  let path ← gbit buf nbuf p bit64sz
  let p := p + bit64sz
  let mode ← gbit buf nbuf p bit32sz
  let p := p + bit32sz
  let atime ← gbit buf nbuf p bit32sz
  let p := p + bit32sz
  let mtime ← gbit buf nbuf p bit32sz
  let p := p + bit32sz
  let length ← gbit buf nbuf p bit64sz
  let p := p + bit64sz
  return (p, { d with
    type := UInt16.ofNat type, dev := UInt32.ofNat dev,
    qid := ⟨UInt64.ofNat path, UInt32.ofNat vers, UInt8.ofNat qtype⟩,
    mode := UInt32.ofNat mode, atime := UInt32.ofNat atime, mtime := UInt32.ofNat mtime,
    length := (UInt64.ofNat length).toInt64 })

/-- The string of the result that stands at a position of `strs`; without `strs` it is `nullstring`. -/
def Strs.string (strs : Bool) (s : Strs) (i : Nat) : Option (List UInt8) :=
  some (if strs then cstr s.out (s.sv.getD i 0) else [])

/-- The strings are set in `d`. -/
def Strs.into (strs : Bool) (s : Strs) (d : Dir) : Dir :=
  { d with name := s.string strs 0, uid := s.string strs 1, gid := s.string strs 2, muid := s.string strs 3 }

/-- `convM2D`: its value and what it leaves in `d`; `none` where it reads a byte that is not in the buffer. -/
def convM2D (d : Dir) (strs : Bool) : Option (Nat × Dir) := do
  if nbuf < statfixlen then return (0, d)
  let (p, d) ← getFixed buf nbuf bit16sz d
  match ← getStrings buf nbuf strs 4 ⟨p, [], []⟩ with
  | none => return (0, d)
  | some s => return (s.p, s.into strs d)

end Decode

/-- The `Dir` with empty strings for nil ones. -/
def Dir.named (d : Dir) : Dir :=
  { d with
    name := some (d.name.getD []), uid := some (d.uid.getD []), gid := some (d.gid.getD []),
    muid := some (d.muid.getD []) }

/-- The size of the strings. -/
def Dir.total (d : Dir) : Nat := (d.sv.map fun s => (s.getD []).length).sum

variable {d : Dir} {buf : ByteMem} {m n p v : Nat} {s : Option (List UInt8)} {sv : List (Option (List UInt8))}
  {strs : Bool}

/-- A string as `convD2M` stores it. -/
def pname (s : Option (List UInt8)) : List UInt8 := pbit16 (s.getD []).length ++ s.getD []

theorem length_pname (s : Option (List UInt8)) : (pname s).length = 2 + (s.getD []).length := by
  rw [pname, List.length_append, length_pbit16]

theorem foldl_ns (small : statfixlen + (sv.map fun s => (s.getD []).length).sum + n < 65538) :
    sv.foldl (fun ns s => int (ns + nsv s)) (n : Int) =
      ((n + (sv.map fun s => (s.getD []).length).sum : Nat) : Int) := by
  induction sv generalizing n with
  | nil => rfl
  | cons s sv ih =>
    rw [List.map_cons, List.sum_cons] at small ⊢
    have first : nsv s = (s.getD []).length := int_of_lt (by omega) (by omega)
    have step : int ((n : Int) + nsv s) = ((n + (s.getD []).length : Nat) : Int) := by
      rw [first, int_of_lt (by omega) (by omega)]
      omega
    rw [List.foldl_cons, step, ih (by omega), Nat.add_assoc]

theorem ss_eq (small : statfixlen + d.total < 65538) :
    int (statfixlen + d.sv.foldl (fun ns s => int (ns + nsv s)) 0) = ((statfixlen + d.total : Nat) : Int) := by
  have sum : d.sv.foldl (fun ns s => int (ns + nsv s)) 0 = ((0 + d.total : Nat) : Int) :=
    foldl_ns (n := 0) (by unfold Dir.total at small; omega)
  rw [sum, int_of_lt (by omega) (by omega)]
  omega

theorem u32_nat (less : n < 2 ^ 32) : u32 (n : Int) = n := by
  have value := u32_of_lt (n := (n : Int)) (by omega) (by omega)
  omega

theorem sizeD2M_eq (small : statfixlen + d.total < 65538) : sizeD2M d = statfixlen + d.total := by
  unfold sizeD2M
  dsimp only
  rw [ss_eq small, u32_nat (by omega)]

theorem length_flatMap_pname (sv : List (Option (List UInt8))) :
    (sv.flatMap pname).length = 2 * sv.length + (sv.map fun s => (s.getD []).length).sum := by
  induction sv with
  | nil => rfl
  | cons s sv ih =>
    rw [List.flatMap_cons, List.length_append, ih, length_pname, List.length_cons, List.map_cons, List.sum_cons]
    omega

theorem putStrings_eq {p : List UInt8} (small : (sv.map fun s => (s.getD []).length).sum < 65536)
    (fits : p.length + (sv.flatMap pname).length ≤ m) : putStrings m sv p = (true, p ++ sv.flatMap pname) := by
  induction sv generalizing p with
  | nil => rw [putStrings, List.flatMap_nil, List.append_nil]
  | cons s sv ih =>
    rw [List.map_cons, List.sum_cons] at small
    rw [List.flatMap_cons, List.length_append, length_pname] at fits
    have ns : nsv s = (s.getD []).length := int_of_lt (by omega) (by omega)
    unfold putStrings
    dsimp only
    rw [ns, if_neg (by simp only [bit16sz]; omega), u32_nat (by omega), Int.toNat_natCast, List.take_length,
      List.append_assoc, ih (by omega)]
    · rw [List.flatMap_cons, List.append_assoc]
      rfl
    · rw [List.length_append, List.length_append, length_pbit16]
      omega

theorem length_fixed (d : Dir) : d.fixed.length = 39 := by
  simp only [Dir.fixed, List.length_append, length_pbit8, length_pbit16, length_pbit32, length_pbit64]

/-- What `convD2M` stores in a buffer that is large enough. -/
theorem convD2M_eq (small : statfixlen + d.total < 65538) (fits : statfixlen + d.total ≤ m) :
    convD2M d m =
      (statfixlen + d.total, pbit16 (statfixlen + d.total - 2) ++ d.fixed ++ d.sv.flatMap pname) := by
  have length : (d.sv.flatMap pname).length = 2 * 4 + d.total := length_flatMap_pname d.sv
  have head : (pbit16 (statfixlen + d.total - 2) ++ d.fixed).length = 41 := by
    rw [List.length_append, length_pbit16, length_fixed]
  have fix : statfixlen = 49 := rfl
  have count : ((statfixlen + d.total : Nat) : Int) - bit16sz = ((statfixlen + d.total - 2 : Nat) : Int) := by
    simp only [bit16sz]
    omega
  have size : u32 ((statfixlen + d.total : Nat) : Int) = statfixlen + d.total := u32_nat (by omega)
  have rest : u32 ((statfixlen + d.total - 2 : Nat) : Int) = statfixlen + d.total - 2 := u32_nat (by omega)
  have room : ¬m < bit16sz := by
    simp only [bit16sz]
    omega
  unfold convD2M
  dsimp only
  rw [if_neg room, ss_eq small, count, size, rest, if_neg (not_lt.mpr fits)]
  have put : putStrings m d.sv (pbit16 (statfixlen + d.total - 2) ++ d.fixed) =
      (true, pbit16 (statfixlen + d.total - 2) ++ d.fixed ++ d.sv.flatMap pname) :=
    putStrings_eq (by unfold Dir.total at small; omega) (by rw [head, length]; omega)
  have whole : (pbit16 (statfixlen + d.total - 2) ++ d.fixed ++ d.sv.flatMap pname).length = statfixlen + d.total := by
    rw [List.length_append, head, length]
    omega
  rw [put]
  dsimp only
  rw [whole, if_neg]
  rintro (no | other)
  · nomatch no
  · exact other rfl

section Holds

theorem read_of_holds {bytes : List UInt8} (holds : Holds buf p bytes) (fits : p + bytes.length ≤ m) :
    read buf m p bytes.length = some bytes := by
  rw [read, if_pos fits, readBytes_of_holds holds]

theorem gbit_of_holds {k : Nat} (holds : Holds buf p (leBytes k v)) (fits : p + k ≤ m) (less : v < 256 ^ k) :
    gbit buf m p k = some v := by
  have length := length_leBytes k v
  have bytes := read_of_holds (m := m) holds (by omega)
  rw [length] at bytes
  rw [gbit, bytes, Option.map_some, leNat_leBytes, Nat.mod_eq_of_lt less]

/-- The loops over the strings, where they are as `convD2M` stores them. -/
theorem checkStrings_of_holds (holds : Holds buf p (sv.flatMap pname)) (fits : p + (sv.flatMap pname).length ≤ m)
    (small : ∀ s ∈ sv, (s.getD []).length < 65536) :
    checkStrings buf m sv.length p = some (some (p + (sv.flatMap pname).length)) := by
  induction sv generalizing p with
  | nil => rfl
  | cons s sv ih =>
    rw [List.flatMap_cons, List.length_append, length_pname] at fits
    obtain ⟨first, rest⟩ := holds_append.mp (List.flatMap_cons ▸ holds)
    have count := gbit_of_holds (holds_append.mp first).1 (m := m) (by omega) (small s List.mem_cons_self)
    rw [length_pname, ← Nat.add_assoc] at rest
    rw [List.length_cons, checkStrings, if_neg (by simp only [bit16sz]; omega)]
    dsimp only [bit16sz]
    rw [count]
    refine (ih rest (by omega) fun s member => small s (List.mem_cons_of_mem _ member)).trans ?_
    rw [List.flatMap_cons, List.length_append, length_pname]
    congr 2
    omega

/-- The bytes before the first zero. -/
def cut (t : List UInt8) : List UInt8 := t.takeWhile (· ≠ 0)

theorem cut_plain {t : List UInt8} (plain : 0 ∉ t) : cut t = t :=
  List.takeWhile_eq_self_iff.mpr fun _ member => decide_eq_true fun same => plain (same ▸ member)

theorem cstr_append (t r out : List UInt8) : cstr (out ++ t ++ [0] ++ r) out.length = cut t := by
  rw [cstr, List.append_assoc, List.append_assoc, List.drop_left, cut, List.takeWhile_append]
  split
  · rename_i whole
    have zero : ([0] ++ r).takeWhile (· ≠ 0) = [] := rfl
    rw [zero, List.append_nil]
    exact (List.takeWhile_prefix _).eq_of_length whole |>.symm
  · rfl

theorem getStrings_step {i : Nat} {s : Strs} (count : gbit buf m s.p bit16sz = some n)
    (fits : s.p + bit16sz + n ≤ m) : getStrings buf m strs (i + 1) s =
      (Strs.take buf m strs n { s with p := s.p + bit16sz }).bind (getStrings buf m strs i) := by
  rw [getStrings, if_neg (by omega), count]
  exact if_neg (by omega)

theorem getStrings_of_holds {o : List UInt8} {k : List Nat} (holds : Holds buf p (sv.flatMap pname))
    (fits : p + (sv.flatMap pname).length ≤ m) (small : ∀ s ∈ sv, (s.getD []).length < 65536) :
    ∃ o' k', getStrings buf m true sv.length ⟨p, o, k⟩ =
        some (some ⟨p + (sv.flatMap pname).length, o ++ o', k ++ k'⟩) ∧
      ∀ i (h : i < sv.length), ∃ off, k'[i]? = some off ∧ cstr (o ++ o') off = cut ((sv[i]).getD []) := by
  induction sv generalizing p o k with
  | nil => exact ⟨[], [], by simp [getStrings], fun i less => nomatch less⟩
  | cons s sv ih =>
    rw [List.flatMap_cons, List.length_append, length_pname] at fits
    obtain ⟨first, rest⟩ := holds_append.mp (List.flatMap_cons ▸ holds)
    obtain ⟨number, text⟩ := holds_append.mp first
    have count : gbit buf m p bit16sz = some (s.getD []).length :=
      gbit_of_holds (k := 2) number (by omega) (small s List.mem_cons_self)
    rw [length_pbit16] at text
    have bytes := read_of_holds (m := m) text (by omega)
    rw [length_pname, ← Nat.add_assoc] at rest
    obtain ⟨o', k', ran, texts⟩ := ih (o := o ++ s.getD [] ++ [0]) (k := k ++ [o.length]) rest
      (by omega) fun s member => small s (List.mem_cons_of_mem _ member)
    refine ⟨s.getD [] ++ [0] ++ o', o.length :: k', ?_, fun i less => ?_⟩
    · have room : p + bit16sz + (s.getD []).length ≤ m := by
        simp only [bit16sz]
        omega
      have taken : Strs.take buf m true (s.getD []).length ⟨p + bit16sz, o, k⟩ =
          some ⟨p + 2 + (s.getD []).length, o ++ s.getD [] ++ [0], k ++ [o.length]⟩ := by
        rw [Strs.take, if_pos rfl]
        exact congrArg (Option.bind · _) bytes
      rw [List.length_cons, getStrings_step count room, taken, Option.bind_some, ran]
      rw [List.flatMap_cons, List.length_append, length_pname]
      simp only [List.append_assoc, List.cons_append, List.nil_append, Nat.add_assoc]
    · cases i with
      | zero =>
        refine ⟨o.length, rfl, ?_⟩
        have here := cstr_append (s.getD []) o' o
        simpa only [List.append_assoc, List.getElem_cons_zero] using here
      | succ i =>
        obtain ⟨off, there, same⟩ := texts i (by rw [List.length_cons] at less; omega)
        refine ⟨off, there, ?_⟩
        simpa only [List.append_assoc, List.getElem_cons_succ] using same

end Holds

section Fixed

theorem gbit16_of_holds {v : UInt16} (holds : Holds buf p (pbit16 v.toNat)) (fits : p + 2 ≤ m) :
    gbit buf m p bit16sz = some v.toNat := gbit_of_holds (k := 2) holds fits v.toNat_lt

theorem gbit8_of_holds {v : UInt8} (holds : Holds buf p (pbit8 v.toNat)) (fits : p + 1 ≤ m) :
    gbit buf m p bit8sz = some v.toNat := gbit_of_holds (k := 1) holds fits v.toNat_lt

theorem gbit32_of_holds {v : UInt32} (holds : Holds buf p (pbit32 v.toNat)) (fits : p + 4 ≤ m) :
    gbit buf m p bit32sz = some v.toNat := gbit_of_holds (k := 4) holds fits v.toNat_lt

theorem gbit64_of_holds {v : UInt64} (holds : Holds buf p (pbit64 v.toNat)) (fits : p + 8 ≤ m) :
    gbit buf m p bit64sz = some v.toNat := gbit_of_holds (k := 8) holds fits v.toNat_lt

/-- The fields of fixed size are read as they have been stored. -/
theorem getFixed_of_holds (holds : Holds buf p d.fixed) (fits : p + 39 ≤ m) (d₀ : Dir) :
    getFixed buf m p d₀ = some (p + 39,
      { d with name := d₀.name, uid := d₀.uid, gid := d₀.gid, muid := d₀.muid }) := by
  unfold Dir.fixed at holds
  simp only [holds_append, length_pbit8, length_pbit16, length_pbit32, length_pbit64] at holds
  obtain ⟨type, dev, qtype, vers, path, mode, atime, mtime, length⟩ := holds
  unfold getFixed
  dsimp only [bit8sz, bit16sz, bit32sz, bit64sz]
  have type' := gbit16_of_holds (m := m) type (by omega)
  have dev' := gbit32_of_holds (m := m) dev (by omega)
  have qtype' := gbit8_of_holds (m := m) qtype (by omega)
  have vers' := gbit32_of_holds (m := m) vers (by omega)
  have path' := gbit64_of_holds (m := m) path (by omega)
  have mode' := gbit32_of_holds (m := m) mode (by omega)
  have atime' := gbit32_of_holds (m := m) atime (by omega)
  have mtime' := gbit32_of_holds (m := m) mtime (by omega)
  have length' := gbit64_of_holds (m := m) length (by omega)
  simp only [bit8sz, bit16sz, bit32sz, bit64sz] at type' dev' qtype' vers' path' mode' atime' mtime' length'
  simp only [type', dev', qtype', vers', path', mode', atime', mtime', length', Option.bind_eq_bind, Option.bind_some,
    UInt8.ofNat_toNat, UInt16.ofNat_toNat, UInt32.ofNat_toNat, UInt64.ofNat_toNat]
  rfl

end Fixed

section Accepted

theorem gbit_inside (p k : Nat) (fits : p + k ≤ m) : gbit buf m p k = some (leNat (readBytes buf p k)) := by
  rw [gbit, read, if_pos fits, Option.map_some]

theorem getFixed_inside (buf : ByteMem) (p : Nat) (fits : p + 39 ≤ m) (d : Dir) :
    ∃ d', getFixed buf m p d = some (p + 39, d') := by
  unfold getFixed
  simp only [bit8sz, bit16sz, bit32sz, bit64sz]
  simp (disch := omega) only [gbit_inside, Option.bind_eq_bind, Option.bind_some]
  exact ⟨_, rfl⟩

theorem checkStrings_le {i e : Nat} (ends : checkStrings buf m i p = some (some e)) : p ≤ e := by
  induction i generalizing p with
  | zero => cases ends; exact le_refl _
  | succ i ih =>
    rw [checkStrings] at ends
    split at ends
    · nomatch ends
    · obtain ⟨n, -, rest⟩ := Option.bind_eq_some_iff.mp ends
      exact le_trans (by omega) (ih rest)

/-- Where `statcheck` has found the strings, `convM2D` finds them. -/
theorem getStrings_of_check {i : Nat} (strs : Bool) (s : Strs) (ends : checkStrings buf m i s.p = some (some m)) :
    ∃ s', getStrings buf m strs i s = some (some s') ∧ s'.p = m := by
  induction i generalizing s with
  | zero => exact ⟨s, rfl, Option.some.inj (Option.some.inj ends)⟩
  | succ i ih =>
    rw [checkStrings] at ends
    split at ends
    · nomatch ends
    · obtain ⟨n, count, rest⟩ := Option.bind_eq_some_iff.mp ends
      have room := checkStrings_le rest
      rw [getStrings_step count room]
      unfold Strs.take
      cases strs with
      | false => exact ih _ rest
      | true =>
        rw [if_pos rfl, read, if_pos room]
        exact ih _ rest

end Accepted

/-- Nothing changes where the four strings are there. -/
theorem named_eq (given : ∀ s ∈ d.sv, s ≠ none) : d.named = d := by
  have some_ {s : Option (List UInt8)} (member : s ∈ d.sv) : some (s.getD []) = s := by
    obtain ⟨t, rfl⟩ := Option.ne_none_iff_exists'.mp (given s member)
    rfl
  have name : some (d.name.getD []) = d.name := some_ (by simp [Dir.sv])
  have uid : some (d.uid.getD []) = d.uid := some_ (by simp [Dir.sv])
  have gid : some (d.gid.getD []) = d.gid := some_ (by simp [Dir.sv])
  have muid : some (d.muid.getD []) = d.muid := some_ (by simp [Dir.sv])
  rw [Dir.named, name, uid, gid, muid]

theorem string_of_text {out t : List UInt8} {offs : List Nat} {i off : Nat} (there : offs[i]? = some off)
    (text : cstr out off = t) : Strs.string true ⟨p, out, offs⟩ i = some t := by
  rw [Strs.string, if_pos rfl, List.getD_eq_getElem?_getD, there, Option.getD_some, text]

/-- The bytes of a `Dir`. -/
def Dir.bytes (d : Dir) : List UInt8 := pbit16 (statfixlen + d.total - 2) ++ d.fixed ++ d.sv.flatMap pname

theorem length_bytes (d : Dir) : d.bytes.length = statfixlen + d.total := by
  have fix : statfixlen = 49 := rfl
  have length : (d.sv.flatMap pname).length = 2 * 4 + d.total := length_flatMap_pname d.sv
  rw [Dir.bytes, List.length_append, List.length_append, length_pbit16, length_fixed, length]
  omega

/-- What `convD2M` stores in a buffer that has room. -/
def Dir.encoding (d : Dir) : List UInt8 := (convD2M d (statfixlen + d.total)).2

theorem encoding_eq (small : statfixlen + d.total < 65538) : d.encoding = d.bytes := by
  rw [Dir.encoding, convD2M_eq small le_rfl]
  rfl

theorem length_string_lt (small : statfixlen + d.total < 65538) : ∀ s ∈ d.sv, (s.getD []).length < 65536 :=
  fun s member => by
    have part := List.le_sum_of_mem (List.mem_map_of_mem (f := fun s => (s.getD []).length) member)
    have fix : statfixlen = 49 := rfl
    unfold Dir.total at small
    omega

theorem statcheck_of_holds (small : statfixlen + d.total < 65538) (holds : Holds buf 0 d.bytes) :
    statcheck buf (statfixlen + d.total) = some 0 := by
  have fix : statfixlen = 49 := rfl
  have length : (d.sv.flatMap pname).length = 2 * 4 + d.total := length_flatMap_pname d.sv
  obtain ⟨head, strings⟩ := holds_append.mp holds
  obtain ⟨number, -⟩ := holds_append.mp head
  rw [List.length_append, length_pbit16, length_fixed] at strings
  have count : gbit buf (statfixlen + d.total) 0 bit16sz = some (statfixlen + d.total - 2) :=
    gbit_of_holds (k := 2) number (by omega) (by omega)
  have checked := checkStrings_of_holds (m := statfixlen + d.total) strings (by omega) (length_string_lt small)
  rw [length] at checked
  unfold statcheck
  rw [if_neg (by omega), count]
  dsimp only [Option.bind_eq_bind, Option.bind_some]
  rw [if_neg (by simp only [bit16sz]; omega)]
  refine (congrArg (Option.bind · _) checked).trans ?_
  dsimp only [Option.bind_some]
  rw [if_neg (by omega)]
  rfl

/-- The `Dir` with its strings as C strings. -/
def Dir.cut (d : Dir) : Dir :=
  { d with
    name := some (Lib9.cut (d.name.getD [])), uid := some (Lib9.cut (d.uid.getD []))
    gid := some (Lib9.cut (d.gid.getD [])), muid := some (Lib9.cut (d.muid.getD [])) }

theorem convM2D_of_holds (small : statfixlen + d.total < 65538) (holds : Holds buf 0 d.bytes) (d₀ : Dir) :
    convM2D buf (statfixlen + d.total) d₀ true = some (statfixlen + d.total, d.cut) := by
  have fix : statfixlen = 49 := rfl
  have length : (d.sv.flatMap pname).length = 2 * 4 + d.total := length_flatMap_pname d.sv
  obtain ⟨head, strings⟩ := holds_append.mp holds
  obtain ⟨-, fixed⟩ := holds_append.mp head
  rw [List.length_append, length_pbit16, length_fixed] at strings
  rw [length_pbit16] at fixed
  obtain ⟨out, offs, ran, texts⟩ := getStrings_of_holds (m := statfixlen + d.total) (o := []) (k := []) strings
    (by omega) (length_string_lt small)
  have numbers := getFixed_of_holds (m := statfixlen + d.total) fixed (by omega) d₀
  rw [convM2D, if_neg (by omega)]
  refine (congrArg (Option.bind · _) numbers).trans ?_
  refine (congrArg (Option.bind · _) ran).trans ?_
  have four : d.sv.length = 4 := rfl
  obtain ⟨_, at₀, name⟩ := texts 0 (by omega)
  obtain ⟨_, at₁, uid⟩ := texts 1 (by omega)
  obtain ⟨_, at₂, gid⟩ := texts 2 (by omega)
  obtain ⟨_, at₃, muid⟩ := texts 3 (by omega)
  have last : 0 + 2 + 39 + (d.sv.flatMap pname).length = statfixlen + d.total := by omega
  rw [List.nil_append] at name uid gid muid
  rw [Option.bind_some, last, List.nil_append, List.nil_append]
  have name' : Strs.string true ⟨statfixlen + d.total, out, offs⟩ 0 = some (Lib9.cut (d.name.getD [])) :=
    string_of_text at₀ name
  have uid' : Strs.string true ⟨statfixlen + d.total, out, offs⟩ 1 = some (Lib9.cut (d.uid.getD [])) :=
    string_of_text at₁ uid
  have gid' : Strs.string true ⟨statfixlen + d.total, out, offs⟩ 2 = some (Lib9.cut (d.gid.getD [])) :=
    string_of_text at₂ gid
  have muid' : Strs.string true ⟨statfixlen + d.total, out, offs⟩ 3 = some (Lib9.cut (d.muid.getD [])) :=
    string_of_text at₃ muid
  simp only [Strs.into, name', uid', gid', muid', Dir.cut]
  rfl

theorem cut_of_plain (plain : ∀ s ∈ d.sv, 0 ∉ s.getD []) : d.cut = d.named := by
  unfold Dir.cut Dir.named
  rw [cut_plain (plain d.name (by simp [Dir.sv])), cut_plain (plain d.uid (by simp [Dir.sv])),
    cut_plain (plain d.gid (by simp [Dir.sv])), cut_plain (plain d.muid (by simp [Dir.sv]))]

/-- What `statcheck` accepts, `convM2D` takes whole. -/
theorem convM2D_of_statcheck (accepted : statcheck buf n = some 0) (d₀ : Dir) (strs : Bool) :
    ∃ d, convM2D buf n d₀ strs = some (n, d) := by
  have fix : statfixlen = 49 := rfl
  unfold statcheck at accepted
  split at accepted
  · nomatch accepted
  rename_i enough
  obtain ⟨_, -, rest⟩ := Option.bind_eq_some_iff.mp accepted
  split at rest
  · nomatch rest
  obtain ⟨o, ran, ends⟩ := Option.bind_eq_some_iff.mp rest
  cases o with
  | none => nomatch ends
  | some e =>
    dsimp only at ends
    by_cases last : e = n
    swap
    · rw [if_pos last] at ends
      nomatch ends
    rw [last] at ran
    obtain ⟨d, numbers⟩ := getFixed_inside (m := n) buf bit16sz (by simp only [bit16sz]; omega) d₀
    obtain ⟨s, strings, here⟩ := getStrings_of_check strs ⟨bit16sz + 39, [], []⟩ ran
    rw [convM2D, if_neg enough]
    refine ⟨s.into strs d, (congrArg (Option.bind · _) numbers).trans ((congrArg (Option.bind · _) strings).trans ?_)⟩
    exact congrArg (fun p => some (p, s.into strs d)) here

/-- `convD2M`, `statcheck` and `convM2D` agree: a `Dir` that is stored is accepted and comes back, and in a buffer that
is accepted `convM2D` reads no byte beyond it and ends at its end. -/
theorem dir_codec :
    (∀ (d : Dir) (nbuf : Nat), (∀ s ∈ d.sv, 0 ∉ s.getD []) → statfixlen + d.total < 65536 → sizeD2M d ≤ nbuf →
      ∃ bytes, convD2M d nbuf = (sizeD2M d, bytes) ∧ bytes.length = sizeD2M d ∧
        ∀ buf, Holds buf 0 bytes → statcheck buf (sizeD2M d) = some 0 ∧
          ∀ d₀, convM2D buf (sizeD2M d) d₀ true = some (sizeD2M d, d.named)) ∧
    (∀ d : Dir, (∀ s ∈ d.sv, s ≠ none) → d.named = d) ∧
    ∀ (buf : ByteMem) (nbuf : Nat), statcheck buf nbuf = some 0 →
      ∀ d₀ strs, ∃ d, convM2D buf nbuf d₀ strs = some (nbuf, d) := by
  refine ⟨fun d nbuf plain small fits => ?_, fun d given => named_eq given, fun buf nbuf accepted =>
    convM2D_of_statcheck accepted⟩
  have small' : statfixlen + d.total < 65538 := by omega
  rw [sizeD2M_eq small'] at fits ⊢
  exact ⟨d.bytes, convD2M_eq small' fits, length_bytes d,
    fun buf holds => ⟨statcheck_of_holds small' holds, cut_of_plain plain ▸ convM2D_of_holds small' holds⟩⟩

def sampleDir : Dir where
  type := 0x4D
  dev := 1
  qid := ⟨0x123456789A, 7, 0x80⟩
  mode := 0o644
  atime := 10
  mtime := 20
  length := -1
  name := some [0x61, 0x62]
  uid := some [0x75]
  gid := some []
  muid := some [0x6D]

/-- A buffer of 53 bytes of which the last three strings are empty. -/
def sampleStat : ByteMem := fun i => if i = 0 then 51 else if i = 41 then 4 else if 43 ≤ i ∧ i < 47 then 0x61 else 0

theorem dir_codec_sample :
    (∃ bytes, convD2M sampleDir 60 = (sizeD2M sampleDir, bytes) ∧ bytes.length = sizeD2M sampleDir ∧
      ∀ buf, Holds buf 0 bytes → statcheck buf (sizeD2M sampleDir) = some 0 ∧
        ∀ d₀, convM2D buf (sizeD2M sampleDir) d₀ true = some (sizeD2M sampleDir, sampleDir.named)) ∧
    sampleDir.named = sampleDir ∧ statcheck sampleStat 53 = some 0 ∧
    ∃ d, convM2D sampleStat 53 sampleDir true = some (53, d) := by
  have accepted : statcheck sampleStat 53 = some 0 := by decide
  exact ⟨dir_codec.1 sampleDir 60 (by decide) (by decide) (by decide),
    dir_codec.2.1 sampleDir (by decide), accepted, dir_codec.2.2 sampleStat 53 accepted sampleDir true⟩

end Inferno.Lib9
