import Inferno.Strings.Text
import Inferno.Strings.Utf8

namespace Inferno.Strings

open Lib

/-- `cvtca`: the bytes of the array. What is not written of a new one is `junk`. -/
def arrayOf (junk : UInt8) : Option Str → List UInt8
  | none => []
  | some x => if x.len < 0 then cvtca junk x.text else readBytes x.data 0 x.len.toNat

/-- The characters of a string that may be nil. -/
def textOf : Option Str → List Nat
  | none => []
  | some x => x.text

/-- `chartorune` at `p`, where only the bytes of `cs` may be read: `none` where it reads another. -/
def chartoruneLoopIn (cs : List UInt8) (p c₀ : Nat) : Nat → Nat → Nat → Option (Nat × Nat)
  | 0, _, _ => some (runeerror, 1)
  | fuel + 1, i, l => do
    let b ← cs[p + i]?
    let c := b.toNat ^^^ 0x80
    if c &&& 0xC0 ≠ 0 then return (runeerror, 1)
    let l := l <<< 6 ||| c
    if c₀ < leading (i + 2) then
      let l := l &&& runeX (i + 1)
      if i = 1 ∧ (c₀ < leading 2 ∨ l ≤ runeX 0) then return (runeerror, 1)
      if i ≠ 1 ∧ (l ≤ runeX i ∨ l > runemax) then return (runeerror, 1)
      if i = 2 ∧ 0xD800 ≤ l ∧ l ≤ 0xDFFF then return (runeerror, 1)
      return (l, i + 1)
    chartoruneLoopIn cs p c₀ fuel (i + 1) l

def chartoruneIn (cs : List UInt8) (p : Nat) : Option (Nat × Nat) := do
  let b ← cs[p]?
  let c := b.toNat
  if c < 0x80 then return (c, 1)
  chartoruneLoopIn cs p c (utfmax - 1) 1 c

def fullruneIn (cs : List UInt8) (p n : Nat) : Option Bool := do
  if n = 0 then return false
  let b ← cs[p]?
  let c := b.toNat
  if c < 0x80 then return true
  if c < leading 3 then return n ≥ 2
  if c < leading 4 then return n ≥ 3
  return n ≥ utfmax

/-- Whether the bytes from `p` on are enough for a rune. -/
def wholeIn (cs : List UInt8) (p : Nat) : Option Bool :=
  if p + utfmax ≤ cs.length then some true else fullruneIn cs p (cs.length - p)

/-- The loop of `c2string` that counts the runes from `p` on. -/
def countRunesIn (cs : List UInt8) : Nat → Nat → Option Nat
  | 0, _ => some 0
  | fuel + 1, p => do
    if p ≥ cs.length then return 0
    let b ← cs[p]?
    if b.toNat < 0x80 then return (← countRunesIn cs fuel (p + 1)) + 1
    if ← wholeIn cs p then
      let (_, n) ← chartoruneIn cs p
      return (← countRunesIn cs fuel (p + n)) + 1
    return 0

/-- The loop that decodes `nc` runes. -/
def decodeRunesIn (cs : List UInt8) : Nat → Nat → Option (List Nat)
  | 0, _ => some []
  | nc + 1, p => do
    let (r, n) ← chartoruneIn cs p
    return r :: (← decodeRunesIn cs nc (p + n))

/-- `c2string` with its reads checked: the characters of the string. -/
def c2stringIn (cs : List UInt8) : Option (List Nat) := do
  match cs.findIdx? (fun b => b.toNat ≥ 0x80) with
  | none => return cs.map UInt8.toNat
  | some p => decodeRunesIn cs (p + (← countRunesIn cs cs.length p)) 0

variable {cs : List UInt8} {p n i l fuel : Nat}

/-- The memory from `p` on. -/
def from_ (cs : List UInt8) (p : Nat) : ByteMem := fun i => ofBytes cs (p + i)

theorem get_from (inside : p + i < cs.length) : cs[p + i]? = some (from_ cs p i) := by
  rw [List.getElem?_eq_getElem inside, from_, ofBytes, List.getD_eq_getElem]

theorem chartoruneLoopIn_eq (fuel i l : Nat)
    (room : ∀ j, i ≤ j → j < i + fuel → (j = i ∨ leading (j + 1) ≤ (from_ cs p 0).toNat) → p + j < cs.length) :
    chartoruneLoopIn cs p (from_ cs p 0).toNat fuel i l = some (chartoruneLoop (from_ cs p) fuel i l) := by
  induction fuel generalizing i l with
  | zero => rfl
  | succ fuel ih =>
    rw [chartoruneLoopIn, get_from (room i (Nat.le_refl i) (by omega) (Or.inl rfl)), chartoruneLoop]
    simp only [Option.bind_eq_bind, Option.bind_some]
    split
    · rfl
    · split
      · split
        · rfl
        · split
          · rfl
          · split
            · rfl
            · rfl
      · rename_i far
        refine ih _ _ fun j low high reached => room j (by omega) (by omega) (Or.inr ?_)
        rcases reached with rfl | reached
        · exact not_lt.mp far
        · exact reached

/-- Where a rune is there as a whole, or four more bytes, `chartorune` does not leave the text. -/
theorem chartoruneIn_eq (inside : p < cs.length)
    (whole : p + utfmax ≤ cs.length ∨ fullrune (from_ cs p) (cs.length - p) = true) :
    chartoruneIn cs p = some (chartorune (from_ cs p)) := by
  have first : cs[p]? = some (from_ cs p 0) := get_from (i := 0) inside
  rw [chartoruneIn, first, chartorune]
  simp only [Option.bind_eq_bind, Option.bind_some]
  split
  · rfl
  rename_i high
  refine chartoruneLoopIn_eq _ _ _ fun j low less reached => ?_
  have four : utfmax = 4 := rfl
  rcases whole with room | full
  · omega
  · obtain ⟨-, three, four', -⟩ := leading_eq
    unfold fullrune at full
    dsimp only at full
    rw [if_neg (by omega), if_neg high, three, four', four] at full
    obtain rfl | rfl | rfl : j = 1 ∨ j = 2 ∨ j = 3 := by omega
    · split at full
      · have := of_decide_eq_true full
        omega
      · split at full
        · have := of_decide_eq_true full
          omega
        · have := of_decide_eq_true full
          omega
    · have reached : leading 3 ≤ (from_ cs p 0).toNat := reached.resolve_left (by decide)
      rw [if_neg (by omega)] at full
      split at full
      · have := of_decide_eq_true full
        omega
      · have := of_decide_eq_true full
        omega
    · have reached : leading 4 ≤ (from_ cs p 0).toNat := reached.resolve_left (by decide)
      rw [if_neg (by omega), if_neg (by omega)] at full
      have := of_decide_eq_true full
      omega

theorem fullruneIn_eq (inside : p < cs.length) (n : Nat) : fullruneIn cs p n = some (fullrune (from_ cs p) n) := by
  have first : cs[p]? = some (from_ cs p 0) := get_from (i := 0) inside
  rw [fullruneIn, fullrune, first]
  simp only [Option.bind_eq_bind, Option.bind_some]
  split
  · rfl
  · split
    · rfl
    · split
      · rfl
      · split
        · rfl
        · rfl

def Whole (cs : List UInt8) (p : Nat) : Prop :=
  p + utfmax ≤ cs.length ∨ fullrune (from_ cs p) (cs.length - p) = true

instance (cs : List UInt8) (p : Nat) : Decidable (Whole cs p) := inferInstanceAs (Decidable (_ ∨ _))

theorem wholeIn_eq (inside : p < cs.length) : wholeIn cs p = some (decide (Whole cs p)) := by
  unfold wholeIn
  split
  · rename_i room
    exact congrArg some (decide_eq_true (Or.inl room)).symm
  · rename_i short
    rw [fullruneIn_eq inside]
    refine congrArg some ?_
    rw [Bool.eq_iff_iff, decide_eq_true_eq]
    exact ⟨Or.inr, fun whole => whole.resolve_left short⟩

/-- One round of the counting loop. -/
theorem countRunes_step (fuel : Nat) : countRunes (ofBytes cs) cs.length (fuel + 1) p =
    if p ≥ cs.length then 0
    else if (from_ cs p 0).toNat < 0x80 then countRunes (ofBytes cs) cs.length fuel (p + 1) + 1
    else if Whole cs p then countRunes (ofBytes cs) cs.length fuel (p + (chartorune (from_ cs p)).2) + 1
    else 0 := by
  rw [countRunes]
  rfl

theorem countRunesIn_eq (fuel p : Nat) : countRunesIn cs fuel p = some (countRunes (ofBytes cs) cs.length fuel p) := by
  induction fuel generalizing p with
  | zero => rfl
  | succ fuel ih =>
    rw [countRunesIn, countRunes_step]
    by_cases past : p ≥ cs.length
    · rw [if_pos past, if_pos past]
      rfl
    have inside : p < cs.length := not_le.mp past
    have first : cs[p]? = some (from_ cs p 0) := get_from (i := 0) inside
    rw [if_neg past, if_neg past, first]
    simp only [Option.bind_eq_bind, Option.bind_some]
    by_cases low : (from_ cs p 0).toNat < 0x80
    · rw [if_pos low, if_pos low, ih]
      rfl
    · rw [if_neg low, if_neg low]
      rw [wholeIn_eq inside]
      simp only [Option.bind_some]
      by_cases whole : Whole cs p
      · rw [if_pos whole, decide_eq_true whole, if_pos rfl, chartoruneIn_eq inside whole]
        simp only [Option.bind_some, ih]
        rfl
      · rw [if_neg whole, decide_eq_false whole, if_neg Bool.false_ne_true]
        rfl

theorem chartoruneIn_ascii (inside : p < cs.length) (low : (from_ cs p 0).toNat < 0x80) :
    chartoruneIn cs p = some (chartorune (from_ cs p)) := by
  have first : cs[p]? = some (from_ cs p 0) := get_from (i := 0) inside
  rw [chartoruneIn, first, chartorune_one low]
  simp only [Option.bind_eq_bind, Option.bind_some]
  rw [if_pos low]
  rfl

theorem decode_step {nc : Nat} (taken : chartoruneIn cs p = some (chartorune (from_ cs p)))
    (rest : decodeRunesIn cs nc (p + (chartorune (from_ cs p)).2) =
      some (decodeRunes nc (from_ cs (p + (chartorune (from_ cs p)).2)))) :
    decodeRunesIn cs (nc + 1) p = some (decodeRunes (nc + 1) (from_ cs p)) := by
  have shift (n : Nat) : (fun i => from_ cs p (n + i)) = from_ cs (p + n) := by
    funext i
    rw [from_, from_, Nat.add_assoc]
  rw [decodeRunesIn, decodeRunes, taken]
  simp only [Option.bind_eq_bind, Option.bind_some]
  rw [rest, shift]
  rfl

/-- The runes that were counted are decoded from the same bytes. -/
theorem decodeRunesIn_counted (fuel p : Nat) :
    decodeRunesIn cs (countRunes (ofBytes cs) cs.length fuel p) p =
      some (decodeRunes (countRunes (ofBytes cs) cs.length fuel p) (from_ cs p)) := by
  induction fuel generalizing p with
  | zero => rfl
  | succ fuel ih =>
    rw [countRunes_step]
    split
    · rfl
    rename_i past
    have inside : p < cs.length := not_le.mp past
    split
    · rename_i low
      refine decode_step (chartoruneIn_ascii inside low) ?_
      rw [chartorune_one low]
      exact ih (p + 1)
    · split
      · rename_i whole
        exact decode_step (chartoruneIn_eq inside whole) (ih _)
      · rfl

/-- The ASCII characters before the first rune are decoded one by one. -/
theorem decodeRunesIn_ascii {nc : Nat} (k : Nat) {n : Nat} (ascii : ∀ i, n ≤ i → i < n + k → (ofBytes cs i).toNat < 0x80)
    (inside : n + k ≤ cs.length) (rest : decodeRunesIn cs nc (n + k) = some (decodeRunes nc (from_ cs (n + k)))) :
    decodeRunesIn cs (k + nc) n = some (decodeRunes (k + nc) (from_ cs n)) := by
  induction k generalizing n with
  | zero =>
    rw [Nat.zero_add]
    exact rest
  | succ k ih =>
    have low : (from_ cs n 0).toNat < 0x80 := ascii n (Nat.le_refl n) (by omega)
    rw [Nat.succ_add]
    refine decode_step (chartoruneIn_ascii (by omega) low) ?_
    rw [chartorune_one low]
    have next : n + (k + 1) = n + 1 + k := by omega
    rw [next] at rest ascii
    exact ih (fun i from_ below => ascii i (by omega) below) (by omega) rest

/-- `c2string` reads no byte outside the text. -/
theorem c2stringIn_eq (cs : List UInt8) : c2stringIn cs = some (runesOf cs) := by
  unfold c2stringIn runesOf runeCount
  cases found : cs.findIdx? (fun b => decide (b.toNat ≥ 0x80)) with
  | none => rfl
  | some p =>
    obtain ⟨inside, -, before⟩ := List.findIdx?_eq_some_iff_getElem.mp found
    have ascii : ∀ i, 0 ≤ i → i < 0 + p → (ofBytes cs i).toNat < 0x80 := by
      intro i _ less
      have low := before i (by omega)
      rw [ofBytes, List.getD_eq_getElem _ _ (by omega)]
      rw [decide_eq_true_eq] at low
      exact not_le.mp low
    have counted := @decodeRunesIn_counted cs cs.length p
    have all := decodeRunesIn_ascii p ascii
      (by omega) (by rw [Nat.zero_add]; exact counted)
    have whole : from_ cs 0 = ofBytes cs := funext fun i => by rw [from_, Nat.zero_add]
    rw [whole] at all
    simp only [countRunesIn_eq, Option.bind_eq_bind, Option.bind_some]
    exact all

section Arrays

variable {c : Nat} {s : List Nat} {junk : UInt8}

/-- A rune that UTF-8 has not is written as the error rune. -/
theorem runetochar_error (bad : ¬Scalar c) : runetochar c = runeBytes runeerror 3 := by
  have large : ¬c ≤ runeX 0 ∧ ¬c ≤ runeX 2 := by
    obtain ⟨zero, two, -⟩ := runeX_eq
    unfold Scalar at bad
    have top : runemax = 0x10FFFF := rfl
    omega
  have replaced : (if 0xD800 ≤ (if c > runemax then runeerror else c) ∧ (if c > runemax then runeerror else c) ≤ 0xDFFF
      then runeerror else if c > runemax then runeerror else c) = runeerror := by
    by_cases past : c > runemax
    · rw [if_pos past]
      decide
    · unfold Scalar at bad
      rw [if_neg past, if_pos (by omega)]
  unfold runetochar
  rw [if_neg large.1, if_neg large.2]
  dsimp only
  rw [replaced]
  rfl

/-- `runenlen` counts the bytes that `runetochar` writes, but for runes that are too large. -/
theorem length_runetochar_iff : (runetochar c).length = runelen c ↔ c ≤ runemax := by
  by_cases scalar : Scalar c
  · exact iff_of_true (length_runetochar scalar) scalar.1
  · have top : runemax = 0x10FFFF := rfl
    rw [runetochar_error scalar, length_runeBytes 3 (by decide), runelen]
    unfold Scalar at scalar
    have large : ¬c ≤ runeX 0 ∧ ¬c ≤ runeX 2 := by
      obtain ⟨zero, two, -⟩ := runeX_eq
      omega
    rw [if_neg large.1, if_neg large.2, runeX_eq.2.2.1]
    split
    · exact iff_of_true rfl (by omega)
    · exact iff_of_false (by decide) (by omega)

theorem runenlen_iff : (s.flatMap runetochar).length = runenlen s ↔ ∀ c ∈ s, c ≤ runemax := by
  induction s with
  | nil => exact iff_of_true rfl fun _ none_ => nomatch none_
  | cons c s ih =>
    have first := @length_runetochar_le c
    have rest := @length_encoded_le s
    have total : runenlen (c :: s) = runelen c + runenlen s := List.sum_cons
    rw [List.flatMap_cons, List.length_append, total, List.forall_mem_cons, ← ih, ← length_runetochar_iff]
    omega

theorem cvtca_iff : cvtca junk s = s.flatMap runetochar ↔ ∀ c ∈ s, c ≤ runemax := by
  rw [← runenlen_iff]
  refine ⟨fun same => ?_, fun same => ?_⟩
  · have length := congrArg List.length same
    rw [cvtca, List.length_append, List.length_replicate] at length
    have most := @length_encoded_le s
    omega
  · rw [cvtca, same, Nat.sub_self, List.replicate_zero, List.append_nil]

theorem length_runetochar_pos : 0 < (runetochar c).length := by
  by_cases scalar : Scalar c
  · rw [length_runetochar scalar]
    exact runelen_pos
  · rw [runetochar_error scalar, length_runeBytes 3 (by decide)]
    decide

/-- Bytes are their own encoding when they are ASCII. -/
theorem ascii_iff (bytes : List UInt8) :
    bytes = (bytes.map UInt8.toNat).flatMap runetochar ↔ ∀ c ∈ bytes.map UInt8.toNat, c < 0x80 := by
  have longer : ∀ l : List UInt8, l.length ≤ ((l.map UInt8.toNat).flatMap runetochar).length ∧
      (l.length = ((l.map UInt8.toNat).flatMap runetochar).length → ∀ c ∈ l.map UInt8.toNat, c < 0x80) := by
    intro l
    induction l with
    | nil => exact ⟨Nat.le_refl 0, fun _ _ none_ => nomatch none_⟩
    | cons b l ih =>
      have some_ := @length_runetochar_pos b.toNat
      rw [List.map_cons, List.flatMap_cons, List.length_append, List.length_cons, List.forall_mem_cons]
      refine ⟨by omega, fun same => ⟨?_, ih.2 (by omega)⟩⟩
      by_contra high
      have two : (runetochar b.toNat).length = 2 := by
        obtain ⟨x, y, eq, -⟩ := bytes_two (c := b.toNat) (by omega) (by have := b.toNat_lt; omega)
        rw [eq]
        rfl
      omega
  refine ⟨fun same => (longer bytes).2 (congrArg List.length same), fun low => ?_⟩
  induction bytes with
  | nil => rfl
  | cons b bytes ih =>
    rw [List.map_cons, List.forall_mem_cons] at low
    rw [List.map_cons, List.flatMap_cons, runetochar_one low.1, UInt8.ofNat_toNat, ← ih low.2]
    rfl

theorem text_bytes {x : Str} (pos : 0 ≤ x.len) : x.text = (readBytes x.data 0 x.len.toNat).map UInt8.toNat := by
  refine x.text_eq (by rw [List.length_map, length_readBytes]; omega) fun i h => ?_
  rw [x.char_ascii pos, List.getElem_map, getElem_readBytes, Nat.zero_add]

/-- The strings that an array of byte holds: no rune above the largest, and no byte above ASCII in an ASCII string. -/
def Storable : Option Str → Prop
  | none => True
  | some x => ∀ c ∈ x.text, c ≤ runemax ∧ (0 ≤ x.len → c < 0x80)

/-- The array is the encoding of the characters, and gives the string back if all of these are scalar values. -/
def Converts (o : Option Str) : Prop :=
  (∀ junk, arrayOf junk o = (textOf o).flatMap runetochar) ∧
    ((∀ c ∈ textOf o, Scalar c) → ∀ junk, c2stringIn (arrayOf junk o) = some (textOf o))

theorem arrayOf_iff (o : Option Str) : (∀ junk, arrayOf junk o = (textOf o).flatMap runetochar) ↔ Storable o := by
  cases o with
  | none => exact iff_of_true (fun _ => rfl) trivial
  | some x =>
    by_cases neg : x.len < 0
    · have array (junk : UInt8) : arrayOf junk (some x) = cvtca junk x.text := if_pos neg
      refine ⟨fun same c member => ?_, fun storable junk => ?_⟩
      · exact ⟨cvtca_iff.mp ((array 0).symm.trans (same 0)) c member, fun pos => absurd neg (not_lt.mpr pos)⟩
      · exact (array junk).trans (cvtca_iff.mpr fun c member => (storable c member).1)
    · have pos : 0 ≤ x.len := not_lt.mp neg
      have array (junk : UInt8) : arrayOf junk (some x) = readBytes x.data 0 x.len.toNat := if_neg neg
      have ascii := ascii_iff (readBytes x.data 0 x.len.toNat)
      rw [← text_bytes pos] at ascii
      refine ⟨fun same c member => ?_, fun storable junk => ?_⟩
      · have low := ascii.mp ((array 0).symm.trans (same 0)) c member
        have top : runemax = 0x10FFFF := rfl
        exact ⟨by omega, fun _ => low⟩
      · exact (array junk).trans (ascii.mpr fun c member => (storable c member).2 pos)

/-- Strings and their arrays of byte, for every string there can be and every array. -/
theorem conversions_exact (o : Option Str) (bytes : List UInt8) :
    (Converts o ↔ Storable o) ∧ ∃ text, c2stringIn bytes = some text := by
  refine ⟨⟨fun converts => (arrayOf_iff o).mp converts.1, fun storable => ?_⟩, _, c2stringIn_eq bytes⟩
  have array := (arrayOf_iff o).mpr storable
  refine ⟨array, fun scalars junk => ?_⟩
  rw [c2stringIn_eq, array junk, ← @cvtca_scalars _ junk scalars, runesOf_cvtca scalars]

/-- The rune that is one too large takes four bytes of the array, of which three are written. -/
theorem conversion_lost : ¬Converts (some ⟨1, -1, 1, 64, fun i => [0, 0, 0x11, 0].getD i 0⟩) := by
  intro converts
  have storable := (arrayOf_iff _).mp converts.1 0x110000 (by decide)
  exact absurd storable.1 (by decide)

end Arrays

end Inferno.Strings
