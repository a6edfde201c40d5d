import Inferno.Strings.Ops

namespace Inferno.Strings

open Lib

/-- The `i` bytes of a rune that needs them. -/
def runeBytes (c i : Nat) : List UInt8 :=
  UInt8.ofNat (leading i ||| c >>> ((i - 1) * 6)) ::
    (List.range (i - 1)).map fun j => UInt8.ofNat (0x80 ||| (c >>> ((i - j - 2) * 6) &&& 0x3F))

/-- `runetochar`. -/
def runetochar (c : Nat) : List UInt8 :=
  if c ≤ runeX 0 then [UInt8.ofNat c]
  else if c ≤ runeX 2 then runeBytes c 2
  else
    let c := if c > runemax then runeerror else c
    let c := if 0xD800 ≤ c ∧ c ≤ 0xDFFF then runeerror else c
    if c ≤ runeX 3 then runeBytes c 3 else runeBytes c utfmax

/-- What `runenlen` adds up. -/
def runelen (c : Nat) : Nat :=
  if c ≤ runeX 0 then 1 else if c ≤ runeX 2 then 2 else if c ≤ runeX 3 then 3 else utfmax

def runenlen (s : List Nat) : Nat := (s.map runelen).sum

/-- `array of byte s`: `cvtca` without its heap. What is not written of the new array is `junk`. -/
def cvtca (junk : UInt8) (s : List Nat) : List UInt8 :=
  s.flatMap runetochar ++ List.replicate (runenlen s - (s.flatMap runetochar).length) junk

/-- `string a`: the runes that `c2string` stores. -/
def runesOf (bytes : List UInt8) : List Nat :=
  match runeCount bytes with
  | none => bytes.map UInt8.toNat
  | some nc => decodeRunes nc (ofBytes bytes)

/-- A rune that UTF-8 has. -/
def Scalar (c : Nat) : Prop := c ≤ runemax ∧ ¬(0xD800 ≤ c ∧ c ≤ 0xDFFF)

instance (c : Nat) : Decidable (Scalar c) := inferInstanceAs (Decidable (_ ∧ _))

variable {c n fuel p : Nat} {s : List Nat} {bytes more : List UInt8} {junk : UInt8}

theorem tail_bits : ∀ r < 64, (0x80 ||| r) = 128 + r ∧ (128 + r) ^^^ 0x80 = r ∧ r &&& 0xC0 = 0 := by decide

theorem tail_and (c : Nat) : c &&& 0x3F = c % 64 := Nat.and_two_pow_sub_one_eq_mod c 6

theorem shift_or {l r : Nat} (small : r < 64) : l <<< 6 ||| r = l * 64 + r := by
  rw [← Nat.shiftLeft_add_eq_or_of_lt (i := 6) small, Nat.shiftLeft_eq]

/-- A byte after the first. -/
theorem tail_byte (c : Nat) : (UInt8.ofNat (0x80 ||| (c &&& 0x3F))).toNat = 128 + c % 64 := by
  have small : c % 64 < 64 := Nat.mod_lt c (by decide)
  rw [tail_and, (tail_bits _ small).1, UInt8.toNat_ofNat']
  lia

theorem lead_two : ∀ r < 32, leading 2 ||| r = 192 + r := by decide

theorem lead_three : ∀ r < 16, leading 3 ||| r = 224 + r := by decide

theorem lead_four : ∀ r < 8, leading 4 ||| r = 240 + r := by decide

/-- The bytes of the runes of two, three and four bytes. -/
theorem bytes_two (low : 0x80 ≤ c) (high : c ≤ 0x7FF) :
    ∃ a b : UInt8, runetochar c = [a, b] ∧ a.toNat = 192 + c / 64 ∧ b.toNat = 128 + c % 64 := by
  have one : ¬c ≤ runeX 0 := by
    have eq : runeX 0 = 127 := rfl
    omega
  have two : c ≤ runeX 2 := high
  unfold runetochar
  rw [if_neg one, if_pos two]
  refine ⟨_, _, rfl, ?_, ?_⟩
  · rw [Nat.shiftRight_eq_div_pow, lead_two _ (by omega), UInt8.toNat_ofNat']
    omega
  · exact tail_byte c

theorem bytes_three (low : 0x800 ≤ c) (high : c ≤ 0xFFFF) (whole : ¬(0xD800 ≤ c ∧ c ≤ 0xDFFF)) :
    ∃ a b d : UInt8, runetochar c = [a, b, d] ∧ a.toNat = 224 + c / 4096 ∧ b.toNat = 128 + c / 64 % 64 ∧
      d.toNat = 128 + c % 64 := by
  have one : ¬c ≤ runeX 0 := by
    have eq : runeX 0 = 127 := rfl
    omega
  have two : ¬c ≤ runeX 2 := by
    have eq : runeX 2 = 2047 := rfl
    omega
  have max : ¬c > runemax := by
    have eq : runemax = 0x10FFFF := rfl
    omega
  have three : c ≤ runeX 3 := high
  unfold runetochar
  rw [if_neg one, if_neg two, if_neg max]
  dsimp only
  rw [if_neg whole, if_pos three]
  refine ⟨_, _, _, rfl, ?_, ?_, ?_⟩
  · rw [Nat.shiftRight_eq_div_pow, lead_three _ (by omega), UInt8.toNat_ofNat']
    omega
  · change (UInt8.ofNat (0x80 ||| (c >>> 6 &&& 0x3F))).toNat = _
    rw [Nat.shiftRight_eq_div_pow]
    exact tail_byte _
  · exact tail_byte c

theorem bytes_four (low : 0x10000 ≤ c) (high : c ≤ runemax) :
    ∃ a b d e : UInt8, runetochar c = [a, b, d, e] ∧ a.toNat = 240 + c / 262144 ∧ b.toNat = 128 + c / 4096 % 64 ∧
      d.toNat = 128 + c / 64 % 64 ∧ e.toNat = 128 + c % 64 := by
  have one : ¬c ≤ runeX 0 := by
    have eq : runeX 0 = 127 := rfl
    omega
  have two : ¬c ≤ runeX 2 := by
    have eq : runeX 2 = 2047 := rfl
    omega
  have three : ¬c ≤ runeX 3 := by
    have eq : runeX 3 = 65535 := rfl
    omega
  have max : runemax = 0x10FFFF := rfl
  unfold runetochar
  rw [if_neg one, if_neg two, if_neg (Nat.not_lt.mpr high)]
  dsimp only
  rw [if_neg (c := 0xD800 ≤ c ∧ c ≤ 0xDFFF) (by omega), if_neg three]
  refine ⟨_, _, _, _, rfl, ?_, ?_, ?_, ?_⟩
  · rw [Nat.shiftRight_eq_div_pow]
    change (UInt8.ofNat (leading 4 ||| c / 2 ^ ((4 - 1) * 6))).toNat = _
    rw [lead_four _ (by omega), UInt8.toNat_ofNat']
    omega
  · change (UInt8.ofNat (0x80 ||| (c >>> 12 &&& 0x3F))).toNat = _
    rw [Nat.shiftRight_eq_div_pow]
    exact tail_byte _
  · change (UInt8.ofNat (0x80 ||| (c >>> 6 &&& 0x3F))).toNat = _
    rw [Nat.shiftRight_eq_div_pow]
    exact tail_byte _
  · exact tail_byte c

/-- One more byte of a rune. -/
theorem loop_step {str : ByteMem} {i l r : Nat} (small : r < 64) (byte : (str i).toNat = 128 + r) :
    chartoruneLoop str (fuel + 1) i l =
      if (str 0).toNat < leading (i + 2) then
        let l := (l * 64 + r) &&& runeX (i + 1)
        if i = 1 ∧ ((str 0).toNat < leading 2 ∨ l ≤ runeX 0) then (runeerror, 1)
        else if i ≠ 1 ∧ (l ≤ runeX i ∨ l > runemax) then (runeerror, 1)
        else if i = 2 ∧ 0xD800 ≤ l ∧ l ≤ 0xDFFF then (runeerror, 1)
        else (l, i + 1)
      else chartoruneLoop str fuel (i + 1) (l * 64 + r) := by
  obtain ⟨-, bits, high⟩ := tail_bits r small
  rw [chartoruneLoop, byte, bits]
  dsimp only
  rw [if_neg (by rw [high]; exact fun no => no rfl), shift_or small]

theorem chartorune_one {str : ByteMem} (low : (str 0).toNat < 0x80) : chartorune str = ((str 0).toNat, 1) := by
  unfold chartorune
  rw [if_pos low]

/-- `chartorune` reads back what `runetochar` wrote. -/
theorem chartorune_runetochar (scalar : Scalar c) (str : ByteMem)
    (here : ∀ i (h : i < (runetochar c).length), str i = (runetochar c)[i]) :
    chartorune str = (c, (runetochar c).length) := by
  obtain ⟨max, whole⟩ := scalar
  have top : runemax = 0x10FFFF := rfl
  by_cases one : c ≤ 0x7F
  · have eq : runetochar c = [UInt8.ofNat c] := by
      unfold runetochar
      exact if_pos one
    rw [eq] at here ⊢
    have byte : (str 0).toNat = c := by
      rw [here 0 (by simp)]
      simp only [List.getElem_cons_zero, UInt8.toNat_ofNat']
      lia
    rw [chartorune_one (by lia), byte]
    rfl
  by_cases two : c ≤ 0x7FF
  · obtain ⟨a, b, eq, first, second⟩ := bytes_two (by lia) two
    rw [eq] at here ⊢
    have byte₀ : (str 0).toNat = 192 + c / 64 := by rw [here 0 (by simp)]; exact first
    have byte₁ : (str 1).toNat = 128 + c % 64 := by rw [here 1 (by simp)]; exact second
    unfold chartorune
    dsimp only
    rw [if_neg (by lia), show utfmax - 1 = 2 + 1 from rfl, loop_step (Nat.mod_lt _ (by decide)) byte₁, byte₀]
    have value : ((192 + c / 64) * 64 + c % 64) &&& runeX 2 = c := by
      rw [show runeX 2 = 2 ^ 11 - 1 from rfl, Nat.and_two_pow_sub_one_eq_mod]
      lia
    rw [value, show leading 2 = 192 from rfl, show leading (1 + 2) = 224 from rfl, show runeX 0 = 127 from rfl,
      if_pos (by lia), if_neg (by lia), if_neg (by lia), if_neg (by lia)]
    rfl
  by_cases three : c ≤ 0xFFFF
  · obtain ⟨a, b, d, eq, first, second, third⟩ := bytes_three (by lia) three whole
    rw [eq] at here ⊢
    have byte₀ : (str 0).toNat = 224 + c / 4096 := by rw [here 0 (by simp)]; exact first
    have byte₁ : (str 1).toNat = 128 + c / 64 % 64 := by rw [here 1 (by simp)]; exact second
    have byte₂ : (str 2).toNat = 128 + c % 64 := by rw [here 2 (by simp)]; exact third
    unfold chartorune
    dsimp only
    rw [if_neg (by lia), show utfmax - 1 = 2 + 1 from rfl, loop_step (Nat.mod_lt _ (by decide)) byte₁, byte₀,
      show leading (1 + 2) = 224 from rfl, if_neg (by lia), @loop_step 1 _ _ _ _ (Nat.mod_lt _ (by decide)) byte₂, byte₀]
    have value : (((224 + c / 4096) * 64 + c / 64 % 64) * 64 + c % 64) &&& runeX (1 + 1 + 1) = c := by
      rw [show runeX (1 + 1 + 1) = 2 ^ 16 - 1 from rfl, Nat.and_two_pow_sub_one_eq_mod]
      lia
    rw [value, show leading (1 + 1 + 2) = 240 from rfl, show runeX (1 + 1) = 2047 from rfl, if_pos (by lia),
      if_neg (by lia), if_neg (by lia), if_neg (by lia)]
    rfl
  · obtain ⟨a, b, d, e, eq, first, second, third, fourth⟩ := bytes_four (by lia) max
    rw [eq] at here ⊢
    have byte₀ : (str 0).toNat = 240 + c / 262144 := by rw [here 0 (by simp)]; exact first
    have byte₁ : (str 1).toNat = 128 + c / 4096 % 64 := by rw [here 1 (by simp)]; exact second
    have byte₂ : (str 2).toNat = 128 + c / 64 % 64 := by rw [here 2 (by simp)]; exact third
    have byte₃ : (str 3).toNat = 128 + c % 64 := by rw [here 3 (by simp)]; exact fourth
    unfold chartorune
    dsimp only
    rw [if_neg (by lia), show utfmax - 1 = 2 + 1 from rfl, loop_step (Nat.mod_lt _ (by decide)) byte₁, byte₀,
      show leading (1 + 2) = 224 from rfl, if_neg (by lia), @loop_step 1 _ _ _ _ (Nat.mod_lt _ (by decide)) byte₂, byte₀,
      show leading (1 + 1 + 2) = 240 from rfl, if_neg (by lia), @loop_step 0 _ _ _ _ (Nat.mod_lt _ (by decide)) byte₃, byte₀]
    have value : ((((240 + c / 262144) * 64 + c / 4096 % 64) * 64 + c / 64 % 64) * 64 + c % 64) &&&
        runeX (1 + 1 + 1 + 1) = c := by
      rw [show runeX (1 + 1 + 1 + 1) = 2 ^ 21 - 1 from rfl, Nat.and_two_pow_sub_one_eq_mod]
      lia
    rw [value, show leading (1 + 1 + 1 + 2) = 248 from rfl, show runeX (1 + 1 + 1) = 65535 from rfl, if_pos (by lia),
      if_neg (by lia), if_neg (by lia), if_neg (by lia)]
    rfl

theorem length_runeBytes (i : Nat) (some_ : 0 < i) : (runeBytes c i).length = i := by
  unfold runeBytes
  rw [List.length_cons, List.length_map, List.length_range]
  omega

theorem runelen_pos : 0 < runelen c := by
  unfold runelen
  split
  · decide
  split
  · decide
  split <;> decide

theorem length_runetochar_le : (runetochar c).length ≤ runelen c := by
  unfold runetochar runelen
  split
  · exact Nat.le_refl 1
  split
  · exact Nat.le_of_eq (length_runeBytes 2 (by decide))
  dsimp only
  generalize named : (if 0xD800 ≤ (if c > runemax then runeerror else c) ∧ (if c > runemax then runeerror else c) ≤ 0xDFFF
    then runeerror else if c > runemax then runeerror else c) = c'
  have small : c ≤ runeX 3 → c' ≤ runeX 3 := fun small => by
    rw [← named]
    split
    · decide
    split
    · decide
    · exact small
  by_cases low : c' ≤ runeX 3
  · rw [if_pos low, length_runeBytes 3 (by decide)]
    split <;> decide
  · rw [if_neg low, if_neg fun le => low (small le)]
    exact Nat.le_of_eq (length_runeBytes utfmax (by decide))

/-- The bytes of a rune of more than one byte. -/
theorem high_bytes (scalar : Scalar c) (large : ¬c < 0x80) {b : UInt8} (member : b ∈ runetochar c) : 0x80 ≤ b.toNat := by
  obtain ⟨max, whole⟩ := scalar
  by_cases two : c ≤ 0x7FF
  · obtain ⟨b₀, b₁, eq, first, second⟩ := bytes_two (by omega) two
    rw [eq, List.mem_cons, List.mem_singleton] at member
    rcases member with rfl | rfl <;> omega
  by_cases three : c ≤ 0xFFFF
  · obtain ⟨b₀, b₁, b₂, eq, first, second, third⟩ := bytes_three (by omega) three whole
    rw [eq, List.mem_cons, List.mem_cons, List.mem_singleton] at member
    rcases member with rfl | rfl | rfl <;> omega
  · obtain ⟨b₀, b₁, b₂, b₃, eq, first, second, third, fourth⟩ := bytes_four (by omega) max
    rw [eq, List.mem_cons, List.mem_cons, List.mem_cons, List.mem_singleton] at member
    rcases member with rfl | rfl | rfl | rfl <;> omega

theorem runetochar_one (small : c < 0x80) : runetochar c = [UInt8.ofNat c] := if_pos (Nat.le_of_lt_succ small)

theorem length_runetochar (scalar : Scalar c) : (runetochar c).length = runelen c := by
  obtain ⟨max, whole⟩ := scalar
  unfold runelen
  split
  · rename_i one
    unfold runetochar
    rw [if_pos one]
    rfl
  rename_i one
  have low : ¬c ≤ 127 := one
  split
  · rename_i two
    obtain ⟨a, b, eq, -⟩ := bytes_two (by omega) two
    rw [eq]
    rfl
  rename_i two
  have middle : ¬c ≤ 2047 := two
  split
  · rename_i three
    obtain ⟨a, b, d, eq, -⟩ := bytes_three (by omega) three whole
    rw [eq]
    rfl
  · rename_i three
    have high : ¬c ≤ 65535 := three
    obtain ⟨a, b, d, e, eq, -⟩ := bytes_four (by omega) max
    rw [eq]
    rfl

theorem length_encoded_le : (s.flatMap runetochar).length ≤ runenlen s := by
  unfold runenlen
  induction s with
  | nil => exact Nat.le_refl 0
  | cons c s ih =>
    rw [List.flatMap_cons, List.length_append, List.map_cons, List.sum_cons]
    exact Nat.add_le_add length_runetochar_le ih

@[simp] theorem length_cvtca : (cvtca junk s).length = runenlen s := by
  unfold cvtca
  rw [List.length_append, List.length_replicate]
  have le := length_encoded_le (s := s)
  omega

theorem length_encoded (scalars : ∀ c ∈ s, Scalar c) : (s.flatMap runetochar).length = runenlen s := by
  unfold runenlen
  induction s with
  | nil => rfl
  | cons c s ih =>
    rw [List.flatMap_cons, List.length_append, List.map_cons, List.sum_cons, length_runetochar (scalars c List.mem_cons_self),
      ih fun d member => scalars d (List.mem_cons_of_mem c member)]

theorem cvtca_scalars (scalars : ∀ c ∈ s, Scalar c) : cvtca junk s = s.flatMap runetochar := by
  unfold cvtca
  rw [length_encoded scalars, Nat.sub_self, List.replicate_zero, List.append_nil]

theorem ofBytes_append {i : Nat} (h : i < bytes.length) (pre : List UInt8) :
    ofBytes (pre ++ (bytes ++ more)) (pre.length + i) = bytes[i] := by
  unfold ofBytes
  rw [List.getD_eq_getElem?_getD, List.getElem?_append_right (Nat.le_add_right ..), Nat.add_sub_cancel_left,
    List.getElem?_append_left h, List.getElem?_eq_getElem h]
  rfl

/-- A rune that is all there. -/
theorem fullrune_runetochar (scalar : Scalar c) (large : ¬c < 0x80) {str : ByteMem}
    (here : ∀ i (h : i < (runetochar c).length), str i = (runetochar c)[i]) (enough : (runetochar c).length ≤ n) :
    fullrune str n = true := by
  obtain ⟨max, whole⟩ := scalar
  have top : runemax = 0x10FFFF := rfl
  unfold fullrune
  by_cases two : c ≤ 0x7FF
  · obtain ⟨a, b, eq, first, -⟩ := bytes_two (by lia) two
    rw [eq] at here enough
    have byte₀ : (str 0).toNat = 192 + c / 64 := by rw [here 0 (by simp)]; exact first
    have enough : 2 ≤ n := enough
    dsimp only
    rw [byte₀, if_neg (by lia), if_neg (by lia), show leading 3 = 224 from rfl, if_pos (by lia)]
    simpa using enough
  by_cases three : c ≤ 0xFFFF
  · obtain ⟨a, b, d, eq, first, -⟩ := bytes_three (by lia) three whole
    rw [eq] at here enough
    have byte₀ : (str 0).toNat = 224 + c / 4096 := by rw [here 0 (by simp)]; exact first
    have enough : 3 ≤ n := enough
    dsimp only
    rw [byte₀, if_neg (by lia), if_neg (by lia), show leading 3 = 224 from rfl, if_neg (by lia),
      show leading 4 = 240 from rfl, if_pos (by lia)]
    simpa using enough
  · obtain ⟨a, b, d, e, eq, first, -⟩ := bytes_four (by lia) max
    rw [eq] at here enough
    have byte₀ : (str 0).toNat = 240 + c / 262144 := by rw [here 0 (by simp)]; exact first
    have enough : 4 ≤ n := enough
    dsimp only
    rw [byte₀, if_neg (by lia), if_neg (by lia), show leading 3 = 224 from rfl, if_neg (by lia),
      show leading 4 = 240 from rfl, if_neg (by lia)]
    exact decide_eq_true enough

theorem countRunes_encoded (scalars : ∀ c ∈ s, Scalar c) : ∀ (pre : List UInt8) (fuel : Nat),
    (s.flatMap runetochar).length ≤ fuel → countRunes (ofBytes (pre ++ s.flatMap runetochar))
      (pre ++ s.flatMap runetochar).length fuel pre.length = s.length := by
  induction s with
  | nil =>
    intro pre fuel _
    rw [List.flatMap_nil, List.append_nil]
    cases fuel with
    | zero => rfl
    | succ fuel =>
      unfold countRunes
      exact if_pos (Nat.le_refl _)
  | cons c s ih =>
    intro pre fuel enough
    have scalar := scalars c List.mem_cons_self
    have length := length_runetochar scalar
    have positive := runelen_pos (c := c)
    have rest := ih (fun d member => scalars d (List.mem_cons_of_mem c member)) (pre ++ runetochar c)
    rw [List.flatMap_cons, List.length_append] at enough
    rw [List.flatMap_cons, List.length_cons]
    rw [List.append_assoc, @List.length_append _ pre (runetochar c)] at rest
    obtain ⟨fuel, rfl⟩ := Nat.exists_eq_succ_of_ne_zero (n := fuel) (by lia)
    have here : ∀ i (h : i < (runetochar c).length),
        ofBytes (pre ++ (runetochar c ++ s.flatMap runetochar)) (pre.length + i) = (runetochar c)[i] :=
      fun i h => ofBytes_append h pre
    have inside : ¬pre.length ≥ (pre ++ (runetochar c ++ s.flatMap runetochar)).length := by
      simp only [List.length_append]
      lia
    unfold countRunes
    dsimp only
    rw [if_neg inside]
    split
    · rename_i low
      rw [show pre.length = pre.length + 0 from rfl, here 0 (by lia)] at low
      have one : runetochar c = [UInt8.ofNat c] := runetochar_one (by
        by_contra large
        have no := high_bytes scalar large (List.getElem_mem (show 0 < (runetochar c).length by lia))
        lia)
      have w : (runetochar c).length = 1 := by
        rw [one]
        rfl
      rw [w] at rest enough
      rw [rest fuel (by lia)]
    · rename_i high
      have value : ¬c < 0x80 := fun small => high (by
        have one : runetochar c = [UInt8.ofNat c] := if_pos (Nat.le_of_lt_succ small)
        rw [show pre.length = pre.length + 0 from rfl, here 0 (by lia)]
        simp only [one, List.getElem_cons_zero, UInt8.toNat_ofNat']
        lia)
      have full := fullrune_runetochar (n := (pre ++ (runetochar c ++ s.flatMap runetochar)).length - pre.length) scalar value
        here (by simp only [List.length_append]; lia)
      rw [if_pos (Or.inr full), chartorune_runetochar scalar _ here, rest fuel (by lia)]

/-- Bytes of runes of one byte each are skipped. -/
theorem countRunes_ascii {cs : ByteMem} {ecs : Nat} (k : Nat) (le : k ≤ p) (inside : p ≤ ecs)
    (ascii : ∀ i < p, (cs i).toNat < 0x80) : countRunes cs ecs (fuel + k) (p - k) = k + countRunes cs ecs fuel p := by
  induction k with
  | zero => rw [Nat.add_zero, Nat.sub_zero, Nat.zero_add]
  | succ k ih =>
    rw [← Nat.add_assoc]
    have here : countRunes cs ecs (fuel + k + 1) (p - (k + 1)) = countRunes cs ecs (fuel + k) (p - (k + 1) + 1) + 1 := by
      conv_lhs => unfold countRunes
      dsimp only
      rw [if_neg (by omega), if_pos (ascii _ (by omega))]
    rw [here, show p - (k + 1) + 1 = p - k by omega, ih (by omega)]
    omega

theorem decodeRunes_encoded (scalars : ∀ c ∈ s, Scalar c) : decodeRunes s.length (ofBytes (s.flatMap runetochar ++ more)) = s := by
  induction s with
  | nil => rfl
  | cons c s ih =>
    have scalar := scalars c List.mem_cons_self
    rw [List.flatMap_cons, List.append_assoc, List.length_cons]
    have here : ∀ i (h : i < (runetochar c).length), ofBytes (runetochar c ++ (s.flatMap runetochar ++ more)) i = (runetochar c)[i] :=
      fun i h => by simpa using @ofBytes_append _ (s.flatMap runetochar ++ more) _ h []
    unfold decodeRunes
    rw [chartorune_runetochar scalar _ here]
    dsimp only
    have shift : (fun i => ofBytes (runetochar c ++ (s.flatMap runetochar ++ more)) ((runetochar c).length + i)) =
        ofBytes (s.flatMap runetochar ++ more) := by
      funext i
      unfold ofBytes
      rw [List.getD_eq_getElem?_getD, List.getElem?_append_right (Nat.le_add_right ..), Nat.add_sub_cancel_left,
        List.getD_eq_getElem?_getD]
    rw [shift, ih fun d member => scalars d (List.mem_cons_of_mem c member)]

/-- A string of runes that UTF-8 has is read back. -/
theorem runesOf_cvtca (scalars : ∀ c ∈ s, Scalar c) : runesOf (cvtca junk s) = s := by
  rw [cvtca_scalars scalars]
  have counted := countRunes_encoded scalars []
  simp only [List.nil_append, List.length_nil] at counted
  unfold runesOf runeCount
  cases first : (s.flatMap runetochar).findIdx? (fun b => b.toNat ≥ 0x80) with
  | none =>
    dsimp only
    rw [List.findIdx?_eq_none_iff] at first
    clear counted
    induction s with
    | nil => rfl
    | cons c s ih =>
      have scalar := scalars c List.mem_cons_self
      rw [List.flatMap_cons] at first ⊢
      have rest := ih (fun d member => scalars d (List.mem_cons_of_mem c member)) fun b member =>
        first b (List.mem_append_right _ member)
      have length := length_runetochar scalar
      have positive := runelen_pos (c := c)
      have member := List.getElem_mem (show 0 < (runetochar c).length by omega)
      have low := first _ (List.mem_append_left _ member)
      have small : c < 0x80 := by
        by_contra large
        have high := high_bytes scalar large member
        rw [decide_eq_false_iff_not] at low
        exact low high
      rw [List.map_append, rest, runetochar_one small, List.map_singleton, UInt8.toNat_ofNat', Nat.mod_eq_of_lt (by omega)]
      rfl
  | some p =>
    dsimp only
    obtain ⟨inside, -, before⟩ := List.findIdx?_eq_some_iff_getElem.mp first
    have ascii : ∀ i < p, (ofBytes (s.flatMap runetochar) i).toNat < 0x80 := fun i less => by
      have no := before i less
      unfold ofBytes
      rw [List.getD_eq_getElem?_getD, List.getElem?_eq_getElem (by omega)]
      simpa using no
    have skipped := @countRunes_ascii (s.flatMap runetochar).length _ _ (s.flatMap runetochar).length p
      (Nat.le_refl p) (by omega) ascii
    rw [Nat.sub_self, counted _ (by omega)] at skipped
    rw [← skipped]
    have decoded := @decodeRunes_encoded _ [] scalars
    rw [List.append_nil] at decoded
    exact decoded

theorem scalar_of_le (le : c ≤ 2047) : Scalar c := by
  have top : runemax = 0x10FFFF := rfl
  unfold Scalar
  omega

theorem scalar_runeerror : Scalar runeerror := by decide

theorem chartoruneLoop_scalar {str : ByteMem} (fuel : Nat) : ∀ i l, 1 ≤ i → i + fuel ≤ utfmax →
    Scalar (chartoruneLoop str fuel i l).1 := by
  induction fuel with
  | zero => exact fun _ _ _ _ => scalar_runeerror
  | succ fuel ih =>
    intro i l some_ few
    unfold chartoruneLoop
    dsimp only
    split
    · exact scalar_runeerror
    split
    · generalize l <<< 6 ||| ((str i).toNat ^^^ 0x80) = l'
      split
      · exact scalar_runeerror
      split
      · exact scalar_runeerror
      split
      · exact scalar_runeerror
      rename_i one other whole
      have max : utfmax = 4 := rfl
      have cases : i = 1 ∨ i = 2 ∨ i = 3 := by omega
      rcases cases with rfl | rfl | rfl
      · exact scalar_of_le (Nat.and_le_right (n := l') (m := runeX 2))
      · simp only [true_and, not_and, not_or, Nat.not_le, not_lt] at other whole
        refine ⟨(other (by decide)).2, fun no => ?_⟩
        exact absurd no.2 (Nat.not_le.mpr (whole no.1))
      · simp only [not_and, not_or, Nat.not_le, not_lt] at other
        obtain ⟨low, high⟩ := other (by decide)
        refine ⟨high, fun no => ?_⟩
        have eq : runeX 3 = 65535 := rfl
        omega
    · exact ih _ _ (by omega) (by omega)

theorem chartorune_scalar (str : ByteMem) : Scalar (chartorune str).1 := by
  unfold chartorune
  dsimp only
  split
  · exact scalar_of_le (by omega)
  · exact chartoruneLoop_scalar _ _ _ (by decide) (by decide)

/-- `c2string` gives runes that UTF-8 has. -/
theorem runesOf_scalar : ∀ c ∈ runesOf bytes, Scalar c := by
  have decoded : ∀ nc cs, ∀ c ∈ decodeRunes nc cs, Scalar c := fun nc => by
    induction nc with
    | zero =>
      intro cs c member
      cases member
    | succ nc ih =>
      intro cs c member
      rcases List.mem_cons.mp member with rfl | rest
      · exact chartorune_scalar cs
      · exact ih _ c rest
  unfold runesOf runeCount
  split
  · rename_i none_
    intro c member
    obtain ⟨b, there, rfl⟩ := List.mem_map.mp member
    split at none_
    · rename_i all
      rw [List.findIdx?_eq_none_iff] at all
      have low := all b there
      refine scalar_of_le ?_
      have small : b.toNat < 128 := by simpa using low
      omega
    · cases none_
  · exact decoded _ _

end Inferno.Strings
