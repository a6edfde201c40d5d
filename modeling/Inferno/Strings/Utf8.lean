import Inferno.Strings.Utf

namespace Inferno.Strings

open Lib

/-- A byte after the first of a sequence. -/
def Tail (b : UInt8) : Prop := 0x80 ≤ b.toNat ∧ b.toNat ≤ 0xBF

/-- The well-formed sequences of the Unicode standard (its table 3-7), with their scalar values. -/
inductive WellFormed : List UInt8 → Nat → Prop
  | one {a : UInt8} : a.toNat ≤ 0x7F → WellFormed [a] a.toNat
  | two {a b : UInt8} : 0xC2 ≤ a.toNat → a.toNat ≤ 0xDF → Tail b →
      WellFormed [a, b] ((a.toNat - 0xC0) * 2 ^ 6 + (b.toNat - 0x80))
  | three {a b c : UInt8} : 0xE0 ≤ a.toNat → a.toNat ≤ 0xEF → Tail b → Tail c →
      (a.toNat = 0xE0 → 0xA0 ≤ b.toNat) → (a.toNat = 0xED → b.toNat ≤ 0x9F) →
      WellFormed [a, b, c] ((a.toNat - 0xE0) * 2 ^ 12 + (b.toNat - 0x80) * 2 ^ 6 + (c.toNat - 0x80))
  | four {a b c d : UInt8} : 0xF0 ≤ a.toNat → a.toNat ≤ 0xF4 → Tail b → Tail c → Tail d →
      (a.toNat = 0xF0 → 0x90 ≤ b.toNat) → (a.toNat = 0xF4 → b.toNat ≤ 0x8F) →
      WellFormed [a, b, c, d]
        ((a.toNat - 0xF0) * 2 ^ 18 + (b.toNat - 0x80) * 2 ^ 12 + (c.toNat - 0x80) * 2 ^ 6 + (d.toNat - 0x80))

instance (b : UInt8) : Decidable (Tail b) := inferInstanceAs (Decidable (_ ∧ _))

/-- The memory begins with the bytes. -/
def Begins (str : ByteMem) (bytes : List UInt8) : Prop := ∀ i, ∀ h : i < bytes.length, str i = bytes[i]

/-- What four bytes decode to, by the ranges of the table. -/
def decodeBytes (a b c d : UInt8) : Nat × Nat :=
  if a.toNat ≤ 0x7F then (a.toNat, 1)
  else if 0xC2 ≤ a.toNat ∧ a.toNat ≤ 0xDF ∧ Tail b then ((a.toNat - 0xC0) * 2 ^ 6 + (b.toNat - 0x80), 2)
  else if 0xE0 ≤ a.toNat ∧ a.toNat ≤ 0xEF ∧ Tail b ∧ Tail c ∧ (a.toNat = 0xE0 → 0xA0 ≤ b.toNat) ∧
      (a.toNat = 0xED → b.toNat ≤ 0x9F) then
    ((a.toNat - 0xE0) * 2 ^ 12 + (b.toNat - 0x80) * 2 ^ 6 + (c.toNat - 0x80), 3)
  else if 0xF0 ≤ a.toNat ∧ a.toNat ≤ 0xF4 ∧ Tail b ∧ Tail c ∧ Tail d ∧ (a.toNat = 0xF0 → 0x90 ≤ b.toNat) ∧
      (a.toNat = 0xF4 → b.toNat ≤ 0x8F) then
    ((a.toNat - 0xF0) * 2 ^ 18 + (b.toNat - 0x80) * 2 ^ 12 + (c.toNat - 0x80) * 2 ^ 6 + (d.toNat - 0x80), 4)
  else (runeerror, 1)

variable {str : ByteMem} {a b c d : UInt8} {fuel i l n : Nat}

theorem Tail.bits (tail : Tail b) : ∃ r < 64, b.toNat = 128 + r := by
  obtain ⟨low, high⟩ := tail
  exact ⟨b.toNat - 128, by omega, by omega⟩

theorem not_tail_bits : ∀ v < 256, ¬(0x80 ≤ v ∧ v ≤ 0xBF) → (v ^^^ 0x80) &&& 0xC0 ≠ 0 := by decide +kernel

/-- A byte that is none of those after the first. -/
theorem loop_stop (other : ¬Tail (str i)) : chartoruneLoop str fuel i l = (runeerror, 1) := by
  cases fuel with
  | zero => rfl
  | succ fuel =>
    rw [chartoruneLoop]
    dsimp only
    rw [if_pos (not_tail_bits _ (str i).toNat_lt other)]

theorem leading_eq : leading 2 = 0xC0 ∧ leading 3 = 0xE0 ∧ leading 4 = 0xF0 ∧ leading 5 = 0xF8 := by decide

theorem runeX_eq : runeX 0 = 2 ^ 7 - 1 ∧ runeX 2 = 2 ^ 11 - 1 ∧ runeX 3 = 2 ^ 16 - 1 ∧ runeX 4 = 2 ^ 21 - 1 := by decide

/-- A first byte of two. -/
theorem decode_two (low : ¬(str 0).toNat ≤ 0x7F) (high : (str 0).toNat < 0xE0) :
    chartoruneLoop str 3 1 (str 0).toNat = decodeBytes (str 0) (str 1) (str 2) (str 3) := by
  unfold decodeBytes
  rw [if_neg low]
  by_cases tail : Tail (str 1)
  · obtain ⟨r, small, byte⟩ := tail.bits
    have value : ((str 0).toNat * 64 + r) &&& runeX 2 = (str 0).toNat % 32 * 64 + r := by
      rw [runeX_eq.2.1, Nat.and_two_pow_sub_one_eq_mod]
      omega
    rw [loop_step small byte, leading_eq.2.1, if_pos high]
    dsimp only
    rw [value, leading_eq.1, runeX_eq.1]
    by_cases lead : (str 0).toNat < 0xC2
    · rw [if_pos (by omega), if_neg (by omega), if_neg (by omega), if_neg (by omega)]
    · rw [if_neg (by omega), if_neg (by omega), if_neg (by omega), if_pos ⟨by omega, by omega, tail⟩, byte]
      refine Prod.ext ?_ rfl
      dsimp only
      omega
  · rw [loop_stop tail, if_neg (fun all => tail all.2.2), if_neg (by omega), if_neg (by omega)]

/-- A first byte of three. -/
theorem decode_three (low : 0xE0 ≤ (str 0).toNat) (high : (str 0).toNat < 0xF0) :
    chartoruneLoop str 3 1 (str 0).toNat = decodeBytes (str 0) (str 1) (str 2) (str 3) := by
  unfold decodeBytes
  rw [if_neg (by lia), if_neg (by lia)]
  by_cases tail : Tail (str 1)
  swap
  · rw [loop_stop tail, if_neg (fun all => tail all.2.2.1), if_neg (by lia)]
  obtain ⟨r, small, byte⟩ := tail.bits
  rw [loop_step small byte, leading_eq.2.1, if_neg (by lia)]
  by_cases tail' : Tail (str 2)
  swap
  · rw [loop_stop tail', if_neg (fun all => tail' all.2.2.2.1), if_neg (by lia)]
  obtain ⟨r', small', byte'⟩ := tail'.bits
  have value : (((str 0).toNat * 64 + r) * 64 + r') &&& runeX 3 = (str 0).toNat % 16 * 2 ^ 12 + r * 2 ^ 6 + r' := by
    rw [runeX_eq.2.2.1, Nat.and_two_pow_sub_one_eq_mod]
    lia
  rw [loop_step small' byte', leading_eq.2.2.1, if_pos high]
  dsimp only
  have top : runemax = 0x10FFFF := rfl
  rw [value, runeX_eq.2.1, if_neg (by lia)]
  simp only [tail, tail', byte, byte', true_and]
  by_cases bad : (str 0).toNat = 0xE0 ∧ r < 32 ∨ (str 0).toNat = 0xED ∧ 32 ≤ r
  · by_cases lead : (str 0).toNat = 0xE0
    · rw [if_pos (by lia), if_neg (by lia), if_neg (by lia)]
    · rw [if_neg (by lia), if_pos (by lia), if_neg (by lia), if_neg (by lia)]
  · rw [if_neg (by lia), if_neg (by lia), if_pos (by lia)]
    refine Prod.ext ?_ rfl
    dsimp only
    lia

/-- A first byte of four, or of none. -/
theorem decode_four (low : 0xF0 ≤ (str 0).toNat) :
    chartoruneLoop str 3 1 (str 0).toNat = decodeBytes (str 0) (str 1) (str 2) (str 3) := by
  have below := (str 0).toNat_lt
  unfold decodeBytes
  rw [if_neg (by lia), if_neg (by lia), if_neg (by lia)]
  by_cases tail : Tail (str 1)
  swap
  · rw [loop_stop tail, if_neg (fun all => tail all.2.2.1)]
  obtain ⟨r, small, byte⟩ := tail.bits
  rw [loop_step small byte, leading_eq.2.1, if_neg (by lia)]
  by_cases tail' : Tail (str 2)
  swap
  · rw [loop_stop tail', if_neg (fun all => tail' all.2.2.2.1)]
  obtain ⟨r', small', byte'⟩ := tail'.bits
  rw [loop_step small' byte', leading_eq.2.2.1, if_neg (by lia)]
  by_cases tail'' : Tail (str 3)
  swap
  · rw [loop_stop tail'', if_neg (fun all => tail'' all.2.2.2.2.1)]
  obtain ⟨r'', small'', byte''⟩ := tail''.bits
  rw [loop_step small'' byte'', leading_eq.2.2.2]
  by_cases none_ : (str 0).toNat < 0xF8
  swap
  · rw [if_neg none_, if_neg (by lia)]
    rfl
  have value : ((((str 0).toNat * 64 + r) * 64 + r') * 64 + r'') &&& runeX 4 =
      (str 0).toNat % 8 * 2 ^ 18 + r * 2 ^ 12 + r' * 2 ^ 6 + r'' := by
    rw [runeX_eq.2.2.2, Nat.and_two_pow_sub_one_eq_mod]
    lia
  have top : runemax = 0x10FFFF := rfl
  rw [if_pos none_]
  dsimp only
  rw [value, runeX_eq.2.2.1, if_neg (by lia)]
  simp only [tail, tail', tail'', byte, byte', byte'', true_and]
  by_cases bad : (str 0).toNat = 0xF0 ∧ r < 16 ∨ (str 0).toNat = 0xF4 ∧ 16 ≤ r ∨ 0xF4 < (str 0).toNat
  · rw [if_pos (by lia), if_neg (by lia)]
  · rw [if_neg (by lia), if_neg (by lia), if_pos (by lia)]
    refine Prod.ext ?_ rfl
    dsimp only
    lia

/-- `chartorune` decodes by the table. -/
theorem chartorune_eq (str : ByteMem) : chartorune str = decodeBytes (str 0) (str 1) (str 2) (str 3) := by
  unfold chartorune
  dsimp only
  split
  · unfold decodeBytes
    rw [if_pos (by omega)]
  · by_cases two : (str 0).toNat < 0xE0
    · exact decode_two (by omega) two
    · by_cases three : (str 0).toNat < 0xF0
      · exact decode_three (by omega) three
      · exact decode_four (by omega)

theorem Begins.at {w : List UInt8} (begins : Begins str w) {i : Nat} {b : UInt8} (there : w[i]? = some b) : str i = b := by
  obtain ⟨inside, rfl⟩ := List.getElem?_eq_some_iff.mp there
  exact begins i inside

theorem begins_cons {w : List UInt8} (first : str 0 = a) (rest : Begins (fun i => str (i + 1)) w) : Begins str (a :: w) := by
  intro i inside
  cases i with
  | zero => exact first
  | succ i => exact rest i (Nat.lt_of_succ_lt_succ inside)

theorem begins_nil : Begins str [] := fun _ inside => absurd inside (Nat.not_lt_zero _)

/-- A well-formed sequence is one rune. -/
theorem WellFormed.decoded {w : List UInt8} {v : Nat} (formed : WellFormed w v) (begins : Begins str w) :
    chartorune str = (v, w.length) := by
  rw [chartorune_eq, decodeBytes]
  cases formed with
  | one low =>
    rw [begins.at rfl, if_pos low]
    rfl
  | two low high tail =>
    rw [begins.at rfl, begins.at (i := 1) rfl, if_neg (by lia), if_pos ⟨low, high, tail⟩]
    rfl
  | three low high tail tail' first last =>
    rw [begins.at rfl, begins.at (i := 1) rfl, begins.at (i := 2) rfl, if_neg (by lia), if_neg (by lia),
      if_pos ⟨low, high, tail, tail', first, last⟩]
    rfl
  | four low high tail tail' tail'' first last =>
    rw [begins.at rfl, begins.at (i := 1) rfl, begins.at (i := 2) rfl, begins.at (i := 3) rfl, if_neg (by lia),
      if_neg (by lia), if_neg (by lia), if_pos ⟨low, high, tail, tail', tail'', first, last⟩]
    rfl

/-- Where no well-formed sequence begins, one byte is taken for the error rune. -/
theorem decoded_error (none_ : ∀ w v, WellFormed w v → ¬Begins str w) : chartorune str = (runeerror, 1) := by
  have begins₁ : Begins str [str 0] := begins_cons rfl begins_nil
  have begins₂ : Begins str [str 0, str 1] := begins_cons rfl (begins_cons rfl begins_nil)
  have begins₃ : Begins str [str 0, str 1, str 2] := begins_cons rfl (begins_cons rfl (begins_cons rfl begins_nil))
  have begins₄ : Begins str [str 0, str 1, str 2, str 3] :=
    begins_cons rfl (begins_cons rfl (begins_cons rfl (begins_cons rfl begins_nil)))
  rw [chartorune_eq, decodeBytes, if_neg fun low => none_ _ _ (.one low) begins₁,
    if_neg fun ⟨low, high, tail⟩ => none_ _ _ (.two low high tail) begins₂,
    if_neg fun ⟨low, high, tail, tail', first, last⟩ => none_ _ _ (.three low high tail tail' first last) begins₃,
    if_neg fun ⟨low, high, tail, tail', tail'', first, last⟩ =>
      none_ _ _ (.four low high tail tail' tail'' first last) begins₄]

/-- With `fullrune`, `chartorune` looks at the first `n` bytes only and takes none of the others. -/
theorem fullrune_bounds {str' : ByteMem} (full : fullrune str n = true) (same : ∀ i < n, str i = str' i) :
    chartorune str = chartorune str' ∧ (chartorune str).2 ≤ n := by
  rw [chartorune_eq, chartorune_eq]
  unfold fullrune at full
  dsimp only at full
  rw [leading_eq.2.1, leading_eq.2.2.1] at full
  have some_ : 0 < n := by
    by_contra zero
    rw [if_pos (by lia)] at full
    nomatch full
  rw [if_neg (by lia)] at full
  unfold decodeBytes
  rw [← same 0 some_]
  by_cases one : (str 0).toNat ≤ 0x7F
  · rw [if_pos one, if_pos one]
    exact ⟨rfl, some_⟩
  rw [if_neg (by lia)] at full
  rw [if_neg one, if_neg one]
  have none₂ : ∀ p : Prop, 0xE0 ≤ (str 0).toNat → ¬(0xC2 ≤ (str 0).toNat ∧ (str 0).toNat ≤ 0xDF ∧ p) := fun p low all => by lia
  have none₃ : ∀ p : Prop, (str 0).toNat < 0xE0 ∨ 0xF0 ≤ (str 0).toNat →
      ¬(0xE0 ≤ (str 0).toNat ∧ (str 0).toNat ≤ 0xEF ∧ p) := fun p low all => by lia
  have none₄ : ∀ p : Prop, (str 0).toNat < 0xF0 → ¬(0xF0 ≤ (str 0).toNat ∧ p) := fun p low all => by lia
  by_cases two : (str 0).toNat < 0xE0
  · rw [if_pos two, decide_eq_true_eq] at full
    rw [← same 1 full, if_neg (none₃ _ (.inl two)), if_neg (none₄ _ (by lia)), if_neg (none₃ _ (.inl two)),
      if_neg (none₄ _ (by lia))]
    refine ⟨rfl, ?_⟩
    split
    · exact full
    · exact some_
  rw [if_neg two] at full
  rw [if_neg (none₂ _ (by lia)), if_neg (none₂ _ (by lia))]
  by_cases three : (str 0).toNat < 0xF0
  · rw [if_pos three, decide_eq_true_eq] at full
    rw [← same 1 (by lia), ← same 2 (by lia), if_neg (none₄ _ three), if_neg (none₄ _ three)]
    refine ⟨rfl, ?_⟩
    split
    · exact full
    · exact some_
  · rw [if_neg three, decide_eq_true_eq] at full
    have four : 4 ≤ n := full
    rw [← same 1 (by lia), ← same 2 (by lia), ← same 3 (by lia), if_neg (none₃ _ (by lia))]
    refine ⟨rfl, ?_⟩
    split
    · exact four
    · exact some_

/-- Repeated `chartorune` over a text that NULs follow: each rune, with the bytes that were taken for it. -/
def chartorunes : Nat → List UInt8 → List (Nat × List UInt8)
  | 0, _ => []
  | fuel + 1, bytes =>
    if bytes = [] then []
    else
      let (v, n) := chartorune (ofBytes bytes)
      (v, bytes.take n) :: chartorunes fuel (bytes.drop n)

/-- A text as the standard divides it: its well-formed sequences, and an error rune for every other byte. -/
inductive Divides : List UInt8 → List (Nat × List UInt8) → Prop
  | nil : Divides [] []
  | rune {w bytes : List UInt8} {v : Nat} {l : List (Nat × List UInt8)} :
      WellFormed w v → Divides bytes l → Divides (w ++ bytes) ((v, w) :: l)
  | error {b : UInt8} {bytes : List UInt8} {l : List (Nat × List UInt8)} :
      (∀ w v, WellFormed w v → ¬w <+: b :: bytes) → Divides bytes l → Divides (b :: bytes) ((runeerror, [b]) :: l)

theorem WellFormed.ne_nil {w : List UInt8} {v : Nat} (formed : WellFormed w v) : w ≠ [] := by
  cases formed <;> exact List.cons_ne_nil _ _

/-- A sequence at the head of a text lies within it: the bytes after the first are not NUL. -/
theorem WellFormed.within {w bytes : List UInt8} {v : Nat} (formed : WellFormed w v) (some_ : bytes ≠ [])
    (begins : Begins (ofBytes bytes) w) : w <+: bytes := by
  have positive : 0 < bytes.length := List.length_pos_iff.mpr some_
  have outside : ∀ i, bytes.length ≤ i → ofBytes bytes i = 0 := fun i le => List.getD_eq_default _ _ le
  have inside : ∀ {i b}, w[i]? = some b → Tail b → i < bytes.length := by
    intro i b there tail
    by_contra beyond
    rw [← begins.at there, outside i (by omega)] at tail
    exact absurd tail.1 (by decide)
  have short : w.length ≤ bytes.length := by
    cases formed with
    | one => exact positive
    | two _ _ tail => exact @inside 1 _ rfl tail
    | three _ _ _ tail => exact @inside 2 _ rfl tail
    | four _ _ _ _ tail => exact @inside 3 _ rfl tail
  refine List.prefix_iff_eq_take.mpr (List.ext_getElem (by rw [List.length_take]; omega) fun i less _ => ?_)
  rw [List.getElem_take, ← begins i less, ofBytes, List.getD_eq_getElem]

theorem begins_prefix {w bytes : List UInt8} : Begins (ofBytes (w ++ bytes)) w := by
  intro i inside
  have at_ := @ofBytes_append w bytes i inside []
  rwa [List.nil_append, List.length_nil, Nat.zero_add] at at_

theorem Divides.chartorunes {bytes : List UInt8} {l : List (Nat × List UInt8)} (divides : Divides bytes l) {fuel : Nat}
    (enough : bytes.length ≤ fuel) : chartorunes fuel bytes = l := by
  induction divides generalizing fuel with
  | nil => cases fuel <;> rfl
  | @rune w bytes v l formed divides ih =>
    have some_ := List.length_pos_iff.mpr formed.ne_nil
    rw [List.length_append] at enough
    obtain ⟨fuel, rfl⟩ : ∃ k, fuel = k + 1 := ⟨fuel - 1, by omega⟩
    rw [Strings.chartorunes, if_neg (List.append_ne_nil_of_left_ne_nil formed.ne_nil _), formed.decoded begins_prefix]
    dsimp only
    rw [List.take_left, List.drop_left, ih (by omega)]
  | @error b bytes l none_ divides ih =>
    rw [List.length_cons] at enough
    obtain ⟨fuel, rfl⟩ : ∃ k, fuel = k + 1 := ⟨fuel - 1, by omega⟩
    rw [Strings.chartorunes, if_neg (List.cons_ne_nil _ _),
      decoded_error fun w v formed begins => none_ w v formed (formed.within (List.cons_ne_nil _ _) begins)]
    dsimp only
    rw [List.take_succ_cons, List.take_zero, List.drop_succ_cons, List.drop_zero, ih (by omega)]

theorem divides_chartorunes {bytes : List UInt8} {fuel : Nat} (enough : bytes.length ≤ fuel) :
    Divides bytes (chartorunes fuel bytes) := by
  induction fuel generalizing bytes with
  | zero =>
    rw [List.length_eq_zero_iff.mp (Nat.le_zero.mp enough)]
    exact .nil
  | succ fuel ih =>
    cases bytes with
    | nil => exact .nil
    | cons b bytes =>
      rw [Strings.chartorunes, if_neg (List.cons_ne_nil _ _)]
      by_cases formed : ∃ w v, WellFormed w v ∧ Begins (ofBytes (b :: bytes)) w
      · obtain ⟨w, v, formed, begins⟩ := formed
        obtain ⟨rest, same⟩ := formed.within (List.cons_ne_nil _ _) begins
        have some_ := List.length_pos_iff.mpr formed.ne_nil
        rw [← same, List.length_append] at enough
        rw [formed.decoded begins]
        dsimp only
        rw [← same, List.take_left, List.drop_left]
        exact .rune formed (ih (by omega))
      · rw [List.length_cons] at enough
        rw [decoded_error fun w v well begins => formed ⟨w, v, well, begins⟩]
        dsimp only
        rw [List.take_succ_cons, List.take_zero, List.drop_succ_cons, List.drop_zero]
        refine .error (fun w v well ⟨rest, same⟩ => formed ⟨w, v, well, ?_⟩) (ih (by omega))
        rw [← same]
        exact begins_prefix

/-- `chartorune` follows the Unicode standard at every position and over every text, and keeps within what `fullrune`
has seen. -/
theorem chartorune_unicode :
    (∀ str w v, WellFormed w v → Begins str w → chartorune str = (v, w.length)) ∧
    (∀ str, (∀ w v, WellFormed w v → ¬Begins str w) → chartorune str = (runeerror, 1)) ∧
    (∀ bytes l, Divides bytes l ↔ chartorunes bytes.length bytes = l) ∧
    ∀ str str' n, fullrune str n = true → (∀ i < n, str i = str' i) →
      chartorune str = chartorune str' ∧ (chartorune str).2 ≤ n :=
  ⟨fun _ _ _ formed begins => formed.decoded begins, fun _ none_ => decoded_error none_,
    fun _ _ => ⟨fun divides => divides.chartorunes (Nat.le_refl _), fun same => same ▸ divides_chartorunes (Nat.le_refl _)⟩,
    fun _ _ _ full same => fullrune_bounds full same⟩

end Inferno.Strings
