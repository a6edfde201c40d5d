import Inferno.Lib.CursorBack
import Inferno.Strings.Heap

namespace Inferno.Strings

open Lib

variable {x y z : Str} {mem src : ByteMem} {i n k : Nat} {bytes : List UInt8}

theorem poke_mem {mem : ByteMem} {off i : Nat} (from_ : off ≤ i) (below : i < off + bytes.length) :
    poke mem off bytes i ∈ bytes := by
  have less : i - off < bytes.length := by omega
  rw [poke, if_pos from_, List.getD_eq_getElem _ _ less]
  exact List.getElem_mem less

theorem poke_outside {mem : ByteMem} {off i : Nat} (outside : i < off ∨ off + bytes.length ≤ i) :
    poke mem off bytes i = mem i := by
  unfold poke
  split
  · rw [List.getD_eq_default]
    omega
  · rfl

theorem getD_readBytes (mem : ByteMem) {off n i : Nat} (v : UInt8) (less : i < n) :
    (readBytes mem off n).getD i v = mem (off + i) := by
  induction n generalizing off i with
  | zero => omega
  | succ n ih =>
    cases i with
    | zero => rfl
    | succ i =>
      rw [readBytes, List.getD_cons_succ, ih (by omega)]
      congr 1
      omega

theorem poke_readBytes {mem src : ByteMem} {off off' n i : Nat} (from_ : off ≤ i) (below : i < off + n) :
    poke mem off (readBytes src off' n) i = src (off' + (i - off)) := by
  rw [poke, if_pos from_, getD_readBytes _ _ (by omega)]

theorem length_runes (runes : List Nat) :
    (runes.flatMap (leBytes sizeofRune)).length = runes.length * sizeofRune := by
  induction runes with
  | nil => rfl
  | cons r runes ih =>
    rw [List.flatMap_cons, List.length_append, length_leBytes, ih, List.length_cons, Nat.succ_mul, Nat.add_comm]

/-- The rune at an index. -/
def runeAt (mem : ByteMem) (i : Nat) : Nat := leNat (readBytes mem (i * sizeofRune) sizeofRune)

def Str.char (x : Str) (i : Nat) : Nat := if x.len < 0 then runeAt x.data i else (x.data i).toNat

/-- The characters a string stands for. -/
def Str.text (x : Str) : List Nat := (List.range x.len.natAbs).map x.char

/-- The nil string of `stringcmp`. -/
def snil : Str := ⟨0, 0, 0, 0, fun _ => 0⟩

def strOf (heap : Nat → Option Str) (s : Option Nat) : Str := (s.bind heap).getD snil

@[simp] theorem Str.length_text (x : Str) : x.text.length = x.len.natAbs := by
  rw [text, List.length_map, List.length_range]

theorem Str.getElem_text (x : Str) {i : Nat} (h : i < x.text.length) : x.text[i] = x.char i := by
  simp only [text, List.getElem_map, List.getElem_range]

theorem Str.char_rune (neg : x.len < 0) (i : Nat) : x.char i = runeAt x.data i := if_pos neg

theorem Str.char_ascii (pos : 0 ≤ x.len) (i : Nat) : x.char i = (x.data i).toNat := if_neg (not_lt.mpr pos)

/-- A string is what its characters are, one by one. -/
theorem Str.text_eq {l : List Nat} (length : x.len.natAbs = l.length) (same : ∀ i (h : i < l.length), x.char i = l[i]) :
    x.text = l :=
  List.ext_getElem (x.length_text.trans length) fun i _ h => (x.getElem_text _).trans (same i h)

theorem Str.text_congr (length : y.len.natAbs = x.len.natAbs) (same : ∀ i, i < x.len.natAbs → y.char i = x.char i) :
    y.text = x.text :=
  text_eq (length.trans x.length_text.symm) fun i h => (same i (x.length_text ▸ h)).trans (x.getElem_text h).symm

theorem Str.text_append (length : z.len.natAbs = x.len.natAbs + y.len.natAbs)
    (first : ∀ i, i < x.len.natAbs → z.char i = x.char i)
    (second : ∀ i, i < y.len.natAbs → z.char (x.len.natAbs + i) = y.char i) : z.text = x.text ++ y.text := by
  refine text_eq ?_ fun i h => ?_
  · rw [List.length_append, x.length_text, y.length_text, length]
  · rw [List.length_append, x.length_text, y.length_text] at h
    by_cases before : i < x.len.natAbs
    · rw [List.getElem_append_left (by rwa [x.length_text]), x.getElem_text, first i before]
    · rw [List.getElem_append_right (by rw [x.length_text]; omega), y.getElem_text, x.length_text,
        ← second _ (by omega)]
      congr 1
      omega

theorem poke_append (mem : ByteMem) (off : Nat) (a b : List UInt8) :
    poke mem off (a ++ b) = poke (poke mem off a) (off + a.length) b := by
  funext i
  unfold poke
  by_cases before : i < off
  · rw [if_neg (by omega), if_neg (by omega), if_neg (by omega)]
  · rw [if_pos (by omega)]
    by_cases inside : i < off + a.length
    · rw [if_neg (by omega), if_pos (by omega), List.getD_append _ _ _ _ (by omega)]
    · rw [if_pos (by omega), List.getD_append_right _ _ _ _ (by omega), if_pos (by omega), List.getD_eq_default a _ (by omega)]
      congr 1
      omega

theorem getElem_readBytes (mem : ByteMem) (off n : Nat) {i : Nat} (h : i < (readBytes mem off n).length) :
    (readBytes mem off n)[i] = mem (off + i) := by
  rw [← List.getD_eq_getElem _ 0 h]
  exact getD_readBytes mem 0 (length_readBytes mem off n ▸ h)

theorem readBytes_poke (mem : ByteMem) (off : Nat) (bytes : List UInt8) :
    readBytes (poke mem off bytes) off bytes.length = bytes := by
  refine List.ext_getElem (length_readBytes ..) fun i h h' => ?_
  rw [getElem_readBytes, poke, if_pos (Nat.le_add_right ..), Nat.add_sub_cancel_left, List.getD_eq_getElem _ _ h']

theorem runeAt_congr {other : ByteMem} (same : ∀ q, i * sizeofRune ≤ q → q < i * sizeofRune + sizeofRune → other q = mem q) :
    runeAt other i = runeAt mem i := congrArg leNat (readBytes_congr same)

theorem runeAt_poke_one (mem : ByteMem) (n r i : Nat) :
    runeAt (poke mem (n * sizeofRune) (leBytes sizeofRune r)) i = if i = n then r % 2 ^ 32 else runeAt mem i := by
  have length : (leBytes sizeofRune r).length = 4 := length_leBytes ..
  split
  · rename_i same
    subst same
    have back := readBytes_poke mem (i * sizeofRune) (leBytes sizeofRune r)
    rw [length_leBytes] at back
    exact (congrArg leNat back).trans (leNat_leBytes sizeofRune r)
  · refine runeAt_congr fun q low high => poke_outside ?_
    simp only [sizeofRune] at low high length ⊢
    omega

/-- Runes that are stored are read back, the others stay. -/
theorem runeAt_poke (mem : ByteMem) (n : Nat) (runes : List Nat) (i : Nat) :
    runeAt (poke mem (n * sizeofRune) (runes.flatMap (leBytes sizeofRune))) i =
      if h : n ≤ i ∧ i < n + runes.length then runes[i - n] % 2 ^ 32 else runeAt mem i := by
  induction runes generalizing mem n with
  | nil =>
    rw [dif_neg (by rw [List.length_nil]; omega)]
    refine runeAt_congr fun q _ _ => poke_outside ?_
    rw [List.flatMap_nil, List.length_nil]
    omega
  | cons r runes ih =>
    have next : n * sizeofRune + (leBytes sizeofRune r).length = (n + 1) * sizeofRune := by
      rw [length_leBytes, Nat.succ_mul]
    rw [List.flatMap_cons, poke_append, next, ih, runeAt_poke_one]
    simp only [List.length_cons]
    by_cases here : i = n
    · subst here
      rw [dif_neg (by omega), if_pos rfl, dif_pos (by omega)]
      simp only [Nat.sub_self, List.getElem_cons_zero]
    · rw [if_neg here]
      by_cases later : n + 1 ≤ i ∧ i < n + 1 + runes.length
      · rw [dif_pos later, dif_pos (by omega)]
        simp only [show i - n = i - (n + 1) + 1 by omega, List.getElem_cons_succ]
      · rw [dif_neg later, dif_neg (by omega)]

/-- `data` is `mem` with the runes at `n`. -/
structure Written (data mem : ByteMem) (n : Nat) (runes : List Nat) : Prop where
  here : ∀ i (h : i < runes.length), runeAt data (n + i) = runes[i] % 2 ^ 32
  rest : ∀ i, i < n ∨ n + runes.length ≤ i → runeAt data i = runeAt mem i

theorem written (mem : ByteMem) (n : Nat) (runes : List Nat) :
    Written (poke mem (n * sizeofRune) (runes.flatMap (leBytes sizeofRune))) mem n runes := by
  refine ⟨fun i h => ?_, fun i outside => ?_⟩
  · rw [runeAt_poke, dif_pos ⟨Nat.le_add_right .., by omega⟩]
    simp only [Nat.add_sub_cancel_left]
  · rw [runeAt_poke, dif_neg (by omega)]

theorem poke_first {l : Nat} (less : i < l) : poke mem 0 (readBytes src 0 l) i = src i := by
  rw [poke_readBytes (Nat.zero_le i) (by omega), Nat.zero_add, Nat.sub_zero]

theorem runeAt_first {l : Nat} (less : (i + 1) * sizeofRune ≤ l) : runeAt (poke mem 0 (readBytes src 0 l)) i = runeAt src i :=
  runeAt_congr fun q _ high => poke_first (by rw [Nat.succ_mul] at less; omega)

/-- Runes copied from another string. -/
theorem runeAt_copied {l : Nat} (less : (i + 1) * sizeofRune ≤ l) (n off : Nat) :
    runeAt (poke mem (n * sizeofRune) (readBytes src (off * sizeofRune) l)) (n + i) = runeAt src (off + i) := by
  unfold runeAt
  refine congrArg leNat (List.ext_getElem (by simp) fun j h h' => ?_)
  rw [length_readBytes, sizeofRune] at h
  rw [Nat.succ_mul] at less
  rw [getElem_readBytes, getElem_readBytes, Nat.add_mul, poke_readBytes (by omega) (by simp only [sizeofRune] at less ⊢; omega),
    Nat.add_mul]
  congr 1
  omega

theorem runeAt_moved {l : Nat} (less : (i + 1) * sizeofRune ≤ l) (n : Nat) :
    runeAt (poke mem (n * sizeofRune) (readBytes src 0 l)) (n + i) = runeAt src i := by
  have copied := @runeAt_copied mem src i l less n 0
  rwa [Nat.zero_mul, Nat.zero_add] at copied

theorem runeAt_sliced {l : Nat} (less : (i + 1) * sizeofRune ≤ l) (off : Nat) :
    runeAt (poke mem 0 (readBytes src (off * sizeofRune) l)) i = runeAt src (off + i) := by
  have copied := @runeAt_copied mem src i l less 0 off
  rwa [Nat.zero_mul, Nat.zero_add] at copied

theorem runeAt_before (less : i < n) (bytes : List UInt8) : runeAt (poke mem (n * sizeofRune) bytes) i = runeAt mem i := by
  refine runeAt_congr fun q _ high => poke_outside (Or.inl ?_)
  simp only [sizeofRune] at high ⊢
  omega

theorem runeAt_lt (mem : ByteMem) (i : Nat) : runeAt mem i < 2 ^ 32 := by
  have less := leNat_lt (readBytes mem (i * sizeofRune) sizeofRune)
  rw [length_readBytes] at less
  exact less

theorem Str.char_lt (x : Str) (i : Nat) : x.char i < 2 ^ 32 := by
  unfold char
  split
  · exact runeAt_lt ..
  · exact lt_trans (x.data i).toNat_lt (by decide)

end Inferno.Strings
