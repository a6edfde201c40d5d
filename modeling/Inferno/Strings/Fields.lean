import Inferno.Strings.Ops

namespace Inferno.Strings

open Lib

/-- The string at `p`. -/
def cstr (buf : List UInt8) (p : Nat) : List UInt8 := (buf.drop p).takeWhile (· ≠ 0)

def strrchr : List UInt8 → UInt8 → Option Nat
  | [], _ => none
  | b :: buf, c =>
    if b = 0 then none
    else match strrchr buf c with
      | some p => some (p + 1)
      | none => if b = c then some 0 else none

/-- What `getfields` changes in its loop. -/
structure Fields where
  buf : List UInt8
  args : List Nat
  narg : Nat
  intok : Bool
deriving DecidableEq

section Getfields

variable (max : Nat) (mflag : Bool) (set : List Nat)

def getfieldsLoop : Nat → Nat → Fields → Fields
  | 0, _, f => f
  | fuel + 1, str, f =>
    let (r, nr) := chartorune fun i => f.buf.getD (str + i) 0
    if r = 0 then f
    else if r ∈ set then
      if f.narg ≥ max then f
      else getfieldsLoop fuel (str + nr)
        ⟨f.buf.set str 0, f.args.set f.narg (str + nr), if mflag then f.narg else f.narg + 1, false⟩
    else getfieldsLoop fuel (str + nr)
      { f with narg := if f.intok = false ∧ mflag = true then f.narg + 1 else f.narg, intok := true }

/-- The separators `set` are runes. -/
def getfields (buf : List UInt8) (str : Nat) : Fields :=
  if max = 0 then ⟨buf, [], 0, false⟩
  else getfieldsLoop max mflag set (buf.length + 1) str
    ⟨buf, (List.replicate max 0).set 0 str, if mflag then 0 else 1, false⟩

end Getfields

theorem cstr_nul {text rest : List UInt8} (ended : ∀ b ∈ text, b ≠ 0) : cstr (text ++ 0 :: rest) 0 = text := by
  simp only [cstr, List.drop_zero]
  rw [List.takeWhile_append_of_pos fun b member => by simpa using ended b member]
  simp

theorem cstr_after {before after : List UInt8} {b : UInt8} :
    cstr (before ++ b :: after) (before.length + 1) = cstr after 0 := by
  unfold cstr
  rw [← List.drop_drop]
  simp

theorem cstr_cons {before after : List UInt8} {b : UInt8} (live : b ≠ 0) (ended : ∀ b ∈ before, b ≠ 0) :
    cstr (before ++ b :: after) 0 = before ++ b :: cstr after 0 := by
  simp only [cstr, List.drop_zero]
  rw [List.takeWhile_append_of_pos fun b member => by simpa using ended b member]
  simp [live]

theorem cstr_end {text : List UInt8} : cstr (text ++ [0]) 0 = cstr text 0 := by
  simp only [cstr, List.drop_zero]
  induction text with
  | nil => simp
  | cons b text ih => simp only [List.cons_append, List.takeWhile_cons, ih]

theorem strrchr_none {buf : List UInt8} {c : UInt8} (off : strrchr buf c = none) : c ∉ cstr buf 0 := by
  simp only [cstr, List.drop_zero]
  induction buf with
  | nil => simp
  | cons b buf ih =>
    simp only [strrchr] at off
    split at off
    · rename_i zero
      simp [zero]
    · rename_i live
      cases rest : strrchr buf c with
      | some q => simp [rest] at off
      | none =>
        simp only [rest] at off
        split at off
        · nomatch off
        · rename_i differ
          simp only [List.takeWhile_cons, ne_eq, live, not_false_eq_true, decide_true, if_true, List.mem_cons, not_or]
          exact ⟨Ne.symm differ, ih rest⟩

theorem strrchr_spec {buf : List UInt8} {c : UInt8} {p : Nat} (found : strrchr buf c = some p) :
    ∃ before after, buf = before ++ c :: after ∧ before.length = p ∧ (∀ b ∈ before, b ≠ 0) ∧ c ≠ 0 ∧
      c ∉ cstr after 0 := by
  induction buf generalizing p with
  | nil => nomatch found
  | cons b buf ih =>
    simp only [strrchr] at found
    split at found
    · nomatch found
    · rename_i live
      cases last : strrchr buf c with
      | some q =>
        rw [last] at found
        cases found
        obtain ⟨before, after, split, length, ascii, nul, off⟩ := ih last
        refine ⟨b :: before, after, by rw [split]; rfl, by simp [length], ?_, nul, off⟩
        exact List.forall_mem_cons.mpr ⟨live, ascii⟩
      | none =>
        rw [last] at found
        dsimp only at found
        split at found
        · rename_i same
          cases found
          subst same
          exact ⟨[], buf, rfl, rfl, nofun, live, strrchr_none last⟩
        · nomatch found

theorem continuation_ge : ∀ b : Fin 256, (b.val ^^^ 0x80) &&& 0xC0 = 0 → 0x80 ≤ b.val := by
  decide +kernel

theorem runeX_ge {i : Nat} (pos : 0 < i) (more : i ≠ 1) : 0x7F ≤ runeX i := by
  have wide : 2 ^ 7 ≤ 2 ^ (7 - i + (i - 1) * 6) := Nat.pow_le_pow_right (by decide) (by omega)
  unfold runeX
  omega

theorem chartoruneLoop_spec (str : ByteMem) (fuel i l : Nat) (follow : ∀ j, 0 < j → j < i → 0x80 ≤ (str j).toNat)
    (pos : 0 < i) :
    0x80 ≤ (chartoruneLoop str fuel i l).1 ∧ 0 < (chartoruneLoop str fuel i l).2 ∧
      ∀ j, 0 < j → j < (chartoruneLoop str fuel i l).2 → 0x80 ≤ (str j).toNat := by
  induction fuel generalizing i l with
  | zero =>
    exact ⟨(by decide : 0x80 ≤ runeerror), Nat.one_pos,
      fun j pos less => absurd pos (Nat.not_lt.mpr (Nat.le_of_lt_succ less))⟩
  | succ fuel ih =>
    have bad : 0x80 ≤ runeerror ∧ 0 < 1 ∧ ∀ j, 0 < j → j < 1 → 0x80 ≤ (str j).toNat :=
      ⟨by decide, Nat.one_pos, fun j pos less => absurd pos (Nat.not_lt.mpr (Nat.le_of_lt_succ less))⟩
    simp only [chartoruneLoop]
    split
    · exact bad
    · rename_i continues
      have here : 0x80 ≤ (str i).toNat := continuation_ge ⟨(str i).toNat, (str i).toNat_lt⟩ (not_not.mp continues)
      have follow' : ∀ j, 0 < j → j < i + 1 → 0x80 ≤ (str j).toNat := fun j pos less => by
        rcases Nat.lt_succ_iff_lt_or_eq.mp less with less | rfl
        · exact follow j pos less
        · exact here
      split
      · split
        · exact bad
        · split
          · exact bad
          · split
            · exact bad
            · rename_i small large _
              refine ⟨?_, Nat.succ_pos i, follow'⟩
              dsimp only
              by_cases one : i = 1
              · exact Nat.not_le.mp fun le => small ⟨one, Or.inr le⟩
              · have above := Nat.not_le.mp fun le => large ⟨one, Or.inl le⟩
                exact Nat.succ_le_of_lt (Nat.lt_of_le_of_lt (runeX_ge pos one) above)
      · exact ih _ _ follow' (Nat.succ_pos i)

theorem chartorune_spec (str : ByteMem) : ((str 0).toNat < 0x80 → chartorune str = ((str 0).toNat, 1)) ∧
    (0x80 ≤ (str 0).toNat → 0x80 ≤ (chartorune str).1 ∧ 0 < (chartorune str).2 ∧
      ∀ j, j < (chartorune str).2 → 0x80 ≤ (str j).toNat) := by
  refine ⟨fun ascii => by simp [chartorune, ascii], fun wide => ?_⟩
  simp only [chartorune, Nat.not_lt.mpr wide, if_false]
  obtain ⟨rune, pos, follow⟩ := chartoruneLoop_spec str (utfmax - 1) 1 (str 0).toNat
    (fun j pos less => absurd pos (Nat.not_lt.mpr (Nat.le_of_lt_succ less))) Nat.one_pos
  refine ⟨rune, pos, fun j less => ?_⟩
  rcases Nat.eq_zero_or_pos j with rfl | later
  · exact wide
  · exact follow j later less

theorem getD_drop {buf before after : List UInt8} {p : UInt8 → Prop} {str i : Nat} (split : buf = before ++ after)
    (all : ∀ b ∈ before.drop str, p b) (less : i < before.length - str) : p (buf.getD (str + i) 0) := by
  have inside : str + i < before.length := by omega
  have here := all _ (List.getElem_mem (by rw [List.length_drop]; exact less : i < (before.drop str).length))
  rw [List.getElem_drop] at here
  rwa [split, List.getD_eq_getElem?_getD, List.getElem?_append_left inside, List.getElem?_eq_getElem inside]

section Split

variable (max fuel str : Nat) (c : UInt8) (f : Fields)

/-- The loop goes over what is no separator, and stays before what ends it. -/
theorem getfieldsLoop_plain (k : Nat) (plain : ∀ i < k, f.buf.getD (str + i) 0 ≠ 0 ∧ f.buf.getD (str + i) 0 ≠ c)
    (stop : (f.buf.getD (str + k) 0).toNat < 0x80) (ascii : c.toNat < 0x80) (enough : k ≤ fuel) :
    ∃ fuel' intok, fuel ≤ fuel' + k ∧
      getfieldsLoop max false [c.toNat] fuel str f =
        getfieldsLoop max false [c.toNat] fuel' (str + k) { f with intok } := by
  induction k using Nat.strongRecOn generalizing fuel str f with
  | ind k ih =>
    rcases Nat.eq_zero_or_pos k with rfl | pos
    · exact ⟨fuel, f.intok, Nat.le_add_right .., rfl⟩
    · obtain ⟨fuel, rfl⟩ := Nat.exists_eq_succ_of_ne_zero (by omega : fuel ≠ 0)
      obtain ⟨nul, other⟩ := plain 0 pos
      rw [Nat.add_zero] at nul other
      obtain ⟨small, wide⟩ := chartorune_spec fun i => f.buf.getD (str + i) 0
      dsimp only [Nat.add_zero] at small wide
      have skips : ∃ r nr, chartorune (fun i => f.buf.getD (str + i) 0) = (r, nr) ∧ r ≠ 0 ∧ r ≠ c.toNat ∧ 0 < nr ∧
          nr ≤ k := by
        by_cases less : (f.buf.getD str 0).toNat < 0x80
        · exact ⟨_, _, small less, fun zero => nul (UInt8.toNat_inj.mp zero),
            fun same => other (UInt8.toNat_inj.mp same), Nat.one_pos, pos⟩
        · obtain ⟨rune, nonempty, follow⟩ := wide (Nat.not_lt.mp less)
          have large : c.toNat < (chartorune fun i => f.buf.getD (str + i) 0).1 := Nat.lt_of_lt_of_le ascii rune
          refine ⟨_, _, rfl, Nat.ne_of_gt (Nat.lt_of_le_of_lt (Nat.zero_le _) large), Nat.ne_of_gt large, nonempty,
            Nat.not_lt.mp fun beyond => ?_⟩
          exact absurd (follow k beyond) (Nat.not_le.mpr stop)
      obtain ⟨r, nr, decoded, zero, separator, positive, within⟩ := skips
      obtain ⟨fuel', intok, spent, same⟩ := ih (k - nr) (by omega) fuel (str + nr)
        { f with narg := if f.intok = false ∧ false = true then f.narg + 1 else f.narg, intok := true }
        (fun i less => by
          have here := plain (nr + i) (by omega)
          rwa [← Nat.add_assoc] at here)
        (by rwa [show str + nr + (k - nr) = str + k from by omega]) (by omega)
      refine ⟨fuel', intok, by omega, ?_⟩
      simp only [getfieldsLoop, decoded, zero, if_false, List.mem_singleton, separator]
      rw [same, show str + nr + (k - nr) = str + k from by omega]
      simp

theorem getfieldsLoop_narg : f.narg ≤ (getfieldsLoop max false [c.toNat] fuel str f).narg := by
  induction fuel generalizing str f with
  | zero => exact le_rfl
  | succ fuel ih =>
    simp only [getfieldsLoop]
    split
    · exact le_rfl
    · split
      · split
        · exact le_rfl
        · exact le_trans (by simp) (ih _ _)
      · exact le_trans (by simp) (ih _ _)

variable (text rest : List UInt8)

/-- `text` has no separator. -/
theorem getfieldsLoop_last (buf : f.buf = text ++ 0 :: rest) (plain : ∀ b ∈ text.drop str, b ≠ 0 ∧ b ≠ c)
    (start : str ≤ text.length) (ascii : c.toNat < 0x80) (enough : text.length - str < fuel) :
    ∃ intok, getfieldsLoop max false [c.toNat] fuel str f = { f with intok } := by
  have zero : f.buf.getD text.length 0 = 0 := by simp [buf]
  obtain ⟨fuel', intok, spent, same⟩ := getfieldsLoop_plain max fuel str c f (text.length - str)
    (fun i less => getD_drop buf plain less)
    (by rw [show str + (text.length - str) = text.length from by omega, zero]; decide) ascii (by omega)
  obtain ⟨fuel', rfl⟩ := Nat.exists_eq_succ_of_ne_zero (by omega : fuel' ≠ 0)
  refine ⟨intok, ?_⟩
  rw [same, show str + (text.length - str) = text.length from by omega]
  have nul := (chartorune_spec fun i => f.buf.getD (text.length + i) 0).1
  simp only [Nat.add_zero, zero] at nul
  simp only [getfieldsLoop, nul (by decide)]
  rw [if_pos (show UInt8.toNat 0 = 0 from rfl)]

/-- `before` is the text up to the next separator. -/
theorem getfieldsLoop_next (before after : List UInt8) (buf : f.buf = before ++ c :: after)
    (plain : ∀ b ∈ before.drop str, b ≠ 0 ∧ b ≠ c) (nul : c ≠ 0) (start : str ≤ before.length) (ascii : c.toNat < 0x80)
    (enough : before.length - str < fuel) (room : f.narg < max) :
    ∃ fuel', fuel ≤ fuel' + (before.length - str) + 1 ∧ getfieldsLoop max false [c.toNat] fuel str f =
      getfieldsLoop max false [c.toNat] fuel' (before.length + 1)
        ⟨before ++ 0 :: after, f.args.set f.narg (before.length + 1), f.narg + 1, false⟩ := by
  have separator : f.buf.getD before.length 0 = c := by simp [buf]
  obtain ⟨fuel', intok, spent, same⟩ := getfieldsLoop_plain max fuel str c f (before.length - str)
    (fun i less => getD_drop buf plain less)
    (by rwa [show str + (before.length - str) = before.length from by omega, separator]) ascii (by omega)
  obtain ⟨fuel', rfl⟩ := Nat.exists_eq_succ_of_ne_zero (by omega : fuel' ≠ 0)
  refine ⟨fuel', by omega, ?_⟩
  rw [same, show str + (before.length - str) = before.length from by omega]
  have decoded := (chartorune_spec fun i => f.buf.getD (before.length + i) 0).1
  simp only [Nat.add_zero, separator] at decoded
  have live : c.toNat ≠ 0 := fun zero => nul (UInt8.toNat_inj.mp zero)
  simp only [getfieldsLoop, decoded ascii, live, if_false, List.mem_singleton, if_true, ge_iff_le, Nat.not_le.mpr room,
    Bool.false_eq_true]
  rw [buf, List.set_append_right _ _ le_rfl, Nat.sub_self, List.set_cons_zero]

end Split

/-- What `getfields` finds in a string when it may find three fields. -/
theorem getfields_spec (text rest : List UInt8) {c : UInt8} {f : Fields} (ended : ∀ b ∈ text, b ≠ 0) (nul : c ≠ 0)
    (ascii : c.toNat < 0x80) (value : getfields 3 false [c.toNat] (text ++ 0 :: rest) 0 = f) :
    (f.narg = 1 → c ∉ text ∧ f.buf = text ++ 0 :: rest ∧ f.args = [0, 0, 0]) ∧
      (f.narg = 2 → ∃ u v, text = u ++ c :: v ∧ c ∉ u ∧ c ∉ v ∧ f.buf = u ++ 0 :: v ++ 0 :: rest ∧
        f.args = [0, u.length + 1, 0]) := by
  change getfieldsLoop 3 false [c.toNat] ((text ++ 0 :: rest).length + 1) 0
    ⟨text ++ 0 :: rest, [0, 0, 0], 1, false⟩ = f at value
  have plain : ∀ part : List UInt8, (∀ b ∈ part, b ∈ text) → c ∉ part → ∀ b ∈ part, b ≠ 0 ∧ b ≠ c :=
    fun part sub off b member => ⟨ended b (sub b member), fun same => off (same ▸ member)⟩
  by_cases has : c ∈ text
  · obtain ⟨u, v, rfl, off⟩ := List.eq_append_cons_of_mem has
    obtain ⟨fuel, spent, first⟩ := getfieldsLoop_next 3 ((u ++ c :: v ++ 0 :: rest).length + 1) 0 c
      ⟨u ++ c :: v ++ 0 :: rest, [0, 0, 0], 1, false⟩ u (v ++ 0 :: rest) (by simp)
      (by simpa using plain u (fun b member => List.mem_append_left _ member) off) nul (Nat.zero_le _) ascii
      (by simp only [List.length_append, List.length_cons]; omega) (show 1 < 3 by decide)
    rw [first] at value
    have atV : (u ++ 0 :: v).drop (u.length + 1) = v := by
      rw [← List.drop_drop]
      simp
    have enough : v.length < fuel := by
      simp only [List.length_append, List.length_cons, Nat.sub_zero] at spent
      omega
    by_cases again : c ∈ v
    · obtain ⟨x, y, rfl, off'⟩ := List.eq_append_cons_of_mem again
      have atX : (u ++ 0 :: x).drop (u.length + 1) = x := by
        rw [← List.drop_drop]
        simp
      obtain ⟨fuel', _, second⟩ := getfieldsLoop_next 3 fuel (u.length + 1) c
        ⟨u ++ 0 :: (x ++ c :: y ++ 0 :: rest), [0, u.length + 1, 0], 2, false⟩ (u ++ 0 :: x) (y ++ 0 :: rest) (by simp)
        (by
          rw [atX]
          exact plain x (fun b member => by simp [member]) off') nul (by simp) ascii
        (by
          simp only [List.length_append, List.length_cons] at enough ⊢
          omega)
        (show 2 < 3 by decide)
      have grown := getfieldsLoop_narg 3 fuel' ((u ++ 0 :: x).length + 1) c
        ⟨u ++ 0 :: x ++ 0 :: (y ++ 0 :: rest), [0, u.length + 1, (u ++ 0 :: x).length + 1], 3, false⟩
      have three : 3 ≤ f.narg := by
        rw [← value]
        exact second ▸ grown
      exact ⟨fun one => by omega, fun two => by omega⟩
    · obtain ⟨intok, last⟩ := getfieldsLoop_last 3 fuel (u.length + 1) c
        ⟨u ++ 0 :: (v ++ 0 :: rest), [0, u.length + 1, 0], 2, false⟩ (u ++ 0 :: v) rest (by simp)
        (by
          rw [atV]
          exact plain v (fun b member => by simp [member]) again) (by simp) ascii
        (by
          simp only [List.length_append, List.length_cons]
          omega)
      have two : f = ⟨u ++ 0 :: (v ++ 0 :: rest), [0, u.length + 1, 0], 2, intok⟩ := value.symm.trans last
      rw [two]
      exact ⟨nofun, fun _ => ⟨u, v, rfl, off, again, by simp, rfl⟩⟩
  · obtain ⟨intok, last⟩ := getfieldsLoop_last 3 ((text ++ 0 :: rest).length + 1) 0 c
      ⟨text ++ 0 :: rest, [0, 0, 0], 1, false⟩ text rest rfl
      (by simpa using plain text (fun _ member => member) has) (Nat.zero_le _) ascii
      (by simp only [List.length_append, List.length_cons]; omega)
    have one : f = ⟨text ++ 0 :: rest, [0, 0, 0], 1, intok⟩ := value.symm.trans last
    rw [one]
    exact ⟨fun _ => ⟨has, rfl, rfl⟩, nofun⟩

end Inferno.Strings
