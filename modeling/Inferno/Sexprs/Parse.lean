import Inferno.Sexprs.Pack

namespace Inferno.Sexprs

open Strings Styxlib

section Steps

variable {ε σ α β : Type} {m : EStateM ε σ α} {k : α → EStateM ε σ β} {s t : σ} {x : α} {e : ε}

theorem ok_then (run : m s = .ok x t) : (m >>= k) s = k x t := by
  change EStateM.bind m k s = k x t
  unfold EStateM.bind
  rw [run]

theorem error_then (run : m s = .error e t) : (m >>= k) s = .error e t := by
  change EStateM.bind m k s = .error e t
  unfold EStateM.bind
  rw [run]

end Steps

variable {junk : UInt8} {a b l : List UInt8} {c : UInt8} {k steps : Nat}

/-- The buffer of an `unpack`, `k` bytes on. -/
def at_ (a : List UInt8) (k : Nat) : Iobuf := ⟨a, k, a.length, 0⟩

theorem getb_at (ahead : a.drop k = c :: l) : Rd.getb (at_ a k) = .ok (c.toNat : Int) (at_ a (k + 1)) := by
  have found : a[k]? = some c := by
    rw [← List.head?_drop, ahead]
    rfl
  obtain ⟨inside, -⟩ := List.getElem?_eq_some_iff.mp found
  change Iobuf.getb (at_ a k) = _
  unfold Iobuf.getb at_
  dsimp only
  rw [if_neg (by omega), if_neg (by omega), Int.toNat_natCast, found]
  rfl

theorem ungetb_at : Rd.ungetb (at_ a (k + 1)) = .ok () (at_ a k) := by
  change Iobuf.ungetb (at_ a (k + 1)) = _
  unfold Iobuf.ungetb at_
  simp only [Int.natCast_add, Int.cast_ofNat_Int, Int.add_sub_cancel]

theorem offset_at {b : Iobuf} : (Rd.offset : EStateM Err Iobuf Int) b = .ok b.offset b := rfl

theorem drop_next (ahead : a.drop k = c :: l) : a.drop (k + 1) = l := by
  rw [← List.drop_drop, ahead]
  rfl

theorem drop_more (ahead : a.drop k = b ++ l) : a.drop (k + b.length) = l := by
  rw [← List.drop_drop, ahead, List.drop_left]

theorem ws_at (ahead : a.drop k = c :: l) (solid : isspace c.toNat = false) :
    Rd.ws (steps + 1) (at_ a k) = .ok (c.toNat : Int) (at_ a (k + 1)) := by
  unfold Rd.ws
  rw [ok_then (getb_at ahead), solid]
  rfl

/-- The bytes of a decimal. -/
def Digits (b : List UInt8) : Prop := ∀ c ∈ b, isdigit c.toNat = true

theorem isdigit_iff {c : Int} : isdigit c = true ↔ 0x30 ≤ c ∧ c ≤ 0x39 := decide_eq_true_iff

theorem digit_byte {d : Nat} (small : d < 10) : (UInt8.ofNat (0x30 + d)).toNat = 0x30 + d := by
  rw [UInt8.toNat_ofNat']
  omega

theorem decimal_digits (n : Nat) : Digits (decimal n) := by
  induction n using decimal.induct with
  | case1 n small =>
    unfold decimal
    rw [if_pos small]
    intro c member
    obtain rfl := List.mem_singleton.mp member
    rw [isdigit_iff, digit_byte small]
    omega
  | case2 n large ih =>
    unfold decimal
    rw [if_neg large]
    intro c member
    rcases List.mem_append.mp member with before | last
    · exact ih c before
    · obtain rfl := List.mem_singleton.mp last
      rw [isdigit_iff, digit_byte (Nat.mod_lt n (by decide))]
      omega

/-- What `dec` becomes over the digits `b`. -/
def reading (b : List UInt8) (dec : Int) : Int := b.foldl (fun dec c => dec * 10 + c.toNat - 0x30) dec

theorem reading_decimal (n : Nat) : reading (decimal n) 0 = n := by
  unfold reading
  induction n using decimal.induct with
  | case1 n small =>
    unfold decimal
    rw [if_pos small, List.foldl_cons, List.foldl_nil, digit_byte small]
    omega
  | case2 n large ih =>
    unfold decimal
    rw [if_neg large, List.foldl_append, ih, List.foldl_cons, List.foldl_nil, digit_byte (Nat.mod_lt n (by decide))]
    omega

theorem decimal_cons (n : Nat) : ∃ d ds, decimal n = d :: ds := by
  unfold decimal
  split
  · exact ⟨_, [], rfl⟩
  · obtain ⟨d, ds, eq⟩ := List.exists_cons_of_length_pos (l := decimal (n / 10) ++ [UInt8.ofNat (0x30 + n % 10)]) (by
      rw [List.length_append]
      exact Nat.lt_of_lt_of_le Nat.zero_lt_one (Nat.le_add_left 1 _))
    exact ⟨d, ds, eq⟩

/-- The loop over the digits `d :: ds`, up to a byte `x` that is none. -/
theorem digits_at {x : UInt8} (other : isdigit x.toNat = false) : ∀ {ds : List UInt8} {d : UInt8} {k steps : Nat} (dec : Int) (decs : Text),
    Digits (d :: ds) → a.drop k = ds ++ x :: l → ds.length + 1 < steps →
      ∃ decs', decs' ≠ [] ∧ Rd.digits steps d.toNat (Int64.ofInt dec) decs (at_ a k) =
        .ok ((x.toNat : Int), Int64.ofInt (reading (d :: ds) dec), decs') (at_ a (k + ds.length + 1))
  | [], d, k, steps + 2, dec, decs, all, ahead, enough => by
    refine ⟨decs ++ [d.toNat], by simp, ?_⟩
    unfold Rd.digits
    rw [all d (List.mem_singleton_self d), if_pos rfl, ok_then (getb_at ahead)]
    unfold Rd.digits
    rw [other, if_neg Bool.false_ne_true]
    simp only [reading, List.foldl_cons, List.foldl_nil, Int64.ofInt_sub, Int64.ofInt_add, Int64.ofInt_mul]
    rfl
  | d' :: ds, d, k, steps + 1, dec, decs, all, ahead, enough => by
    obtain ⟨first, rest⟩ := List.forall_mem_cons.mp all
    rw [List.length_cons] at enough
    obtain ⟨decs', some_, run⟩ := digits_at other (dec * 10 + d.toNat - 0x30) (decs ++ [(d.toNat : Int).toNat]) rest
      (drop_next ahead) (by omega : ds.length + 1 < steps)
    refine ⟨decs', some_, ?_⟩
    unfold Rd.digits
    rw [first, if_pos rfl, ok_then (getb_at ahead)]
    rw [Int64.ofInt_sub, Int64.ofInt_add, Int64.ofInt_mul] at run
    rw [List.length_cons, ← Nat.add_assoc, Nat.add_right_comm k]
    exact run

theorem raw_at : ∀ {b : List UInt8} {k : Nat}, a.drop k = b ++ l →
    Rd.raw b.length (at_ a k) = .ok b (at_ a (k + b.length))
  | [], k, ahead => rfl
  | c :: b, k, ahead => by
    rw [List.length_cons]
    unfold Rd.raw
    rw [ok_then (getb_at ahead), if_neg (by omega)]
    dsimp only
    rw [ok_then (raw_at (drop_next ahead)), Int.toNat_natCast, UInt8.ofNat_toNat, Nat.add_right_comm, Nat.add_assoc]
    rfl

theorem toInt_ofInt {n : Nat} (small : n ≤ Maxtoken) : (Int64.ofInt n).toInt = n := by
  unfold Maxtoken at small
  exact Int64.toInt_ofInt_of_le (by omega) (by omega)

/-- A raw token from its first digit on. -/
theorem token_at {hint : Text} (small : b.length ≤ Maxtoken) (ahead : a.drop k = tok b ++ l) (enough : (tok b).length < steps) :
    ∃ d : UInt8, isdigit d.toNat = true ∧ a.drop k = d :: a.drop (k + 1) ∧
      Rd.simplestring steps d.toNat hint (at_ a (k + 1)) = .ok (sform b hint) (at_ a (k + (tok b).length)) := by
  obtain ⟨d, ds, first⟩ := decimal_cons b.length
  have all := decimal_digits b.length
  have value := reading_decimal b.length
  have length : (tok b).length = ds.length + 2 + b.length := by
    rw [tok, aprint, first, List.length_append, List.length_append, List.length_cons]
    rfl
  rw [first] at all value
  rw [tok, aprint, first, List.append_assoc, List.append_assoc, List.cons_append] at ahead
  have next := drop_next ahead
  have digit := all d (List.mem_cons_self ..)
  refine ⟨d, digit, by rw [ahead, next], ?_⟩
  obtain ⟨decs, some_, run⟩ := @digits_at _ _ 0x3A (by decide) _ _ _ steps 0 [] all next (by omega)
  rw [value] at run
  have number := toInt_ofInt small
  have positive : Int64.ofInt b.length ≥ 0 := by
    rw [ge_iff_le, Int64.le_iff_toInt_le, number]
    exact Int.natCast_nonneg _
  have sensible : ¬(Int64.ofInt b.length < 0 ∨ (Int64.ofInt b.length).toInt > Maxtoken) := by
    rintro (negative | large)
    · rw [Int64.lt_iff_toInt_lt, number] at negative
      exact absurd negative (Int.not_lt.mpr (Int.natCast_nonneg _))
    · rw [number] at large
      omega
  have counted : Rd.decimal steps d.toNat (at_ a (k + 1)) = .ok (0x3A, Int64.ofInt b.length, decs) (at_ a (k + 1 + ds.length + 1)) := by
    unfold Rd.decimal
    rw [digit, if_pos rfl]
    exact (ok_then run).trans (by dsimp only; rw [if_neg sensible]; rfl)
  have after : a.drop (k + 1 + ds.length + 1) = b ++ l := drop_next (drop_more next)
  unfold Rd.simplestring
  rw [ok_then counted]
  dsimp only
  rw [if_neg (by decide), if_neg (by decide), if_neg (by decide), if_pos ⟨by decide, positive⟩, number, Int.toNat_natCast,
    ok_then (raw_at after), length]
  refine congrArg (fun n => EStateM.Result.ok (sform b hint) (at_ a n)) ?_
  omega

end Inferno.Sexprs
