import Inferno.Lib9.Stat

namespace Inferno.Lib9

/-- What a routine returns, and what it writes from the start of its buffer on. -/
structure Wrote where
  ret : Int
  bytes : List UInt8

/-- The text that an encoder leaves: what it counts, without the NUL. -/
def Wrote.text (w : Wrote) : List UInt8 := w.bytes.take w.ret.toNat

/-- `0123456789ABCDEF`. -/
def t16e : List Nat := List.range' 48 10 ++ List.range' 65 6

/-- `23456789abcdefghijkmnpqrstuvwxyz`. -/
def tab32 : List Nat := List.range' 50 8 ++ List.range' 97 11 ++ List.range' 109 2 ++ List.range' 112 11

/-- `A..Za..z0..9+/`. -/
def t64e : List Nat := List.range' 65 26 ++ List.range' 97 26 ++ List.range' 48 10 ++ [43, 47]

/-- A character of a table. -/
def char (table : List Nat) (j : Nat) : UInt8 := UInt8.ofNat (table.getD j 0)

def digit16 (c : Nat) : Option Nat :=
  if 48 ≤ c ∧ c ≤ 57 then some (c - 48)
  else if 97 ≤ c ∧ c ≤ 122 then some (c - 97 + 10)
  else if 65 ≤ c ∧ c ≤ 90 then some (c - 65 + 10)
  else none

def dec16Loop (lim : Nat) : List UInt8 → Nat → Nat → List UInt8 → List UInt8
  | [], _, _, out => out
  | c :: src, w, i, out =>
    match digit16 c.toNat with
    | none => dec16Loop lim src w i out
    | some c =>
      let w := w <<< 4 + c
      if i + 1 = 2 then
        if out.length + 1 > lim then out
        else dec16Loop lim src 0 0 (out ++ [UInt8.ofNat w])
      else dec16Loop lim src w (i + 1) out

def dec16 (lim : Nat) (src : List UInt8) : Wrote :=
  let out := dec16Loop lim src 0 0 []
  ⟨out.length, out⟩

def enc16Loop (lim : Nat) : List UInt8 → List UInt8 → List UInt8
  | [], out => out
  | c :: src, out =>
    if out.length + 2 ≥ lim then out
    else enc16Loop lim src (out ++ [char t16e (c.toNat >>> 4), char t16e (c.toNat &&& 0xf)])

def enc16 (lim : Nat) (src : List UInt8) : Wrote :=
  let out := enc16Loop lim src []
  ⟨out.length, out ++ [0]⟩

/-- The place of a character in the table, as `strchr` finds it: the NUL is at the end of it. -/
def place32 (c : UInt8) : Nat := if c = 0 then 32 else (tab32.idxOf? c.toNat).getD 0

section Group

variable (a b c : Nat)

def put0 : UInt8 := UInt8.ofNat ((a <<< 3) ||| (0x7 &&& (b >>> 2)))
def put1 : UInt8 := UInt8.ofNat (((0x3 &&& a) <<< 6) ||| (b <<< 1) ||| (0x1 &&& (c >>> 4)))
def put2 : UInt8 := UInt8.ofNat (((0xf &&& a) <<< 4) ||| (0xf &&& (b >>> 1)))
def put3 : UInt8 := UInt8.ofNat (((0x1 &&& a) <<< 7) ||| (b <<< 2) ||| (0x3 &&& (c >>> 3)))
def put4 : UInt8 := UInt8.ofNat (((0x7 &&& a) <<< 5) ||| b)

def get0 : Nat := 0x1f &&& (a >>> 3)
def get1 : Nat := (0x1c &&& (a <<< 2)) ||| (0x03 &&& (b >>> 6))
def get2 : Nat := 0x1f &&& (a >>> 1)
def get3 : Nat := (0x10 &&& (a <<< 4)) ||| (0x0f &&& (b >>> 4))
def get4 : Nat := (0x1e &&& (a <<< 1)) ||| (0x01 &&& (b >>> 7))
def get5 : Nat := 0x1f &&& (a >>> 2)
def get6 : Nat := (0x18 &&& (a <<< 3)) ||| (0x07 &&& (b >>> 5))
def get7 : Nat := 0x1f &&& a

end Group

/-- The groups of eight, and the tail; whether its length is one that is taken. -/
def dec32Loop (src : List UInt8) : List UInt8 × Bool :=
  let u (i : Nat) := place32 (src.getD i 0)
  if src.length ≥ 8 then
    let rest := dec32Loop (src.drop 8)
    (put0 (u 0) (u 1) :: put1 (u 1) (u 2) (u 3) :: put2 (u 3) (u 4) :: put3 (u 4) (u 5) (u 6) :: put4 (u 6) (u 7) :: rest.1, rest.2)
  else
    match src.length with
    | 0 => ([], true)
    | 2 => ([put0 (u 0) (u 1)], true)
    | 4 => ([put0 (u 0) (u 1), put1 (u 1) (u 2) (u 3)], true)
    | 5 => ([put0 (u 0) (u 1), put1 (u 1) (u 2) (u 3), put2 (u 3) (u 4)], true)
    | 7 => ([put0 (u 0) (u 1), put1 (u 1) (u 2) (u 3), put2 (u 3) (u 4), put3 (u 4) (u 5) (u 6)], true)
    | _ => ([], false)
termination_by src.length
decreasing_by rw [List.length_drop]; omega

/-- `dec32`; an `int` wraps. -/
def dec32 (ndest : Nat) (src : List UInt8) : Wrote :=
  if Int.bmod (ndest + 1) (2 ^ 32) < (Int.bmod (5 * src.length + 7) (2 ^ 32)).tdiv 8 then ⟨-1, []⟩
  else
    let (dest, ok) := dec32Loop src
    ⟨if ok then dest.length else -1, dest⟩

/-- The groups of five, and the tail: the last character of it is of the bits that were at hand at the jump. -/
def enc32Loop (src : List UInt8) : List UInt8 :=
  let s (i : Nat) := (src.getD i 0).toNat
  if src.length ≥ 5 then
    char tab32 (get0 (s 0)) :: char tab32 (get1 (s 0) (s 1)) :: char tab32 (get2 (s 1)) :: char tab32 (get3 (s 1) (s 2)) ::
      char tab32 (get4 (s 2) (s 3)) :: char tab32 (get5 (s 3)) :: char tab32 (get6 (s 3) (s 4)) :: char tab32 (get7 (s 4)) ::
      enc32Loop (src.drop 5)
  else
    match src.length with
    | 0 => []
    | 1 => [char tab32 (get0 (s 0)), char tab32 (0x1c &&& (s 0 <<< 2))]
    | 2 => [char tab32 (get0 (s 0)), char tab32 (get1 (s 0) (s 1)), char tab32 (get2 (s 1))]
    | 3 =>
      [char tab32 (get0 (s 0)), char tab32 (get1 (s 0) (s 1)), char tab32 (get2 (s 1)), char tab32 (0x10 &&& (s 1 <<< 4))]
    | _ =>
      [char tab32 (get0 (s 0)), char tab32 (get1 (s 0) (s 1)), char tab32 (get2 (s 1)), char tab32 (get3 (s 1) (s 2)),
        char tab32 (0x1e &&& (s 2 <<< 1))]
termination_by src.length
decreasing_by rw [List.length_drop]; omega

def enc32 (ndest : Nat) (src : List UInt8) : Wrote :=
  if ndest ≤ (Int.bmod (8 * src.length + 4) (2 ^ 32)).tdiv 5 then ⟨-1, []⟩
  else
    let dest := enc32Loop src
    ⟨dest.length, dest ++ [0]⟩

/-- `t64d`, where `none` is `INVAL`. -/
def t64d (c : Nat) : Option Nat :=
  if c = 43 then some 62
  else if c = 47 then some 63
  else if 48 ≤ c ∧ c ≤ 57 then some (c - 48 + 52)
  else if 65 ≤ c ∧ c ≤ 90 then some (c - 65)
  else if 97 ≤ c ∧ c ≤ 122 then some (c - 97 + 26)
  else none

/-- The loop of `dec64`; the last two tell where it ends, if it does so by the end of the text. -/
def dec64Loop (lim : Nat) : List UInt8 → Nat → Nat → List UInt8 → List UInt8 × Option (Nat × Nat)
  | [], b24, i, out => (out, some (b24, i))
  | c :: src, b24, i, out =>
    match t64d c.toNat with
    | none => dec64Loop lim src b24 i out
    | some c =>
      match i with
      | 0 => dec64Loop lim src (c <<< 18) 1 out
      | 1 => dec64Loop lim src (b24 ||| c <<< 12) 2 out
      | 2 => dec64Loop lim src (b24 ||| c <<< 6) 3 out
      | _ =>
        if out.length + 3 > lim then (out, none)
        else
          let b24 := b24 ||| c
          dec64Loop lim src b24 0 (out ++ [UInt8.ofNat (b24 >>> 16), UInt8.ofNat (b24 >>> 8), UInt8.ofNat b24])

/-- What `dec64` does after its loop. -/
def dec64End (lim : Nat) : List UInt8 × Option (Nat × Nat) → List UInt8
  | (out, some (b24, 2)) => if out.length + 1 > lim then out else out ++ [UInt8.ofNat (b24 >>> 16)]
  | (out, some (b24, 3)) =>
    if out.length + 2 > lim then out else out ++ [UInt8.ofNat (b24 >>> 16), UInt8.ofNat (b24 >>> 8)]
  | (out, _) => out

def dec64 (lim : Nat) (src : List UInt8) : Wrote :=
  let out := dec64End lim (dec64Loop lim src 0 0 [])
  ⟨out.length, out⟩

/-- The groups of three, and the tail. -/
def enc64Loop (lim : Nat) : List UInt8 → List UInt8 → List UInt8
  | a :: b :: c :: src, out =>
    let b24 := a.toNat <<< 16 ||| b.toNat <<< 8 ||| c.toNat
    if out.length + 4 ≥ lim then out
    else enc64Loop lim src (out ++
      [char t64e (b24 >>> 18), char t64e ((b24 >>> 12) &&& 0x3f), char t64e ((b24 >>> 6) &&& 0x3f), char t64e (b24 &&& 0x3f)])
  | [a, b], out =>
    let b24 := a.toNat <<< 16 ||| b.toNat <<< 8
    if out.length + 4 ≥ lim then out
    else out ++ [char t64e (b24 >>> 18), char t64e ((b24 >>> 12) &&& 0x3f), char t64e ((b24 >>> 6) &&& 0x3f), 61]
  | [a], out =>
    let b24 := a.toNat <<< 16
    if out.length + 4 ≥ lim then out
    else out ++ [char t64e (b24 >>> 18), char t64e ((b24 >>> 12) &&& 0x3f), 61, 61]
  | [], out => out

def enc64 (lim : Nat) (src : List UInt8) : Wrote :=
  let out := enc64Loop lim src []
  ⟨out.length, out ++ [0]⟩

section Sixteen

variable {lim w i : Nat} {src out : List UInt8}

theorem and_low (k x : Nat) : (2 ^ k - 1) &&& x = x % 2 ^ k := by
  rw [Nat.and_comm, Nat.and_two_pow_sub_one_eq_mod]

/-- Each digit reads back as its own value. -/
theorem digit16_char : ∀ j < 16, digit16 (char t16e j).toNat = some j := by decide

theorem enc16Loop_eq (room : out.length + 2 * src.length < lim) :
    enc16Loop lim src out =
      out ++ src.flatMap fun c => [char t16e (c.toNat >>> 4), char t16e (c.toNat &&& 0xf)] := by
  induction src generalizing out with
  | nil => exact (List.append_nil out).symm
  | cons c src ih =>
    rw [List.length_cons] at room
    rw [enc16Loop, if_neg (by omega), ih (by simp only [List.length_append, List.length_cons, List.length_nil]; omega),
      List.append_assoc]
    rfl

theorem dec16Loop_eq (room : out.length + src.length ≤ lim) :
    dec16Loop lim (src.flatMap fun c => [char t16e (c.toNat >>> 4), char t16e (c.toNat &&& 0xf)]) 0 0 out = out ++ src := by
  induction src generalizing out with
  | nil => exact (List.append_nil out).symm
  | cons c src ih =>
    have byte := c.toNat_lt
    have high : c.toNat >>> 4 = c.toNat / 16 := Nat.shiftRight_eq_div_pow _ 4
    have low : c.toNat &&& 0xf = c.toNat % 16 := Nat.and_two_pow_sub_one_eq_mod _ 4
    have whole : c.toNat / 16 * 16 + c.toNat % 16 = c.toNat := by omega
    rw [List.length_cons] at room
    rw [List.flatMap_cons, high, low, List.cons_append, List.cons_append, List.nil_append, dec16Loop, digit16_char _ (by omega)]
    dsimp only
    rw [if_neg (by decide), dec16Loop, digit16_char _ (by omega)]
    dsimp only
    rw [if_pos rfl, if_neg (by omega), Nat.zero_shiftLeft, Nat.zero_add, Nat.shiftLeft_eq, whole,
      ih (by rw [List.length_append, List.length_singleton]; omega), UInt8.ofNat_toNat, List.append_assoc]
    rfl

theorem dec16Loop_le (room : out.length ≤ lim) : (dec16Loop lim src w i out).length ≤ lim := by
  induction src generalizing w i out with
  | nil => exact room
  | cons c src ih =>
    rw [dec16Loop]
    split
    · exact ih room
    · dsimp only
      split
      · split
        · exact room
        · exact ih (by rw [List.length_append, List.length_singleton]; omega)
      · exact ih room

theorem enc16Loop_less (room : out.length < lim) : (enc16Loop lim src out).length < lim := by
  induction src generalizing out with
  | nil => exact room
  | cons c src ih =>
    rw [enc16Loop]
    split
    · exact room
    · exact ih (by simp only [List.length_append, List.length_cons, List.length_nil]; omega)

end Sixteen

section ThirtyTwo

variable {a b c d e : Nat}

theorem and_high (w k x : Nat) : ((2 ^ w - 1) <<< k) &&& (x <<< k) = x % 2 ^ w * 2 ^ k := by
  rw [← Nat.shiftLeft_and_distrib, and_low, Nat.shiftLeft_eq]

theorem or_low {x y : Nat} (k : Nat) (small : y < 2 ^ k) : x * 2 ^ k ||| y = x * 2 ^ k + y := by
  rw [← Nat.shiftLeft_eq, Nat.shiftLeft_add_eq_or_of_lt small]

theorem get0_eq (a : Nat) : get0 a = a / 8 % 32 := (and_low 5 _).trans (congrArg (· % 32) (Nat.shiftRight_eq_div_pow a 3))
theorem get2_eq (a : Nat) : get2 a = a / 2 % 32 := (and_low 5 _).trans (congrArg (· % 32) (Nat.shiftRight_eq_div_pow a 1))
theorem get5_eq (a : Nat) : get5 a = a / 4 % 32 := (and_low 5 _).trans (congrArg (· % 32) (Nat.shiftRight_eq_div_pow a 2))
theorem get7_eq (a : Nat) : get7 a = a % 32 := and_low 5 a

theorem get1_eq (a b : Nat) : get1 a b = a % 8 * 4 + b / 64 % 4 := by
  have high : 0x1c &&& (a <<< 2) = a % 8 * 2 ^ 2 := and_high 3 2 a
  have low : 0x03 &&& (b >>> 6) = b / 64 % 4 := (and_low 2 _).trans (congrArg (· % 4) (Nat.shiftRight_eq_div_pow b 6))
  rw [get1, high, low, or_low 2 (by omega)]
  rfl

theorem get3_eq (a b : Nat) : get3 a b = a % 2 * 16 + b / 16 % 16 := by
  have high : 0x10 &&& (a <<< 4) = a % 2 * 2 ^ 4 := and_high 1 4 a
  have low : 0x0f &&& (b >>> 4) = b / 16 % 16 := (and_low 4 _).trans (congrArg (· % 16) (Nat.shiftRight_eq_div_pow b 4))
  rw [get3, high, low, or_low 4 (by omega)]
  rfl

theorem get4_eq (a b : Nat) : get4 a b = a % 16 * 2 + b / 128 % 2 := by
  have high : 0x1e &&& (a <<< 1) = a % 16 * 2 ^ 1 := and_high 4 1 a
  have low : 0x01 &&& (b >>> 7) = b / 128 % 2 := (and_low 1 _).trans (congrArg (· % 2) (Nat.shiftRight_eq_div_pow b 7))
  rw [get4, high, low, or_low 1 (by omega)]
  rfl

theorem get6_eq (a b : Nat) : get6 a b = a % 4 * 8 + b / 32 % 8 := by
  have high : 0x18 &&& (a <<< 3) = a % 4 * 2 ^ 3 := and_high 2 3 a
  have low : 0x07 &&& (b >>> 5) = b / 32 % 8 := (and_low 3 _).trans (congrArg (· % 8) (Nat.shiftRight_eq_div_pow b 5))
  rw [get6, high, low, or_low 3 (by omega)]
  rfl

theorem put0_eq (a b : Nat) : put0 a b = UInt8.ofNat (a * 8 + b / 4 % 8) := by
  have low : 0x7 &&& (b >>> 2) = b / 4 % 8 := (and_low 3 _).trans (congrArg (· % 8) (Nat.shiftRight_eq_div_pow b 2))
  rw [put0, low, Nat.shiftLeft_eq, or_low 3 (by omega)]
  rfl

theorem put1_eq (small : b < 32) : put1 a b c = UInt8.ofNat (a % 4 * 64 + b * 2 + c / 16 % 2) := by
  have high : (0x3 &&& a) <<< 6 = a % 4 * 2 ^ 6 := by rw [Nat.shiftLeft_eq, show 0x3 &&& a = a % 4 from and_low 2 a]
  have low : 0x1 &&& (c >>> 4) = c / 16 % 2 := (and_low 1 _).trans (congrArg (· % 2) (Nat.shiftRight_eq_div_pow c 4))
  have middle : a % 4 * 2 ^ 6 ||| b * 2 ^ 1 = (a % 4 * 32 + b) * 2 ^ 1 := by
    rw [or_low 6 (by omega)]
    omega
  rw [put1, high, low, Nat.shiftLeft_eq b, middle, or_low 1 (by omega)]
  exact congrArg UInt8.ofNat (by omega)

theorem put2_eq (a b : Nat) : put2 a b = UInt8.ofNat (a % 16 * 16 + b / 2 % 16) := by
  have high : (0xf &&& a) <<< 4 = a % 16 * 2 ^ 4 := by rw [Nat.shiftLeft_eq, show 0xf &&& a = a % 16 from and_low 4 a]
  have low : 0xf &&& (b >>> 1) = b / 2 % 16 := (and_low 4 _).trans (congrArg (· % 16) (Nat.shiftRight_eq_div_pow b 1))
  rw [put2, high, low, or_low 4 (by omega)]
  rfl

theorem put3_eq (small : b < 32) : put3 a b c = UInt8.ofNat (a % 2 * 128 + b * 4 + c / 8 % 4) := by
  have high : (0x1 &&& a) <<< 7 = a % 2 * 2 ^ 7 := by rw [Nat.shiftLeft_eq, show 0x1 &&& a = a % 2 from and_low 1 a]
  have low : 0x3 &&& (c >>> 3) = c / 8 % 4 := (and_low 2 _).trans (congrArg (· % 4) (Nat.shiftRight_eq_div_pow c 3))
  have middle : a % 2 * 2 ^ 7 ||| b * 2 ^ 2 = (a % 2 * 32 + b) * 2 ^ 2 := by
    rw [or_low 7 (by omega)]
    omega
  rw [put3, high, low, Nat.shiftLeft_eq b, middle, or_low 2 (by omega)]
  exact congrArg UInt8.ofNat (by omega)

theorem put4_eq (small : b < 32) : put4 a b = UInt8.ofNat (a % 8 * 32 + b) := by
  have high : (0x7 &&& a) <<< 5 = a % 8 * 2 ^ 5 := by rw [Nat.shiftLeft_eq, show 0x7 &&& a = a % 8 from and_low 3 a]
  rw [put4, high, or_low 5 small]
  rfl

theorem place32_char : ∀ j < 32, place32 (char tab32 j) = j := by decide

/-- The last character of a tail, which has the high bits of a byte alone. -/
theorem place32_tail (a : Nat) : place32 (char tab32 (0x1c &&& (a <<< 2))) = a % 8 * 4 ∧
    place32 (char tab32 (0x10 &&& (a <<< 4))) = a % 2 * 16 ∧ place32 (char tab32 (0x1e &&& (a <<< 1))) = a % 16 * 2 := by
  have first : 0x1c &&& (a <<< 2) = a % 8 * 4 := and_high 3 2 a
  have second : 0x10 &&& (a <<< 4) = a % 2 * 16 := and_high 1 4 a
  have third : 0x1e &&& (a <<< 1) = a % 16 * 2 := and_high 4 1 a
  rw [first, second, third]
  exact ⟨place32_char _ (by omega), place32_char _ (by omega), place32_char _ (by omega)⟩

theorem ofNat_eq {n : Nat} {x : UInt8} (value : n = x.toNat) : UInt8.ofNat n = x := by
  rw [value, UInt8.ofNat_toNat]

theorem byte0 (a : UInt8) (low : Nat) (small : low < 4) : put0 (a.toNat / 8 % 32) (a.toNat % 8 * 4 + low) = a := by
  have byte := a.toNat_lt
  rw [put0_eq]
  exact ofNat_eq (by omega)

theorem byte1 (b : UInt8) {high low : Nat} (small : low < 16) :
    put1 (high * 4 + b.toNat / 64 % 4) (b.toNat / 2 % 32) (b.toNat % 2 * 16 + low) = b := by
  have byte := b.toNat_lt
  rw [put1_eq (by omega)]
  exact ofNat_eq (by omega)

theorem byte2 (c : UInt8) {high low : Nat} (small : low < 2) :
    put2 (high * 16 + c.toNat / 16 % 16) (c.toNat % 16 * 2 + low) = c := by
  have byte := c.toNat_lt
  rw [put2_eq]
  exact ofNat_eq (by omega)

theorem byte3 (d : UInt8) {high low : Nat} (small : low < 8) :
    put3 (high * 2 + d.toNat / 128 % 2) (d.toNat / 4 % 32) (d.toNat % 4 * 8 + low) = d := by
  have byte := d.toNat_lt
  rw [put3_eq (by omega)]
  exact ofNat_eq (by omega)

theorem byte4 (e : UInt8) {high : Nat} : put4 (high * 8 + e.toNat / 32 % 8) (e.toNat % 32) = e := by
  have byte := e.toNat_lt
  rw [put4_eq (by omega)]
  exact ofNat_eq (by omega)

theorem dec32Loop_eight (u₀ u₁ u₂ u₃ u₄ u₅ u₆ u₇ : UInt8) (src : List UInt8) :
    dec32Loop (u₀ :: u₁ :: u₂ :: u₃ :: u₄ :: u₅ :: u₆ :: u₇ :: src) =
      (put0 (place32 u₀) (place32 u₁) :: put1 (place32 u₁) (place32 u₂) (place32 u₃) :: put2 (place32 u₃) (place32 u₄) ::
        put3 (place32 u₄) (place32 u₅) (place32 u₆) :: put4 (place32 u₆) (place32 u₇) :: (dec32Loop src).1,
        (dec32Loop src).2) := by
  rw [dec32Loop]
  exact if_pos (by simp only [List.length_cons]; omega)

theorem enc32Loop_five (a b c d e : UInt8) (src : List UInt8) :
    enc32Loop (a :: b :: c :: d :: e :: src) =
      char tab32 (get0 a.toNat) :: char tab32 (get1 a.toNat b.toNat) :: char tab32 (get2 b.toNat) ::
        char tab32 (get3 b.toNat c.toNat) :: char tab32 (get4 c.toNat d.toNat) :: char tab32 (get5 d.toNat) ::
        char tab32 (get6 d.toNat e.toNat) :: char tab32 (get7 e.toNat) :: enc32Loop src := by
  rw [enc32Loop]
  exact if_pos (by simp only [List.length_cons]; omega)

/-- A tail of one byte reads back; of the tails of two to four bytes, one is refused and the others lose a byte. -/
theorem dec32Loop_enc32Loop (src : List UInt8) : dec32Loop (enc32Loop src) = (src, true) ↔ src.length % 5 ≤ 1 := by
  match src with
  | a :: b :: c :: d :: e :: src =>
    have ih := dec32Loop_enc32Loop src
    have group : dec32Loop (enc32Loop (a :: b :: c :: d :: e :: src)) =
        (a :: b :: c :: d :: e :: (dec32Loop (enc32Loop src)).1, (dec32Loop (enc32Loop src)).2) := by
      rw [enc32Loop_five, dec32Loop_eight]
      simp only [get0_eq, get1_eq, get2_eq, get3_eq, get4_eq, get5_eq, get6_eq, get7_eq]
      rw [place32_char _ (by omega), place32_char _ (by omega), place32_char _ (by omega), place32_char _ (by omega),
        place32_char _ (by omega), place32_char _ (by omega), place32_char _ (by omega), place32_char _ (by omega),
        byte0 a _ (by omega), byte1 b (by omega), byte2 c (by omega), byte3 d (by omega), byte4 e]
    have length : (a :: b :: c :: d :: e :: src).length % 5 = src.length % 5 := by
      simp only [List.length_cons]
      omega
    rw [group, length, ← ih]
    constructor
    · intro same
      exact Prod.ext (by simpa using congrArg Prod.fst same) (congrArg Prod.snd same :)
    · intro same
      rw [same]
  | [a] =>
    refine iff_of_true ?_ (by decide : 1 % 5 ≤ 1)
    have tail : dec32Loop (enc32Loop [a]) =
        ([put0 (place32 (char tab32 (get0 a.toNat))) (place32 (char tab32 (0x1c &&& (a.toNat <<< 2))))], true) := by
      simp [enc32Loop, dec32Loop]
    rw [tail, get0_eq, place32_char _ (by omega), (place32_tail a.toNat).1]
    exact congrArg (fun x => ([x], true)) (byte0 a 0 (by decide))
  | [a, b] => exact iff_of_false (by simp [enc32Loop, dec32Loop]) (by decide : ¬2 % 5 ≤ 1)
  | [a, b, c] => exact iff_of_false (by simp [enc32Loop, dec32Loop]) (by decide : ¬3 % 5 ≤ 1)
  | [a, b, c, d] => exact iff_of_false (by simp [enc32Loop, dec32Loop]) (by decide : ¬4 % 5 ≤ 1)
  | [] => exact iff_of_true (by simp [enc32Loop, dec32Loop]) (Nat.zero_le 1)

/-- How many characters and bytes the loops leave. -/
def count32 (n : Nat) : Nat := n / 5 * 8 + [0, 2, 3, 4, 5].getD (n % 5) 0

def bytes32 (m : Nat) : Nat := m / 8 * 5 + [0, 0, 1, 0, 2, 3, 0, 4].getD (m % 8) 0

theorem length_enc32Loop (src : List UInt8) : (enc32Loop src).length = count32 src.length := by
  match src with
  | a :: b :: c :: d :: e :: src =>
    have ih := length_enc32Loop src
    have step : count32 (src.length + 5) = count32 src.length + 8 := by
      unfold count32
      rw [Nat.add_mod_right]
      omega
    rw [enc32Loop_five]
    simp only [List.length_cons, ih]
    exact step.symm
  | [] | [_] | [_, _] | [_, _, _] | [_, _, _, _] => simp [enc32Loop, count32]

theorem length_dec32Loop (src : List UInt8) : (dec32Loop src).1.length = bytes32 src.length := by
  match src with
  | u₀ :: u₁ :: u₂ :: u₃ :: u₄ :: u₅ :: u₆ :: u₇ :: src =>
    have ih := length_dec32Loop src
    have step : bytes32 (src.length + 8) = bytes32 src.length + 5 := by
      unfold bytes32
      rw [Nat.add_mod_right]
      omega
    rw [dec32Loop_eight]
    simp only [List.length_cons, ih]
    exact step.symm
  | [] | [_] | [_, _] | [_, _, _] | [_, _, _, _] | [_, _, _, _, _] | [_, _, _, _, _, _] | [_, _, _, _, _, _, _] =>
    simp [dec32Loop, bytes32]

end ThirtyTwo

section SixtyFour

variable {lim b24 i n N : Nat} {src out rest : List UInt8}

theorem t64d_char : ∀ j < 64, t64d (char t64e j).toNat = some j := by decide

/-- What of a number of 24 bits has been put together after two, three and four characters. -/
theorem sextets (N : Nat) :
    N >>> 18 <<< 18 ||| ((N >>> 12) &&& 0x3f) <<< 12 = N / 2 ^ 12 * 2 ^ 12 ∧
      N / 2 ^ 12 * 2 ^ 12 ||| ((N >>> 6) &&& 0x3f) <<< 6 = N / 2 ^ 6 * 2 ^ 6 ∧ N / 2 ^ 6 * 2 ^ 6 ||| (N &&& 0x3f) = N := by
  have first : N >>> 18 = N / 2 ^ 18 := Nat.shiftRight_eq_div_pow N 18
  have second : (N >>> 12) &&& 0x3f = N / 2 ^ 12 % 64 := by
    rw [Nat.shiftRight_eq_div_pow]
    exact Nat.and_two_pow_sub_one_eq_mod _ 6
  have third : (N >>> 6) &&& 0x3f = N / 2 ^ 6 % 64 := by
    rw [Nat.shiftRight_eq_div_pow]
    exact Nat.and_two_pow_sub_one_eq_mod _ 6
  have fourth : N &&& 0x3f = N % 64 := Nat.and_two_pow_sub_one_eq_mod N 6
  rw [first, second, third, fourth, Nat.shiftLeft_eq, Nat.shiftLeft_eq, Nat.shiftLeft_eq, or_low 18 (by omega)]
  clear first second third fourth
  refine ⟨by omega, ?_, ?_⟩
  · rw [or_low 12 (by omega)]
    omega
  · rw [or_low 6 (by omega)]
    omega

theorem dec64Loop_two (small : N < 2 ^ 24) :
    dec64Loop lim (char t64e (N >>> 18) :: char t64e ((N >>> 12) &&& 0x3f) :: rest) b24 0 out =
      dec64Loop lim rest (N / 2 ^ 12 * 2 ^ 12) 2 out := by
  have first : N >>> 18 < 64 := by
    rw [Nat.shiftRight_eq_div_pow]
    omega
  have second : (N >>> 12) &&& 0x3f < 64 := Nat.lt_of_le_of_lt Nat.and_le_right (by decide)
  rw [dec64Loop, t64d_char _ first]
  dsimp only
  rw [dec64Loop, t64d_char _ second]
  dsimp only
  rw [(sextets N).1]
  rfl

theorem dec64Loop_three (small : N < 2 ^ 24) :
    dec64Loop lim (char t64e (N >>> 18) :: char t64e ((N >>> 12) &&& 0x3f) :: char t64e ((N >>> 6) &&& 0x3f) :: rest)
      b24 0 out = dec64Loop lim rest (N / 2 ^ 6 * 2 ^ 6) 3 out := by
  have third : (N >>> 6) &&& 0x3f < 64 := Nat.lt_of_le_of_lt Nat.and_le_right (by decide)
  rw [dec64Loop_two small, dec64Loop, t64d_char _ third]
  dsimp only
  rw [(sextets N).2.1]
  rfl

theorem dec64Loop_four (small : N < 2 ^ 24) (room : out.length + 3 ≤ lim) :
    dec64Loop lim (char t64e (N >>> 18) :: char t64e ((N >>> 12) &&& 0x3f) :: char t64e ((N >>> 6) &&& 0x3f) ::
      char t64e (N &&& 0x3f) :: rest) b24 0 out =
      dec64Loop lim rest N 0 (out ++ [UInt8.ofNat (N >>> 16), UInt8.ofNat (N >>> 8), UInt8.ofNat N]) := by
  have fourth : N &&& 0x3f < 64 := Nat.lt_of_le_of_lt Nat.and_le_right (by decide)
  rw [dec64Loop_three small, dec64Loop, t64d_char _ fourth]
  dsimp only
  rw [if_neg (by omega), (sextets N).2.2]
  rfl

theorem octets (a b c : UInt8) :
    a.toNat <<< 16 ||| b.toNat <<< 8 ||| c.toNat = a.toNat * 65536 + b.toNat * 256 + c.toNat := by
  have b' := b.toNat_lt
  have c' := c.toNat_lt
  have high : a.toNat * 2 ^ 16 + b.toNat * 2 ^ 8 = (a.toNat * 256 + b.toNat) * 2 ^ 8 := by omega
  rw [Nat.shiftLeft_eq, Nat.shiftLeft_eq, or_low 16 (by omega), high, or_low 8 (by omega), ← high]
  rfl

/-- What `enc64Loop` adds, `dec64` reads back wherever it has got to. -/
theorem enc64Loop_spec (src : List UInt8) (out : List UInt8) (room : out.length + 4 * ((src.length + 2) / 3) < lim) :
    ∃ text, enc64Loop lim src out = out ++ text ∧
      ∀ m b24 done, done.length + src.length ≤ m → dec64End m (dec64Loop m text b24 0 done) = done ++ src := by
  induction src, out using enc64Loop.induct lim with
  | case1 a b c src out full => simp only [List.length_cons] at room; omega
  | case2 a b c src out b24 more ih =>
    have a' := a.toNat_lt
    have b' := b.toNat_lt
    have c' := c.toNat_lt
    have whole : b24 = a.toNat * 65536 + b.toNat * 256 + c.toNat := octets a b c
    simp only [List.length_cons] at room
    obtain ⟨text, same, back⟩ := ih (by simp only [List.length_append, List.length_cons, List.length_nil]; omega)
    rw [enc64Loop, if_neg more]
    refine ⟨_, by rw [same, List.append_assoc], fun m old done fits => ?_⟩
    clear_value b24
    simp only [List.length_cons] at fits
    have bytes : [UInt8.ofNat (b24 >>> 16), UInt8.ofNat (b24 >>> 8), UInt8.ofNat b24] = [a, b, c] := by
      rw [Nat.shiftRight_eq_div_pow, Nat.shiftRight_eq_div_pow]
      have first : UInt8.ofNat (b24 / 2 ^ 16) = a := ofNat_eq (by omega)
      have mod (n : Nat) (x : UInt8) (same : n % 256 = x.toNat) : UInt8.ofNat n = x := by
        rw [← UInt8.toNat_inj, UInt8.toNat_ofNat']
        exact same
      rw [first, mod (b24 / 2 ^ 8) b (by omega), mod b24 c (by omega)]
    simp only [List.cons_append, List.nil_append]
    rw [dec64Loop_four (by omega) (by omega), bytes,
      back m _ _ (by simp only [List.length_append, List.length_cons, List.length_nil]; omega), List.append_assoc]
    rfl
  | case3 a b out full => simp only [List.length_cons, List.length_nil] at room; omega
  | case4 a b out more =>
    have a' := a.toNat_lt
    have b' := b.toNat_lt
    have whole := octets a b 0
    rw [show (0 : UInt8).toNat = 0 from rfl, Nat.or_zero, Nat.add_zero] at whole
    rw [enc64Loop, if_neg more]
    refine ⟨_, rfl, fun m old done fits => ?_⟩
    generalize a.toNat <<< 16 ||| b.toNat <<< 8 = b24 at whole ⊢
    simp only [List.length_cons, List.length_nil] at fits
    rw [dec64Loop_three (by omega)]
    have stop : dec64Loop m [61] (b24 / 2 ^ 6 * 2 ^ 6) 3 done = (done, some (b24 / 2 ^ 6 * 2 ^ 6, 3)) := rfl
    rw [stop, dec64End, if_neg (by omega), Nat.shiftRight_eq_div_pow, Nat.shiftRight_eq_div_pow]
    have first : UInt8.ofNat (b24 / 2 ^ 6 * 2 ^ 6 / 2 ^ 16) = a := ofNat_eq (by omega)
    have second : UInt8.ofNat (b24 / 2 ^ 6 * 2 ^ 6 / 2 ^ 8) = b := by
      rw [← UInt8.toNat_inj, UInt8.toNat_ofNat']
      change _ % 256 = _
      omega
    rw [first, second]
  | case5 a out full => simp only [List.length_cons, List.length_nil] at room; omega
  | case6 a out more =>
    have a' := a.toNat_lt
    have whole : a.toNat <<< 16 = a.toNat * 65536 := Nat.shiftLeft_eq _ _
    rw [enc64Loop, if_neg more]
    refine ⟨_, rfl, fun m old done fits => ?_⟩
    generalize a.toNat <<< 16 = b24 at whole ⊢
    simp only [List.length_cons, List.length_nil] at fits
    rw [dec64Loop_two (by omega)]
    have stop : dec64Loop m [61, 61] (b24 / 2 ^ 12 * 2 ^ 12) 2 done = (done, some (b24 / 2 ^ 12 * 2 ^ 12, 2)) := rfl
    rw [stop, dec64End, if_neg (by omega), Nat.shiftRight_eq_div_pow]
    have first : UInt8.ofNat (b24 / 2 ^ 12 * 2 ^ 12 / 2 ^ 16) = a := ofNat_eq (by omega)
    rw [first]
  | case7 out =>
    exact ⟨[], (List.append_nil out).symm, fun m old done fits => (List.append_nil done).symm⟩

theorem enc64Loop_less (room : out.length < lim) : (enc64Loop lim src out).length < lim := by
  induction src, out using enc64Loop.induct lim with
  | case1 a b c src out full => rw [enc64Loop, if_pos full]; exact room
  | case2 a b c src out b24 more ih =>
    rw [enc64Loop, if_neg more]
    exact ih (by simp only [List.length_append, List.length_cons, List.length_nil]; omega)
  | case3 a b out full => rw [enc64Loop, if_pos full]; exact room
  | case4 a b out more =>
    rw [enc64Loop, if_neg more]
    simp only [List.length_append, List.length_cons, List.length_nil]
    omega
  | case5 a out full => rw [enc64Loop, if_pos full]; exact room
  | case6 a out more =>
    rw [enc64Loop, if_neg more]
    simp only [List.length_append, List.length_cons, List.length_nil]
    omega
  | case7 out => exact room

theorem dec64Loop_le (room : out.length ≤ lim) : (dec64Loop lim src b24 i out).1.length ≤ lim := by
  induction src generalizing b24 i out with
  | nil => exact room
  | cons c src ih =>
    rw [dec64Loop]
    split
    · exact ih room
    · split
      · exact ih room
      · exact ih room
      · exact ih room
      · split
        · exact room
        · exact ih (by simp only [List.length_append, List.length_cons, List.length_nil]; omega)

theorem dec64End_le {state : List UInt8 × Option (Nat × Nat)} (room : state.1.length ≤ lim) :
    (dec64End lim state).length ≤ lim := by
  unfold dec64End
  split
  · split
    · exact room
    · rw [List.length_append, List.length_singleton]
      omega
  · split
    · exact room
    · simp only [List.length_append, List.length_cons, List.length_nil]
      omega
  · exact room

end SixtyFour

theorem tdiv_bmod_le {x k : Int} (nonneg : 0 ≤ x) (positive : 0 < k) : (Int.bmod x (2 ^ 32)).tdiv k ≤ x / k := by
  have less : Int.bmod x (2 ^ 32) ≤ x := by
    rw [Int.bmod_def]
    split <;> omega
  rw [← Int.tdiv_eq_ediv_of_nonneg nonneg]
  exact Int.tdiv_le_tdiv positive less

theorem dec16_enc16 {lim m : Nat} {src : List UInt8} (room : 2 * src.length < lim) (fits : src.length ≤ m) :
    dec16 m (enc16 lim src).text = ⟨src.length, src⟩ := by
  have text : enc16Loop lim src [] = _ := enc16Loop_eq (by rwa [List.length_nil, Nat.zero_add])
  have back : dec16Loop m _ 0 0 [] = [] ++ src := dec16Loop_eq (by rwa [List.length_nil, Nat.zero_add])
  unfold dec16 enc16 Wrote.text
  dsimp only
  rw [Int.toNat_natCast, List.take_left, text, List.nil_append, back]
  rfl

theorem dec64_enc64 {lim m : Nat} {src : List UInt8} (room : 4 * ((src.length + 2) / 3) < lim) (fits : src.length ≤ m) :
    dec64 m (enc64 lim src).text = ⟨src.length, src⟩ := by
  obtain ⟨text, same, back⟩ := enc64Loop_spec src [] (by simpa using room)
  have result := back m 0 [] (by simpa using fits)
  unfold dec64 enc64 Wrote.text
  dsimp only
  rw [Int.toNat_natCast, List.take_left, same, List.nil_append, result]
  rfl

/-- Base 32 reads back what it has written where its tail is of a byte or none, and `dec32`'s limit is not the largest `int`. -/
theorem dec32_enc32 {lim m : Nat} {src : List UInt8} (room : (8 * src.length + 4) / 5 < lim) (fits : src.length ≤ m)
    (small : m < 2 ^ 31) :
    dec32 m (enc32 lim src).text = ⟨src.length, src⟩ ↔ src.length % 5 ≤ 1 ∧ m + 1 < 2 ^ 31 := by
  have encoded : (enc32 lim src).text = enc32Loop src := by
    have test := tdiv_bmod_le (x := 8 * src.length + 4) (k := 5) (by omega) (by decide)
    unfold enc32
    rw [if_neg (by omega)]
    unfold Wrote.text
    dsimp only
    rw [Int.toNat_natCast, List.take_left]
  rw [encoded]
  have length := length_enc32Loop src
  have most : 5 * count32 src.length ≤ 8 * src.length + 4 := by
    have cases : [0, 2, 3, 4, 5].getD (src.length % 5) 0 * 5 ≤ 8 * (src.length % 5) + 4 :=
      (show ∀ t < 5, [0, 2, 3, 4, 5].getD t 0 * 5 ≤ 8 * t + 4 by decide) _ (by omega)
    unfold count32
    omega
  have test := tdiv_bmod_le (x := 5 * (enc32Loop src).length + 7) (k := 8) (by omega) (by decide)
  unfold dec32
  by_cases large : m + 1 < 2 ^ 31
  · rw [if_neg (by rw [Int.bmod_eq_of_le (by omega) (by omega)]; omega)]
    rw [← dec32Loop_enc32Loop src, and_iff_left large]
    constructor
    · intro same
      have ret : (if (dec32Loop (enc32Loop src)).2 then ((dec32Loop (enc32Loop src)).1.length : Int) else -1) = src.length :=
        congrArg Wrote.ret same
      refine Prod.ext (congrArg Wrote.bytes same) ?_
      by_contra bad
      rw [if_neg bad] at ret
      omega
    · intro same
      rw [same]
      rfl
  · have wraps : Int.bmod ((m : Int) + 1) (2 ^ 32) = -(2 ^ 31) := by
      rw [show (m : Int) + 1 = 2 ^ 31 by omega]
      rfl
    have least := Int.le_bmod (x := 5 * ((enc32Loop src).length : Int) + 7) (m := 2 ^ 32) (by decide)
    rw [wraps, if_pos ?_]
    · refine iff_of_false (fun same => ?_) (fun both => large both.2)
      have ret : (-1 : Int) = src.length := congrArg Wrote.ret same
      omega
    · have step := Int.tdiv_le_tdiv (c := 8) (by decide) least
      refine lt_of_lt_of_le ?_ step
      decide

/-- Where `dec32` takes no more than its limit: its test refuses the text, or there is room for what it decodes. -/
def Room32 (lim m : Nat) : Prop :=
  Int.bmod (lim + 1) (2 ^ 32) < (Int.bmod (5 * m + 7) (2 ^ 32)).tdiv 8 ∨ bytes32 m ≤ lim

/-- The same of `enc32`, which has a NUL to add. -/
def Room (lim n : Nat) : Prop := lim ≤ (Int.bmod (8 * n + 4) (2 ^ 32)).tdiv 5 ∨ count32 n < lim

theorem dec32_room (lim : Nat) (src : List UInt8) : (dec32 lim src).bytes.length ≤ lim ↔ Room32 lim src.length := by
  unfold dec32 Room32
  split
  · rename_i test
    exact iff_of_true (Nat.zero_le _) (Or.inl test)
  · rename_i test
    dsimp only
    rw [length_dec32Loop, or_iff_right test]

theorem enc32_room (lim : Nat) (src : List UInt8) : (enc32 lim src).bytes.length ≤ lim ↔ Room lim src.length := by
  unfold enc32 Room
  split
  · rename_i test
    exact iff_of_true (Nat.zero_le _) (Or.inl test)
  · rename_i test
    dsimp only
    rw [List.length_append, List.length_singleton, length_enc32Loop, or_iff_right test]
    exact Nat.succ_le_iff

/-- What the six routines read back and how much they write, for every text and every limit. -/
theorem codecs (src : List UInt8) (lim m : Nat) :
    (2 * src.length < lim → src.length ≤ m → dec16 m (enc16 lim src).text = ⟨src.length, src⟩) ∧
      ((8 * src.length + 4) / 5 < lim → src.length ≤ m → m < 2 ^ 31 →
        (dec32 m (enc32 lim src).text = ⟨src.length, src⟩ ↔ src.length % 5 ≤ 1 ∧ m + 1 < 2 ^ 31)) ∧
      (4 * ((src.length + 2) / 3) < lim → src.length ≤ m → dec64 m (enc64 lim src).text = ⟨src.length, src⟩) ∧
      (dec16 lim src).bytes.length ≤ lim ∧ ((enc16 lim src).bytes.length ≤ lim ↔ 0 < lim) ∧
      ((dec32 lim src).bytes.length ≤ lim ↔ Room32 lim src.length) ∧
      ((enc32 lim src).bytes.length ≤ lim ↔ Room lim src.length) ∧
      (dec64 lim src).bytes.length ≤ lim ∧ ((enc64 lim src).bytes.length ≤ lim ↔ 0 < lim) := by
  refine ⟨dec16_enc16, dec32_enc32, dec64_enc64, dec16Loop_le (Nat.zero_le _), ?_, dec32_room lim src, enc32_room lim src,
    dec64End_le (dec64Loop_le (Nat.zero_le _)), ?_⟩
  · unfold enc16
    dsimp only
    rw [List.length_append, List.length_singleton]
    refine ⟨fun le => by omega, fun some_ => enc16Loop_less some_⟩
  · unfold enc64
    dsimp only
    rw [List.length_append, List.length_singleton]
    refine ⟨fun le => by omega, fun some_ => enc64Loop_less some_⟩

theorem codecs_five : dec16 5 (enc16 11 [0, 1, 2, 254, 255]).text = ⟨5, [0, 1, 2, 254, 255]⟩ ∧
    dec32 5 (enc32 9 [0, 1, 2, 254, 255]).text = ⟨5, [0, 1, 2, 254, 255]⟩ ∧
    dec64 5 (enc64 9 [0, 1, 2, 254, 255]).text = ⟨5, [0, 1, 2, 254, 255]⟩ :=
  have sixteen := (codecs [0, 1, 2, 254, 255] 11 5).1 (by decide) (by decide)
  have others := (codecs [0, 1, 2, 254, 255] 9 5).2
  ⟨sixteen, (others.1 (by decide) (by decide) (by decide)).mpr (by decide), others.2.1 (by decide) (by decide)⟩

/-- Two bytes, of which base 32 writes fifteen bits in three characters, that it does not read. -/
theorem codecs_two : ¬∀ (src : List UInt8) (lim m : Nat), (8 * src.length + 4) / 5 < lim → src.length ≤ m →
    dec32 m (enc32 lim src).text = ⟨src.length, src⟩ := by
  intro back
  have same := back [0, 1] 10 10 (by decide) (by decide)
  exact absurd ((dec32_enc32 (by decide) (by decide) (by decide)).mp same).1 (by decide)

end Inferno.Lib9
