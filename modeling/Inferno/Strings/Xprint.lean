import Inferno.Strings.Convert

namespace Inferno.Xprint

open Lib
open Strings (int Str runetochar)

/-- Why `xprint` does not return: a read beyond the format, a store beyond a buffer, a read of a byte of the buffer
that nothing has stored, and `exNomem`. -/
inductive Stop
  | outside
  | overrun
  | unwritten
  | nomem
deriving DecidableEq

abbrev Out := Except Stop

/-- What is given to `snprint` beside its format. -/
inductive Val
  | num (v : Int)
  | real (bits : UInt64)
  | str (chars : List Nat)
  | cell (ref : Int) (t : Nat)
deriving DecidableEq

/-- The arguments, by the bytes from `fp` to them: the first is at `vargs`. `head` is the reference count and the type
of a cell. -/
structure Args where
  vargs : Nat
  word : Nat → Int
  long : Nat → Int
  real : Nat → UInt64
  str : Nat → Option Str
  head : Nat → Int × Nat

def sizeofFmt : Nat := 32
def utfmax : Nat := 4
def ibyWd : Nat := 8

/-- `snprint`: `out` is the whole text, and `cut n` what a limit of `n` bytes leaves of it, which ends with a
character. -/
structure Snprint where
  out : List UInt8 → Val → List UInt8
  cut : Nat → List UInt8 → Val → List UInt8
  whole : ∀ n f v, (out f v).length ≤ n → cut n f v = out f v
  within : ∀ n f v, (cut n f v).length ≤ n
  char : ∀ n f v, n < (out f v).length → n < (cut n f v).length + utfmax

/-- The text of `errstr`, a C string in UTF-8. -/
structure Errstr where
  text : List UInt8
  nonzero : 0 ∉ text
  utf : ∃ runes : List Nat, text = runes.flatMap runetochar

/-- What `xprint` puts into its buffer at once. -/
inductive Piece
  | byte (c : UInt8)
  | rune (c : Int)
  | print (fmt : List UInt8) (v : Val)
  | err
deriving DecidableEq

/-- `fmt` up to `f`, and `isbig`. -/
structure Directive where
  f : List UInt8
  isbig : Bool

/-- A byte as it is stored into a `char`. -/
def charOf (c : Int) : UInt8 := UInt8.ofNat (c % 256).toNat

def code (c : Char) : Int := c.toNat

/-- `*f++ = c`, and `*f = '\0'`. -/
def push (f : List UInt8) (c : UInt8) : Out (List UInt8) :=
  if f.length < sizeofFmt then return f ++ [c] else throw .overrun

def stored (f : List UInt8) : Out Unit := if f.length < sizeofFmt then return else throw .overrun

/-- `f[-1] = c`. -/
def setLast (f : List UInt8) (c : UInt8) : List UInt8 := f.dropLast ++ [c]

/-- A C string. -/
def cstr (f : List UInt8) : List UInt8 := f.takeWhile (· ≠ 0)

/-- `va` up to a multiple of 8 from `fp` on. -/
def aligned (va : Nat) : Nat := va + (8 - va % 8) % 8

/-- The characters of a string argument, with `'\0'` behind them. -/
def chars (ss : Option Str) : List Nat := ((ss.map Str.text).getD []).takeWhile (· ≠ 0)

/-- The inner loop of `xprint` with a character: the directive as it goes on, `va`, and what is printed when the
directive ends. -/
def verb (snp : Snprint) (a : Args) (c : Int) (d : Directive) (va : Nat) : Out (Directive × Nat × Option Piece) := do
  let f ← push d.f (charOf c)
  stored f
  if c = code '*' then
    let f := f.dropLast
    let f := f ++ snp.cut (sizeofFmt - f.length - 1) [0x25, 0x7A, 0x64] (.num (a.word va))
    return (⟨f, d.isbig⟩, va + ibyWd, none)
  else if c = code 'b' then
    let f ← push (setLast f 0x6C) 0x6C
    stored f
    return (⟨f, true⟩, va, none)
  else if c = code '%' then return (⟨f, d.isbig⟩, va, some (.byte 0x25))
  else if c = code 'q' ∨ c = code 's' then
    let ss := a.str va
    let f := if ss.any fun ss => ss.len < 0 then setLast f (charOf (c + (code 'A' - code 'a'))) else f
    return (⟨f, d.isbig⟩, va + ibyWd, some (.print (cstr f) (.str (chars ss))))
  else if c = code 'E' then
    let f ← push f.dropLast 0xC3
    let f ← push f 0x89
    stored f
    return (⟨f, d.isbig⟩, aligned va + 8, some (.print (cstr f) (.real (a.real (aligned va)))))
  else if c = code 'e' ∨ c = code 'f' ∨ c = code 'g' ∨ c = code 'G' then
    return (⟨f, d.isbig⟩, aligned va + 8, some (.print (cstr f) (.real (a.real (aligned va)))))
  else if c = code 'd' ∨ c = code 'o' ∨ c = code 'x' ∨ c = code 'X' ∨ c = code 'c' then
    if d.isbig then
      return (⟨f, true⟩, aligned va + 8, some (.print (cstr f) (.num (a.long (aligned va)))))
    else
      let f := if c = code 'c' then setLast f 0x43 else f
      return (⟨f, false⟩, va + ibyWd, some (.print (cstr f) (.num (a.word va))))
  else if c = code 'r' then return (⟨f, d.isbig⟩, va, some .err)
  else if c = code 'H' then
    return (⟨f, d.isbig⟩, va + ibyWd,
      some (.print [0x25, 0x64, 0x2E, 0x25, 0x2E, 0x38, 0x7A, 0x78] (.cell (a.head va).1 (a.head va).2)))
  else return (⟨f, d.isbig⟩, va, none)

/-- `xprint`, where `act` puts a piece into the buffer, inside of a directive or outside of one. The format is left
inside of a directive with `nc` below 0, and the outer loop goes on reading. -/
def xprint (snp : Snprint) (a : Args) (act : List UInt8 → Piece → Out (List UInt8)) :
    List Nat → Option Directive → Nat → List UInt8 → Out (List UInt8)
  | [], none, _, b => return b
  | [], some _, _, _ => throw .outside
  | c :: s, none, va, b =>
    if int c ≠ code '%' then do
      xprint snp a act s none va (← act b (if int c < 0x80 then .byte (charOf (int c)) else .rune (int c)))
    else xprint snp a act s (some ⟨[0x25], false⟩) va b
  | c :: s, some d, va, b => do
    let r ← verb snp a (int c) d va
    match r.2.2 with
    | none => xprint snp a act s (some r.1) r.2.1 b
    | some p => xprint snp a act s none r.2.1 (← act b p)

/-- Stores of `bytes` from `b` on, in a buffer of `n` bytes. -/
def store (n : Nat) (b bytes : List UInt8) : Out Unit :=
  if b.length + bytes.length ≤ n then return else throw .overrun

/-- `b += snprint(b, eb-b, f, v)`. -/
def snprint (snp : Snprint) (n : Nat) (b f : List UInt8) (v : Val) : Out (List UInt8) :=
  let len : Int := n - 1 - b.length
  if len ≤ 0 then return b.dropLast
  else do
    let w := snp.cut (len - 1).toNat f v
    store n b (w ++ [0])
    return b ++ w

/-- `kstrcpy` goes back to the first byte of a character. -/
def back (t : List UInt8) : Nat → Nat
  | 0 => 0
  | ns + 1 => if t.getD ns 0 &&& 0xC0 = 0x80 then back t ns else ns

/-- `syserr`: `kstrcpy(s, errstr, es-s)`, and the length of what stands there then. What `strncpy` leaves has no
`'\0'`. -/
def syserr (t : List UInt8) (n : Nat) (b : List UInt8) : Out (List UInt8) :=
  let ns : Int := n - 1 - b.length
  if t.length + 1 ≤ ns then do
    store n b (t ++ [0])
    return b ++ t
  else if ns < 4 then do
    if ns < 0 then throw .overrun
    store n b (t.take ns.toNat)
    throw .unwritten
  else do
    let ns := (ns - 4).toNat
    store n b (t.take ns ++ [0])
    let w := t.take (back t ns) ++ [0x2E, 0x2E, 0x2E]
    store n b (w ++ [0])
    return b ++ w

/-- A piece is put into a buffer of `n` bytes. -/
def buffer (snp : Snprint) (e : Errstr) (n : Nat) (b : List UInt8) : Piece → Out (List UInt8)
  | .byte c => if b.length < n - 1 then do
      store n b [c]
      return b ++ [c]
    else return b
  | .rune c => if b.length < n - 1 then snprint snp n b [0x25, 0x43] (.num c) else return b
  | .print f v => snprint snp n b f v
  | .err => syserr e.text n b

section Text

variable (snp : Snprint) (e : Errstr)

/-- The whole text of a piece. -/
def text : Piece → List UInt8
  | .byte c => [c]
  | .rune c => snp.out [0x25, 0x43] (.num c)
  | .print f v => snp.out f v
  | .err => e.text

/-- A buffer without an end. -/
def unbounded (b : List UInt8) (p : Piece) : Out (List UInt8) := return b ++ text snp e p

variable (a : Args)

/-- `bigxprint` with a buffer of `m` bytes; after `tries` of them `m` is below 0. -/
def bigxprint (malloc : Nat → Bool) (s : List Nat) : Nat → Nat → Out (List UInt8)
  | 0, _ => throw .nomem
  | tries + 1, m =>
    if malloc m then do
      let b ← xprint snp a (buffer snp e m) s none a.vargs []
      if b.length + utfmax + 2 < m then return b else bigxprint malloc s tries (m * 2)
    else throw .nomem

/-- `Sys_sprint`: the C string that `retstr` is given. -/
def sysSprint (malloc : Nat → Bool) (s : List Nat) : Out (List UInt8) := do
  let b ← xprint snp a (buffer snp e 256) s none a.vargs []
  if b.length + utfmax + 2 ≥ 256 then return cstr (← bigxprint snp e a malloc s 22 512) else return cstr b

/-- What a format prints, where every directive ends and has room in `fmt`. -/
def pieces : List Nat → Option Directive → Nat → Out (List Piece)
  | [], none, _ => return []
  | [], some _, _ => throw .outside
  | c :: s, none, va =>
    if int c ≠ code '%' then do
      return (if int c < 0x80 then .byte (charOf (int c)) else .rune (int c)) :: (← pieces s none va)
    else pieces s (some ⟨[0x25], false⟩) va
  | c :: s, some d, va => do
    let r ← verb snp a (int c) d va
    match r.2.2 with
    | none => pieces s (some r.1) r.2.1
    | some p => return p :: (← pieces s none r.2.1)

end Text

variable {snp : Snprint} {e : Errstr} {a : Args} {act : List UInt8 → Piece → Out (List UInt8)} {s : List Nat}
  {b u : List UInt8} {ps : List Piece} {n va : Nat} {m : Option Directive}

/-- `xprint` puts the pieces of the format into the buffer one after the other. -/
theorem xprint_pieces (found : pieces snp a s m va = .ok ps) : xprint snp a act s m va b = ps.foldlM act b := by
  induction s generalizing m va b ps with
  | nil =>
    cases m with
    | none =>
      cases found
      rfl
    | some d => cases found
  | cons c s ih =>
    cases m with
    | none =>
      unfold pieces at found
      unfold xprint
      by_cases literal : int c ≠ code '%'
      · rw [if_pos literal] at found ⊢
        generalize (if int c < 0x80 then Piece.byte (charOf (int c)) else .rune (int c)) = p at found ⊢
        cases rest : pieces snp a s none va with
        | error err =>
          rw [rest] at found
          cases found
        | ok qs =>
          rw [rest] at found
          cases found
          rw [List.foldlM_cons]
          exact bind_congr fun b => ih rest
      · rw [if_neg literal] at found ⊢
        exact ih found
    | some d =>
      unfold pieces at found
      unfold xprint
      cases step : verb snp a (int c) d va with
      | error err =>
        rw [step] at found
        cases found
      | ok r =>
        rw [step] at found
        obtain ⟨d', va', printed⟩ := r
        cases printed with
        | none => exact ih found
        | some p =>
          cases rest : pieces snp a s none va' with
          | error err =>
            have stops : (do return p :: (← pieces snp a s none va')) = Except.ok ps := found
            rw [rest] at stops
            cases stops
          | ok qs =>
            have same : (do return p :: (← pieces snp a s none va')) = Except.ok ps := found
            rw [rest] at same
            cases same
            rw [List.foldlM_cons]
            exact bind_congr fun b => ih rest

/-- A function that does not raise `exNomem`. -/
def Frugal {α : Type} (r : Out α) : Prop := r ≠ .error .nomem

theorem Frugal.pure {α : Type} {x : α} : Frugal (Pure.pure x : Out α) := fun same => nomatch same

theorem Frugal.bind {α β : Type} {r : Out α} {k : α → Out β} (first : Frugal r) (then_ : ∀ x, Frugal (k x)) :
    Frugal (r >>= k) := by
  cases r with
  | error err => exact fun same => first (congrArg Except.error (Except.error.inj same))
  | ok x => exact then_ x

theorem push_frugal (f : List UInt8) (c : UInt8) : Frugal (push f c) := by
  unfold push
  split
  · exact Frugal.pure
  · exact fun same => nomatch same

theorem stored_frugal (f : List UInt8) : Frugal (stored f) := by
  unfold stored
  split
  · exact Frugal.pure
  · exact fun same => nomatch same

theorem store_frugal (n : Nat) (b bytes : List UInt8) : Frugal (store n b bytes) := by
  unfold store
  split
  · exact Frugal.pure
  · exact fun same => nomatch same

theorem verb_frugal (c : Int) (d : Directive) (va : Nat) : Frugal (verb snp a c d va) := by
  refine Frugal.bind (push_frugal _ _) fun f => Frugal.bind (stored_frugal f) fun _ => ?_
  split
  · exact Frugal.pure
  split
  · exact Frugal.bind (push_frugal _ _) fun f => Frugal.bind (stored_frugal f) fun _ => Frugal.pure
  split
  · exact Frugal.pure
  split
  · exact Frugal.pure
  split
  · refine Frugal.bind (push_frugal _ _) fun f => Frugal.bind (push_frugal _ _) fun f => ?_
    exact Frugal.bind (stored_frugal f) fun _ => Frugal.pure
  split
  · exact Frugal.pure
  split
  · split
    · exact Frugal.pure
    · exact Frugal.pure
  split
  · exact Frugal.pure
  split
  · exact Frugal.pure
  · exact Frugal.pure

theorem snprint_frugal (n : Nat) (b f : List UInt8) (v : Val) : Frugal (snprint snp n b f v) := by
  unfold snprint
  dsimp only
  split
  · exact Frugal.pure
  · exact Frugal.bind (store_frugal _ _ _) fun _ => Frugal.pure

theorem syserr_frugal (t : List UInt8) (n : Nat) (b : List UInt8) : Frugal (syserr t n b) := by
  unfold syserr
  dsimp only
  split
  · exact Frugal.bind (store_frugal _ _ _) fun _ => Frugal.pure
  split
  · split
    · exact fun same => nomatch same
    · exact Frugal.bind (store_frugal _ _ _) fun _ same => nomatch same
  · exact Frugal.bind (store_frugal _ _ _) fun _ => Frugal.bind (store_frugal _ _ _) fun _ => Frugal.pure

theorem buffer_frugal (n : Nat) (b : List UInt8) (p : Piece) : Frugal (buffer snp e n b p) := by
  cases p with
  | byte c =>
    unfold buffer
    dsimp only
    split
    · exact Frugal.bind (store_frugal _ _ _) fun _ => Frugal.pure
    · exact Frugal.pure
  | rune c =>
    unfold buffer
    dsimp only
    split
    · exact snprint_frugal _ _ _ _
    · exact Frugal.pure
  | print f v => exact snprint_frugal _ _ _ _
  | err => exact syserr_frugal _ _ _

theorem xprint_frugal (s : List Nat) (m : Option Directive) (va : Nat) (b : List UInt8) (n : Nat) :
    Frugal (xprint snp a (buffer snp e n) s m va b) := by
  induction s generalizing m va b with
  | nil =>
    cases m with
    | none => exact Frugal.pure
    | some d => exact fun same => nomatch same
  | cons c s ih =>
    cases m with
    | none =>
      unfold xprint
      split
      · exact Frugal.bind (buffer_frugal _ _ _) fun b => ih _ _ _
      · exact ih _ _ _
    | some d =>
      unfold xprint
      refine Frugal.bind (verb_frugal _ _ _) fun r => ?_
      cases r.2.2 with
      | none => exact ih _ _ _
      | some p => exact Frugal.bind (buffer_frugal _ _ _) fun b => ih _ _ _

/-- Without its pieces, a format is not printed. -/
theorem xprint_stops (act : List UInt8 → Piece → Out (List UInt8)) (b : List UInt8) {err : Stop}
    (found : pieces snp a s m va = .error err) :
    ∃ err, xprint snp a act s m va b = .error err := by
  have stop {k : List UInt8 → Out (List UInt8)} (r : Out (List UInt8)) (all : ∀ b, ∃ err, k b = .error err) :
      ∃ err, r >>= k = .error err := by
    cases r with
    | error err => exact ⟨err, rfl⟩
    | ok b => exact all b
  induction s generalizing m va b err with
  | nil =>
    cases m with
    | none => cases found
    | some d => exact ⟨_, rfl⟩
  | cons c s ih =>
    cases m with
    | none =>
      unfold pieces at found
      unfold xprint
      by_cases literal : int c ≠ code '%'
      · rw [if_pos literal] at found ⊢
        cases rest : pieces snp a s none va with
        | error err => exact stop _ fun b => ih b rest
        | ok qs =>
          rw [rest] at found
          cases found
      · rw [if_neg literal] at found ⊢
        exact ih b found
    | some d =>
      unfold pieces at found
      unfold xprint
      cases step : verb snp a (int c) d va with
      | error err => exact ⟨err, rfl⟩
      | ok r =>
        rw [step] at found
        obtain ⟨d', va', printed⟩ := r
        cases printed with
        | none => exact ih b found
        | some p =>
          cases rest : pieces snp a s none va' with
          | error err => exact stop _ fun b => ih b rest
          | ok qs =>
            have same : (do return p :: (← pieces snp a s none va')) = Except.error err := found
            rw [rest] at same
            cases same

theorem not_tail_bits : ∀ v < 256, v < 128 ∨ 192 ≤ v → (UInt8.ofNat v) &&& 0xC0 ≠ 0x80 := by decide +kernel

theorem not_tail {v : UInt8} (lead : v.toNat < 128 ∨ 192 ≤ v.toNat) : v &&& 0xC0 ≠ 0x80 := by
  have bits := not_tail_bits v.toNat v.toNat_lt lead
  rwa [UInt8.ofNat_toNat] at bits

/-- The bytes of a rune are a first byte and three more at most. -/
theorem runetochar_cons (c : Nat) : ∃ v more, runetochar c = v :: more ∧ v &&& 0xC0 ≠ 0x80 ∧ more.length ≤ 3 := by
  by_cases scalar : Strings.Scalar c
  · obtain ⟨high, whole⟩ := scalar
    by_cases one : c ≤ 0x7F
    · have eq : runetochar c = [UInt8.ofNat c] := if_pos one
      refine ⟨_, _, eq, not_tail (Or.inl ?_), Nat.zero_le 3⟩
      rw [UInt8.toNat_ofNat']
      omega
    by_cases two : c ≤ 0x7FF
    · obtain ⟨v, w, eq, first, -⟩ := Strings.bytes_two (c := c) (by omega) two
      exact ⟨v, [w], eq, not_tail (Or.inr (by omega)), (by decide : 1 ≤ 3)⟩
    by_cases three : c ≤ 0xFFFF
    · obtain ⟨v, w, x, eq, first, -⟩ := Strings.bytes_three (by omega) three whole
      exact ⟨v, [w, x], eq, not_tail (Or.inr (by omega)), (by decide : 2 ≤ 3)⟩
    · obtain ⟨v, w, x, y, eq, first, -⟩ := Strings.bytes_four (by omega) high
      exact ⟨v, [w, x, y], eq, not_tail (Or.inr (by omega)), (by decide : 3 ≤ 3)⟩
  · have eq := Strings.runetochar_error scalar
    exact ⟨_, _, eq, by decide, by decide⟩

/-- Of four bytes of UTF-8 that follow each other one is the first byte of a character. -/
theorem utf_lead (runes : List Nat) : ∀ i, i + 3 < (runes.flatMap runetochar).length →
    ∃ j, i ≤ j ∧ j ≤ i + 3 ∧ (runes.flatMap runetochar).getD j 0 &&& 0xC0 ≠ 0x80 := by
  induction runes with
  | nil => exact fun i less => absurd less (Nat.not_lt_zero _)
  | cons c rs ih =>
    intro i less
    obtain ⟨v, more, eq, lead, few⟩ := runetochar_cons c
    rw [List.flatMap_cons, eq] at less ⊢
    rw [List.length_append, List.length_cons] at less
    match i with
    | 0 => exact ⟨0, le_refl 0, Nat.zero_le 3, lead⟩
    | i + 1 =>
      by_cases inside : i < more.length
      · match rs with
        | [] =>
          rw [List.flatMap_nil, List.length_nil] at less
          omega
        | c' :: rs =>
          obtain ⟨v', more', eq', lead', -⟩ := runetochar_cons c'
          refine ⟨(v :: more).length, by rw [List.length_cons]; omega, by rw [List.length_cons]; omega, ?_⟩
          rw [List.flatMap_cons, eq', List.getD_append_right _ _ _ _ (le_refl _), Nat.sub_self]
          exact lead'
      · obtain ⟨j, low, high, found⟩ := ih (i - more.length) (by omega)
        refine ⟨j + (more.length + 1), by omega, by omega, ?_⟩
        rw [List.getD_append_right _ _ _ _ (by rw [List.length_cons]; omega), List.length_cons, Nat.add_sub_cancel]
        exact found

theorem back_le (t : List UInt8) (k : Nat) : back t k ≤ k := by
  induction k with
  | zero => exact le_refl 0
  | succ k ih =>
    unfold back
    split
    · omega
    · omega

/-- `kstrcpy` stops at the first byte of a character that it meets. -/
theorem le_back (t : List UInt8) {j : Nat} (lead : t.getD j 0 &&& 0xC0 ≠ 0x80) : ∀ k, j < k → j ≤ back t k := by
  intro k below
  induction k with
  | zero => exact absurd below (Nat.not_lt_zero j)
  | succ k ih =>
    unfold back
    split
    · rename_i tail
      have other : j ≠ k := fun same => lead (same ▸ tail)
      exact ih (by omega)
    · omega

/-- It goes back over four bytes at most. -/
theorem Errstr.le_back (e : Errstr) {k : Nat} (inside : k ≤ e.text.length) : k ≤ back e.text k + 4 := by
  obtain ⟨runes, utf⟩ := e.utf
  by_cases short : k < 4
  · lia
  · obtain ⟨j, low, high, lead⟩ := utf_lead runes (k - 4) (by rw [← utf]; lia)
    rw [← utf] at lead
    have stop := Xprint.le_back e.text lead k (by lia)
    lia

/-- What a buffer holds of a text: all, or the buffer is full but for six bytes. -/
structure Holds (n : Nat) (b u : List UInt8) : Prop where
  room : b.length ≤ n - 1
  same : b = u ∨ n ≤ b.length + 6 ∧ n ≤ u.length + 6

/-- The error text is put whole, or at least four bytes are left for it. -/
def Room (e : Errstr) (n : Nat) (b : List UInt8) : Prop :=
  b.length + e.text.length + 1 ≤ n - 1 ∨ b.length + 4 ≤ n - 1

theorem store_ok {bytes : List UInt8} (fits : b.length + bytes.length ≤ n) : store n b bytes = .ok () := if_pos fits

theorem snprint_holds (large : 8 ≤ n) (holds : Holds n b u) (f : List UInt8) (v : Val) :
    ∃ b', snprint snp n b f v = .ok b' ∧ Holds n b' (u ++ snp.out f v) := by
  have room := holds.room
  unfold snprint
  dsimp only
  by_cases full : (n : Int) - 1 - b.length ≤ 0
  · rw [if_pos full]
    have length : b.dropLast.length = b.length - 1 := List.length_dropLast
    refine ⟨b.dropLast, rfl, by omega, Or.inr ⟨by omega, ?_⟩⟩
    rw [List.length_append]
    rcases holds.same with rfl | ⟨-, long⟩
    · omega
    · omega
  · rw [if_neg full]
    have limit : ((n : Int) - 1 - b.length - 1).toNat = n - 2 - b.length := by omega
    rw [limit]
    have within := snp.within (n - 2 - b.length) f v
    rw [store_ok (by rw [List.length_append, List.length_singleton]; omega)]
    refine ⟨_, rfl, by rw [List.length_append]; omega, ?_⟩
    rw [List.length_append, List.length_append]
    by_cases fits : (snp.out f v).length ≤ n - 2 - b.length
    · rw [snp.whole _ _ _ fits]
      rcases holds.same with rfl | ⟨full', long⟩
      · exact Or.inl rfl
      · exact Or.inr ⟨by omega, by omega⟩
    · have cut := snp.char _ _ _ (not_le.mp fits)
      have four : utfmax = 4 := rfl
      refine Or.inr ⟨by omega, ?_⟩
      rcases holds.same with rfl | ⟨-, long⟩
      · omega
      · omega

theorem byte_holds (large : 8 ≤ n) (holds : Holds n b u) (c : UInt8) :
    ∃ b', buffer snp e n b (.byte c) = .ok b' ∧ Holds n b' (u ++ [c]) := by
  have room := holds.room
  unfold buffer
  dsimp only
  by_cases less : b.length < n - 1
  · rw [if_pos less, store_ok (by rw [List.length_singleton]; omega)]
    refine ⟨_, rfl, by rw [List.length_append, List.length_singleton]; omega, ?_⟩
    rw [List.length_append, List.length_append, List.length_singleton]
    rcases holds.same with rfl | ⟨full, long⟩
    · exact Or.inl rfl
    · exact Or.inr ⟨by omega, by omega⟩
  · rw [if_neg less]
    refine ⟨b, rfl, room, Or.inr ⟨by omega, ?_⟩⟩
    rw [List.length_append, List.length_singleton]
    rcases holds.same with rfl | ⟨-, long⟩
    · omega
    · omega

theorem rune_holds (large : 8 ≤ n) (holds : Holds n b u) (c : Int) :
    ∃ b', buffer snp e n b (.rune c) = .ok b' ∧ Holds n b' (u ++ snp.out [0x25, 0x43] (.num c)) := by
  have room := holds.room
  unfold buffer
  dsimp only
  by_cases less : b.length < n - 1
  · rw [if_pos less]
    exact snprint_holds large holds _ _
  · rw [if_neg less]
    refine ⟨b, rfl, room, Or.inr ⟨by omega, ?_⟩⟩
    rw [List.length_append]
    rcases holds.same with rfl | ⟨-, long⟩
    · omega
    · omega

theorem syserr_holds (large : 8 ≤ n) (holds : Holds n b u) (fits : Room e n b) :
    ∃ b', syserr e.text n b = .ok b' ∧ Holds n b' (u ++ e.text) := by
  have room := holds.room
  unfold Room at fits
  unfold syserr
  dsimp only
  by_cases whole : (e.text.length : Int) + 1 ≤ n - 1 - b.length
  · rw [if_pos whole, store_ok (by rw [List.length_append, List.length_singleton]; lia)]
    refine ⟨_, rfl, by rw [List.length_append]; lia, ?_⟩
    rw [List.length_append, List.length_append]
    rcases holds.same with rfl | ⟨full, long⟩
    · exact Or.inl rfl
    · exact Or.inr ⟨by lia, by lia⟩
  · rw [if_neg whole, if_neg (by lia)]
    have left : ((n : Int) - 1 - b.length - 4).toNat = n - 5 - b.length := by lia
    rw [left]
    have inside : n - 5 - b.length ≤ e.text.length := by lia
    have low := e.le_back inside
    have high := back_le e.text (n - 5 - b.length)
    have length : (e.text.take (back e.text (n - 5 - b.length)) ++ [0x2E, 0x2E, 0x2E]).length =
        back e.text (n - 5 - b.length) + 3 := by
      rw [List.length_append, List.length_take, Nat.min_eq_left (by lia)]
      rfl
    rw [store_ok (by rw [List.length_append, List.length_take, List.length_singleton]; lia)]
    have last : store n b (e.text.take (back e.text (n - 5 - b.length)) ++ [0x2E, 0x2E, 0x2E] ++ [0]) = .ok () :=
      store_ok (by rw [List.length_append, length, List.length_singleton]; lia)
    have ran : (do
        store n b (e.text.take (back e.text (n - 5 - b.length)) ++ [0x2E, 0x2E, 0x2E] ++ [0])
        return b ++ (e.text.take (back e.text (n - 5 - b.length)) ++ [0x2E, 0x2E, 0x2E])) =
        (.ok (b ++ (e.text.take (back e.text (n - 5 - b.length)) ++ [0x2E, 0x2E, 0x2E])) : Out (List UInt8)) := by
      rw [last]
      rfl
    refine ⟨_, ran, by rw [List.length_append, length]; lia, Or.inr ⟨by rw [List.length_append, length]; lia, ?_⟩⟩
    rw [List.length_append]
    rcases holds.same with rfl | ⟨-, long⟩
    · lia
    · lia

theorem buffer_holds (snp : Snprint) (large : 8 ≤ n) (holds : Holds n b u) (p : Piece) (fits : p = .err → Room e n b) :
    ∃ b', buffer snp e n b p = .ok b' ∧ Holds n b' (u ++ text snp e p) := by
  cases p with
  | byte c => exact byte_holds large holds c
  | rune c => exact rune_holds large holds c
  | print f v => exact snprint_holds large holds f v
  | err => exact syserr_holds large holds (fits rfl)

theorem syserr_unwritten (large : 8 ≤ n) (room : b.length ≤ n - 1) (bad : ¬Room e n b) :
    syserr e.text n b = .error .unwritten := by
  unfold Room at bad
  unfold syserr
  dsimp only
  have some_ : ((n : Int) - 1 - b.length).toNat = n - 1 - b.length := by lia
  rw [if_neg (by lia), if_pos (by lia), if_neg (by lia), some_]
  have first : store n b (e.text.take (n - 1 - b.length)) = .ok () :=
    store_ok (by rw [List.length_take]; lia)
  exact congrArg (· >>= fun _ => throw .unwritten) first

/-- Pieces are put into a buffer, or one of them runs into a byte that nothing has stored. -/
theorem fold_ends (snp : Snprint) (e : Errstr) (large : 8 ≤ n) (holds : Holds n b u) (ps : List Piece) :
    (∃ b' u', ps.foldlM (buffer snp e n) b = .ok b' ∧ Holds n b' u') ∨
      ps.foldlM (buffer snp e n) b = .error .unwritten := by
  induction ps generalizing b u with
  | nil => exact Or.inl ⟨b, u, rfl, holds⟩
  | cons p ps ih =>
    rw [List.foldlM_cons]
    by_cases fits : p = .err → Room e n b
    · obtain ⟨b', ran, holds'⟩ := buffer_holds snp large holds p fits
      rw [ran]
      exact ih holds'
    · obtain ⟨rfl, bad⟩ := Classical.not_imp.mp fits
      have ran : buffer snp e n b .err = .error .unwritten := syserr_unwritten large holds.room bad
      rw [ran]
      exact Or.inr rfl

theorem holds_nil (n : Nat) : Holds n [] [] := ⟨Nat.zero_le _, Or.inl rfl⟩

/-- What pieces print. -/
def texts (snp : Snprint) (e : Errstr) (ps : List Piece) : List UInt8 := ps.flatMap (text snp e)

/-- At every `%r` in a buffer of `n` bytes `strncpy` is not needed. -/
def Rooms (snp : Snprint) (e : Errstr) (ps : List Piece) (n : Nat) : Prop :=
  ∀ before after b, ps = before ++ .err :: after → before.foldlM (buffer snp e n) [] = .ok b → Room e n b

theorem foldlM_snoc (ps : List Piece) (p : Piece) (b : List UInt8) :
    (ps ++ [p]).foldlM act b = ps.foldlM act b >>= fun b => act b p := by
  rw [List.foldlM_append]
  exact bind_congr fun b => bind_pure _

theorem texts_snoc (ps : List Piece) (p : Piece) : texts snp e (ps ++ [p]) = texts snp e ps ++ text snp e p := by
  rw [texts, List.flatMap_append, List.flatMap_singleton]
  rfl

theorem Rooms.init {p : Piece} (rooms : Rooms snp e (ps ++ [p]) n) : Rooms snp e ps n := by
  intro before after b split ran
  exact rooms before (after ++ [p]) b (by rw [split, List.append_assoc, List.cons_append]) ran

theorem fold_holds (large : 8 ≤ n) (rooms : Rooms snp e ps n) :
    ∃ b, ps.foldlM (buffer snp e n) [] = .ok b ∧ Holds n b (texts snp e ps) := by
  induction ps using List.reverseRecOn with
  | nil => exact ⟨[], rfl, holds_nil n⟩
  | append_singleton ps p ih =>
    obtain ⟨b, ran, holds⟩ := ih rooms.init
    have fits : p = .err → Room e n b := by
      rintro rfl
      exact rooms ps [] b rfl ran
    obtain ⟨b', put, holds'⟩ := buffer_holds snp large holds p fits
    refine ⟨b', ?_, by rwa [texts_snoc]⟩
    rw [foldlM_snoc, ran]
    exact put

/-- A buffer is filled without a stop only if there is room at every `%r`. -/
theorem rooms_of_ok (large : 8 ≤ n) {b' : List UInt8} (ended : ps.foldlM (buffer snp e n) [] = .ok b') :
    Rooms snp e ps n := by
  intro before after b split ran
  by_contra bad
  have room : b.length ≤ n - 1 := by
    rcases fold_ends snp e large (holds_nil n) before with ⟨c, u, ran', holds⟩ | stopped
    · rw [ran] at ran'
      cases ran'
      exact holds.room
    · rw [ran] at stopped
      cases stopped
  have stop : buffer snp e n b .err = .error .unwritten := syserr_unwritten large room bad
  have all : ps.foldlM (buffer snp e n) [] = .error .unwritten := by
    rw [split, List.foldlM_append, ran]
    change (Piece.err :: after).foldlM (buffer snp e n) b = _
    rw [List.foldlM_cons, stop]
    rfl
  rw [all] at ended
  cases ended

/-- A text that leaves more than six bytes of the buffer is printed whole. -/
theorem fold_whole (large : 8 ≤ n) (short : (texts snp e ps).length + 6 < n) :
    ps.foldlM (buffer snp e n) [] = .ok (texts snp e ps) := by
  induction ps using List.reverseRecOn with
  | nil => rfl
  | append_singleton ps p ih =>
    rw [texts_snoc, List.length_append] at short
    have ran := ih (by omega)
    have fits : p = .err → Room e n (texts snp e ps) := by
      rintro rfl
      have length : (text snp e .err).length = e.text.length := rfl
      exact Or.inl (by omega)
    obtain ⟨b', put, holds⟩ := buffer_holds snp large ⟨by omega, Or.inl rfl⟩ p fits
    rcases holds.same with rfl | ⟨-, long⟩
    · rw [foldlM_snoc, ran, texts_snoc]
      exact put
    · rw [List.length_append] at long
      omega

theorem rooms_of_short (large : 8 ≤ n) (short : (texts snp e ps).length + 6 < n) : Rooms snp e ps n :=
  rooms_of_ok large (fold_whole large short)

theorem foldlM_unbounded (ps : List Piece) (b : List UInt8) :
    ps.foldlM (unbounded snp e) b = .ok (b ++ texts snp e ps) := by
  induction ps generalizing b with
  | nil => exact congrArg Except.ok (List.append_nil b).symm
  | cons p ps ih =>
    rw [List.foldlM_cons]
    refine (ih _).trans (congrArg Except.ok ?_)
    rw [List.append_assoc, texts, texts, List.flatMap_cons]

theorem xprint_whole (found : pieces snp a s none a.vargs = .ok ps) :
    xprint snp a (unbounded snp e) s none a.vargs [] = .ok (texts snp e ps) := by
  rw [xprint_pieces found, foldlM_unbounded, List.nil_append]

theorem bigxprint_succ (malloc : Nat → Bool) (tries m : Nat) : bigxprint snp e a malloc s (tries + 1) m =
    if malloc m then do
      let b ← xprint snp a (buffer snp e m) s none a.vargs []
      if b.length + utfmax + 2 < m then return b else bigxprint snp e a malloc s tries (m * 2)
    else throw .nomem := rfl

theorem bigxprint_step (found : pieces snp a s none a.vargs = .ok ps) (malloc : Nat → Bool) (tries : Nat) {m : Nat}
    (large : 8 ≤ m) (rooms : Rooms snp e ps m) (given : malloc m = true) :
    (texts snp e ps).length + 6 < m ∧ bigxprint snp e a malloc s (tries + 1) m = .ok (texts snp e ps) ∨
      m ≤ (texts snp e ps).length + 6 ∧
        bigxprint snp e a malloc s (tries + 1) m = bigxprint snp e a malloc s tries (m * 2) := by
  obtain ⟨b, ran, holds⟩ := fold_holds large rooms
  rw [← xprint_pieces found] at ran
  have slack : utfmax + 2 = 6 := rfl
  have step : bigxprint snp e a malloc s (tries + 1) m =
      if b.length + utfmax + 2 < m then .ok b else bigxprint snp e a malloc s tries (m * 2) := by
    rw [bigxprint_succ, if_pos given, ran]
    rfl
  rw [step]
  by_cases less : b.length + utfmax + 2 < m
  · rcases holds.same with rfl | ⟨full, -⟩
    · exact Or.inl ⟨by omega, if_pos less⟩
    · omega
  · refine Or.inr ⟨?_, if_neg less⟩
    rcases holds.same with rfl | ⟨-, long⟩
    · omega
    · exact long

/-- `bigxprint` raises `exNomem` or prints the whole text. -/
theorem bigxprint_prints (found : pieces snp a s none a.vargs = .ok ps) (malloc : Nat → Bool) (tries m : Nat)
    (large : 8 ≤ m) (rooms : ∀ j < tries, Rooms snp e ps (m * 2 ^ j)) :
    bigxprint snp e a malloc s tries m = .error .nomem ∨
      bigxprint snp e a malloc s tries m = .ok (texts snp e ps) ∧
        ∃ j < tries, (texts snp e ps).length + 6 < m * 2 ^ j := by
  induction tries generalizing m with
  | zero => exact Or.inl rfl
  | succ tries ih =>
    by_cases given : malloc m = true
    · have here : Rooms snp e ps m := by
        have first := rooms 0 (Nat.succ_pos tries)
        rwa [pow_zero, Nat.mul_one] at first
      rcases bigxprint_step found malloc tries large here given with ⟨short, whole⟩ | ⟨-, next⟩
      · exact Or.inr ⟨whole, 0, Nat.succ_pos tries, by rwa [pow_zero, Nat.mul_one]⟩
      · rw [next]
        have later : ∀ j < tries, Rooms snp e ps (m * 2 * 2 ^ j) := by
          intro j less
          have rooms' := rooms (j + 1) (by omega)
          rwa [pow_succ', ← Nat.mul_assoc] at rooms'
        refine (ih (m * 2) (by omega) later).imp_right fun ⟨whole, j, less, short⟩ => ?_
        exact ⟨whole, j + 1, by omega, by rwa [pow_succ', ← Nat.mul_assoc]⟩
    · refine Or.inl ?_
      rw [bigxprint_succ, if_neg given]
      rfl

/-- A buffer that is large enough is reached, where memory does not run out. -/
theorem bigxprint_reaches (found : pieces snp a s none a.vargs = .ok ps) (tries m : Nat) (large : 8 ≤ m)
    (rooms : ∀ j < tries, Rooms snp e ps (m * 2 ^ j)) {j : Nat} (less : j < tries)
    (short : (texts snp e ps).length + 6 < m * 2 ^ j) :
    bigxprint snp e a (fun _ => true) s tries m = .ok (texts snp e ps) := by
  induction tries generalizing m j with
  | zero => omega
  | succ tries ih =>
    have here : Rooms snp e ps m := by
      have first := rooms 0 (Nat.succ_pos tries)
      rwa [pow_zero, Nat.mul_one] at first
    rcases bigxprint_step found (fun _ => true) tries large here rfl with ⟨-, whole⟩ | ⟨long, next⟩
    · exact whole
    · rw [next]
      match j with
      | 0 =>
        rw [pow_zero, Nat.mul_one] at short
        omega
      | j + 1 =>
        rw [pow_succ', ← Nat.mul_assoc] at short
        refine ih (m * 2) (by omega) (fun i less' => ?_) (by omega) short
        have later := rooms (i + 1) (by omega)
        rwa [pow_succ', ← Nat.mul_assoc] at later

/-- Without room at a `%r`, `bigxprint` comes to it, where memory does not run out. -/
theorem rooms_of_bigxprint (found : pieces snp a s none a.vargs = .ok ps) (tries m : Nat) (large : 8 ≤ m)
    (ended : bigxprint snp e a (fun _ => true) s tries m ≠ .error .unwritten) :
    ∀ j < tries, Rooms snp e ps (m * 2 ^ j) := by
  induction tries generalizing m with
  | zero => exact fun j less => absurd less (Nat.not_lt_zero j)
  | succ tries ih =>
    intro j less
    have here : Rooms snp e ps m := by
      rcases fold_ends snp e large (holds_nil m) ps with ⟨b, u, ran, -⟩ | stopped
      · exact rooms_of_ok large ran
      · rw [← xprint_pieces found] at stopped
        refine absurd ?_ ended
        rw [bigxprint_succ, if_pos rfl, stopped]
        rfl
    rcases bigxprint_step found (fun _ => true) tries large here rfl with ⟨short, -⟩ | ⟨-, next⟩
    · have grows : m ≤ m * 2 ^ j := Nat.le_mul_of_pos_right m (Nat.two_pow_pos j)
      exact rooms_of_short (by omega) (by omega)
    · rw [next] at ended
      match j with
      | 0 => rwa [pow_zero, Nat.mul_one]
      | j + 1 =>
        rw [pow_succ', ← Nat.mul_assoc]
        exact ih (m * 2) (by omega) ended j (by omega)

/-- `Sys_sprint` once a buffer of 256 bytes is filled without a stop. -/
theorem sysSprint_eq (found : pieces snp a s none a.vargs = .ok ps) (rooms : Rooms snp e ps 256)
    (malloc : Nat → Bool) : sysSprint snp e a malloc s =
      if (texts snp e ps).length + 6 < 256 then .ok (cstr (texts snp e ps))
      else cstr <$> bigxprint snp e a malloc s 22 512 := by
  obtain ⟨b, ran, holds⟩ := fold_holds (by decide) rooms
  rw [← xprint_pieces found] at ran
  have step : sysSprint snp e a malloc s =
      if b.length + utfmax + 2 ≥ 256 then cstr <$> bigxprint snp e a malloc s 22 512 else .ok (cstr b) := by
    unfold sysSprint
    rw [ran]
    rfl
  have slack : utfmax + 2 = 6 := rfl
  rw [step]
  rcases holds.same with rfl | ⟨full, long⟩
  · by_cases short : (texts snp e ps).length + 6 < 256
    · rw [if_pos short, if_neg (by omega)]
    · rw [if_neg short, if_pos (by omega)]
  · rw [if_pos (by omega), if_neg (by omega)]

theorem cstr_eq (u : List UInt8) : cstr u = u ↔ 0 ∉ u := by
  rw [cstr, List.takeWhile_eq_self_iff]
  constructor
  · intro all zero
    exact absurd (all 0 zero) (by decide)
  · intro none_ x member
    exact decide_eq_true fun same => none_ (same ▸ member)

theorem zero_texts : 0 ∉ texts snp e ps ↔ ∀ p ∈ ps, 0 ∉ text snp e p := by
  simp only [texts, List.mem_flatMap, not_exists, not_and]

/-- `xprint` stores within its buffers, and `Sys_sprint` gives what it would put into a buffer without an end, unless
memory runs out. -/
def Agrees (snp : Snprint) (e : Errstr) (a : Args) (s : List Nat) : Prop :=
  (∀ n, 8 ≤ n → xprint snp a (buffer snp e n) s none a.vargs [] ≠ .error .overrun) ∧
  ∀ malloc, sysSprint snp e a malloc s = .error .nomem ∨
    ∃ u, xprint snp a (unbounded snp e) s none a.vargs [] = .ok u ∧ sysSprint snp e a malloc s = .ok u

/-- Every directive of the format ends and has room in `fmt`, no zero is printed (up to the length where memory runs
out), and at every `%r` `strncpy` is not needed. -/
def Printable (snp : Snprint) (e : Errstr) (a : Args) (s : List Nat) : Prop :=
  ∃ ps, pieces snp a s none a.vargs = .ok ps ∧
    ((texts snp e ps).length + 6 < 256 * 2 ^ 22 → ∀ p ∈ ps, 0 ∉ text snp e p) ∧
    ∀ k < 23, Rooms snp e ps (256 * 2 ^ k)

theorem Printable.agrees (printable : Printable snp e a s) : Agrees snp e a s := by
  obtain ⟨ps, found, zero, rooms⟩ := printable
  constructor
  · intro n large same
    rw [xprint_pieces found] at same
    rcases fold_ends snp e large (holds_nil n) ps with ⟨b, u, ran, -⟩ | stopped
    · rw [ran] at same
      cases same
    · rw [stopped] at same
      cases same
  · intro malloc
    have here : Rooms snp e ps 256 := rooms 0 (by decide)
    have whole (short : (texts snp e ps).length + 6 < 256 * 2 ^ 22) : cstr (texts snp e ps) = texts snp e ps :=
      (cstr_eq _).mpr (zero_texts.mpr (zero short))
    rw [sysSprint_eq found here, xprint_whole found]
    by_cases short : (texts snp e ps).length + 6 < 256
    · rw [if_pos short]
      exact Or.inr ⟨_, rfl, congrArg Except.ok (whole (by omega))⟩
    · rw [if_neg short]
      have later : ∀ j < 22, Rooms snp e ps (512 * 2 ^ j) := by
        intro j less
        have next := rooms (j + 1) (by omega)
        rwa [pow_succ', ← Nat.mul_assoc] at next
      rcases bigxprint_prints found malloc 22 512 (by decide) later with nomem | ⟨printed, j, less, fits⟩
      · rw [nomem]
        exact Or.inl rfl
      · rw [printed]
        have grows : 2 ^ j ≤ 2 ^ 21 := Nat.pow_le_pow_right (by decide) (by omega)
        exact Or.inr ⟨_, rfl, congrArg Except.ok (whole (by omega))⟩

theorem Agrees.printable (agrees : Agrees snp e a s) : Printable snp e a s := by
  have given := agrees.2 fun _ => true
  cases found : pieces snp a s none a.vargs with
  | error err =>
    obtain ⟨err', stopped⟩ := xprint_stops (buffer snp e 256) [] found
    have frugal : Frugal (xprint snp a (buffer snp e 256) s none a.vargs []) := xprint_frugal s none a.vargs [] 256
    have all : sysSprint snp e a (fun _ => true) s = .error err' := by
      unfold sysSprint
      rw [stopped]
      rfl
    rw [all] at given
    rcases given with nomem | ⟨u, -, ran⟩
    · cases nomem
      exact absurd stopped frugal
    · cases ran
  | ok ps =>
    refine ⟨ps, found, ?_⟩
    have here : Rooms snp e ps 256 := by
      rcases fold_ends snp e (by decide : 8 ≤ 256) (holds_nil 256) ps with ⟨b, u, ran, -⟩ | stopped
      · exact rooms_of_ok (by decide) ran
      · rw [← xprint_pieces found] at stopped
        have all : sysSprint snp e a (fun _ => true) s = .error .unwritten := by
          unfold sysSprint
          rw [stopped]
          rfl
        rw [all] at given
        rcases given with nomem | ⟨u, -, ran⟩
        · cases nomem
        · cases ran
    rw [sysSprint_eq found here, xprint_whole found] at given
    by_cases short : (texts snp e ps).length + 6 < 256
    · rw [if_pos short] at given
      rcases given with nomem | ⟨u, whole, ran⟩
      · cases nomem
      · cases whole
        refine ⟨fun _ => zero_texts.mp ((cstr_eq _).mp (Except.ok.inj ran)), fun k _ => ?_⟩
        have grows : 1 ≤ 2 ^ k := Nat.two_pow_pos k
        exact rooms_of_short (by lia) (by lia)
    · rw [if_neg short] at given
      have ended : bigxprint snp e a (fun _ => true) s 22 512 ≠ .error .unwritten := by
        intro stopped
        rw [stopped] at given
        rcases given with nomem | ⟨u, -, ran⟩
        · cases nomem
        · cases ran
      have later := rooms_of_bigxprint found 22 512 (by decide) ended
      refine ⟨fun fits => ?_, fun k less => ?_⟩
      · have printed := bigxprint_reaches found 22 512 (by decide) later (j := 21) (by decide) fits
        rw [printed] at given
        rcases given with nomem | ⟨u, whole, ran⟩
        · cases nomem
        · cases whole
          exact zero_texts.mp ((cstr_eq _).mp (Except.ok.inj ran))
      · match k with
        | 0 => exact here
        | k + 1 =>
          rw [pow_succ', ← Nat.mul_assoc]
          exact later k (by lia)

/-- An `snprint` of `%d`, cut anywhere. -/
def decimal : Snprint where
  out := fun _ v => match v with
    | .num i => (toString i).toList.map fun c => UInt8.ofNat c.toNat
    | _ => []
  cut := fun n _ v => List.take n (match v with
    | .num i => (toString i).toList.map fun c => UInt8.ofNat c.toNat
    | _ => [])
  whole := fun n f v less => List.take_of_length_le less
  within := fun n f v => List.length_take_le ..
  char := fun n f v less => by
    rw [List.length_take, Nat.min_eq_left less.le]
    exact Nat.lt_add_of_pos_right (by decide)

def noError : Errstr := ⟨[], nofun, [], rfl⟩

/-- One argument, 7. -/
def seven : Args := ⟨0, fun _ => 7, fun _ => 7, fun _ => 0, fun _ => none, fun _ => (0, 0)⟩

example : sysSprint decimal noError seven (fun _ => true) ("n=%d%%".toList.map Char.toNat) = .ok [110, 61, 55, 37] := by
  decide +kernel

end Inferno.Xprint
