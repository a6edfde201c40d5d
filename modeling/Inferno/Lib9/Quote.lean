import Inferno.Strings.Utf

namespace Inferno.Lib9.Quote

open Inferno.Strings

/-- An `int`. -/
def int (x : Int) : Int := x.bmod (2 ^ 32)

structure Quoteinfo where
  quoted : Bool
  nrunesin : Int
  nbytesin : Int
  nrunesout : Int
  nbytesout : Int

/-- What is added to the output of a string: the quotes around it, or a quote that is there twice. -/
def Quoteinfo.adds (q : Quoteinfo) (n : Int) : Quoteinfo :=
  { q with nrunesout := int (q.nrunesout + n), nbytesout := int (q.nbytesout + n) }

/-- The input and the output advance by a rune of `w` bytes. -/
def Quoteinfo.advance (q : Quoteinfo) (w : Nat) : Quoteinfo :=
  { q with nbytesin := int (q.nbytesin + w), nrunesin := int (q.nrunesin + 1),
           nbytesout := int (q.nbytesout + w), nrunesout := int (q.nrunesout + 1) }

section Code

variable (doquote : Nat → Bool)

/-- The runes that a string must be quoted for. -/
def special (c : Nat) : Bool := c ≤ 0x20 ∨ c = 0x27 ∨ doquote c = true

/-- `_quotesetup` on a rune of `w` bytes, for output in bytes; it does not go on when there is no room. -/
def quotesetupRune (nout : Int) (c w : Nat) (q : Quoteinfo) : Quoteinfo × Bool :=
  if int (q.nbytesout + w) > nout then (q, false)
  else if special doquote c then
    if q.quoted = false ∧ int (1 + q.nbytesout + w + 1) > nout then (q, false)
    else
      let q := if q.quoted then q else { q.adds 2 with quoted := true }
      if c = 0x27 then
        if int (1 + q.nbytesout + w) > nout then (q, false) else ((q.adds 1).advance w, true)
      else (q.advance w, true)
  else (q.advance w, true)

/-- The loop of `_quotesetup`. -/
def quotesetupLoop (nout : Int) : Nat → List UInt8 → Int → Quoteinfo → Quoteinfo
  | 0, _, _, q => q
  | steps + 1, s, nin, q =>
    if nin = 0 then q
    else
      let (c, w) := chartorune (ofBytes s)
      if c = 0 then q
      else
        let (q, goes) := quotesetupRune doquote nout c w q
        if goes then quotesetupLoop nout steps (s.drop w) (int (nin - w)) q else q

/-- `_quotesetup(s, nil, -1, nout, q, 0, 0)`; `s` are the bytes before the NUL. -/
def quotesetup (s : List UInt8) (nout : Int) : Quoteinfo :=
  if ofBytes s 0 = 0 ∧ nout < 2 then ⟨false, 0, 0, 0, 0⟩
  else
    quotesetupLoop doquote nout (s.length + 1) s (-1)
      (if ofBytes s 0 = 0 then ⟨true, 0, 0, 2, 2⟩ else ⟨false, 0, 0, 0, 0⟩)

/-- `FMTRUNE`: what is put into a buffer of `limit` bytes, if there is a limit, after `out`. -/
def fmtrune (limit : Option Nat) (out : List UInt8) (r : Nat) : Option (List UInt8) :=
  if limit.any (fun limit => limit < out.length + (runetochar r).length) then none else some (out ++ runetochar r)

/-- A rune, where `qstrfmt` puts a quote twice. -/
def putrune (limit : Option Nat) (twice : Bool) (out : List UInt8) (r : Nat) : Option (List UInt8) :=
  (fmtrune limit out r).bind fun out => if twice = true ∧ r = 0x27 then fmtrune limit out r else some out

/-- The loop of `_fmtcpy` and that of `qstrfmt`. -/
def copyrunes (limit : Option Nat) (twice : Bool) : Nat → List UInt8 → Int → List UInt8 → Option (List UInt8)
  | 0, _, _, out => some out
  | nc + 1, m, me, out => do
    let r := (ofBytes m 0).toNat
    if ¬(r < 0x80) ∧ ¬(me ≥ utfmax) ∧ ¬fullrune (ofBytes m) me.toNat then some out
    else
      let (r, n) := if r < 0x80 then (r, 1) else chartorune (ofBytes m)
      let out ← putrune limit twice out r
      copyrunes limit twice nc (m.drop n) (me - n) out

/-- The room for the output of `_quotestrfmt`; a buffer that can be flushed has no limit. -/
def outlen : Option Nat → Int
  | none => 0x7FFFFFFF
  | some limit => int limit

/-- `quotestrfmt` without a width. -/
def quotestrfmt (limit : Option Nat) (s : List UInt8) : Option (List UInt8) :=
  let q := quotesetup doquote s (outlen limit)
  if !q.quoted then copyrunes limit false q.nrunesin.toNat s q.nbytesin []
  else do
    let out ← fmtrune limit [] 0x27
    let out ← copyrunes limit true q.nrunesin.toNat s q.nbytesin out
    fmtrune limit out 0x27

/-- The byte at `i`; there is a NUL at the end. -/
def at' (buf : List UInt8) (i : Nat) : UInt8 := buf.getD i 0

def qsep (c : UInt8) : Bool := c = 0x20 ∨ c = 0x09 ∨ c = 0x0D ∨ c = 0x0A

theorem at'_length {buf : List UInt8} {i : Nat} (some : at' buf i ≠ 0) : i < buf.length := by
  by_contra beyond
  exact some (List.getD_eq_default _ _ (Nat.not_lt.1 beyond))

/-- The loop of `qtoken`: `s` is the output, `t` the input. -/
def qtokenLoop (buf : List UInt8) (s t : Nat) (quoting : Bool) : List UInt8 × Nat × Nat :=
  if goes : at' buf t ≠ 0 ∧ (quoting = true ∨ qsep (at' buf t) = false) then
    have inside := at'_length goes.1
    if at' buf t ≠ 0x27 then qtokenLoop (buf.set s (at' buf t)) (s + 1) (t + 1) quoting
    else if quoting = false then qtokenLoop buf s (t + 1) true
    else if at' buf (t + 1) ≠ 0x27 then qtokenLoop buf s (t + 1) false
    else qtokenLoop (buf.set s (at' buf (t + 1))) (s + 1) (t + 2) quoting
  else (buf, s, t)
termination_by buf.length - t
decreasing_by all_goals (try rw [List.length_set]); omega

def qtoken (buf : List UInt8) (s : Nat) : List UInt8 × Nat :=
  let (buf, s, t) := qtokenLoop buf s s false
  if at' buf s ≠ 0 then (buf.set s 0, if t = s then t + 1 else t) else (buf, t)

/-- The loop of `tokenize` over separators. -/
def skip (buf : List UInt8) (s : Nat) : Nat :=
  if goes : at' buf s ≠ 0 ∧ qsep (at' buf s) = true then
    have inside := at'_length goes.1
    skip buf (s + 1)
  else s
termination_by buf.length - s

/-- `tokenize`: the offsets of the arguments, and the buffer. -/
def tokenizeFrom : Nat → List UInt8 → Nat → List Nat × List UInt8
  | 0, buf, _ => ([], buf)
  | maxargs + 1, buf, s =>
    let s := skip buf s
    if at' buf s = 0 then ([], buf)
    else
      let (buf, t) := qtoken buf s
      let (args, buf) := tokenizeFrom maxargs buf t
      (s :: args, buf)

/-- The string at `i`. -/
def cstring (buf : List UInt8) (i : Nat) : List UInt8 := (buf.drop i).takeWhile (· ≠ 0)

/-- The strings of the arguments of a text. -/
def tokenize (text : List UInt8) (maxargs : Nat) : List (List UInt8) :=
  let (args, buf) := tokenizeFrom maxargs (text ++ [0]) 0
  args.map (cstring buf)

end Code

variable {buf : List UInt8}

theorem at'_append (pre l : List UInt8) (i : Nat) : at' (pre ++ l) (pre.length + i) = at' l i := by
  unfold at'
  rw [List.getD_append_right _ _ _ _ (Nat.le_add_right _ _), Nat.add_sub_cancel_left]

theorem at'_here (pre l : List UInt8) (b : UInt8) : at' (pre ++ b :: l) pre.length = b := at'_append pre (b :: l) 0

/-- What `qtoken` has done: the token, a gap of old bytes and what is still to be read. -/
structure Held (pre tok gap rest buf : List UInt8) (s t : Nat) : Prop where
  bytes : buf = pre ++ tok ++ gap ++ rest
  output : s = (pre ++ tok).length
  input : t = s + gap.length
  old : ∀ b ∈ gap, b ≠ 0

variable {pre tok gap rest : List UInt8} {s t : Nat} {b : UInt8}

theorem Held.head (held : Held pre tok gap (b :: rest) buf s t) : at' buf t = b := by
  rw [held.bytes, held.input, held.output, ← List.length_append]
  exact at'_here _ rest b

theorem Held.second {c : UInt8} (held : Held pre tok gap (b :: c :: rest) buf s t) : at' buf (t + 1) = c := by
  rw [held.bytes, held.input, held.output, ← List.length_append]
  exact at'_append _ (b :: c :: rest) 1

/-- A byte is left out. -/
theorem Held.skip (held : Held pre tok gap (b :: rest) buf s t) (some : b ≠ 0) :
    Held pre tok (gap ++ [b]) rest buf s (t + 1) where
  bytes := by rw [held.bytes, List.append_assoc, List.append_assoc, List.append_assoc]; simp
  output := held.output
  input := by rw [held.input, List.length_append]; rfl
  old := fun c member => (List.mem_append.1 member).elim (held.old c) fun here => List.mem_singleton.1 here ▸ some

/-- A byte is copied; the gap stays as long as it is. -/
theorem Held.copy (held : Held pre tok gap (b :: rest) buf s t) (some : b ≠ 0) :
    ∃ gap', Held pre (tok ++ [b]) gap' rest (buf.set s b) (s + 1) (t + 1) ∧ gap'.length = gap.length := by
  have length : s + 1 = (pre ++ (tok ++ [b])).length := by
    rw [held.output, ← List.append_assoc]
    simp [Nat.add_assoc]
  have set (l : List UInt8) (same : buf = pre ++ tok ++ l) : buf.set s b = pre ++ tok ++ l.set 0 b := by
    rw [same, held.output, List.set_append_right _ _ (Nat.le_refl _), Nat.sub_self]
  have bytes : buf = pre ++ tok ++ (gap ++ b :: rest) := by rw [held.bytes, List.append_assoc]
  cases gap with
  | nil =>
    refine ⟨[], ⟨?_, length, by rw [held.input]; rfl, fun c member => nomatch member⟩, rfl⟩
    rw [set _ bytes]
    simp
  | cons g gap =>
    have nonzero := List.forall_mem_cons.1 held.old
    refine ⟨gap ++ [b], ⟨?_, length, ?_, fun c member => ?_⟩, by rw [List.length_append]; rfl⟩
    · rw [set _ bytes]
      simp
    · rw [held.input, List.length_append, List.length_cons, List.length_singleton]
      omega
    · exact (List.mem_append.1 member).elim (nonzero.2 c) fun here => List.mem_singleton.1 here ▸ some

section Steps

variable {quoting : Bool}

theorem qtokenLoop_plain (here : at' buf t = b) (some : b ≠ 0) (goes : quoting = true ∨ qsep b = false)
    (other : b ≠ 0x27) : qtokenLoop buf s t quoting = qtokenLoop (buf.set s b) (s + 1) (t + 1) quoting := by
  subst here
  rw [qtokenLoop, dif_pos ⟨some, goes⟩, if_pos other]

theorem qtokenLoop_opens (here : at' buf t = 0x27) : qtokenLoop buf s t false = qtokenLoop buf s (t + 1) true := by
  rw [qtokenLoop, dif_pos ⟨by rw [here]; decide, .inr (by rw [here]; decide)⟩, if_neg (not_not.2 here), if_pos rfl]

theorem qtokenLoop_closes (here : at' buf t = 0x27) (next : at' buf (t + 1) ≠ 0x27) :
    qtokenLoop buf s t true = qtokenLoop buf s (t + 1) false := by
  rw [qtokenLoop, dif_pos ⟨by rw [here]; decide, .inl rfl⟩, if_neg (not_not.2 here), if_neg (by decide), if_pos next]

theorem qtokenLoop_folds (here : at' buf t = 0x27) (next : at' buf (t + 1) = 0x27) :
    qtokenLoop buf s t true = qtokenLoop (buf.set s 0x27) (s + 1) (t + 2) true := by
  rw [qtokenLoop, dif_pos ⟨by rw [here]; decide, .inl rfl⟩, if_neg (not_not.2 here), if_neg (by decide),
    if_neg (not_not.2 next), next]

theorem qtokenLoop_stops (here : at' buf t = 0 ∨ qsep (at' buf t) = true) : qtokenLoop buf s t false = (buf, s, t) := by
  rw [qtokenLoop, dif_neg]
  rintro ⟨some, quoting | plain⟩
  · exact Bool.false_ne_true quoting
  · exact here.elim some fun sep => Bool.false_ne_true (plain.symm.trans sep)

end Steps

/-- The bytes of a token outside quotes. -/
def Bare (p : List UInt8) : Prop := ∀ b ∈ p, b ≠ 0 ∧ qsep b = false ∧ b ≠ 0x27

/-- The bytes of a token inside quotes, where quotes are double. -/
def doubled (p : List UInt8) : List UInt8 := p.flatMap fun b => if b = 0x27 then [0x27, 0x27] else [b]

/-- The outcome of the loop from here: the token `p` is added. -/
def Adds (pre tok rest p : List UInt8) (quoting : Bool) (n : Nat) (buf : List UInt8) (s t : Nat) : Prop :=
  ∃ buf' s' t' gap, qtokenLoop buf s t quoting = qtokenLoop buf' s' t' quoting ∧
    Held pre (tok ++ p) gap rest buf' s' t' ∧ gap.length = n

theorem Adds.cons {p : List UInt8} {quoting : Bool} {n : Nat} {buf' : List UInt8} {s' t' : Nat}
    (run : qtokenLoop buf s t quoting = qtokenLoop buf' s' t' quoting)
    (adds : Adds pre (tok ++ [b]) rest p quoting n buf' s' t') : Adds pre tok rest (b :: p) quoting n buf s t := by
  obtain ⟨buf'', s'', t'', gap, later, held, length⟩ := adds
  exact ⟨buf'', s'', t'', gap, run.trans later, by rwa [List.append_assoc] at held, length⟩

theorem adds_bare : ∀ (p : List UInt8) {tok gap buf : List UInt8} {s t : Nat}, Bare p →
    Held pre tok gap (p ++ rest) buf s t → Adds pre tok rest p false gap.length buf s t
  | [], tok, gap, buf, s, t, _, held => ⟨buf, s, t, gap, rfl, by rwa [List.append_nil], rfl⟩
  | b :: p, tok, gap, buf, s, t, bare, held => by
    obtain ⟨⟨some, sep, quote⟩, later⟩ := List.forall_mem_cons.1 bare
    obtain ⟨gap', held', length⟩ := held.copy some
    exact .cons (qtokenLoop_plain held.head some (.inr sep) quote) (length ▸ adds_bare p later held')

theorem adds_doubled : ∀ (p : List UInt8) {tok gap buf : List UInt8} {s t : Nat}, 0 ∉ p →
    Held pre tok gap (doubled p ++ rest) buf s t → ∃ n ≥ gap.length, Adds pre tok rest p true n buf s t
  | [], tok, gap, buf, s, t, _, held => ⟨_, Nat.le_refl _, buf, s, t, gap, rfl, by rwa [List.append_nil], rfl⟩
  | b :: p, tok, gap, buf, s, t, nonzero, held => by
    obtain ⟨some, later⟩ := not_or.1 (mt List.mem_cons.2 nonzero)
    have some : b ≠ 0 := Ne.symm some
    by_cases quote : b = 0x27
    · subst quote
      have held : Held pre tok gap (0x27 :: 0x27 :: (doubled p ++ rest)) buf s t := held
      obtain ⟨gap', held', length⟩ := (held.skip (by decide)).copy (by decide)
      obtain ⟨n, more, adds⟩ := adds_doubled p later held'
      rw [length, List.length_append] at more
      exact ⟨n, Nat.le_trans (Nat.le_add_right _ _) more, .cons (qtokenLoop_folds held.head held.second) adds⟩
    · have held : Held pre tok gap (b :: (doubled p ++ rest)) buf s t := by
        have same : doubled (b :: p) = b :: doubled p := by
          rw [doubled, List.flatMap_cons, if_neg quote]
          rfl
        rwa [same] at held
      obtain ⟨gap', held', length⟩ := held.copy some
      obtain ⟨n, more, adds⟩ := adds_doubled p later held'
      exact ⟨n, length ▸ more, .cons (qtokenLoop_plain held.head some (.inl rfl) quote) adds⟩

/-- The words that stand for a token. -/
inductive Word (p : List UInt8) : List UInt8 → Prop
  | bare (some : p ≠ []) (bare : Bare p) : Word p p
  | quoted (nonzero : 0 ∉ p) : Word p (0x27 :: doubled p ++ [0x27])

variable {p w : List UInt8}

/-- The loop over a word that a NUL or a blank follows. -/
theorem qtokenLoop_word (pre rest : List UInt8) (word : Word p w) (sep : b = 0 ∨ qsep b = true) :
    ∃ buf' s' t' gap, qtokenLoop (pre ++ w ++ b :: rest) pre.length pre.length false = (buf', s', t') ∧
      Held pre p gap (b :: rest) buf' s' t' := by
  have start {l : List UInt8} : Held pre [] [] l (pre ++ l) pre.length pre.length :=
    ⟨by simp, by simp, rfl, fun c member => nomatch member⟩
  have other : b ≠ 0x27 := by
    rintro rfl
    exact absurd sep (by decide)
  rw [List.append_assoc]
  cases word with
  | bare _ bare =>
    obtain ⟨buf', s', t', gap, run, held, -⟩ := adds_bare p bare start
    exact ⟨buf', s', t', gap, run.trans (qtokenLoop_stops (held.head.symm ▸ sep)), held⟩
  | quoted nonzero =>
    have opens : Held pre [] [] (0x27 :: (doubled p ++ 0x27 :: b :: rest)) _ _ _ := start
    have same : (0x27 :: doubled p ++ [0x27]) ++ b :: rest = 0x27 :: (doubled p ++ 0x27 :: b :: rest) := by simp
    obtain ⟨n, -, buf', s', t', gap, run, held, -⟩ := adds_doubled p nonzero (opens.skip (by decide))
    have closed := held.skip (by decide)
    refine ⟨buf', s', t' + 1, gap ++ [0x27], ?_, closed⟩
    rw [same, qtokenLoop_opens opens.head, run,
      qtokenLoop_closes held.head (held.second.symm ▸ other), qtokenLoop_stops (closed.head.symm ▸ sep)]

/-- What stands in the buffer after a token: the token with its NUL, and what follows. -/
theorem qtoken_word (pre rest : List UInt8) (word : Word p w) (sep : b = 0 ∨ qsep b = true) :
    ∃ junk, qtoken (pre ++ w ++ b :: rest) pre.length =
        (pre ++ p ++ 0 :: junk ++ b :: rest, (pre ++ p ++ 0 :: junk).length) ∨
      qtoken (pre ++ w ++ b :: rest) pre.length =
        (pre ++ p ++ 0 :: rest, (pre ++ p).length + if b = 0 then 0 else 1) := by
  obtain ⟨buf', s', t', gap, run, held⟩ := qtokenLoop_word pre rest word sep
  have set (l : List UInt8) : (pre ++ p ++ l).set (pre ++ p).length 0 = pre ++ p ++ l.set 0 0 := by
    rw [List.set_append_right _ _ (Nat.le_refl _), Nat.sub_self]
  rw [qtoken, run]
  have at_ {l : List UInt8} {c : UInt8} : at' (pre ++ p ++ c :: l) (pre ++ p).length = c := at'_here _ _ _
  cases gap with
  | nil =>
    refine ⟨[], .inr ?_⟩
    have bytes : buf' = pre ++ p ++ b :: rest := by rw [held.bytes, List.append_nil]
    have input : t' = (pre ++ p).length := held.input.trans held.output
    simp only [bytes, held.output, input, at_, set, List.set_cons_zero]
    by_cases zero : b = 0
    · rw [if_neg (not_not.2 zero), if_pos zero, zero]
      rfl
    · rw [if_pos zero, if_pos trivial, if_neg zero]
  | cons g gap =>
    have some := (List.forall_mem_cons.1 held.old).1
    refine ⟨gap, .inl ?_⟩
    have bytes : buf' = pre ++ p ++ g :: (gap ++ b :: rest) := by rw [held.bytes]; simp
    have input : t' = (pre ++ p ++ 0 :: gap).length := by
      rw [held.input, held.output]
      simp [Nat.add_assoc]
    have ahead : t' ≠ s' := by rw [held.input]; simp
    simp only [bytes, held.output, at_, set, List.set_cons_zero, if_pos some]
    rw [if_neg (held.output ▸ ahead), input]
    simp

theorem skip_stops (here : at' buf s = 0 ∨ qsep (at' buf s) = false) : skip buf s = s := by
  rw [skip, dif_neg]
  exact fun goes => here.elim goes.1 fun plain => Bool.false_ne_true (plain.symm.trans goes.2)

theorem skip_blank (here : at' buf s = 0x20) : skip buf s = skip buf (s + 1) := by
  rw [skip, dif_pos ⟨by rw [here]; decide, by rw [here]; decide⟩]

theorem tokenizeFrom_done (here : at' buf s = 0) : ∀ maxargs, tokenizeFrom maxargs buf s = ([], buf)
  | 0 => rfl
  | maxargs + 1 => by
    rw [tokenizeFrom, skip_stops (.inl here)]
    exact if_pos here

theorem tokenizeFrom_blank : ∀ maxargs, tokenizeFrom maxargs (pre ++ 0x20 :: rest) pre.length =
    tokenizeFrom maxargs (pre ++ [0x20] ++ rest) (pre ++ [0x20]).length
  | 0 => by rw [tokenizeFrom, tokenizeFrom, List.append_assoc]; rfl
  | maxargs + 1 => by
    rw [tokenizeFrom, tokenizeFrom, skip_blank (at'_here pre rest 0x20), List.append_assoc, List.length_append]
    rfl

/-- The head of a word is neither a NUL nor a separator. -/
theorem Word.head (word : Word p w) : ∃ c w', w = c :: w' ∧ c ≠ 0 ∧ qsep c = false := by
  cases word with
  | bare some bare =>
    obtain ⟨c, p, rfl⟩ := List.exists_cons_of_ne_nil some
    obtain ⟨some, sep, -⟩ := bare c List.mem_cons_self
    exact ⟨c, p, rfl, some, sep⟩
  | quoted nonzero => exact ⟨0x27, _, rfl, by decide, by decide⟩

theorem tokenizeFrom_starts (word : Word p w) (maxargs : Nat) :
    tokenizeFrom (maxargs + 1) (pre ++ w ++ rest) pre.length =
      let (buf, t) := qtoken (pre ++ w ++ rest) pre.length
      let (args, buf) := tokenizeFrom maxargs buf t
      (pre.length :: args, buf) := by
  obtain ⟨c, w, rfl, some, sep⟩ := word.head
  have here : at' (pre ++ c :: w ++ rest) pre.length = c := by rw [List.append_assoc]; exact at'_here _ _ _
  rw [tokenizeFrom, skip_stops (.inr (here.symm ▸ sep))]
  exact if_neg (here.symm ▸ some)

/-- A word with a blank after it. -/
theorem tokenizeFrom_word (pre rest : List UInt8) (word : Word p w) (maxargs : Nat) : ∃ pre', pre ++ p ++ [0] <+: pre' ∧
    tokenizeFrom (maxargs + 1) (pre ++ w ++ 0x20 :: rest) pre.length =
      (pre.length :: (tokenizeFrom maxargs (pre' ++ rest) pre'.length).1,
        (tokenizeFrom maxargs (pre' ++ rest) pre'.length).2) := by
  rw [tokenizeFrom_starts word]
  obtain ⟨junk, token | token⟩ := qtoken_word pre rest word (.inr (by decide : qsep 0x20 = true))
  · refine ⟨pre ++ p ++ 0 :: junk ++ [0x20], ⟨junk ++ [0x20], by simp⟩, ?_⟩
    simp only [token, tokenizeFrom_blank]
  · refine ⟨pre ++ p ++ [0], List.prefix_refl _, ?_⟩
    have same : pre ++ p ++ 0 :: rest = pre ++ p ++ [0] ++ rest := by rw [List.append_assoc _ [0]]; rfl
    have input : ((pre ++ p).length + if (32 : UInt8) = 0 then 0 else 1) = (pre ++ p ++ [0]).length :=
      (@List.length_append _ (pre ++ p) [0]).symm
    simp only [token, same, input]

/-- The last word. -/
theorem tokenizeFrom_last (pre : List UInt8) (word : Word p w) (maxargs : Nat) : ∃ buf, pre ++ p ++ [0] <+: buf ∧
    tokenizeFrom (maxargs + 1) (pre ++ w ++ [0]) pre.length = ([pre.length], buf) := by
  rw [tokenizeFrom_starts word]
  obtain ⟨junk, token | token⟩ := qtoken_word pre [] word (.inl (rfl : (0 : UInt8) = 0))
  · refine ⟨pre ++ p ++ 0 :: junk ++ [0], ⟨junk ++ [0], by simp⟩, ?_⟩
    simp only [token, tokenizeFrom_done (at'_here _ _ _)]
  · refine ⟨pre ++ p ++ [0], List.prefix_refl _, ?_⟩
    simp only [token, if_pos, Nat.add_zero, tokenizeFrom_done (at'_here (pre ++ p) [] 0)]

theorem cstring_token (nonzero : 0 ∉ p) (keeps : pre ++ p ++ [0] <+: buf) : cstring buf pre.length = p := by
  obtain ⟨more, rfl⟩ := keeps
  rw [cstring, List.append_assoc, List.append_assoc, List.drop_left, List.takeWhile_append_of_pos]
  · simp
  · exact fun c member => decide_eq_true fun zero => nonzero (zero ▸ member)

/-- Words with single blanks between them are the tokens they stand for. -/
theorem tokenizeFrom_words : ∀ (ps ws : List (List UInt8)) (pre : List UInt8) (maxargs : Nat),
    List.Forall₂ Word ps ws → (∀ p ∈ ps, 0 ∉ p) → ps.length ≤ maxargs → ∃ args buf,
      tokenizeFrom maxargs (pre ++ [0x20].intercalate ws ++ [0]) pre.length = (args, buf) ∧ pre <+: buf ∧
        args.map (cstring buf) = ps
  | _, _, pre, maxargs, .nil, _, _ =>
    ⟨[], pre ++ [0], by rw [List.intercalate_nil, List.append_nil]; exact tokenizeFrom_done (at'_here pre [] 0) _,
      List.prefix_append _ _, rfl⟩
  | _, _, pre, maxargs + 1, .cons (a := p) (b := w) word .nil, nonzero, _ => by
    obtain ⟨buf, keeps, run⟩ := tokenizeFrom_last pre word maxargs
    refine ⟨_, buf, by rwa [List.intercalate_singleton], ?_, ?_⟩
    · exact (List.prefix_append pre (p ++ [0])).trans <| List.append_assoc pre p _ ▸ keeps
    · rw [List.map_singleton, cstring_token (nonzero p List.mem_cons_self) keeps]
  | _, _, pre, maxargs + 1, .cons (a := p) (b := w) word (.cons next later), nonzero, room => by
    obtain ⟨pre', keeps, run⟩ := tokenizeFrom_word pre _ word maxargs
    obtain ⟨args, buf, rest, kept, same⟩ := tokenizeFrom_words _ _ pre' maxargs (.cons next later)
      (fun p member => nonzero p (List.mem_cons_of_mem _ member)) (Nat.le_of_succ_le_succ room)
    refine ⟨pre.length :: args, buf, ?_, ?_, ?_⟩
    · have same (l : List UInt8) : pre ++ (w ++ [0x20] ++ l) ++ [0] = pre ++ w ++ 0x20 :: (l ++ [0]) := by simp
      rw [List.intercalate_cons_cons, same, run, ← List.append_assoc, rest]
    · exact (List.prefix_append pre (p ++ [0])).trans <| List.append_assoc pre p _ ▸ (keeps.trans kept)
    · rw [List.map_cons, same, cstring_token (nonzero p List.mem_cons_self) (keeps.trans kept)]

section Setup

variable {doquote : Nat → Bool} {cs : List Nat} {c : Nat} {nout : Int} {q : Quoteinfo}

/-- The bytes of the form of a string. -/
def cost (quoted : Bool) (cs : List Nat) : Nat := (if quoted then 2 + cs.count 0x27 else 0) + runenlen cs

/-- What `_quotesetup` has admitted: `cs`, with no quotes only when nothing asks for them. -/
structure Admits (doquote : Nat → Bool) (q : Quoteinfo) (cs : List Nat) : Prop where
  runesin : q.nrunesin = cs.length
  bytesin : q.nbytesin = runenlen cs
  bytesout : q.nbytesout = cost q.quoted cs
  plain : q.quoted = false → ∀ c ∈ cs, special doquote c = false

theorem int_small {n : Nat} (small : n < 2 ^ 31) : int n = n := by
  unfold int
  rw [Int.bmod_eq_of_le] <;> omega

theorem int_add {m n : Nat} (small : m + n < 2 ^ 31) : int (m + n) = (m + n : Nat) := int_small small

theorem runenlen_append (cs : List Nat) (c : Nat) : runenlen (cs ++ [c]) = runenlen cs + runelen c := by
  unfold runenlen
  rw [List.map_append, List.sum_append]
  rfl

theorem special_quote : special doquote 0x27 = true := by
  unfold special
  simp

theorem count_plain (plain : ∀ c ∈ cs, special doquote c = false) : cs.count 0x27 = 0 :=
  List.count_eq_zero.2 fun member => Bool.false_ne_true ((plain _ member).symm.trans special_quote)

theorem cost_append (quoted : Bool) (cs : List Nat) (c : Nat) : cost quoted (cs ++ [c]) =
    cost quoted cs + runelen c + if quoted = true ∧ c = 0x27 then 1 else 0 := by
  unfold cost
  rw [runenlen_append, List.count_append, List.count_singleton]
  cases quoted <;> (simp; try omega)

theorem cost_prefix (quoted : Bool) (cs later : List Nat) : cost quoted cs ≤ cost quoted (cs ++ later) := by
  unfold cost runenlen
  rw [List.map_append, List.sum_append, List.count_append]
  cases quoted <;> (simp; try omega)

theorem length_le_runenlen : cs.length ≤ runenlen cs := by
  unfold runenlen
  induction cs with
  | nil => exact Nat.le_refl 0
  | cons c cs ih =>
    rw [List.map_cons, List.sum_cons, List.length_cons]
    have := runelen_pos (c := c)
    omega

theorem length_le_cost (quoted : Bool) (cs : List Nat) : cs.length ≤ cost quoted cs :=
  Nat.le_trans length_le_runenlen (Nat.le_add_left _ _)

/-- Quotes only add to the output. -/
theorem cost_le (cs : List Nat) {quoted quoted' : Bool} (le : quoted = true → quoted' = true) :
    cost quoted cs ≤ cost quoted' cs := by
  unfold cost
  cases quoted
  · rw [if_neg Bool.false_ne_true]
    omega
  · rw [le rfl]

/-- The quotes around what is admitted. -/
theorem Admits.quotes (admits : Admits doquote q cs) (short : cost true cs < 2 ^ 31) :
    Admits doquote (if q.quoted then q else { q.adds 2 with quoted := true }) cs ∧
      (if q.quoted then q else { q.adds 2 with quoted := true }).quoted = true := by
  by_cases quoted : q.quoted = true
  · rw [if_pos quoted]
    exact ⟨admits, quoted⟩
  · have plain := Bool.eq_false_iff.2 quoted
    rw [if_neg quoted]
    refine ⟨⟨admits.runesin, admits.bytesin, ?_, fun no => nomatch no⟩, rfl⟩
    have none := count_plain (admits.plain plain)
    have bytes := admits.bytesout
    unfold cost at bytes short ⊢
    rw [none] at short ⊢
    simp only [plain, if_neg Bool.false_ne_true, Nat.zero_add] at bytes
    simp only [Quoteinfo.adds, bytes, if_pos trivial] at short ⊢
    rw [show ((runenlen cs : Int) + 2) = ((2 + 0 + runenlen cs : Nat) : Int) by push_cast; omega]
    exact int_small short

theorem Admits.advance {q' : Quoteinfo} (admits : Admits doquote q cs) (quoted : q'.quoted = q.quoted)
    (runesin : q'.nrunesin = q.nrunesin) (bytesin : q'.nbytesin = q.nbytesin)
    (bytesout : q'.nbytesout + runelen c = cost q.quoted (cs ++ [c])) (short : cost q.quoted (cs ++ [c]) < 2 ^ 31)
    (plain : q.quoted = false → special doquote c = false) : Admits doquote (q'.advance (runelen c)) (cs ++ [c]) where
  runesin := by
    have within := length_le_cost q.quoted (cs ++ [c])
    rw [List.length_append, List.length_singleton] at within ⊢
    change int (q'.nrunesin + 1) = _
    rw [runesin, admits.runesin]
    exact int_add (Nat.lt_of_le_of_lt within short)
  bytesin := by
    have within : runenlen (cs ++ [c]) ≤ cost q.quoted (cs ++ [c]) := Nat.le_add_left _ _
    rw [runenlen_append] at within ⊢
    change int (q'.nbytesin + runelen c) = _
    rw [bytesin, admits.bytesin]
    exact int_add (Nat.lt_of_le_of_lt within short)
  bytesout := by
    change int (q'.nbytesout + runelen c) = cost q'.quoted (cs ++ [c])
    rw [bytesout, quoted]
    exact int_small short
  plain off d member := by
    rcases List.mem_append.1 member with old | new
    · exact admits.plain (quoted ▸ off) d old
    · exact List.mem_singleton.1 new ▸ plain (quoted ▸ off)

/-- What `_quotesetup` does with a rune: it admits the rune, or what it has is enough. -/
structure Next (doquote : Nat → Bool) (nout : Int) (cs : List Nat) (c : Nat) (q : Quoteinfo)
    (r : Quoteinfo × Bool) : Prop where
  admits : Admits doquote r.1 (if r.2 then cs ++ [c] else cs)
  within : q.nbytesout ≤ max 0 nout → r.1.nbytesout ≤ max 0 nout
  quoted : r.1.quoted = true → q.quoted = true ∨ special doquote c = true
  goes : (cost (q.quoted || special doquote c) (cs ++ [c]) : Int) ≤ nout → r.2 = true

theorem le_cost_append (quoted : Bool) (cs : List Nat) (c : Nat) :
    cost quoted cs + runelen c ≤ cost quoted (cs ++ [c]) := by
  rw [cost_append]
  exact Nat.le_add_right _ _

/-- A rune that asks for quotes, when there is room for the rune itself. -/
theorem quotesetupRune_special (admits : Admits doquote q cs) (asks : special doquote c = true)
    (short : cost true (cs ++ [c]) < 2 ^ 31) (room : int (q.nbytesout + runelen c) = q.nbytesout + runelen c)
    (full : ¬q.nbytesout + runelen c > nout) :
    Next doquote nout cs c q (quotesetupRune doquote nout c (runelen c) q) := by
  have more := le_cost_append true cs c
  have bytes := admits.bytesout
  have stops {q' : Quoteinfo} (admits : Admits doquote q' cs)
      (within : q.nbytesout ≤ max 0 nout → q'.nbytesout ≤ max 0 nout)
      (full : ¬(cost true (cs ++ [c]) : Int) ≤ nout) : Next doquote nout cs c q (q', false) :=
    ⟨admits, within, fun _ => .inr asks, fun fits => absurd (by rwa [asks, Bool.or_true] at fits) full⟩
  rw [quotesetupRune, room, if_neg full, if_pos asks]
  have before : cost true cs < 2 ^ 31 := Nat.lt_of_le_of_lt (Nat.le_trans (Nat.le_add_right _ _) more) short
  have opens (off : q.quoted = false) : cost true cs = 2 + cost q.quoted cs := by
    rw [off]
    unfold cost
    rw [count_plain (admits.plain off), if_neg Bool.false_ne_true, Nat.zero_add]
    rfl
  have quotes (off : q.quoted = false) :
      int (1 + q.nbytesout + runelen c + 1) = (cost true cs + runelen c : Nat) := by
    have same : 1 + q.nbytesout + runelen c + 1 = (cost true cs + runelen c : Nat) := by
      rw [bytes]
      have := opens off
      omega
    rw [same]
    exact int_small (Nat.lt_of_le_of_lt more short)
  by_cases closed : q.quoted = false ∧ int (1 + q.nbytesout + runelen c + 1) > nout
  · rw [if_pos closed]
    exact stops admits id fun fits => by rw [quotes closed.1] at closed; omega
  rw [if_neg closed]
  obtain ⟨admits', on⟩ := admits.quotes before
  generalize (if q.quoted then q else { q.adds 2 with quoted := true }) = q' at admits' on
  have bytes' := admits'.bytesout
  rw [on] at bytes'
  have room' : (cost true cs + runelen c : Nat) ≤ nout := by
    by_cases off : q.quoted = false
    · rw [← quotes off]
      exact Int.not_lt.1 fun no => closed ⟨off, no⟩
    · rw [Bool.not_eq_false] at off
      rw [bytes, off] at full
      omega
  dsimp only
  by_cases quote : c = 0x27
  · have total : cost true (cs ++ [c]) = cost true cs + runelen c + 1 := by
      rw [cost_append, if_pos ⟨rfl, quote⟩]
    have twice : int (1 + q'.nbytesout + runelen c) = cost true (cs ++ [c]) := by
      have same : 1 + q'.nbytesout + runelen c = cost true (cs ++ [c]) := by omega
      rw [same]
      exact int_small short
    have one : int (q'.nbytesout + 1) = q'.nbytesout + 1 := by
      rw [bytes']
      exact int_add (m := cost true cs) (n := 1) (by omega)
    rw [if_pos quote, twice]
    by_cases tight : (cost true (cs ++ [c]) : Int) > nout
    · rw [if_pos tight]
      exact stops admits' (fun _ => by omega) fun fits => by omega
    · rw [if_neg tight]
      have bytesout : (q'.adds 1).nbytesout + runelen c = cost q'.quoted (cs ++ [c]) := by
        change int (q'.nbytesout + 1) + runelen c = _
        rw [one, on, bytes', total]
        omega
      refine ⟨admits'.advance rfl rfl rfl bytesout (on ▸ short) fun off => ?_, fun _ => ?_, fun _ => .inr asks,
        fun _ => rfl⟩
      · exact absurd (off.symm.trans on) Bool.false_ne_true
      · change int ((q'.adds 1).nbytesout + runelen c) ≤ max 0 nout
        rw [bytesout, on, int_small short]
        omega
  · have total : cost true (cs ++ [c]) = cost true cs + runelen c := by
      rw [cost_append, if_neg fun both => quote both.2, Nat.add_zero]
    have bytesout : q'.nbytesout + runelen c = cost q'.quoted (cs ++ [c]) := by
      rw [on, bytes', total]
      rfl
    rw [if_neg quote]
    refine ⟨admits'.advance rfl rfl rfl bytesout (on ▸ short) fun off => ?_, fun _ => ?_, fun _ => .inr asks,
      fun _ => rfl⟩
    · exact absurd (off.symm.trans on) Bool.false_ne_true
    · change int (q'.nbytesout + runelen c) ≤ max 0 nout
      rw [bytesout, on, int_small short]
      omega

theorem quotesetupRune_next (nout : Int) (admits : Admits doquote q cs)
    (short : cost (q.quoted || special doquote c) (cs ++ [c]) < 2 ^ 31) :
    Next doquote nout cs c q (quotesetupRune doquote nout c (runelen c) q) := by
  have more := le_cost_append q.quoted cs c
  have less : cost q.quoted (cs ++ [c]) ≤ cost (q.quoted || special doquote c) (cs ++ [c]) :=
    cost_le _ fun quoted => by rw [quoted, Bool.true_or]
  have bytes := admits.bytesout
  have room : int (q.nbytesout + runelen c) = q.nbytesout + runelen c := by
    rw [bytes]
    exact int_small (Nat.lt_of_le_of_lt (Nat.le_trans more less) short)
  by_cases full : q.nbytesout + runelen c > nout
  · rw [quotesetupRune, room, if_pos full]
    exact ⟨admits, id, .inl, fun fits => by omega⟩
  by_cases asks : special doquote c = true
  · rw [asks, Bool.or_true] at short
    exact quotesetupRune_special admits asks short room full
  · have plain := Bool.eq_false_iff.2 asks
    have other : c ≠ 0x27 := fun quote => asks (quote ▸ special_quote)
    rw [quotesetupRune, room, if_neg full, if_neg asks]
    have total : cost q.quoted (cs ++ [c]) = cost q.quoted cs + runelen c := by
      rw [cost_append, if_neg fun both => other both.2, Nat.add_zero]
    rw [plain, Bool.or_false] at short
    refine ⟨?_, fun _ => ?_, .inl, fun _ => rfl⟩
    · exact admits.advance rfl rfl rfl (by rw [bytes, total]; rfl) short fun _ => plain
    · change int (q.nbytesout + runelen c) ≤ max 0 nout
      rw [room]
      omega

/-- A string asks for quotes. -/
def needsquotes (doquote : Nat → Bool) (cs : List Nat) : Bool := cs.isEmpty || cs.any (special doquote)

theorem ofBytes_encoded (more : List UInt8) (i : Nat) (inside : i < (runetochar c).length) :
    ofBytes (runetochar c ++ more) i = (runetochar c)[i] := by
  have here : ofBytes ([] ++ (runetochar c ++ more)) ([].length + i) = _ := ofBytes_append inside []
  rwa [List.nil_append, List.length_nil, Nat.zero_add] at here

theorem chartorune_encoded (scalar : Scalar c) (more : List UInt8) :
    chartorune (ofBytes (runetochar c ++ more)) = (c, runelen c) := by
  rw [← length_runetochar scalar]
  exact chartorune_runetochar scalar _ (ofBytes_encoded more)

/-- What the loop has in the end: a prefix of the string, all of it if there is room for that. -/
structure Fits (doquote : Nat → Bool) (nout : Int) (cs : List Nat) (q : Quoteinfo) : Prop where
  admits : ∃ p, p <+: cs ∧ Admits doquote q p ∧ ((cost (needsquotes doquote cs) cs : Int) ≤ nout → p = cs)
  within : q.nbytesout ≤ max 0 nout

theorem quotesetupLoop_fits : ∀ (later p : List Nat) {steps : Nat} {nin : Int} {q : Quoteinfo}, Admits doquote q p →
    (∀ c ∈ later, Scalar c ∧ c ≠ 0) → nin = -1 - runenlen p → later.length < steps →
    (q.quoted = true → needsquotes doquote (p ++ later) = true) →
    cost (needsquotes doquote (p ++ later)) (p ++ later) < 2 ^ 31 → q.nbytesout ≤ max 0 nout →
    Fits doquote nout (p ++ later) (quotesetupLoop doquote nout steps (later.flatMap runetochar) nin q)
  | [], p, steps + 1, nin, q, admits, _, count, _, quoted, short, within => by
    have stop : chartorune (ofBytes []) = (0, 1) := by decide
    rw [quotesetupLoop, if_neg (by omega), List.flatMap_nil, stop]
    exact ⟨⟨p, List.prefix_append p [], admits, fun _ => by rw [List.append_nil]⟩, within⟩
  | c :: later, p, steps + 1, nin, q, admits, runes, count, room, quoted, short, within => by
    obtain ⟨⟨scalar, some⟩, rest⟩ := List.forall_mem_cons.1 runes
    have whole : p ++ [c] ++ later = p ++ c :: later := by rw [List.append_assoc]; rfl
    have asks : (q.quoted || special doquote c) = true → needsquotes doquote (p ++ c :: later) = true := fun some => by
      rcases Bool.or_eq_true_iff.1 some with old | new
      · exact quoted old
      · rw [needsquotes, List.any_append, List.any_cons, new]
        simp
    have less : cost (q.quoted || special doquote c) (p ++ [c]) ≤
        cost (needsquotes doquote (p ++ c :: later)) (p ++ c :: later) := by
      refine Nat.le_trans (cost_le _ asks) ?_
      rw [← whole]
      exact cost_prefix _ _ _
    have next := quotesetupRune_next nout admits (Nat.lt_of_le_of_lt less short)
    have bytes : runenlen (p ++ [c]) < 2 ^ 31 :=
      Nat.lt_of_le_of_lt (Nat.le_trans (Nat.le_add_left _ _) less) short
    rw [quotesetupLoop, if_neg (by omega), List.flatMap_cons, chartorune_encoded scalar]
    dsimp only
    rw [if_neg some]
    generalize quotesetupRune doquote nout c (runelen c) q = r at next ⊢
    obtain ⟨q', goes⟩ := r
    cases goes with
    | false =>
      refine ⟨⟨p, List.prefix_append _ _, next.admits, fun fits => ?_⟩, next.within within⟩
      exact absurd (next.goes (by omega)) Bool.false_ne_true
    | true =>
      rw [← length_runetochar scalar, List.drop_left, length_runetochar scalar, ← whole]
      refine quotesetupLoop_fits later (p ++ [c]) next.admits rest ?_ (Nat.lt_of_succ_lt_succ room) (fun on => ?_)
        (whole.symm ▸ short) (next.within within)
      · rw [count, runenlen_append] at *
        unfold int
        rw [Int.bmod_eq_of_le] <;> omega
      · rw [whole]
        exact asks (Bool.or_eq_true_iff.2 (next.quoted on))

theorem runetochar_nonzero (scalar : Scalar c) (some : c ≠ 0) : 0 ∉ runetochar c := by
  intro member
  by_cases low : c < 0x80
  · rw [runetochar_one low, List.mem_singleton] at member
    have same := congrArg UInt8.toNat member
    rw [UInt8.toNat_ofNat_of_lt' (Nat.lt_trans low (by decide))] at same
    exact some same.symm
  · exact absurd (high_bytes scalar low member) (by decide)

theorem encoded_nonzero (runes : ∀ c ∈ cs, Scalar c ∧ c ≠ 0) : 0 ∉ cs.flatMap runetochar := fun member => by
  obtain ⟨c, here, zero⟩ := List.mem_flatMap.1 member
  exact runetochar_nonzero (runes c here).1 (runes c here).2 zero

theorem quotesetup_fits (runes : ∀ c ∈ cs, Scalar c ∧ c ≠ 0) (short : cost (needsquotes doquote cs) cs < 2 ^ 31) :
    Fits doquote nout cs (quotesetup doquote (cs.flatMap runetochar) nout) := by
  have steps : cs.length < (cs.flatMap runetochar).length + 1 := by
    rw [length_encoded fun c member => (runes c member).1]
    exact Nat.lt_succ_of_le length_le_runenlen
  cases cs with
  | nil =>
    have none : ofBytes (([] : List Nat).flatMap runetochar) 0 = 0 := rfl
    rw [quotesetup, if_pos none]
    by_cases tight : nout < 2
    · rw [if_pos ⟨rfl, tight⟩]
      exact ⟨⟨[], List.prefix_refl _, ⟨rfl, rfl, rfl, fun _ c no => nomatch no⟩, fun _ => rfl⟩, Int.le_max_left _ _⟩
    · rw [if_neg fun both => tight both.2]
      refine quotesetupLoop_fits [] [] ⟨rfl, rfl, rfl, fun no => nomatch no⟩ runes rfl steps (fun _ => rfl) short ?_
      change (2 : Int) ≤ _
      omega
  | cons c cs =>
    have some : ofBytes ((c :: cs).flatMap runetochar) 0 ≠ 0 := by
      have nonzero := encoded_nonzero runes
      have length := length_encoded fun d member => (runes d member).1
      have pos : 0 < ((c :: cs).flatMap runetochar).length := by
        rw [length]
        exact Nat.lt_of_lt_of_le (Nat.succ_pos cs.length) (show (c :: cs).length ≤ _ from length_le_runenlen)
      obtain ⟨b, l, same⟩ := List.exists_cons_of_length_pos pos
      rw [same] at nonzero ⊢
      exact fun zero => nonzero (List.mem_cons.2 (.inl zero.symm))
    rw [quotesetup, if_neg fun both => some both.1, if_neg some]
    exact quotesetupLoop_fits (c :: cs) [] ⟨rfl, rfl, rfl, fun _ c no => nomatch no⟩ runes rfl steps
      (fun no => nomatch no) short
      (Int.le_max_left _ _)

/-- The output for a rune, and for a string. -/
def form (twice : Bool) (c : Nat) : List UInt8 :=
  if twice = true ∧ c = 0x27 then runetochar c ++ runetochar c else runetochar c

def body (twice : Bool) (cs : List Nat) : List UInt8 := cs.flatMap (form twice)

theorem fmtrune_room {limit : Option Nat} {out : List UInt8} (room : ∀ n ∈ limit, (out ++ runetochar c).length ≤ n) :
    fmtrune limit out c = some (out ++ runetochar c) := by
  rw [fmtrune, if_neg]
  intro full
  obtain ⟨n, here, less⟩ := (Option.any_eq_true _ _).1 full
  have := room n here
  rw [List.length_append] at this
  have := of_decide_eq_true less
  omega

theorem putrune_room {limit : Option Nat} {twice : Bool} {out : List UInt8}
    (room : ∀ n ∈ limit, (out ++ form twice c).length ≤ n) :
    putrune limit twice out c = some (out ++ form twice c) := by
  unfold putrune form at *
  by_cases quote : twice = true ∧ c = 0x27
  · simp only [if_pos quote, ← List.append_assoc] at room ⊢
    rw [fmtrune_room fun n here => Nat.le_trans (List.prefix_append _ _).length_le (room n here)]
    exact fmtrune_room room
  · simp only [if_neg quote] at room ⊢
    rw [fmtrune_room room]
    rfl

/-- A rune that is all there is copied. -/
theorem copyrunes_rune {limit : Option Nat} {twice : Bool} {m out : List UInt8} {me : Int} {n nc : Nat}
    (read : chartorune (ofBytes m) = (c, n))
    (whole : (ofBytes m 0).toNat < 0x80 ∨ fullrune (ofBytes m) me.toNat = true) :
    copyrunes limit twice (nc + 1) m me out =
      (putrune limit twice out c).bind fun out => copyrunes limit twice nc (m.drop n) (me - n) out := by
  rw [copyrunes]
  dsimp only
  by_cases low : (ofBytes m 0).toNat < 0x80
  · rw [chartorune_one low] at read
    obtain ⟨rfl, rfl⟩ := Prod.mk.inj read
    rw [if_neg fun all => all.1 low, if_pos low]
    rfl
  · rw [if_neg fun all => all.2.2 (whole.resolve_left low), if_neg low, read]
    rfl

theorem copyrunes_body {limit : Option Nat} {twice : Bool} :
    ∀ (cs : List Nat) (out more : List UInt8), (∀ c ∈ cs, Scalar c) →
    (∀ n ∈ limit, (out ++ body twice cs).length ≤ n) →
    copyrunes limit twice cs.length (cs.flatMap runetochar ++ more) (runenlen cs) out = some (out ++ body twice cs)
  | [], out, more, _, _ => congrArg some (List.append_nil out).symm
  | c :: cs, out, more, scalars, room => by
    obtain ⟨scalar, rest⟩ := List.forall_mem_cons.1 scalars
    have bytes : runenlen (c :: cs) = runelen c + runenlen cs := List.sum_cons
    have split : body twice (c :: cs) = form twice c ++ body twice cs := List.flatMap_cons
    have text : (c :: cs).flatMap runetochar ++ more = runetochar c ++ (cs.flatMap runetochar ++ more) := by
      rw [List.flatMap_cons, List.append_assoc]
    have here := ofBytes_encoded (c := c) (cs.flatMap runetochar ++ more)
    have whole : (ofBytes (runetochar c ++ (cs.flatMap runetochar ++ more)) 0).toNat < 0x80 ∨
        fullrune (ofBytes (runetochar c ++ (cs.flatMap runetochar ++ more)))
          (runenlen (c :: cs) : Int).toNat = true := by
      by_cases low : c < 0x80
      · left
        rw [runetochar_one low] at here ⊢
        rw [here 0 Nat.one_pos]
        exact Nat.lt_of_le_of_lt (Nat.mod_le _ _) low
      · right
        rw [Int.toNat_natCast, bytes]
        exact fullrune_runetochar scalar low here (by rw [length_runetochar scalar]; omega)
    rw [split, ← List.append_assoc] at room ⊢
    have put : putrune limit twice out c = some (out ++ form twice c) :=
      putrune_room fun n here => Nat.le_trans (List.prefix_append _ _).length_le (room n here)
    have left : (runenlen (c :: cs) : Int) - (runelen c : Nat) = runenlen cs := by
      rw [bytes]
      omega
    rw [text, List.length_cons, copyrunes_rune (chartorune_encoded scalar _) whole, put, left,
      ← length_runetochar scalar, List.drop_left]
    exact copyrunes_body cs _ more rest room

theorem length_body (scalars : ∀ c ∈ cs, Scalar c) (twice : Bool) :
    (body twice cs).length = runenlen cs + if twice then cs.count 0x27 else 0 := by
  unfold body runenlen
  induction cs with
  | nil => cases twice <;> rfl
  | cons c cs ih =>
    obtain ⟨scalar, rest⟩ := List.forall_mem_cons.1 scalars
    rw [List.flatMap_cons, List.length_append, ih rest, List.map_cons, List.sum_cons, List.count_cons, form]
    by_cases quote : twice = true ∧ c = 0x27
    · obtain ⟨rfl, rfl⟩ := quote
      simp [length_runetochar scalar, runelen, runeX]
      omega
    · rw [if_neg quote, length_runetochar scalar]
      cases twice
      · simp
      · simp only [true_and] at quote
        simp [quote, Nat.add_assoc]

theorem body_bare (cs : List Nat) : body false cs = cs.flatMap runetochar :=
  congrArg cs.flatMap (funext fun _ => if_neg fun both => Bool.false_ne_true both.1)

theorem doubled_append (l m : List UInt8) : doubled (l ++ m) = doubled l ++ doubled m := List.flatMap_append

theorem doubled_plain {l : List UInt8} (plain : 0x27 ∉ l) : doubled l = l := by
  unfold doubled
  induction l with
  | nil => rfl
  | cons b l ih =>
    obtain ⟨other, rest⟩ := not_or.1 (mt List.mem_cons.2 plain)
    rw [List.flatMap_cons, if_neg (Ne.symm other), ih rest]
    rfl

/-- Only the rune of a byte has it among its bytes. -/
theorem runetochar_byte (scalar : Scalar c) {b : UInt8} (low : b.toNat < 0x80) (member : b ∈ runetochar c) :
    c = b.toNat := by
  by_cases one : c < 0x80
  · rw [runetochar_one one, List.mem_singleton] at member
    rw [member, UInt8.toNat_ofNat_of_lt' (Nat.lt_trans one (by decide))]
  · have := high_bytes scalar one member
    omega

theorem body_doubled (scalars : ∀ c ∈ cs, Scalar c) : body true cs = doubled (cs.flatMap runetochar) := by
  induction cs with
  | nil => rfl
  | cons c cs ih =>
    obtain ⟨scalar, rest⟩ := List.forall_mem_cons.1 scalars
    have split : body true (c :: cs) = form true c ++ body true cs := List.flatMap_cons
    rw [split, ih rest, List.flatMap_cons, doubled_append]
    congr 1
    by_cases quote : c = 0x27
    · subst quote
      rfl
    · rw [form, if_neg fun both => quote both.2, doubled_plain]
      exact fun member => quote (runetochar_byte scalar (by decide) member)

theorem bare_encoded (runes : ∀ c ∈ cs, Scalar c ∧ c ≠ 0) (plain : ∀ c ∈ cs, special doquote c = false) :
    Bare (cs.flatMap runetochar) := fun b member => by
  obtain ⟨c, here, byte⟩ := List.mem_flatMap.1 member
  have usual := plain c here
  unfold special at usual
  simp only [decide_eq_false_iff_not, not_or] at usual
  have same (low : b.toNat < 0x80) := runetochar_byte (runes c here).1 low byte
  refine ⟨fun zero => encoded_nonzero runes (zero ▸ member), ?_, ?_⟩
  · by_contra sep
    rw [Bool.not_eq_false] at sep
    unfold qsep at sep
    rcases of_decide_eq_true sep with rfl | rfl | rfl | rfl <;> exact usual.1 (same (by decide) ▸ by decide)
  · rintro rfl
    exact usual.2.1 (same (by decide))

/-- What is printed for `cs`. -/
def text (quoted : Bool) (cs : List Nat) : List UInt8 :=
  if quoted then 0x27 :: body true cs ++ [0x27] else body false cs

theorem length_text (scalars : ∀ c ∈ cs, Scalar c) (quoted : Bool) : (text quoted cs).length = cost quoted cs := by
  unfold text cost
  cases quoted
  · rw [if_neg Bool.false_ne_true, length_body scalars]
    simp
  · rw [if_pos rfl, List.length_append, List.length_cons, length_body scalars]
    simp
    omega

theorem Admits.word (admits : Admits doquote q cs) (runes : ∀ c ∈ cs, Scalar c ∧ c ≠ 0)
    (some : q.quoted = false → cs ≠ []) :
    Word (cs.flatMap runetochar) (text q.quoted cs) := by
  unfold text
  by_cases quoted : q.quoted = true
  · rw [if_pos quoted, body_doubled fun c member => (runes c member).1]
    exact .quoted (encoded_nonzero runes)
  · have plain := Bool.eq_false_iff.2 quoted
    rw [if_neg quoted, body_bare]
    refine .bare (fun none => ?_) (bare_encoded runes (admits.plain plain))
    have length := length_encoded fun c member => (runes c member).1
    rw [none] at length
    exact some plain (List.eq_nil_of_length_eq_zero (Nat.le_zero.1 (length_le_runenlen.trans_eq length.symm)))

/-- The output of what `_quotesetup` admits. -/
theorem quotestrfmt_text {limit : Option Nat} {p : List Nat} (runes : ∀ c ∈ cs, Scalar c ∧ c ≠ 0) (front : p <+: cs)
    (setup : quotesetup doquote (cs.flatMap runetochar) (outlen limit) = q)
    (admits : Admits doquote q p) (room : ∀ n ∈ limit, cost q.quoted p ≤ n) :
    quotestrfmt doquote limit (cs.flatMap runetochar) = some (text q.quoted p) := by
  obtain ⟨more, rfl⟩ := front
  have scalars : ∀ c ∈ p, Scalar c := fun c member => (runes c (List.mem_append_left _ member)).1
  rw [← length_text scalars] at room
  have count : q.nrunesin.toNat = p.length := by rw [admits.runesin]; rfl
  unfold quotestrfmt
  rw [setup, List.flatMap_append]
  dsimp only
  rw [count, admits.bytesin]
  unfold text at *
  by_cases quoted : q.quoted = true
  · rw [quoted] at room ⊢
    have whole : [0x27] ++ body true p ++ [0x27] <+: 0x27 :: body true p ++ [0x27] := List.prefix_refl _
    have fits {out : List UInt8} (front : out <+: 0x27 :: body true p ++ [0x27]) : ∀ n ∈ limit, out.length ≤ n :=
      fun n here => front.length_le.trans (room n here)
    have opens : fmtrune limit [] 0x27 = some [0x27] :=
      fmtrune_room (c := 0x27) (fits ((List.prefix_append [0x27] (body true p ++ [0x27])).trans (List.prefix_refl _)))
    have copies := copyrunes_body p [0x27] (more.flatMap runetochar) scalars
      (fits ((List.prefix_append _ _).trans whole))
    have closes : fmtrune limit ([0x27] ++ body true p) 0x27 = some ([0x27] ++ body true p ++ [0x27]) :=
      fmtrune_room (c := 0x27) (fits whole)
    simp only [Bool.not_true, Bool.false_eq_true, if_false, opens, copies, closes, Option.bind_eq_bind,
      Option.bind_some]
    rfl
  · have plain := Bool.eq_false_iff.2 quoted
    rw [plain] at room ⊢
    exact copyrunes_body p [] _ scalars room

/-- A string without NULs, of the runes of UTF-8, whose quoted form an `int` counts. -/
structure Short (doquote : Nat → Bool) (cs : List Nat) : Prop where
  runes : ∀ c ∈ cs, Scalar c ∧ c ≠ 0
  short : cost (needsquotes doquote cs) cs < 2 ^ 31

theorem int_le (n : Nat) : int n ≤ n := by
  by_cases small : n < 2 ^ 31
  · exact (int_small small).le
  · have top : int n < ((2 ^ 32 : Nat) + 1) / 2 := Int.bmod_lt (by decide)
    omega

theorem outlen_room {limit : Option Nat} {n : Nat} (small : n < 2 ^ 31) (fits : ∀ l ∈ limit, n ≤ l ∧ l < 2 ^ 31) :
    (n : Int) ≤ outlen limit := by
  cases limit with
  | none =>
    rw [outlen]
    omega
  | some l =>
    obtain ⟨fits, small⟩ := fits l rfl
    rw [outlen, int_small small]
    exact Int.ofNat_le.2 fits

theorem quotesetup_nil (room : 2 ≤ nout) : (quotesetup doquote [] nout).quoted = true := by
  have stop : chartorune (ofBytes []) = (0, 1) := by decide
  have none : ofBytes [] 0 = 0 := rfl
  rw [quotesetup, if_neg fun both => absurd both.2 (by omega), if_pos none, quotesetupLoop, if_neg (by decide), stop]
  rfl

/-- What `%q` prints: the word of a prefix of the string, of the string itself if it fits. -/
theorem quotestrfmt_word (short : Short doquote cs) (limit : Option Nat) : ∃ p text, p <+: cs ∧
    quotestrfmt doquote limit (cs.flatMap runetochar) = some text ∧ (∀ n ∈ limit, text.length ≤ n) ∧
    (∀ c ∈ p, Scalar c ∧ c ≠ 0) ∧ (Word (p.flatMap runetochar) text ∨ p = [] ∧ text = []) ∧
    ((∀ n ∈ limit, cost (needsquotes doquote cs) cs ≤ n ∧ n < 2 ^ 31) → p = cs ∧ Word (p.flatMap runetochar) text) := by
  generalize setup : quotesetup doquote (cs.flatMap runetochar) (outlen limit) = q
  obtain ⟨⟨p, front, admits, all⟩, within⟩ := setup ▸ quotesetup_fits short.runes short.short
  have room : ∀ n ∈ limit, cost q.quoted p ≤ n := fun n here => by
    obtain rfl := Option.mem_def.1 here
    have bytes := admits.bytesout
    have := int_le n
    rw [outlen] at within
    omega
  have runes : ∀ c ∈ p, Scalar c ∧ c ≠ 0 := fun c member => short.runes c (front.subset member)
  have printed := quotestrfmt_text short.runes front setup admits room
  refine ⟨p, _, front, printed, fun n here => ?_, runes, ?_, fun fits => ?_⟩
  · rw [length_text fun c member => (runes c member).1]
    exact room n here
  · by_cases none : q.quoted = false ∧ p = []
    · refine .inr ⟨none.2, ?_⟩
      rw [none.1, none.2]
      rfl
    · exact .inl (admits.word runes fun off empty => none ⟨off, empty⟩)
  · have enough := outlen_room short.short fits
    refine ⟨all enough, admits.word runes fun off empty => ?_⟩
    obtain rfl := (all enough).symm.trans empty
    have two : cost (needsquotes doquote []) [] = 2 := by simp [needsquotes, cost, runenlen]
    refine Bool.false_ne_true (off.symm.trans ?_)
    rw [← setup]
    exact quotesetup_nil (by omega)

theorem tokenize_words {ps ws : List (List UInt8)} (words : List.Forall₂ Word ps ws) (nonzero : ∀ p ∈ ps, 0 ∉ p)
    {maxargs : Nat}
    (room : ps.length ≤ maxargs) : tokenize ([0x20].intercalate ws) maxargs = ps := by
  obtain ⟨args, buf, run, -, same⟩ := tokenizeFrom_words ps ws [] maxargs words nonzero room
  rw [List.nil_append, List.length_nil] at run
  rw [tokenize, run]
  exact same

/-- The words of strings that fit are read back, and what does not fit is cut to the word of a prefix. -/
theorem quote_tokenize (doquote : Nat → Bool) :
    (∀ (ss : List (List Nat)) (limit : List Nat → Option Nat) (maxargs : Nat), (∀ s ∈ ss, Short doquote s) →
      (∀ s ∈ ss, ∀ n ∈ limit s, cost (needsquotes doquote s) s ≤ n ∧ n < 2 ^ 31) → ss.length ≤ maxargs →
      ∃ texts, List.Forall₂ (fun s text => quotestrfmt doquote (limit s) (s.flatMap runetochar) = some text) ss texts ∧
        tokenize ([0x20].intercalate texts) maxargs = ss.map fun s => s.flatMap runetochar) ∧
    ∀ (s : List Nat) (nout maxargs : Nat), Short doquote s → 0 < maxargs →
      ∃ p text, quotestrfmt doquote (some nout) (s.flatMap runetochar) = some text ∧ text.length ≤ nout ∧ p <+: s ∧
        (tokenize text maxargs = [p.flatMap runetochar] ∨ p = [] ∧ tokenize text maxargs = []) := by
  refine ⟨fun ss limit maxargs short room args => ?_, fun s nout maxargs short args => ?_⟩
  · have words : ∃ texts,
        List.Forall₂ (fun s text => quotestrfmt doquote (limit s) (s.flatMap runetochar) = some text) ss texts ∧
        List.Forall₂ Word (ss.map fun s => s.flatMap runetochar) texts := by
      clear args
      induction ss with
      | nil => exact ⟨[], .nil, .nil⟩
      | cons s ss ih =>
        obtain ⟨texts, printed, words⟩ := ih (fun s member => short s (List.mem_cons_of_mem _ member))
          fun s member => room s (List.mem_cons_of_mem _ member)
        obtain ⟨p, text, -, print, -, -, -, all⟩ := quotestrfmt_word (short s List.mem_cons_self) (limit s)
        obtain ⟨rfl, word⟩ := all (room s List.mem_cons_self)
        exact ⟨text :: texts, .cons print printed, .cons word words⟩
    obtain ⟨texts, printed, words⟩ := words
    refine ⟨texts, printed, tokenize_words words (fun p member => ?_) (by rwa [List.length_map])⟩
    obtain ⟨s, here, rfl⟩ := List.mem_map.1 member
    exact encoded_nonzero (short s here).runes
  · obtain ⟨p, text, front, print, length, runes, word | ⟨rfl, rfl⟩, -⟩ := quotestrfmt_word short (some nout)
    · refine ⟨p, text, print, length nout rfl, front, .inl ?_⟩
      have one := tokenize_words (.cons word .nil) (List.forall_mem_singleton.2 (encoded_nonzero runes)) args
      rwa [List.intercalate_singleton] at one
    · exact ⟨[], [], print, length nout rfl, front, .inr ⟨rfl, tokenize_words .nil (fun _ no => nomatch no)
        (Nat.zero_le maxargs)⟩⟩

/-- A string with a quote and an empty one, and one cut where its second byte would need quotes. -/
theorem quote_tokenize_some : (∃ texts, List.Forall₂
      (fun s text => quotestrfmt (fun _ => false) ((fun _ => none) s) (s.flatMap runetochar) = some text)
      [[0x69, 0x27], []] texts ∧
      tokenize ([0x20].intercalate texts) 2 = [[0x69, 0x27], []].map fun s => s.flatMap runetochar) ∧
    ∃ p text, quotestrfmt (fun _ => false) (some 3) (([0x69, 0x27] : List Nat).flatMap runetochar) = some text ∧
      text.length ≤ 3 ∧ p <+: [0x69, 0x27] ∧
      (tokenize text 1 = [p.flatMap runetochar] ∨ p = [] ∧ tokenize text 1 = []) := by
  have short : ∀ s ∈ ([[0x69, 0x27], []] : List (List Nat)), Short (fun _ => false) s :=
    List.forall_mem_cons.2 ⟨⟨by decide, by decide⟩, List.forall_mem_singleton.2 ⟨by decide, by decide⟩⟩
  exact ⟨(quote_tokenize _).1 _ (fun _ => none) 2 short (fun _ _ _ no => nomatch no) (Nat.le_refl 2),
    (quote_tokenize _).2 _ 3 1 (short _ List.mem_cons_self) Nat.one_pos⟩

end Setup

section Large

theorem quotesetupLoop_goes {doquote : Nat → Bool} {nout nin : Int} {steps c w : Nat} {s : List UInt8}
    {q q' : Quoteinfo}
    (more : nin ≠ 0) (read : chartorune (ofBytes s) = (c, w)) (some : c ≠ 0)
    (next : quotesetupRune doquote nout c w q = (q', true)) : quotesetupLoop doquote nout (steps + 1) s nin q =
      quotesetupLoop doquote nout steps (s.drop w) (int (nin - w)) q' := by
  rw [quotesetupLoop, if_neg more, read]
  dsimp only
  rw [if_neg some, next]
  rfl

theorem quotesetupRune_plain {doquote : Nat → Bool} {nout : Int} {c w : Nat} {q : Quoteinfo}
    (room : int (q.nbytesout + w) ≤ nout) (plain : special doquote c = false) :
    quotesetupRune doquote nout c w q = (q.advance w, true) := by
  rw [quotesetupRune, if_neg (Int.not_lt.2 room), plain, if_neg Bool.false_ne_true]

theorem int_top (x : Int) : int x ≤ 0x7FFFFFFF := by
  have top : int x < ((2 ^ 32 : Nat) + 1) / 2 := Int.bmod_lt (by decide)
  omega

theorem chartorune_a (l : List UInt8) : chartorune (ofBytes (0x61 :: l)) = (0x61, 1) :=
  chartorune_one (show (0x61 : UInt8).toNat < 0x80 by decide)

theorem int_succ (n : Nat) : int (int n + 1) = int (n + 1 : Nat) := by
  unfold int
  rw [Int.bmod_add_bmod]
  rfl

theorem int_down (n : Nat) : int (int (-1 - n) - (1 : Nat)) = int (-1 - (n + 1 : Nat)) := by
  unfold int
  rw [Int.bmod_sub_bmod]
  congr 1
  omega

theorem int_below {n : Nat} (small : n < 2 ^ 31) : int (-1 - n) ≠ 0 := by
  unfold int
  rw [Int.bmod_def]
  split <;> omega

theorem advance_a (n : Nat) : (⟨false, int n, int n, int n, int n⟩ : Quoteinfo).advance 1 =
    ⟨false, int (n + 1 : Nat), int (n + 1 : Nat), int (n + 1 : Nat), int (n + 1 : Nat)⟩ := by
  have one : int (int n + (1 : Nat)) = int (n + 1 : Nat) := int_succ n
  rw [Quoteinfo.advance, one, int_succ]

/-- The counts of a string of `a`s wrap around. -/
theorem quotesetupLoop_a {nout : Int} {total : Nat} (top : ∀ x, int x ≤ nout) (limit : total ≤ 2 ^ 31)
    (k n steps : Nat) (sum : n + k = total) (room : k < steps) :
    quotesetupLoop (fun _ => false) nout steps (List.replicate k 0x61) (int (-1 - n))
        ⟨false, int n, int n, int n, int n⟩ =
      ⟨false, int total, int total, int total, int total⟩ := by
  induction k generalizing n steps with
  | zero =>
    obtain ⟨steps, rfl⟩ := Nat.exists_eq_succ_of_ne_zero (Nat.ne_of_gt room)
    have stop : chartorune (ofBytes (List.replicate 0 0x61)) = (0, 1) := by decide
    rw [quotesetupLoop, stop, ← sum, Nat.add_zero]
    exact ite_self _
  | succ k ih =>
    obtain ⟨steps, rfl⟩ := Nat.exists_eq_succ_of_ne_zero (Nat.ne_of_gt (Nat.zero_lt_of_lt room))
    have plain : special (fun _ => false) 0x61 = false := by decide
    rw [List.replicate_succ, quotesetupLoop_goes (int_below (by omega)) (chartorune_a _) (by decide)
      (quotesetupRune_plain (top _) plain), int_down, advance_a, List.drop_one, List.tail_cons]
    exact ih (n + 1) steps (by omega) (Nat.lt_of_succ_lt_succ room)

theorem encoded_a (k : Nat) : (List.replicate k 0x61).flatMap runetochar = List.replicate k 0x61 := by
  induction k with
  | zero => rfl
  | succ k ih =>
    rw [List.replicate_succ, List.flatMap_cons, ih]
    rfl

theorem quotestrfmt_a {total : Nat} (large : total = 2 ^ 31) :
    quotestrfmt (fun _ => false) none (List.replicate total 0x61) = some [] := by
  have some : ofBytes (List.replicate total 0x61) 0 ≠ 0 := by
    obtain ⟨k, same⟩ := Nat.exists_eq_succ_of_ne_zero (show total ≠ 0 by omega)
    rw [same, List.replicate_succ]
    change (0x61 : UInt8) ≠ 0
    decide
  have setup : quotesetup (fun _ => false) (List.replicate total 0x61) (outlen none) =
      ⟨false, int total, int total, int total, int total⟩ := by
    rw [quotesetup, if_neg fun both => some both.1, if_neg some, List.length_replicate]
    exact quotesetupLoop_a int_top (Nat.le_of_eq large) total 0 (total + 1) (Nat.zero_add _) (Nat.lt_succ_self _)
  have none : (int total).toNat = 0 := by
    have wrapped : int total ≤ 0 := by
      unfold int
      rw [Int.bmod_def]
      split <;> omega
    exact Int.toNat_of_nonpos wrapped
  rw [quotestrfmt, setup]
  dsimp only
  rw [none]
  rfl

/-- What is lost of a string of 2 GiB: it prints as nothing. -/
theorem quote_large : ¬∀ (ss : List (List Nat)) (maxargs : Nat),
    (∀ s ∈ ss, ∀ c ∈ s, Scalar c ∧ c ≠ 0) → ss.length ≤ maxargs → ∃ texts,
      List.Forall₂ (fun s text => quotestrfmt (fun _ => false) none (s.flatMap runetochar) = some text) ss texts ∧
      tokenize ([0x20].intercalate texts) maxargs = ss.map fun s => s.flatMap runetochar := by
  generalize large : 2 ^ 31 = total
  intro claim
  obtain ⟨texts, printed, read⟩ := claim [List.replicate total 0x61] 1
    (List.forall_mem_singleton.2 fun c member => List.eq_of_mem_replicate member ▸ by decide) (Nat.le_refl 1)
  obtain _ | ⟨print, _ | _⟩ := printed
  rw [encoded_a, quotestrfmt_a large.symm] at print
  obtain rfl := Option.some.inj print
  have empty : tokenize [] 1 = [] := tokenize_words .nil (fun _ no => nomatch no) (Nat.zero_le 1)
  rw [List.intercalate_singleton, empty] at read
  exact nomatch read

end Large

end Inferno.Lib9.Quote
