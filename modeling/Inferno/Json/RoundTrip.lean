import Inferno.Json.Text

namespace Inferno.Json

open Lib Parse

variable {α β : Type} {p p' q : Parse} {s t u l : Chars} {c d : Int} {steps : Nat} {holds : Int → Bool}

theorem ok_then {m : Reader α} {k : α → Reader β} {x : α} (run : m p = .ok x p') : (m >>= k) p = k x p' := by
  change EStateM.bind m k p = k x p'
  unfold EStateM.bind
  rw [run]

/-- There is nothing to read at the end. -/
structure Parse.Ok (p : Parse) : Prop where
  stop : p.input.stop < 0
  eof : p.eof = 0 ∨ p.eof = p.input.stop ∧ p.input.next = []

/-- From `p` to `p'` the characters `t` are read. -/
def Took (t : Chars) (p p' : Parse) : Prop :=
  p'.Ok ∧ ∃ next, p.input.next = t ++ next ∧ p'.input = { p.input with past := t.reverse ++ p.input.past, next := next }

theorem Took.refl (ok : p.Ok) : Took [] p p := ⟨ok, _, rfl, rfl⟩

theorem Took.trans (first : Took t p p') (second : Took u p' q) : Took (t ++ u) p q := by
  obtain ⟨-, next, before, after⟩ := first
  obtain ⟨ok, next', before', after'⟩ := second
  refine ⟨ok, next', ?_, ?_⟩
  · rw [after] at before'
    rw [before, List.append_assoc]
    exact congrArg (t ++ ·) before'
  · rw [after', after, List.reverse_append, List.append_assoc]

theorem Took.length (took : Took t p p') : t.length + p'.input.next.length = p.input.next.length := by
  obtain ⟨-, next, before, after⟩ := took
  rw [before, after, List.length_append]

/-- After `t` comes the rest. -/
theorem Took.rest (took : Took t p p') (next : p.input.next = t ++ l) : p'.input.next = l := by
  obtain ⟨-, next', before, after⟩ := took
  rw [after]
  exact List.append_cancel_left (before.symm.trans next)

/-- The characters `t` and then `c` are read, where `c` is negative if there are no more. -/
def Last (t : Chars) (c : Int) (p p' : Parse) : Prop :=
  0 ≤ c ∧ p'.eof = 0 ∧ Took (t ++ [c.toNat]) p p' ∨ c < 0 ∧ c = p.input.stop ∧ p'.input.next = [] ∧ Took t p p'

theorem Took.stop (took : Took t p p') : p'.input.stop = p.input.stop := by
  obtain ⟨-, _, -, after⟩ := took
  rw [after]

theorem Took.last (first : Took t p p') (second : Last u c p' q) : Last (t ++ u) c p q := by
  rcases second with ⟨some, live, took⟩ | ⟨none, stop, empty, took⟩
  · refine .inl ⟨some, live, ?_⟩
    rw [List.append_assoc]
    exact first.trans took
  · exact .inr ⟨none, stop.trans first.stop, empty, first.trans took⟩

theorem Last.some (last : Last t c p p') (some : 0 ≤ c) : Took (t ++ [c.toNat]) p p' := by
  rcases last with ⟨-, -, took⟩ | ⟨none, -⟩
  · exact took
  · omega

theorem getc_last (ok : p.Ok) : ∃ c p', getc p = .ok c p' ∧ Last [] c p p' := by
  unfold getc
  by_cases ended : p.eof = 0
  · rw [if_neg (not_not.2 ended)]
    cases next : p.input.next with
    | nil =>
      refine ⟨_, _, rfl, .inr ⟨ok.stop, rfl, next, ⟨ok.stop, .inr ⟨rfl, next⟩⟩, [], next, ?_⟩⟩
      change p.input = ⟨p.input.past, [], p.input.stop, p.input.errstr, p.input.ends⟩
      rw [← next]
    | cons c l => exact ⟨_, _, rfl, .inl ⟨Int.natCast_nonneg c, ended, ⟨ok.stop, .inl ended⟩, l, next, rfl⟩⟩
  · rw [if_pos ended]
    obtain ⟨stop, empty⟩ := ok.eof.resolve_left ended
    exact ⟨_, _, rfl, .inr ⟨stop ▸ ok.stop, stop, empty, .refl ok⟩⟩

theorem Last.unget (last : Last t c p p') : ∃ q, unget c p' = .ok () q ∧ Took t p q := by
  unfold Parse.unget
  rcases last with ⟨some, live, ok, next, before, after⟩ | ⟨none, -, -, took⟩
  · rw [if_pos some, after]
    dsimp only
    rw [List.reverse_append]
    refine ⟨_, rfl, ⟨?_, ?_⟩, c.toNat :: next, ?_, rfl⟩
    · have stop := ok.stop
      rw [after] at stop
      exact stop
    · exact .inl live
    · rw [before, List.append_assoc]
      rfl
  · rw [if_neg (Int.not_le.2 none)]
    exact ⟨_, rfl, took⟩

theorem Last.negative (last : Last t c p p') (none : c < 0) : p'.input.next = [] ∧ Took t p p' := by
  rcases last with ⟨some, -⟩ | ⟨-, -, empty, took⟩
  · omega
  · exact ⟨empty, took⟩

/-- A loop reads on while `holds` does. -/
theorem span_last (none : ∀ c < 0, holds c = false) : ∀ steps p, p.Ok → p.input.next.length < steps → ∃ s c p',
    span holds steps p = .ok (s, c) p' ∧ Last s c p p' ∧ (∀ x ∈ s, holds x = true) ∧ holds c = false
  | 0, p, ok, enough => nomatch enough
  | steps + 1, p, ok, enough => by
    obtain ⟨c, p₁, got, last⟩ := getc_last ok
    rw [span, ok_then got]
    by_cases on : holds c = true
    · have some : 0 ≤ c := by
        by_contra negative
        rw [none c (Int.not_le.1 negative)] at on
        nomatch on
      have took := last.some some
      have shorter := took.length
      rw [List.nil_append, List.length_singleton] at shorter
      obtain ⟨s, d, p₂, run, last', all, off⟩ := span_last none steps p₁ took.1 (by omega)
      refine ⟨c.toNat :: s, d, p₂, ?_, took.last last', fun x member => ?_, off⟩
      · rw [if_pos on, ok_then run]
        rfl
      · rcases List.mem_cons.1 member with rfl | later
        · rw [Int.toNat_of_nonneg some]
          exact on
        · exact all x later
    · exact ⟨[], c, p₁, by rw [if_neg on]; rfl, last, fun x member => (nomatch member), Bool.eq_false_iff.2 on⟩

/-- What a loop reads is the longest run of such characters. -/
theorem Last.unique (last : Last s c p p') (all : ∀ x ∈ s, holds x = true) (off : holds c = false)
    (next : p.input.next = t ++ l) (all' : ∀ x ∈ t, holds x = true) (off' : ∀ d ∈ l.head?, holds d = false) :
    s = t ∧ ∀ d ∈ l.head?, c = d := by
  have run (u rest : Chars) (all : ∀ x ∈ u, holds x = true) (off : ∀ d ∈ rest.head?, holds d = false)
      (next : p.input.next = u ++ rest) : p.input.next.takeWhile (fun x : Nat => holds x) = u ∧
        p.input.next.dropWhile (fun x : Nat => holds x) = rest := by
    have stops : rest.takeWhile (fun x : Nat => holds x) = [] ∧ rest.dropWhile (fun x : Nat => holds x) = rest := by
      cases rest with
      | nil => exact ⟨rfl, rfl⟩
      | cons d rest =>
        have no := off d rfl
        rw [List.takeWhile_cons, List.dropWhile_cons, no]
        exact ⟨rfl, rfl⟩
    rw [next, List.takeWhile_append_of_pos all, List.dropWhile_append_of_pos all, stops.1, stops.2]
    exact ⟨List.append_nil u, rfl⟩
  obtain ⟨took', rest'⟩ := run t l all' off' next
  rcases last with ⟨some, -, -, more, before, -⟩ | ⟨-, -, empty, -, more, before, after⟩
  · rw [List.append_assoc] at before
    obtain ⟨took, rest⟩ := run s _ all (fun d first => by
      obtain rfl := Option.some.inj first
      rwa [Int.toNat_of_nonneg some]) before
    refine ⟨took.symm.trans took', fun d first => ?_⟩
    rw [← rest', rest] at first
    rw [← Option.some.inj first, Int.toNat_of_nonneg some]
  · rw [after] at empty
    obtain rfl : more = [] := empty
    obtain ⟨took, rest⟩ := run s [] all (fun d first => by nomatch first) before
    refine ⟨took.symm.trans took', fun d first => ?_⟩
    rw [← rest', rest] at first
    nomatch first

theorem isspace_none : ∀ c < 0, isspace c = false := by
  intro c negative
  rw [isspace, decide_eq_false]
  omega

theorem isdigit_none : ∀ c < 0, isdigit c = false := by
  intro c negative
  rw [isdigit, decide_eq_false]
  omega

theorem islower_none : ∀ c < 0, islower c = false := by
  intro c negative
  rw [islower, decide_eq_false]
  omega

def White (w : Chars) : Prop := ∀ x ∈ w, isspace x = true

def Digits (ds : Chars) : Prop := ds ≠ [] ∧ ∀ x ∈ ds, isdigit x = true

theorem getns_last (ok : p.Ok) (enough : p.input.next.length < steps) :
    ∃ w c p', getns steps p = .ok c p' ∧ Last w c p p' ∧ White w ∧ isspace c = false := by
  obtain ⟨w, c, p', run, last, white, off⟩ := span_last isspace_none steps p ok enough
  refine ⟨w, c, p', ?_, last, white, off⟩
  rw [getns, ok_then run]
  rfl

/-- `m` does not use up its steps, and ends with `Q` unless it raises. -/
abbrev Sound (m : Reader α) (p : Parse) (Q : α → Parse → Prop) : Prop := Gives m p Q fun e _ => e ≠ .steps

theorem sound_run {m : Reader α} {Q : α → Parse → Prop} {x : α} (run : m p = .ok x p') (holds : Q x p') :
    Sound m p Q := by
  unfold Sound Gives
  rw [run]
  exact holds

theorem sound_raise {Q : α → Parse → Prop} {e : Chars} : Sound (raise e) p Q := Gives.throw fun same => nomatch same

theorem sound_readerror {Q : α → Parse → Prop} : Sound (readerror : Reader α) p Q :=
  fun same => nomatch same

theorem sound_readdigits (ok : p.Ok) (enough : p.input.next.length < steps) :
    Sound (readdigits steps) p fun ds p' => Took ds p p' ∧ Digits ds := by
  obtain ⟨c, p₁, got, last⟩ := getc_last ok
  refine Gives.bind (sound_run got ?_)
  by_cases digit : isdigit c = true
  · have some : 0 ≤ c := by
      by_contra negative
      rw [isdigit_none c (Int.not_le.1 negative)] at digit
      nomatch digit
    have took := last.some some
    have shorter := took.length
    rw [List.nil_append, List.length_singleton] at shorter
    obtain ⟨s, d, p₂, run, last', all, off⟩ := span_last isdigit_none steps p₁ took.1 (by omega)
    obtain ⟨q, back, took'⟩ := (took.last last').unget
    rw [digit]
    refine Gives.bind (sound_run run (Gives.bind (sound_run back (sound_run rfl ⟨took', by simp, fun x member => ?_⟩))))
    rcases List.mem_cons.1 member with rfl | later
    · rw [Int.toNat_of_nonneg some]
      exact digit
    · exact all x later
  · rw [Bool.eq_false_iff.2 digit]
    exact sound_raise

/-- The four characters after `\u`, and others that an escape has after its backslash. -/
inductive Escape : Nat → Chars → Prop
  | hexes (c : Nat) (h : Chars) : h.length = 4 → Escape c (0x75 :: h)
  | one (c : Nat) (e : Nat) : e ≠ 0x75 → Escape c [e]

/-- What stands after the quotation mark that begins a string, up to the one that ends it. -/
inductive StringText : Chars → Chars → Prop
  | close : StringText [] [0x22]
  | plain (c : Nat) {s t : Chars} : c ≠ 0x22 → c ≠ 0x5C → StringText s t → StringText (c :: s) (c :: t)
  | escape (c : Nat) {e s t : Chars} : Escape c e → StringText s t → StringText (c :: s) (0x5C :: e ++ t)

theorem sound_hex : Sound (hex c) p fun _ p' => p' = p ∧ 0 ≤ c := by
  unfold hex
  split
  · exact sound_run rfl ⟨rfl, by omega⟩
  split
  · exact sound_run rfl ⟨rfl, by omega⟩
  split
  · exact sound_run rfl ⟨rfl, by omega⟩
  · exact sound_raise

theorem sound_hexes : ∀ (n v : Nat) (p : Parse), p.Ok → Sound (hexes n v) p fun _ p' => ∃ h, h.length = n ∧ Took h p p'
  | 0, v, p, ok => sound_run rfl ⟨[], rfl, .refl ok⟩
  | n + 1, v, p, ok => by
    obtain ⟨c, p₁, got, last⟩ := getc_last ok
    refine Gives.bind (sound_run got (Gives.bind (sound_hex.imp ?_ fun _ _ => id)))
    rintro x _ ⟨rfl, some⟩
    have took := last.some some
    refine (sound_hexes n _ _ took.1).imp ?_ fun _ _ => id
    rintro y p₂ ⟨h, four, took'⟩
    exact ⟨c.toNat :: h, congrArg (· + 1) four, took.trans took'⟩

theorem sound_escape (some : 0 ≤ c) (ok : p.Ok) :
    Sound (escape c) p fun x p' => ∃ h, Escape x (c.toNat :: h) ∧ Took h p p' := by
  have one (x : Nat) (other : c ≠ 0x75) : Escape x [c.toNat] := .one _ _ fun same => other (by omega)
  unfold escape
  split
  · exact sound_run rfl ⟨[], one _ (by omega), .refl ok⟩
  split
  · exact sound_run rfl ⟨[], one _ (by omega), .refl ok⟩
  split
  · exact sound_run rfl ⟨[], one _ (by omega), .refl ok⟩
  split
  · exact sound_run rfl ⟨[], one _ (by omega), .refl ok⟩
  split
  · exact sound_run rfl ⟨[], one _ (by omega), .refl ok⟩
  split
  · next u =>
    refine (sound_hexes 4 0 p ok).imp ?_ fun _ _ => id
    rintro x p' ⟨h, four, took⟩
    rw [u]
    exact ⟨h, .hexes x h four, took⟩
  · exact sound_run rfl ⟨[], one _ ‹_›, .refl ok⟩

/-- A string that is accepted is closed. -/
theorem sound_readstring : ∀ steps p, p.Ok → p.input.next.length < steps →
    Sound (readstring 0x22 steps) p fun s p' => ∃ t, StringText s t ∧ Took t p p'
  | 0, p, ok, enough => nomatch enough
  | steps + 1, p, ok, enough => by
    have ends {Q : Chars → Parse → Prop} {c : Int} {p : Parse} : Sound (unterminated c) p Q := by
      unfold unterminated
      split
      · exact sound_readerror
      · exact sound_raise
    obtain ⟨c, p₁, got, last⟩ := getc_last ok
    refine Gives.bind (sound_run got ?_)
    by_cases close : c = 0x22
    · rw [if_pos close]
      refine sound_run rfl ⟨[0x22], .close, ?_⟩
      rw [close] at last
      exact last.some (by decide)
    rw [if_neg close]
    by_cases negative : c < 0
    · rw [if_pos negative]
      exact ends
    have took := last.some (Int.not_lt.1 negative)
    have shorter := took.length
    rw [List.nil_append, List.length_singleton] at shorter
    rw [if_neg negative]
    by_cases slash : c = 0x5C
    · obtain ⟨e, p₂, got', last'⟩ := getc_last took.1
      rw [if_pos slash]
      refine Gives.bind (sound_run got' ?_)
      by_cases negative' : e < 0
      · rw [if_pos negative']
        exact ends
      · have took' := last'.some (Int.not_lt.1 negative')
        rw [if_neg negative']
        refine Gives.bind ((sound_escape (Int.not_lt.1 negative') took'.1).imp ?_ fun _ _ => id)
        rintro x p₃ ⟨h, escape, took₃⟩
        have whole := took.trans (took'.trans took₃)
        have shorter' := whole.length
        simp only [List.length_append, List.length_singleton] at shorter'
        refine Gives.bind ((sound_readstring steps p₃ took₃.1 (by omega)).imp ?_ fun _ _ => id)
        rintro s p₄ ⟨t, text, took₄⟩
        refine sound_run rfl ⟨_, .escape x escape text, ?_⟩
        have all := whole.trans took₄
        rw [slash] at all
        exact all
    · rw [if_neg slash]
      refine Gives.bind ((sound_readstring steps p₁ took.1 (by omega)).imp ?_ fun _ _ => id)
      rintro s p₂ ⟨t, text, took₂⟩
      exact sound_run rfl ⟨_, .plain c.toNat (by omega) (by omega) text, took.trans took₂⟩

section Grammar

variable (real : Chars → Real)

/-- The digits `fs` of a fraction and its text. -/
def Frac (fs frac : Chars) : Prop := fs = [] ∧ frac = [] ∨ Digits fs ∧ frac = 0x2E :: fs

def Exp (exp : Chars) : Prop :=
  exp = [] ∨ ∃ (e : Nat) (sign ds : Chars), (e = 0x65 ∨ e = 0x45) ∧ (sign = [] ∨ sign = [0x2D] ∨ sign = [0x2B]) ∧
    Digits ds ∧ exp = e :: sign ++ ds

/-- A number and its text: an integer where there is neither a fraction nor an exponent. -/
def Number (v : Shape) (t : Chars) : Prop :=
  ∃ sign ds fs frac exp, (sign = [] ∨ sign = [0x2D]) ∧ Digits ds ∧ Frac fs frac ∧ Exp exp ∧
    t = sign ++ ds ++ frac ++ exp ∧
    v = if fs ≠ [] ∨ exp ≠ [] then .real (canon (real (sign ++ ds ++ chars "." ++ fs ++ exp)))
      else .int (big (sign ++ ds))

mutual

/-- The texts of a value; strings, arrays and objects are closed. -/
inductive Written : Shape → Chars → Prop
  | true : Written .true (chars "true")
  | false : Written .false (chars "false")
  | null : Written .null (chars "null")
  | number {v : Shape} {t : Chars} : Number real v t → Written v t
  | string {s t : Chars} : StringText s t → Written (.string s) (0x22 :: t)
  | empty {w : Chars} : White w → Written (.array []) (0x5B :: w ++ [0x5D])
  | array {a : List Shape} {t : Chars} : Elems a t → Written (.array a) (0x5B :: t ++ [0x5D])
  | none {w : Chars} : White w → Written (.object []) (0x7B :: w ++ [0x7D])
  | object {mem : List (Chars × Shape)} {t : Chars} : Pairs mem t → Written (.object mem) (0x7B :: t ++ [0x7D])
  | space {w : Chars} {v : Shape} {t : Chars} : White w → Written v t → Written v (w ++ t)

/-- One value or more, and commas between them. -/
inductive Elems : List Shape → Chars → Prop
  | last {v : Shape} {t w : Chars} : Written v t → White w → Elems [v] (t ++ w)
  | cons {v : Shape} {a : List Shape} {t w u : Chars} : Written v t → White w → Elems a u →
      Elems (v :: a) (t ++ w ++ [0x2C] ++ u)

/-- One label with a value or more, and commas between them. -/
inductive Pairs : List (Chars × Shape) → Chars → Prop
  | last {name : Chars} {v : Shape} {w₁ n w₂ t w₃ : Chars} : White w₁ → StringText name n → White w₂ → Written v t →
      White w₃ →
      Pairs [(name, v)] (w₁ ++ 0x22 :: n ++ w₂ ++ 0x3A :: t ++ w₃)
  | cons {name : Chars} {v : Shape} {mem : List (Chars × Shape)} {w₁ n w₂ t w₃ u : Chars} : White w₁ →
      StringText name n →
      White w₂ → Written v t → White w₃ → Pairs mem u →
      Pairs ((name, v) :: mem) (w₁ ++ 0x22 :: n ++ w₂ ++ 0x3A :: t ++ w₃ ++ [0x2C] ++ u)

end

variable {real}

theorem sound_readsign (last : Last t c p p') :
    Sound (readsign c) p' fun sign q => (sign = [] ∨ sign = [0x2D]) ∧ Took (t ++ sign) p q := by
  unfold readsign
  split
  · next minus =>
    rw [minus] at last
    exact sound_run rfl ⟨.inr rfl, last.some (by decide)⟩
  · obtain ⟨q, back, took⟩ := last.unget
    refine Gives.bind (sound_run back (sound_run rfl ⟨.inl rfl, ?_⟩))
    rwa [List.append_nil]

theorem sound_readfrac (last : Last t c p p') (enough : p.input.next.length < steps) :
    Sound (readfrac steps c) p' fun r q => ∃ frac, Frac r.1 frac ∧ Last (t ++ frac) r.2 p q := by
  unfold readfrac
  split
  · next dot =>
    have took := last.some (by omega)
    have shorter := took.length
    refine Gives.bind ((sound_readdigits took.1 (by omega)).imp ?_ fun _ _ => id)
    rintro fs p₁ ⟨took₁, digits⟩
    obtain ⟨d, p₂, got, last₂⟩ := getc_last took₁.1
    refine Gives.bind (sound_run got (sound_run rfl ⟨_, .inr ⟨digits, rfl⟩, ?_⟩))
    have whole := (took.trans took₁).last last₂
    rw [dot, List.append_nil, List.append_assoc] at whole
    exact whole
  · refine sound_run rfl ⟨[], .inl ⟨rfl, rfl⟩, ?_⟩
    rwa [List.append_nil]

theorem sound_readexpsign (took : Took t p p') (last : Last [] d p' q) : Sound (readexpsign c d) q fun exp q' =>
    ∃ sign, (sign = [] ∨ sign = [0x2D] ∨ sign = [0x2B]) ∧ exp = c.toNat :: sign ∧ Took (t ++ sign) p q' := by
  unfold readexpsign
  split
  · next signed =>
    have sign : d.toNat = 0x2D ∨ d.toNat = 0x2B := by omega
    refine sound_run rfl ⟨[d.toNat], .inr (sign.imp (fun s => by rw [s]) fun s => by rw [s]), rfl, ?_⟩
    exact took.trans (last.some (by omega))
  · obtain ⟨q', back, took'⟩ := last.unget
    exact Gives.bind (sound_run back (sound_run rfl ⟨[], .inl rfl, rfl, took.trans took'⟩))

theorem sound_readexp (last : Last t c p p') (enough : p.input.next.length < steps) :
    Sound (readexp steps c) p' fun exp q => Exp exp ∧ Took (t ++ exp) p q := by
  unfold readexp
  split
  · next e =>
    have letter : c.toNat = 0x65 ∨ c.toNat = 0x45 := by omega
    have took := last.some (by omega)
    obtain ⟨d, p₁, got, last₁⟩ := getc_last took.1
    refine Gives.bind (sound_run got (Gives.bind ((sound_readexpsign took last₁).imp ?_ fun _ _ => id)))
    rintro _ p₂ ⟨sign, signs, rfl, took₂⟩
    have shorter := took₂.length
    refine Gives.bind ((sound_readdigits took₂.1 (by omega)).imp ?_ fun _ _ => id)
    rintro ds p₃ ⟨took₃, digits⟩
    refine sound_run rfl ⟨.inr ⟨c.toNat, sign, ds, letter, signs, digits, rfl⟩, ?_⟩
    have whole := took₂.trans took₃
    rw [List.append_assoc, List.append_assoc] at whole
    exact whole
  · obtain ⟨q, back, took⟩ := last.unget
    refine Gives.bind (sound_run back (sound_run rfl ⟨.inl rfl, ?_⟩))
    rwa [List.append_nil]

theorem sound_number (last : Last t c p p') (enough : p.input.next.length < steps) :
    Sound (readnumber real steps c) p' fun v q => ∃ u, Number real v u ∧ Took (t ++ u) p q := by
  unfold readnumber
  refine Gives.bind ((sound_readsign last).imp ?_ fun _ _ => id)
  rintro sign p₁ ⟨signs, took₁⟩
  have shorter := took₁.length
  refine Gives.bind ((sound_readdigits took₁.1 (by omega)).imp ?_ fun _ _ => id)
  rintro ds p₂ ⟨took₂, digits⟩
  obtain ⟨d, p₃, got, last₃⟩ := getc_last took₂.1
  have last := (took₁.trans took₂).last last₃
  refine Gives.bind (sound_run got (Gives.bind ((sound_readfrac last enough).imp ?_ fun _ _ => id)))
  rintro ⟨fs, e⟩ p₄ ⟨frac, fraction, last₄⟩
  refine Gives.bind ((sound_readexp last₄ enough).imp ?_ fun _ _ => id)
  rintro exp q ⟨exponent, took⟩
  have whole : Took (t ++ (sign ++ ds ++ frac ++ exp)) p q := by
    simpa only [List.append_assoc, List.append_nil] using took
  dsimp only
  split
  · next some => exact sound_run rfl ⟨_, ⟨sign, ds, fs, frac, exp, signs, digits, fraction, exponent, rfl,
      (if_pos some).symm⟩, whole⟩
  · next none => exact sound_run rfl ⟨_, ⟨sign, ds, fs, frac, exp, signs, digits, fraction, exponent, rfl,
      (if_neg none).symm⟩, whole⟩

theorem sound_literal (last : Last t c p p') (lower : islower c = true) (enough : p.input.next.length < steps) :
    Sound (readliteral steps c) p' fun v q => ∃ u, Written real v u ∧ Took (t ++ u) p q := by
  have some : 0 ≤ c := by
    by_contra negative
    rw [islower_none c (Int.not_le.1 negative)] at lower
    nomatch lower
  have took := last.some some
  have shorter := took.length
  obtain ⟨s, d, p₁, run, last₁, all, off⟩ := span_last islower_none steps p' took.1 (by omega)
  obtain ⟨q, back, took₁⟩ := (took.last last₁).unget
  rw [List.append_assoc] at took₁
  unfold readliteral
  refine Gives.bind (sound_run run (Gives.bind (sound_run back ?_)))
  dsimp only
  split
  · next same => exact sound_run rfl ⟨_, .true, same ▸ took₁⟩
  split
  · next same => exact sound_run rfl ⟨_, .false, same ▸ took₁⟩
  split
  · next same => exact sound_run rfl ⟨_, .null, same ▸ took₁⟩
  · exact sound_raise

theorem Pairs.space {mem : List (Chars × Shape)} {w : Chars} (white : White w) (pairs : Pairs real mem t) :
    Pairs real mem (w ++ t) := by
  have more {w₁ : Chars} (white₁ : White w₁) : White (w ++ w₁) := fun x member =>
    (List.mem_append.1 member).elim (white x) (white₁ x)
  cases pairs with
  | last white₁ text white₂ written white₃ =>
    have pairs : Pairs real _ _ := .last (more white₁) text white₂ written white₃
    simpa only [List.append_assoc] using pairs
  | cons white₁ text white₂ written white₃ rest =>
    have pairs := Pairs.cons (more white₁) text white₂ written white₃ rest
    simpa only [List.append_assoc] using pairs

theorem Elems.space {a : List Shape} {w : Chars} (white : White w) (elems : Elems real a t) :
    Elems real a (w ++ t) := by
  cases elems with
  | last written white₁ =>
    rw [← List.append_assoc]
    exact .last (.space white written) white₁
  | cons written white₁ rest =>
    simp only [← List.append_assoc]
    exact .cons (.space white written) white₁ rest

/-- The loop `read` or nothing, with a character that is read to decide it. -/
theorem sound_unlessclosed {close : Int} {read : Reader (List α × Int)} {Q : List α → Chars → Prop}
    (last : Last t c p p')
    (loop : ∀ q, Took t p q → Sound read q fun r q' => ∃ u, Q r.1 u ∧ Last u r.2 q q') :
    Sound (unlessclosed close read c) p' fun r q => (r.1 = [] ∧ r.2 = close ∧ Last t close p q) ∨
      ∃ u, Q r.1 u ∧ Last (t ++ u) r.2 p q := by
  unfold unlessclosed
  split
  · obtain ⟨q, back, took⟩ := last.unget
    refine Gives.bind (sound_run back ((loop q took).imp ?_ fun _ _ => id))
    rintro r q' ⟨u, shape, last'⟩
    exact .inr ⟨u, shape, took.last last'⟩
  · next same =>
    rw [not_not] at same
    exact sound_run rfl (.inl ⟨rfl, same, same ▸ last⟩)

mutual

theorem sound_readval : ∀ steps p, p.Ok → 2 * p.input.next.length + 4 ≤ steps →
    Sound (readval real steps) p fun v q => ∃ t, Written real v t ∧ Took t p q
  | 0, p, ok, enough => by omega
  | steps + 1, p, ok, enough => by
    obtain ⟨w, c, p₁, run, last, white, solid⟩ := getns_last ok (by omega : p.input.next.length < steps)
    unfold readval
    refine Gives.bind (sound_run run ?_)
    split
    · split
      · exact sound_raise
      · exact sound_readerror
    next some =>
    have took := last.some (Int.not_lt.1 some)
    have shorter := took.length
    rw [List.length_append, List.length_singleton] at shorter
    split
    · next brace =>
      obtain ⟨w', d, p₂, run', last', white', -⟩ := getns_last took.1 (by omega : p₁.input.next.length < steps)
      refine Gives.bind (sound_run run' (Gives.bind
        ((sound_unlessclosed (Q := Pairs real) (took.last last') fun q took' => ?_).imp ?_ fun _ _ => id)))
      · have shorter' := took'.length
        simp only [List.length_append, List.length_singleton] at shorter'
        exact sound_readpairs steps q took'.1 (by omega)
      · rintro ⟨l, e⟩ q inside
        dsimp only
        split
        · exact sound_raise
        next close =>
        rw [not_not] at close
        subst close
        rcases inside with ⟨rfl, -, last₂⟩ | ⟨u, shape, last₂⟩
        · refine sound_run rfl ⟨_, .space white (.none white'), ?_⟩
          simpa [brace] using last₂.some (by decide : (0 : Int) ≤ 0x7D)
        · refine sound_run rfl ⟨_, .space white (.object (shape.space white')), ?_⟩
          simpa [brace] using last₂.some (by decide : (0 : Int) ≤ 0x7D)
    split
    · next bracket =>
      obtain ⟨w', d, p₂, run', last', white', -⟩ := getns_last took.1 (by omega : p₁.input.next.length < steps)
      refine Gives.bind (sound_run run' (Gives.bind
        ((sound_unlessclosed (Q := Elems real) (took.last last') fun q took' => ?_).imp ?_ fun _ _ => id)))
      · have shorter' := took'.length
        simp only [List.length_append, List.length_singleton] at shorter'
        exact sound_readelems steps q took'.1 (by omega)
      · rintro ⟨l, e⟩ q inside
        dsimp only
        split
        · exact sound_raise
        next close =>
        rw [not_not] at close
        subst close
        rcases inside with ⟨rfl, -, last₂⟩ | ⟨u, shape, last₂⟩
        · refine sound_run rfl ⟨_, .space white (.empty white'), ?_⟩
          simpa [bracket] using last₂.some (by decide : (0 : Int) ≤ 0x5D)
        · refine sound_run rfl ⟨_, .space white (.array (shape.space white')), ?_⟩
          simpa [bracket] using last₂.some (by decide : (0 : Int) ≤ 0x5D)
    split
    · next quote =>
      rw [quote]
      refine Gives.bind ((sound_readstring steps p₁ took.1 (by omega)).imp ?_ fun _ _ => id)
      rintro s q ⟨t, text, took'⟩
      refine sound_run rfl ⟨_, .space white (.string text), ?_⟩
      have whole := took.trans took'
      rw [quote, List.append_assoc] at whole
      exact whole
    split
    · refine (sound_number last (by omega)).imp ?_ fun _ _ => id
      rintro v q ⟨u, number, took'⟩
      exact ⟨_, .space white (.number number), took'⟩
    split
    · next lower =>
      have literal : Sound (readliteral steps c) p₁ fun v q => ∃ u, Written real v u ∧ Took (w ++ u) p q :=
        sound_literal last lower (by omega)
      refine literal.imp ?_ fun _ _ => id
      rintro v q ⟨u, written, took'⟩
      exact ⟨_, .space white written, took'⟩
    · exact sound_raise

theorem sound_readpairs : ∀ steps p, p.Ok → 2 * p.input.next.length + 5 ≤ steps →
    Sound (readpairs real steps) p fun r q => ∃ t, Pairs real r.1 t ∧ Last t r.2 p q
  | 0, p, ok, enough => by omega
  | steps + 1, p, ok, enough => by
    obtain ⟨w, c, p₁, run, last, white, -⟩ := getns_last ok (by omega : p.input.next.length < steps)
    unfold readpairs
    refine Gives.bind (sound_run run ?_)
    split
    · exact sound_raise
    next quote =>
    rw [not_not] at quote
    subst quote
    have took := last.some (by decide)
    have shorter := took.length
    rw [List.length_append, List.length_singleton] at shorter
    refine Gives.bind ((sound_readstring steps p₁ took.1 (by omega)).imp ?_ fun _ _ => id)
    rintro name p₂ ⟨n, text, took₂⟩
    have whole₂ := took.trans took₂
    have shorter₂ := took₂.length
    obtain ⟨w₂, c₃, p₃, run₃, last₃, white₂, -⟩ := getns_last took₂.1 (by omega : p₂.input.next.length < steps)
    refine Gives.bind (sound_run run₃ ?_)
    split
    · exact sound_raise
    next colon =>
    rw [not_not] at colon
    subst colon
    have whole₃ := (whole₂.last last₃).some (by decide)
    have shorter₃ := whole₃.length
    simp only [List.length_append, List.length_singleton] at shorter₃
    refine Gives.bind ((sound_readval steps p₃ whole₃.1 (by omega)).imp ?_ fun _ _ => id)
    rintro v p₄ ⟨t, written, took₄⟩
    have shorter₄ := took₄.length
    obtain ⟨w₃, d, p₅, run₅, last₅, white₃, -⟩ := getns_last took₄.1 (by omega : p₄.input.next.length < steps)
    have whole₅ := (whole₃.trans took₄).last last₅
    refine Gives.bind (sound_run run₅ ?_)
    split
    · next comma =>
      subst comma
      have took₅ := whole₅.some (by decide)
      have shorter₅ := took₅.length
      simp only [List.length_append, List.length_singleton] at shorter₅
      refine Gives.bind ((sound_readpairs steps p₅ took₅.1 (by omega)).imp ?_ fun _ _ => id)
      rintro ⟨l, e⟩ q ⟨u, pairs, last₆⟩
      refine sound_run rfl ⟨_, .cons white text white₂ written white₃ pairs, ?_⟩
      simpa using took₅.last last₆
    · refine sound_run rfl ⟨_, .last white text white₂ written white₃, ?_⟩
      simpa using whole₅

theorem sound_readelems : ∀ steps p, p.Ok → 2 * p.input.next.length + 5 ≤ steps →
    Sound (readelems real steps) p fun r q => ∃ t, Elems real r.1 t ∧ Last t r.2 p q
  | 0, p, ok, enough => by omega
  | steps + 1, p, ok, enough => by
    unfold readelems
    refine Gives.bind ((sound_readval steps p ok (by omega)).imp ?_ fun _ _ => id)
    rintro v p₁ ⟨t, written, took⟩
    have shorter := took.length
    obtain ⟨w, c, p₂, run, last, white, -⟩ := getns_last took.1 (by omega : p₁.input.next.length < steps)
    have whole := took.last last
    refine Gives.bind (sound_run run ?_)
    split
    · next comma =>
      subst comma
      have took₂ := whole.some (by decide)
      have shorter₂ := took₂.length
      simp only [List.length_append, List.length_singleton] at shorter₂
      refine Gives.bind ((sound_readelems steps p₂ took₂.1 (by omega)).imp ?_ fun _ _ => id)
      rintro ⟨l, d⟩ q ⟨u, elems, last₃⟩
      exact sound_run rfl ⟨_, .cons written white elems, took₂.last last₃⟩
    · exact sound_run rfl ⟨_, .last written white, whole⟩

end

end Grammar

section Complete

theorem getc_next {d : Nat} (ok : p.Ok) (next : p.input.next = d :: l) : ∃ p', getc p = .ok d p' ∧ Last [] d p p' := by
  obtain ⟨c, p', run, last⟩ := getc_last ok
  rcases last with ⟨some, live, took⟩ | ⟨-, -, empty, -, rest, before, after⟩
  · obtain ⟨-, rest, before, -⟩ := id took
    obtain ⟨rfl, -⟩ := List.cons.inj (next.symm.trans before)
    rw [Int.toNat_of_nonneg some]
    exact ⟨p', run, .inl ⟨some, live, took⟩⟩
  · rw [after] at empty
    obtain rfl : rest = [] := empty
    nomatch next.symm.trans before

theorem getns_next {w : Chars} {d : Nat} (ok : p.Ok) (enough : p.input.next.length < steps) (white : White w)
    (solid : isspace d = false) (next : p.input.next = w ++ d :: l) :
    ∃ p', getns steps p = .ok d p' ∧ Last w d p p' := by
  obtain ⟨w', c, p', run, last, white', off⟩ := getns_last ok enough
  obtain ⟨rfl, same⟩ := last.unique white' off next white fun e first => Option.some.inj first ▸ solid
  obtain rfl := same d rfl
  exact ⟨p', run, last⟩

theorem readdigits_next {ds : Chars} (ok : p.Ok) (enough : p.input.next.length < steps) (digits : Digits ds)
    (next : p.input.next = ds ++ l) (stop : ∀ d ∈ l.head?, isdigit d = false) :
    ∃ p', readdigits steps p = .ok ds p' ∧ Took ds p p' := by
  obtain ⟨d, ds, rfl⟩ := List.exists_cons_of_ne_nil digits.1
  obtain ⟨first, rest⟩ := List.forall_mem_cons.1 digits.2
  obtain ⟨p₁, got, last⟩ := getc_next ok next
  have took := last.some (Int.natCast_nonneg d)
  have shorter := took.length
  rw [List.nil_append, List.length_singleton] at shorter
  obtain ⟨s, c, p₂, run, last₂, all, off⟩ := span_last isdigit_none steps p₁ took.1 (by omega)
  obtain ⟨rfl, -⟩ := last₂.unique all off (took.rest next) rest stop
  obtain ⟨q, back, took₂⟩ := (took.last last₂).unget
  refine ⟨q, ?_, took₂⟩
  rw [readdigits, ok_then got, first, Bool.not_true, if_neg Bool.false_ne_true, ok_then run]
  exact ok_then back

/-- The value of a hexadecimal digit that is not a capital. -/
def hexval (x : Nat) : Nat := if x ≤ 0x39 then x - 0x30 else 10 + (x - 0x61)

def IsHex (x : Nat) : Prop := 0x30 ≤ x ∧ x ≤ 0x39 ∨ 0x61 ≤ x ∧ x ≤ 0x66

instance (x : Nat) : Decidable (IsHex x) := inferInstanceAs (Decidable (_ ∨ _))

theorem hex_run {x : Nat} (digit : IsHex x) : hex x p = .ok (hexval x) p := by
  unfold IsHex at digit
  unfold hex hexval
  by_cases low : x ≤ 0x39
  · rw [if_pos (by omega), if_pos low]
    exact congrArg (EStateM.Result.ok · p) (by omega)
  · rw [if_neg (by omega), if_pos (by omega), if_neg low]
    exact congrArg (EStateM.Result.ok · p) (by omega)

theorem hexes_run : ∀ (h : Chars) (v : Nat) (p : Parse), p.Ok → (∀ x ∈ h, IsHex x) → p.input.next = h ++ l →
    ∃ p', hexes h.length v p = .ok (h.foldl (fun v x => v <<< 4 ||| hexval x) v) p' ∧ Took h p p'
  | [], v, p, ok, _, _ => ⟨p, rfl, .refl ok⟩
  | x :: h, v, p, ok, all, next => by
    obtain ⟨first, rest⟩ := List.forall_mem_cons.1 all
    obtain ⟨p₁, got, last⟩ := getc_next ok next
    have took := last.some (Int.natCast_nonneg x)
    obtain ⟨p₂, run, took₂⟩ := hexes_run h (v <<< 4 ||| hexval x) p₁ took.1 rest (took.rest next)
    refine ⟨p₂, ?_, took.trans took₂⟩
    rw [List.length_cons, hexes, ok_then got, ok_then (hex_run first)]
    exact run

/-- The escapes of the control characters. -/
theorem ux4_hex : ∀ c < 0x20, (ux4 c).length = 4 ∧ (∀ x ∈ ux4 c, IsHex x) ∧
    (ux4 c).foldl (fun v x => v <<< 4 ||| hexval x) 0 = c := by decide

/-- What is written for a character that needs an escape is read as that character. -/
theorem escape_run {c : Nat} (need : needesc c = true) : ∃ e h, escout c = 0x5C :: e :: h ∧
    ∀ p l, p.Ok → p.input.next = h ++ l → ∃ p', escape e p = .ok c p' ∧ Took h p p' := by
  have here (e : Nat) (text : escout c = [0x5C, e]) (value : ∀ p, escape e p = .ok c p) :
      ∃ e h, escout c = 0x5C :: e :: h ∧
      ∀ p l, p.Ok → p.input.next = h ++ l → ∃ p', escape e p = .ok c p' ∧ Took h p p' :=
    ⟨e, [], text, fun p l ok _ => ⟨p, value p, .refl ok⟩⟩
  by_cases quote : c = 0x22
  · subst quote
    exact here 0x22 rfl fun _ => rfl
  by_cases slash : c = 0x5C
  · subst slash
    exact here 0x5C rfl fun _ => rfl
  by_cases solidus : c = 0x2F
  · subst solidus
    exact here 0x2F rfl fun _ => rfl
  by_cases b : c = 0x08
  · subst b
    exact here 0x62 rfl fun _ => rfl
  by_cases f : c = 0x0C
  · subst f
    exact here 0x66 rfl fun _ => rfl
  by_cases n : c = 0x0A
  · subst n
    exact here 0x6E rfl fun _ => rfl
  by_cases tab : c = 0x09
  · subst tab
    exact here 0x74 rfl fun _ => rfl
  by_cases r : c = 0x0D
  · subst r
    exact here 0x72 rfl fun _ => rfl
  have control : c < 0x20 := by
    rw [needesc, decide_eq_true_iff] at need
    omega
  obtain ⟨four, all, value⟩ := ux4_hex c control
  refine ⟨0x75, ux4 c, ?_, fun p l ok next => ?_⟩
  · rw [escout, if_neg quote, if_neg slash, if_neg solidus, if_neg b, if_neg f, if_neg n, if_neg tab, if_neg r]
    rfl
  · obtain ⟨p', run, took⟩ := hexes_run (ux4 c) 0 p ok all next
    rw [four, value] at run
    exact ⟨p', run, took⟩

theorem readstring_next : ∀ (s : Chars) steps p, p.Ok → p.input.next.length < steps →
    p.input.next = s.flatMap (fun c => if needesc c then escout c else [c]) ++ 0x22 :: l →
    ∃ p', readstring 0x22 steps p = .ok s p' ∧
      Took (s.flatMap (fun c => if needesc c then escout c else [c]) ++ [0x22]) p p'
  | _, 0, p, ok, enough, _ => nomatch enough
  | [], steps + 1, p, ok, enough, next => by
    obtain ⟨p', got, last⟩ := getc_next ok next
    refine ⟨p', ?_, last.some (by decide)⟩
    rw [readstring, ok_then got]
    rfl
  | c :: s, steps + 1, p, ok, enough, next => by
    rw [List.flatMap_cons, List.append_assoc] at next
    rw [List.flatMap_cons, List.append_assoc]
    by_cases need : needesc c = true
    · obtain ⟨e, h, text, run⟩ := escape_run need
      rw [if_pos need, text] at next ⊢
      obtain ⟨p₁, got, last⟩ := getc_next ok next
      have took := last.some (by decide : (0 : Int) ≤ (0x5C : Nat))
      obtain ⟨p₂, got₂, last₂⟩ := getc_next took.1 (took.rest next)
      have took₂ := last₂.some (Int.natCast_nonneg e)
      obtain ⟨p₃, run₃, took₃⟩ := run p₂ _ took₂.1 (took₂.rest (took.rest next))
      have whole := took.trans (took₂.trans took₃)
      have shorter := whole.length
      simp only [List.length_append, List.length_singleton, List.length_nil] at shorter
      obtain ⟨p₄, run₄, took₄⟩ := readstring_next s steps p₃ took₃.1 (by omega)
        (took₃.rest (took₂.rest (took.rest next)))
      refine ⟨p₄, ?_, by simpa using whole.trans took₄⟩
      rw [readstring, ok_then got, if_neg (by decide), if_neg (by decide), if_pos (by decide), ok_then got₂,
        if_neg (by omega), ok_then run₃, ok_then run₄]
      rfl
    · rw [if_neg need] at next ⊢
      obtain ⟨p₁, got, last⟩ := getc_next ok next
      have took := last.some (Int.natCast_nonneg c)
      have shorter := took.length
      rw [List.nil_append, List.length_singleton] at shorter
      obtain ⟨p₂, run₂, took₂⟩ := readstring_next s steps p₁ took.1 (by omega) (took.rest next)
      have plain : c ≠ 0x22 ∧ c ≠ 0x5C := by
        rw [needesc, decide_eq_true_iff] at need
        omega
      refine ⟨p₂, ?_, took.trans took₂⟩
      rw [readstring, ok_then got, if_neg (by omega), if_neg (by omega), if_neg (by omega), ok_then run₂]
      rfl

/-- The value of decimal digits. -/
def decval (s : Chars) : BitVec 64 := s.foldl (fun n c => n * 10 + BitVec.ofNat 64 (c - 0x30)) 0

theorem decimal_digits (n : Nat) : Digits (decimal n) ∧ decval (decimal n) = BitVec.ofNat 64 n := by
  have digit : ∀ d < 10, isdigit (Lib9.Ifmt.conv .d d).toNat = true ∧
      (Lib9.Ifmt.conv .d d).toNat - 0x30 = d := by decide
  by_cases zero : n = 0
  · subst zero
    exact ⟨⟨by decide, by decide⟩, rfl⟩
  unfold decimal Lib9.Ifmt.numeral
  rw [if_neg zero]
  have small : ∀ d ∈ Nat.digits 10 n, d < 10 := fun d member => Nat.digits_lt_base (by decide) member
  refine ⟨⟨?_, fun x member => ?_⟩, ?_⟩
  · simp only [ne_eq, List.map_eq_nil_iff, List.reverse_eq_nil_iff]
    exact mt Nat.digits_eq_nil_iff_eq_zero.1 zero
  · obtain ⟨_, inside, rfl⟩ := List.mem_map.1 member
    obtain ⟨d, here, rfl⟩ := List.mem_map.1 inside
    exact (digit d (small d (List.mem_reverse.1 here))).1
  · have value : ∀ ds : List Nat, (∀ d ∈ ds, d < 10) →
        decval ((ds.reverse.map (Lib9.Ifmt.conv .d)).map Char.toNat) = BitVec.ofNat 64 (Nat.ofDigits 10 ds) := by
      intro ds all
      induction ds with
      | nil => rfl
      | cons d ds ih =>
        obtain ⟨first, rest⟩ := List.forall_mem_cons.1 all
        rw [List.reverse_cons, List.map_append, List.map_append, decval, List.foldl_append]
        change decval _ * 10 + BitVec.ofNat 64 ((Lib9.Ifmt.conv .d d).toNat - 0x30) = _
        rw [ih rest, (digit d first).2, Nat.ofDigits_cons, Nat.add_comm, BitVec.ofNat_add, BitVec.ofNat_mul,
          BitVec.mul_comm]
        rfl
    rw [show Lib9.Ifmt.base .d = 10 from rfl, value _ small, Nat.ofDigits_digits]

theorem big_sign {sign ds : Chars} (digits : Digits ds) (signs : sign = [] ∨ sign = [0x2D]) :
    big (sign ++ ds) = if sign = [] then decval ds else -decval ds := by
  rcases signs with rfl | rfl
  · obtain ⟨d, ds, rfl⟩ := List.exists_cons_of_ne_nil digits.1
    have first := digits.2 d List.mem_cons_self
    have other : d ≠ 0x2D := by
      rintro rfl
      nomatch first
    rw [if_pos rfl, List.nil_append, big.eq_def]
    split
    · next same => exact absurd (List.cons.inj same).1 other
    · rfl
  · rfl

/-- The sign and the digits of a big. -/
theorem bigtext_parts (v : BitVec 64) : ∃ sign ds, bigtext v = sign ++ ds ∧ (sign = [] ∨ sign = [0x2D]) ∧ Digits ds ∧
    big (sign ++ ds) = v := by
  obtain ⟨digits, value⟩ := decimal_digits v.toInt.natAbs
  by_cases negative : v.toInt < 0
  · refine ⟨[0x2D], decimal v.toInt.natAbs, by rw [bigtext, if_pos negative], .inr rfl, digits, ?_⟩
    have int : -(v.toInt.natAbs : Int) = v.toInt := by omega
    rw [big_sign digits (.inr rfl), if_neg (by decide), value, ← BitVec.ofInt_natCast, ← BitVec.ofInt_neg, int,
      BitVec.ofInt_toInt]
  · refine ⟨[], decimal v.toInt.natAbs, by rw [bigtext, if_neg negative], .inl rfl, digits, ?_⟩
    have int : (v.toInt.natAbs : Int) = v.toInt := by omega
    rw [big_sign digits (.inl rfl), if_pos rfl, value, ← BitVec.ofInt_natCast, int, BitVec.ofInt_toInt]

/-- What may follow a value: nothing that would belong to it. -/
def Delimited (l : Chars) : Prop := ∀ d ∈ l.head?, isdigit d = false ∧ islower d = false ∧ d ≠ 0x2E ∧ d ≠ 0x45

variable (real : Chars → Real) {w : Chars}

theorem readnumber_next {d : Nat} {rest : Chars} {v : BitVec 64} (last : Last w d p p') (text : bigtext v = d :: rest)
    (next : p'.input.next = rest ++ l) (delimited : Delimited l) (enough : p.input.next.length < steps) :
    ∃ q, readnumber real steps d p' = .ok (.int v) q ∧ Took (w ++ bigtext v) p q := by
  obtain ⟨sign, ds, parts, signs, digits, value⟩ := bigtext_parts v
  have whole : p.input.next = w ++ (sign ++ ds ++ l) := by
    have took := last.some (Int.natCast_nonneg d)
    obtain ⟨-, next', before, after⟩ := took
    rw [after] at next
    rw [← parts, text, before]
    subst next
    simp
  obtain ⟨p₁, run₁, took₁⟩ : ∃ p₁, readsign d p' = .ok sign p₁ ∧ Took (w ++ sign) p p₁ := by
    unfold readsign
    rcases signs with rfl | rfl
    · obtain ⟨q, back, took⟩ := last.unget
      have digit := digits.2 d (by rw [List.nil_append] at parts; rw [← parts, text]; exact List.mem_cons_self)
      have other : (d : Int) ≠ 0x2D := by
        intro same
        rw [same] at digit
        nomatch digit
      rw [if_neg other]
      exact ⟨q, ok_then back, by rwa [List.append_nil]⟩
    · obtain rfl : d = 0x2D := (List.cons.inj (text.symm.trans parts)).1
      exact ⟨p', rfl, last.some (by decide)⟩
  have shorter := took₁.length
  have stop : ∀ d ∈ l.head?, isdigit d = false := fun d first => (delimited d first).1
  have next₁ := took₁.rest (l := ds ++ l) (by rw [whole]; simp)
  obtain ⟨p₂, run₂, took₂⟩ := readdigits_next took₁.1 (by omega : p₁.input.next.length < steps) digits next₁ stop
  obtain ⟨c, p₃, run₃, last₃⟩ := getc_last took₂.1
  have after : c ≠ 0x2E ∧ c ≠ 0x65 ∧ c ≠ 0x45 := by
    rcases last₃ with ⟨some, -, took₃⟩ | ⟨none, -⟩
    · obtain ⟨-, next', before, -⟩ := took₃
      rw [took₂.rest next₁] at before
      obtain ⟨-, lower, dot, e⟩ := delimited c.toNat (by rw [before]; rfl)
      refine ⟨by omega, fun same => ?_, by omega⟩
      rw [same] at lower
      nomatch lower
    · omega
  obtain ⟨q, back, took⟩ := ((took₁.trans took₂).last last₃).unget
  refine ⟨q, ?_, by simpa [parts] using took⟩
  have frac : readfrac steps c p₃ = .ok ([], c) p₃ := by
    unfold readfrac
    rw [if_neg after.1]
    rfl
  have exp : readexp steps c p₃ = .ok [] q := by
    unfold readexp
    rw [if_neg fun e => e.elim after.2.1 after.2.2]
    exact ok_then back
  rw [readnumber, ok_then run₁, ok_then run₂, ok_then run₃, ok_then frac]
  dsimp only
  rw [ok_then exp, if_neg (by simp), value]
  rfl

theorem readliteral_next {d : Nat} {rest : Chars} {v : Shape} (last : Last w d p p') (next : p'.input.next = rest ++ l)
    (word : d :: rest = chars "true" ∧ v = .true ∨ d :: rest = chars "false" ∧ v = .false ∨
      d :: rest = chars "null" ∧ v = .null)
    (delimited : Delimited l) (enough : p.input.next.length < steps) :
    ∃ q, readliteral steps d p' = .ok v q ∧ Took (w ++ d :: rest) p q := by
  have lower : ∀ x ∈ rest, islower x = true := by
    rcases word with ⟨text, -⟩ | ⟨text, -⟩ | ⟨text, -⟩ <;> obtain ⟨rfl, rfl⟩ := List.cons.inj text <;> decide
  have took := last.some (Int.natCast_nonneg d)
  have shorter := took.length
  obtain ⟨s, c, p₁, run, last₁, all, off⟩ := span_last islower_none steps p' took.1 (by omega)
  obtain ⟨rfl, -⟩ := last₁.unique all off next lower fun d first => (delimited d first).2.1
  obtain ⟨q, back, took₁⟩ := (took.last last₁).unget
  refine ⟨q, ?_, by simpa using took₁⟩
  rw [readliteral, ok_then run]
  dsimp only
  rw [ok_then back, Int.toNat_natCast]
  rcases word with ⟨text, rfl⟩ | ⟨text, rfl⟩ | ⟨text, rfl⟩
  · rw [if_pos text]
    rfl
  · rw [text, if_neg (by decide), if_pos rfl]
    rfl
  · rw [text, if_neg (by decide), if_neg (by decide), if_pos rfl]
    rfl

mutual

/-- What is read of a structure: `nil` comes back as `null`. -/
def Shape.readback : Shape → Shape
  | .nil => .null
  | .array a => .array (readbacks a)
  | .object mem => .object (readbackPairs mem)
  | v => v

def readbacks : List Shape → List Shape
  | [] => []
  | v :: a => v.readback :: readbacks a

def readbackPairs : List (Chars × Shape) → List (Chars × Shape)
  | [] => []
  | p :: mem => readbackPair p :: readbackPairs mem

def readbackPair : Chars × Shape → Chars × Shape
  | (n, v) => (n, v.readback)

/-- There is no `Real` in it. -/
def JValue.NoReal : JValue → Prop
  | .real _ _ => False
  | .array _ a => NoReals a
  | .object _ mem => NoRealPairs mem
  | _ => True

def NoReals : List JValue → Prop
  | [] => True
  | v :: a => v.NoReal ∧ NoReals a

def NoRealPairs : List (Chars × JValue) → Prop
  | [] => True
  | p :: mem => NoRealPair p ∧ NoRealPairs mem

def NoRealPair : Chars × JValue → Prop
  | (_, v) => v.NoReal

end

theorem readval_literal {d : Nat} {rest : Chars} {v : Shape} (ok : p.Ok) (enough : p.input.next.length < steps)
    (white : White w) (next : p.input.next = w ++ (d :: rest ++ l))
    (word : d :: rest = chars "true" ∧ v = .true ∨ d :: rest = chars "false" ∧ v = .false ∨
      d :: rest = chars "null" ∧ v = .null)
    (delimited : Delimited l) : ∃ q, readval real (steps + 1) p = .ok v q ∧ Took (w ++ d :: rest) p q := by
  have first : isspace d = false ∧ islower d = true ∧ 0x61 ≤ d := by
    rcases word with ⟨text, -⟩ | ⟨text, -⟩ | ⟨text, -⟩ <;> obtain ⟨rfl, -⟩ := List.cons.inj text <;> decide
  have digit : isdigit d = false := by
    rw [isdigit, decide_eq_false]
    omega
  have small : d < 0x7B := by
    have lower := of_decide_eq_true first.2.1
    omega
  obtain ⟨p₁, run, last⟩ := getns_next ok enough white first.1 next
  have after := (last.some (Int.natCast_nonneg d)).rest (l := rest ++ l) (by rw [next]; simp)
  obtain ⟨q, run₁, took⟩ := readliteral_next last after word delimited enough
  refine ⟨q, ?_, took⟩
  rw [readval, ok_then run, if_neg (by omega), if_neg (by omega), if_neg (by omega), if_neg (by omega),
    if_neg (not_or.2 ⟨by omega, by rw [digit]; exact Bool.false_ne_true⟩), if_pos first.2.1]
  exact run₁

theorem readval_int {v : BitVec 64} (ok : p.Ok) (enough : p.input.next.length < steps)
    (white : White w) (next : p.input.next = w ++ (bigtext v ++ l)) (delimited : Delimited l) :
    ∃ q, readval real (steps + 1) p = .ok (.int v) q ∧ Took (w ++ bigtext v) p q := by
  obtain ⟨d, rest, text, first⟩ : ∃ d rest, bigtext v = d :: rest ∧ ((d : Int) = 0x2D ∨ isdigit d = true) := by
    obtain ⟨sign, ds, parts, signs, digits, -⟩ := bigtext_parts v
    obtain ⟨e, es, rfl⟩ := List.exists_cons_of_ne_nil digits.1
    rcases signs with rfl | rfl
    · exact ⟨e, es, parts, .inr (digits.2 e List.mem_cons_self)⟩
    · exact ⟨_, _, parts, .inl rfl⟩
  have range : 0x2D ≤ d ∧ d ≤ 0x39 := by
    rcases first with minus | digit
    · omega
    · have range := of_decide_eq_true digit
      omega
  have solid : isspace d = false := by
    rw [isspace, decide_eq_false]
    omega
  rw [text] at next
  obtain ⟨p₁, run, last⟩ := getns_next ok enough white solid next
  have after := (last.some (Int.natCast_nonneg d)).rest (l := rest ++ l) (by rw [next]; simp)
  obtain ⟨q, run₁, took⟩ := readnumber_next real last text after delimited enough
  refine ⟨q, ?_, took⟩
  rw [readval, ok_then run, if_neg (by omega), if_neg (by omega), if_neg (by omega), if_neg (by omega), if_pos first]
  exact run₁

theorem readval_string {s : Chars} (ok : p.Ok) (enough : p.input.next.length < steps) (white : White w)
    (next : p.input.next = w ++ (quote s ++ l)) :
    ∃ q, readval real (steps + 1) p = .ok (.string s) q ∧ Took (w ++ quote s) p q := by
  rw [quote, List.cons_append] at next
  obtain ⟨p₁, run, last⟩ := getns_next ok enough white (by decide) next
  have took := last.some (by decide : (0 : Int) ≤ (0x22 : Nat))
  have shorter := took.length
  rw [List.length_append, List.length_singleton] at shorter
  obtain ⟨q, run₁, took₁⟩ := readstring_next s steps p₁ took.1 (by omega)
    (took.rest (l := s.flatMap (fun c => if needesc c then escout c else [c]) ++ 0x22 :: l) (by rw [next]; simp))
  refine ⟨q, ?_, by simpa [quote] using took.trans took₁⟩
  rw [readval, ok_then run, if_neg (by decide), if_neg (by decide), if_neg (by decide), if_pos (by decide)]
  exact ok_then run₁

variable (realtext : Real → Chars) {comma colon : Chars}

theorem render_head (comma colon : Chars) {v : JValue} (plain : v.NoReal) :
    ∃ d rest, v.render realtext comma colon = d :: rest ∧ isspace d = false ∧ d ≠ 0x5D := by
  cases v with
  | nil | true _ | false _ | null _ =>
    rw [JValue.render]
    exact ⟨_, _, rfl, by decide, by decide⟩
  | int _ value =>
    rw [JValue.render]
    obtain ⟨sign, ds, parts, signs, digits, -⟩ := bigtext_parts value
    obtain ⟨e, es, rfl⟩ := List.exists_cons_of_ne_nil digits.1
    rcases signs with rfl | rfl
    · have range := of_decide_eq_true (digits.2 e List.mem_cons_self)
      refine ⟨e, es, parts, ?_, by omega⟩
      rw [isspace, decide_eq_false]
      omega
    · exact ⟨_, _, parts, by decide, by decide⟩
  | real _ _ => exact plain.elim
  | string _ s | array _ a | object _ mem =>
    rw [JValue.render]
    exact ⟨_, _, rfl, by decide, by decide⟩

theorem white_nil : White [] := fun _ member => nomatch member

theorem delimited_comma (sp : Chars) : Delimited (0x2C :: sp) := by
  intro d first
  obtain rfl := Option.some.inj first
  decide

theorem delimited_close {d : Nat} (close : d = 0x5D ∨ d = 0x7D) (l : Chars) : Delimited (d :: l) := by
  intro e first
  obtain rfl := Option.some.inj first
  rcases close with rfl | rfl <;> decide

theorem unlessclosed_other (close : Int) (read : Reader (List α × Int)) {r : List α × Int} {d : Nat}
    (other : (d : Int) ≠ close)
    (last : Last w d p p') (loop : ∀ q, Took w p q → ∃ q', read q = .ok r q' ∧ Last t r.2 q q') :
    ∃ q, unlessclosed close read d p' = .ok r q ∧ Last (w ++ t) r.2 p q := by
  obtain ⟨q, back, took⟩ := last.unget
  obtain ⟨q', run, last'⟩ := loop q took
  refine ⟨q', ?_, took.last last'⟩
  rw [unlessclosed, if_pos other, ok_then back]
  exact run

variable {sp sp' : Chars}

mutual

/-- The text of a value is read back. -/
theorem readval_render (spaces : White sp) (spaces' : White sp') : ∀ (steps : Nat) (v : JValue)
    (p : Parse) (w l : Chars),
    v.NoReal → p.Ok → 2 * p.input.next.length + 4 ≤ steps → White w →
    p.input.next = w ++ (v.render realtext (0x2C :: sp) (0x3A :: sp') ++ l) → Delimited l →
    ∃ q, readval real steps p = .ok v.shape.readback q ∧ Took (w ++ v.render realtext (0x2C :: sp) (0x3A :: sp')) p q
  | 0, v, p, w, l, plain, ok, enough, white, next, delimited => by omega
  | steps + 1, v, p, w, l, plain, ok, enough, white, next, delimited => by
    have room : p.input.next.length < steps := by omega
    match v with
    | .nil | .null _ =>
      rw [JValue.render] at next ⊢
      exact readval_literal real ok room white next (.inr (.inr ⟨rfl, rfl⟩)) delimited
    | .true _ =>
      rw [JValue.render] at next ⊢
      exact readval_literal real ok room white next (.inl ⟨rfl, rfl⟩) delimited
    | .false _ =>
      rw [JValue.render] at next ⊢
      exact readval_literal real ok room white next (.inr (.inl ⟨rfl, rfl⟩)) delimited
    | .int _ value =>
      rw [JValue.render] at next ⊢
      exact readval_int real ok room white next delimited
    | .real _ _ => exact plain.elim
    | .string _ s =>
      rw [JValue.render] at next ⊢
      exact readval_string real ok room white next
    | .array _ a =>
      rw [JValue.render, List.append_assoc, List.cons_append] at next
      rw [JValue.render]
      obtain ⟨p₁, run₁, last₁⟩ := getns_next ok room white (by decide) next
      have took₁ := last₁.some (by decide : (0 : Int) ≤ (0x5B : Nat))
      have shorter := took₁.length
      rw [List.length_append, List.length_singleton] at shorter
      have next₁ := took₁.rest (l := renderArray realtext (0x2C :: sp) (0x3A :: sp') a ++ ([0x5D] ++ l))
        (by rw [next]; simp)
      obtain ⟨d, p₂, q, run₂, run₃, last₃⟩ : ∃ d p₂ q, getns steps p₁ = .ok d p₂ ∧
          unlessclosed 0x5D (readelems real steps) d p₂ = .ok (readbacks (shapes a), 0x5D) q ∧
          Last (renderArray realtext (0x2C :: sp) (0x3A :: sp') a) 0x5D p₁ q := by
        cases a with
        | nil =>
          obtain ⟨p₂, run₂, last₂⟩ := getns_next took₁.1 (by omega : p₁.input.next.length < steps) (w := [])
            white_nil (by decide) next₁
          exact ⟨_, p₂, p₂, run₂, rfl, last₂⟩
        | cons v a =>
          obtain ⟨d, rest, text, solid, other⟩ := render_head realtext (0x2C :: sp) (0x3A :: sp')
            plain.1
          have begins : p₁.input.next = [] ++ d :: (rest ++ ((if a.isEmpty then [] else 0x2C :: sp) ++
              renderArray realtext (0x2C :: sp) (0x3A :: sp') a ++ ([0x5D] ++ l))) := by
            rw [next₁, renderArray, text]
            simp
          obtain ⟨p₂, run₂, last₂⟩ := getns_next took₁.1 (by omega : p₁.input.next.length < steps)
            white_nil solid begins
          obtain ⟨q, run₃, last₃⟩ := unlessclosed_other 0x5D (readelems real steps) (by omega)
            last₂ fun q took =>
            readelems_render spaces spaces' steps v a q [] l plain took.1
              (by have same := took.length; rw [List.length_nil] at same; omega)
              white_nil (took.rest next₁)
          exact ⟨_, p₂, q, run₂, run₃, last₃⟩
      refine ⟨q, ?_, by simpa using (took₁.last last₃).some (by decide)⟩
      rw [readval, ok_then run₁, if_neg (by decide), if_neg (by decide), if_pos (by decide), ok_then run₂, ok_then run₃]
      rfl
    | .object _ mem =>
      rw [JValue.render, List.append_assoc, List.cons_append] at next
      rw [JValue.render]
      obtain ⟨p₁, run₁, last₁⟩ := getns_next ok room white (by decide) next
      have took₁ := last₁.some (by decide : (0 : Int) ≤ (0x7B : Nat))
      have shorter := took₁.length
      rw [List.length_append, List.length_singleton] at shorter
      have next₁ := took₁.rest (l := renderObject realtext (0x2C :: sp) (0x3A :: sp') mem ++ ([0x7D] ++ l))
        (by rw [next]; simp)
      obtain ⟨d, p₂, q, run₂, run₃, last₃⟩ : ∃ d p₂ q, getns steps p₁ = .ok d p₂ ∧
          unlessclosed 0x7D (readpairs real steps) d p₂ = .ok (readbackPairs (members mem), 0x7D) q ∧
          Last (renderObject realtext (0x2C :: sp) (0x3A :: sp') mem) 0x7D p₁ q := by
        cases mem with
        | nil =>
          obtain ⟨p₂, run₂, last₂⟩ := getns_next took₁.1 (by omega : p₁.input.next.length < steps) (w := [])
            white_nil (by decide) next₁
          exact ⟨_, p₂, p₂, run₂, rfl, last₂⟩
        | cons pair mem =>
          obtain ⟨name, v⟩ := pair
          obtain ⟨rest, begins⟩ : ∃ rest, p₁.input.next = [] ++ 0x22 :: rest := by
            rw [next₁, renderObject, renderPair, quote]
            exact ⟨_, rfl⟩
          obtain ⟨p₂, run₂, last₂⟩ := getns_next took₁.1 (by omega : p₁.input.next.length < steps)
            white_nil (by decide) begins
          obtain ⟨q, run₃, last₃⟩ := unlessclosed_other 0x7D (readpairs real steps) (by decide) last₂
            fun q took => readpairs_render spaces spaces' steps name v mem q [] l plain took.1
              (by have same := took.length; rw [List.length_nil] at same; omega) white_nil (took.rest next₁)
          exact ⟨_, p₂, q, run₂, run₃, last₃⟩
      refine ⟨q, ?_, by simpa using (took₁.last last₃).some (by decide)⟩
      rw [readval, ok_then run₁, if_neg (by decide), if_pos (by decide), ok_then run₂, ok_then run₃]
      rfl

theorem readelems_render (spaces : White sp) (spaces' : White sp') : ∀ (steps : Nat) (v : JValue) (a : List JValue)
    (p : Parse) (w l : Chars), NoReals (v :: a) → p.Ok → 2 * p.input.next.length + 5 ≤ steps → White w →
    p.input.next = w ++ (renderArray realtext (0x2C :: sp) (0x3A :: sp') (v :: a) ++ ([0x5D] ++ l)) →
    ∃ q, readelems real steps p = .ok (readbacks (shapes (v :: a)), 0x5D) q ∧
      Last (w ++ renderArray realtext (0x2C :: sp) (0x3A :: sp') (v :: a)) 0x5D p q
  | 0, v, a, p, w, l, plain, ok, enough, white, next => by omega
  | steps + 1, v, a, p, w, l, plain, ok, enough, white, next => by
    rw [renderArray] at next
    rw [renderArray]
    match a with
    | [] =>
      obtain ⟨p₁, run₁, took₁⟩ := readval_render spaces spaces' steps v p w ([0x5D] ++ l) plain.1 ok (by omega) white
        (by simpa [renderArray] using next) (delimited_close (.inl rfl) l)
      have shorter := took₁.length
      obtain ⟨q, run₂, last₂⟩ := getns_next took₁.1 (by omega : p₁.input.next.length < steps) white_nil (by decide)
        (took₁.rest (l := 0x5D :: l) (by simpa [renderArray] using next))
      refine ⟨q, ?_, by simpa [renderArray] using took₁.last last₂⟩
      rw [readelems, ok_then run₁, ok_then run₂, if_neg (by decide)]
      rfl
    | u :: a =>
      obtain ⟨p₁, run₁, took₁⟩ := readval_render spaces spaces' steps v p w
        (0x2C :: (sp ++ (renderArray realtext (0x2C :: sp) (0x3A :: sp') (u :: a) ++ ([0x5D] ++ l))))
          plain.1 ok (by omega) white
        (by simpa using next) (delimited_comma _)
      have next₁ := took₁.rest (l := 0x2C :: (sp ++ (renderArray realtext (0x2C :: sp) (0x3A :: sp') (u :: a) ++
        ([0x5D] ++ l))))
        (by simpa using next)
      have shorter := took₁.length
      obtain ⟨p₂, run₂, last₂⟩ := getns_next took₁.1 (by omega : p₁.input.next.length < steps) white_nil (by decide)
        next₁
      have took₂ := last₂.some (by decide : (0 : Int) ≤ (0x2C : Nat))
      have shorter₂ := took₂.length
      rw [List.nil_append, List.length_singleton] at shorter₂
      obtain ⟨q, run₃, last₃⟩ := readelems_render spaces spaces' steps u a p₂ sp l plain.2 took₂.1 (by omega) spaces
        (took₂.rest next₁)
      refine ⟨q, ?_, by simpa using (took₁.trans took₂).last last₃⟩
      rw [readelems, ok_then run₁, ok_then run₂, if_pos (by decide), ok_then run₃]
      rfl

theorem readpairs_render (spaces : White sp) (spaces' : White sp') : ∀ (steps : Nat) (name : Chars) (v : JValue)
    (mem : List (Chars × JValue)) (p : Parse) (w l : Chars), NoRealPairs ((name, v) :: mem) → p.Ok →
    2 * p.input.next.length + 5 ≤ steps → White w →
    p.input.next = w ++ (renderObject realtext (0x2C :: sp) (0x3A :: sp') ((name, v) :: mem) ++ ([0x7D] ++ l)) →
    ∃ q, readpairs real steps p = .ok (readbackPairs (members ((name, v) :: mem)), 0x7D) q ∧
      Last (w ++ renderObject realtext (0x2C :: sp) (0x3A :: sp') ((name, v) :: mem)) 0x7D p q
  | 0, name, v, mem, p, w, l, plain, ok, enough, white, next => by omega
  | steps + 1, name, v, mem, p, w, l, plain, ok, enough, white, next => by
    rw [renderObject, renderPair] at next
    rw [renderObject, renderPair]
    obtain ⟨tail, rest⟩ : ∃ tail, tail = (if mem.isEmpty then [] else 0x2C :: sp) ++
        (renderObject realtext (0x2C :: sp) (0x3A :: sp') mem ++ ([0x7D] ++ l)) := ⟨_, rfl⟩
    have begins : p.input.next = w ++ 0x22 :: (name.flatMap (fun c => if needesc c then escout c else [c]) ++
        0x22 :: (0x3A :: (sp' ++ (v.render realtext (0x2C :: sp) (0x3A :: sp') ++ tail)))) := by
      rw [next, quote, rest]
      simp only [List.append_assoc, List.cons_append, List.nil_append]
    obtain ⟨p₁, run₁, last₁⟩ := getns_next ok (by omega : p.input.next.length < steps) white (by decide) begins
    have took₁ := last₁.some (by decide : (0 : Int) ≤ (0x22 : Nat))
    have shorter₁ := took₁.length
    rw [List.length_append, List.length_singleton] at shorter₁
    have next₁ := took₁.rest (begins.trans (List.append_cons ..))
    obtain ⟨p₂, run₂, took₂⟩ := readstring_next name steps p₁ took₁.1 (by omega) next₁
    have shorter₂ := took₂.length
    have next₂ := took₂.rest (next₁.trans (List.append_cons ..))
    obtain ⟨p₃, run₃, last₃⟩ := getns_next took₂.1 (by omega : p₂.input.next.length < steps) white_nil (by decide) next₂
    have took₃ := last₃.some (by decide : (0 : Int) ≤ (0x3A : Nat))
    have shorter₃ := took₃.length
    have next₃ := took₃.rest next₂
    have delimited : Delimited tail := by
      rw [rest]
      split
      · next none =>
        rw [List.isEmpty_iff.1 none]
        exact delimited_close (.inr rfl) l
      · exact delimited_comma _
    obtain ⟨p₄, run₄, took₄⟩ := readval_render spaces spaces' steps v p₃ sp' tail plain.1 took₃.1 (by omega)
      spaces' next₃ delimited
    have shorter₄ := took₄.length
    have next₄ := took₄.rest (next₃.trans (List.append_assoc ..).symm)
    have whole := ((took₁.trans took₂).trans took₃).trans took₄
    match mem with
    | [] =>
      obtain ⟨q, run₅, last₅⟩ := getns_next took₄.1 (by omega : p₄.input.next.length < steps) white_nil (by decide)
        (next₄.trans rest : p₄.input.next = [] ++ 0x7D :: l)
      refine ⟨q, ?_, by simpa [renderObject, quote] using whole.last last₅⟩
      rw [readpairs, ok_then run₁, if_neg (by decide), Int.cast_ofNat_Int, ok_then run₂, ok_then run₃,
        if_neg (by decide), ok_then run₄, ok_then run₅, if_neg (by decide)]
      rfl
    | (name', v') :: mem =>
      obtain ⟨p₅, run₅, last₅⟩ := getns_next took₄.1 (by omega : p₄.input.next.length < steps) white_nil (by decide)
        (next₄.trans rest)
      have took₅ := last₅.some (by decide : (0 : Int) ≤ (0x2C : Nat))
      have shorter₅ := took₅.length
      rw [List.nil_append, List.length_singleton] at shorter₅
      obtain ⟨q, run₆, last₆⟩ := readpairs_render spaces spaces' steps name' v' mem p₅ sp l plain.2 took₅.1 (by omega)
        spaces
        (took₅.rest (next₄.trans rest))
      refine ⟨q, ?_, by simpa [quote] using (whole.trans took₅).last last₆⟩
      rw [readpairs, ok_then run₁, if_neg (by decide), Int.cast_ofNat_Int, ok_then run₂, ok_then run₃,
        if_neg (by decide), ok_then run₄, ok_then run₅, if_pos (by decide), ok_then run₆]
      rfl

end

section Utf

open Strings

mutual

/-- All characters in it are ones that UTF-8 has. -/
def JValue.Scalars : JValue → Prop
  | .string _ s => ∀ c ∈ s, Scalar c
  | .array _ a => ScalarsArray a
  | .object _ mem => ScalarsObject mem
  | _ => True

def ScalarsArray : List JValue → Prop
  | [] => True
  | v :: a => v.Scalars ∧ ScalarsArray a

def ScalarsObject : List (Chars × JValue) → Prop
  | [] => True
  | p :: mem => ScalarsPair p ∧ ScalarsObject mem

def ScalarsPair : Chars × JValue → Prop
  | (n, v) => (∀ c ∈ n, Scalar c) ∧ v.Scalars

end

theorem scalars_append {s t : Chars} (left : ∀ c ∈ s, Scalar c) (right : ∀ c ∈ t, Scalar c) : ∀ c ∈ s ++ t, Scalar c :=
  fun c member => (List.mem_append.1 member).elim (left c) (right c)

theorem scalars_cons {c : Nat} {s : Chars} (first : Scalar c) (rest : ∀ c ∈ s, Scalar c) : ∀ d ∈ c :: s, Scalar d :=
  List.forall_mem_cons.2 ⟨first, rest⟩

theorem quote_scalars {s : Chars} (scalars : ∀ c ∈ s, Scalar c) : ∀ c ∈ quote s, Scalar c := by
  have escapes : ∀ c < 0x5D, needesc c = true → ∀ x ∈ escout c, Scalar x := by decide
  refine scalars_append (scalars_cons (by decide) fun x member => ?_) (by decide)
  obtain ⟨c, inside, here⟩ := List.mem_flatMap.1 member
  by_cases need : needesc c = true
  · rw [if_pos need] at here
    have small : c < 0x5D := by
      have special := of_decide_eq_true need
      omega
    exact escapes c small need x here
  · rw [if_neg need, List.mem_singleton] at here
    exact here ▸ scalars c inside

theorem bigtext_scalars (v : BitVec 64) : ∀ c ∈ bigtext v, Scalar c := by
  obtain ⟨sign, ds, parts, signs, digits, -⟩ := bigtext_parts v
  rw [parts]
  refine scalars_append ?_ fun c member => ?_
  · rcases signs with rfl | rfl <;> decide
  · have range := of_decide_eq_true (digits.2 c member)
    exact scalar_of_le (by omega)

mutual

theorem render_scalars (comma' : ∀ c ∈ comma, Scalar c) (colon' : ∀ c ∈ colon, Scalar c) (v : JValue) (plain : v.NoReal)
    (scalars : v.Scalars) : ∀ c ∈ v.render realtext comma colon, Scalar c := by
  match v with
  | .nil | .null _ | .true _ | .false _ =>
    rw [JValue.render]
    decide
  | .int _ value =>
    rw [JValue.render]
    exact bigtext_scalars value
  | .real _ _ => exact plain.elim
  | .string _ s =>
    rw [JValue.render]
    exact quote_scalars scalars
  | .array _ a =>
    rw [JValue.render]
    exact scalars_append (scalars_cons (by decide) (renderArray_scalars comma' colon' a plain scalars)) (by decide)
  | .object _ mem =>
    rw [JValue.render]
    exact scalars_append (scalars_cons (by decide) (renderObject_scalars comma' colon' mem plain scalars)) (by decide)

theorem renderArray_scalars (comma' : ∀ c ∈ comma, Scalar c) (colon' : ∀ c ∈ colon, Scalar c) (a : List JValue)
    (plain : NoReals a) (scalars : ScalarsArray a) : ∀ c ∈ renderArray realtext comma colon a, Scalar c := by
  match a with
  | [] => exact fun _ member => nomatch member
  | v :: a =>
    rw [renderArray]
    refine scalars_append (scalars_append (render_scalars comma' colon' v plain.1 scalars.1) ?_)
      (renderArray_scalars comma' colon' a plain.2 scalars.2)
    split
    · exact fun _ member => nomatch member
    · exact comma'

theorem renderObject_scalars (comma' : ∀ c ∈ comma, Scalar c) (colon' : ∀ c ∈ colon, Scalar c)
    (mem : List (Chars × JValue)) (plain : NoRealPairs mem) (scalars : ScalarsObject mem) :
    ∀ c ∈ renderObject realtext comma colon mem, Scalar c := by
  match mem with
  | [] => exact fun _ member => nomatch member
  | p :: mem =>
    rw [renderObject]
    refine scalars_append (scalars_append (renderPair_scalars comma' colon' p plain.1 scalars.1) ?_)
      (renderObject_scalars comma' colon' mem plain.2 scalars.2)
    split
    · exact fun _ member => nomatch member
    · exact comma'

theorem renderPair_scalars (comma' : ∀ c ∈ comma, Scalar c) (colon' : ∀ c ∈ colon, Scalar c) (p : Chars × JValue)
    (plain : NoRealPair p) (scalars : ScalarsPair p) : ∀ c ∈ renderPair realtext comma colon p, Scalar c := by
  obtain ⟨n, v⟩ := p
  rw [renderPair]
  exact scalars_append (scalars_append (quote_scalars scalars.1) colon')
    (render_scalars comma' colon' v plain scalars.2)

end

end Utf

theorem ok_start (b : Iobuf) : Parse.Ok ⟨b, 0⟩ := by
  refine ⟨?_, .inl rfl⟩
  rcases b.ends with stop | stop
  · exact stop ▸ (by decide : EOF < 0)
  · exact stop ▸ (by decide : ERROR < 0)

/-- A text that is read as a value is taken off the input. -/
theorem readjson_reads {b : Iobuf} {v : Shape} {d : Nat} {r : Chars} (first : t = d :: r) (solid : isspace d = false)
    (next : b.next = t ++ l)
    (reads : ∀ steps p, p.Ok → 2 * p.input.next.length + 4 ≤ steps → p.input.next = t ++ l →
      ∃ q, readval real steps p = .ok v q ∧ Took t p q) :
    readjson real b = some ((some v, none), { b with past := t.reverse ++ b.past, next := l }) := by
  have start : (⟨b, 0⟩ : Parse).input.next = [] ++ d :: (r ++ l) := by
    rw [List.nil_append, ← List.cons_append, ← first]
    exact next
  obtain ⟨p₁, run, last⟩ := getns_next (ok_start b) (by change b.next.length < 2 * b.next.length + 4; omega)
    white_nil solid start
  obtain ⟨p₂, back, took⟩ := last.unget
  have same := took.length
  rw [List.length_nil, Nat.zero_add] at same
  obtain ⟨q, run₁, took₁⟩ := reads (2 * b.next.length + 4) p₂ took.1 (by rw [same]) (took.rest next)
  have whole := took.trans took₁
  obtain ⟨-, next', before, after⟩ := whole
  have left : next' = l := List.append_cancel_left ((before.symm.trans next : t ++ next' = t ++ l))
  have other : (d : Int) ≠ EOF := by
    unfold EOF
    omega
  unfold readjson
  dsimp only
  rw [ok_then run, if_neg other, ok_then back, ok_then run₁]
  dsimp only [pure, EStateM.pure]
  rw [after, left]
  rfl

/-- What `readjson` does with any input. -/
theorem readjson_ends (b : Iobuf) : ∃ r b', readjson real b = some (r, b') ∧
    ((∃ v u, r = (some v, none) ∧ Written real v u ∧ b.next = u ++ b'.next) ∨ (∃ e, r = (none, some e)) ∨
      r = (none, none) ∧ White b.next ∧ b.stop = EOF) := by
  obtain ⟨w, c, p₁, run, last, white, -⟩ := getns_last (ok_start b)
    (by change b.next.length < 2 * b.next.length + 4; omega)
  unfold readjson
  dsimp only
  rw [ok_then run]
  by_cases ended : c = EOF
  · have negative : c < 0 := ended ▸ (by decide : EOF < 0)
    obtain ⟨empty, -, next, before, after⟩ := last.negative negative
    rcases last with ⟨some, -⟩ | ⟨-, stop, -⟩
    · omega
    rw [if_pos ended]
    refine ⟨_, _, rfl, .inr (.inr ⟨rfl, ?_, stop.symm.trans ended⟩)⟩
    rw [after] at empty
    obtain rfl : next = [] := empty
    rw [List.append_nil] at before
    exact before ▸ white
  · obtain ⟨p₂, back, took⟩ := last.unget
    have shorter := took.length
    have sound : Sound (readval real (2 * b.next.length + 4)) p₂ fun v q => ∃ u, Written real v u ∧ Took u p₂ q :=
      sound_readval _ p₂ took.1 (by dsimp only at shorter; omega)
    rw [if_neg ended, ok_then back]
    unfold Sound Gives at sound
    cases value : readval real (2 * b.next.length + 4) p₂ with
    | ok v q =>
      rw [value] at sound
      obtain ⟨u, written, took₁⟩ := sound
      obtain ⟨-, next, before, after⟩ := took.trans took₁
      rw [ok_then value]
      refine ⟨_, _, rfl, .inl ⟨v, w ++ u, rfl, .space white written, ?_⟩⟩
      rw [after]
      exact before
    | error e q =>
      rw [value] at sound
      have raised : (readval real (2 * b.next.length + 4) >>= fun v => pure (some v)) p₂ = .error e q := by
        change EStateM.bind _ _ p₂ = _
        unfold EStateM.bind
        rw [value]
      rw [raised]
      cases e with
      | malformed e => exact ⟨_, _, rfl, .inr (.inl ⟨_, rfl⟩)⟩
      | steps => exact absurd rfl sound

end Complete

end Inferno.Json
