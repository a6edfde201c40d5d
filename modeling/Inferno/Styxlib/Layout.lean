import Inferno.Styxlib.Decode

namespace Inferno.Styxlib

open Strings

/-- The number that the `k` bytes from `o` on are, the lowest first. -/
def wire (f : List UInt8) : Nat → Nat → Nat
  | _, 0 => 0
  | o, k + 1 => (get f o).getD 0 + 256 * wire f (o + 1) k

/-- The parts of a message after its header. -/
inductive Field
  | bytes (k : Nat)
  /-- A count of two bytes, and so many bytes. -/
  | text
  /-- A count of two bytes, and so many texts. -/
  | names
  | qids
  /-- A count of four bytes, and so many bytes. -/
  | data
  /-- A count of two bytes, and a directory entry of so many bytes. -/
  | entry

/-- A place that is not beyond the message. -/
def within (f : List UInt8) (e : Nat) : Option Nat := if e ≤ f.length then some e else none

def textStop (f : List UInt8) (o : Nat) : Option Nat := do
  let p ← within f (o + 2)
  within f (p + wire f o 2)

def textsStop (f : List UInt8) : Nat → Nat → Option Nat
  | 0, o => some o
  | n + 1, o => do textsStop f n (← textStop f o)

/-- How many bytes the directory entry takes that is at the start of `a`; 0 if none is. -/
def entrySize (a : List UInt8) : Nat :=
  let sz := wire a 0 2 + 2
  if 49 ≤ a.length ∧ sz ≤ a.length ∧ textsStop a 4 41 = some sz then sz else 0

/-- Where a part that begins at `o` ends, if that is within the message. -/
def Field.stop (f : List UInt8) (o : Nat) : Field → Option Nat
  | bytes k => within f (o + k)
  | text => textStop f o
  | names => do
    let p ← within f (o + 2)
    if wire f o 2 ≤ MAXWELEM then textsStop f (wire f o 2) p else none
  | qids => do
    let p ← within f (o + 2)
    within f (p + wire f o 2 * 13)
  | data => do
    let p ← within f (o + 4)
    within f (p + wire f o 4)
  | entry => do
    let p ← within f (o + 2)
    if 0 < wire f o 2 ∧ entrySize (f.drop p) = wire f o 2 then some (p + wire f o 2) else none

def stops (f : List UInt8) : List Field → Nat → Option Nat
  | [], o => some o
  | x :: xs, o => do stops f xs (← x.stop f o)

/-- The parts of the requests, by their types. -/
def Tmsg.layout : Nat → Option (List Field)
  | 100 => some [.bytes 4, .text]
  | 102 => some [.bytes 4, .text, .text]
  | 104 => some [.bytes 4, .bytes 4, .text, .text]
  | 108 => some [.bytes 2]
  | 110 => some [.bytes 4, .bytes 4, .names]
  | 112 => some [.bytes 4, .bytes 1]
  | 114 => some [.bytes 4, .text, .bytes 4, .bytes 1]
  | 116 => some [.bytes 4, .bytes 8, .bytes 4]
  | 118 => some [.bytes 4, .bytes 8, .data]
  | 120 => some [.bytes 4]
  | 122 => some [.bytes 4]
  | 124 => some [.bytes 4]
  | 126 => some [.bytes 4, .entry]
  | _ => none

/-- The parts of the replies. -/
def Rmsg.layout : Nat → Option (List Field)
  | 101 => some [.bytes 4, .text]
  | 103 => some [.bytes 13]
  | 105 => some [.bytes 13]
  | 107 => some [.text]
  | 109 => some []
  | 111 => some [.qids]
  | 113 => some [.bytes 13, .bytes 4]
  | 115 => some [.bytes 13, .bytes 4]
  | 117 => some [.data]
  | 119 => some [.bytes 4]
  | 121 => some []
  | 123 => some []
  | 125 => some [.entry]
  | 127 => some []
  | _ => none

/-- The size that a message says it has, and its type. -/
def declared (f : List UInt8) : Nat := wire f 0 4

def kind (f : List UInt8) : Nat := wire f 4 1

/-- A message of a known type, all of whose parts are within it. -/
def WellFormed (layout : Nat → Option (List Field)) (f : List UInt8) : Prop :=
  H ≤ f.length ∧ ∃ parts e, layout (kind f) = some parts ∧ stops f parts H = some e

section Read

-- a message, and one that goes on after it
variable {p q : List UInt8} {o k e n : Nat} {s : Str}

theorem within_of_le (le : o ≤ p.length) : within p o = some o := if_pos le

theorem within_of_lt (less : p.length < o) : within p o = none := if_neg (Nat.not_le.mpr less)

theorem wire_front (pre : p <+: q) (inside : o + k ≤ p.length) : wire q o k = wire p o k := by
  induction k generalizing o with
  | zero => rfl
  | succ k ih =>
    have here : get q o = get p o := by
      obtain ⟨rest, rfl⟩ := pre
      exact congrArg (Option.map UInt8.toNat) (List.getElem?_append_left (by omega))
    rw [wire, wire, here, ih (by omega)]

theorem wire_lt (p : List UInt8) (o k : Nat) : wire p o k < 256 ^ k := by
  induction k generalizing o with
  | zero => exact Nat.one_pos
  | succ k ih =>
    have low : (get p o).getD 0 < 256 := by
      cases value : get p o with
      | none => exact Nat.zero_lt_succ _
      | some b => exact get_lt value
    have high := ih (o + 1)
    rw [wire, pow_succ]
    omega

theorem get_wire (pre : p <+: q) (inside : o + 1 ≤ p.length) : get q o = some (wire p o 1) := by
  obtain ⟨n, value⟩ := get_some (f := q) (i := o) (by have := pre.length_le; omega)
  rw [← wire_front pre inside, value, wire, wire, value]
  rfl

theorem g16_wire (pre : p <+: q) (inside : o + 2 ≤ p.length) : g16 q o = some (wire p o 2) := by
  have length := pre.length_le
  obtain ⟨b₀, first⟩ := get_some (f := q) (i := o) (by omega)
  obtain ⟨b₁, second⟩ := get_some (f := q) (i := o + 1) (by omega)
  rw [← wire_front pre inside]
  unfold g16
  rw [first, second]
  simp only [wire, first, second, Option.bind_eq_bind, Option.bind_some, Option.getD_some]
  rw [shift_byte (get_lt first)]
  exact congrArg some (by omega)

theorem g32_wire (pre : p <+: q) (inside : o + 4 ≤ p.length) : g32 q o = some (wire p o 4) := by
  have length := pre.length_le
  obtain ⟨b₀, first⟩ := get_some (f := q) (i := o) (by omega)
  obtain ⟨b₁, second⟩ := get_some (f := q) (i := o + 1) (by omega)
  obtain ⟨b₂, third⟩ := get_some (f := q) (i := o + 2) (by omega)
  obtain ⟨b₃, fourth⟩ := get_some (f := q) (i := o + 3) (by omega)
  rw [← wire_front pre inside]
  unfold g32
  rw [first, second, third, fourth]
  simp only [wire, first, second, third, fourth, Option.bind_eq_bind, Option.bind_some, Option.getD_some]
  rw [shift_byte (get_lt third), shift_byte (get_lt second), shift_byte (get_lt first)]
  exact congrArg some (by omega)

theorem g64_wire (inside : o + 8 ≤ p.length) : ∃ b, ∀ q, p <+: q → g64 q o = some b := by
  refine ⟨Int64.ofNat (wire p (o + 4) 4 <<< 32 ||| (wire p o 4 &&& 0xFFFFFFFF)), fun q pre => ?_⟩
  unfold g64
  rw [g32_wire pre (by omega), g32_wire pre (by omega)]
  rfl

theorem gqid_wire (inside : o + 13 ≤ p.length) : ∃ qid, ∀ q, p <+: q → gqid q o = some qid := by
  obtain ⟨b, value⟩ := g64_wire (p := p) (o := o + BIT8SZ + BIT32SZ) (by simp only [BIT8SZ, BIT32SZ]; omega)
  refine ⟨⟨b, wire p (o + 1) 4, wire p o 1⟩, fun q pre => ?_⟩
  unfold gqid
  rw [get_wire pre (by omega), g32_wire pre (by omega), value q pre]
  rfl

theorem slice_prefix (pre : p <+: q) (inside : o + k ≤ p.length) : (q.drop o).take k = (p.drop o).take k := by
  obtain ⟨rest, rfl⟩ := pre
  rw [List.drop_append_of_le_length (by omega), List.take_append_of_le_length (by rw [List.length_drop]; omega)]

/-- `gstring` gives a text that is within the message, and otherwise -1. -/
theorem gstring_stop (p : List UInt8) (o : Nat) :
    (∃ s e, textStop p o = some e ∧ o + 2 ≤ e ∧ e ≤ p.length ∧
      ∀ q, p <+: q → gstring q (o : Int) = some (s, (e : Int))) ∨
      textStop p o = none ∧ gstring p (o : Int) = some ([], -1) := by
  unfold textStop
  have str : STR = 2 := rfl
  by_cases head : o + 2 ≤ p.length
  · rw [within_of_le head]
    simp only [Option.bind_eq_bind, Option.bind_some]
    by_cases room : o + 2 + wire p o 2 ≤ p.length
    · refine Or.inl ⟨runesOf ((p.drop (o + 2)).take (wire p o 2)), _, within_of_le room, by omega, room,
        fun q pre => ?_⟩
      have length := pre.length_le
      unfold gstring
      rw [if_neg (by omega), Int.toNat_natCast, g16_wire pre head]
      simp only [Option.bind_eq_bind, Option.bind_some, str]
      rw [if_neg (by omega), slice_prefix pre room]
      rfl
    · refine Or.inr ⟨within_of_lt (by omega), ?_⟩
      unfold gstring
      rw [if_neg (by omega), Int.toNat_natCast, g16_wire List.prefix_rfl head]
      simp only [Option.bind_eq_bind, Option.bind_some, str]
      rw [if_pos (by omega)]
      rfl
  · rw [within_of_lt (by omega)]
    exact Or.inr ⟨rfl, if_pos (by omega)⟩

theorem gstring_neg (p : List UInt8) : gstring p (-1) = some ([], -1) := if_pos (Or.inl (by decide))

theorem gnames_stop (p : List UInt8) (n : Nat) : ∀ o, 0 < o →
    (∃ names e, textsStop p n o = some e ∧ ∀ q, p <+: q → gnames q n (o : Int) = some (some (names, (e : Int)))) ∨
      textsStop p n o = none ∧ gnames p n (o : Int) = some none := by
  induction n with
  | zero => exact fun o _ => Or.inl ⟨[], o, rfl, fun _ _ => rfl⟩
  | succ n ih =>
    intro o positive
    unfold textsStop
    rcases gstring_stop p o with ⟨s, e, stop, low, -, value⟩ | ⟨none_, value⟩
    · rw [stop, some_then]
      rcases ih e (by omega) with ⟨names, e', stop', value'⟩ | ⟨none_, value'⟩
      · refine Or.inl ⟨s :: names, e', stop', fun q pre => ?_⟩
        unfold gnames
        rw [value q pre, some_then]
        dsimp only
        rw [if_neg (by omega), value' q pre]
        rfl
      · refine Or.inr ⟨none_, ?_⟩
        unfold gnames
        rw [value p List.prefix_rfl, some_then]
        dsimp only
        rw [if_neg (by omega), value']
        rfl
    · refine Or.inr ⟨by rw [none_]; rfl, ?_⟩
      unfold gnames
      rw [value, some_then]
      rfl

theorem gqids_wire (n : Nat) : ∀ o, o + n * 13 ≤ p.length →
    ∃ qids, ∀ q, p <+: q → gqids q n o = some (qids, o + n * 13) := by
  induction n with
  | zero => exact fun o _ => ⟨[], fun _ _ => rfl⟩
  | succ n ih =>
    intro o inside
    have size : QID = 13 := rfl
    obtain ⟨qid, first⟩ := gqid_wire (p := p) (o := o) (by omega)
    obtain ⟨qids, rest⟩ := ih (o + QID) (by omega)
    refine ⟨qid :: qids, fun q pre => ?_⟩
    unfold gqids
    rw [first q pre, some_then, rest q pre, some_then]
    exact congrArg (fun n => some (_, n)) (by omega)

/-- `unpackdir` gives the size of the entry, and 0 if there is none. -/
theorem unpackdir_stop (p : List UInt8) :
    (0 < entrySize p ∧ entrySize p ≤ p.length ∧ ∃ d, ∀ q, p <+: q → unpackdir q = some (entrySize p, d)) ∨
      entrySize p = 0 ∧ ∃ d, unpackdir p = some (0, d) := by
  unfold entrySize
  have fixed : STATFIXLEN = 49 := rfl
  have len : LEN = 2 := rfl
  by_cases short : p.length < 49
  · exact Or.inr ⟨if_neg (by omega), _, if_pos (by omega)⟩
  by_cases less : p.length < wire p 0 2 + 2
  · refine Or.inr ⟨if_neg (by omega), default, ?_⟩
    unfold unpackdir
    rw [if_neg (by omega), g16_wire List.prefix_rfl (by omega), some_then, len, if_pos less]
    rfl
  obtain ⟨qid, first⟩ := gqid_wire (p := p) (o := 8) (by omega)
  obtain ⟨b, second⟩ := g64_wire (p := p) (o := 33) (by omega)
  -- what is read before the four texts
  have start : ∃ make : Str → Str → Str → Str → Dir, ∀ q, p <+: q → unpackdir q =
      gstring q 41 >>= fun name => gstring q name.2 >>= fun uid => gstring q uid.2 >>= fun gid =>
        gstring q gid.2 >>= fun muid =>
          if muid.2 ≠ ((wire p 0 2 + 2 : Nat) : Int) then some (0, make name.1 uid.1 gid.1 muid.1)
          else some (wire p 0 2 + 2, make name.1 uid.1 gid.1 muid.1) := by
    refine ⟨fun name uid gid muid =>
      ⟨name, uid, gid, muid, qid, wire p 21 4, wire p 25 4, wire p 29 4, b, wire p 2 2, wire p 4 4⟩, fun q pre => ?_⟩
    have length := pre.length_le
    unfold unpackdir
    rw [if_neg (by omega), g16_wire pre (by omega), some_then, len]
    dsimp only
    rw [if_neg (by omega), g16_wire pre (by omega), some_then, g32_wire pre (by omega), some_then, first q pre,
      some_then, g32_wire pre (by omega), some_then, g32_wire pre (by omega), some_then, g32_wire pre (by omega),
      some_then, second q pre, some_then]
    rfl
  obtain ⟨make, value⟩ := start
  -- where one of them is not within the entry, the others are not read
  have stuck (texts : textsStop p 4 41 = none)
      (gone : ∃ name uid gid muid, unpackdir p = some (0, make name uid gid muid)) :
      (if 49 ≤ p.length ∧ wire p 0 2 + 2 ≤ p.length ∧ textsStop p 4 41 = some (wire p 0 2 + 2)
        then wire p 0 2 + 2 else 0) = 0 ∧ ∃ d, unpackdir p = some (0, d) := by
    obtain ⟨name, uid, gid, muid, same⟩ := gone
    rw [texts]
    exact ⟨if_neg fun all => (by cases all.2.2), _, same⟩
  have self := value p List.prefix_rfl
  rw [show (41 : Int) = ((41 : Nat) : Int) from rfl] at self value
  rcases gstring_stop p 41 with ⟨s₁, e₁, stop₁, low₁, -, value₁⟩ | ⟨none_, value₁⟩
  · rcases gstring_stop p e₁ with ⟨s₂, e₂, stop₂, low₂, -, value₂⟩ | ⟨none_, value₂⟩
    · rcases gstring_stop p e₂ with ⟨s₃, e₃, stop₃, low₃, -, value₃⟩ | ⟨none_, value₃⟩
      · rcases gstring_stop p e₃ with ⟨s₄, e₄, stop₄, low₄, high, value₄⟩ | ⟨none_, value₄⟩
        · have texts : textsStop p 4 41 = some e₄ := by
            simp only [textsStop, stop₁, stop₂, stop₃, stop₄, Option.bind_eq_bind, Option.bind_some]
          have all : ∀ q, p <+: q → unpackdir q =
              some (if (e₄ : Int) ≠ ((wire p 0 2 + 2 : Nat) : Int) then 0 else wire p 0 2 + 2, make s₁ s₂ s₃ s₄) := by
            intro q pre
            rw [value q pre, value₁ q pre, some_then]
            dsimp only
            rw [value₂ q pre, some_then]
            dsimp only
            rw [value₃ q pre, some_then]
            dsimp only
            rw [value₄ q pre, some_then]
            dsimp only
            split <;> rfl
          rw [texts]
          by_cases whole : e₄ = wire p 0 2 + 2
          · subst whole
            refine Or.inl ?_
            rw [if_pos ⟨by omega, by omega, rfl⟩]
            exact ⟨by omega, high, make s₁ s₂ s₃ s₄, fun q pre => by rw [all q pre, if_neg (fun other => other rfl)]⟩
          · refine Or.inr ⟨if_neg fun all => whole (Option.some.inj all.2.2), make s₁ s₂ s₃ s₄, ?_⟩
            rw [all p List.prefix_rfl, if_pos (by omega)]
        · refine Or.inr (stuck ?_ ⟨s₁, s₂, s₃, [], ?_⟩)
          · simp only [textsStop, stop₁, stop₂, stop₃, none_, Option.bind_eq_bind, Option.bind_some, Option.bind_none]
          · rw [self, value₁ p List.prefix_rfl, some_then]
            dsimp only
            rw [value₂ p List.prefix_rfl, some_then]
            dsimp only
            rw [value₃ p List.prefix_rfl, some_then]
            dsimp only
            rw [value₄, some_then]
            exact if_pos (by omega)
      · refine Or.inr (stuck ?_ ⟨s₁, s₂, [], [], ?_⟩)
        · simp only [textsStop, stop₁, stop₂, none_, Option.bind_eq_bind, Option.bind_some, Option.bind_none]
        · rw [self, value₁ p List.prefix_rfl, some_then]
          dsimp only
          rw [value₂ p List.prefix_rfl, some_then]
          dsimp only
          rw [value₃, some_then]
          dsimp only
          rw [gstring_neg, some_then]
          exact if_pos (by omega)
    · refine Or.inr (stuck ?_ ⟨s₁, [], [], [], ?_⟩)
      · simp only [textsStop, stop₁, none_, Option.bind_eq_bind, Option.bind_some, Option.bind_none]
      · rw [self, value₁ p List.prefix_rfl, some_then]
        dsimp only
        rw [value₂, some_then]
        dsimp only
        rw [gstring_neg, some_then]
        dsimp only
        rw [gstring_neg, some_then]
        exact if_pos (by omega)
  · refine Or.inr (stuck ?_ ⟨[], [], [], [], ?_⟩)
    · simp only [textsStop, none_, Option.bind_eq_bind, Option.bind_none]
    · rw [self, value₁, some_then]
      dsimp only
      rw [gstring_neg, some_then]
      dsimp only
      rw [gstring_neg, some_then]
      dsimp only
      rw [gstring_neg, some_then]
      exact if_pos (by omega)

end Read

section Decode

variable {α : Type} {p : List UInt8} {o k e n fid : Nat}

/-- A reader that takes what is before `stop`, whatever follows, and gives up where there is none. -/
def Reads (p : List UInt8) (F : List UInt8 → Option (Option (Int × α))) : Option Nat → Prop
  | some e => ∃ x, ∀ q, p <+: q → F q = some (some ((e : Int), x))
  | none => F p = some none

theorem stops_bytes {parts : List Field} (inside : o + k ≤ p.length) :
    stops p (.bytes k :: parts) o = stops p parts (o + k) := by
  rw [stops, Field.stop, within_of_le inside]
  rfl

theorem h_eq : H = 7 := rfl

theorem Tmsg.decode_version (long : 13 ≤ p.length) :
    Reads p (fun q => Tmsg.decode q fid 100) (stops p [.bytes 4, .text] H) := by
  rw [h_eq, stops_bytes (by omega)]
  simp only [stops, Field.stop]
  rcases gstring_stop p 11 with ⟨s, e, stop, low, -, value⟩ | ⟨none_, value⟩
  · rw [stop]
    refine ⟨.version fid s, fun q pre => ?_⟩
    change (gstring q (11 : Nat)).bind _ = _
    rw [value q pre, Option.bind_some]
    exact if_neg (by omega)
  · rw [none_]
    change (gstring p (11 : Nat)).bind _ = _
    rw [value, Option.bind_some]
    exact if_pos (by omega)

theorem Tmsg.decode_auth (long : 15 ≤ p.length) :
    Reads p (fun q => Tmsg.decode q fid 102) (stops p [.bytes 4, .text, .text] H) := by
  rw [h_eq, stops_bytes (by omega)]
  simp only [stops, Field.stop]
  rcases gstring_stop p 11 with ⟨s, e, stop, low, -, value⟩ | ⟨none_, value⟩
  · rw [stop, some_then]
    rcases gstring_stop p e with ⟨s', e', stop', low', -, value'⟩ | ⟨none_, value'⟩
    · rw [stop']
      refine ⟨.auth fid s s', fun q pre => ?_⟩
      change (gstring q (11 : Nat)).bind _ = _
      rw [value q pre, Option.bind_some]
      dsimp only
      rw [value' q pre, some_then]
      exact if_neg (by omega)
    · rw [none_]
      change (gstring p (11 : Nat)).bind _ = _
      rw [value p List.prefix_rfl, Option.bind_some]
      dsimp only
      rw [value', some_then]
      exact if_pos (by omega)
  · rw [none_]
    change (gstring p (11 : Nat)).bind _ = _
    rw [value, Option.bind_some]
    dsimp only
    rw [gstring_neg, some_then]
    exact if_pos (by omega)

theorem Tmsg.decode_attach (long : 19 ≤ p.length) :
    Reads p (fun q => Tmsg.decode q fid 104) (stops p [.bytes 4, .bytes 4, .text, .text] H) := by
  rw [h_eq, stops_bytes (by omega), stops_bytes (by omega)]
  simp only [stops, Field.stop]
  have afid : ∀ q, p <+: q → g32 q 11 = some (wire p 11 4) := fun q pre => g32_wire pre (by omega)
  rcases gstring_stop p 15 with ⟨s, e, stop, low, -, value⟩ | ⟨none_, value⟩
  · rw [stop, some_then]
    rcases gstring_stop p e with ⟨s', e', stop', low', -, value'⟩ | ⟨none_, value'⟩
    · rw [stop']
      refine ⟨.attach fid (wire p 11 4) s s', fun q pre => ?_⟩
      change (g32 q 11).bind (fun _ => (gstring q (15 : Nat)).bind _) = _
      rw [afid q pre, Option.bind_some, value q pre, Option.bind_some]
      dsimp only
      rw [value' q pre, some_then]
      exact if_neg (by omega)
    · rw [none_]
      change (g32 p 11).bind (fun _ => (gstring p (15 : Nat)).bind _) = _
      rw [afid p List.prefix_rfl, Option.bind_some, value p List.prefix_rfl, Option.bind_some]
      dsimp only
      rw [value', some_then]
      exact if_pos (by omega)
  · rw [none_]
    change (g32 p 11).bind (fun _ => (gstring p (15 : Nat)).bind _) = _
    rw [afid p List.prefix_rfl, Option.bind_some, value, Option.bind_some]
    dsimp only
    rw [gstring_neg, some_then]
    exact if_pos (by omega)

theorem Tmsg.decode_flush (long : 9 ≤ p.length) :
    Reads p (fun q => Tmsg.decode q fid 108) (stops p [.bytes 2] H) := by
  rw [h_eq, stops_bytes (by omega)]
  refine ⟨.flush (wire p 7 2), fun q pre => ?_⟩
  change (g16 q 7).bind _ = _
  rw [g16_wire pre (by omega)]
  rfl

theorem Tmsg.decode_walk (long : 17 ≤ p.length) :
    Reads p (fun q => Tmsg.decode q fid 110) (stops p [.bytes 4, .bytes 4, .names] H) := by
  rw [h_eq, stops_bytes (by omega), stops_bytes (by omega)]
  simp only [stops, Field.stop, Nat.reduceAdd]
  rw [within_of_le (by omega), some_then]
  have start : ∀ q, p <+: q → Tmsg.decode q fid 110 = if wire p 15 2 > MAXWELEM then return none else do
      return (← gnames q (wire p 15 2) (17 : Nat)).map fun r => (r.2, .walk fid (wire p 11 4) r.1) := by
    intro q pre
    change (g32 q 11).bind (fun _ => (g16 q 15).bind _) = _
    rw [g32_wire pre (by omega), Option.bind_some, g16_wire pre (by omega), Option.bind_some]
    change (if _ then _ else (gnames q (wire p 15 2) (17 : Nat)).bind _) = _
    split
    · rfl
    · cases gnames q (wire p 15 2) (17 : Nat) with
      | none => rfl
      | some r => cases r <;> rfl
  by_cases many : MAXWELEM < wire p 15 2
  · rw [if_neg (by omega)]
    exact (start p List.prefix_rfl).trans (if_pos many)
  rw [if_pos (by omega)]
  rcases gnames_stop p (wire p 15 2) 17 (by omega) with ⟨names, e, stop, value⟩ | ⟨none_, value⟩
  · rw [stop]
    refine ⟨.walk fid (wire p 11 4) names, fun q pre => ?_⟩
    refine (start q pre).trans ?_
    rw [if_neg many, value q pre]
    rfl
  · rw [none_]
    refine (start p List.prefix_rfl).trans ?_
    rw [if_neg many, value]
    rfl

theorem Tmsg.decode_open (long : 12 ≤ p.length) :
    Reads p (fun q => Tmsg.decode q fid 112) (stops p [.bytes 4, .bytes 1] H) := by
  rw [h_eq, stops_bytes (by omega), stops_bytes (by omega)]
  refine ⟨.open_ fid (wire p 11 1), fun q pre => ?_⟩
  change (get q 11).bind _ = _
  rw [get_wire pre (by omega)]
  rfl

theorem Tmsg.decode_create (long : 18 ≤ p.length) :
    Reads p (fun q => Tmsg.decode q fid 114) (stops p [.bytes 4, .text, .bytes 4, .bytes 1] H) := by
  rw [h_eq, stops_bytes (by omega), stops, Field.stop]
  rcases gstring_stop p 11 with ⟨s, e, stop, low, high, value⟩ | ⟨none_, value⟩
  · have start : ∀ q, p <+: q → Tmsg.decode q fid 114 =
        if (e : Int) ≤ 0 ∨ (e : Int) + BIT32SZ + BIT8SZ > q.length then return none else do
          let perm ← g32 q e
          let mode ← get q (e + BIT32SZ)
          return some ((e : Int) + BIT32SZ + 1, .create fid s perm mode) := by
      intro q pre
      change (gstring q (11 : Nat)).bind _ = _
      rw [value q pre, Option.bind_some]
      rfl
    have sizes : BIT32SZ = 4 ∧ BIT8SZ = 1 := ⟨rfl, rfl⟩
    rw [stop, some_then]
    by_cases room : e + 5 ≤ p.length
    · rw [stops_bytes (by omega), stops_bytes (by omega)]
      refine ⟨.create fid s (wire p e 4) (wire p (e + 4) 1), fun q pre => ?_⟩
      have length := pre.length_le
      refine (start q pre).trans ?_
      rw [if_neg (by omega), g32_wire pre (by omega), some_then, get_wire pre (by rw [sizes.1]; omega)]
      rfl
    · have beyond : stops p [.bytes 4, .bytes 1] e = none := by
        by_cases some_ : e + 4 ≤ p.length
        · rw [stops_bytes some_, stops, Field.stop, within_of_lt (by omega)]
          rfl
        · rw [stops, Field.stop, within_of_lt (by omega)]
          rfl
      rw [beyond]
      exact (start p List.prefix_rfl).trans (if_pos (by omega))
  · rw [none_]
    change (gstring p (11 : Nat)).bind _ = _
    rw [value, Option.bind_some]
    exact if_pos (Or.inl (by decide))

theorem Tmsg.decode_read (long : 23 ≤ p.length) :
    Reads p (fun q => Tmsg.decode q fid 116) (stops p [.bytes 4, .bytes 8, .bytes 4] H) := by
  rw [h_eq, stops_bytes (by omega), stops_bytes (by omega), stops_bytes (by omega)]
  obtain ⟨offset, value⟩ := g64_wire (p := p) (o := 11) (by omega)
  refine ⟨.read fid offset (wire p 19 4), fun q pre => ?_⟩
  change (g64 q 11).bind (fun _ => (g32 q 19).bind _) = _
  rw [value q pre, g32_wire pre (by omega)]
  rfl

/-- A count of four bytes, and what the code reads and tests then. -/
theorem stops_data (head : o + 4 ≤ p.length) : stops p [.data] o =
    if o + 4 + wire p o 4 ≤ p.length then some (o + 4 + wire p o 4) else none := by
  simp only [stops, Field.stop]
  rw [within_of_le head, some_then, within]
  split <;> rfl

theorem Tmsg.decode_write (long : 23 ≤ p.length) :
    Reads p (fun q => Tmsg.decode q fid 118) (stops p [.bytes 4, .bytes 8, .data] H) := by
  rw [h_eq, stops_bytes (by omega), stops_bytes (by omega), stops_data (by omega)]
  simp only [Nat.reduceAdd]
  obtain ⟨offset, value⟩ := g64_wire (p := p) (o := 11) (by omega)
  have start : ∀ q, p <+: q → Tmsg.decode q fid 118 =
      if ((wire p 19 4 : Nat) : Int) > q.length - (23 : Nat) then return none
      else return some ((23 + wire p 19 4 : Nat), .write fid offset ((q.drop 23).take (wire p 19 4))) := by
    intro q pre
    change (g64 q 11).bind (fun _ => (g32 q 19).bind _) = _
    rw [value q pre, Option.bind_some, g32_wire pre (by omega)]
    rfl
  split
  · rename_i room
    refine ⟨.write fid offset ((p.drop 23).take (wire p 19 4)), fun q pre => ?_⟩
    have length := pre.length_le
    refine (start q pre).trans ?_
    rw [if_neg (by omega), slice_prefix pre (by omega)]
    rfl
  · exact (start p List.prefix_rfl).trans (if_pos (by omega))

theorem Tmsg.decode_fid {t : Nat} (long : 11 ≤ p.length) (type : t = 120 ∨ t = 122 ∨ t = 124) :
    Reads p (fun q => Tmsg.decode q fid t) (stops p [.bytes 4] H) := by
  rw [h_eq, stops_bytes (by omega)]
  rcases type with rfl | rfl | rfl <;> exact ⟨_, fun _ _ => rfl⟩

theorem Rmsg.decode_version (long : 13 ≤ p.length) :
    Reads p (fun q => Rmsg.decode q 101) (stops p [.bytes 4, .text] H) := by
  rw [h_eq, stops_bytes (by omega)]
  simp only [stops, Field.stop]
  rcases gstring_stop p 11 with ⟨s, e, stop, low, -, value⟩ | ⟨none_, value⟩
  · rw [stop]
    refine ⟨.version (wire p 7 4) s, fun q pre => ?_⟩
    change (g32 q 7).bind (fun _ => (gstring q (11 : Nat)).bind _) = _
    rw [g32_wire pre (by omega), Option.bind_some, value q pre, Option.bind_some]
    exact if_neg (by omega)
  · rw [none_]
    change (g32 p 7).bind (fun _ => (gstring p (11 : Nat)).bind _) = _
    rw [g32_wire List.prefix_rfl (by omega), Option.bind_some, value, Option.bind_some]
    exact if_pos (by omega)

theorem Rmsg.decode_error : Reads p (fun q => Rmsg.decode q 107) (stops p [.text] H) := by
  simp only [stops, Field.stop]
  rcases gstring_stop p 7 with ⟨s, e, stop, low, -, value⟩ | ⟨none_, value⟩
  · rw [h_eq, stop]
    refine ⟨.error s, fun q pre => ?_⟩
    change (gstring q (7 : Nat)).bind _ = _
    rw [value q pre, Option.bind_some]
    exact if_neg (by omega)
  · rw [h_eq, none_]
    change (gstring p (7 : Nat)).bind _ = _
    rw [value, Option.bind_some]
    exact if_pos (by omega)

theorem Rmsg.decode_qid {t : Nat} (long : 20 ≤ p.length) (type : t = 103 ∨ t = 105) :
    Reads p (fun q => Rmsg.decode q t) (stops p [.bytes 13] H) := by
  rw [h_eq, stops_bytes (by omega)]
  obtain ⟨qid, value⟩ := gqid_wire (p := p) (o := 7) (by omega)
  rcases type with rfl | rfl
  · refine ⟨.auth qid, fun q pre => ?_⟩
    change (gqid q 7).bind _ = _
    rw [value q pre]
    rfl
  · refine ⟨.attach qid, fun q pre => ?_⟩
    change (gqid q 7).bind _ = _
    rw [value q pre]
    rfl

theorem Rmsg.decode_opened {t : Nat} (long : 24 ≤ p.length) (type : t = 113 ∨ t = 115) :
    Reads p (fun q => Rmsg.decode q t) (stops p [.bytes 13, .bytes 4] H) := by
  rw [h_eq, stops_bytes (by omega), stops_bytes (by omega)]
  obtain ⟨qid, value⟩ := gqid_wire (p := p) (o := 7) (by omega)
  rcases type with rfl | rfl
  · refine ⟨.open_ qid (wire p 20 4), fun q pre => ?_⟩
    change (gqid q 7).bind (fun _ => (g32 q 20).bind _) = _
    rw [value q pre, Option.bind_some, g32_wire pre (by omega)]
    rfl
  · refine ⟨.create qid (wire p 20 4), fun q pre => ?_⟩
    change (gqid q 7).bind (fun _ => (g32 q 20).bind _) = _
    rw [value q pre, Option.bind_some, g32_wire pre (by omega)]
    rfl

theorem Rmsg.decode_walk (long : 9 ≤ p.length) : Reads p (fun q => Rmsg.decode q 111) (stops p [.qids] H) := by
  rw [h_eq]
  simp only [stops, Field.stop]
  rw [within_of_le (by omega), some_then]
  have start : ∀ q, p <+: q → Rmsg.decode q 111 = if q.length < 9 + wire p 7 2 * 13 then return none else do
      let r ← gqids q (wire p 7 2) 9
      return some ((r.2 : Int), .walk r.1) := by
    intro q pre
    change (g16 q 7).bind _ = _
    rw [g16_wire pre (by omega)]
    rfl
  by_cases room : 9 + wire p 7 2 * 13 ≤ p.length
  · rw [within_of_le room]
    obtain ⟨qids, value⟩ := gqids_wire (wire p 7 2) 9 room
    refine ⟨.walk qids, fun q pre => ?_⟩
    have length := pre.length_le
    refine (start q pre).trans ?_
    rw [if_neg (by omega), value q pre]
    rfl
  · rw [within_of_lt (by omega)]
    exact (start p List.prefix_rfl).trans (if_pos (by omega))

theorem Rmsg.decode_read (long : 11 ≤ p.length) : Reads p (fun q => Rmsg.decode q 117) (stops p [.data] H) := by
  rw [h_eq, stops_data (by omega)]
  simp only [Nat.reduceAdd]
  have start : ∀ q, p <+: q → Rmsg.decode q 117 = if q.length < 11 + wire p 7 4 then return none
      else return some ((11 + wire p 7 4 : Nat), .read ((q.drop 11).take (wire p 7 4))) := by
    intro q pre
    change (g32 q 7).bind _ = _
    rw [g32_wire pre (by omega)]
    rfl
  split
  · refine ⟨.read ((p.drop 11).take (wire p 7 4)), fun q pre => ?_⟩
    have length := pre.length_le
    refine (start q pre).trans ?_
    rw [if_neg (by omega), slice_prefix pre (by omega)]
    rfl
  · exact (start p List.prefix_rfl).trans (if_pos (by omega))

theorem Rmsg.decode_write (long : 11 ≤ p.length) : Reads p (fun q => Rmsg.decode q 119) (stops p [.bytes 4] H) := by
  rw [h_eq, stops_bytes (by omega)]
  refine ⟨.write (wire p 7 4), fun q pre => ?_⟩
  change (g32 q 7).bind _ = _
  rw [g32_wire pre (by omega)]
  rfl

theorem Rmsg.decode_bare {t : Nat} (type : t = 109 ∨ t = 121 ∨ t = 123 ∨ t = 127) :
    Reads p (fun q => Rmsg.decode q t) (stops p [] H) := by
  rcases type with rfl | rfl | rfl | rfl <;> exact ⟨_, fun _ _ => rfl⟩

theorem drop_front {q : List UInt8} (pre : p <+: q) (inside : o ≤ p.length) : p.drop o <+: q.drop o := by
  obtain ⟨rest, rfl⟩ := pre
  rw [List.drop_append_of_le_length inside]
  exact List.prefix_append _ _

theorem Rmsg.decode_stat (long : 9 ≤ p.length) : Reads p (fun q => Rmsg.decode q 125) (stops p [.entry] H) := by
  rw [h_eq]
  simp only [stops, Field.stop, Nat.reduceAdd]
  rw [within_of_le (by omega), some_then]
  have start : ∀ q, p <+: q → Rmsg.decode q 125 = if q.length < 9 + wire p 7 2 then return none else do
      let r ← unpackdir (q.drop 9)
      if r.1 ≤ 0 then return none
      if r.1 ≠ wire p 7 2 then return none
      return some ((9 + wire p 7 2 : Nat), .stat r.2) := by
    intro q pre
    change (g16 q 7).bind _ = _
    rw [g16_wire pre (by omega)]
    rfl
  have rest := List.length_drop (i := 9) (l := p)
  rcases unpackdir_stop (p.drop 9) with ⟨positive, room, d, value⟩ | ⟨zero, d, value⟩
  · by_cases same : entrySize (p.drop 9) = wire p 7 2
    · rw [if_pos ⟨by omega, same⟩]
      refine ⟨.stat d, fun q pre => ?_⟩
      have length := pre.length_le
      refine (start q pre).trans ?_
      rw [if_neg (by omega), value _ (drop_front pre (by omega)), some_then]
      dsimp only
      rw [if_neg (by omega), if_neg (fun other => other same)]
      rfl
    · rw [if_neg (fun both => same both.2)]
      refine (start p List.prefix_rfl).trans ?_
      by_cases short : p.length < 9 + wire p 7 2
      · exact if_pos short
      rw [if_neg short, value _ List.prefix_rfl, some_then]
      dsimp only
      rw [if_neg (by omega)]
      exact if_pos same
  · rw [if_neg (by omega)]
    refine (start p List.prefix_rfl).trans ?_
    by_cases short : p.length < 9 + wire p 7 2
    · exact if_pos short
    rw [if_neg short, value, some_then]
    rfl

theorem stops_entry (head : o + 2 ≤ p.length) : stops p [.entry] o =
    if 0 < wire p o 2 ∧ entrySize (p.drop (o + 2)) = wire p o 2 then some (o + 2 + wire p o 2) else none := by
  simp only [stops, Field.stop]
  rw [within_of_le head, some_then]
  split <;> rfl

/-- The count that the code takes for a `Twstat` is only the low byte of it. -/
theorem Tmsg.decode_wstat (fid : Nat) (long : 13 ≤ p.length) :
    if entrySize (p.drop 13) = wire p 11 2 % 256 then
      ∃ x, Tmsg.decode p fid 126 = some (some (((13 + wire p 11 2 % 256 : Nat) : Int), x)) ∧
        (0 < wire p 11 2 % 256 → ∀ q, p <+: q → Tmsg.decode q fid 126 = Tmsg.decode p fid 126)
    else Tmsg.decode p fid 126 = some none := by
  have low : wire p 11 1 = wire p 11 2 % 256 := by
    have byte := wire_lt p 11 1
    simp only [wire] at byte ⊢
    omega
  have start : ∀ q, p <+: q → Tmsg.decode q fid 126 = if q.length < 13 + wire p 11 2 % 256 then return none else do
      let r ← unpackdir (q.drop 13)
      if r.1 ≠ wire p 11 2 % 256 then return none
      return some ((13 + wire p 11 2 % 256 : Nat), .wstat fid r.2) := by
    intro q pre
    change (get q 12).bind (fun _ => (get q 11).bind _) = _
    rw [get_wire pre (by omega), Option.bind_some, get_wire pre (by omega), Option.bind_some, Nat.shiftLeft_eq,
      Nat.mul_mod_left, Nat.zero_or, low]
    rfl
  have self := start p List.prefix_rfl
  have rest := List.length_drop (i := 13) (l := p)
  rcases unpackdir_stop (p.drop 13) with ⟨positive, room, d, value⟩ | ⟨zero, d, value⟩
  · split
    · rename_i same
      have all : ∀ q, p <+: q →
          Tmsg.decode q fid 126 = some (some (((13 + wire p 11 2 % 256 : Nat) : Int), .wstat fid d)) := by
        intro q pre
        have length := pre.length_le
        rw [start q pre, if_neg (by omega), value _ (drop_front pre long), some_then]
        exact if_neg (fun other => other same)
      exact ⟨_, all p List.prefix_rfl, fun _ q pre => (all q pre).trans (all p List.prefix_rfl).symm⟩
    · rename_i other
      rw [self]
      by_cases short : p.length < 13 + wire p 11 2 % 256
      · exact if_pos short
      rw [if_neg short, value _ List.prefix_rfl, some_then]
      exact if_pos other
  · rw [zero]
    split
    · rename_i same
      refine ⟨.wstat fid d, ?_, fun positive => by omega⟩
      rw [self, if_neg (by omega), value, some_then]
      exact if_neg (fun other => other same)
    · rename_i other
      rw [self]
      by_cases short : p.length < 13 + wire p 11 2 % 256
      · exact if_pos short
      rw [if_neg short, value, some_then]
      exact if_pos other

end Decode

section Total

variable {α β : Type} {f p q r : List UInt8} {o e n t parity : Nat} {parts : List Field}

theorem within_some (value : within p o = some e) : e = o ∧ e ≤ p.length := by
  unfold within at value
  split at value
  · obtain rfl := Option.some.inj value
    exact ⟨rfl, ‹_›⟩
  · exact nomatch value

theorem textStop_some (value : textStop p o = some e) : o + 2 ≤ e ∧ e ≤ p.length ∧ e = o + 2 + wire p o 2 := by
  obtain ⟨a, first, second⟩ := Option.bind_eq_some_iff.mp value
  obtain ⟨rfl, -⟩ := within_some first
  obtain ⟨rfl, inside⟩ := within_some second
  exact ⟨by omega, inside, rfl⟩

theorem textStop_prefix (pre : r <+: p) (value : textStop p o = some e) (inside : e ≤ r.length) : textStop r o = some e := by
  obtain ⟨low, -, place⟩ := textStop_some value
  unfold textStop
  rw [within_of_le (by omega), some_then, ← wire_front pre (by omega), ← place, within_of_le inside]

theorem textsStop_some (value : textsStop p n o = some e) (start : o ≤ p.length) : o + 2 * n ≤ e ∧ e ≤ p.length := by
  induction n generalizing o with
  | zero =>
    obtain rfl := Option.some.inj value
    exact ⟨le_rfl, start⟩
  | succ n ih =>
    obtain ⟨a, first, second⟩ := Option.bind_eq_some_iff.mp value
    obtain ⟨low, high, -⟩ := textStop_some first
    have rest := ih second high
    omega

theorem textsStop_prefix (pre : r <+: p) (value : textsStop p n o = some e) (inside : e ≤ r.length) :
    textsStop r n o = some e := by
  induction n generalizing o with
  | zero => exact value
  | succ n ih =>
    obtain ⟨a, first, second⟩ := Option.bind_eq_some_iff.mp value
    have high := (textsStop_some second (textStop_some first).2.1).1
    rw [textsStop, textStop_prefix pre first (by omega), some_then]
    exact ih second

theorem entrySize_pos (positive : 0 < entrySize p) :
    49 ≤ entrySize p ∧ entrySize p ≤ p.length ∧ entrySize p = wire p 0 2 + 2 ∧ textsStop p 4 41 = some (entrySize p) := by
  unfold entrySize at positive ⊢
  dsimp only at positive ⊢
  split at positive
  · rename_i both
    rw [if_pos both]
    have low := (textsStop_some both.2.2 (by omega)).1
    exact ⟨low, both.2.1, rfl, both.2.2⟩
  · exact absurd positive (Nat.lt_irrefl 0)

theorem entrySize_front (pre : r <+: p) (positive : 0 < entrySize p) (inside : entrySize p ≤ r.length) :
    entrySize r = entrySize p := by
  obtain ⟨low, -, size, texts⟩ := entrySize_pos positive
  have same := wire_front (o := 0) (k := 2) pre (by omega)
  have texts' := textsStop_prefix pre texts inside
  rw [size] at texts' low inside ⊢
  unfold entrySize
  rw [← same]
  exact if_pos ⟨by omega, inside, texts'⟩

/-- The fewest bytes of a part. -/
def Field.least : Field → Nat
  | bytes k => k
  | data => 4
  | _ => 2

theorem Field.stop_some {x : Field} (value : x.stop p o = some e) : o + x.least ≤ e ∧ e ≤ p.length := by
  cases x with
  | bytes k =>
    obtain ⟨rfl, inside⟩ := within_some value
    exact ⟨le_rfl, inside⟩
  | text => exact ⟨(textStop_some value).1, (textStop_some value).2.1⟩
  | names =>
    obtain ⟨a, first, second⟩ := Option.bind_eq_some_iff.mp value
    obtain ⟨rfl, inside⟩ := within_some first
    split at second
    · have bounds := textsStop_some second inside
      exact ⟨by change o + 2 ≤ e; omega, bounds.2⟩
    · exact nomatch second
  | qids =>
    obtain ⟨a, first, second⟩ := Option.bind_eq_some_iff.mp value
    obtain ⟨rfl, -⟩ := within_some first
    obtain ⟨rfl, inside⟩ := within_some second
    exact ⟨by change o + 2 ≤ _; omega, inside⟩
  | data =>
    obtain ⟨a, first, second⟩ := Option.bind_eq_some_iff.mp value
    obtain ⟨rfl, -⟩ := within_some first
    obtain ⟨rfl, inside⟩ := within_some second
    exact ⟨by change o + 4 ≤ _; omega, inside⟩
  | entry =>
    obtain ⟨a, first, second⟩ := Option.bind_eq_some_iff.mp value
    obtain ⟨rfl, head⟩ := within_some first
    split at second
    · rename_i both
      obtain rfl := Option.some.inj second
      have size := (entrySize_pos (p := p.drop (o + 2)) (by omega)).2.1
      rw [List.length_drop] at size
      exact ⟨by change o + 2 ≤ _; omega, by omega⟩
    · exact nomatch second

theorem stops_some (value : stops p parts o = some e) (start : o ≤ p.length) :
    o + (parts.map Field.least).sum ≤ e ∧ e ≤ p.length := by
  induction parts generalizing o with
  | nil =>
    obtain rfl := Option.some.inj value
    exact ⟨le_rfl, start⟩
  | cons x xs ih =>
    obtain ⟨a, first, second⟩ := Option.bind_eq_some_iff.mp value
    obtain ⟨low, high⟩ := Field.stop_some first
    have rest := ih second high
    rw [List.map_cons, List.sum_cons]
    omega

/-- A part is where it is by the bytes before its end alone. -/
theorem Field.stop_prefix {x : Field} (pre : r <+: p) (value : x.stop p o = some e) (inside : e ≤ r.length) :
    x.stop r o = some e := by
  cases x with
  | bytes k =>
    obtain ⟨rfl, -⟩ := within_some value
    exact within_of_le inside
  | text => exact textStop_prefix pre value inside
  | names =>
    obtain ⟨a, first, second⟩ := Option.bind_eq_some_iff.mp value
    obtain ⟨rfl, start⟩ := within_some first
    split at second
    · rename_i few
      have low := (textsStop_some second start).1
      simp only [Field.stop]
      rw [within_of_le (by omega), some_then, ← wire_front pre (by omega), if_pos few]
      exact textsStop_prefix pre second inside
    · exact nomatch second
  | qids =>
    obtain ⟨a, first, second⟩ := Option.bind_eq_some_iff.mp value
    obtain ⟨rfl, -⟩ := within_some first
    obtain ⟨rfl, -⟩ := within_some second
    simp only [Field.stop]
    rw [within_of_le (by omega), some_then, ← wire_front pre (by omega), within_of_le inside]
  | data =>
    obtain ⟨a, first, second⟩ := Option.bind_eq_some_iff.mp value
    obtain ⟨rfl, -⟩ := within_some first
    obtain ⟨rfl, -⟩ := within_some second
    simp only [Field.stop]
    rw [within_of_le (by omega), some_then, ← wire_front pre (by omega), within_of_le inside]
  | entry =>
    obtain ⟨a, first, second⟩ := Option.bind_eq_some_iff.mp value
    obtain ⟨rfl, head⟩ := within_some first
    split at second
    · rename_i both
      obtain rfl := Option.some.inj second
      simp only [Field.stop]
      rw [within_of_le (by omega), some_then, ← wire_front pre (by omega)]
      have rest := List.length_drop (i := o + 2) (l := r)
      rw [entrySize_front (drop_front pre (by omega)) (by omega) (by omega), if_pos both]
    · exact nomatch second

theorem stops_front (pre : r <+: p) (value : stops p parts o = some e) (inside : e ≤ r.length) : stops r parts o = some e := by
  induction parts generalizing o with
  | nil => exact value
  | cons x xs ih =>
    obtain ⟨a, first, second⟩ := Option.bind_eq_some_iff.mp value
    have low := (stops_some second (Field.stop_some first).2).1
    rw [stops, Field.stop_prefix pre first (by omega), some_then]
    exact ih second

theorem Tmsg.layout_least (known : Tmsg.layout t = some parts) :
    hdrlen t = H + (parts.map Field.least).sum ∧ t % 2 = 0 ∧ t < 128 := by
  unfold Tmsg.layout at known
  split at known
  all_goals first | (obtain rfl := Option.some.inj known; decide) | exact nomatch known

theorem Rmsg.layout_least (known : Rmsg.layout t = some parts) :
    hdrlen t = H + (parts.map Field.least).sum ∧ t % 2 = 1 ∧ t < 128 := by
  unfold Rmsg.layout at known
  split at known
  all_goals first | (obtain rfl := Option.some.inj known; decide) | exact nomatch known

theorem hdrlen_known (listed : hdrlen t ≠ 0) : Tmsg.layout t ≠ none ∧ t % 2 = 0 ∨ Rmsg.layout t ≠ none ∧ t % 2 = 1 := by
  unfold hdrlen at listed
  split at listed
  all_goals first | decide | exact absurd rfl listed

theorem declared_eq (f : List UInt8) : wire f 0 2 ||| wire f 2 2 <<< 16 = declared f := by
  have low := wire_lt f 0 2
  rw [Nat.or_comm, ← Nat.shiftLeft_add_eq_or_of_lt (i := 16) low, Nat.shiftLeft_eq]
  simp only [declared, wire, Nat.zero_add, Nat.reduceAdd]
  omega

theorem unpackhdr_less (short : f.length < H ∨ f.length < declared f) : unpackhdr f parity = some (.inl 0) := by
  unfold unpackhdr
  by_cases head : f.length < H
  · exact if_pos head
  have h : H = 7 := rfl
  rw [if_neg head, g16_wire List.prefix_rfl (by omega), some_then, g16_wire List.prefix_rfl (by omega), some_then]
  dsimp only
  rw [declared_eq, if_pos (by omega)]
  rfl

theorem unpackhdr_whole (long : H ≤ f.length) (whole : declared f ≤ f.length) : unpackhdr f parity = do
    let mtype ← get (f.take (declared f)) 4
    if mtype ≥ 128 ∨ mtype % 2 ≠ parity ∨ declared f < hdrlen mtype then return .inl (-1)
    let tag ← g16 (f.take (declared f)) 5
    return .inr (f.take (declared f), mtype, tag) := by
  have h : H = 7 := rfl
  have cut : (if f.length ≠ declared f then f.take (declared f) else f) = f.take (declared f) := by
    split
    · rfl
    · exact (List.take_of_length_le (by omega)).symm
  unfold unpackhdr
  rw [if_neg (by omega), g16_wire List.prefix_rfl (by omega), some_then, g16_wire List.prefix_rfl (by omega), some_then]
  dsimp only
  rw [declared_eq, if_neg (by omega), cut]

/-- The array holds a message, and the whole of it. -/
def Whole (f : List UInt8) : Prop := H ≤ f.length ∧ declared f ≤ f.length

/-- That a whole message has its header, or at least the byte of its type, and that one no type. -/
def HeaderOK (parity : Nat) (f : List UInt8) : Prop :=
  Whole f → H ≤ declared f ∨ 5 ≤ declared f ∧ (kind f ≥ 128 ∨ kind f % 2 ≠ parity ∨ hdrlen (kind f) ≠ 0)

/-- That a `Twstat`'s count has one byte, or that no entry of either size follows it. -/
def WstatOK (f : List UInt8) : Prop :=
  Whole f → kind f = 126 → 13 ≤ declared f →
    0 < wire f 11 2 ∧ wire f 11 2 < 256 ∨
      entrySize ((f.take (declared f)).drop 13) ≠ wire f 11 2 % 256 ∧ entrySize ((f.take (declared f)).drop 13) ≠ wire f 11 2

/-- What an `unpack` of messages is to do. -/
def Decodes (layout : Nat → Option (List Field)) (unpack : List UInt8 → Option (Int × Option β)) (f : List UInt8) : Prop :=
  (¬Whole f → unpack f = some (0, none)) ∧
    (Whole f → ¬WellFormed layout (f.take (declared f)) → unpack f = some (-1, none)) ∧
    (Whole f → WellFormed layout (f.take (declared f)) →
      ∃ (n : Nat) (m : β), unpack f = some ((n : Int), some m) ∧ n ≤ declared f ∧
        ∀ g, g.take n = f.take n → declared f ≤ g.length → unpack g = unpack f)

/-- Both `unpack`s, by what they do with a message of their own type. -/
def unpackBy (parity : Nat) (decode : List UInt8 → Nat → Option (Option (Int × α))) (make : Nat → α → β) (f : List UInt8) :
    Option (Int × Option β) := do
  match ← unpackhdr f parity with
  | .inl r => return (r, none)
  | .inr (f, t, tag) =>
    match ← decode f t with
    | none => return (-1, none)
    | some (n, x) => return (n, some (make tag x))

theorem Rmsg.unpack_by : Rmsg.unpack = unpackBy 1 Rmsg.decode (fun tag rep => ⟨tag, rep⟩) := by
  funext f
  unfold Rmsg.unpack unpackBy
  rcases unpackhdr f 1 with _ | r | ⟨f, t, tag⟩
  · rfl
  · rfl
  · rw [some_then, some_then]
    dsimp only
    rcases Rmsg.decode f t with _ | _ | ⟨n, rep⟩ <;> rfl

/-- `Tmsg.decode`, with the fid that is read before it. -/
def Tmsg.decodeFid (f : List UInt8) (t : Nat) : Option (Option (Int × Treq)) := do
  let fid ← if hdrlen t ≥ H + FID then g32 f H else some 0
  Tmsg.decode f fid t

theorem Tmsg.unpack_by : Tmsg.unpack = unpackBy 0 Tmsg.decodeFid (fun tag req => ⟨tag, req⟩) := by
  funext f
  unfold Tmsg.unpack unpackBy
  rcases unpackhdr f 0 with _ | r | ⟨f, t, tag⟩
  · rfl
  · rfl
  · rw [some_then, some_then]
    unfold Tmsg.decodeFid
    dsimp only
    split
    · rcases g32 f H with _ | fid
      · rfl
      · rw [some_then, some_then]
        rcases Tmsg.decode f fid t with _ | _ | ⟨n, req⟩ <;> rfl
    · rw [some_then, some_then]
      rcases Tmsg.decode f 0 t with _ | _ | ⟨n, req⟩ <;> rfl

variable {decode : List UInt8 → Nat → Option (Option (Int × α))} {make : Nat → α → β}

theorem length_cut (whole : Whole f) : (f.take (declared f)).length = declared f := by
  have le := whole.2
  rw [List.length_take]
  omega

theorem wire_cut (n : Nat) (inside : o + n ≤ e) (le : e ≤ f.length) : wire (f.take e) o n = wire f o n :=
  (wire_front (f.take_prefix e) (by rw [List.length_take]; omega)).symm

theorem unpackBy_bad (whole : Whole f) (five : 5 ≤ declared f)
    (bad : kind f ≥ 128 ∨ kind f % 2 ≠ parity ∨ declared f < hdrlen (kind f)) :
    unpackBy parity decode make f = some (-1, none) := by
  have length := length_cut whole
  unfold unpackBy
  rw [unpackhdr_whole whole.1 whole.2, get_wire List.prefix_rfl (by omega), some_then, wire_cut 1 five whole.2]
  rw [show wire f 4 1 = kind f from rfl, if_pos bad]
  rfl

theorem unpackBy_good (decode : List UInt8 → Nat → Option (Option (Int × α))) (make : Nat → α → β)
    (whole : Whole f) (head : H ≤ declared f)
    (good : ¬(kind f ≥ 128 ∨ kind f % 2 ≠ parity ∨ declared f < hdrlen (kind f))) :
    unpackBy parity decode make f = (decode (f.take (declared f)) (kind f)).bind fun
      | none => some (-1, none)
      | some (n, x) => some (n, some (make (wire f 5 2) x)) := by
  have h : H = 7 := rfl
  have length := length_cut whole
  unfold unpackBy
  rw [unpackhdr_whole whole.1 whole.2, get_wire List.prefix_rfl (by omega), some_then, wire_cut 1 (by omega) whole.2]
  rw [show wire f 4 1 = kind f from rfl, if_neg good, g16_wire List.prefix_rfl (by omega), some_then,
    wire_cut 2 (by omega) whole.2]
  change ((decode (f.take (declared f)) (kind f)).bind _) = _
  rcases decode (f.take (declared f)) (kind f) with _ | _ | ⟨n, x⟩ <;> rfl

theorem hdrlen_least (listed : hdrlen t ≠ 0) : H ≤ hdrlen t := by
  rcases hdrlen_known listed with ⟨known, -⟩ | ⟨known, -⟩
  · obtain ⟨parts, value⟩ := Option.ne_none_iff_exists'.mp known
    exact (Tmsg.layout_least value).1 ▸ Nat.le_add_right _ _
  · obtain ⟨parts, value⟩ := Option.ne_none_iff_exists'.mp known
    exact (Rmsg.layout_least value).1 ▸ Nat.le_add_right _ _

/-- The type byte, or the tag, is read beyond the declared size. -/
theorem unpackBy_raises (decode : List UInt8 → Nat → Option (Option (Int × α))) (make : Nat → α → β)
    (raises : ¬HeaderOK parity f) : unpackBy parity decode make f = none := by
  have h : H = 7 := rfl
  obtain ⟨whole, wrong⟩ := Classical.not_imp.mp raises
  obtain ⟨small, other⟩ := not_or.mp wrong
  have length := length_cut whole
  unfold unpackBy
  rw [unpackhdr_whole whole.1 whole.2]
  by_cases five : 5 ≤ declared f
  · obtain ⟨low, rest⟩ := not_or.mp (fun bad => other ⟨five, bad⟩)
    obtain ⟨same, listed⟩ := not_or.mp rest
    rw [get_wire List.prefix_rfl (by omega), some_then, wire_cut 1 five whole.2]
    rw [show wire f 4 1 = kind f from rfl, if_neg (by omega)]
    have beyond : get (f.take (declared f)) 6 = none := by
      unfold get
      rw [List.getElem?_eq_none (by omega)]
      rfl
    unfold g16
    rw [beyond]
    rfl
  · have beyond : get (f.take (declared f)) 4 = none := by
      unfold get
      rw [List.getElem?_eq_none (by omega)]
      rfl
    rw [beyond]
    rfl

/-- The reader of the type `t`, on the message `p` and on what of it the parts take. -/
def ReadsAll (p : List UInt8) (parts : List Field) (F : List UInt8 → Option (Option (Int × α))) : Prop :=
  ∀ r, r <+: p → (r = p ∨ ∃ e, stops p parts H = some e ∧ e ≤ r.length) → Reads r F (stops r parts H)

theorem decodes_of {layout : Nat → Option (List Field)} (ok : HeaderOK parity f)
    (least : ∀ t parts, layout t = some parts → hdrlen t = H + (parts.map Field.least).sum ∧ t % 2 = parity ∧ t < 128)
    (unknown : ∀ t p, layout t = none → t % 2 = parity → decode p t = some none)
    (reads : Whole f → ∀ parts, layout (kind f) = some parts → hdrlen (kind f) ≤ declared f →
      ReadsAll (f.take (declared f)) parts (fun q => decode q (kind f))) :
    Decodes layout (unpackBy parity decode make) f := by
  have h : H = 7 := rfl
  refine ⟨fun part => ?_, fun whole bad => ?_, fun whole formed => ?_⟩
  · have less : f.length < H ∨ f.length < declared f := by
      by_cases long : H ≤ f.length
      · exact Or.inr (Nat.not_le.mp fun le => part ⟨long, le⟩)
      · exact Or.inl (Nat.not_le.mp long)
    unfold unpackBy
    rw [unpackhdr_less less]
    rfl
  · by_cases wrong : kind f ≥ 128 ∨ kind f % 2 ≠ parity ∨ declared f < hdrlen (kind f)
    · exact unpackBy_bad whole (by have := ok whole; omega) wrong
    have head : H ≤ declared f := by
      rcases ok whole with head | ⟨five, high | other | listed⟩
      · exact head
      · exact absurd (Or.inl high) wrong
      · exact absurd (Or.inr (Or.inl other)) wrong
      · have := hdrlen_least listed
        omega
    rw [unpackBy_good decode make whole head wrong]
    cases known : layout (kind f) with
    | none =>
      rw [unknown _ _ known (by omega)]
      rfl
    | some parts =>
      have read := reads whole parts known (by omega) _ List.prefix_rfl (Or.inl rfl)
      cases stop : stops (f.take (declared f)) parts H with
      | none =>
        rw [stop] at read
        rw [show decode _ (kind f) = _ from read]
        rfl
      | some e =>
        refine absurd ⟨by rw [length_cut whole]; exact head, parts, e, ?_, stop⟩ bad
        unfold kind at known ⊢
        rw [wire_cut 1 (by omega) whole.2, known]
  · obtain ⟨head, parts, e, known, stop⟩ := formed
    rw [length_cut whole] at head
    have same : kind (f.take (declared f)) = kind f := wire_cut 1 (by omega) whole.2
    rw [same] at known
    obtain ⟨size, parity_, below⟩ := least _ _ known
    obtain ⟨low, high⟩ := stops_some stop (by rw [length_cut whole]; omega)
    rw [length_cut whole] at high
    have good : ¬(kind f ≥ 128 ∨ kind f % 2 ≠ parity ∨ declared f < hdrlen (kind f)) := by omega
    have all := reads whole parts known (by omega)
    -- the message ends at `e`, and what is read lies before it
    have cut : f.take e <+: f.take (declared f) := List.take_prefix_take_left high
    have long : (f.take e).length = e := by
      have := whole.2
      rw [List.length_take]
      omega
    have read := all _ cut (Or.inr ⟨e, stop, long.ge⟩)
    rw [stops_front cut stop long.ge] at read
    obtain ⟨x, value⟩ := read
    refine ⟨e, make (wire f 5 2) x, ?_, high, fun g agree room => ?_⟩
    · rw [unpackBy_good decode make whole head good, show decode _ _ = _ from value _ cut]
      rfl
    · have pre : f.take e <+: g := by
        rw [← agree]
        exact g.take_prefix e
      have bytes : ∀ o n, o + n ≤ e → wire g o n = wire f o n := fun o n inside => by
        rw [wire_front pre (by omega), wire_cut n inside (by have := whole.2; omega)]
      have size' : declared g = declared f := bytes 0 4 (by omega)
      have kind' : kind g = kind f := bytes 4 1 (by omega)
      have whole' : Whole g := ⟨by have := whole.1; omega, by omega⟩
      have cut' : f.take e <+: g.take (declared g) := by
        rw [← agree, size']
        exact List.take_prefix_take_left high
      rw [unpackBy_good decode make whole' (by omega) (by rw [size', kind']; exact good), unpackBy_good decode make whole head good, kind',
        show decode _ _ = _ from value _ cut', show decode _ _ = _ from value _ cut, bytes 5 2 (by omega)]

theorem Rmsg.decode_unknown (t : Nat) (p : List UInt8) (unknown : Rmsg.layout t = none) : Rmsg.decode p t = some none := by
  unfold Rmsg.layout at unknown
  split at unknown
  all_goals first | exact absurd unknown (Option.some_ne_none _) | skip
  unfold Rmsg.decode
  split <;> first | contradiction | rfl

theorem Tmsg.decode_unknown (t fid : Nat) (p : List UInt8) (unknown : Tmsg.layout t = none) :
    Tmsg.decode p fid t = some none := by
  unfold Tmsg.layout at unknown
  split at unknown
  all_goals first | exact absurd unknown (Option.some_ne_none _) | skip
  unfold Tmsg.decode
  split <;> first | contradiction | rfl

theorem Rmsg.decode_reads (known : Rmsg.layout t = some parts) (long : hdrlen t ≤ r.length) :
    Reads r (fun q => Rmsg.decode q t) (stops r parts H) := by
  unfold Rmsg.layout at known
  split at known
  all_goals first | obtain rfl := Option.some.inj known | exact absurd known (Option.some_ne_none _).symm
  · exact Rmsg.decode_version long
  · exact Rmsg.decode_qid long (by decide)
  · exact Rmsg.decode_qid long (by decide)
  · exact Rmsg.decode_error
  · exact Rmsg.decode_bare (by decide)
  · exact Rmsg.decode_walk long
  · exact Rmsg.decode_opened long (by decide)
  · exact Rmsg.decode_opened long (by decide)
  · exact Rmsg.decode_read long
  · exact Rmsg.decode_write long
  · exact Rmsg.decode_bare (by decide)
  · exact Rmsg.decode_bare (by decide)
  · exact Rmsg.decode_stat long
  · exact Rmsg.decode_bare (by decide)

/-- Of the requests, all but a `Twstat`. -/
theorem Tmsg.decode_reads (known : Tmsg.layout t = some parts) (other : t ≠ 126) (long : hdrlen t ≤ r.length) (fid : Nat) :
    Reads r (fun q => Tmsg.decode q fid t) (stops r parts H) := by
  unfold Tmsg.layout at known
  split at known
  all_goals first | obtain rfl := Option.some.inj known | exact absurd known (Option.some_ne_none _).symm
  · exact Tmsg.decode_version long
  · exact Tmsg.decode_auth long
  · exact Tmsg.decode_attach long
  · exact Tmsg.decode_flush long
  · exact Tmsg.decode_walk long
  · exact Tmsg.decode_open long
  · exact Tmsg.decode_create long
  · exact Tmsg.decode_read long
  · exact Tmsg.decode_write long
  · exact Tmsg.decode_fid long (by decide)
  · exact Tmsg.decode_fid long (by decide)
  · exact Tmsg.decode_fid long (by decide)
  · exact absurd rfl other

theorem stops_wstat (long : 13 ≤ r.length) : stops r [.bytes 4, .entry] H =
    if 0 < wire r 11 2 ∧ entrySize (r.drop 13) = wire r 11 2 then some (13 + wire r 11 2) else none := by
  rw [h_eq, stops_bytes (by omega), stops_entry (by omega)]

/-- A `Twstat`, where its count is no more than a byte, or nothing is an entry of its size. -/
theorem Tmsg.decode_reads_wstat (long : 13 ≤ r.length) (fid : Nat)
    (ok : 0 < wire r 11 2 ∧ wire r 11 2 < 256 ∨
      entrySize (r.drop 13) ≠ wire r 11 2 % 256 ∧ entrySize (r.drop 13) ≠ wire r 11 2) :
    Reads r (fun q => Tmsg.decode q fid 126) (stops r [.bytes 4, .entry] H) := by
  have code := Tmsg.decode_wstat fid long
  rw [stops_wstat long]
  by_cases same : entrySize (r.drop 13) = wire r 11 2 % 256
  · rw [if_pos same] at code
    obtain ⟨x, value, all⟩ := code
    have count : wire r 11 2 % 256 = wire r 11 2 := by omega
    rw [if_pos (by omega)]
    refine ⟨x, fun q pre => ?_⟩
    refine (all (by omega) q pre).trans ?_
    rw [value, count]
  · rw [if_neg same] at code
    rw [if_neg (by omega)]
    exact code

theorem decodeFid_eq {fid : Nat} (value : (if hdrlen t ≥ H + FID then g32 p H else some 0) = some fid) :
    Tmsg.decodeFid p t = Tmsg.decode p fid t := by
  unfold Tmsg.decodeFid
  split at value
  · rename_i wide
    rw [if_pos wide, value, some_then]
  · rename_i narrow
    obtain rfl := Option.some.inj value
    exact if_neg narrow

theorem decodeFid_reads {stop : Option Nat} (long : hdrlen t ≤ p.length)
    (reads : ∀ fid, Reads p (fun q => Tmsg.decode q fid t) stop) : Reads p (fun q => Tmsg.decodeFid q t) stop := by
  have fid : ∃ fid, ∀ q, p <+: q → (if hdrlen t ≥ H + FID then g32 q H else some 0) = some fid := by
    by_cases wide : hdrlen t ≥ H + FID
    · have sizes : H = 7 ∧ FID = 4 := ⟨rfl, rfl⟩
      exact ⟨wire p H 4, fun q pre => by rw [if_pos wide, g32_wire pre (by omega)]⟩
    · exact ⟨0, fun _ _ => if_neg wide⟩
  obtain ⟨fid, value⟩ := fid
  have read := reads fid
  cases stop with
  | none =>
    exact (decodeFid_eq (value p List.prefix_rfl)).trans read
  | some e =>
    obtain ⟨x, all⟩ := read
    refine ⟨x, fun q pre => ?_⟩
    exact (decodeFid_eq (value q pre)).trans (all q pre)

/-- Whether a `Tmsg` decodes as it should turns on its header and on its count alone. -/
theorem tmsg_decodes (ok : HeaderOK 0 f) (wstat : WstatOK f) : Decodes Tmsg.layout Tmsg.unpack f := by
  rw [Tmsg.unpack_by]
  refine decodes_of ok (fun t parts known => Tmsg.layout_least known) (fun t p unknown even => ?_) ?_
  · have unlisted : hdrlen t = 0 := by
      by_contra listed
      rcases hdrlen_known listed with ⟨known, -⟩ | ⟨-, odd⟩
      · exact known unknown
      · omega
    unfold Tmsg.decodeFid
    rw [if_neg (by rw [unlisted]; decide), some_then]
    exact Tmsg.decode_unknown t 0 p unknown
  · intro whole parts known long r pre fits
    have length := length_cut whole
    have least := (Tmsg.layout_least known).1
    have low : hdrlen (kind f) ≤ r.length := by
      rcases fits with rfl | ⟨e, stop, inside⟩
      · omega
      · have := (stops_some stop (by omega)).1
        omega
    refine decodeFid_reads low fun fid => ?_
    by_cases type : kind f = 126
    · rw [type] at known low long ⊢
      have inside : 11 + 2 ≤ declared f := long
      obtain rfl := Option.some.inj known
      have small := wstat whole type long
      rcases fits with rfl | ⟨e, stop, room⟩
      · refine Tmsg.decode_reads_wstat low fid ?_
        rw [wire_cut 2 inside whole.2]
        exact small
      · -- the entry is there, and its count is a byte
        have place := stop
        rw [stops_wstat (by rw [length]; exact long)] at place
        split at place
        · rename_i both
          obtain rfl := Option.some.inj place
          rw [wire_cut 2 inside whole.2] at both
          refine Tmsg.decode_reads_wstat low fid (Or.inl ?_)
          have again : wire (f.take (declared f)) 11 2 = wire r 11 2 := wire_front pre low
          rw [← again, wire_cut 2 inside whole.2]
          omega
        · exact absurd place (Option.some_ne_none _).symm
    · exact Tmsg.decode_reads known type low fid

theorem tmsg_decodes_only (decodes : Decodes Tmsg.layout Tmsg.unpack f) : WstatOK f := by
  intro whole type long
  by_contra wrong
  obtain ⟨-, bad, good⟩ := decodes
  have length := length_cut whole
  have count := wire_cut (f := f) (o := 11) 2 long whole.2
  have h : H = 7 := rfl
  have same : kind (f.take (declared f)) = 126 := (wire_cut 1 (by omega) whole.2).trans type
  have formed : WellFormed Tmsg.layout (f.take (declared f)) ↔
      0 < wire f 11 2 ∧ entrySize ((f.take (declared f)).drop 13) = wire f 11 2 := by
    unfold WellFormed
    rw [same, ← count]
    constructor
    · rintro ⟨-, parts, e, known, stop⟩
      obtain rfl := Option.some.inj known
      rw [stops_wstat (by omega)] at stop
      by_contra other
      rw [if_neg other] at stop
      exact absurd stop (Option.some_ne_none _).symm
    · intro both
      exact ⟨by omega, _, _, rfl, (stops_wstat (by omega)).trans (if_pos both)⟩
  have result := unpackBy_good Tmsg.decodeFid (fun tag req => (⟨tag, req⟩ : Tmsg)) whole (by omega)
    (show ¬(kind f ≥ 128 ∨ kind f % 2 ≠ 0 ∨ declared f < hdrlen (kind f)) by rw [type]; change ¬(126 ≥ 128 ∨ 126 % 2 ≠ 0 ∨ declared f < 13); omega)
  rw [← Tmsg.unpack_by, type] at result
  have code := Tmsg.decode_wstat (p := f.take (declared f)) (wire (f.take (declared f)) 7 4) (by omega)
  have fid : Tmsg.decodeFid (f.take (declared f)) 126 = Tmsg.decode (f.take (declared f)) (wire (f.take (declared f)) 7 4) 126 :=
    decodeFid_eq ((if_pos (by decide)).trans (g32_wire List.prefix_rfl (by omega)))
  rw [count] at code
  rw [fid] at result
  by_cases low : entrySize ((f.take (declared f)).drop 13) = wire f 11 2 % 256
  · -- the code takes an entry that is not there, or not of this size
    rw [if_pos low] at code
    obtain ⟨x, value, -⟩ := code
    have refused := bad whole (fun is => by have := formed.mp is; omega)
    rw [result, value] at refused
    exact absurd refused (by simp)
  · rw [if_neg low] at code
    obtain ⟨n, m, value, -⟩ := good whole (formed.mpr (by omega))
    rw [result, code] at value
    exact absurd value (by simp)

theorem decodes_header {layout : Nat → Option (List Field)} (decodes : Decodes layout (unpackBy parity decode make) f) :
    HeaderOK parity f := by
  by_contra raises
  have value := unpackBy_raises decode make raises
  obtain ⟨whole, -⟩ := Classical.not_imp.mp raises
  by_cases formed : WellFormed layout (f.take (declared f))
  · obtain ⟨n, m, other, -⟩ := decodes.2.2 whole formed
    exact absurd (value.symm.trans other) (Option.some_ne_none _).symm
  · exact absurd (value.symm.trans (decodes.2.1 whole formed)) (Option.some_ne_none _).symm

theorem rmsg_decodes (ok : HeaderOK 1 f) : Decodes Rmsg.layout Rmsg.unpack f := by
  rw [Rmsg.unpack_by]
  refine decodes_of ok (fun t parts known => Rmsg.layout_least known)
    (fun t p unknown _ => Rmsg.decode_unknown t p unknown) ?_
  intro whole parts known long r pre fits
  have length := length_cut whole
  have least := (Rmsg.layout_least known).1
  refine Rmsg.decode_reads known ?_
  rcases fits with rfl | ⟨e, stop, inside⟩
  · omega
  · have := (stops_some stop (by omega)).1
    omega

end Total

end Inferno.Styxlib
