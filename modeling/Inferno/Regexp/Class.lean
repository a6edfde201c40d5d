import Mathlib

namespace Inferno.Regexp

/-- Two runes of `spans`, the first and the last of a range. -/
abbrev Span := Nat × Nat

section Code

def sizeofRune : Nat := 4

/-- The pointer `end` and 64 runes. -/
def sizeofReclass : Nat := 8 + 64 * sizeofRune

def NCCRUNE : Nat := sizeofReclass / sizeofRune

def NCLASS : Nat := 16

/-- What is left of the expression, as the runes `chartorune` gives, and the last rune read. -/
structure Reader where
  exprp : List Nat
  lexdone : Bool
  rune : Nat
  quoted : Bool
deriving DecidableEq

/-- The end of the text is a NUL. -/
def Reader.nextc (s : Reader) : Reader :=
  if s.lexdone then { s with rune := 0, quoted := true }
  else
    let c := s.exprp.headD 0
    if c = 92 then { s with exprp := s.exprp.drop 2, rune := s.exprp.tail.headD 0, quoted := true }
    else { exprp := s.exprp.tail, lexdone := decide (c = 0), rune := c, quoted := false }

def Reader.is (s : Reader) (c : Nat) : Bool := !s.quoted && s.rune = c

/-- `*(ep-1) = rune`. -/
def upTo (r : List Span) (rune : Nat) : List Span := r.dropLast ++ [((r.getLastD (0, 0)).1, rune)]

def malformed : String := "malformed '[]'"

/-- What is left to read, with the rune that waits. -/
def Reader.left (s : Reader) : Nat := s.exprp.length + min s.rune 1

theorem nextc_left (s : Reader) : s.nextc.left ≤ s.exprp.length := by
  obtain ⟨text, lexdone, rune, quoted⟩ := s
  unfold Reader.nextc Reader.left
  split
  · simp
  · match text with
    | [] => simp
    | [c] =>
      dsimp only [List.headD_cons]
      split
      · exact Nat.le_of_lt (by simp)
      · exact (Nat.zero_add _).le.trans (Nat.min_le_right c 1)
    | c :: d :: text =>
      dsimp only [List.headD_cons]
      split <;> simp <;> omega

/-- The loop that collects the spans in `r`. -/
def collect (r : List Span) (s : Reader) : Except String (List Span × Reader) :=
  if 2 * r.length < NCCRUNE then
    if s.rune = 0 then .error malformed
    else if s.is 93 then .ok (r, s)
    else if s.is 45 then
      if r = [] then .error malformed
      else if s.nextc.is 93 || s.nextc.rune = 0 then .error malformed
      else collect (upTo r s.nextc.rune) s.nextc.nextc
    else collect (r ++ [(s.rune, s.rune)]) s.nextc
  else .ok (r, s)
termination_by s.left
decreasing_by
  · have first := nextc_left s
    have second := nextc_left s.nextc
    have here : 0 < s.rune := Nat.pos_of_ne_zero ‹_›
    unfold Reader.left at *
    omega
  · have first := nextc_left s
    have here : 0 < s.rune := Nat.pos_of_ne_zero ‹_›
    unfold Reader.left at *
    omega

/-- The inner loop of the sort: the span kept at `p`, and what it leaves behind. -/
def exchange (p : Span) : List Span → Span × List Span
  | [] => (p, [])
  | q :: r =>
    if q.1 < p.1 then
      let (m, r) := exchange q r
      (m, p :: r)
    else
      let (m, r) := exchange p r
      (m, q :: r)

theorem exchange_perm (p : Span) (r : List Span) : ((exchange p r).1 :: (exchange p r).2).Perm (p :: r) := by
  induction r generalizing p with
  | nil => exact .refl _
  | cons q r ih =>
    unfold exchange
    split
    · exact (List.Perm.swap p _ _).trans ((ih q).cons p)
    · exact (List.Perm.swap q _ _).trans (((ih p).cons q).trans (List.Perm.swap p q r))

/-- The sort on the starts of the spans. -/
def sort : List Span → List Span
  | [] => []
  | p :: r => (exchange p r).1 :: sort (exchange p r).2
termination_by r => r.length
decreasing_by
  have same := (exchange_perm p r).length_eq
  simp only [List.length_cons] at same ⊢
  omega

/-- The spans from `np` on. -/
def merge (np : Span) : List Span → List Span
  | [] => [np]
  | p :: r => if p.1 ≤ np.2 then merge (np.1, max np.2 p.2) r else np :: merge p r

def spans : List Span → List Span
  | [] => []
  | p :: r => merge p r

inductive Token where
  | cclass
  | ncclass
deriving DecidableEq

/-- The class that was built: what was written to its `spans`, as far as `end`. -/
structure Reclass where
  type : Token
  spans : List Span
deriving DecidableEq

def bldcclass (nclass : Nat) (s : Reader) : Except String (Reclass × Reader) :=
  if NCLASS ≤ nclass then .error "too many character classes; limit @"
  else
    let s := s.nextc
    let negated := s.is 94
    match collect (if negated then [(10, 10)] else []) (if negated then s.nextc else s) with
    | .error e => .error e
    | .ok (r, s) => .ok (⟨if negated then .ncclass else .cclass, spans (sort r)⟩, s)

end Code

/-- A rune of the expression, with a backslash before it or not, and the text after it. -/
structure Lexeme where
  rune : Nat
  quoted : Bool
  after : List Nat

def lexemes : List Nat → List Lexeme
  | [] => []
  | [c] => if c = 92 ∨ c = 0 then [] else [⟨c, false, []⟩]
  | c :: d :: text =>
    if c = 92 then if d = 0 then [] else ⟨d, true, text⟩ :: lexemes text
    else if c = 0 then [] else ⟨c, false, d :: text⟩ :: lexemes (d :: text)

def Lexeme.is (x : Lexeme) (c : Nat) : Bool := !x.quoted && x.rune = c

/-- The items up to the closing bracket, whether the last one is a range, and the text behind the bracket; a text
without it and a minus sign with no rune on one of its sides give no such text. -/
structure Listing where
  items : List Span
  range : Bool
  rest : Option (List Nat)

/-- A rune is an item, and a minus sign lets the item before it end at the rune behind. -/
def listing (r : List Span) (range : Bool) : List Lexeme → Listing
  | [] => ⟨r, range, none⟩
  | x :: xs =>
    if x.is 93 then ⟨r, range, some x.after⟩
    else if x.is 45 then
      match xs with
      | [] => ⟨r, range, none⟩
      | y :: xs => if r = [] ∨ y.is 93 then ⟨r, range, none⟩ else listing (upTo r y.rune) true xs
    else listing (r ++ [(x.rune, x.rune)]) false xs

/-- Whether the expression begins with a circumflex, and the rest of it. -/
def negation : List Lexeme → Bool × List Lexeme
  | [] => (false, [])
  | x :: xs => if x.is 94 then (true, xs) else (false, x :: xs)

/-- What a text behind a `[` lists. -/
def bracket (text : List Nat) : Bool × Listing :=
  ((negation (lexemes text)).1, listing [] false (negation (lexemes text)).2)

def Span.has (p : Span) (c : Nat) : Prop := p.1 ≤ c ∧ c ≤ p.2

/-- `p` begins and ends before `q`. -/
def Span.before (p q : Span) : Prop := p.1 ≤ q.1 ∧ p.2 < q.1

/-- The class is the one the text lists, within the 64 runes it has for spans, and the reader is behind the bracket. -/
structure Listed (text : List Nat) (built : Reclass × Reader) : Prop where
  type : built.1.type = if (bracket text).1 then .ncclass else .cclass
  stored : 2 * built.1.spans.length ≤ 64
  order : built.1.spans.Pairwise Span.before
  runes : ∀ c, (∃ p ∈ built.1.spans, p.has c) ↔ ((bracket text).1 ∧ c = 10) ∨ ∃ p ∈ (bracket text).2.items, p.has c
  consumed : (bracket text).2.rest = some built.2.exprp

/-- From behind the `[`, an error is reported or the class is built. -/
def Right (nclass : Nat) (text : List Nat) : Prop :=
  (∃ e, bldcclass nclass ⟨text, false, 91, false⟩ = .error e) ∨
    ∃ built, bldcclass nclass ⟨text, false, 91, false⟩ = .ok built ∧ Listed text built

/-- Sixteen classes are in use, or the items, with the newline of a negated class first, fit: an error ends them, and
the array has room for it; or the bracket does, a circumflex is not followed by a minus sign, and there are 32 items, or
33 that end with a single rune and of which, in the order of the sort, one reaches into another. -/
def Fits (nclass : Nat) (text : List Nat) : Prop :=
  NCLASS ≤ nclass ∨
    let (negated, xs) := negation (lexemes text)
    let found := listing (if negated then [(10, 10)] else []) false xs
    if found.rest = none then found.items.length ≤ 32
    else
      ¬(negated ∧ xs.head?.any (·.is 45)) ∧ (found.items.length ≤ 32 ∨
        found.items.length = 33 ∧ found.range = false ∧ ¬(sort found.items).Pairwise fun p q => p.2 < q.1)

variable {r : List Span} {s : Reader} {x : Lexeme} {xs : List Lexeme} {text rest : List Nat}
  {c nclass : Nat} {range : Bool}

theorem exchange_least (p : Span) (r : List Span) : ∀ q ∈ p :: r, (exchange p r).1.1 ≤ q.1 := by
  induction r generalizing p with
  | nil =>
    intro q member
    obtain rfl := List.mem_singleton.mp member
    exact le_refl _
  | cons q r ih =>
    intro q' member
    unfold exchange
    split
    · rename_i less
      have least := ih q q (List.mem_cons_self ..)
      rcases List.mem_cons.mp member with rfl | member
      · exact least.trans less.le
      · exact ih q q' member
    · rename_i more
      have least := ih p p (List.mem_cons_self ..)
      rcases List.mem_cons.mp member with rfl | member
      · exact least
      · rcases List.mem_cons.mp member with rfl | member
        · exact least.trans (not_lt.mp more)
        · exact ih p q' (List.mem_cons_of_mem _ member)

theorem sort_perm (r : List Span) : (sort r).Perm r := by
  induction r using sort.induct with
  | case1 => rw [sort]
  | case2 p r ih =>
    rw [sort]
    exact (ih.cons _).trans (exchange_perm p r)

theorem sort_order (r : List Span) : (sort r).Pairwise fun p q => p.1 ≤ q.1 := by
  induction r using sort.induct with
  | case1 =>
    rw [sort]
    exact .nil
  | case2 p r ih =>
    rw [sort]
    refine List.pairwise_cons.mpr ⟨fun q member => ?_, ih⟩
    have kept := (sort_perm _).mem_iff.mp member
    exact exchange_least p r q ((exchange_perm p r).mem_iff.mp (List.mem_cons_of_mem _ kept))

theorem merge_from (np : Span) (r : List Span) (order : (np :: r).Pairwise fun p q => p.1 ≤ q.1) :
    ∀ m ∈ merge np r, np.1 ≤ m.1 := by
  induction r generalizing np with
  | nil =>
    intro m member
    obtain rfl := List.mem_singleton.mp member
    exact le_refl _
  | cons p r ih =>
    obtain ⟨first, order⟩ := List.pairwise_cons.mp order
    intro m member
    unfold merge at member
    split at member
    · refine ih (np.1, max np.2 p.2) (List.pairwise_cons.mpr ⟨fun q member => ?_, order.of_cons⟩) m member
      exact first q (List.mem_cons_of_mem _ member)
    · rcases List.mem_cons.mp member with rfl | member
      · exact le_refl _
      · exact (first p (List.mem_cons_self ..)).trans (ih p order m member)

theorem merge_order (np : Span) (r : List Span) (order : (np :: r).Pairwise fun p q => p.1 ≤ q.1) :
    (merge np r).Pairwise Span.before := by
  induction r generalizing np with
  | nil => exact List.pairwise_singleton _ _
  | cons p r ih =>
    obtain ⟨first, order⟩ := List.pairwise_cons.mp order
    unfold merge
    split
    · exact ih _ (List.pairwise_cons.mpr ⟨fun q member => first q (List.mem_cons_of_mem _ member), order.of_cons⟩)
    · rename_i apart
      refine List.pairwise_cons.mpr ⟨fun m member => ?_, ih p order⟩
      have behind := merge_from p r order m member
      exact ⟨(first p (List.mem_cons_self ..)).trans behind, (not_le.mp apart).trans_le behind⟩

theorem merge_has (c : Nat) (np : Span) (r : List Span) (order : (np :: r).Pairwise fun p q => p.1 ≤ q.1) :
    (∃ m ∈ merge np r, m.has c) ↔ ∃ m ∈ np :: r, m.has c := by
  induction r generalizing np with
  | nil => rfl
  | cons p r ih =>
    obtain ⟨first, order⟩ := List.pairwise_cons.mp order
    have start := first p (List.mem_cons_self ..)
    unfold merge
    split
    · rename_i reaches
      have both : Span.has (np.1, max np.2 p.2) c ↔ np.has c ∨ p.has c := by
        simp only [Span.has]
        omega
      rw [ih (np.1, max np.2 p.2)
        (List.pairwise_cons.mpr ⟨fun q member => first q (List.mem_cons_of_mem _ member), order.of_cons⟩)]
      simp only [List.mem_cons, exists_eq_or_imp, both, or_assoc]
    · simp only [List.mem_cons, exists_eq_or_imp, ih p order]

theorem merge_length (np : Span) (r : List Span) (order : (np :: r).Pairwise fun p q => p.1 ≤ q.1) :
    (merge np r).length ≤ r.length + 1 ∧
      ((merge np r).length = r.length + 1 ↔ (np :: r).Pairwise fun p q => p.2 < q.1) := by
  induction r generalizing np with
  | nil => exact ⟨le_refl _, iff_of_true rfl (List.pairwise_singleton _ _)⟩
  | cons p r ih =>
    obtain ⟨first, order⟩ := List.pairwise_cons.mp order
    unfold merge
    split
    · rename_i reaches
      have shorter := (ih (np.1, max np.2 p.2)
        (List.pairwise_cons.mpr ⟨fun q member => first q (List.mem_cons_of_mem _ member), order.of_cons⟩)).1
      rw [List.length_cons]
      refine ⟨by omega, iff_of_false (by omega) fun apart => ?_⟩
      exact absurd ((List.pairwise_cons.mp apart).1 p (List.mem_cons_self ..)) (not_lt.mpr reaches)
    · rename_i apart
      obtain ⟨most, same⟩ := ih p order
      rw [List.length_cons, List.length_cons, Nat.add_right_cancel_iff, same, List.pairwise_cons (l := p :: r)]
      refine ⟨by omega, fun rest => ⟨fun q member => (not_le.mp apart).trans_le ?_, rest⟩, And.right⟩
      rcases List.mem_cons.mp member with rfl | member
      · exact le_refl _
      · exact (List.pairwise_cons.mp order).1 q member

/-- The class has the runes of the items, in order, and a span for each of them if they are apart. -/
theorem spans_sort (r : List Span) : (spans (sort r)).Pairwise Span.before ∧
    (∀ c, (∃ m ∈ spans (sort r), m.has c) ↔ ∃ m ∈ r, m.has c) ∧ (spans (sort r)).length ≤ r.length ∧
    ((spans (sort r)).length = r.length ↔ (sort r).Pairwise fun p q => p.2 < q.1) := by
  have order := sort_order r
  have perm := sort_perm r
  have members (c : Nat) : (∃ m ∈ sort r, m.has c) ↔ ∃ m ∈ r, m.has c :=
    exists_congr fun m => and_congr_left fun _ => perm.mem_iff
  have length := perm.length_eq
  cases sorted : sort r with
  | nil =>
    rw [sorted] at members length
    exact ⟨.nil, members, Nat.zero_le _, iff_of_true length .nil⟩
  | cons p r' =>
    rw [sorted] at members length order
    obtain ⟨most, same⟩ := merge_length p r' order
    rw [← length]
    exact ⟨merge_order p r' order, fun c => (merge_has c p r' order).trans (members c), most, same⟩

def Reader.head (s : Reader) : Lexeme := ⟨s.rune, s.quoted, s.exprp⟩

theorem Reader.head_is (s : Reader) (c : Nat) : s.head.is c = s.is c := rfl

/-- What the reader has still to give, the rune that waits included. -/
def Reader.lexemes (s : Reader) : List Lexeme := if s.rune = 0 then [] else s.head :: Regexp.lexemes s.exprp

def Reader.Live (s : Reader) : Prop := s.rune ≠ 0 → s.lexdone = false

theorem Reader.lexemes_cons (more : s.rune ≠ 0) : s.lexemes = s.head :: Regexp.lexemes s.exprp := if_neg more

theorem nextc_lexemes (going : s.lexdone = false) : s.nextc.lexemes = lexemes s.exprp ∧ s.nextc.Live := by
  obtain ⟨text, lexdone, rune, quoted⟩ := s
  obtain rfl : lexdone = false := going
  unfold Reader.lexemes Reader.Live Reader.nextc Reader.head
  match text with
  | [] => exact ⟨rfl, fun more => absurd rfl more⟩
  | [c] =>
    by_cases slash : c = 92
    · simp [slash, lexemes]
    · by_cases ends : c = 0 <;> simp [slash, ends, lexemes]
  | c :: d :: text =>
    by_cases slash : c = 92
    · by_cases ends : d = 0 <;> simp [slash, ends, lexemes]
    · by_cases ends : c = 0 <;> simp [slash, ends, lexemes]

theorem lexemes_after (text : List Nat) : ∀ x ∈ lexemes text, x.after.length < text.length := by
  fun_induction lexemes text with
  | case1 | case2 | case4 | case6 => exact fun x none => nomatch none
  | case3 c =>
    intro x member
    obtain rfl := List.mem_singleton.mp member
    exact Nat.zero_lt_one
  | case5 d text more ih | case7 c d text slash more ih =>
    intro x member
    simp only [List.length_cons] at ih ⊢
    rcases List.mem_cons.mp member with rfl | member
    · simp only [List.length_cons]
      omega
    · have shorter := ih x member
      omega

theorem upTo_length (some : r ≠ []) (c : Nat) : (upTo r c).length = r.length := by
  have pos := List.length_pos_iff.mpr some
  simp only [upTo, List.length_append, List.length_dropLast, List.length_singleton]
  omega

/-- What the listing of a text can be. -/
theorem listing_bounds (r : List Span) (range : Bool) (xs : List Lexeme) :
    r.length ≤ (listing r range xs).items.length ∧
      (range = true → (listing r range xs).items.length = r.length → (listing r range xs).range = true) ∧
      ∀ rest, (listing r range xs).rest = some rest → ∃ x ∈ xs, x.after = rest := by
  fun_induction listing r range xs with
  | case1 | case3 | case4 => exact ⟨le_refl _, fun last _ => last, fun rest none => nomatch none⟩
  | case2 r range x xs =>
    refine ⟨le_refl _, fun last _ => last, fun rest same => ?_⟩
    exact ⟨x, List.mem_cons_self .., Option.some.inj same⟩
  | case5 r range x other minus y xs good ih =>
    obtain ⟨more, last, inside⟩ := ih
    rw [upTo_length (fun none => good (.inl none))] at more last
    refine ⟨more, fun _ => last rfl, fun rest same => ?_⟩
    obtain ⟨z, member, after⟩ := inside rest same
    exact ⟨z, List.mem_cons_of_mem _ (List.mem_cons_of_mem _ member), after⟩
  | case6 r range x xs other plain ih =>
    obtain ⟨more, -, inside⟩ := ih
    rw [List.length_append, List.length_singleton] at more
    refine ⟨by omega, fun _ same => by omega, fun rest same => ?_⟩
    obtain ⟨z, member, after⟩ := inside rest same
    exact ⟨z, List.mem_cons_of_mem _ member, after⟩

/-- With the array full, the reader is behind the bracket only if the bracket is the rune that waits. -/
theorem listing_full (r : List Span) (s : Reader) (found : (listing r false s.lexemes).rest = some rest) :
    (s.exprp = rest ↔ (listing r false s.lexemes).items.length = r.length ∧ (listing r false s.lexemes).range = false) ∧
      (s.exprp = rest → (listing r false s.lexemes).items = r) := by
  have behind {xs : List Lexeme} (after : ∃ x ∈ xs, x.after = rest) (inside : ∀ x ∈ xs, x ∈ lexemes s.exprp) :
      s.exprp ≠ rest := by
    obtain ⟨x, member, after⟩ := after
    have shorter := lexemes_after s.exprp x (inside x member)
    rw [after] at shorter
    exact fun same => absurd (congrArg List.length same) (by omega)
  by_cases more : s.rune = 0
  · rw [Reader.lexemes, if_pos more] at found
    nomatch found
  rw [Reader.lexemes_cons more] at found ⊢
  unfold listing at found ⊢
  split at found
  · rename_i close
    rw [if_pos close]
    exact ⟨iff_of_true (Option.some.inj found) ⟨rfl, rfl⟩, fun _ => rfl⟩
  rename_i other
  rw [if_neg other]
  split at found
  · rename_i minus
    rw [if_pos minus]
    cases behind_ : lexemes s.exprp with
    | nil =>
      rw [behind_] at found
      nomatch found
    | cons y xs =>
      rw [behind_] at found
      dsimp only at found ⊢
      split at found
      · nomatch found
      · rename_i good
        rw [if_neg good]
        obtain ⟨-, last, inside⟩ := listing_bounds (upTo r y.rune) true xs
        rw [upTo_length fun none => good (.inl none)] at last
        have away := behind (inside rest found) fun x member => by
          rw [behind_]
          exact List.mem_cons_of_mem _ member
        refine ⟨iff_of_false away fun both => ?_, fun same => absurd same away⟩
        rw [last rfl both.1] at both
        nomatch both.2
  · rename_i plain
    rw [if_neg plain]
    obtain ⟨more, -, inside⟩ := listing_bounds (r ++ [(s.rune, s.rune)]) false (lexemes s.exprp)
    rw [List.length_append, List.length_singleton] at more
    have away := behind (inside rest found) fun x member => member
    exact ⟨iff_of_false away fun both => absurd both.1 (Nat.ne_of_gt more), fun same => absurd same away⟩

theorem listing_close (range : Bool) (close : x.is 93) : listing r range (x :: xs) = ⟨r, range, some x.after⟩ := by
  rw [listing.eq_def]
  exact if_pos close

theorem listing_minus (range : Bool) {y : Lexeme} (minus : x.is 45) (good : ¬(r = [] ∨ y.is 93)) :
    listing r range (x :: y :: xs) = listing (upTo r y.rune) true xs := by
  have other : ¬x.is 93 := fun close => by
    simp only [Lexeme.is, Bool.and_eq_true, decide_eq_true_eq] at close minus
    omega
  rw [listing.eq_def]
  dsimp only
  rw [if_neg other, if_pos minus, if_neg good]

theorem listing_rune (range : Bool) (other : ¬x.is 93) (plain : ¬x.is 45) :
    listing r range (x :: xs) = listing (r ++ [(x.rune, x.rune)]) false xs := by
  rw [listing.eq_def]
  dsimp only
  rw [if_neg other, if_neg plain]

/-- While the array has room the spans collected are the items, with the error where they end without the bracket. -/
theorem collect_listing (r : List Span) (s : Reader) (live : s.Live) (range : Bool) (room : r.length ≤ 33)
    (full : r.length = 33 → range = false) :
    ((listing r range s.lexemes).items.length ≤ 32 →
      ((listing r range s.lexemes).rest = none ∧ collect r s = .error malformed) ∨
        ∃ t, (listing r range s.lexemes).rest = some t.exprp ∧
          collect r s = .ok ((listing r range s.lexemes).items, t)) ∧
    (33 ≤ (listing r range s.lexemes).items.length → ∃ r' t, collect r s = .ok (r', t) ∧
      ∀ rest, (listing r range s.lexemes).rest = some rest →
        (t.exprp = rest ↔
          (listing r range s.lexemes).items.length = 33 ∧ (listing r range s.lexemes).range = false) ∧
        (t.exprp = rest → r' = (listing r range s.lexemes).items)) := by
  induction r, s using collect.induct generalizing range with
  | case1 r s less ends =>
    have none : s.lexemes = [] := if_pos ends
    have little : r.length ≤ 32 := by
      have size : NCCRUNE = 66 := rfl
      omega
    rw [none, collect, if_pos less, if_pos ends, listing]
    exact ⟨fun _ => .inl ⟨rfl, rfl⟩, fun many => absurd little (not_le.mpr many)⟩
  | case2 r s less more close =>
    have little : r.length ≤ 32 := by
      have size : NCCRUNE = 66 := rfl
      omega
    rw [Reader.lexemes_cons more, collect, if_pos less, if_neg more, if_pos close,
      listing_close range (by rw [s.head_is]; exact close)]
    exact ⟨fun _ => .inr ⟨s, rfl, rfl⟩, fun many => absurd little (not_le.mpr many)⟩
  | case3 s more other minus less =>
    rw [collect, if_pos less, if_neg more, if_neg other, if_pos minus, if_pos rfl]
    have bad : listing [] range s.lexemes = ⟨[], range, none⟩ := by
      rw [Reader.lexemes_cons more, listing.eq_def]
      dsimp only
      rw [s.head_is, s.head_is, if_neg other, if_pos minus]
      split
      · rfl
      · exact if_pos (.inl rfl)
    rw [bad]
    exact ⟨fun _ => .inl ⟨rfl, rfl⟩, fun many => nomatch many⟩
  | case4 r s less more other minus some bad =>
    have little : r.length ≤ 32 := by
      have size : NCCRUNE = 66 := rfl
      omega
    have next := (nextc_lexemes (live more)).1
    have stop : listing r range s.lexemes = ⟨r, range, none⟩ := by
      rw [Reader.lexemes_cons more, ← next, listing.eq_def]
      dsimp only
      rw [s.head_is, s.head_is, if_neg other, if_pos minus]
      by_cases ends : s.nextc.rune = 0
      · rw [Reader.lexemes, if_pos ends]
      · rw [Reader.lexemes_cons ends]
        rw [Bool.or_eq_true, decide_eq_true_eq] at bad
        exact if_pos (.inr (bad.resolve_right ends))
    rw [stop, collect, if_pos less, if_neg more, if_neg other, if_pos minus, if_neg some, if_pos bad]
    exact ⟨fun _ => .inl ⟨rfl, rfl⟩, fun many => absurd little (not_le.mpr many)⟩
  | case5 r s less more other minus some good ih =>
    obtain ⟨next, live⟩ := nextc_lexemes (live more)
    rw [Bool.or_eq_true, decide_eq_true_eq, not_or] at good
    obtain ⟨after, live⟩ := nextc_lexemes (live good.2)
    have goes : listing r range s.lexemes = listing (upTo r s.nextc.rune) true s.nextc.nextc.lexemes := by
      rw [Reader.lexemes_cons more, ← next, Reader.lexemes_cons good.2, ← after]
      exact listing_minus range minus fun bad => bad.elim some good.1
    have length := upTo_length some s.nextc.rune
    have size : NCCRUNE = 66 := rfl
    rw [goes, collect, if_pos less, if_neg more, if_neg other, if_pos minus, if_neg some,
      if_neg (by rw [Bool.or_eq_true, decide_eq_true_eq, not_or]; exact good)]
    exact ih live true (by omega) fun same => by omega
  | case6 r s less more other plain ih =>
    obtain ⟨next, live⟩ := nextc_lexemes (live more)
    have goes : listing r range s.lexemes = listing (r ++ [(s.rune, s.rune)]) false s.nextc.lexemes := by
      rw [Reader.lexemes_cons more, next]
      exact listing_rune range other plain
    have size : NCCRUNE = 66 := rfl
    rw [goes, collect, if_pos less, if_neg more, if_neg other, if_neg plain]
    refine ih live false ?_ fun _ => rfl
    rw [List.length_append, List.length_singleton]
    omega
  | case7 r s more =>
    have size : NCCRUNE = 66 := rfl
    have length : r.length = 33 := by omega
    obtain rfl := full length
    have many := (listing_bounds r false s.lexemes).1
    refine ⟨fun few => by omega, fun _ => ⟨r, s, by rw [collect, if_neg more], fun rest found => ?_⟩⟩
    obtain ⟨behind, items⟩ := listing_full r s found
    rw [length] at behind
    exact ⟨behind, fun same => (items same).symm⟩

/-- A first item is kept, but a minus sign behind it that begins a list is no error with it. -/
theorem listing_front (p : Span) (r : List Span) (range : Bool) (xs : List Lexeme)
    (clear : r = [] → xs.head?.any (·.is 45) = false) :
    listing (p :: r) range xs = { listing r range xs with items := p :: (listing r range xs).items } := by
  fun_induction listing r range xs with
  | case1 => rfl
  | case2 r range x xs close => exact listing_close range close
  | case3 r range x other minus =>
    rw [listing.eq_def]
    dsimp only
    rw [if_neg other, if_pos minus]
  | case4 r range x other minus y xs bad =>
    have some : r ≠ [] := fun none => by
      have plain := clear none
      rw [List.head?_cons, Option.any_some, minus] at plain
      nomatch plain
    rw [listing.eq_def]
    dsimp only
    rw [if_neg other, if_pos minus, if_pos (.inr (bad.resolve_left some))]
  | case5 r range x other minus y xs good ih =>
    have some : r ≠ [] := fun none => good (.inl none)
    rw [listing_minus range minus fun bad => bad.elim (List.cons_ne_nil p r) fun bad => good (.inr bad)]
    have moves : upTo (p :: r) y.rune = p :: upTo r y.rune := by
      rw [upTo, upTo, List.dropLast_cons_of_ne_nil some, List.getLastD_cons, List.cons_append]
      cases r with
      | nil => exact absurd rfl some
      | cons q r => rfl
    rw [moves]
    refine ih fun none => ?_
    have length := upTo_length some y.rune
    rw [none] at length
    exact absurd (List.length_eq_zero_iff.mp length.symm) some
  | case6 r range x xs other plain ih =>
    rw [listing_rune range other plain]
    exact ih fun none => absurd none (List.append_ne_nil_of_right_ne_nil r (List.cons_ne_nil _ _))

/-- The list the spans are put in first, and the reader from there. -/
theorem negation_reader (text : List Nat) (s : Reader) (start : s = Reader.nextc ⟨text, false, 91, false⟩) :
    negation (lexemes text) = (s.is 94, (if s.is 94 then s.nextc else s).lexemes) ∧
      (if s.is 94 then s.nextc else s).Live := by
  obtain ⟨first, live⟩ := @nextc_lexemes ⟨text, false, 91, false⟩ rfl
  rw [← start] at first live
  change s.lexemes = lexemes text at first
  rw [← first]
  by_cases ends : s.rune = 0
  · have other : s.is 94 = false := by simp [Reader.is, ends]
    rw [other, if_neg Bool.false_ne_true, Reader.lexemes, if_pos ends]
    exact ⟨rfl, live⟩
  · by_cases caret : s.is 94
    · obtain ⟨next, live⟩ := nextc_lexemes (live ends)
      rw [Reader.lexemes_cons ends, negation, s.head_is, if_pos caret, if_pos caret, next, caret]
      exact ⟨rfl, live⟩
    · rw [Reader.lexemes_cons ends, negation, s.head_is, if_neg caret, if_neg caret, Reader.lexemes_cons ends,
        Bool.eq_false_iff.mpr caret]
      exact ⟨rfl, live⟩

/-- The list of the class, with the newline in front, is what the text lists. -/
theorem bracket_found {negated : Bool} (split : negation (lexemes text) = (negated, xs))
    (clear : ¬(negated ∧ xs.head?.any (·.is 45))) {found : Listing}
    (same : listing (if negated then [(10, 10)] else []) false xs = found) :
    (bracket text).1 = negated ∧ (bracket text).2.rest = found.rest ∧
      ∀ c, (∃ m ∈ found.items, Span.has m c) ↔ (negated ∧ c = 10) ∨ ∃ m ∈ (bracket text).2.items, m.has c := by
  rw [bracket, split, ← same]
  cases negated with
  | false => exact ⟨rfl, rfl, fun c => by simp only [Bool.false_eq_true, false_and, false_or, if_false]⟩
  | true =>
    have front := listing_front (10, 10) [] false xs fun _ => Bool.eq_false_iff.mpr fun minus => clear ⟨rfl, minus⟩
    rw [if_pos rfl, front]
    refine ⟨rfl, rfl, fun c => ?_⟩
    have newline : Span.has (10, 10) c ↔ c = 10 := by
      simp only [Span.has]
      omega
    simp only [List.mem_cons, exists_eq_or_imp, newline, true_and]

/-- The class built of the items is the one listed if it has 32 spans at most. -/
theorem listed_iff {built : Reclass × Reader} {negated : Bool} (split : negation (lexemes text) = (negated, xs))
    (clear : ¬(negated ∧ xs.head?.any (·.is 45)))
    (found : listing (if negated then [(10, 10)] else []) false xs = ⟨r, range, some built.2.exprp⟩)
    (type : built.1.type = if negated then .ncclass else .cclass) (class_ : built.1.spans = spans (sort r)) :
    Listed text built ↔ (spans (sort r)).length ≤ 32 := by
  obtain ⟨order, has, -, -⟩ := spans_sort r
  obtain ⟨negated_, rest, runes⟩ := bracket_found split clear found
  dsimp only at rest runes
  rw [← class_] at order has ⊢
  refine ⟨fun listed => ?_, fun few => ⟨by rw [type, negated_], by omega, order, fun c => ?_, rest⟩⟩
  · have stored := listed.stored
    omega
  · rw [has, runes, negated_]

theorem listing_minus_first (minus : xs.head?.any (·.is 45) = true) : (listing [] range xs).rest = none := by
  cases xs with
  | nil => rfl
  | cons x xs =>
    have minus : x.is 45 := minus
    have other : ¬x.is 93 := fun close => by
      simp only [Lexeme.is, Bool.and_eq_true, decide_eq_true_eq] at close minus
      omega
    rw [listing.eq_def]
    dsimp only
    rw [if_neg other, if_pos minus]
    split
    · rfl
    · rw [if_pos (.inl rfl)]

theorem unlisted {built : Reclass × Reader} (split : negation (lexemes text) = (true, xs))
    (minus : xs.head?.any (·.is 45) = true) : ¬Listed text built := by
  intro listed
  have consumed := listed.consumed
  rw [bracket, split, listing_minus_first minus] at consumed
  nomatch consumed

theorem ok_iff {X : Reclass × Reader} {P : Reclass × Reader → Prop} :
    ((∃ e : String, (Except.ok X : Except String _) = .error e) ∨
      ∃ built, (Except.ok X : Except String _) = .ok built ∧ P built) ↔ P X := by
  constructor
  · rintro (⟨e, same⟩ | ⟨built, same, holds⟩)
    · nomatch same
    · injection same with same
      rwa [same]
  · exact fun holds => .inr ⟨X, rfl, holds⟩

/-- A class is built as it is listed, or refused, just for these expressions. -/
theorem bldcclass_right (nclass : Nat) (text : List Nat) : Right nclass text ↔ Fits nclass text := by
  unfold Right Fits bldcclass
  by_cases many : NCLASS ≤ nclass
  · rw [if_pos many]
    exact iff_of_true (.inl ⟨_, rfl⟩) (.inl many)
  rw [if_neg many, or_iff_right many]
  generalize start : Reader.nextc ⟨text, false, 91, false⟩ = s
  obtain ⟨split, live⟩ := negation_reader text s start.symm
  dsimp only
  rw [split]
  dsimp only
  generalize s.is 94 = negated at split live
  generalize (if negated then s.nextc else s) = t at split live ⊢
  obtain ⟨fits, beyond⟩ := collect_listing (if negated then [(10, 10)] else []) t live false
    (by cases negated <;> exact Nat.le_of_ble_eq_true rfl) fun _ => rfl
  generalize found : listing (if negated then [(10, 10)] else []) false t.lexemes = l at fits beyond ⊢
  obtain ⟨items, range, rest⟩ := l
  dsimp only at fits beyond ⊢
  by_cases few : items.length ≤ 32
  · rcases fits few with ⟨rfl, run⟩ | ⟨u, rfl, run⟩
    · rw [run, if_pos rfl]
      exact iff_of_true (.inl ⟨_, rfl⟩) few
    · rw [run, if_neg (Option.some_ne_none _), ok_iff, and_iff_left (.inl few)]
      by_cases minus : negated ∧ t.lexemes.head?.any (·.is 45)
      · obtain ⟨rfl, minus⟩ := minus
        exact iff_of_false (unlisted split minus) fun clear => clear ⟨rfl, minus⟩
      · refine iff_of_true ((listed_iff split minus found rfl rfl).mpr ?_) minus
        exact (spans_sort items).2.2.1.trans few
  · obtain ⟨r', u, run, ends⟩ := beyond (not_le.mp few)
    rw [run, ok_iff]
    by_cases minus : negated ∧ t.lexemes.head?.any (·.is 45)
    · obtain ⟨rfl, minus⟩ := minus
      refine iff_of_false (unlisted split minus) fun clear => ?_
      by_cases none : rest = none
      · rw [if_pos none] at clear
        exact few clear
      · rw [if_neg none] at clear
        exact clear.1 ⟨rfl, minus⟩
    · have same := (bracket_found split minus found).2.1
      cases rest with
      | none =>
        refine iff_of_false (fun listed => ?_) few
        rw [listed.consumed] at same
        nomatch same
      | some x =>
        obtain ⟨behind, all⟩ := ends x rfl
        rw [if_neg (Option.some_ne_none _), or_iff_right few, and_iff_right minus]
        obtain ⟨-, -, -, apart⟩ := spans_sort items
        constructor
        · intro listed
          have here : u.exprp = x := Option.some.inj (listed.consumed.symm.trans same)
          obtain ⟨length, single⟩ := behind.mp here
          obtain rfl := all here
          obtain rfl := here
          have stored := (listed_iff split minus found rfl rfl).mp listed
          exact ⟨length, single, fun pairs => absurd (apart.mpr pairs) (by omega)⟩
        · rintro ⟨length, single, reaches⟩
          obtain rfl := behind.mpr ⟨length, single⟩
          obtain rfl := all rfl
          have most := (spans_sort r').2.2.1
          have other : (spans (sort r')).length ≠ r'.length := fun pairs => reaches (apart.mp pairs)
          exact (listed_iff split minus found rfl rfl).mpr (by omega)

theorem Right.listed (right : Right nclass text) (built : Reclass × Reader)
    (ran : (bldcclass nclass ⟨text, false, 91, false⟩).toOption = some built) : Listed text built := by
  rcases right with ⟨e, refused⟩ | ⟨other, same, listed⟩
  · rw [refused] at ran
    nomatch ran
  · rw [same] at ran
    obtain rfl := Option.some.inj ran
    exact listed

/-- In `[^-a]` the newline becomes a range up to `a`, and 33 runes apart take two places more than the class has. -/
theorem bldcclass_wrong : ¬Right 0 [94, 45, 97, 93] ∧ ¬Right 0 ((List.range 33).map (2 * · + 100) ++ [93]) := by
  constructor
  · intro right
    have listed := right.listed (⟨.ncclass, [(10, 97)]⟩, ⟨[], false, 93, false⟩) (by decide +kernel)
    have malformed : (bracket [94, 45, 97, 93]).2.rest = none := by decide
    rw [listed.consumed] at malformed
    nomatch malformed
  · intro right
    have listed := right.listed
      (⟨.cclass, (List.range 33).map fun i => (2 * i + 100, 2 * i + 100)⟩, ⟨[], false, 93, false⟩) (by decide +kernel)
    exact absurd listed.stored (by decide)

end Inferno.Regexp
