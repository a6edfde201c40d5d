import Mathlib

namespace Inferno.Mk

/-- A word's bytes, without the NUL. -/
abbrev Word := List UInt8

/-- A word of a list, and what the memory has before it. -/
structure Held where
  before : List UInt8
  word : Word

section Code

-- `charin` and `stow` are the shell's and the word reader's
variable (charin : List UInt8 → List UInt8 → Option Nat) (stow : List UInt8 → List Word)

/-- The words up to a character of `term`, and the text from there; `NULL` is no words. -/
def extractpat (s term : List UInt8) : List Word × List UInt8 :=
  match charin s term with
  | some n => (if n = 0 then [] else stow (s.take n), s.drop n)
  | none => (stow s, [])

/-- `PERCENT(*cp)`. -/
def percent : List UInt8 → Bool
  | c :: _ => c = 37 || c = 38
  | [] => false

/-- The place after the first word of `a` that `s` starts with, and the number of bytes from there to the first word of `b` that it
ends with. The comparison at `end-n` goes on from before the word where that is longer. -/
def submatch (s : Held) (a b : List Word) : Option (Nat × Int) :=
  match a.find? (· <+: s.word) with
  | none => if a = [] then after 0 else none
  | some w => after w.length
where
  after (n : Nat) : Option (Nat × Int) :=
    let nmid : Int := s.word.length - n
    match b.find? (· <:+ s.before ++ s.word) with
    | none => if b = [] then some (n, nmid) else none
    | some w => some (n, nmid - w.length)

/-- Whether `submatch` compares bytes that are before the word. -/
def looksBefore (s : Held) (a b : List Word) : Bool :=
  (a = [] || a.any (· <+: s.word)) && back b
where
  back : List Word → Bool
    | [] => false
    | w :: b => s.word.length < w.length || (!decide (w <:+ s.before ++ s.word) && back b)

/-- The last word of the list, with more after it. -/
def onLast (h : List Word) (x : List UInt8) : List Word := h.dropLast ++ [h.getLastD [] ++ x]

/-- The words with those of `D` after them. -/
def withTail (h : List Word) : List Word → List Word
  | d :: ds => if d = [] then h else if h = [] then d :: ds else onLast h d ++ ds
  | [] => h

/-- The loop of `subsub`, for a word. -/
def subword (a b c d : List Word) (mid : Bool) (v : Held) : List Word :=
  match submatch v a b with
  | none => [v.word]
  | some (enda, nmid) =>
    let h := c
    let h :=
      if mid && decide (nmid > 0) then
        let x := (v.word.drop enda).take nmid.toNat
        if h = [] then [x] else onLast h x
      else h
    let h := withTail h d
    if h = [] then [v.word] else h

def subsub (v : List Held) (s : List UInt8) : List Word :=
  let (a, cp) := extractpat charin stow s [61, 37, 38]
  let (b, cp) := if percent cp then extractpat charin stow cp.tail [61] else ([], cp)
  let (c, cp) := if cp.head? = some 61 then extractpat charin stow cp.tail [38, 37] else ([], cp)
  let d := if percent cp then stow cp.tail else if cp ≠ [] then stow cp else []
  v.flatMap (subword a b c d (percent cp))

/-- A text `A%B=C%D`, of which the parts have the words `a`, `b`, `c` and `d`. -/
structure Form (s : List UInt8) (a b c d : List Word) : Prop where
  parts : ∃ A B C D p q, s = A ++ p :: (B ++ 61 :: (C ++ q :: D)) ∧ percent [p] ∧ percent [q] ∧
    charin s [61, 37, 38] = some A.length ∧ charin (B ++ 61 :: (C ++ q :: D)) [61] = some B.length ∧
    charin (C ++ q :: D) [38, 37] = some C.length ∧ a = (if A = [] then [] else stow A) ∧
    b = (if B = [] then [] else stow B) ∧ c = (if C = [] then [] else stow C) ∧ d = stow D

end Code

section Meaning

variable (a b c d : List Word)

/-- The words that a part stands for; one that is absent is the empty word. -/
def choices (l : List Word) : List Word := if l = [] then [[]] else l

/-- The word is one of `A`, then `x`, then one of `B`. -/
def Splits (w x : Word) : Prop := ∃ A ∈ choices a, ∃ B ∈ choices b, w = A ++ x ++ B

/-- Two lists, of which the last word and the first one become one word. -/
def glue : List Word → List Word → List Word
  | [], d => d
  | [w], d :: ds => (w ++ d) :: ds
  | w :: c, d => w :: glue c d

/-- The word becomes `C x D`, or stays if it is none of `A x B`. -/
def Replaced (w : Word) (out : List Word) : Prop :=
  (∃ x, Splits a b w x ∧ out = glue (glue c [x]) d) ∨ (¬∃ x, Splits a b w x) ∧ out = [w]

/-- A word is replaced as it should be, and nothing before it is read. -/
def Right (v : Held) : Prop := looksBefore v a b = false ∧ Replaced a b c d v.word (subword a b c d true v)

/-- `D` begins with a word that is not empty, or has no other after it and some `C` before it. -/
def Plain : Prop := (∃ w ∈ d.head?, w ≠ []) ∨ d.tail = [] ∧ c ≠ []

/-- No word of `B` before the first that ends the word, is longer than it. -/
def Short (w : Word) : Prop := ∀ B ∈ b.takeWhile (fun B => !decide (B <:+ w)), B.length ≤ w.length

/-- The first words of `A` and of `B` that the word starts and ends with do not overlap in it, or others make it up. -/
def Apart (w : Word) : Prop :=
  ∀ A B, (choices a).find? (· <+: w) = some A → (choices b).find? (· <:+ w) = some B → A.length + B.length ≤ w.length ∨ Splits a b w []

/-- What a word has to be for its replacement. -/
def Cond (w : Word) : Prop := (∃ A ∈ choices a, A <+: w) → Short b w ∧ Apart a b w

end Meaning

section Glue

variable {c d ds : List Word} {w x : Word}

theorem glue_cons (some_ : c ≠ []) : glue (w :: c) d = w :: glue c d := by
  cases c with
  | nil => exact absurd rfl some_
  | cons w' c => rfl

theorem onLast_glue (some_ : c ≠ []) : onLast c w ++ ds = glue c (w :: ds) := by
  induction c with
  | nil => exact absurd rfl some_
  | cons w' c ih =>
    cases c with
    | nil => rfl
    | cons w'' c =>
      rw [glue_cons (by simp), ← ih (by simp)]
      simp [onLast]

theorem glue_empty (some_ : c ≠ []) : glue c [[]] = c := by
  rw [← onLast_glue some_, onLast, List.append_nil, List.append_nil, List.getLastD_eq_getLast?,
    List.getLast?_eq_some_getLast some_]
  exact List.dropLast_append_getLast some_

theorem glue_ne_nil (some_ : c ≠ [] ∨ d ≠ []) : glue c d ≠ [] := by
  rcases c with _ | ⟨w, c⟩
  · exact some_.resolve_left (fun other => other rfl)
  · rcases c with _ | ⟨w', c⟩
    · cases d <;> exact List.cons_ne_nil _ _
    · exact List.cons_ne_nil _ _

theorem length_glue (w : Word) (ds : List Word) (some_ : c ≠ []) : (glue c (w :: ds)).length = c.length + ds.length := by
  rw [← onLast_glue some_, onLast, List.length_append, List.length_append, List.length_dropLast, List.length_singleton]
  have := List.length_pos_iff.mpr some_
  omega

end Glue

section Match

variable {a b c d : List Word} {w : Word} {v : Held} {p : Word → Bool}

theorem choices_find (l : List Word) (empty : p [] = true) :
    (choices l).find? p = if l = [] then some [] else l.find? p := by
  unfold choices
  split
  · rw [List.find?_cons_of_pos empty]
  · rfl

theorem submatch_eq (v : Held) (a b : List Word) : submatch v a b =
    ((choices a).find? (· <+: v.word)).bind fun A => ((choices b).find? (· <:+ v.before ++ v.word)).map fun B =>
      (A.length, (v.word.length : Int) - A.length - B.length) := by
  have rest (A : Word) : submatch.after v b A.length =
      ((choices b).find? (· <:+ v.before ++ v.word)).map fun B => (A.length, (v.word.length : Int) - A.length - B.length) := by
    unfold submatch.after
    rw [choices_find b (by simp)]
    dsimp only
    by_cases none_ : b = []
    · simp [none_]
    · rw [if_neg none_, if_neg none_]
      cases b.find? (· <:+ v.before ++ v.word) <;> rfl
  unfold submatch
  rw [choices_find a (by simp)]
  by_cases none_ : a = []
  · rw [none_, if_pos rfl, if_pos rfl]
    exact rest []
  · rw [if_neg none_, if_neg none_]
    cases a.find? (· <+: v.word) with
    | none => rfl
    | some A => exact rest A

theorem suffix_before {B pre : Word} (le : B.length ≤ w.length) : B <:+ pre ++ w ↔ B <:+ w :=
  ⟨fun suffix => List.suffix_of_suffix_length_le suffix (List.suffix_append pre w) le, fun suffix =>
    suffix.trans (List.suffix_append pre w)⟩

theorem back_short (v : Held) (b : List Word) : looksBefore.back v b = false ↔ Short b v.word := by
  induction b with
  | nil => exact iff_of_true rfl (fun B member => nomatch member)
  | cons B b ih =>
    unfold looksBefore.back
    by_cases long : v.word.length < B.length
    · have other : ¬B <:+ v.word := fun suffix => by have := suffix.length_le; omega
      refine iff_of_false (by simp [long]) fun short => ?_
      have := short B (by rw [List.takeWhile_cons_of_pos (by simpa using other)]; exact List.mem_cons_self)
      omega
    · rw [decide_eq_false long, Bool.false_or]
      have same : (B <:+ v.before ++ v.word) ↔ B <:+ v.word := suffix_before (by omega)
      by_cases suffix : B <:+ v.word
      · refine iff_of_true (by simp [same.mpr suffix]) fun C member => ?_
        rw [List.takeWhile_cons_of_neg (by simpa using suffix)] at member
        exact nomatch member
      · rw [decide_eq_false (fun at_ => suffix (same.mp at_)), Bool.not_false, Bool.true_and, ih]
        unfold Short
        rw [List.takeWhile_cons_of_pos (by simpa using suffix)]
        constructor
        · intro short C member
          rcases List.mem_cons.mp member with rfl | member
          · omega
          · exact short C member
        · exact fun short C member => short C (List.mem_cons_of_mem B member)

theorem find_before (short : Short b v.word) : b.find? (· <:+ v.before ++ v.word) = b.find? (· <:+ v.word) := by
  induction b with
  | nil => rfl
  | cons B b ih =>
    by_cases suffix : B <:+ v.word
    · rw [List.find?_cons_of_pos (by simpa using suffix.trans (List.suffix_append _ _)),
        List.find?_cons_of_pos (by simpa using suffix)]
    · have taken : (B :: b).takeWhile (fun B => !decide (B <:+ v.word)) = B :: b.takeWhile _ :=
        List.takeWhile_cons_of_pos (by simpa using suffix)
      unfold Short at short
      rw [taken] at short
      have le := short B List.mem_cons_self
      rw [List.find?_cons_of_neg (by simpa using fun at_ => suffix ((suffix_before le).mp at_)),
        List.find?_cons_of_neg (by simpa using suffix)]
      exact ih fun C member => short C (List.mem_cons_of_mem B member)

theorem looksBefore_iff (v : Held) (a b : List Word) :
    looksBefore v a b = false ↔ ((∃ A ∈ choices a, A <+: v.word) → Short b v.word) := by
  unfold looksBefore
  rw [Bool.and_eq_false_iff, back_short]
  have first : (decide (a = []) || a.any (· <+: v.word)) = true ↔ ∃ A ∈ choices a, A <+: v.word := by
    unfold choices
    by_cases none_ : a = []
    · simp [none_]
    · simp [none_]
  rw [← first]
  cases (decide (a = []) || a.any (· <+: v.word)) <;> simp

/-- What the loop makes of a word for which the parts are found. -/
theorem subword_glue (plain : Plain c d) {A : Word} {nmid : Int} (found : submatch v a b = some (A.length, nmid)) :
    subword a b c d true v =
      glue (glue c [if nmid > 0 then (v.word.drop A.length).take nmid.toNat else []]) d := by
  unfold subword
  rw [found]
  dsimp only
  rw [Bool.true_and]
  -- the words before those of `D`
  have tail : ∀ h : List Word, ∀ x : Word, (h = glue c [x] ∨ h = c ∧ x = []) →
      (if withTail h d = [] then [v.word] else withTail h d) = glue (glue c [x]) d := by
    intro h x start
    have filled : glue c [x] ≠ [] := glue_ne_nil (Or.inr (by simp))
    have same : c ≠ [] → h = glue c [x] := fun some_ => by
      rcases start with start | ⟨rfl, rfl⟩
      · exact start
      · exact (glue_empty some_).symm
    rcases plain with ⟨d₀, first, filled₀⟩ | ⟨alone, some_⟩
    · obtain ⟨ds, rfl⟩ : ∃ ds, d = d₀ :: ds := by
        cases d with
        | nil => exact nomatch first
        | cons d₁ ds => exact ⟨ds, by rw [Option.some.inj (Option.mem_def.mp first)]⟩
      rw [withTail, if_neg filled₀]
      by_cases none_ : h = []
      · rw [if_pos none_, if_neg (by simp)]
        rcases start with start | ⟨rfl, rfl⟩
        · exact absurd (start.symm.trans none_) filled
        · rw [none_]
          rfl
      · rw [if_neg none_, onLast_glue none_, if_neg (glue_ne_nil (Or.inl none_))]
        rcases start with start | ⟨rfl, rfl⟩
        · rw [start]
        · rw [glue_empty none_]
    · rw [same some_]
      cases d with
      | nil =>
        rw [withTail, if_neg filled]
        have last (l : List Word) : glue l [] = l := by
          induction l with
          | nil => rfl
          | cons w l ih => cases l <;> simp_all [glue]
        exact (last _).symm
      | cons d₀ ds =>
        obtain rfl : ds = [] := alone
        rw [withTail]
        by_cases empty : d₀ = []
        · rw [if_pos empty, if_neg filled, empty, glue_empty filled]
        · rw [if_neg empty, if_neg filled, onLast_glue filled, if_neg (glue_ne_nil (Or.inl filled))]
  by_cases positive : nmid > 0
  · rw [if_pos (decide_eq_true positive), if_pos positive]
    refine tail _ _ (Or.inl ?_)
    by_cases none_ : c = []
    · rw [if_pos none_, none_]
      rfl
    · rw [if_neg none_, ← onLast_glue none_, List.append_nil]
  · rw [if_neg positive, decide_eq_false positive]
    exact tail c [] (Or.inr ⟨rfl, rfl⟩)

theorem splits_firsts {x : Word} (splits : Splits a b w x) :
    (∃ A, (choices a).find? (· <+: w) = some A) ∧ ∃ B, (choices b).find? (· <:+ w) = some B := by
  obtain ⟨A, inA, B, inB, rfl⟩ := splits
  constructor
  · exact Option.isSome_iff_exists.mp (List.find?_isSome.mpr ⟨A, inA, by simp [List.append_assoc]⟩)
  · exact Option.isSome_iff_exists.mp (List.find?_isSome.mpr ⟨B, inB, by simpa using (List.suffix_append x B).trans (List.suffix_append A _)⟩)

theorem find_spec {l : List Word} {A : Word} (found : l.find? p = some A) : A ∈ l ∧ p A = true :=
  ⟨List.mem_of_find?_eq_some found, List.find?_some found⟩

theorem right_of_cond (plain : Plain c d) (cond : Cond a b v.word) : Right a b c d v := by
  have looks : looksBefore v a b = false := (looksBefore_iff v a b).mpr fun first => (cond first).1
  refine ⟨looks, ?_⟩
  cases first : (choices a).find? (· <+: v.word) with
  | none =>
    refine Or.inr ⟨fun ⟨x, splits⟩ => ?_, ?_⟩
    · obtain ⟨⟨A, other⟩, -⟩ := splits_firsts splits
      exact absurd (first.symm.trans other) (Option.some_ne_none _).symm
    · unfold subword
      rw [submatch_eq, first]
      rfl
  | some A =>
    obtain ⟨inA, pre⟩ := find_spec first
    obtain ⟨short, apart⟩ := cond ⟨A, inA, of_decide_eq_true pre⟩
    have same : (choices b).find? (· <:+ v.before ++ v.word) = (choices b).find? (· <:+ v.word) := by
      rw [choices_find b (by simp), choices_find b (by simp), find_before short]
    cases second : (choices b).find? (· <:+ v.word) with
    | none =>
      refine Or.inr ⟨fun ⟨x, splits⟩ => ?_, ?_⟩
      · obtain ⟨-, B, other⟩ := splits_firsts splits
        exact absurd (second.symm.trans other) (Option.some_ne_none _).symm
      · unfold subword
        rw [submatch_eq, first, same, second]
        rfl
    | some B =>
      obtain ⟨inB, suf⟩ := find_spec second
      obtain ⟨rest, whole⟩ := of_decide_eq_true pre
      have found : submatch v a b = some (A.length, (v.word.length : Int) - A.length - B.length) := by
        rw [submatch_eq, first, same, second]
        rfl
      left
      by_cases fits : A.length + B.length ≤ v.word.length
      · -- the two are apart, and `x` is what is between them
        have suf' : B <:+ rest := by
          have tail : rest <:+ v.word := ⟨A, whole⟩
          have length : A.length + rest.length = v.word.length := by rw [← List.length_append, whole]
          exact List.suffix_of_suffix_length_le (of_decide_eq_true suf) tail (by omega)
        obtain ⟨x, rfl⟩ := suf'
        have length : A.length + (x.length + B.length) = v.word.length := by
          rw [← whole, List.length_append, List.length_append]
        refine ⟨x, ⟨A, inA, B, inB, by rw [List.append_assoc, whole]⟩, ?_⟩
        rw [subword_glue plain found]
        have middle : (if (v.word.length : Int) - A.length - B.length > 0 then
            (v.word.drop A.length).take ((v.word.length : Int) - A.length - B.length).toNat else []) = x := by
          have count : ((v.word.length : Int) - A.length - B.length).toNat = x.length := by omega
          rw [← whole, List.drop_left, whole, count, List.take_left]
          split
          · rfl
          · exact (List.length_eq_zero_iff.mp (by omega)).symm
        rw [middle]
      · have exact_ := (apart A B first second).resolve_left fits
        refine ⟨[], exact_, ?_⟩
        rw [subword_glue plain found, if_neg (by omega)]

/-- For some `C` and `D`, any other word goes wrong. -/
theorem cond_of_right (right : ∀ c d, Plain c d → Right a b c d v) : Cond a b v.word := by
  rintro ⟨A₀, inA₀, pre₀⟩
  have long : Plain [List.replicate (v.word.length + 1) 0] [[0]] := Or.inr ⟨rfl, by simp⟩
  obtain ⟨looks, replaced⟩ := right _ _ long
  have short := (looksBefore_iff v a b).mp looks ⟨A₀, inA₀, pre₀⟩
  refine ⟨short, fun A B first second => ?_⟩
  by_contra other
  obtain ⟨overlap, none_⟩ := not_or.mp other
  have same : (choices b).find? (· <:+ v.before ++ v.word) = (choices b).find? (· <:+ v.word) := by
    rw [choices_find b (by simp), choices_find b (by simp), find_before short]
  have found : submatch v a b = some (A.length, (v.word.length : Int) - A.length - B.length) := by
    rw [submatch_eq, first, same, second]
    rfl
  rw [subword_glue long found, if_neg (by omega)] at replaced
  rcases replaced with ⟨x, splits, out⟩ | ⟨-, out⟩
  · have lengths := congrArg (fun l : List Word => (l.map List.length).sum) out
    simp only [glue, List.map_cons, List.map_nil, List.sum_cons, List.sum_nil, List.length_append, List.length_nil,
      List.length_singleton] at lengths
    obtain rfl : x = [] := List.length_eq_zero_iff.mp (by omega)
    exact none_ splits
  · have lengths := congrArg (fun l : List Word => (l.map List.length).sum) out
    simp only [glue, List.map_cons, List.map_nil, List.sum_cons, List.sum_nil, List.length_append, List.length_nil,
      List.length_singleton, List.length_replicate] at lengths
    omega

theorem plain_of_right (right : ∀ a b v, Cond a b v.word → Right a b c d v) : Plain c d := by
  -- the word is all of `A'`
  have cond : Cond [[1]] [] [1] := by
    rintro -
    refine ⟨fun B member => (nomatch member), fun A B first second => Or.inl ?_⟩
    obtain rfl : [1] = A := by simpa [choices] using first
    obtain rfl : [] = B := by simpa [choices] using second
    decide
  have only : ∀ x, Splits [[1]] [] [1] x → x = [] := by
    rintro x ⟨A, inA, B, inB, same⟩
    obtain rfl : A = [1] := by simpa [choices] using inA
    obtain rfl : B = [] := by simpa [choices] using inB
    simpa using same
  obtain ⟨-, replaced⟩ := right [[1]] [] ⟨[], [1]⟩ cond
  have split : Splits [[1]] [] [1] [] := ⟨[1], by simp [choices], [], by simp [choices], rfl⟩
  have code : subword [[1]] [] c d true ⟨[], [1]⟩ =
      if withTail c d = [] then [[1]] else withTail c d := by
    unfold subword
    rw [show submatch ⟨[], [1]⟩ [[1]] [] = some (1, 0) by decide]
    simp
  rw [code] at replaced
  by_contra other
  obtain ⟨head, rest⟩ := not_or.mp other
  have value : (if withTail c d = [] then [[1]] else withTail c d) = glue (glue c [[]]) d := by
    rcases replaced with ⟨x, splits, out⟩ | ⟨none_, -⟩
    · rw [out, only x splits]
    · exact absurd ⟨[], split⟩ none_
  cases d with
  | nil =>
    obtain rfl : c = [] := by
      by_contra some_
      exact rest (And.intro rfl some_)
    exact absurd value (by decide)
  | cons d₀ ds =>
    obtain rfl : d₀ = [] := by
      by_contra some_
      exact head ⟨d₀, rfl, some_⟩
    rw [withTail, if_pos rfl] at value
    by_cases none_ : c = []
    · rw [if_pos none_, none_] at value
      exact absurd (congrArg List.head? value) (by simp [glue])
    · rw [if_neg none_, glue_empty none_] at value
      have lengths := length_glue [] ds none_
      rw [← value] at lengths
      exact rest ⟨List.length_eq_zero_iff.mp (by rw [List.tail_cons]; omega), none_⟩

end Match

theorem Form.subsub_eq {charin : List UInt8 → List UInt8 → Option Nat} {stow : List UInt8 → List Word} {s : List UInt8}
    {a b c d : List Word} (form : Form charin stow s a b c d) (v : List Held) :
    subsub charin stow v s = v.flatMap (subword a b c d true) := by
  obtain ⟨A, B, C, D, p, q, rfl, p', q', first, second, third, rfl, rfl, rfl, rfl⟩ := form
  have part (X : List UInt8) (t : UInt8) (Y term : List UInt8) (found : charin (X ++ t :: Y) term = some X.length) :
      extractpat charin stow (X ++ t :: Y) term = (if X = [] then [] else stow X, t :: Y) := by
    unfold extractpat
    rw [found]
    dsimp only
    rw [List.take_left, List.drop_left]
    simp only [List.length_eq_zero_iff]
  have head (t : UInt8) (Y : List UInt8) (is : percent [t] = true) : percent (t :: Y) = true := is
  unfold subsub
  rw [part _ _ _ _ first]
  dsimp only
  rw [if_pos (head p _ p'), List.tail_cons, part _ _ _ _ second]
  dsimp only
  rw [List.head?_cons, if_pos rfl, List.tail_cons, part _ _ _ _ third]
  dsimp only
  rw [if_pos (head q _ q'), List.tail_cons, head q _ q']

end Inferno.Mk
