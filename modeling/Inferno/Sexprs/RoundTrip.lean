import Inferno.Sexprs.Parse

namespace Inferno.Sexprs

open Strings Styxlib

variable {junk : UInt8} {a b l : List UInt8} {c : UInt8} {k n steps : Nat} {e : Sexp} {text : Text}

def Sexp.hint : Sexp → Text
  | .string _ hint => hint
  | .binary _ hint => hint
  | _ => []

/-- A token that is not too long. -/
def Short (junk : UInt8) (e : Sexp) : Prop := (e.asdata junk).length ≤ Maxtoken ∧ (cvtca junk e.hint).length ≤ Maxtoken

/-- A hint that is a text. -/
def Plain (junk : UInt8) (e : Sexp) : Prop := istextual (cvtca junk e.hint) = true

/-- Strings of which UTF-8 has the characters. -/
def Known (e : Sexp) : Prop := (∀ c ∈ e.hint, Scalar c) ∧ ∀ s hint, e = .string s hint → ∀ c ∈ s, Scalar c

/-- A text is its own bytes. -/
theorem textual_eq (textual : istextual b = true) : cvtca junk (runesOf b) = b := by
  have small : ∀ c ∈ b, c.toNat < 0x80 := by
    intro c member
    have one := List.all_eq_true.mp textual c member
    have below := of_decide_eq_true one
    omega
  have scalars : ∀ c ∈ b.map UInt8.toNat, Scalar c := by
    intro c member
    obtain ⟨byte, inside, rfl⟩ := List.mem_map.mp member
    exact scalar_of_le (by have := small byte inside; omega)
  have same : cvtca junk (b.map UInt8.toNat) = b := by
    rw [cvtca_scalars scalars]
    clear scalars textual
    induction b with
    | nil => rfl
    | cons c b ih =>
      obtain ⟨first, rest⟩ := List.forall_mem_cons.mp small
      rw [List.map_cons, List.flatMap_cons, ih rest, runetochar_one first, UInt8.ofNat_toNat]
      rfl
  have back := @runesOf_cvtca _ junk scalars
  rw [same] at back
  rw [back, same]

theorem shape_sform : (sform b text).shape junk = .leaf text b := by
  unfold sform
  split
  · rename_i textual
    simp only [Sexp.shape, textual_eq textual]
  · simp only [Sexp.shape]

mutual

/-- What is read of the packed form. -/
def Sexp.again (junk : UInt8) : Sexp → Sexp
  | .nil => .nil
  | .string s hint => sform (cvtca junk s) hint
  | .binary data hint => sform data hint
  | .list l => .list (Sexp.agains junk l)

def Sexp.agains (junk : UInt8) : List Sexp → List Sexp
  | [] => []
  | e :: l => e.again junk :: Sexp.agains junk l

end

mutual

theorem shape_again : ∀ e : Sexp, (e.again junk).shape junk = e.shape junk
  | .nil => by simp only [Sexp.again]
  | .string s hint => by simp only [Sexp.again, shape_sform, Sexp.shape]
  | .binary data hint => by simp only [Sexp.again, shape_sform, Sexp.shape]
  | .list l => by simp only [Sexp.again, Sexp.shape, shapes_agains l]

theorem shapes_agains : ∀ l : List Sexp, Sexp.shapes junk (Sexp.agains junk l) = Sexp.shapes junk l
  | [] => by simp only [Sexp.agains]
  | e :: l => by simp only [Sexp.agains, Sexp.shapes, shape_again e, shapes_agains l]

end

theorem digit_plain {d : UInt8} (digit : isdigit d.toNat = true) : isspace d.toNat = false ∧ ¬((d.toNat : Int) < 0) ∧ (d.toNat : Int) ≠ 0x7B ∧
    (d.toNat : Int) ≠ 0x28 ∧ (d.toNat : Int) ≠ 0x5B ∧ (d.toNat : Int) ≠ 0x29 := by
  obtain ⟨low, high⟩ := isdigit_iff.mp digit
  refine ⟨decide_eq_false ?_, ?_, ?_, ?_, ?_, ?_⟩
  all_goals omega

/-- An item that is a token without a hint. -/
theorem plain_at (small : b.length ≤ Maxtoken) (ahead : a.drop k = tok b ++ l) (enough : (tok b).length + 2 ≤ steps) :
    parseitem steps Iobuf (at_ a k) = .ok (sform b []) (at_ a (k + (tok b).length)) := by
  obtain ⟨n, rfl⟩ : ∃ n, steps = n + 2 := ⟨steps - 2, by omega⟩
  obtain ⟨d, digit, next, run⟩ := @token_at _ _ _ _ (n + 1) [] small ahead (by omega)
  obtain ⟨solid, positive, brace, round, square, -⟩ := digit_plain digit
  unfold parseitem
  rw [ok_then offset_at, ok_then (ws_at next solid), if_neg positive]
  dsimp only
  rw [if_neg brace, if_neg round, if_neg square]
  exact run

/-- An item with a hint: it must be a text. -/
theorem hinted_at {h : List UInt8} (smallhint : h.length ≤ Maxtoken) (small : b.length ≤ Maxtoken)
    (ahead : a.drop k = 0x5B :: tok h ++ [0x5D] ++ tok b ++ l) (enough : (tok h).length + (tok b).length + 4 ≤ steps) :
    parseitem steps Iobuf (at_ a k) = if istextual h then .ok (sform b (runesOf h)) (at_ a (k + ((tok h).length + 2 + (tok b).length)))
      else .error (.malformed "illegal display hint" Here) (at_ a (k + ((tok h).length + 2))) := by
  obtain ⟨n, rfl⟩ : ∃ n, steps = n + 2 := ⟨steps - 2, by omega⟩
  simp only [List.cons_append, List.append_assoc] at ahead
  have first := drop_next ahead
  have close := drop_more first
  have last := drop_next close
  have place : k + 1 + (tok h).length + 1 = k + ((tok h).length + 2) := by omega
  obtain ⟨d, -, next, run⟩ := @token_at _ _ _ _ (n + 1) [] smallhint first (by omega)
  unfold parseitem
  rw [ok_then offset_at, ok_then (ws_at ahead (by decide)), if_neg (by decide)]
  dsimp only
  rw [if_neg (by decide), if_neg (by decide), if_pos (by decide), ok_then (getb_at next), ok_then run,
    ok_then (ws_at close (by decide)), if_neg (by decide)]
  unfold sform
  by_cases textual : istextual h = true
  · obtain ⟨d', digit, next', run'⟩ := @token_at _ _ _ _ (n + 1) (runesOf h) small last (by omega)
    rw [if_pos textual, if_pos textual]
    dsimp only
    rw [ok_then (ws_at next' (digit_plain digit).1), run', place]
    refine congrArg (fun n => EStateM.Result.ok (sform b (runesOf h)) (at_ a n)) ?_
    omega
  · rw [if_neg textual, if_neg textual, place]
    rfl

/-- What the packed form of an item begins with. -/
theorem canon_cons (whole : e.Whole) : ∃ c rest, (e.shape junk).canon junk = c :: rest ∧ isspace c.toNat = false ∧ (c.toNat : Int) ≠ 0x29 := by
  have leaf : ∀ {h b}, ∃ c rest, hinted junk h ++ tok b = c :: rest ∧ isspace c.toNat = false ∧ (c.toNat : Int) ≠ 0x29 := by
    intro h b
    unfold hinted
    split
    · obtain ⟨d, ds, first⟩ := decimal_cons b.length
      have digit := decimal_digits b.length d (by rw [first]; exact List.mem_cons_self ..)
      obtain ⟨solid, -, -, -, -, other⟩ := digit_plain digit
      exact ⟨d, ds ++ [0x3A] ++ b, by rw [tok, aprint, first]; rfl, solid, other⟩
    · exact ⟨0x5B, tok (cvtca junk h) ++ [0x5D] ++ tok b, rfl, by decide, by decide⟩
  cases e with
  | nil => exact absurd rfl whole
  | string s h =>
    simp only [Sexp.shape, Shape.canon]
    exact leaf
  | binary data h =>
    simp only [Sexp.shape, Shape.canon]
    exact leaf
  | list l =>
    simp only [Sexp.shape, Shape.canon]
    exact ⟨0x28, _, rfl, by decide, by decide⟩

/-- Where it is read: back to what it was, or to a diagnostic. -/
def Reads (good : Prop) {α : Type} (r : EStateM.Result Err Iobuf α) (x : α) (t : Iobuf) : Prop :=
  (good → r = .ok x t) ∧ (¬good → ∃ diag pos t', r = .error (.malformed diag pos) t')

theorem leaf_reads {h : Text} (known : ∀ c ∈ h, Scalar c) (smallhint : (cvtca junk h).length ≤ Maxtoken) (small : b.length ≤ Maxtoken)
    (ahead : a.drop k = hinted junk h ++ tok b ++ l) (enough : (hinted junk h ++ tok b).length + 2 ≤ steps) :
    Reads (istextual (cvtca junk h) = true) (parseitem steps Iobuf (at_ a k)) (sform b h) (at_ a (k + (hinted junk h ++ tok b).length)) := by
  by_cases none_ : h = []
  · subst none_
    have empty : hinted junk [] = [] := rfl
    rw [empty, List.nil_append] at ahead enough ⊢
    exact ⟨fun _ => plain_at small ahead enough, fun odd => absurd rfl odd⟩
  · have whole : hinted junk h = 0x5B :: tok (cvtca junk h) ++ [0x5D] := if_neg none_
    have length : (hinted junk h ++ tok b).length = (tok (cvtca junk h)).length + 2 + (tok b).length := by
      rw [whole, List.length_append, List.length_append, List.length_cons]
      rfl
    rw [length] at enough ⊢
    rw [whole] at ahead
    have run := hinted_at smallhint small ahead (by omega : (tok (cvtca junk h)).length + (tok b).length + 4 ≤ steps)
    rw [runesOf_cvtca known] at run
    constructor
    · intro textual
      rw [run, if_pos textual]
    · intro odd
      rw [run, if_neg odd]
      exact ⟨_, _, _, rfl⟩

mutual

theorem item_reads : ∀ (e : Sexp) {a l : List UInt8} {k steps : Nat}, e.Whole → e.Every (Short junk) → e.Every Known →
    a.drop k = (e.shape junk).canon junk ++ l → ((e.shape junk).canon junk).length + 2 ≤ steps →
    Reads (e.Every (Plain junk)) (parseitem steps Iobuf (at_ a k)) (e.again junk) (at_ a (k + ((e.shape junk).canon junk).length))
  | .nil, a, l, k, steps, whole, short, known, ahead, enough => absurd rfl whole
  | .string s h, a, l, k, steps, whole, short, known, ahead, enough => by
    simp only [Sexp.shape, Shape.canon] at ahead enough ⊢
    exact leaf_reads known.1 short.2 short.1 ahead enough
  | .binary data h, a, l, k, steps, whole, short, known, ahead, enough => by
    simp only [Sexp.shape, Shape.canon] at ahead enough ⊢
    exact leaf_reads known.1 short.2 short.1 ahead enough
  | .list es, a, l, k, steps, whole, short, known, ahead, enough => by
    simp only [Sexp.shape, Shape.canon, Sexp.again] at ahead enough ⊢
    rw [List.length_append, List.length_cons, List.length_singleton] at enough ⊢
    rw [List.append_assoc, List.cons_append, List.singleton_append] at ahead
    obtain ⟨n, rfl⟩ : ∃ n, steps = n + 2 := ⟨steps - 2, by omega⟩
    have next := drop_next ahead
    obtain ⟨good, bad⟩ := @items_read es _ _ _ (n + 1) (n + 1) (at_ a k).offset whole.2 short.2 known.2 next (by omega) (by omega)
    have plain : Plain junk (.list es) := rfl
    unfold parseitem
    rw [ok_then offset_at, ok_then (ws_at ahead (by decide)), if_neg (by decide)]
    dsimp only
    rw [if_neg (by decide), if_pos (by decide)]
    constructor
    · intro all
      rw [ok_then (good all.2)]
      refine congrArg (fun n => EStateM.Result.ok (Sexp.list (Sexp.agains junk es)) (at_ a n)) ?_
      omega
    · intro some_
      obtain ⟨diag, pos, t, run⟩ := bad fun all => some_ ⟨plain, all⟩
      exact ⟨diag, pos, t, error_then run⟩

theorem items_read : ∀ (es : List Sexp) {a l : List UInt8} {k n m : Nat} {p0 : Int}, Sexp.Everys (· ≠ .nil) es → Sexp.Everys (Short junk) es →
    Sexp.Everys Known es → a.drop k = Shape.canons junk (Sexp.shapes junk es) ++ 0x29 :: l →
    (Shape.canons junk (Sexp.shapes junk es)).length + 2 ≤ n → (Shape.canons junk (Sexp.shapes junk es)).length + 2 ≤ m →
    Reads (Sexp.Everys (Plain junk) es) (Rd.items (parseitem n Iobuf) p0 m (at_ a k)) (Sexp.agains junk es)
      (at_ a (k + (Shape.canons junk (Sexp.shapes junk es)).length + 1))
  | [], a, l, k, n, m, p0, whole, short, known, ahead, enough, more => by
    simp only [Sexp.shapes, Shape.canons, List.nil_append, List.length_nil] at ahead more ⊢
    obtain ⟨m, rfl⟩ : ∃ m', m = m' + 2 := ⟨m - 2, by omega⟩
    unfold Rd.items
    rw [ok_then (ws_at ahead (by decide)), if_pos (by decide)]
    exact ⟨fun _ => rfl, fun odd => absurd trivial odd⟩
  | e :: es, a, l, k, n, m, p0, whole, short, known, ahead, enough, more => by
    simp only [Sexp.shapes, Shape.canons] at ahead enough more ⊢
    rw [List.length_append] at enough more ⊢
    rw [List.append_assoc] at ahead
    obtain ⟨m, rfl⟩ : ∃ m', m = m' + 2 := ⟨m - 2, by omega⟩
    obtain ⟨c, rest, first, solid, open_⟩ := @canon_cons junk _ whole.1
    have positive : 0 < ((e.shape junk).canon junk).length := by
      rw [first]
      exact Nat.zero_lt_succ _
    have head : a.drop k = c :: (rest ++ (Shape.canons junk (Sexp.shapes junk es) ++ 0x29 :: l)) := by
      rw [ahead, first]
      rfl
    obtain ⟨good₁, bad₁⟩ := @item_reads e _ _ _ n whole.1 short.1 known.1 ahead (by omega)
    obtain ⟨good₂, bad₂⟩ := @items_read es _ _ _ n (m + 1) p0 whole.2 short.2 known.2 (drop_more ahead) (by omega) (by omega)
    unfold Rd.items
    rw [ok_then (ws_at head solid), if_neg open_]
    dsimp only
    rw [if_neg (by omega), ok_then ungetb_at]
    constructor
    · intro all
      rw [ok_then (good₁ all.1), ok_then (good₂ all.2), ← Nat.add_assoc]
      rfl
    · intro some_
      by_cases one : e.Every (Plain junk)
      · obtain ⟨diag, pos, t, run⟩ := bad₂ fun all => some_ ⟨one, all⟩
        exact ⟨diag, pos, t, by rw [ok_then (good₁ one), error_then run]⟩
      · obtain ⟨diag, pos, t, run⟩ := bad₁ one
        exact ⟨diag, pos, t, by rw [error_then run]⟩

end

end Inferno.Sexprs
