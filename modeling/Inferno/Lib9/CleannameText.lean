import Inferno.Lib9.Cleanname

namespace Inferno.Lib9

open Lib

/-- The bytes stand at the start of the buffer. -/
def Spells (mem : ByteMem) (t : List UInt8) : Prop := ∀ i c, t[i]? = some c → mem i = c

/-- Where an element ends. -/
def Bound (u : List UInt8) : Prop := u = [] ∨ u.head? = some slash

variable {mem mem' : ByteMem} {t u v w e : List UInt8} {rooted first : Bool} {kept reals dots : List Elem} {c : UInt8}
  {x : Elem}

theorem Spells.congr (spells : Spells mem t) (same : ∀ i < t.length, mem' i = mem i) : Spells mem' t := by
  intro i c there
  rw [same i (List.getElem?_eq_some_iff.mp there).choose]
  exact spells i c there

theorem Spells.put (spells : Spells mem t) (c : UInt8) : Spells (Function.update mem t.length c) (t ++ [c]) := by
  intro i d there
  rcases lt_or_ge i t.length with before | after
  · rw [List.getElem?_append_left before] at there
    rw [Function.update_of_ne (by omega)]
    exact spells i d there
  · rw [List.getElem?_append_right after] at there
    obtain ⟨inside, same⟩ := List.getElem?_eq_some_iff.mp there
    rw [List.length_singleton] at inside
    have last : i = t.length := by omega
    subst last
    rw [Function.update_self]
    simpa only [Nat.sub_self, List.getElem_singleton] using same

theorem Spells.left (spells : Spells mem (t ++ u)) : Spells mem t := fun i c there => by
  refine spells i c ?_
  rw [List.getElem?_append_left (List.getElem?_eq_some_iff.mp there).choose]
  exact there

theorem Spells.mem_right (spells : Spells mem (t ++ u)) {i : Nat} (less : i < u.length) : mem (t.length + i) ∈ u := by
  have there : (t ++ u)[t.length + i]? = some u[i] := by
    rw [List.getElem?_append_right (Nat.le_add_right ..), Nat.add_sub_cancel_left, List.getElem?_eq_getElem less]
  rw [spells _ _ there]
  exact List.getElem_mem less

theorem elems_false (u : List UInt8) : elems false u = (u.splitOn slash).map (·, false) := by
  unfold elems
  split
  · rename_i none
    rw [none]
    rfl
  · rename_i e es some_
    rw [some_]
    rfl

theorem elems_slash (first : Bool) (v : List UInt8) : elems first (slash :: v) = ([], first) :: elems false v := by
  have split : (slash :: v).splitOn slash = [] :: v.splitOn slash :=
    List.splitOn_append_cons_self_of_not_mem (List.not_mem_nil (a := slash)) v
  rw [elems_false]
  unfold elems
  rw [split]

theorem keep_nil (rooted first : Bool) (kept : List Elem) : keep rooted kept ([], first) = kept := if_pos (Or.inl rfl)

theorem foldl_slash (rooted first : Bool) (kept : List Elem) (v : List UInt8) :
    (elems first (slash :: v)).foldl (keep rooted) kept = (elems false v).foldl (keep rooted) kept := by
  rw [elems_slash, List.foldl_cons, keep_nil]

/-- The first element and what follows it. -/
theorem foldl_elem (clean : slash ∉ e) (ends : Bound v) (rooted first : Bool) (kept : List Elem) :
    (elems first (e ++ v)).foldl (keep rooted) kept =
      (elems false v).foldl (keep rooted) (keep rooted kept (e, first)) := by
  cases v with
  | nil =>
    have split : (e ++ []).splitOn slash = [e] := by rw [List.append_nil, List.splitOn_eq_singleton clean]
    have none : elems false [] = [([], false)] := rfl
    rw [none, List.foldl_cons, keep_nil, elems, split]
    rfl
  | cons c v =>
    obtain rfl : c = slash := by
      rcases ends with none | head
      · nomatch none
      · exact Option.some.inj head
    have split : (e ++ slash :: v).splitOn slash = e :: v.splitOn slash :=
      List.splitOn_append_cons_self_of_not_mem clean v
    rw [foldl_slash, elems, split, elems_false]
    rfl

theorem text_nil (rooted : Bool) : text rooted [] = if rooted then [slash] else [] := List.append_nil _

theorem intercalate_snoc {l : List (List UInt8)} (some_ : l ≠ []) (e : List UInt8) :
    [slash].intercalate (l ++ [e]) = [slash].intercalate l ++ slash :: e := by
  induction l with
  | nil => exact absurd rfl some_
  | cons a l ih =>
    cases l with
    | nil => simp only [List.cons_append, List.nil_append, List.intercalate_cons_cons, List.intercalate_singleton,
        List.append_assoc]
    | cons b l =>
      rw [List.cons_append, List.cons_append, List.intercalate_cons_cons, List.intercalate_cons_cons,
        ← List.cons_append, ih (List.cons_ne_nil b l), List.append_assoc, List.append_assoc, List.append_assoc]

theorem text_single (rooted : Bool) (x : Elem) : text rooted [x] = (if rooted then [slash] else []) ++ x.1 := by
  unfold text
  rw [List.reverse_singleton, List.map_singleton, List.intercalate_singleton]

theorem text_cons (some_ : kept ≠ []) (rooted : Bool) (x : Elem) :
    text rooted (x :: kept) = text rooted kept ++ slash :: x.1 := by
  have ne : kept.reverse.map Prod.fst ≠ [] := fun none =>
    some_ (List.reverse_eq_nil_iff.mp (List.map_eq_nil_iff.mp none))
  unfold text
  rw [List.reverse_cons, List.map_append, List.map_singleton, intercalate_snoc ne, List.append_assoc]

theorem length_text_nil (rooted : Bool) : (text rooted []).length = rooted.toNat := by
  rw [text_nil]
  cases rooted <;> rfl

theorem length_text_single (rooted : Bool) (x : Elem) : (text rooted [x]).length = rooted.toNat + x.1.length := by
  rw [text_single, List.length_append, ← length_text_nil rooted, text_nil]

theorem length_text_cons (some_ : kept ≠ []) (rooted : Bool) (x : Elem) :
    (text rooted (x :: kept)).length = (text rooted kept).length + 1 + x.1.length := by
  rw [text_cons some_, List.length_append, List.length_cons]
  omega

/-- A stack of kept elements: real ones above those that are `..`, of which a rooted name has none. -/
structure Kept (rooted : Bool) (reals dots : List Elem) : Prop where
  real : ∀ x ∈ reals, x.1 ≠ [] ∧ x.1 ≠ [dot] ∧ x.1 ≠ [dot, dot] ∧ slash ∉ x.1 ∧ 0 ∉ x.1
  up : ∀ x ∈ dots, x.1 = [dot, dot]
  root : rooted = true → dots = []

theorem Kept.nil (rooted : Bool) : Kept rooted [] [] :=
  ⟨fun _ member => (nomatch member), fun _ member => (nomatch member), fun _ => rfl⟩

theorem length_text_le (rooted : Bool) (kept reals : List Elem) :
    (text rooted kept).length ≤ (text rooted (reals ++ kept)).length := by
  induction reals with
  | nil => exact le_refl _
  | cons x reals ih =>
    refine ih.trans ?_
    rcases eq_or_ne (reals ++ kept) [] with none | some_
    · rw [List.cons_append, none, length_text_nil, length_text_single]
      omega
    · rw [List.cons_append, length_text_cons some_]
      omega

theorem lt_length_text (keeps : Kept rooted (x :: reals) dots) :
    (text rooted dots).length < (text rooted (x :: reals ++ dots)).length := by
  refine (length_text_le rooted dots reals).trans_lt ?_
  have some_ := (keeps.real x List.mem_cons_self).1
  have pos := List.length_pos_iff.mpr some_
  rcases eq_or_ne (reals ++ dots) [] with none | more
  · rw [List.cons_append, none, length_text_nil, length_text_single]
    omega
  · rw [List.cons_append, length_text_cons more]
    omega

/-- An unrooted name is not empty where an element is kept. -/
theorem kept_of_length (keeps : Kept rooted reals dots) (short : (text rooted (reals ++ dots)).length = rooted.toNat) :
    reals ++ dots = [] := by
  by_contra some_
  obtain ⟨x, rest, made⟩ := List.exists_cons_of_ne_nil some_
  have pos : 0 < x.1.length := by
    have member : x ∈ reals ++ dots := made ▸ List.mem_cons_self
    rcases List.mem_append.mp member with plain | parent
    · exact List.length_pos_iff.mpr (keeps.real x plain).1
    · rw [keeps.up x parent]
      decide
  rw [made] at short
  rcases eq_or_ne rest [] with none | more
  · rw [none, length_text_single] at short
    omega
  · have least := length_text_le rooted [] rest
    rw [List.append_nil, length_text_nil] at least
    rw [length_text_cons more] at short
    omega

/-- The scan for the slash before the last element. -/
theorem back_eq {d l q : Nat} (low : d ≤ l) (less : l < q) (clean : ∀ i, l < i → i < q → mem i ≠ slash)
    (stop : l = d ∨ mem l = slash) : back mem d q = l := by
  induction q with
  | zero => omega
  | succ q ih =>
    unfold back
    rcases eq_or_ne q l with rfl | other
    · rw [if_neg]
      rintro ⟨above, plain⟩
      rcases stop with same | there
      · omega
      · exact plain there
    · rw [if_pos ⟨by omega, clean q (by omega) (by omega)⟩]
      exact ih (by omega) fun i from_ below => clean i from_ (by omega)

/-- Backing up takes off the last real element. -/
theorem back_text (keeps : Kept rooted (x :: reals) dots) (spells : Spells mem (text rooted (x :: reals ++ dots))) :
    back mem (text rooted dots).length (text rooted (x :: reals ++ dots)).length =
      (text rooted (reals ++ dots)).length := by
  obtain ⟨some_, -, -, clean, -⟩ := keeps.real x List.mem_cons_self
  have pos := List.length_pos_iff.mpr some_
  have least := length_text_le rooted dots reals
  rw [List.cons_append] at spells ⊢
  rcases eq_or_ne (reals ++ dots) [] with none | more
  · obtain ⟨-, noDots⟩ := List.append_eq_nil_iff.mp none
    rw [none] at spells ⊢
    rw [noDots, length_text_single, length_text_nil]
    rw [text_single, ← text_nil] at spells
    refine back_eq (le_refl _) (by omega) (fun i from_ below there => clean ?_) (Or.inl rfl)
    have member := spells.mem_right (i := i - rooted.toNat) (by omega)
    rw [length_text_nil, Nat.add_sub_cancel' from_.le, there] at member
    exact member
  · rw [length_text_cons more]
    rw [text_cons more] at spells
    refine back_eq least (by omega) (fun i from_ below there => clean ?_) (Or.inr ?_)
    · have member := (List.append_cons (text rooted (reals ++ dots)) slash x.1 ▸ spells).mem_right
        (i := i - ((text rooted (reals ++ dots)).length + 1)) (by omega)
      rw [List.length_append, List.length_singleton, Nat.add_sub_cancel' (by omega), there] at member
      exact member
    · refine spells _ _ ?_
      rw [List.getElem?_append_right (le_refl _), Nat.sub_self]
      rfl

end Inferno.Lib9
