import Inferno.Sexprs.Readable

namespace Inferno.Sexprs

open Strings Styxlib

variable {junk : UInt8} {e : Sexp}

/-- It is packed, in as many bytes as it should, and comes back with nothing left over. Each step of the reader takes a byte. -/
def Faithful (junk : UInt8) (e : Sexp) : Prop :=
  ∃ bytes, e.pack junk = some bytes ∧ bytes.length = e.packedsize junk ∧
    ∀ steps, bytes.length + 2 ≤ steps → ∃ e', Sexp.unpack steps bytes = some (.inl e', []) ∧ e'.shape junk = e.shape junk

theorem unpack_ok {steps : Nat} {a : List UInt8} {t : Iobuf} (run : parseitem steps Iobuf (at_ a 0) = .ok e t) :
    Sexp.unpack steps a = some (.inl e, a.drop t.offset.toNat) := by
  change parseitem steps Iobuf (Iobuf.aopen a) = _ at run
  unfold Sexp.unpack Sexp.read
  rw [run]

theorem unpack_error {steps : Nat} {a : List UInt8} {diag : String} {pos : Int} {t : Iobuf}
    (run : parseitem steps Iobuf (at_ a 0) = .error (.malformed diag pos) t) : ∃ said rest, Sexp.unpack steps a = some (.inr said, rest) := by
  change parseitem steps Iobuf (Iobuf.aopen a) = _ at run
  unfold Sexp.unpack Sexp.read
  rw [run]
  exact ⟨_, _, rfl⟩

/-- Nothing is read of nothing. -/
theorem unpack_nil {steps : Nat} (enough : 2 ≤ steps) : Sexp.unpack steps [] = some (.inl .nil, []) := by
  obtain ⟨n, rfl⟩ : ∃ n, steps = n + 2 := ⟨steps - 2, by omega⟩
  have run : parseitem (n + 2) Iobuf (at_ [] 0) = .ok .nil ⟨[], 0, 0, 0⟩ := by
    unfold parseitem
    rw [ok_then offset_at]
    unfold Rd.ws
    rfl
  exact unpack_ok run

theorem faithful_iff (short : e.Every (Short junk)) (known : e.Every Known) :
    Faithful junk e ↔ (e = .nil ∨ e.Whole) ∧ e.Every (Plain junk) ∧ ((e.shape junk).canon junk).length + 64 < 2 ^ 31 := by
  have reads : e.Whole → ∀ steps, ((e.shape junk).canon junk).length + 2 ≤ steps →
      Reads (e.Every (Plain junk)) (parseitem steps Iobuf (at_ ((e.shape junk).canon junk) 0)) (e.again junk)
        (at_ ((e.shape junk).canon junk) ((e.shape junk).canon junk).length) := by
    intro whole steps enough
    have read := item_reads e (a := (e.shape junk).canon junk) (l := []) (k := 0) whole short known (by rw [List.append_nil]; rfl) enough
    rwa [Nat.zero_add] at read
  constructor
  · rintro ⟨bytes, packed, -, back⟩
    obtain ⟨what, small⟩ := pack_some packed
    refine ⟨what, ?_, small⟩
    rcases what with rfl | whole
    · rfl
    · obtain rfl := Option.some.inj (packed.symm.trans (pack_whole (.inr whole) small))
      obtain ⟨e', unpacked, -⟩ := back _ (Nat.le_refl _)
      by_contra odd
      obtain ⟨diag, pos, t, run⟩ := (reads whole _ (Nat.le_refl _)).2 odd
      obtain ⟨said, rest, other⟩ := unpack_error run
      nomatch (unpacked.symm.trans other)
  · rintro ⟨what, plain, small⟩
    refine ⟨_, pack_whole what small, length_canon e, fun steps enough => ⟨e.again junk, ?_, shape_again e⟩⟩
    rcases what with rfl | whole
    · exact unpack_nil enough
    · refine (unpack_ok ((reads whole steps enough).1 plain)).trans ?_
      have last : (at_ ((e.shape junk).canon junk) ((e.shape junk).canon junk).length).offset.toNat = ((e.shape junk).canon junk).length := by
        unfold Iobuf.offset at_
        dsimp only
        omega
      rw [last, List.drop_length]

/-- A token ends where it says. -/
theorem tok_prefix {b₁ b₂ r₁ r₂ : List UInt8} (same : tok b₁ ++ r₁ = tok b₂ ++ r₂) : b₁ = b₂ ∧ r₁ = r₂ := by
  have number : ∀ (b r : List UInt8), (tok b ++ r).takeWhile (fun c => isdigit c.toNat) = decimal b.length := by
    intro b r
    rw [tok, aprint, List.append_assoc, List.append_assoc, List.takeWhile_append_of_pos (decimal_digits b.length)]
    exact List.append_nil _
  have digits : decimal b₁.length = decimal b₂.length := by rw [← number b₁ r₁, same, number b₂ r₂]
  have length : b₁.length = b₂.length := by
    have value := reading_decimal b₁.length
    rw [digits, reading_decimal] at value
    omega
  unfold tok at same
  rw [length, List.append_assoc, List.append_assoc] at same
  exact List.append_inj (List.append_cancel_left same) length

theorem tok_digit (b r : List UInt8) : ∃ d rest, tok b ++ r = d :: rest ∧ isdigit d.toNat = true := by
  obtain ⟨d, ds, first⟩ := decimal_cons b.length
  exact ⟨d, ds ++ [0x3A] ++ b ++ r, by rw [tok, aprint, first]; rfl,
    decimal_digits b.length d (by rw [first]; exact List.mem_cons_self ..)⟩

theorem cvtca_inj {s₁ s₂ : Text} (known₁ : ∀ c ∈ s₁, Scalar c) (known₂ : ∀ c ∈ s₂, Scalar c) (same : cvtca junk s₁ = cvtca junk s₂) :
    s₁ = s₂ := by
  rw [← @runesOf_cvtca _ junk known₁, same, runesOf_cvtca known₂]

theorem leaf_prefix {h₁ h₂ : Text} {b₁ b₂ r₁ r₂ : List UInt8} (known₁ : ∀ c ∈ h₁, Scalar c) (known₂ : ∀ c ∈ h₂, Scalar c)
    (same : hinted junk h₁ ++ tok b₁ ++ r₁ = hinted junk h₂ ++ tok b₂ ++ r₂) : h₁ = h₂ ∧ b₁ = b₂ ∧ r₁ = r₂ := by
  rw [List.append_assoc, List.append_assoc] at same
  unfold hinted at same
  split at same
  · split at same
    · rename_i none₁ none₂
      exact ⟨none₁.trans none₂.symm, tok_prefix same⟩
    · obtain ⟨d, rest, first, digit⟩ := tok_digit b₁ r₁
      rw [List.nil_append, first] at same
      obtain rfl := List.head_eq_of_cons_eq same
      exact absurd digit (by decide)
  · split at same
    · obtain ⟨d, rest, first, digit⟩ := tok_digit b₂ r₂
      rw [List.nil_append, first] at same
      obtain rfl := (List.head_eq_of_cons_eq same).symm
      exact absurd digit (by decide)
    · simp only [List.cons_append, List.append_assoc] at same
      obtain ⟨hints, same⟩ := tok_prefix (List.tail_eq_of_cons_eq same)
      exact ⟨cvtca_inj known₁ known₂ hints, tok_prefix (List.tail_eq_of_cons_eq same)⟩

/-- A leaf does not begin as a list. -/
theorem leaf_list {h : Text} {b r l : List UInt8} (same : hinted junk h ++ tok b ++ r = 0x28 :: l) : False := by
  rw [List.append_assoc] at same
  unfold hinted at same
  split at same
  · obtain ⟨d, rest, first, digit⟩ := tok_digit b r
    rw [List.nil_append, first] at same
    obtain rfl := List.head_eq_of_cons_eq same
    exact absurd digit (by decide)
  · exact absurd (List.head_eq_of_cons_eq same) (by decide)

/-- What a token or a list is, for comparing two of them. -/
theorem shape_leaf (whole : e.Whole) (known : e.Every Known) :
    (∃ h b, e.shape junk = .leaf h b ∧ ∀ c ∈ h, Scalar c) ∨ ∃ l, e = .list l := by
  cases e with
  | nil => exact absurd rfl whole
  | string s h => exact .inl ⟨h, cvtca junk s, by simp only [Sexp.shape], known.1⟩
  | binary data h => exact .inl ⟨h, data, by simp only [Sexp.shape], known.1⟩
  | list l => exact .inr ⟨l, rfl⟩

mutual

/-- No packed form goes on as another does. -/
theorem canon_split : ∀ (e₁ e₂ : Sexp) {r₁ r₂ : List UInt8}, e₁.Whole → e₂.Whole → e₁.Every Known → e₂.Every Known →
    (e₁.shape junk).canon junk ++ r₁ = (e₂.shape junk).canon junk ++ r₂ → e₁.shape junk = e₂.shape junk ∧ r₁ = r₂
  | .list l₁, e₂, r₁, r₂, whole₁, whole₂, known₁, known₂, same => by
    rcases @shape_leaf junk _ whole₂ known₂ with ⟨h, b, leaf, -⟩ | ⟨l₂, rfl⟩
    · rw [leaf] at same
      simp only [Sexp.shape, Shape.canon, List.cons_append] at same
      exact (leaf_list same.symm).elim
    · simp only [Sexp.shape, Shape.canon, List.cons_append, List.append_assoc, List.nil_append] at same ⊢
      obtain ⟨shapes, rest⟩ := canons_prefix l₁ l₂ whole₁.2 whole₂.2 known₁.2 known₂.2 (List.tail_eq_of_cons_eq same)
      exact ⟨congrArg Shape.list shapes, rest⟩
  | .nil, e₂, r₁, r₂, whole₁, whole₂, known₁, known₂, same => absurd rfl whole₁
  | .string s h, e₂, r₁, r₂, whole₁, whole₂, known₁, known₂, same => by
    rcases @shape_leaf junk _ whole₂ known₂ with ⟨h₂, b, leaf, known⟩ | ⟨l₂, rfl⟩
    · rw [leaf] at same ⊢
      simp only [Sexp.shape, Shape.canon] at same ⊢
      obtain ⟨rfl, rfl, rest⟩ := leaf_prefix known₁.1 known same
      exact ⟨rfl, rest⟩
    · simp only [Sexp.shape, Shape.canon, List.cons_append] at same
      exact (leaf_list same).elim
  | .binary data h, e₂, r₁, r₂, whole₁, whole₂, known₁, known₂, same => by
    rcases @shape_leaf junk _ whole₂ known₂ with ⟨h₂, b, leaf, known⟩ | ⟨l₂, rfl⟩
    · rw [leaf] at same ⊢
      simp only [Sexp.shape, Shape.canon] at same ⊢
      obtain ⟨rfl, rfl, rest⟩ := leaf_prefix known₁.1 known same
      exact ⟨rfl, rest⟩
    · simp only [Sexp.shape, Shape.canon, List.cons_append] at same
      exact (leaf_list same).elim

theorem canons_prefix : ∀ (l₁ l₂ : List Sexp) {r₁ r₂ : List UInt8}, Sexp.Everys (· ≠ .nil) l₁ → Sexp.Everys (· ≠ .nil) l₂ →
    Sexp.Everys Known l₁ → Sexp.Everys Known l₂ →
    Shape.canons junk (Sexp.shapes junk l₁) ++ 0x29 :: r₁ = Shape.canons junk (Sexp.shapes junk l₂) ++ 0x29 :: r₂ →
    Sexp.shapes junk l₁ = Sexp.shapes junk l₂ ∧ r₁ = r₂
  | [], [], r₁, r₂, _, _, _, _, same => by
    simp only [Sexp.shapes, Shape.canons, List.nil_append] at same ⊢
    exact ⟨trivial, List.tail_eq_of_cons_eq same⟩
  | [], e :: l, r₁, r₂, _, whole, _, _, same => by
    obtain ⟨c, rest, first, -, open_⟩ := @canon_cons junk _ whole.1
    simp only [Sexp.shapes, Shape.canons, List.nil_append, first, List.cons_append] at same
    exact absurd (congrArg (fun c : UInt8 => (c.toNat : Int)) (List.head_eq_of_cons_eq same)).symm open_
  | e :: l, [], r₁, r₂, whole, _, _, _, same => by
    obtain ⟨c, rest, first, -, open_⟩ := @canon_cons junk _ whole.1
    simp only [Sexp.shapes, Shape.canons, List.nil_append, first, List.cons_append] at same
    exact absurd (congrArg (fun c : UInt8 => (c.toNat : Int)) (List.head_eq_of_cons_eq same)) open_
  | e₁ :: l₁, e₂ :: l₂, r₁, r₂, whole₁, whole₂, known₁, known₂, same => by
    simp only [Sexp.shapes, Shape.canons, List.append_assoc] at same ⊢
    obtain ⟨first, same⟩ := canon_split e₁ e₂ whole₁.1 whole₂.1 known₁.1 known₂.1 same
    obtain ⟨later, rest⟩ := canons_prefix l₁ l₂ whole₁.2 whole₂.2 known₁.2 known₂.2 same
    exact ⟨by rw [first, later], rest⟩

end

theorem pack_inj {e₁ e₂ : Sexp} {bytes : List UInt8} (known₁ : e₁.Every Known) (known₂ : e₂.Every Known)
    (packed₁ : e₁.pack junk = some bytes) (packed₂ : e₂.pack junk = some bytes) : e₁.shape junk = e₂.shape junk := by
  obtain ⟨what₁, small₁⟩ := pack_some packed₁
  obtain ⟨what₂, small₂⟩ := pack_some packed₂
  have same := Option.some.inj ((pack_whole what₁ small₁).symm.trans (packed₁.trans (packed₂.symm.trans (pack_whole what₂ small₂))))
  have empty : (Sexp.nil.shape junk).canon junk = [] := by simp only [Sexp.shape, Shape.canon]
  rcases what₁ with rfl | whole₁
  · rcases what₂ with rfl | whole₂
    · rfl
    · obtain ⟨c, rest, first, -⟩ := @canon_cons junk _ whole₂
      rw [empty, first] at same
      nomatch same
  · rcases what₂ with rfl | whole₂
    · obtain ⟨c, rest, first, -⟩ := @canon_cons junk _ whole₁
      rw [empty, first] at same
      nomatch same
    · exact (@canon_split junk e₁ e₂ [] [] whole₁ whole₂ known₁ known₂ (by rw [same])).1

/-- What is read of a memory buffer. -/
theorem readable_of {a : List UInt8} {t : Iobuf} (steps : Nat) (ran : Sexp.read steps (Iobuf.aopen a) = some (.inl e, t)) : Readable e :=
  ⟨Iobuf, inferInstance, steps, Iobuf.aopen a, t, ran⟩

/-- A reading that is as `eq` says. -/
theorem readable_eq {a : List UInt8} (steps : Nat) (ran : ((Sexp.read steps (Iobuf.aopen a)).any fun r =>
    match r.1 with
    | .inl e' => e'.eq e
    | .inr _ => false) = true) : Readable e := by
  obtain ⟨⟨r, t⟩, run, same⟩ := (Option.any_eq_true _ _).mp ran
  cases r with
  | inl e' => exact Sexp.eq_true same ▸ readable_of steps run
  | inr _ => nomatch same

theorem aprint_small {n : Nat} (small : n < 10) : (aprint n).length = 2 := by
  unfold aprint decimal
  rw [if_pos small]
  rfl

/-- `(a[x]b)`. -/
def pair : Sexp := .list [.string [0x61] [], .string [0x62] [0x78]]

end Inferno.Sexprs
