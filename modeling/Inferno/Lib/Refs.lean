import Mathlib

namespace Inferno.Lib

open Finset

/-- Reference counts, `none` where there is no object, and the objects whose count has ever been zero. -/
structure Refs (α : Type) where
  ref : α → Option Nat
  zeroed : α → Bool

variable {α : Type} [DecidableEq α]

namespace Refs

def setRef (r : Refs α) (x : α) (n : Nat) : Refs α where
  ref := Function.update r.ref x (some n)
  zeroed := if n = 0 then Function.update r.zeroed x true else r.zeroed

def drop (r : Refs α) (x : α) : Refs α := { r with ref := Function.update r.ref x none }

/-- One reference more. -/
def inc (r : Refs α) (x : α) : Refs α :=
  match r.ref x with
  | some n => r.setRef x (n + 1)
  | none => r

/-- An unsigned count less one. -/
def less (n : Nat) : Nat := if n = 0 then 2 ^ 64 - 1 else n - 1

/-- The tails of a list, one after the other, as long as each loses its last reference. -/
def freeChain (tail : α → Option α) (free : α → Refs α → Refs α) : Nat → Option α → Refs α → Refs α
  | _, none, r => r
  | 0, some _, r => r
  | fuel + 1, some x, r =>
    match r.ref x with
    | none => r
    | some n =>
      if less n ≠ 0 then r.setRef x (less n)
      else freeChain tail free fuel (tail x) ((free x (r.setRef x 0)).drop x)

/-- One reference less. The last one releases the `kids` of the object and then its `tail`, unless there are no levels
of calls left. -/
def destroy (kids : α → List α) (tail : α → Option α) (fuel : Nat) : Nat → α → Refs α → Refs α
  | 0, x, r =>
    match r.ref x with
    | none => r
    | some n => r.setRef x (less n)
  | left + 1, x, r =>
    match r.ref x with
    | none => r
    | some n =>
      if less n ≠ 0 then r.setRef x (less n)
      else
        let free (x : α) (r : Refs α) : Refs α := (kids x).foldl (fun r y => destroy kids tail fuel left y r) r
        (freeChain tail free fuel (tail x) (free x (r.setRef x 0))).drop x

end Refs

/-- The pointers to `x` from the objects in `A`. -/
def into (own : α → List α) (A : Finset α) (x : α) : Nat := ∑ y ∈ A, (own y).count x

variable {kids own : α → List α} {tail : α → Option α} {fuel : Nat} {extra : α → Nat} {A A' A₁ A₂ : Finset α}
  {r r' r₁ r₂ : Refs α} {us vs : List α} {x : α}

theorem into_sdiff (sub : A' ⊆ A) (own : α → List α) (x : α) : into own (A \ A') x + into own A' x = into own A x :=
  sum_sdiff sub

theorem into_self (own : α → List α) (A : Finset α) (x : α) : into own (A \ A) x = 0 := by
  have parts := into_sdiff (Subset.refl A) own x
  omega

theorem into_erase (here : x ∈ A) (own : α → List α) (y : α) :
    (own x).count y + into own (A.erase x) y = into own A y := add_sum_erase A (fun z => (own z).count y) here

/-- Every object in `A` has as many references as `vs`, the objects in `A` and others hold. What is not held by others
owns all that it points to. -/
structure Held (out own : α → List α) (extra : α → Nat) (A : Finset α) (r : Refs α) (vs : List α) : Prop where
  refs : ∀ x ∈ A, ∃ n, r.ref x = some n ∧ vs.count x + into own A x + extra x ≤ n
  closed : ∀ x ∈ A, ∀ y ∈ own x, y ∈ A
  inside : ∀ x ∈ vs, x ∈ A
  whole : ∀ x ∈ A, extra x = 0 → own x = out x

/-- The references `vs` are gone and `A'` is left of the objects in `A`. -/
structure Released (own : α → List α) (A : Finset α) (r : Refs α) (vs : List α) (A' : Finset α) (r' : Refs α) : Prop where
  sub : A' ⊆ A
  kept : ∀ x ∈ A', ∀ n, r.ref x = some n → ∃ n', r'.ref x = some n' ∧ n = n' + vs.count x + into own (A \ A') x
  gone : ∀ x ∈ A, x ∉ A' → r'.ref x = none ∧ r.ref x = some (vs.count x + into own (A \ A') x)
  dead : ∀ x, x ∉ A → r.ref x = none → r'.ref x = none
  low : ∀ x ∈ A', r'.ref x ≠ some 0 → r'.zeroed x = r.zeroed x

namespace Refs

@[simp] theorem ref_setRef (r : Refs α) (x : α) (n : Nat) : (r.setRef x n).ref x = some n := Function.update_self ..

theorem ref_setRef_ne {y : α} (other : y ≠ x) (r : Refs α) (n : Nat) : (r.setRef x n).ref y = r.ref y :=
  Function.update_of_ne other ..

theorem zeroed_setRef {y : α} {n : Nat} (kept : y ≠ x ∨ n ≠ 0) (r : Refs α) : (r.setRef x n).zeroed y = r.zeroed y := by
  unfold setRef
  dsimp only
  split
  · rename_i zero
    exact Function.update_of_ne (kept.resolve_right (not_not.mpr zero)) ..
  · rfl

@[simp] theorem ref_drop (r : Refs α) (x : α) : (r.drop x).ref x = none := Function.update_self ..

theorem ref_drop_ne {y : α} (other : y ≠ x) (r : Refs α) : (r.drop x).ref y = r.ref y := Function.update_of_ne other ..

end Refs

namespace Held

variable {out : α → List α}

/-- What the references that are not released leave. -/
theorem after (held : Held out own extra A r (us ++ vs)) (released : Released own A r us A₁ r₁) :
    Held out own extra A₁ r₁ vs := by
  have lost : ∀ x ∈ A, x ∉ A₁ → vs.count x = 0 ∧ into own A₁ x = 0 := by
    intro x here out
    obtain ⟨n, ref, enough⟩ := held.refs x here
    have gone := (released.gone x here out).2
    rw [ref, Option.some.injEq] at gone
    have parts := into_sdiff released.sub own x
    rw [List.count_append] at enough
    omega
  refine ⟨fun x here => ?_, fun x here y points => ?_, fun x member => ?_, fun x here => held.whole x (released.sub here)⟩
  · obtain ⟨n, ref, enough⟩ := held.refs x (released.sub here)
    obtain ⟨n', ref', count⟩ := released.kept x here n ref
    have parts := into_sdiff released.sub own x
    rw [List.count_append] at enough
    exact ⟨n', ref', by omega⟩
  · by_contra out
    have zero := (lost y (held.closed x (released.sub here) y points) out).2
    have one : (own x).count y ≤ into own A₁ y := single_le_sum (f := fun z => (own z).count y) (fun _ _ => Nat.zero_le _) here
    have pos := List.count_pos_iff.mpr points
    omega
  · by_contra out
    have zero := (lost x (held.inside x (List.mem_append_right us member)) out).1
    exact List.count_eq_zero.mp zero member

/-- Where the last reference goes, the object has no others and holds on to those that it points to. -/
theorem last (held : Held out own extra A r [x]) (one : r.ref x = some 1) :
    x ∈ A ∧ into own A x = 0 ∧ own x = out x ∧ Held out own extra (A.erase x) (r.setRef x 0) (out x) := by
  have here := held.inside x List.mem_cons_self
  obtain ⟨n, ref, enough⟩ := held.refs x here
  rw [one, Option.some.injEq] at ref
  rw [List.count_singleton_self] at enough
  have alone : into own A x = 0 := by omega
  have all := held.whole x here (by omega)
  have none : ∀ y ∈ A, x ∉ own y := by
    intro y member points
    have count : (own y).count x ≤ into own A x :=
      single_le_sum (f := fun z => (own z).count x) (fun _ _ => Nat.zero_le _) member
    have pos := List.count_pos_iff.mpr points
    omega
  refine ⟨here, alone, all, fun y member => ?_, fun y member z points => ?_, fun y points => ?_, fun y member => ?_⟩
  · obtain ⟨other, inside⟩ := mem_erase.mp member
    obtain ⟨m, ref, enough⟩ := held.refs y inside
    have parts := into_erase here own y
    rw [all] at parts
    exact ⟨m, (Refs.ref_setRef_ne other r 0).trans ref, by omega⟩
  · obtain ⟨-, inside⟩ := mem_erase.mp member
    exact mem_erase.mpr ⟨fun same => none y inside (same ▸ points), held.closed y inside z points⟩
  · rw [← all] at points
    exact mem_erase.mpr ⟨fun same => none x here (same ▸ points), held.closed x here y points⟩
  · exact held.whole y (mem_of_mem_erase member)

end Held

namespace Released

theorem nil (own : α → List α) (A : Finset α) (r : Refs α) : Released own A r [] A r := by
  refine ⟨Subset.rfl, fun x _ n ref => ⟨n, ref, ?_⟩, fun x here out => absurd here out, fun _ _ none => none,
    fun _ _ _ => rfl⟩
  rw [into_self, List.count_nil]
  rfl

/-- A reference that is not the last one, or whose object is kept. -/
theorem less {n : Nat} {out : α → List α} (held : Held out own extra A r [x]) (ref : r.ref x = some n) :
    Released own A r [x] A (r.setRef x (Refs.less n)) := by
  have here := held.inside x List.mem_cons_self
  have pos : 0 < n := by
    obtain ⟨m, ref', enough⟩ := held.refs x here
    rw [ref, Option.some.injEq] at ref'
    rw [List.count_singleton_self] at enough
    omega
  refine ⟨Subset.rfl, fun y _ m ref' => ?_, fun y here out => absurd here out, fun y out none => ?_, fun y _ some_ => ?_⟩
  · rw [into_self]
    by_cases same : y = x
    · subst same
      rw [ref, Option.some.injEq] at ref'
      refine ⟨_, Refs.ref_setRef .., ?_⟩
      rw [List.count_singleton_self, Refs.less, if_neg (by omega)]
      omega
    · refine ⟨m, (Refs.ref_setRef_ne same ..).trans ref', ?_⟩
      rw [List.count_eq_zero.mpr fun member => same (List.mem_singleton.mp member)]
      rfl
  · have other : y ≠ x := fun same => out (same ▸ here)
    exact (Refs.ref_setRef_ne other ..).trans none
  · by_cases same : y = x
    · subst same
      rw [Refs.ref_setRef] at some_
      exact Refs.zeroed_setRef (Or.inr fun zero => some_ (congrArg some zero)) r
    · exact Refs.zeroed_setRef (Or.inl same) r

/-- The counts of other objects do not matter. -/
theorem congr (released : Released own A r₁ vs A' r') (ref : ∀ x ∈ A, r.ref x = r₁.ref x)
    (zeroed : ∀ x ∈ A, r.zeroed x = r₁.zeroed x) (none : ∀ x, r.ref x = none → r₁.ref x = none) :
    Released own A r vs A' r' := by
  refine ⟨released.sub, fun x here n some_ => ?_, fun x here out => ?_, fun x out gone => ?_, fun x here some_ => ?_⟩
  · exact released.kept x here n ((ref x (released.sub here)).symm.trans some_)
  · rw [ref x here]
    exact released.gone x here out
  · exact released.dead x out (none x gone)
  · exact (released.low x here some_).trans (zeroed x (released.sub here)).symm

theorem drop (released : Released own A r vs A' r') (outside : x ∉ A) : Released own A r vs A' (r'.drop x) := by
  have other : ∀ y ∈ A, y ≠ x := fun y here same => outside (same ▸ here)
  refine ⟨released.sub, fun y here n ref => ?_, fun y here out => ?_, fun y out gone => ?_, fun y here some_ => ?_⟩
  · rw [Refs.ref_drop_ne (other y (released.sub here))]
    exact released.kept y here n ref
  · rw [Refs.ref_drop_ne (other y here)]
    exact released.gone y here out
  · by_cases same : y = x
    · rw [same, Refs.ref_drop]
    · exact (Refs.ref_drop_ne same ..).trans (released.dead y out gone)
  · rw [Refs.ref_drop_ne (other y (released.sub here))] at some_
    exact released.low y here some_

/-- The last reference: with what the object holds, the object goes. -/
theorem last {out : α → List α} (held : Held out own extra A r [x]) (one : r.ref x = some 1)
    (released : Released own (A.erase x) (r.setRef x 0) (out x) A' r') (none : r'.ref x = none) :
    Released own A r [x] A' r' := by
  obtain ⟨here, alone, all, -⟩ := held.last one
  have sub : A' ⊆ A := released.sub.trans (erase_subset x A)
  have parts : ∀ y, into own (A \ A') y = (out x).count y + into own (A.erase x \ A') y := by
    intro y
    have first := into_sdiff sub own y
    have second := into_sdiff released.sub own y
    have whole := into_erase here own y
    rw [all] at whole
    omega
  have absent : ∀ y, y ≠ x → [x].count y = 0 := fun y ne =>
    List.count_eq_zero.mpr fun member => ne (List.mem_singleton.mp member)
  refine ⟨sub, fun y member n ref => ?_, fun y inside left => ?_, fun y outside gone => ?_, fun y member some_ => ?_⟩
  · have ne := (mem_erase.mp (released.sub member)).1
    obtain ⟨n', ref', count⟩ := released.kept y member n ((Refs.ref_setRef_ne ne ..).trans ref)
    exact ⟨n', ref', by rw [parts y, absent y ne]; omega⟩
  · by_cases same : y = x
    · subst same
      have whole := into_sdiff sub own y
      refine ⟨none, one.trans (congrArg some ?_)⟩
      rw [List.count_singleton_self]
      omega
    · obtain ⟨none', count⟩ := released.gone y (mem_erase.mpr ⟨same, inside⟩) left
      rw [Refs.ref_setRef_ne same] at count
      exact ⟨none', by rw [count, parts y, absent y same, Nat.zero_add]⟩
  · have ne : y ≠ x := fun same => outside (same ▸ here)
    exact released.dead y (fun member => outside (mem_of_mem_erase member)) ((Refs.ref_setRef_ne ne ..).trans gone)
  · have ne := (mem_erase.mp (released.sub member)).1
    exact (released.low y member some_).trans (Refs.zeroed_setRef (Or.inl ne) r)

theorem trans {out : α → List α} (held : Held out own extra A r (us ++ vs)) (first : Released own A r us A₁ r₁)
    (second : Released own A₁ r₁ vs A₂ r₂) : Released own A r (us ++ vs) A₂ r₂ := by
  have sub := second.sub.trans first.sub
  have parts : ∀ x, into own (A \ A₂) x = into own (A \ A₁) x + into own (A₁ \ A₂) x := by
    intro x
    have h := into_sdiff sub own x
    have h₁ := into_sdiff first.sub own x
    have h₂ := into_sdiff second.sub own x
    omega
  refine ⟨sub, fun x here n ref => ?_, fun x here out => ?_, fun x out none => ?_, fun x here some_ => ?_⟩
  · obtain ⟨n₁, ref₁, count₁⟩ := first.kept x (second.sub here) n ref
    obtain ⟨n₂, ref₂, count₂⟩ := second.kept x here n₁ ref₁
    exact ⟨n₂, ref₂, by rw [parts x, List.count_append]; omega⟩
  · by_cases there : x ∈ A₁
    · obtain ⟨none, count₂⟩ := second.gone x there out
      obtain ⟨n, ref, -⟩ := held.refs x here
      obtain ⟨n₁, ref₁, count₁⟩ := first.kept x there n ref
      rw [count₂, Option.some.injEq] at ref₁
      refine ⟨none, ref.trans (congrArg some ?_)⟩
      rw [parts x, List.count_append]
      omega
    · obtain ⟨none, count₁⟩ := first.gone x here there
      obtain ⟨n, ref, enough⟩ := held.refs x here
      have whole := into_sdiff first.sub own x
      have rest := into_sdiff second.sub own x
      refine ⟨second.dead x there none, count₁.trans (congrArg some ?_)⟩
      rw [count₁, Option.some.injEq] at ref
      rw [parts x, List.count_append] at *
      omega
  · exact second.dead x (fun member => out (first.sub member)) (first.dead x out none)
  · refine (second.low x here some_).trans (first.low x (second.sub here) fun zero => some_ ?_)
    obtain ⟨n, ref, -⟩ := held.refs x (sub here)
    obtain ⟨n₁, ref₁, -⟩ := first.kept x (second.sub here) n ref
    obtain ⟨n₂, ref₂, count₂⟩ := second.kept x here n₁ ref₁
    rw [zero, Option.some.injEq] at ref₁
    rw [ref₂, show n₂ = 0 by omega]

end Released

namespace Held

variable {out : α → List α}

/-- The first references alone, where the others still hold. -/
theorem front (held : Held out own extra A r (us ++ vs)) : Held out own (fun y => extra y + vs.count y) A r us := by
  refine ⟨fun y here => ?_, held.closed, fun y member => held.inside y (List.mem_append_left vs member),
    fun y here none => held.whole y here ?_⟩
  · obtain ⟨n, ref, enough⟩ := held.refs y here
    rw [List.count_append] at enough
    exact ⟨n, ref, by omega⟩
  · omega

end Held

/-- The objects that nothing else holds. -/
def loose (extra : α → Nat) (A : Finset α) : Finset α := A.filter fun x => extra x = 0

omit [DecidableEq α] in
theorem loose_sub {extra' : α → Nat} (sub : A' ⊆ A) (le : ∀ x, extra x ≤ extra' x) :
    (loose extra' A').card ≤ (loose extra A).card := by
  refine card_le_card fun x member => ?_
  obtain ⟨here, zero⟩ := mem_filter.mp member
  have := le x
  exact mem_filter.mpr ⟨sub here, by omega⟩

theorem loose_erase (here : x ∈ A) (zero : extra x = 0) :
    (loose extra (A.erase x)).card + 1 = (loose extra A).card := by
  have member : x ∈ loose extra A := mem_filter.mpr ⟨here, zero⟩
  have same : loose extra (A.erase x) = (loose extra A).erase x := by
    rw [loose, loose, filter_erase]
  rw [same, card_erase_add_one member]

/-- No count in `A` is zero. -/
def Alive (A : Finset α) (r : Refs α) : Prop := ∀ x ∈ A, r.ref x ≠ some 0

theorem less_eq_zero {n : Nat} (pos : 0 < n) : Refs.less n = 0 ↔ n = 1 := by
  rw [Refs.less, if_neg (by omega)]
  omega

theorem Alive.less {n : Nat} (alive : Alive A r) (other : Refs.less n ≠ 0) : Alive A (r.setRef x (Refs.less n)) := by
  intro y here
  by_cases same : y = x
  · rw [same, Refs.ref_setRef]
    exact fun zero => other (Option.some.inj zero)
  · rw [Refs.ref_setRef_ne same]
    exact alive y here

/-- Some of the objects are left, all of them with references if there are levels enough for those that nothing else
holds. -/
def Leaves (own : α → List α) (extra : α → Nat) (levels : Nat) (A : Finset α) (r : Refs α) (vs : List α) (r' : Refs α) :
    Prop :=
  ∃ A', Released own A r vs A' r' ∧ ((loose extra A).card ≤ levels → Alive A r → Alive A' r')

variable {levels : Nat}

theorem leaves_nil : Leaves own extra levels A r [] r := ⟨A, Released.nil own A r, fun _ alive => alive⟩

/-- One after the other. -/
theorem foldl_leaves {out : α → List α} {step : Refs α → α → Refs α}
    (one : ∀ {x A r extra}, Held out own extra A r [x] → A.card ≤ fuel → Leaves own extra levels A r [x] (step r x))
    (held : Held out own extra A r vs) (enough : A.card ≤ fuel) : Leaves own extra levels A r vs (vs.foldl step r) := by
  induction vs generalizing A r with
  | nil => exact leaves_nil
  | cons x vs ih =>
    obtain ⟨A₁, first, alive₁⟩ := one (@Held.front _ _ own extra A r [x] vs out held) enough
    obtain ⟨A₂, second, alive₂⟩ := ih (@Held.after _ _ own extra A A₁ r _ [x] vs out held first)
      ((card_le_card first.sub).trans enough)
    have whole : Released own A r ([x] ++ vs) A₂ (vs.foldl step (step r x)) := Released.trans held first second
    refine ⟨A₂, whole, fun few alive => alive₂ ?_ (alive₁ ?_ alive)⟩
    · exact (loose_sub first.sub fun _ => Nat.le_refl _).trans few
    · exact (loose_sub Subset.rfl fun _ => Nat.le_add_right ..).trans few

section Destroy

variable {f : α → Refs α → Refs α}

theorem freeChain_leaves {o : Option α} {left : Nat}
    (frees : ∀ {x A r extra}, Held (fun x => kids x ++ (tail x).toList) own extra A r (kids x) → A.card ≤ fuel →
      Leaves own extra levels A r (kids x) (f x r))
    (held : Held (fun x => kids x ++ (tail x).toList) own extra A r o.toList) (small : A.card ≤ fuel)
    (enough : A.card ≤ left) : Leaves own extra levels A r o.toList (Refs.freeChain tail f left o r) := by
  induction left generalizing o A r extra with
  | zero =>
    cases o with
    | none => exact leaves_nil
    | some x =>
      have here := held.inside x List.mem_cons_self
      rw [card_eq_zero.mp (Nat.le_zero.mp enough)] at here
      exact absurd here (notMem_empty x)
  | succ left ih =>
    cases o with
    | none => exact leaves_nil
    | some x =>
      have here := held.inside x List.mem_cons_self
      obtain ⟨n, ref, most⟩ := held.refs x here
      have pos : 0 < n := by
        rw [Option.toList_some, List.count_singleton_self] at most
        omega
      rw [Refs.freeChain, ref]
      dsimp only
      by_cases last : Refs.less n = 0
      · rw [if_neg (not_not.mpr last)]
        obtain rfl := (less_eq_zero pos).mp last
        obtain ⟨-, -, -, next⟩ := held.last ref
        have sub := erase_subset x A
        obtain ⟨A₁, first, alive₁⟩ := frees next.front ((card_le_card sub).trans small)
        have held₁ := next.after first
        have other : ∀ y ∈ A₁, y ≠ x := fun y member => (mem_erase.mp (first.sub member)).1
        have held₁' : Held (fun x => kids x ++ (tail x).toList) own extra A₁ ((f x (r.setRef x 0)).drop x)
            (tail x).toList := by
          refine ⟨fun y member => ?_, held₁.closed, held₁.inside, held₁.whole⟩
          rw [Refs.ref_drop_ne (other y member)]
          exact held₁.refs y member
        have fewer : A₁.card ≤ left := by
          have less := card_le_card first.sub
          rw [card_erase_of_mem here] at less
          omega
        obtain ⟨A₂, second, alive₂⟩ := ih held₁' ((card_le_card (first.sub.trans sub)).trans small) fewer
        refine ⟨A₂, Released.last held ref (Released.trans next first (second.congr (fun y member => ?_)
          (fun _ _ => rfl) fun y none => ?_)) (second.dead x (fun member => other x member rfl) (Refs.ref_drop ..)),
          fun few alive => alive₂ ?_ fun y member => ?_⟩
        · exact (Refs.ref_drop_ne (other y member) _).symm
        · by_cases same : y = x
          · rw [same, Refs.ref_drop]
          · exact (Refs.ref_drop_ne same _).trans none
        · exact (loose_sub (first.sub.trans sub) fun _ => Nat.le_refl _).trans few
        · rw [Refs.ref_drop_ne (other y member)]
          refine alive₁ ((loose_sub sub fun _ => Nat.le_add_right ..).trans few) (fun z inside => ?_) y member
          rw [Refs.ref_setRef_ne (mem_erase.mp inside).1]
          exact alive z (mem_of_mem_erase inside)
      · rw [if_pos last]
        exact ⟨A, Released.less held ref, fun _ alive => alive.less last⟩

/-- What `destroy` does to the counts. -/
theorem destroy_leaves {left : Nat} (held : Held (fun x => kids x ++ (tail x).toList) own extra A r [x])
    (enough : A.card ≤ fuel) : Leaves own extra left A r [x] (Refs.destroy kids tail fuel left x r) := by
  have here := held.inside x List.mem_cons_self
  obtain ⟨n, ref, most⟩ := held.refs x here
  have pos : 0 < n := by
    rw [List.count_singleton_self] at most
    omega
  induction left generalizing x A r extra n with
  | zero =>
    rw [Refs.destroy, ref]
    refine ⟨A, Released.less held ref, fun few alive => alive.less fun zero => ?_⟩
    obtain rfl := (less_eq_zero pos).mp zero
    rw [List.count_singleton_self] at most
    have member : x ∈ loose extra A := mem_filter.mpr ⟨here, by omega⟩
    have some_ := card_pos.mpr ⟨x, member⟩
    omega
  | succ left ih =>
    rw [Refs.destroy, ref]
    dsimp only
    by_cases last : Refs.less n = 0
    · rw [if_neg (not_not.mpr last)]
      obtain rfl := (less_eq_zero pos).mp last
      obtain ⟨-, -, -, next⟩ := held.last ref
      rw [List.count_singleton_self] at most
      have sub := erase_subset x A
      have small : (A.erase x).card ≤ fuel := (card_le_card sub).trans enough
      have frees : ∀ {y A r extra}, Held (fun x => kids x ++ (tail x).toList) own extra A r (kids y) → A.card ≤ fuel →
          Leaves own extra left A r (kids y) ((kids y).foldl (fun r z => Refs.destroy kids tail fuel left z r) r) := by
        refine fun held enough => foldl_leaves (fun {z B r extra} held enough => ?_) held enough
        have here := held.inside z List.mem_cons_self
        obtain ⟨n, ref, most⟩ := held.refs z here
        exact ih held enough here n ref most (by rw [List.count_singleton_self] at most; omega)
      obtain ⟨A₁, first, alive₁⟩ := frees next.front small
      obtain ⟨A₂, second, alive₂⟩ := freeChain_leaves
        (f := fun y r => (kids y).foldl (fun r z => Refs.destroy kids tail fuel left z r) r) frees (next.after first)
        ((card_le_card first.sub).trans small) ((card_le_card first.sub).trans small)
      have whole := Released.trans next first second
      refine ⟨A₂, Released.last held ref (whole.drop (notMem_erase x A)) (Refs.ref_drop ..), fun few alive y member => ?_⟩
      have less := @loose_erase _ _ extra A x here (by omega)
      rw [Refs.ref_drop_ne (mem_erase.mp (whole.sub member)).1]
      refine alive₂ ?_ (alive₁ ?_ fun z inside => ?_) y member
      · exact (loose_sub first.sub fun _ => Nat.le_refl _).trans (by omega)
      · exact (loose_sub Subset.rfl fun _ => Nat.le_add_right ..).trans (by omega : (loose extra (A.erase x)).card ≤ left)
      · rw [Refs.ref_setRef_ne (mem_erase.mp inside).1]
        exact alive z (mem_of_mem_erase inside)
    · rw [if_pos last]
      exact ⟨A, Released.less held ref, fun _ alive => alive.less last⟩

end Destroy

namespace Refs

theorem ref_inc (r : Refs α) (x y : α) : (r.inc x).ref y = (r.ref y).map (· + [x].count y) := by
  unfold inc
  by_cases same : y = x
  · subst same
    rw [List.count_singleton_self]
    cases here : r.ref y with
    | none => exact here
    | some n => exact ref_setRef ..
  · rw [List.count_eq_zero.mpr fun member => same (List.mem_singleton.mp member)]
    cases r.ref x with
    | none => exact (Option.map_id' ..).symm
    | some n => exact (ref_setRef_ne same ..).trans (Option.map_id' ..).symm

theorem zeroed_inc (r : Refs α) (x : α) : (r.inc x).zeroed = r.zeroed := by
  unfold inc
  cases r.ref x with
  | none => rfl
  | some n => exact funext fun y => zeroed_setRef (Or.inr (Nat.succ_ne_zero n)) r

theorem ref_incAll (us : List α) (r : Refs α) (x : α) : (us.foldl inc r).ref x = (r.ref x).map (· + us.count x) := by
  induction us generalizing r with
  | nil => exact (Option.map_id' ..).symm
  | cons u us ih =>
    rw [List.foldl_cons, ih, ref_inc, Option.map_map]
    congr 1
    funext n
    have parts : (u :: us).count x = us.count x + [u].count x := by
      rw [List.count_cons, List.count_cons, List.count_nil, Nat.zero_add]
    rw [Function.comp_apply, parts]
    omega

theorem zeroed_incAll (us : List α) (r : Refs α) : (us.foldl inc r).zeroed = r.zeroed := by
  induction us generalizing r with
  | nil => rfl
  | cons u us ih => exact (ih (r.inc u)).trans (zeroed_inc r u)

end Refs

section Held

variable {out : α → List α} {K : Finset α}

theorem Held.incAll (held : Held out own extra A r vs) (us : List α) :
    Held out own (fun x => extra x + us.count x) A (us.foldl Refs.inc r) vs := by
  refine ⟨fun x here => ?_, held.closed, held.inside, fun x here zero => held.whole x here (by omega)⟩
  obtain ⟨n, ref, enough⟩ := held.refs x here
  refine ⟨n + us.count x, ?_, by omega⟩
  rw [Refs.ref_incAll, ref, Option.map_some]

/-- An object that something else holds stays. -/
theorem Held.stays (held : Held out own extra A r vs) (released : Released own A r vs A' r') (here : x ∈ A)
    (pinned : extra x ≠ 0) : x ∈ A' := by
  by_contra out
  obtain ⟨n, ref, enough⟩ := held.refs x here
  have gone := (released.gone x here out).2
  rw [ref, Option.some.injEq] at gone
  have parts := into_sdiff released.sub own x
  omega

theorem Held.perm (held : Held out own extra A r us) (perm : us.Perm vs) : Held out own extra A r vs := by
  refine ⟨fun x here => ?_, held.closed, fun x member => held.inside x (perm.mem_iff.mpr member), held.whole⟩
  rw [← perm.count_eq]
  exact held.refs x here

/-- Where all is released that is not held by others. -/
theorem Held.left (held : Held out own extra A r vs) (released : Released own A r vs A' r') :
    Held out own extra A' r' [] := by
  rw [← List.append_nil vs] at held
  exact held.after released

/-- Objects that stay can as well get references before. -/
theorem Released.incAll (released : Released own A r vs A' r')
    (stays : ∀ x ∈ us, x ∈ A' ∧ r'.ref x ≠ some 0) :
    Released own A (us.foldl Refs.inc r) vs A' (us.foldl Refs.inc r') := by
  refine ⟨released.sub, fun x here n ref => ?_, fun x here out => ?_, fun x out none => ?_, fun x here some_ => ?_⟩
  · rw [Refs.ref_incAll] at ref
    obtain ⟨m, before, rfl⟩ := Option.map_eq_some_iff.mp ref
    obtain ⟨n', ref', count⟩ := released.kept x here m before
    refine ⟨n' + us.count x, ?_, by omega⟩
    rw [Refs.ref_incAll, ref', Option.map_some]
  · obtain ⟨none, count⟩ := released.gone x here out
    have absent : us.count x = 0 := List.count_eq_zero.mpr fun member => out (stays x member).1
    rw [Refs.ref_incAll, Refs.ref_incAll, none, count, absent]
    exact ⟨rfl, rfl⟩
  · rw [Refs.ref_incAll, Option.map_eq_none_iff] at none ⊢
    exact released.dead x out none
  · rw [Refs.zeroed_incAll, Refs.zeroed_incAll]
    refine released.low x here fun zero => ?_
    by_cases member : x ∈ us
    · exact (stays x member).2 zero
    · rw [Refs.ref_incAll, zero, List.count_eq_zero.mpr member] at some_
      exact some_ rfl

theorem Released.perm (released : Released own A r us A' r') (perm : us.Perm vs) : Released own A r vs A' r' := by
  obtain ⟨sub, kept, gone, dead, low⟩ := released
  simp only [perm.count_eq] at kept gone
  exact ⟨sub, kept, gone, dead, low⟩

/-- What is released has owned all that it points to. -/
theorem Held.whole_of_gone (held : Held out own extra A r vs) (released : Released own A r vs A' r') (x : α) :
    into own (A \ A') x = into out (A \ A') x := by
  refine sum_congr rfl fun y member => ?_
  obtain ⟨here, left⟩ := mem_sdiff.mp member
  rw [held.whole y here (not_not.mp fun pinned => left (held.stays released here pinned))]

/-- Each object in `K` has more references than `vs` and the objects that are not in `K` hold. -/
def Stable (own : α → List α) (A K : Finset α) (r : Refs α) (vs : List α) : Prop :=
  K ⊆ A ∧ ∀ x ∈ K, ∀ n, r.ref x = some n → vs.count x + into own (A \ K) x < n

/-- What the objects own that are not in `K`. -/
def outside (own : α → List α) (K : Finset α) (y : α) : List α := if y ∈ K then [] else own y

theorem into_outside (sub : K ⊆ A) (own : α → List α) (x : α) : into (outside own K) A x = into own (A \ K) x := by
  have parts := into_sdiff sub (outside own K) x
  have none : into (outside own K) K x = 0 :=
    sum_eq_zero fun y member => by rw [outside, if_pos member, List.count_nil]
  have all : into (outside own K) (A \ K) x = into own (A \ K) x :=
    sum_congr rfl fun y member => by rw [outside, if_neg (mem_sdiff.mp member).2]
  omega

/-- The objects outside of `K` own what they own, and those in `K` are held. -/
theorem Held.pin (held : Held out own extra A r vs) (stable : Stable own A K r vs) :
    Held out (outside own K) (fun x => (r.ref x).getD 0 - (vs.count x + into own (A \ K) x)) A r vs := by
  refine ⟨fun x here => ?_, fun x here y member => ?_, held.inside, fun x here zero => ?_⟩
  · obtain ⟨n, ref, enough⟩ := held.refs x here
    have parts := into_sdiff stable.1 own x
    refine ⟨n, ref, ?_⟩
    rw [into_outside stable.1, ref, Option.getD_some]
    omega
  · unfold outside at member
    split at member
    · nomatch member
    · exact held.closed x here y member
  · obtain ⟨n, ref, enough⟩ := held.refs x here
    have parts := into_sdiff stable.1 own x
    rw [ref, Option.getD_some] at zero
    by_cases kept : x ∈ K
    · have less := stable.2 x kept n ref
      omega
    · rw [outside, if_neg kept]
      exact held.whole x here (by omega)

end Held

end Inferno.Lib
