import Mathlib

namespace Inferno.Lib

variable {α : Type} {par par' : α → Option α} {a b c i p : α} {n k : Nat}

/-- `b` is `a`, or is met on the way up from it. -/
inductive Above (par : α → Option α) : α → α → Prop
  | refl (a : α) : Above par a a
  | up {a b c : α} : par a = some b → Above par b c → Above par a c

/-- The way up from `a` ends after `n` steps. -/
inductive Depth (par : α → Option α) : α → Nat → Prop
  | top {a : α} : par a = none → Depth par a 0
  | down {a b : α} {n : Nat} : par a = some b → Depth par b n → Depth par a (n + 1)

namespace Above

theorem parent (link : par a = some b) : Above par a b := up link (refl b)

theorem trans (low : Above par a b) (high : Above par b c) : Above par a c := by
  induction low with
  | refl => exact high
  | up link _ ih => exact up link (ih high)

theorem iff_parent : Above par a c ↔ a = c ∨ ∃ b, par a = some b ∧ Above par b c := by
  constructor
  · rintro (_ | ⟨link, rest⟩)
    · exact Or.inl rfl
    · exact Or.inr ⟨_, link, rest⟩
  · rintro (rfl | ⟨b, link, rest⟩)
    · exact refl a
    · exact up link rest

theorem iff_child : Above par a c ↔ a = c ∨ ∃ b, par b = some c ∧ Above par a b := by
  constructor
  · intro above
    induction above with
    | refl => exact Or.inl rfl
    | up link _ ih =>
      rcases ih with rfl | ⟨d, last, above⟩
      · exact Or.inr ⟨_, link, refl _⟩
      · exact Or.inr ⟨d, last, up link above⟩
  · rintro (rfl | ⟨b, link, above⟩)
    · exact refl a
    · exact above.trans (parent link)

theorem imp (same : ∀ x, Above par a x → par' x = par x) (above : Above par a b) : Above par' a b := by
  induction above with
  | refl => exact refl _
  | @up a b c link rest ih =>
    exact up ((same a (refl a)).trans link) (ih fun x high => same x (up link high))

/-- What is met on the way up depends only on the links there. -/
theorem congr (same : ∀ x, Above par a x → par' x = par x) : Above par' a b ↔ Above par a b := by
  refine ⟨fun above => ?_, imp same⟩
  induction above with
  | refl => exact refl _
  | @up a b c link rest ih =>
    have old := (same a (refl a)).symm.trans link
    exact up old (ih fun x high => same x (up old high))

/-- The way up after a link was moved. -/
theorem relink (above : Above par' a b) (apart : ¬Above par p i) (link : par' i = some p)
    (other : ∀ x, x ≠ i → par' x = par x) : Above par a b ∨ Above par a i ∧ Above par p b := by
  induction above with
  | refl => exact Or.inl (refl _)
  | @up a b c step rest ih =>
    by_cases here : a = i
    · subst here
      cases link.symm.trans step
      rcases ih with above | ⟨no, -⟩
      · exact Or.inr ⟨refl _, above⟩
      · exact absurd no apart
    · have old := (other a here).symm.trans step
      rcases ih with above | ⟨above, rest⟩
      · exact Or.inl (up old above)
      · exact Or.inr ⟨up old above, rest⟩

/-- What is met on the way up is in a line. -/
theorem total (first : Above par a b) (second : Above par a c) : Above par b c ∨ Above par c b := by
  induction first with
  | refl => exact Or.inl second
  | up link rest ih =>
    rcases iff_parent.mp second with rfl | ⟨d, link', second'⟩
    · exact Or.inr (up link rest)
    · cases link.symm.trans link'
      exact ih second'

end Above

namespace Depth

theorem unique (first : Depth par a n) (second : Depth par a k) : n = k := by
  induction first generalizing k with
  | top none_ =>
    cases second with
    | top => rfl
    | down link => nomatch none_.symm.trans link
  | down link _ ih =>
    cases second with
    | top none_ => nomatch none_.symm.trans link
    | down link' rest =>
      cases link.symm.trans link'
      rw [ih rest]

theorem above (depth : Depth par a n) (way : Above par a b) : ∃ k ≤ n, Depth par b k ∧ (k = n → a = b) := by
  induction way generalizing n with
  | refl => exact ⟨n, Nat.le_refl _, depth, fun _ => rfl⟩
  | up link _ ih =>
    cases depth with
    | top none_ => nomatch none_.symm.trans link
    | down link' rest =>
      cases link.symm.trans link'
      obtain ⟨k, le, found, _⟩ := ih rest
      exact ⟨k, Nat.le_succ_of_le le, found, fun same => absurd le (by omega)⟩

theorem congr (same : ∀ x, Above par a x → par' x = par x) (depth : Depth par a n) : Depth par' a n := by
  induction depth with
  | @top a none_ => exact top ((same a (.refl a)).trans none_)
  | @down a b n link _ ih => exact down ((same a (.refl a)).trans link) (ih fun x high => same x (.up link high))

/-- A link is moved to an element that is not below it. -/
theorem relink (depth : Depth par a n) (target : Depth par p k) (apart : ¬Above par p i) (link : par' i = some p)
    (other : ∀ x, x ≠ i → par' x = par x) : ∃ m, Depth par' a m := by
  have new : Depth par' p k := target.congr fun x high => other x fun same => apart (same ▸ high)
  induction depth with
  | @top a none_ =>
    by_cases here : a = i
    · exact ⟨k + 1, down (here ▸ link) new⟩
    · exact ⟨0, top ((other a here).trans none_)⟩
  | @down a b n link' _ ih =>
    by_cases here : a = i
    · exact ⟨k + 1, down (here ▸ link) new⟩
    · obtain ⟨m, rest⟩ := ih
      exact ⟨m + 1, down ((other a here).trans link') rest⟩

/-- The way up is shorter than a list of what can be met. -/
theorem lt_length {l : List α} (depth : Depth par a n) (inside : ∀ b, Above par a b → b ∈ l) : n < l.length := by
  suffices chain : ∃ way : List α, way.length = n + 1 ∧ way.Nodup ∧ ∀ x ∈ way, Above par a x ∧ ∃ k ≤ n, Depth par x k by
    obtain ⟨way, length, nodup, members⟩ := chain
    have sub : way ⊆ l := fun x member => inside x (members x member).1
    have le := (List.subperm_of_subset nodup sub).length_le
    omega
  clear inside
  induction depth with
  | @top a none_ => exact ⟨[a], rfl, List.nodup_singleton a, fun x member => by
      rw [List.mem_singleton.mp member]
      exact ⟨.refl a, 0, Nat.le_refl _, top none_⟩⟩
  | @down a b n link rest ih =>
    obtain ⟨way, length, nodup, members⟩ := ih
    refine ⟨a :: way, by simp [length], List.nodup_cons.mpr ⟨fun member => ?_, nodup⟩, fun x member => ?_⟩
    · obtain ⟨-, k, le, found⟩ := members a member
      have same := found.unique (down link rest)
      omega
    · rcases List.mem_cons.mp member with rfl | old
      · exact ⟨.refl x, n + 1, Nat.le_refl _, down link rest⟩
      · obtain ⟨above, k, le, found⟩ := members x old
        exact ⟨.up link above, k, by omega, found⟩

end Depth

/-- Two below one parent have nothing below them in common. -/
theorem Above.siblings {x : α} (depth : Depth par p k) (first : par a = some p) (second : par b = some p)
    (low : Above par x a) (low' : Above par x b) : a = b := by
  have depthA := Depth.down first depth
  have depthB := Depth.down second depth
  rcases low.total low' with above | above
  · obtain ⟨j, -, found, same⟩ := depthA.above above
    exact same (found.unique depthB)
  · obtain ⟨j, -, found, same⟩ := depthB.above above
    exact (same (found.unique depthA)).symm

/-- A loop over a list, by what holds once a part of the list is done. -/
theorem foldlM_spec {σ : Type} {f : σ → α → Option σ} {l : List α} {s : σ} (Q : List α → σ → Prop) (start : Q [] s)
    (step : ∀ done a rest s, l = done ++ a :: rest → Q done s → ∃ s', f s a = some s' ∧ Q (done ++ [a]) s') :
    ∃ s', l.foldlM f s = some s' ∧ Q l s' := by
  suffices from_ : ∀ done s, Q done s → ∀ rest, l = done ++ rest → ∃ s', rest.foldlM f s = some s' ∧ Q l s' from
    from_ [] s start l rfl
  intro done s here rest
  induction rest generalizing done s with
  | nil =>
    intro whole
    rw [List.append_nil] at whole
    exact ⟨s, rfl, whole ▸ here⟩
  | cons a rest ih =>
    intro whole
    obtain ⟨s₁, ran, next⟩ := step done a rest s whole here
    obtain ⟨s₂, ran₂, last⟩ := ih _ s₁ next (by rw [whole, List.append_assoc]; rfl)
    refine ⟨s₂, ?_, last⟩
    rw [List.foldlM_cons, ran]
    exact ran₂

end Inferno.Lib
