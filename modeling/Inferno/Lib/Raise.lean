import Mathlib

namespace Inferno.Lib

variable {ε σ α β : Type}

/-- From `s` on, `m` ends with `Q` of its value and its state, or raises an exception in a state with `E`. -/
def Ends (m : EStateM ε σ α) (s : σ) (Q : α → σ → Prop) (E : σ → Prop) : Prop :=
  match m s with
  | .ok a t => Q a t
  | .error _ t => E t

namespace Ends

variable {m : EStateM ε σ α} {k : α → EStateM ε σ β} {s : σ} {P Q : α → σ → Prop} {R : β → σ → Prop}
  {E F : σ → Prop}

theorem pure {a : α} (holds : Q a s) : Ends (Pure.pure a : EStateM ε σ α) s Q E := holds

theorem throw {e : ε} (holds : E s) : Ends (MonadExcept.throw e : EStateM ε σ α) s Q E := holds

theorem get {Q : σ → σ → Prop} (holds : Q s s) : Ends (MonadState.get : EStateM ε σ σ) s Q E := holds

theorem set {t : σ} {Q : PUnit → σ → Prop} (holds : Q ⟨⟩ t) : Ends (MonadState.set t : EStateM ε σ PUnit) s Q E := holds

theorem modify {f : σ → σ} {Q : PUnit → σ → Prop} (holds : Q ⟨⟩ (f s)) :
    Ends (modify f : EStateM ε σ PUnit) s Q E := holds

theorem bind (first : Ends m s (fun a t => Ends (k a) t R E) E) : Ends (m >>= k) s R E := by
  unfold Ends at first ⊢
  simp only [Bind.bind, EStateM.bind]
  cases run : m s with
  | ok a t =>
    rw [run] at first
    exact first
  | error e t =>
    rw [run] at first
    exact first

theorem map {f : α → β} (first : Ends m s (fun a t => R (f a) t) E) : Ends (f <$> m) s R E := by
  unfold Ends at first ⊢
  simp only [Functor.map, EStateM.map]
  cases run : m s with
  | ok a t =>
    rw [run] at first
    exact first
  | error e t =>
    rw [run] at first
    exact first

theorem imp (ends : Ends m s P E) (value : ∀ a t, P a t → Q a t) (raised : ∀ t, E t → F t) : Ends m s Q F := by
  unfold Ends at ends ⊢
  cases run : m s with
  | ok a t =>
    rw [run] at ends
    exact value a t ends
  | error e t =>
    rw [run] at ends
    exact raised t ends

theorem all {ι : Type} {Q : ι → α → σ → Prop} (each : ∀ i, Ends m s (Q i) fun _ => True) :
    Ends m s (fun a t => ∀ i, Q i a t) fun _ => True := by
  unfold Ends at each ⊢
  cases run : m s with
  | ok a t =>
    rw [run] at each
    exact each
  | error e t => trivial

theorem ite {c : Prop} [Decidable c] {m' : EStateM ε σ α} (yes : c → Ends m s Q E) (no : ¬c → Ends m' s Q E) :
    Ends (if c then m else m') s Q E := by
  split
  · exact yes ‹_›
  · exact no ‹_›

end Ends

/-- From `s` on, `m` ends with `Q` of its value and its state, or with `E` of its exception and its state. -/
def Gives (m : EStateM ε σ α) (s : σ) (Q : α → σ → Prop) (E : ε → σ → Prop) : Prop :=
  match m s with
  | .ok a t => Q a t
  | .error e t => E e t

/-- No exception of `m` is another one than `e`. -/
def Raises (m : EStateM ε σ α) (e : ε) : Prop := ∀ s e' t, m s = .error e' t → e' = e

namespace Raises

variable {m : EStateM ε σ α} {k : α → EStateM ε σ β} {e : ε}

theorem pure {a : α} : Raises (Pure.pure a : EStateM ε σ α) e := fun _ _ _ raised => nomatch raised

theorem throw : Raises (MonadExcept.throw e : EStateM ε σ α) e := fun _ _ _ raised => by cases raised; rfl

theorem get : Raises (MonadState.get : EStateM ε σ σ) e := fun _ _ _ raised => nomatch raised

theorem set {t : σ} : Raises (MonadState.set t : EStateM ε σ PUnit) e := fun _ _ _ raised => nomatch raised

theorem modify {f : σ → σ} : Raises (modify f : EStateM ε σ PUnit) e := fun _ _ _ raised => nomatch raised

theorem bind (first : Raises m e) (next : ∀ a, Raises (k a) e) : Raises (m >>= k) e := by
  intro s e' t raised
  simp only [Bind.bind, EStateM.bind] at raised
  cases run : m s with
  | ok a u =>
    rw [run] at raised
    exact next a u e' t raised
  | error e₁ u =>
    rw [run] at raised
    cases raised
    exact first s e' t run

theorem ite {c : Prop} [Decidable c] {m' : EStateM ε σ α} (yes : c → Raises m e) (no : ¬c → Raises m' e) :
    Raises (if c then m else m') e := by
  split
  · exact yes ‹_›
  · exact no ‹_›

end Raises

namespace Gives

variable {m : EStateM ε σ α} {k : α → EStateM ε σ β} {s : σ} {P Q : α → σ → Prop} {R : β → σ → Prop}
  {E F : ε → σ → Prop}

theorem of_raises {e : ε} (raises : Raises m e) : Gives m s (fun _ _ => True) fun e' _ => e' = e := by
  unfold Gives
  cases run : m s with
  | ok a t => trivial
  | error e' t => exact raises s e' t run

theorem and_ends {G : σ → Prop} (gives : Gives m s P E) (ends : Ends m s Q G) :
    Gives m s Q fun e t => E e t ∧ G t := by
  unfold Ends at ends
  unfold Gives at gives ⊢
  cases run : m s with
  | ok a t =>
    rw [run] at ends
    exact ends
  | error e t =>
    rw [run] at ends gives
    exact ⟨gives, ends⟩

theorem of_ends {G : σ → Prop} {e : ε} (ends : Ends m s Q G) (raises : Raises m e) :
    Gives m s Q fun e' t => e' = e ∧ G t :=
  (of_raises raises).and_ends ends

theorem bind (first : Gives m s (fun a t => Gives (k a) t R E) E) : Gives (m >>= k) s R E := by
  unfold Gives at first ⊢
  simp only [Bind.bind, EStateM.bind]
  cases run : m s with
  | ok a t =>
    rw [run] at first
    exact first
  | error e t =>
    rw [run] at first
    exact first

theorem throw {e : ε} (holds : E e s) : Gives (MonadExcept.throw e : EStateM ε σ α) s Q E := holds

theorem imp (gives : Gives m s P E) (value : ∀ a t, P a t → Q a t) (raised : ∀ e t, E e t → F e t) :
    Gives m s Q F := by
  unfold Gives at gives ⊢
  cases run : m s with
  | ok a t =>
    rw [run] at gives
    exact value a t gives
  | error e t =>
    rw [run] at gives
    exact raised e t gives

/-- What `m` ends with, and the only exception it has. -/
theorem bind_ends {G : σ → Prop} {e : ε} (first : Ends m s (fun a t => Gives (k a) t R E) G) (raises : Raises m e)
    (raised : ∀ t, G t → E e t) : Gives (m >>= k) s R E :=
  bind ((of_ends first raises).imp (fun _ _ next => next) fun _ t ⟨same, holds⟩ => same ▸ raised t holds)

end Gives

end Inferno.Lib
