import Mathlib

namespace Inferno.Lib

variable {σ α : Type} {exec : α → σ → Option σ} {allowed may : α → σ → Prop} {s₀ s : σ}

/-- The states that steps lead to from `s₀`, each step allowed in the state in which it is made. -/
inductive Run (exec : α → σ → Option σ) (allowed : α → σ → Prop) (s₀ : σ) : σ → Prop
  | start : Run exec allowed s₀ s₀
  | step {s s' : σ} {a : α} : Run exec allowed s₀ s → allowed a s → exec a s = some s' → Run exec allowed s₀ s'

namespace Run

/-- What holds at the start and is kept by every allowed step holds in every state. -/
theorem invariant (run : Run exec allowed s₀ s) (Inv : σ → Prop) (init : Inv s₀)
    (keep : ∀ {a s s'}, Inv s → allowed a s → exec a s = some s' → Inv s') : Inv s := by
  induction run with
  | start => exact init
  | step _ ok ran ih => exact keep ih ok ran

/-- The steps of a list, one after the other. -/
def steps (exec : α → σ → Option σ) : List α → σ → Option σ
  | [], s => some s
  | a :: as, s => (exec a s).bind (steps exec as)

theorem of_steps {as : List α} (ran : steps exec as s₀ = some s) : Run exec (fun _ _ => True) s₀ s := by
  suffices from_ : ∀ {s₁}, Run exec (fun _ _ => True) s₀ s₁ → steps exec as s₁ = some s →
      Run exec (fun _ _ => True) s₀ s from from_ start ran
  intro s₁ run rest
  clear ran
  induction as generalizing s₁ with
  | nil =>
    cases rest
    exact run
  | cons a as ih =>
    obtain ⟨s₂, first, rest⟩ := Option.bind_eq_some_iff.mp rest
    exact ih (run.step trivial first) rest

end Run

end Inferno.Lib
