import Inferno.Lib.Raise
import Inferno.Sexprs.RoundTrip

namespace Inferno.Sexprs

open Strings Lib

variable {τ α β : Type} {m : EStateM Err τ α} {k : α → EStateM Err τ β} {P Q : α → Prop} {R : β → Prop} {steps : Nat}

/-- Whatever `m` returns has `Q`. -/
def Gives (m : EStateM Err τ α) (Q : α → Prop) : Prop := ∀ t, Ends m t (fun x _ => Q x) fun _ => True

theorem Gives.bind (first : Gives m P) (then_ : ∀ x, P x → Gives (k x) R) : Gives (m >>= k) R := fun t =>
  Ends.bind ((first t).imp (fun x t' holds => then_ x holds t') fun _ _ => trivial)

theorem Gives.imp (gives : Gives m P) (weaker : ∀ x, P x → Q x) : Gives m Q := fun t =>
  (gives t).imp (fun x _ holds => weaker x holds) fun _ _ => trivial

theorem Gives.pure {x : α} (holds : Q x) : Gives (Pure.pure x : EStateM Err τ α) Q := fun _ => Ends.pure holds

theorem Gives.throw {e : Err} : Gives (MonadExcept.throw e : EStateM Err τ α) Q := fun _ => Ends.throw trivial

theorem Gives.ite {c : Prop} [Decidable c] {m' : EStateM Err τ α} (yes : c → Gives m Q) (no : ¬c → Gives m' Q) :
    Gives (if c then m else m') Q := by
  split
  · exact yes ‹_›
  · exact no ‹_›

theorem Gives.any : Gives m fun _ => True := by
  intro t
  unfold Ends
  split
  · trivial
  · trivial

theorem Gives.ok {t t' : τ} {x : α} (gives : Gives m Q) (run : m t = .ok x t') : Q x := by
  have ends := gives t
  unfold Ends at ends
  rw [run] at ends
  exact ends

/-- Nothing goes on after a diagnostic. -/
theorem Gives.raise {diag : String} {pos : Int} : Gives (Rd.raise diag pos >>= k) R :=
  Gives.bind (P := fun _ => False) Gives.throw fun _ no => no.elim

variable [Source τ]

theorem gives_getb : Gives (Rd.getb : EStateM Err τ Int) (· < 256) := by
  intro t
  unfold Ends
  split
  · rename_i run
    exact Source.getb_lt run
  · trivial

theorem hex_le (c : Int) : hex c ≤ 15 := by
  unfold hex
  split
  · rename_i digit
    have := isdigit_iff.mp digit
    omega
  · split
    · omega
    · split
      · omega
      · omega

theorem gives_escape : Gives (Rd.escape : EStateM Err τ (Option Int)) fun r => ∀ c, r = some c → c < 256 := by
  have one : ∀ {c : Int}, c < 256 → ∀ c', some c = some c' → c' < 256 := fun small c' same => Option.some.inj same ▸ small
  unfold Rd.escape
  refine Gives.any.bind fun e0 _ => gives_getb.bind fun c small => Gives.ite (fun _ => Gives.pure (one small)) fun _ => ?_
  dsimp only
  split
  · exact Gives.any.bind fun _ _ => Gives.ite (fun _ => Gives.any.bind fun _ _ => Gives.pure nofun) fun _ => Gives.pure nofun
  · exact Gives.any.bind fun _ _ => Gives.ite (fun _ => Gives.any.bind fun _ _ => Gives.pure nofun) fun _ => Gives.pure nofun
  · exact Gives.pure (one (by decide))
  · exact Gives.pure (one (by decide))
  · exact Gives.pure (one (by decide))
  · exact Gives.pure (one (by decide))
  · exact Gives.pure (one (by decide))
  · exact Gives.pure (one (by decide))
  · refine Gives.any.bind fun x _ => Gives.any.bind fun y _ => Gives.ite (fun _ => Gives.raise) fun _ => ?_
    refine Gives.pure (one ?_)
    have first := hex_le x
    have second := hex_le y
    have whole : (hex x).toNat <<< 4 ||| (hex y).toNat < 2 ^ 8 :=
      Nat.or_lt_two_pow (by rw [Nat.shiftLeft_eq]; omega) (by omega)
    omega
  · refine Gives.ite (fun _ => Gives.any.bind fun oct _ => Gives.pure (one ?_)) fun _ => Gives.pure (one small)
    have whole : oct &&& 0xFF < 2 ^ 8 := Nat.and_lt_two_pow oct (by decide)
    omega

/-- Characters that are bytes. -/
def Bytes (s : Text) : Prop := ∀ c ∈ s, c < 256

theorem Bytes.scalar {s : Text} (bytes : Bytes s) : ∀ c ∈ s, Scalar c := fun c member =>
  scalar_of_le (by have := bytes c member; omega)

theorem Bytes.cons {c : Int} {s : Text} (small : c < 256) (bytes : Bytes s) : Bytes (c.toNat :: s) :=
  List.forall_mem_cons.mpr ⟨by omega, bytes⟩

theorem gives_unquotefrom {p0 : Int} : Gives (Rd.unquotefrom p0 steps : EStateM Err τ Text) Bytes := by
  induction steps with
  | zero => exact Gives.throw
  | succ n ih =>
    have empty : Bytes [] := fun c member => nomatch member
    unfold Rd.unquotefrom
    refine gives_getb.bind fun c small => Gives.ite (fun _ => Gives.pure empty) fun _ => Gives.ite (fun _ => Gives.raise) fun _ => ?_
    refine Gives.ite (fun _ => gives_escape.bind fun r within => ?_) fun _ => ih.bind fun s bytes => Gives.pure (bytes.cons small)
    cases r with
    | none => exact ih
    | some c => exact Gives.ite (fun _ => Gives.pure empty) fun _ => ih.bind fun s bytes => Gives.pure (bytes.cons (within c rfl))

theorem gives_unquote : Gives (Rd.unquote steps : EStateM Err τ Text) Bytes := by
  unfold Rd.unquote
  exact Gives.any.bind fun p0 _ => gives_unquotefrom

theorem gives_token {c : Int} : Gives (Rd.token steps c : EStateM Err τ (Text × Int)) fun r => Bytes r.1 := by
  induction steps generalizing c with
  | zero => exact Gives.throw
  | succ n ih =>
    unfold Rd.token
    refine Gives.ite (fun token => Gives.any.bind fun c' _ => ih.bind fun r bytes => Gives.pure (bytes.cons ?_)) fun _ =>
      Gives.pure fun c member => nomatch member
    unfold istokenc isdigit at token
    simp only [decide_eq_true_eq] at token
    omega

/-- A token of which UTF-8 has the characters. -/
def Leaf (e : Sexp) : Prop := e.Every Known ∧ ∀ s hint, e = .string s hint → ∀ c ∈ s, Scalar c

theorem leaf_string {s hint : Text} (known : ∀ c ∈ hint, Scalar c) (scalars : ∀ c ∈ s, Scalar c) : Leaf (.string s hint) := by
  have whole : Known (.string s hint) := by
    refine ⟨known, fun s' hint' same => ?_⟩
    cases same
    exact scalars
  exact ⟨whole, whole.2⟩

theorem leaf_sform {b : List UInt8} {hint : Text} (known : ∀ c ∈ hint, Scalar c) : Leaf (sform b hint) := by
  unfold sform
  split
  · exact leaf_string known runesOf_scalar
  · exact ⟨⟨known, nofun⟩, nofun⟩

theorem gives_simplestring {c : Int} {hint : Text} (known : ∀ c ∈ hint, Scalar c) :
    Gives (Rd.simplestring steps c hint : EStateM Err τ Sexp) Leaf := by
  unfold Rd.simplestring
  refine Gives.any.bind fun ⟨c, dec, decs⟩ _ => ?_
  refine Gives.ite (fun _ => gives_unquote.bind fun s bytes => Gives.pure (leaf_string known bytes.scalar)) fun _ => ?_
  refine Gives.ite (fun _ => Gives.any.bind fun s _ => Gives.pure (leaf_sform known)) fun _ => ?_
  refine Gives.ite (fun _ => Gives.any.bind fun s _ => Gives.pure (leaf_sform known)) fun _ => ?_
  refine Gives.ite (fun _ => Gives.any.bind fun b _ => Gives.pure (leaf_sform known)) fun _ => ?_
  refine Gives.ite (fun _ => Gives.raise) fun _ => gives_token.bind fun ⟨s, c⟩ bytes => ?_
  refine Gives.ite (fun _ => Gives.raise) fun _ => ?_
  exact Gives.ite (fun _ => Gives.any.bind fun _ _ => Gives.pure (leaf_string known bytes.scalar)) fun _ =>
    Gives.pure (leaf_string known bytes.scalar)

theorem gives_items {item : EStateM Err τ Sexp} {p0 : Int} (each : Gives item (Sexp.Every Known)) :
    Gives (Rd.items item p0 steps) (Sexp.Everys Known) := by
  induction steps with
  | zero => exact Gives.throw
  | succ n ih =>
    unfold Rd.items
    refine Gives.any.bind fun c _ => Gives.ite (fun _ => Gives.pure trivial) fun _ => Gives.ite (fun _ => Gives.raise) fun _ => ?_
    exact Gives.any.bind fun _ _ => each.bind fun e known => ih.bind fun es knowns => Gives.pure ⟨known, knowns⟩

/-- Everything read has characters that UTF-8 has. -/
theorem gives_parseitem : ∀ (steps : Nat) (τ : Type) [Source τ], Gives (parseitem steps τ) (Sexp.Every Known)
  | 0, _, _ => Gives.throw
  | n + 1, τ, _ => by
    have absent : Known .nil := ⟨fun c member => absurd member List.not_mem_nil, nofun⟩
    have list : ∀ l, Known (.list l) := fun l => ⟨fun c member => absurd member List.not_mem_nil, nofun⟩
    have none_ : ∀ c ∈ ([] : Text), Scalar c := fun c member => nomatch member
    unfold parseitem
    refine Gives.any.bind fun p0 _ => Gives.any.bind fun c _ => Gives.ite (fun _ => Gives.pure absent) fun _ => ?_
    refine Gives.ite (fun _ => Gives.any.bind fun a _ => ?_) fun _ => ?_
    · intro t
      have inner := gives_parseitem n Iobuf (Iobuf.aopen (dec64 a 0 0))
      unfold Rd.inside
      unfold Ends at inner ⊢
      split at inner
      · rename_i run
        rw [run]
        exact inner
      · rename_i run
        rw [run]
        trivial
    refine Gives.ite (fun _ => (gives_items (gives_parseitem n τ)).bind fun es known => Gives.pure ⟨list es, known⟩) fun _ => ?_
    refine Gives.ite (fun _ => Gives.any.bind fun c _ => (gives_simplestring none_).bind fun e leaf => ?_) fun _ => ?_
    · refine Gives.any.bind fun c _ => Gives.ite (fun _ => Gives.ite (fun _ => Gives.any.bind fun _ _ => Gives.raise) fun _ => Gives.raise)
        fun _ => ?_
      split
      · rename_i s hint
        exact Gives.any.bind fun c _ => (gives_simplestring (leaf.2 s hint rfl)).imp fun e leaf => leaf.1
      · exact Gives.throw
    · exact (gives_simplestring none_).imp fun e leaf => leaf.1

/-- What `read` can return, of anything it reads from. -/
def Readable (e : Sexp) : Prop := ∃ (τ : Type) (_ : Source τ) (steps : Nat) (t t' : τ), Sexp.read steps t = some (.inl e, t')

theorem Readable.known {e : Sexp} (readable : Readable e) : e.Every Known := by
  obtain ⟨τ, source, steps, t, t', ran⟩ := readable
  unfold Sexp.read at ran
  split at ran
  · rename_i run
    cases ran
    exact (gives_parseitem steps τ).ok run
  · nomatch ran
  · nomatch ran

end Inferno.Sexprs
