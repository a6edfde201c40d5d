import Inferno.Mp.Mpint

namespace Inferno.Mp

open Lib Mem Store

/-- What `mpmul` does once `prod` is none of the operands. -/
def mpmulInto (b1 b2 prod : Nat) (s : Store) : Store :=
  let s := s.upd prod { s.obj prod with top := 0 }
  let s := mpbits prod (((s.obj b1).top + (s.obj b2).top + 1) * 32) s
  let s := { s with mem := mpvecmul s.next (s.obj b1).p (s.obj b1).top (s.obj b2).p (s.obj b2).top (s.obj prod).p s.mem }
  let s := s.upd prod { s.obj prod with
    top := (s.obj b1).top + (s.obj b2).top + 1
    sign := (s.obj b1).sign * (s.obj b2).sign }
  mpnorm prod s

def mpmul (b1 b2 prod : Nat) (s : Store) : Store :=
  if prod = b1 ∨ prod = b2 then
    let (tmp, s) := mpnew 0 s
    mpfree tmp (mpassign tmp prod (mpmulInto b1 b2 tmp s))
  else mpmulInto b1 b2 prod s

variable {s : Store} {b1 b2 prod : Nat}

theorem mpmulInto_spec (ok : s.Ok) (live₁ : s.live b1) (live₂ : s.live b2) (live : s.live prod) (ne₁ : b1 ≠ prod)
    (ne₂ : b2 ≠ prod) : Frame (· = prod) s (mpmulInto b1 b2 prod s) ∧
    (mpmulInto b1 b2 prod s).int prod = s.int b1 * s.int b2 ∧ (mpmulInto b1 b2 prod s).Canonical prod ∧
    ((mpmulInto b1 b2 prod s).obj prod).flags = (s.obj prod).flags := by
  unfold mpmulInto
  dsimp only
  have frame := upd_frame (o := { s.obj prod with top := 0 }) ok live rfl rfl (Nat.zero_le _)
  have none_ : ((s.upd prod { s.obj prod with top := 0 }).obj prod).top = 0 := by rw [upd_self]
  have flags : ((s.upd prod { s.obj prod with top := 0 }).obj prod).flags = (s.obj prod).flags := by rw [upd_self]
  generalize s.upd prod { s.obj prod with top := 0 } = s₁ at frame none_ flags ⊢
  have live' := frame.live prod live
  obtain ⟨grown, -, flags', top, -, zero⟩ := mpbits_spec (n := 32 * ((s₁.obj b1).top + (s₁.obj b2).top + 1)) frame.ok live'
  rw [Nat.mul_comm _ 32]
  rw [digits_mul, none_, Nat.zero_max] at top
  rw [digits_mul, none_] at zero
  generalize mpbits prod (32 * ((s₁.obj b1).top + (s₁.obj b2).top + 1)) s₁ = s₂ at grown flags' top zero ⊢
  rw [frame.obj b1 live₁ ne₁, frame.obj b2 live₂ ne₂] at top zero
  replace frame := frame.trans grown fun _ _ => id
  have object₁ := frame.obj b1 live₁ ne₁
  have object₂ := frame.obj b2 live₂ ne₂
  have value₁ : s₂.mem.val (s.obj b1).p (s.obj b1).top = s.mag b1 := by
    rw [← frame.mag ok live₁ ne₁, mag, object₁]
  have value₂ : s₂.mem.val (s.obj b2).p (s.obj b2).top = s.mag b2 := by
    rw [← frame.mag ok live₂ ne₂, mag, object₂]
  rw [object₁, object₂]
  replace live' := grown.live prod live'
  have room := frame.ok.top prod live'
  -- the product of the digits
  have args : MulArgs s₂.next (s.obj b1).p (s.obj b1).top (s.obj b2).p (s.obj b2).top (s₂.obj prod).p s₂.mem := by
    have ok' := frame.ok
    have other : ∀ {b}, s.live b → b ≠ prod → (s.obj b).blk < s₂.next ∧ (s.obj b).blk ≠ (s₂.obj prod).blk := fun {b} live ne => by
      rw [← frame.obj b live ne]
      exact ⟨(ok'.below b (frame.live b live)).2, fun same => ne (ok'.apart b prod (frame.live b live) live' same)⟩
    exact ⟨(other live₁ ne₁).1, (other live₂ ne₂).1, (ok'.below prod live').2, Or.inl (other live₁ ne₁).2, Or.inl (other live₂ ne₂).2,
      val_zero fun i less => zero i (Nat.zero_le i) (by omega)⟩
  obtain ⟨writes, product⟩ := mpvecmul_spec args
  rw [value₁, value₂] at product
  have above := writes.word ((s₂.obj prod).p + ((s.obj b1).top + (s.obj b2).top)) args.blkP (Or.inr (Or.inr le_rfl))
  rw [zero _ (Nat.zero_le _) (Nat.lt_succ_self _)] at above
  generalize mpvecmul s₂.next (s.obj b1).p (s.obj b1).top (s.obj b2).p (s.obj b2).top (s₂.obj prod).p s₂.mem = m at writes product above ⊢
  have frame₃ := writes_frame frame.ok live' writes (by omega)
  generalize object : ({ s₂.obj prod with
    top := (s.obj b1).top + (s.obj b2).top + 1
    sign := (s.obj b1).sign * (s.obj b2).sign } : Mpint) = o
  have fields : o.top = (s.obj b1).top + (s.obj b2).top + 1 ∧ o.sign = (s.obj b1).sign * (s.obj b2).sign ∧
      o.size = (s₂.obj prod).size ∧ o.blk = (s₂.obj prod).blk ∧ o.flags = (s.obj prod).flags := by
    rw [← object]
    exact ⟨rfl, rfl, rfl, rfl, flags'.trans flags⟩
  obtain ⟨oTop, oSign, oSize, oBlk, oFlags⟩ := fields
  have frame₄ := upd_frame frame₃.ok live' oSize oBlk (by dsimp only; omega)
  generalize upd : ({ s₂ with mem := m } : Store).upd prod o = s₄ at frame₄ ⊢
  have object₄ : s₄.obj prod = o := by rw [← upd, upd_self]
  have place : o.p = (s₂.obj prod).p := congrArg (Ptr.mk · 0) oBlk
  have value₄ : s₄.mag prod = s.mag b1 * s.mag b2 := by
    rw [mag, object₄, oTop, place, ← product, ← upd, upd_mem, val_succ, above]
    rfl
  have live₄ := frame₄.live prod live'
  obtain ⟨frame₅, canonical, -, -, flags₅⟩ := mpnorm_spec frame₄.ok live₄
  refine ⟨((frame.trans frame₃ fun _ _ => id).trans frame₄ fun _ _ => id).trans frame₅ fun _ _ => id, ?_, canonical, ?_⟩
  · rw [mpnorm_int frame₄.ok live₄, int, value₄, object₄, oSign, int, int]
    push_cast
    ring
  · rw [flags₅, object₄, oFlags]

/-- `prod` becomes the product, also if it is one of the operands; the other objects are left alone. -/
theorem mpmul_spec (ok : s.Ok) (live₁ : s.live b1) (live₂ : s.live b2) (live : s.live prod) :
    Frame (· = prod) s (mpmul b1 b2 prod s) ∧ (mpmul b1 b2 prod s).int prod = s.int b1 * s.int b2 := by
  unfold mpmul
  split
  · rcases made : mpnew 0 s with ⟨tmp, s₁⟩
    dsimp only
    obtain ⟨frame, fresh, live₃, -, -, -, flags, -⟩ := mpnew_spec ok made
    have ne : ∀ {b}, s.live b → b ≠ tmp := fun {b} old same => by
      rw [same, fresh] at old
      exact Bool.false_ne_true old
    have same : ∀ {b}, s.live b → s₁.int b = s.int b := fun old => frame.int ok old id
    obtain ⟨frame₂, product, -, flags₂⟩ := mpmulInto_spec frame.ok (frame.live b1 live₁) (frame.live b2 live₂) live₃ (ne live₁) (ne live₂)
    generalize mpmulInto b1 b2 tmp s₁ = s₂ at frame₂ product flags₂ ⊢
    have live' := frame₂.live prod (frame.live prod live)
    have live₄ := frame₂.live tmp live₃
    obtain ⟨frame₃, -⟩ := mpassign_spec frame₂.ok live₄ live'
    have value := mpassign_int frame₂.ok live₄ live'
    have object := frame₃.obj tmp live₄ (ne live).symm
    generalize mpassign tmp prod s₂ = s₃ at frame₃ value object ⊢
    have whole : Frame (· = prod) s s₃ :=
      ((frame.mono fun _ _ no => no.elim).trans frame₂ fun b old same => absurd same (ne old)).trans frame₃ fun _ _ => id
    have live₅ := frame₃.live tmp live₄
    have flags₃ : (s₃.obj tmp).flags = false := by rw [object, flags₂, flags]
    refine ⟨whole.free fresh live₅ flags₃, ?_⟩
    rw [mpfree_int whole.ok live₅ flags₃ (ne live) (whole.live prod live), value, product, same live₁, same live₂]
  · rename_i other
    obtain ⟨frame, product, -⟩ := mpmulInto_spec ok live₁ live₂ live (fun same => other (Or.inl same.symm))
      fun same => other (Or.inr same.symm)
    exact ⟨frame, product⟩

/-- The object `b` of one digit `x`, for each of `xs`. -/
def Store.ofDigits (xs : List (Int × UInt32)) : Store where
  obj b := { sign := (xs.getD b (1, 0)).1, size := 1, top := 1, blk := b, flags := false }
  live b := b < xs.length
  mem := { word := fun p => (xs.getD p.blk (1, 0)).2, size := fun _ => 1, ok := true }
  next := xs.length
  mpmindigits := 33
  fatal := false

theorem Store.ofDigits_ok (xs : List (Int × UInt32)) : (Store.ofDigits xs).Ok where
  below b live := ⟨of_decide_eq_true live, of_decide_eq_true live⟩
  apart _ _ _ _ same := same
  size _ _ := rfl
  top _ _ := le_rfl
  room _ _ := Nat.one_pos
  digits := (by decide : 0 < 33)
  safe := rfl
  going := rfl

end Inferno.Mp
