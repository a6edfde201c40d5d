import Inferno.Strings.Run

namespace Inferno.Dis

open Lib Strings

def sizeofArray : Nat := 32

def exNegsize : String := "negative array size"

/-- The size of an element, which is an `int` that is not negative. -/
structure ElemType where
  size : Nat
  small : size < 2 ^ 31

/-- An `Array` with the bytes of its block from `data` on. -/
structure HArray where
  t : ElemType
  len : Int
  room : Nat
  data : ByteMem

def acheck (tsz sz : Int) : OrError Unit :=
  if sz < 0 then throw exNegsize
  -- the product wraps before it is added
  else if int (sizeT ((sizeofArray + sizeofHeap : Nat) + int (tsz * sz))) < sz ∧ tsz ≠ 0 then throw exHeap
  else return

def nheapBlock (pool : Nat → Option Block) (n : Int) : OrError Block :=
  match pool (sizeT (sizeofHeap + n)) with
  | none => throw exHeap
  | some b => return b

def newa (pool : Nat → Option Block) (t : ElemType) (w : Int) : OrError HArray := do
  let sz := int w
  acheck (int t.size) sz
  let h ← nheapBlock pool (int (sizeT (sizeofArray + t.size * sz)))
  return ⟨t, sz, h.msize - (sizeofHeap + sizeofArray), h.junk⟩

/-- The elements set to zero. -/
def HArray.memset (a : HArray) : HArray :=
  { a with data := fun i => if (i : Int) < a.t.size * a.len then 0 else a.data i }

def newaz (pool : Nat → Option Block) (t : ElemType) (w : Int) : OrError HArray := do
  let a ← newa pool t w
  return a.memset

/-- The elements are inside the block. -/
def HArray.Fits (a : HArray) : Prop := a.len * a.t.size ≤ a.room

/-- A request is refused, or its size is not cut, or cut to one that the heap does not give out. -/
def Whole (t : ElemType) (sz : Int) : Prop :=
  (∃ e, acheck t.size sz = .error e) ∨ t.size * sz + (sizeofHeap + sizeofArray : Nat) < 2 ^ 32 ∨
    2 ^ 30 ≤ (t.size * sz + (sizeofHeap + sizeofArray : Nat)) % 2 ^ 32

variable {pool : Nat → Option Block} {t : ElemType} {w : Int} {a : HArray}

theorem ElemType.int_size (t : ElemType) : int t.size = t.size := int_of_lt (by omega) (by have := t.small; omega)

theorem asked_eq {n : Int} (less : (n + (sizeofHeap + sizeofArray : Nat)) % 2 ^ 32 < 2 ^ 30) :
    (sizeT (sizeofHeap + int (sizeT (sizeofArray + n))) : Int) = (n + (sizeofHeap + sizeofArray : Nat)) % 2 ^ 32 := by
  simp only [sizeT, int, sizeofHeap, sizeofArray, Int.bmod_def] at less ⊢
  omega

theorem asked_large {n : Int} (large : 2 ^ 30 ≤ (n + (sizeofHeap + sizeofArray : Nat)) % 2 ^ 32) :
    2 ^ 30 ≤ sizeT (sizeofHeap + int (sizeT (sizeofArray + n))) := by
  simp only [sizeT, int, sizeofHeap, sizeofArray, Int.bmod_def] at large ⊢
  omega

theorem newa_eq (pool : Nat → Option Block) (t : ElemType) (w : Int) :
    newa pool t w = match acheck t.size (int w) with
      | .error e => .error e
      | .ok _ => match pool (sizeT (sizeofHeap + int (sizeT (sizeofArray + t.size * int w)))) with
        | none => .error exHeap
        | some b => .ok ⟨t, int w, b.msize - (sizeofHeap + sizeofArray), b.junk⟩ := by
  unfold newa nheapBlock
  dsimp only
  rw [t.int_size]
  cases acheck t.size (int w) with
  | error e => rfl
  | ok u =>
    dsimp only [bind, Except.bind]
    cases pool (sizeT (sizeofHeap + int (sizeT (sizeofArray + t.size * int w)))) with
    | none => rfl
    | some b => rfl

theorem newa_of {u : Unit} {b : Block} (check : acheck t.size (int w) = .ok u)
    (given : pool (sizeT (sizeofHeap + int (sizeT (sizeofArray + t.size * int w)))) = some b) :
    newa pool t w = .ok ⟨t, int w, b.msize - (sizeofHeap + sizeofArray), b.junk⟩ := by
  rw [newa_eq, check]
  dsimp only
  rw [given]

theorem nonneg_of_acheck {tsz sz : Int} {u : Unit} (passed : acheck tsz sz = .ok u) : 0 ≤ sz := by
  by_contra neg
  rw [acheck, if_pos (by omega)] at passed
  nomatch passed

/-- A request that is not cut gets room for its elements. -/
theorem newa_fits (lawful : Lawful fun _ => pool) (whole : Whole t (int w)) (made : newa pool t w = .ok a) : a.Fits := by
  rw [newa_eq] at made
  cases check : acheck t.size (int w) with
  | error e =>
    rw [check] at made
    nomatch made
  | ok u =>
    rw [check] at made
    dsimp only at made
    cases given : pool (sizeT (sizeofHeap + int (sizeT (sizeofArray + t.size * int w)))) with
    | none =>
      rw [given] at made
      nomatch made
    | some b =>
      rw [given] at made
      cases made
      obtain ⟨few, enough, -⟩ := lawful 0 _ b given
      have pos : 0 ≤ t.size * int w := Int.mul_nonneg (Int.natCast_nonneg _) (nonneg_of_acheck check)
      have comm := Int.mul_comm (int w) t.size
      rcases whole with ⟨e, refused⟩ | less | large
      · rw [check] at refused
        nomatch refused
      · unfold HArray.Fits
        by_cases large : 2 ^ 30 ≤ (t.size * int w + (sizeofHeap + sizeofArray : Nat)) % 2 ^ 32
        · have beyond := asked_large large
          omega
        · have asked := asked_eq (not_le.mp large)
          rw [Int.emod_eq_of_lt (by omega) less] at asked
          dsimp only
          omega
      · have beyond := asked_large large
        omega

/-- A request that is cut to one that the heap gives out gets a block that is too small. -/
theorem newa_short (cut : ¬Whole t (int w)) : ∃ a, newa (heapmem 0) t w = .ok a ∧ ¬a.Fits := by
  unfold Whole at cut
  simp only [not_or, not_lt, not_le, not_exists] at cut
  obtain ⟨passed, large, small⟩ := cut
  obtain ⟨u, check⟩ : ∃ u, acheck t.size (int w) = .ok u := by
    cases check : acheck t.size (int w) with
    | error e => exact absurd check (passed e)
    | ok u => exact ⟨u, rfl⟩
  have asked := asked_eq small
  have less : sizeT (sizeofHeap + int (sizeT (sizeofArray + t.size * int w))) < 2 ^ 30 := by omega
  obtain ⟨b, given⟩ : ∃ b, heapmem 0 (sizeT (sizeofHeap + int (sizeT (sizeofArray + t.size * int w)))) = some b := by
    unfold heapmem
    exact ⟨_, if_pos less⟩
  obtain ⟨-, -, most⟩ := heapmem_lawful 0 _ _ given
  refine ⟨_, newa_of check given, fun fits => ?_⟩
  unfold HArray.Fits at fits
  dsimp only at fits most
  have comm := Int.mul_comm (int w) t.size
  have heap : sizeofHeap = 32 := rfl
  have array : sizeofArray = 32 := rfl
  omega

theorem newaz_eq (pool : Nat → Option Block) (t : ElemType) (w : Int) :
    newaz pool t w = (newa pool t w).map HArray.memset := by
  unfold newaz
  cases newa pool t w with
  | error e => rfl
  | ok a => rfl

/-- The two instructions make no array that is larger than its block, exactly if the size that they ask for is not cut
to one that the heap gives out. -/
theorem newa_exact (t : ElemType) (w : Int) :
    ((∀ pool, Lawful (fun _ => pool) → ∀ a, newa pool t w = .ok a → a.Fits) ↔ Whole t (int w)) ∧
    ((∀ pool, Lawful (fun _ => pool) → ∀ a, newaz pool t w = .ok a → a.Fits) ↔ Whole t (int w)) := by
  have lawful : Lawful fun _ => heapmem 0 := heapmem_lawful
  refine ⟨⟨fun fits => ?_, fun whole pool lawful a made => newa_fits lawful whole made⟩,
    fun fits => ?_, fun whole pool lawful a made => ?_⟩
  · by_contra cut
    obtain ⟨a, made, short⟩ := newa_short cut
    exact short (fits _ lawful a made)
  · by_contra cut
    obtain ⟨a, made, short⟩ := newa_short cut
    exact short (fits _ lawful a.memset (by rw [newaz_eq, made]; rfl))
  · rw [newaz_eq] at made
    cases first : newa pool t w with
    | error e =>
      rw [first] at made
      nomatch made
    | ok b =>
      rw [first] at made
      cases made
      have fits := newa_fits lawful whole first
      exact fits

/-- Two hundred million elements of 24 bytes, in half a gigabyte. -/
theorem newa_cut : ∃ a, newa (heapmem 0) ⟨24, by decide⟩ 200000000 = .ok a ∧ a.len = 200000000 ∧
    (a.room : Int) < 505100000 ∧ ¬a.Fits :=
  ⟨_, rfl, rfl, by decide, by unfold HArray.Fits; decide⟩

end Inferno.Dis
