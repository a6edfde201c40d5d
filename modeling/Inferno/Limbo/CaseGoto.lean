import Inferno.Limbo.CaseLabels

namespace Inferno.Limbo

/-- The largest `int`. -/
def intMax : Int := 2 ^ 31 - 1

theorem s32_of_range {v : Int} (lower : -2 ^ 31 ≤ v) (upper : v ≤ intMax) : s32 v = v := by
  unfold intMax at upper
  exact Int.bmod_eq_of_le (by omega) (by omega)

theorem s32_le_intMax (v : Int) : s32 v ≤ intMax := by
  have := Int.bmod_lt (x := v) (m := 2 ^ 32) (by decide)
  unfold s32 intMax
  omega

theorem le_s32 (v : Int) : -2 ^ 31 ≤ s32 v := by
  have := Int.le_bmod (x := v) (m := 2 ^ 32) (by decide)
  unfold s32
  omega

/-- `n` consecutive one-value entries from `a` on. -/
def singles : Int → Nat → List (Int × Int)
  | _, 0 => []
  | a, n + 1 => (a, a) :: singles (a + 1) n

@[simp] theorem length_singles (a : Int) (n : Nat) : (singles a n).length = n := by
  induction n generalizing a with
  | zero => rfl
  | succ n ih => simp only [singles, List.length_cons, ih]

theorem mem_singles {a : Int} {n : Nat} {l : Int × Int} :
    l ∈ singles a n ↔ l.1 = l.2 ∧ a ≤ l.1 ∧ l.1 < a + n := by
  induction n generalizing a with
  | zero => simp only [singles, List.not_mem_nil, Nat.cast_zero, false_iff]; lia
  | succ n ih =>
    simp only [singles, List.mem_cons, ih]
    constructor
    · rintro (rfl | ⟨same, lower, upper⟩)
      · exact ⟨rfl, le_rfl, by simp only; lia⟩
      · exact ⟨same, by lia, by lia⟩
    · rintro ⟨same, lower, upper⟩
      by_cases first : l.1 = a
      · exact Or.inl (Prod.ext first (by simp only; lia))
      · exact Or.inr ⟨same, by lia, by lia⟩

theorem getElem_singles {a : Int} {n i : Nat} (bound : i < (singles a n).length) :
    (singles a n)[i] = (a + i, a + i) := by
  induction n generalizing a i with
  | zero => simp [singles] at bound
  | succ n ih =>
    cases i with
    | zero => simp [singles]
    | succ i =>
      simp only [singles, List.getElem_cons_succ]
      rw [ih]
      push_cast
      exact Prod.ext (by simp only; omega) (by simp only; omega)

theorem singles_append (a : Int) (m n : Nat) : singles a m ++ singles (a + m) n = singles a (m + n) := by
  induction m generalizing a with
  | zero => simp [singles]
  | succ m ih =>
    rw [show m + 1 + n = m + n + 1 by omega]
    simp only [singles, List.cons_append, ← ih]
    congr 3
    push_cast
    omega

theorem singles_sorted (a : Int) (n : Nat) : (singles a n).Pairwise (fun a b => a.2 < b.1) := by
  induction n generalizing a with
  | zero => exact .nil
  | succ n ih =>
    refine List.pairwise_cons.mpr ⟨fun l member => ?_, ih (a + 1)⟩
    have := mem_singles.mp member
    simp only
    omega

/-- The inner loop of `dogoto` when the stop is below the largest int. -/
theorem expand_eq {room : Nat} {j q : Int} (lower : -2 ^ 31 ≤ j) (order : j ≤ q + 1)
    (below : q < intMax) (fits : (q + 1 - j).toNat ≤ room) :
    expand room j q =
      some ((singles j (q + 1 - j).toNat).map Prod.fst, room - (q + 1 - j).toNat) := by
  induction room generalizing j with
  | zero =>
    rw [expand, if_neg (by omega), show (q + 1 - j).toNat = 0 by omega]
    rfl
  | succ room ih =>
    rw [expand]
    split
    · rename_i more
      have next : s32 (j + 1) = j + 1 := s32_of_range (by omega) (by omega)
      rw [next, ih (by omega) (by omega) (by omega), Option.map_some]
      rw [show (q + 1 - j).toNat = (q + 1 - (j + 1)).toNat + 1 by omega]
      simp only [singles, List.map_cons]
      congr 2
      omega
    · rw [show (q + 1 - j).toNat = 0 by omega]
      rfl

/-- With the largest int as its stop the loop never ends by itself. -/
theorem expand_intMax {room : Nat} {j : Int} (upper : j ≤ intMax) : expand room j intMax = none := by
  induction room generalizing j with
  | zero => rw [expand, if_pos upper]
  | succ room ih => rw [expand, if_pos upper, ih (s32_le_intMax _), Option.map_none]

theorem expandLabs_eq (room : Nat) {labs : List (Int × Int)} {v a : Int}
    (sorted : labs.Pairwise (fun a b => a.2 < b.1))
    (ranges : ∀ l ∈ labs, -2 ^ 31 ≤ l.1 ∧ l.1 ≤ l.2 ∧ l.2 < intMax) (first : s32 (v + 1) = a)
    (lower : ∀ l ∈ labs, a ≤ l.1)
    (fits : ((labs.getLast?.map Prod.snd).getD (a - 1) + 1 - a).toNat ≤ room) :
    expandLabs labs v room =
      some ((singles a ((labs.getLast?.map Prod.snd).getD (a - 1) + 1 - a).toNat).map Prod.fst,
        room - ((labs.getLast?.map Prod.snd).getD (a - 1) + 1 - a).toNat) := by
  induction labs generalizing v a room with
  | nil =>
    simp only [expandLabs, List.getLast?_nil, Option.map_none, Option.getD_none,
      show (a - 1 + 1 - a).toNat = 0 by lia, singles, List.map_nil, Nat.sub_zero]
  | cons l rest ih =>
    have here := ranges l (List.mem_cons_self ..)
    have low := lower l (List.mem_cons_self ..)
    have aLow : -2 ^ 31 ≤ a := first ▸ le_s32 _
    have stop : s32 l.2 = l.2 := s32_of_range (by lia) (by lia)
    have next : s32 (l.2 + 1) = l.2 + 1 := s32_of_range (by lia) (by lia)
    have after : ∀ r ∈ rest, l.2 + 1 ≤ r.1 := fun r member => (List.pairwise_cons.mp sorted).1 r member
    -- where the whole list ends, seen from the rest of it
    have ends : ((l :: rest).getLast?.map Prod.snd).getD (a - 1) =
        (rest.getLast?.map Prod.snd).getD (l.2 + 1 - 1) := by
      cases rest with
      | nil => simp
      | cons r rest =>
        rw [List.getLast?_cons_cons]
        obtain ⟨last, found⟩ := Option.isSome_iff_exists.mp
          (List.getLast?_isSome.mpr (List.cons_ne_nil r rest))
        rw [found]
        rfl
    have beyond : l.2 ≤ (rest.getLast?.map Prod.snd).getD (l.2 + 1 - 1) := by
      cases last : rest.getLast? with
      | none => simp
      | some r =>
        have member := List.mem_of_getLast? last
        have := after r member
        have := ranges r (List.mem_cons_of_mem _ member)
        simp only [Option.map_some, Option.getD_some]
        lia
    rw [ends] at fits ⊢
    have tail := ih (room - (l.2 + 1 - a).toNat) (v := l.2) (a := l.2 + 1)
      (List.pairwise_cons.mp sorted).2 (fun r member => ranges r (List.mem_cons_of_mem _ member)) next after
      (by lia)
    simp only [expandLabs, first, stop]
    rw [expand_eq aLow (by lia) (by lia) (by lia)]
    simp only [Option.bind_eq_bind, Option.bind_some, tail, Option.some.injEq, Prod.mk.injEq]
    refine ⟨?_, by lia⟩
    rw [← List.map_append]
    congr 1
    have step := singles_append a (l.2 + 1 - a).toNat
      ((rest.getLast?.map Prod.snd).getD (l.2 + 1 - 1) + 1 - (l.2 + 1)).toNat
    rw [show a + ((l.2 + 1 - a).toNat : Int) = l.2 + 1 by lia] at step
    rw [step]
    congr 1
    lia

theorem expandLabs_intMax {labs : List (Int × Int)} {v : Int} {room : Nat}
    (ends : ∃ l ∈ labs, l.2 = intMax) : expandLabs labs v room = none := by
  induction labs generalizing v room with
  | nil => simp at ends
  | cons l rest ih =>
    obtain ⟨k, member, stop⟩ := ends
    rw [expandLabs]
    rcases List.mem_cons.mp member with same | later
    · subst same
      have wide : s32 k.2 = intMax := by rw [stop]; exact s32_of_range (by decide) le_rfl
      rw [wide, expand_intMax (s32_le_intMax _)]
      rfl
    · cases expand room (s32 (v + 1)) (s32 l.2) with
      | none => rfl
      | some out => simp only [Option.bind_eq_bind, Option.bind_some, ih ⟨k, later, stop⟩, Option.bind_none]

/-- `fillrange` past its first entry. -/
theorem fillLoop_eq {c : IntCase} (claimed : Int × Int → Prop) [DecidablePred claimed] {inst n : Nat}
    {j q : Int} (order : j ≤ q + 1) (inside : q < j + n) (lower : -2 ^ 31 ≤ j) (below : q < intMax)
    (owned : ∀ v, j ≤ v → v ≤ q → c.owner v = some inst) :
    fillLoop inst ((singles j n).map (c.claim claimed)) j q =
      some ((singles j n).map (c.claim (fun l => claimed l ∨ l.1 ≤ q))) := by
  induction n generalizing j with
  | zero =>
    simp only [singles, List.map_nil]
    rw [fillLoop, if_neg (by omega)]
  | succ n ih =>
    simp only [singles, List.map_cons]
    rw [fillLoop]
    split
    · rename_i more
      have next : s32 (j + 1) = j + 1 := s32_of_range (by omega) (by omega)
      rw [next, ih (by omega) (by push_cast at inside; omega) (by omega) (fun v low high => owned v (by omega) high),
        Option.map_some]
      simp only [IntCase.claim, more, or_true, if_true, owned j le_rfl more]
    · rw [← List.map_cons, ← List.map_cons]
      refine congrArg some (IntCase.claim_congr (singles j (n + 1)) (fun l member => ?_))
      have := mem_singles.mp member
      constructor
      · exact Or.inl
      · rintro (old | late)
        · exact old
        · omega

/-- On one-value entries `fillrange` claims exactly those in the range. -/
theorem fillrange_eq {c : IntCase} {claimed : Int × Int → Prop} [DecidablePred claimed] {inst n : Nat}
    {a p q : Int} (first : a ≤ p) (order : p ≤ q) (inside : q < a + n) (lower : -2 ^ 31 ≤ a)
    (below : q < intMax) (owned : ∀ v, p ≤ v → v ≤ q → c.owner v = some inst) :
    fillrange inst ((singles a n).map (c.claim claimed)) p q =
      some ((singles a n).map (c.claim (fun l => claimed l ∨ p ≤ l.1 ∧ l.1 ≤ q))) := by
  induction n generalizing a with
  | zero => lia
  | succ n ih =>
    by_cases here : a = p
    · subst here
      have fill := fillLoop_eq claimed (n := n + 1) (by lia) inside lower below owned
      simp only [singles, List.map_cons] at fill ⊢
      rw [fillrange, if_pos (by rfl), fill, ← List.map_cons]
      refine congrArg some (IntCase.claim_congr (singles a (n + 1)) (fun l member => ?_))
      have := mem_singles.mp member
      exact or_congr_right (by lia)
    · simp only [singles, List.map_cons]
      rw [fillrange, if_neg (by exact here), ih (by lia) (by push_cast at inside; lia) (by lia),
        Option.map_some]
      refine congrArg some (congrArg₂ List.cons ?_ rfl)
      have away : ¬(p ≤ a ∧ a ≤ q) := by lia
      simp only [IntCase.claim, away, or_false]

theorem fillLoop_intMax {inst : Nat} {labs : List Lab} {j : Int} (upper : j ≤ intMax) :
    fillLoop inst labs j intMax = none := by
  induction labs generalizing j with
  | nil => rw [fillLoop, if_pos upper]
  | cons l rest ih => rw [fillLoop, if_pos upper, ih (s32_le_intMax _), Option.map_none]

theorem fillrange_intMax {inst : Nat} {labs : List Lab} {p : Int} (upper : p ≤ intMax) :
    fillrange inst labs p intMax = none := by
  induction labs with
  | nil => rfl
  | cons l rest ih =>
    rw [fillrange]
    split
    · exact fillLoop_intMax upper
    · rw [ih, Option.map_none]

theorem foldlM_none {α β : Type} {f : β → α → Option β} {xs : List α} {x : α} (member : x ∈ xs)
    (fails : ∀ b, f b x = none) (b : β) : xs.foldlM f b = none := by
  induction xs generalizing b with
  | nil => simp at member
  | cons y rest ih =>
    rw [List.foldlM_cons]
    rcases List.mem_cons.mp member with same | later
    · subst same
      rw [fails]
      rfl
    · cases f b y with
      | none => rfl
      | some next => exact ih later next

end Inferno.Limbo
