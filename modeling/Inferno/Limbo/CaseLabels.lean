import Inferno.Limbo.Casecom

namespace Inferno.Limbo

theorem findlabLoop_eq {labs : List Lab} {v : Int} {fuel l r m : Nat}
    (enough : r + 1 ≤ l + fuel) (lower : l ≤ m + 1) (upper : m ≤ r) (bound : r < labs.length)
    (below : ∀ i lab, labs[i]? = some lab → i ≤ m → lab.start ≤ v)
    (above : ∀ i lab, labs[i]? = some lab → m < i → v < lab.start) :
    findlabLoop labs v fuel l r = m + 1 := by
  induction fuel generalizing l r with
  | zero => simp only [findlabLoop]; omega
  | succ fuel ih =>
    rw [findlabLoop]
    split
    · dsimp only
      have inside : (r + l) / 2 < labs.length := by omega
      rw [List.getElem?_eq_getElem inside]
      dsimp only
      split
      · rename_i first
        have left : (r + l) / 2 ≤ m := by
          by_contra past
          have := above _ _ (List.getElem?_eq_getElem inside) (by omega)
          omega
        exact ih (by omega) (by omega) upper bound
      · rename_i first
        have right : m < (r + l) / 2 := by
          by_contra past
          exact first (below _ _ (List.getElem?_eq_getElem inside) (by omega))
        exact ih (by omega) lower (by omega) (by omega)
    · omega

/-- On sorted labels `findlab` returns the index of the label that holds `v`. -/
theorem findlab_eq {labs : List Lab} {v : Int} {m : Nat} {lab : Lab}
    (sorted : labs.Pairwise (fun a b => a.stop < b.start)) (proper : ∀ l ∈ labs, l.start ≤ l.stop)
    (atM : labs[m]? = some lab) (lower : lab.start ≤ v) (upper : v ≤ lab.stop) :
    findlab labs v = some m := by
  obtain ⟨inside, value⟩ := List.getElem?_eq_some_iff.mp atM
  have order := List.pairwise_iff_getElem.mp sorted
  unfold findlab
  split
  · simp only [Option.some.injEq]
    omega
  · dsimp only
    rw [findlabLoop_eq (m := m) (by omega) (by omega) (by omega) (by omega)]
    · simp only [Nat.add_sub_cancel, atM, lower, upper, and_self, if_true]
    · intro i l atI before
      obtain ⟨bound, rfl⟩ := List.getElem?_eq_some_iff.mp atI
      rcases Nat.lt_or_eq_of_le before with less | same
      · have step := order i m bound inside less
        have := proper labs[i] (List.getElem_mem bound)
        rw [value] at step
        omega
      · subst same
        rw [value]
        exact lower
    · intro i l atI after
      obtain ⟨bound, rfl⟩ := List.getElem?_eq_some_iff.mp atI
      have step := order m i inside bound after
      rw [value] at step
      omega

namespace IntCase
variable (c : IntCase)

theorem owner_of_covers {a : Arm} {v : Int} (member : a ∈ c.arms) (covers : a.Covers v) :
    c.owner v = some a.inst := by
  unfold owner
  cases found : c.arms.find? (fun a => decide (a.Covers v)) with
  | none => exact absurd covers (by simpa using List.find?_eq_none.mp found a member)
  | some b =>
    have other := List.find?_some found
    have same := c.disjoint b (List.mem_of_find?_eq_some found) a member v (of_decide_eq_true other) covers
    simp only [Option.map_some, same]

theorem exists_of_owner {v : Int} {i : Nat} (owned : c.owner v = some i) :
    ∃ a ∈ c.arms, a.Covers v ∧ a.inst = i := by
  obtain ⟨a, found, value⟩ := Option.map_eq_some_iff.mp owned
  have covers := List.find?_some found
  exact ⟨a, List.mem_of_find?_eq_some found, of_decide_eq_true covers, value⟩

/-- A list of table entries that is fit for the arms: sorted, each entry within
one arm or in none, and every covered value in some entry. -/
structure Entries (labs : List (Int × Int)) : Prop where
  sorted : labs.Pairwise (fun a b => a.2 < b.1)
  proper : ∀ l ∈ labs, l.1 ≤ l.2
  uniform : ∀ l ∈ labs, ∀ v, l.1 ≤ v → v ≤ l.2 → c.owner v = c.owner l.1
  complete : ∀ v i, c.owner v = some i → ∃ l ∈ labs, l.1 ≤ v ∧ v ≤ l.2

theorem entries_labs : c.Entries c.labs where
  sorted := c.sorted
  proper := fun l member => (c.ranges l member).2.1
  uniform := by
    intro l member v lower upper
    obtain ⟨a, inArms, covers⟩ := c.covered l member
    rw [c.owner_of_covers inArms (covers v lower upper),
      c.owner_of_covers inArms (covers l.1 le_rfl (lower.trans upper))]
  complete := by
    intro v i owned
    obtain ⟨a, inArms, ⟨q, inQuals, b, bounds, lower, upper⟩, _⟩ := c.exists_of_owner owned
    obtain ⟨_, l, member, first, last⟩ := c.within a inArms q inQuals b.1 b.2 bounds
    exact ⟨l, member, by omega, by omega⟩

theorem Entries.eq_of_common {c : IntCase} {labs : List (Int × Int)} (entries : c.Entries labs)
    {k l : Int × Int} {v : Int} (inK : k ∈ labs) (inL : l ∈ labs) (first : k.1 ≤ v ∧ v ≤ k.2)
    (second : l.1 ≤ v ∧ v ≤ l.2) : k = l := by
  obtain ⟨i, boundI, rfl⟩ := List.mem_iff_getElem.mp inK
  obtain ⟨j, boundJ, rfl⟩ := List.mem_iff_getElem.mp inL
  have order := List.pairwise_iff_getElem.mp entries.sorted
  rcases Nat.lt_trichotomy i j with less | same | more
  · have := order i j boundI boundJ less
    omega
  · subst same
    rfl
  · have := order j i boundJ boundI more
    omega

/-- The labels part way through the arms: those in `claimed` hold their arm. -/
def claim (claimed : Int × Int → Prop) [DecidablePred claimed] (l : Int × Int) : Lab :=
  ⟨l.1, l.2, if claimed l then c.owner l.1 else none⟩

variable {c} {labs : List (Int × Int)} {claimed : Int × Int → Prop} [DecidablePred claimed]

/-- Setting the label that holds `v` claims exactly that label. -/
theorem Entries.setInst (entries : c.Entries labs) (claimed : Int × Int → Prop)
    [DecidablePred claimed] {a : Arm} {v : Int} (member : a ∈ c.arms)
    (covers : a.Covers v) :
    ∃ m, findlab (labs.map (c.claim claimed)) v = some m ∧
      Limbo.setInst (labs.map (c.claim claimed)) m a.inst =
        labs.map (c.claim (fun l => claimed l ∨ l.1 ≤ v ∧ v ≤ l.2)) := by
  have owned := c.owner_of_covers member covers
  obtain ⟨l, inLabs, lower, upper⟩ := entries.complete v a.inst owned
  obtain ⟨m, inside, rfl⟩ := List.mem_iff_getElem.mp inLabs
  have atM : (labs.map (c.claim claimed))[m]? = some (c.claim claimed labs[m]) := by
    rw [List.getElem?_map, List.getElem?_eq_getElem inside, Option.map_some]
  refine ⟨m, findlab_eq ?_ ?_ atM lower upper, ?_⟩
  · exact List.pairwise_map.mpr entries.sorted
  · intro lab isLab
    obtain ⟨l, inL, rfl⟩ := List.mem_map.mp isLab
    exact entries.proper l inL
  · apply List.ext_getElem
    · simp [Limbo.setInst]
    · intro i left right
      have bound : i < labs.length := by simpa using right
      simp only [Limbo.setInst, List.getElem_modify, List.getElem_map]
      by_cases same : m = i
      · subst same
        rw [if_pos rfl]
        simp only [claim, lower, upper, and_self, or_true, if_true]
        rw [← entries.uniform _ inLabs v lower upper, owned]
      · rw [if_neg same]
        have apart : ¬(labs[i].1 ≤ v ∧ v ≤ labs[i].2) := by
          intro other
          have order := List.pairwise_iff_getElem.mp entries.sorted
          rcases Nat.lt_or_gt_of_ne same with less | more
          · have := order m i inside bound less
            omega
          · have := order i m bound inside more
            omega
        simp only [claim, apart, or_false]

/-- The entries of a searched table that a qualifier claims hold its first
value; those of a goto table are all entries it covers. -/
def Claims (igoto : Bool) (q : Qual) (l : Int × Int) : Prop :=
  ∃ b ∈ q.bounds, if igoto then b.1 ≤ l.1 ∧ l.1 ≤ b.2 else l.1 ≤ b.1 ∧ b.1 ≤ l.2

instance (igoto : Bool) (q : Qual) : DecidablePred (Claims igoto q) := fun l =>
  inferInstanceAs (Decidable (∃ b ∈ q.bounds, if igoto then b.1 ≤ l.1 ∧ l.1 ≤ b.2 else l.1 ≤ b.1 ∧ b.1 ≤ l.2))

theorem claim_congr (labs : List (Int × Int)) {p q : Int × Int → Prop} [DecidablePred p] [DecidablePred q]
    (same : ∀ l ∈ labs, p l ↔ q l) : labs.map (c.claim p) = labs.map (c.claim q) :=
  List.map_congr_left (fun l member => by simp only [claim, same l member])

/-- One qualifier of a searched table. -/
theorem Entries.setQual_searched (entries : c.Entries labs) {a : Arm} {q : Qual}
    (member : a ∈ c.arms) (inQuals : q ∈ a.quals) :
    setQual false a.inst (labs.map (c.claim claimed)) q =
      some (labs.map (c.claim (fun l => claimed l ∨ Claims false q l))) := by
  cases q with
  | const v =>
    obtain ⟨m, found, set⟩ := entries.setInst claimed member
      (v := v) ⟨_, inQuals, (v, v), rfl, le_rfl, le_rfl⟩
    simp only [setQual, found, Option.map_some, set]
    congr 1
    exact claim_congr _ (fun l _ => by simp [Claims, Qual.bounds])
  | range left right =>
    have proper := (c.within a member _ inQuals left right rfl).1
    obtain ⟨m, found, set⟩ := entries.setInst claimed member
      (v := left) ⟨_, inQuals, (left, right), rfl, le_rfl, proper⟩
    simp only [setQual, found, Option.bind_eq_bind, Option.bind_some, set]
    simp only [Bool.false_eq_true, if_false]
    congr 1
    exact claim_congr _ (fun l _ => by simp [Claims, Qual.bounds])
  | wild =>
    simp only [setQual]
    congr 1
    exact claim_congr _ (fun l _ => by simp [Claims, Qual.bounds])

/-- A whole list of qualifiers, each taken from its own arm. -/
theorem setQuals_eq {igoto : Bool} {a : Arm} {quals : List Qual}
    (step : ∀ q ∈ quals, ∀ (claimed : Int × Int → Prop) [DecidablePred claimed],
      setQual igoto a.inst (labs.map (c.claim claimed)) q =
        some (labs.map (c.claim (fun l => claimed l ∨ Claims igoto q l)))) :
    quals.foldlM (setQual igoto a.inst) (labs.map (c.claim claimed)) =
      some (labs.map (c.claim (fun l => claimed l ∨ ∃ q ∈ quals, Claims igoto q l))) := by
  induction quals generalizing claimed with
  | nil =>
    rw [List.foldlM_nil]
    exact congrArg some (claim_congr _ (fun l _ => by simp))
  | cons q rest ih =>
    rw [List.foldlM_cons, step q (List.mem_cons_self ..), Option.bind_eq_bind, Option.bind_some,
      ih (fun r inRest => step r (List.mem_cons_of_mem _ inRest))]
    exact congrArg some (claim_congr _ (fun l _ => by simp [or_assoc]))

theorem setArms_eq {igoto : Bool} {arms : List Arm}
    (step : ∀ a ∈ arms, ∀ q ∈ a.quals, ∀ (claimed : Int × Int → Prop) [DecidablePred claimed],
      setQual igoto a.inst (labs.map (c.claim claimed)) q =
        some (labs.map (c.claim (fun l => claimed l ∨ Claims igoto q l)))) :
    setArms igoto (labs.map (c.claim claimed)) arms =
      some (labs.map (c.claim (fun l => claimed l ∨ ∃ a ∈ arms, ∃ q ∈ a.quals, Claims igoto q l))) := by
  induction arms generalizing claimed with
  | nil =>
    rw [setArms, List.foldlM_nil]
    exact congrArg some (claim_congr _ (fun l _ => by simp))
  | cons a rest ih =>
    rw [setArms, List.foldlM_cons, setQuals_eq (step a (List.mem_cons_self ..)), Option.bind_eq_bind,
      Option.bind_some, ← setArms, ih (fun b inRest => step b (List.mem_cons_of_mem _ inRest))]
    exact congrArg some (claim_congr _ (fun l _ => by simp [or_assoc]))

/-- After all arms every entry of a searched table holds its arm. -/
theorem setArms_searched (c : IntCase) :
    setArms false (c.labs.map (fun l => ⟨l.1, l.2, none⟩)) c.arms =
      some (c.labs.map (fun l => ⟨l.1, l.2, c.owner l.1⟩)) := by
  have start : c.labs.map (fun l => (⟨l.1, l.2, none⟩ : Lab)) = c.labs.map (c.claim (fun _ => False)) :=
    List.map_congr_left (fun l _ => by simp [claim])
  rw [start, setArms_eq (fun a inArms q inQuals claimed _ => c.entries_labs.setQual_searched inArms inQuals)]
  congr 1
  apply List.map_congr_left
  intro l member
  obtain ⟨a, inArms, covers⟩ := c.covered l member
  obtain ⟨q, inQuals, b, bounds, lower, upper⟩ := covers l.1 le_rfl (c.entries_labs.proper l member)
  -- the qualifier that covers the first value of a label starts at that value
  obtain ⟨proper, k, inK, first, last⟩ := c.within a inArms q inQuals b.1 b.2 bounds
  have same : k = l := c.entries_labs.eq_of_common (v := l.1) inK member (by omega)
    ⟨le_rfl, c.entries_labs.proper l member⟩
  subst same
  have claims : Claims false q k := ⟨b, bounds, by simp only [Bool.false_eq_true, if_false]; omega⟩
  simp only [claim, false_or]
  rw [if_pos ⟨a, inArms, q, inQuals, claims⟩]

end IntCase
end Inferno.Limbo
