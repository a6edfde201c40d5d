import Inferno.Limbo.CaseGoto

namespace Inferno.Limbo
open Inferno.Dis

namespace IntCase
variable (c : IntCase)

theorem le_last {last l : Int × Int} (atLast : c.labs.getLast? = some last) (member : l ∈ c.labs) :
    l.2 ≤ last.2 := by
  obtain ⟨i, bound, rfl⟩ := List.mem_iff_getElem.mp member
  rw [List.getLast?_eq_getElem?] at atLast
  obtain ⟨lastBound, rfl⟩ := List.getElem?_eq_some_iff.mp atLast
  rcases Nat.lt_or_eq_of_le (show i ≤ c.labs.length - 1 by omega) with less | same
  · have order := List.pairwise_iff_getElem.mp c.sorted i _ bound lastBound less
    have := (c.ranges _ (List.getElem_mem lastBound)).2.1
    omega
  · subst same
    exact le_rfl

theorem first_le {first l : Int × Int} (atFirst : c.labs.head? = some first) (member : l ∈ c.labs) :
    first.1 ≤ l.1 := by
  obtain ⟨i, bound, rfl⟩ := List.mem_iff_getElem.mp member
  rw [List.head?_eq_getElem?] at atFirst
  obtain ⟨firstBound, rfl⟩ := List.getElem?_eq_some_iff.mp atFirst
  rcases Nat.eq_zero_or_pos i with zero | positive
  · subst zero
    exact le_rfl
  · have order := List.pairwise_iff_getElem.mp c.sorted 0 i firstBound bound positive
    have := (c.ranges _ (List.getElem_mem firstBound)).2.1
    omega

/-- A span that passes `dogoto`'s test did not wrap. -/
theorem span_eq {first last : Int × Int} (atFirst : c.labs.head? = some first)
    (atLast : c.labs.getLast? = some last) (dense : Dense c.labs) :
    span c.labs = last.2 - first.1 + 1 := by
  have low := c.ranges first (List.mem_of_head? atFirst)
  have high := c.ranges last (List.mem_of_getLast? atLast)
  have order := c.le_last atLast (List.mem_of_head? atFirst)
  have wide := dense.1
  simp only [span, atFirst, atLast, s32, Int.bmod_def] at wide ⊢
  split at wide <;> rename_i half
  · rw [if_pos half]; omega
  · omega

/-- As many labels as values: every label is one value, with no gaps. -/
theorem labs_eq_singles {first last : Int × Int} (atFirst : c.labs.head? = some first)
    (atLast : c.labs.getLast? = some last) (full : last.2 - first.1 + 1 = c.labs.length) :
    c.labs = singles first.1 c.labs.length := by
  have order := List.pairwise_iff_getElem.mp c.sorted
  have lower (i : Nat) (bound : i < c.labs.length) : first.1 + i ≤ c.labs[i].1 := by
    induction i with
    | zero => simpa using c.first_le atFirst (List.getElem_mem bound)
    | succ i ih =>
      have previous := ih (by omega)
      have step := order i (i + 1) (by omega) bound (by omega)
      have := (c.ranges _ (List.getElem_mem (show i < c.labs.length by omega))).2.1
      push_cast
      omega
  have upper (i : Nat) (bound : i < c.labs.length) : c.labs[c.labs.length - 1 - i].2 + i ≤ last.2 := by
    induction i with
    | zero => simpa using c.le_last atLast (List.getElem_mem _)
    | succ i ih =>
      have previous := ih (by omega)
      have step := order (c.labs.length - 1 - (i + 1)) (c.labs.length - 1 - i) (by omega) (by omega) (by omega)
      have := (c.ranges _ (List.getElem_mem (show c.labs.length - 1 - i < c.labs.length by omega))).2.1
      push_cast
      omega
  apply List.ext_getElem (by simp)
  intro i bound _
  rw [getElem_singles]
  have low := lower i bound
  have high := upper (c.labs.length - 1 - i) (by omega)
  have proper := (c.ranges _ (List.getElem_mem bound)).2.1
  simp only [show c.labs.length - 1 - (c.labs.length - 1 - i) = i by omega] at high
  exact Prod.ext (by simp only; omega) (by simp only; omega)

/-- The table `dogoto` leaves when it succeeds: one entry for each value from
the first label to the last. -/
structure Goto (a : Int) (n : Nat) : Prop where
  run : dogoto c.labs = some (true, (singles a n).map (fun l => ⟨l.1, l.2, none⟩))
  size : 3 ≤ n
  small : n < 2 ^ 31
  lower : -2 ^ 31 ≤ a
  upper : a + n ≤ 2 ^ 31
  inside : ∀ l ∈ c.labs, a ≤ l.1 ∧ l.2 < a + n

theorem dogoto_dense (dense : Dense c.labs)
    (fine : span c.labs = c.labs.length ∨ ∀ l ∈ c.labs, l.2 ≠ intMax) : ∃ a n, c.Goto a n := by
  obtain ⟨first, rest, shape⟩ : ∃ first rest, c.labs = first :: rest := by
    cases shape : c.labs with
    | nil => simp [Dense, span, shape] at dense
    | cons first rest => exact ⟨first, rest, rfl⟩
  have atFirst : c.labs.head? = some first := by rw [shape]; rfl
  obtain ⟨last, atLast⟩ := Option.isSome_iff_exists.mp
    (List.getLast?_isSome.mpr (show c.labs ≠ [] by rw [shape]; exact List.cons_ne_nil _ _))
  have wide := c.span_eq atFirst atLast dense
  have low := c.ranges first (List.mem_of_head? atFirst)
  have high := c.ranges last (List.mem_of_getLast? atLast)
  have three := dense.1
  have most := dense.2
  have count := c.count
  refine ⟨first.1, (span c.labs).toNat, ?_, by omega, by omega, low.1, by omega, fun l member =>
    ⟨c.first_le atFirst member, by have := c.le_last atLast member; omega⟩⟩
  have unfolded : dogoto c.labs = if span c.labs = c.labs.length then
      some (true, c.labs.map (fun l => ⟨l.1, l.2, none⟩))
    else (expansion c.labs first.1 (span c.labs)).map (fun labs => (true, labs)) := by
    rw [shape] at dense ⊢
    simp only [dogoto, if_pos dense]
  rw [unfolded]
  split
  · rename_i full
    rw [show (span c.labs).toNat = c.labs.length by omega, ← c.labs_eq_singles atFirst atLast (by omega)]
  · rename_i gaps
    have below := fine.resolve_left gaps
    have start : s32 (s32 (first.1 - 1) + 1) = first.1 := by
      have := low.2.2
      have := low.2.1
      have := low.1
      simp only [s32, Int.bmod_def]
      split <;> split <;> omega
    have ends : (c.labs.getLast?.map Prod.snd).getD (first.1 - 1) = last.2 := by rw [atLast]; rfl
    have run := expandLabs_eq (span c.labs).toNat c.sorted
      (fun l member => ⟨(c.ranges l member).1, (c.ranges l member).2.1, by
        have := (c.ranges l member).2.2
        have := below l member
        unfold intMax at *
        omega⟩) start (fun l member => c.first_le atFirst member) (by rw [ends]; omega)
    rw [ends, show (last.2 + 1 - first.1).toNat = (span c.labs).toNat by omega, Nat.sub_self] at run
    simp only [expansion, run, Option.map_some, List.map_map]
    refine congrArg some (Prod.ext rfl (List.map_congr_left (fun l member => ?_)))
    have := mem_singles.mp member
    simp only [Function.comp_apply, this.1]

theorem dogoto_intMax (dense : Dense c.labs) (gaps : span c.labs ≠ c.labs.length)
    (ends : ∃ l ∈ c.labs, l.2 = intMax) : dogoto c.labs = none := by
  cases shape : c.labs with
  | nil => simp [shape] at ends
  | cons first rest =>
    rw [shape] at dense gaps ends
    simp only [dogoto]
    rw [if_pos dense, if_neg gaps, expansion, expandLabs_intMax ends]
    rfl

theorem dogoto_searched (sparse : ¬Dense c.labs) :
    dogoto c.labs = some (false, c.labs.map (fun l => ⟨l.1, l.2, none⟩)) := by
  cases shape : c.labs with
  | nil => rfl
  | cons first rest =>
    rw [shape] at sparse
    simp only [dogoto]
    rw [if_neg sparse]

variable {c}

theorem Goto.entries {a : Int} {n : Nat} (goto : c.Goto a n) : c.Entries (singles a n) where
  sorted := singles_sorted a n
  proper := fun l member => (mem_singles.mp member).1.le
  uniform := by
    intro l member v lower upper
    have := mem_singles.mp member
    rw [show v = l.1 by omega]
  complete := by
    intro v i owned
    obtain ⟨l, member, lower, upper⟩ := c.entries_labs.complete v i owned
    have := goto.inside l member
    exact ⟨(v, v), mem_singles.mpr ⟨rfl, by simp only; omega, by simp only; omega⟩, le_rfl, le_rfl⟩

/-- One qualifier of a goto table. -/
theorem Goto.setQual {a : Int} {n : Nat} (goto : c.Goto a n) {claimed : Int × Int → Prop}
    [DecidablePred claimed] {arm : Arm} {q : Qual} (member : arm ∈ c.arms) (inQuals : q ∈ arm.quals)
    (short : ∀ left right, q = .range left right → right ≠ intMax) :
    Limbo.setQual true arm.inst ((singles a n).map (c.claim claimed)) q =
      some ((singles a n).map (c.claim (fun l => claimed l ∨ Claims true q l))) := by
  cases q with
  | const v =>
    obtain ⟨m, found, set⟩ := goto.entries.setInst claimed member
      (v := v) ⟨_, inQuals, (v, v), rfl, le_rfl, le_rfl⟩
    simp only [Limbo.setQual, found, Option.map_some, set]
    refine congrArg some (claim_congr _ (fun l inL => or_congr_right ?_))
    have := mem_singles.mp inL
    simp only [Claims, Qual.bounds, Option.mem_def, Option.some.injEq, if_true, exists_eq_left']
    omega
  | range left right =>
    obtain ⟨proper, l, inL, first, last⟩ := c.within arm member _ inQuals left right rfl
    have covers (v : Int) (low : left ≤ v) (high : v ≤ right) : c.owner v = some arm.inst :=
      c.owner_of_covers member ⟨_, inQuals, (left, right), rfl, low, high⟩
    obtain ⟨m, found, set⟩ := goto.entries.setInst claimed member
      (v := left) ⟨_, inQuals, (left, right), rfl, le_rfl, proper⟩
    have range := c.ranges l inL
    have below := short left right rfl
    have hull := goto.inside l inL
    have lower := goto.lower
    simp only [Limbo.setQual, found, Option.bind_eq_bind, Option.bind_some, set, if_true]
    rw [fillrange_eq (by omega) proper (by omega) lower (by unfold intMax at *; omega) covers]
    refine congrArg some (claim_congr _ (fun k inK => ?_))
    have := mem_singles.mp inK
    simp only [Claims, Qual.bounds, Option.mem_def, Option.some.injEq, if_true, exists_eq_left', or_assoc]
    exact or_congr_right (by omega)
  | wild =>
    simp only [Limbo.setQual]
    exact congrArg some (claim_congr _ (fun l _ => by simp [Claims, Qual.bounds]))

theorem Goto.setArms {a : Int} {n : Nat} (goto : c.Goto a n)
    (short : ∀ arm ∈ c.arms, ∀ left right, Qual.range left right ∈ arm.quals → right ≠ intMax) :
    Limbo.setArms true ((singles a n).map (fun l => ⟨l.1, l.2, none⟩)) c.arms =
      some ((singles a n).map (fun l => ⟨l.1, l.2, c.owner l.1⟩)) := by
  have start : (singles a n).map (fun l => (⟨l.1, l.2, none⟩ : Lab)) =
      (singles a n).map (c.claim (fun _ => False)) := List.map_congr_left (fun l _ => by simp [claim])
  rw [start, setArms_eq (fun arm inArms q inQuals claimed _ => goto.setQual inArms inQuals
    (fun left right same => short arm inArms left right (same ▸ inQuals)))]
  refine congrArg some (List.map_congr_left (fun l member => ?_))
  simp only [claim, false_or]
  cases owned : c.owner l.1 with
  | none => simp
  | some i =>
    obtain ⟨arm, inArms, ⟨q, inQuals, b, bounds, lower, upper⟩, _⟩ := c.exists_of_owner owned
    rw [if_pos ⟨arm, inArms, q, inQuals, b, bounds, by simp only [if_true]; exact ⟨lower, upper⟩⟩]

theorem setArms_intMax {labs : List Lab} {arm : Arm} {left : Int} (member : arm ∈ c.arms)
    (inQuals : Qual.range left intMax ∈ arm.quals) : Limbo.setArms true labs c.arms = none := by
  have proper := (c.within arm member _ inQuals left intMax rfl).1
  refine foldlM_none member (fun labs => foldlM_none inQuals (fun labs => ?_) labs) labs
  simp only [Limbo.setQual]
  cases findlab labs left with
  | none => rfl
  | some m => simp only [Option.bind_eq_bind, Option.bind_some, if_true, fillrange_intMax proper]

end IntCase

theorem caseEntries_off {w : Nat} {off : Nat} {labs : List Lab} {d : Datum}
    (member : d ∈ caseEntries w off labs) : off ≤ d.off := by
  induction labs generalizing off with
  | nil =>
    rw [caseEntries, List.mem_singleton] at member
    subst member
    exact le_rfl
  | cons lab rest ih =>
    simp only [caseEntries, List.mem_cons] at member
    rcases member with rfl | rfl | rfl | later
    · exact le_rfl
    · simp only [disint, Datum.off]; omega
    · simp only [disint, Datum.off]; omega
    · have := ih later
      omega

theorem gotoEntries_off {w : Nat} {off : Nat} {labs : List Lab} {d : Datum}
    (member : d ∈ gotoEntries w off labs) : off ≤ d.off := by
  induction labs generalizing off with
  | nil =>
    rw [gotoEntries, List.mem_singleton] at member
    subst member
    exact le_rfl
  | cons lab rest ih =>
    simp only [gotoEntries, List.mem_cons] at member
    rcases member with rfl | later
    · exact le_rfl
    · have := ih later
      omega

/-- The words of entry `i` of a searched table, as loaded. -/
theorem loadData_caseEntries (mem : Mem) (w off : Nat) {i : Nat} {labs : List Lab} {lab : Lab}
    (atI : labs[i]? = some lab) :
    loadData mem (caseEntries w off labs) (off + i * 3 * iby2wd) = s32 lab.start ∧
      loadData mem (caseEntries w off labs) (off + i * 3 * iby2wd + iby2wd) = s32 (lab.stop + 1) ∧
      loadData mem (caseEntries w off labs) (off + i * 3 * iby2wd + 2 * iby2wd) = s32 (lab.inst.getD 0) := by
  induction labs generalizing mem off i with
  | nil => simp at atI
  | cons l rest ih =>
    simp only [loadData, caseEntries, List.foldl_cons, loadDatum_disint]
    cases i with
    | zero =>
      simp only [List.getElem?_cons_zero, Option.some.injEq] at atI
      subst atI
      have kept (a : Nat) (before : a < off + iby2wd + iby2wd + iby2wd) (m : Mem) :
          List.foldl loadDatum m (caseEntries w (off + iby2wd + iby2wd + iby2wd) rest) a = m a :=
        loadData_of_forall_ne _ (fun d member => by have := caseEntries_off member; omega)
      simp only [iby2wd] at kept ⊢
      rw [kept _ (by omega), kept _ (by omega), kept _ (by omega)]
      simp [Function.update_apply, s32]
      intro same
      omega
    | succ i =>
      have tail := ih (Function.update (Function.update (Function.update mem off (l.start.bmod (2 ^ 32)))
        (off + iby2wd) ((l.stop + 1).bmod (2 ^ 32))) (off + iby2wd + iby2wd)
        ((l.inst.getD 0 : Int).bmod (2 ^ 32))) (off + iby2wd + iby2wd + iby2wd) (by simpa using atI)
      have shift : off + iby2wd + iby2wd + iby2wd + i * 3 * iby2wd = off + (i + 1) * 3 * iby2wd := by
        simp only [iby2wd]; omega
      rw [shift] at tail
      exact tail

theorem loadData_caseEntries_wild (mem : Mem) (w off : Nat) (labs : List Lab) :
    loadData mem (caseEntries w off labs) (off + labs.length * 3 * iby2wd) = s32 w := by
  induction labs generalizing mem off with
  | nil => simp [loadData, caseEntries, loadDatum_disint, s32]
  | cons l rest ih =>
    simp only [loadData, caseEntries, List.foldl_cons]
    have tail := ih (loadDatum (loadDatum (loadDatum mem (disint off l.start))
      (disint (off + iby2wd) (l.stop + 1))) (disint (off + iby2wd + iby2wd) (l.inst.getD 0)))
      (off + iby2wd + iby2wd + iby2wd)
    have shift : off + iby2wd + iby2wd + iby2wd + rest.length * 3 * iby2wd =
        off + (l :: rest).length * 3 * iby2wd := by
      simp only [iby2wd, List.length_cons]; omega
    rw [shift] at tail
    exact tail

/-- The word of entry `i` of a goto table, as loaded. -/
theorem loadData_gotoEntries (mem : Mem) (w off : Nat) {i : Nat} {labs : List Lab} {lab : Lab}
    (atI : labs[i]? = some lab) :
    loadData mem (gotoEntries w off labs) (off + i * iby2wd) = s32 (lab.inst.getD 0) := by
  induction labs generalizing mem off i with
  | nil => simp at atI
  | cons l rest ih =>
    simp only [loadData, gotoEntries, List.foldl_cons, loadDatum_disint]
    cases i with
    | zero =>
      simp only [List.getElem?_cons_zero, Option.some.injEq] at atI
      subst atI
      have kept := loadData_of_forall_ne (gotoEntries w (off + iby2wd) rest)
        (m := Function.update mem off ((l.inst.getD 0 : Int).bmod (2 ^ 32))) (a := off)
        (fun d member => by have := gotoEntries_off member; simp only [iby2wd] at this; omega)
      simp only [Nat.zero_mul, Nat.add_zero]
      rw [loadData] at kept
      rw [kept, Function.update_self]
      rfl
    | succ i =>
      have tail := ih (Function.update mem off ((l.inst.getD 0 : Int).bmod (2 ^ 32)))
        (off + iby2wd) (by simpa using atI)
      have shift : off + iby2wd + i * iby2wd = off + (i + 1) * iby2wd := by
        simp only [iby2wd]; omega
      rw [shift] at tail
      exact tail

theorem loadData_cons_disint {mem : Mem} {off : Nat} {v : Int} {items : List Datum}
    (after : ∀ d ∈ items, off < d.off) : loadData mem (disint off v :: items) off = s32 v := by
  rw [loadData, List.foldl_cons, ← loadData, loadData_of_forall_ne _ (fun d member => (after d member).ne),
    loadDatum_disint, Function.update_self]
  rfl

namespace IntCase
variable (c : IntCase)

/-- Arm and wildcard pcs survive the 32-bit words of the table. -/
theorem s32_pc {n : Nat} (small : n < 2 ^ 31) : s32 n = n :=
  s32_of_range (by omega) (by unfold intMax; omega)

theorem wild_lt : c.wild < 2 ^ 31 := by
  unfold wild
  split
  · rename_i a found
    exact c.pcs a (List.mem_reverse.mp (List.mem_of_find?_eq_some found))
  · exact c.endpc_lt

theorem target_lt (v : Int) : c.target v < 2 ^ 31 := by
  unfold target
  cases owned : c.owner v with
  | none => exact c.wild_lt
  | some i =>
    obtain ⟨a, member, _, rfl⟩ := c.exists_of_owner owned
    exact c.pcs a member

theorem target_of_entry {l : Int × Int} {v : Int} (member : l ∈ c.labs) (lower : l.1 ≤ v)
    (upper : v ≤ l.2) : c.target v = (c.owner l.1).getD 0 := by
  obtain ⟨a, inArms, covers⟩ := c.covered l member
  rw [target, c.owner_of_covers inArms (covers v lower upper),
    c.owner_of_covers inArms (covers l.1 le_rfl (lower.trans upper))]
  rfl

theorem target_of_no_entry {v : Int} (apart : ∀ l ∈ c.labs, ¬(l.1 ≤ v ∧ v ≤ l.2)) :
    c.target v = c.wild := by
  cases owned : c.owner v with
  | none => rw [target, owned]; rfl
  | some i =>
    obtain ⟨l, member, inside⟩ := c.entries_labs.complete v i owned
    exact absurd inside (apart l member)

/-- The labels that start at or below a value come first. -/
theorem exists_split (v : Int) : ∃ k ≤ c.labs.length,
    (∀ i (bound : i < c.labs.length), i < k → c.labs[i].1 ≤ v) ∧
      ∀ i (bound : i < c.labs.length), k ≤ i → v < c.labs[i].1 := by
  have order := List.pairwise_iff_getElem.mp c.sorted
  suffices split : ∀ m ≤ c.labs.length, ∃ k ≤ m,
      (∀ i (bound : i < c.labs.length), i < k → c.labs[i].1 ≤ v) ∧
        ∀ i (bound : i < c.labs.length), k ≤ i → i < m → v < c.labs[i].1 by
    obtain ⟨k, upper, below, above⟩ := split _ le_rfl
    exact ⟨k, upper, below, fun i bound low => above i bound low bound⟩
  intro m
  induction m with
  | zero => exact fun _ => ⟨0, le_rfl, fun i _ low => by omega, fun i _ _ high => by omega⟩
  | succ m ih =>
    intro inside
    by_cases starts : c.labs[m].1 ≤ v
    · refine ⟨m + 1, le_rfl, fun i bound low => ?_, fun i _ low high => by omega⟩
      rcases Nat.lt_or_eq_of_le (Nat.le_of_lt_succ low) with less | same
      · have := order i m bound inside less
        have := (c.ranges _ (List.getElem_mem bound)).2.1
        omega
      · subst same
        exact starts
    · obtain ⟨k, upper, below, above⟩ := ih (by omega)
      refine ⟨k, by omega, below, fun i bound low high => ?_⟩
      rcases Nat.lt_or_eq_of_le (Nat.le_of_lt_succ high) with less | same
      · exact above i bound low less
      · subst same
        omega

/-- The searched table, as `casecom` leaves it. -/
def searched : CaseCode :=
  ⟨false, [.case .left], c.labs.map (fun l => ⟨l.1, l.2, c.owner l.1⟩), c.wild⟩

variable {c} {mem : Mem} {off : Nat}

theorem icase_searched {v : Int} (lower : -2 ^ 31 ≤ v) (upper : v < 2 ^ 31) :
    icase (loadData mem (disdatumCase off c.searched)) off v =
      icaseSearch (loadData mem (disdatumCase off c.searched)) v c.labs.length (off + iby2wd)
        c.labs.length c.wild := by
  have count : loadData mem (disdatumCase off c.searched) off = c.labs.length := by
    have small := c.count
    simp only [searched, disdatumCase, Bool.false_eq_true, if_false, List.length_map]
    rw [loadData_cons_disint (fun d member => by
      have := caseEntries_off member
      simp only [iby2wd] at this
      omega), s32_pc (by omega)]
  have wild : loadData mem (disdatumCase off c.searched) (off + iby2wd + c.labs.length * 3 * iby2wd) = c.wild := by
    have entry := loadData_caseEntries_wild (loadDatum mem (disint off c.labs.length)) c.wild
      (off + iby2wd) c.searched.labs
    simp only [searched, disdatumCase, Bool.false_eq_true, if_false, List.length_map] at entry ⊢
    rw [loadData, List.foldl_cons, ← loadData, entry, s32_pc c.wild_lt]
  rw [icase, w32_of_range lower upper, Nat.add_sub_cancel, count, Int.toNat_natCast, wild]

theorem searched_words (c : IntCase) (mem : Mem) (off : Nat) {i : Nat} (bound : i < c.labs.length) :
    loadData mem (disdatumCase off c.searched) (off + iby2wd + i * 3 * iby2wd) = c.labs[i].1 ∧
      loadData mem (disdatumCase off c.searched) (off + iby2wd + i * 3 * iby2wd + iby2wd) =
        s32 (c.labs[i].2 + 1) ∧
      loadData mem (disdatumCase off c.searched) (off + iby2wd + i * 3 * iby2wd + 2 * iby2wd) =
        c.target c.labs[i].1 := by
  have member := List.getElem_mem bound
  have range := c.ranges _ member
  have atI : c.searched.labs[i]? = some ⟨c.labs[i].1, c.labs[i].2, c.owner c.labs[i].1⟩ := by
    simp only [searched, List.getElem?_map, List.getElem?_eq_getElem bound, Option.map_some]
  have words := loadData_caseEntries (loadDatum mem (disint off c.labs.length)) c.wild (off + iby2wd) atI
  rw [s32_of_range range.1 (by unfold intMax; omega), ← c.target_of_entry member le_rfl range.2.1,
    s32_pc (c.target_lt _)] at words
  simpa only [searched, disdatumCase, Bool.false_eq_true, if_false, List.length_map, loadData,
    List.foldl_cons] using words

theorem w32_s32 (v : Int) : w32 (s32 v) = s32 v :=
  w32_of_range (le_s32 v) (by have := s32_le_intMax v; unfold intMax at this; omega)

/-- Selectors in no label, and those in a label that ends at the largest int,
leave the search at the wildcard. -/
theorem icase_miss {v : Int} (lower : -2 ^ 31 ≤ v) (upper : v < 2 ^ 31)
    (away : ∀ l ∈ c.labs, l.1 ≤ v → v ≤ l.2 → l.2 = intMax) :
    icase (loadData mem (disdatumCase off c.searched)) off v = c.wild := by
  obtain ⟨k, inside, below, above⟩ := c.exists_split v
  rw [icase_searched lower upper]
  refine icaseSearch_miss le_rfl inside (fun i low => ?_) (fun i low high => ?_)
  · have bound : i < c.labs.length := by omega
    have range := c.ranges _ (List.getElem_mem bound)
    obtain ⟨start, stop, _⟩ := searched_words c mem off bound
    have passed := below i bound low
    rw [start, stop, w32_s32, w32_of_range range.1 (by omega)]
    refine ⟨passed, ?_⟩
    by_cases last : c.labs[i].2 = intMax
    · rw [last, show s32 (intMax + 1) = -2 ^ 31 by decide]
      exact lower
    · have outside : ¬v ≤ c.labs[i].2 := fun within => last (away _ (List.getElem_mem bound) passed within)
      rw [s32_of_range (by omega) (by unfold intMax at *; omega)]
      omega
  · obtain ⟨start, _, _⟩ := searched_words c mem off high
    have range := c.ranges _ (List.getElem_mem high)
    rw [start, w32_of_range range.1 (by omega)]
    exact above i high low

/-- Every other selector reaches the arm of its label. -/
theorem icase_hit {v : Int} {l : Int × Int} (member : l ∈ c.labs) (first : l.1 ≤ v) (last : v ≤ l.2)
    (short : l.2 ≠ intMax) :
    icase (loadData mem (disdatumCase off c.searched)) off v = c.target v := by
  obtain ⟨k, inside, rfl⟩ := List.mem_iff_getElem.mp member
  have range := c.ranges _ member
  have order := List.pairwise_iff_getElem.mp c.sorted
  obtain ⟨start, stop, pc⟩ := searched_words c mem off inside
  have top : s32 (c.labs[k].2 + 1) = c.labs[k].2 + 1 :=
    s32_of_range (by omega) (by unfold intMax at *; omega)
  rw [icase_searched (by omega) (by omega), icaseSearch_hit (k := k) le_rfl inside]
  · rw [pc, c.target_of_entry member first last, c.target_of_entry member le_rfl range.2.1]
  · intro i low
    have bound : i < c.labs.length := by omega
    have other := c.ranges _ (List.getElem_mem bound)
    have before := order i k bound inside low
    obtain ⟨startI, stopI, _⟩ := searched_words c mem off bound
    rw [startI, stopI, w32_s32, w32_of_range other.1 (by omega),
      s32_of_range (by omega) (by unfold intMax; omega)]
    omega
  · rw [start, w32_of_range range.1 (by omega)]
    exact first
  · rw [stop, w32_s32, top]
    omega
  · intro i low high
    have other := c.ranges _ (List.getElem_mem high)
    have after := order k i inside high low
    obtain ⟨startI, _, _⟩ := searched_words c mem off high
    rw [startI, w32_of_range other.1 (by omega)]
    omega

end IntCase
end Inferno.Limbo
