import Inferno.Limbo.CaseDispatch

namespace Inferno.Limbo
open Inferno.Dis

namespace IntCase

/-- The goto table over `n` values from `a` on, as `casecom` leaves it. -/
def gotoTable (c : IntCase) (indirect : Bool) (a : Int) (n : Nat) : CaseCode :=
  ⟨true, gotoCode indirect a (a + n - 1) c.wild,
    (singles a n).map (fun l => ⟨l.1, l.2, some (c.target l.1)⟩), c.wild⟩

variable {c : IntCase} {mem : Mem} {off : Nat}

theorem casecom_searched (indirect : Bool) (sparse : ¬Dense c.labs) :
    casecom indirect c = some c.searched := by
  simp only [casecom, c.dogoto_searched sparse, Option.bind_eq_bind, Option.bind_some, setArms_searched]
  rfl

theorem Goto.casecom {a : Int} {n : Nat} (goto : c.Goto a n) (indirect : Bool)
    (short : ∀ arm ∈ c.arms, ∀ left right, Qual.range left right ∈ arm.quals → right ≠ intMax) :
    Limbo.casecom indirect c = some (c.gotoTable indirect a n) := by
  have filled := goto.setArms short
  have size := goto.size
  have head : ((singles a n).map (fun l => (⟨l.1, l.2, none⟩ : Lab))).head? = some ⟨a, a, none⟩ := by
    rw [List.head?_eq_getElem?, List.getElem?_map, List.getElem?_eq_getElem (by simp; omega),
      getElem_singles]
    simp
  have last : ((singles a n).map (fun l => (⟨l.1, l.2, none⟩ : Lab))).getLast? =
      some ⟨a + n - 1, a + n - 1, none⟩ := by
    rw [List.getLast?_eq_getElem?, List.getElem?_map, List.getElem?_eq_getElem (by simp; omega),
      getElem_singles]
    simp only [List.length_map, length_singles, Option.map_some, Option.some.injEq, Lab.mk.injEq, and_true]
    omega
  simp only [Limbo.casecom, goto.run, Option.bind_eq_bind, Option.bind_some, filled, head, last, gotoTable,
    List.map_map]
  refine congrArg some ?_
  congr 1
  refine List.map_congr_left (fun l _ => ?_)
  simp only [Function.comp_apply, target]
  cases c.owner l.1 <;> simp

/-- The selector less the first value, as the branches see it. -/
theorem exec_gotoCode {indirect : Bool} {first last v tmpc : Int} {wild : Nat}
    (lower : -2 ^ 31 ≤ v) (upper : v < 2 ^ 31) (low : -2 ^ 31 ≤ first) (high : first < 2 ^ 31) :
    exec mem off (gotoCode indirect first last wild) ⟨v, tmpc⟩ =
      if s32 (v - first) < 0 ∨ w32 (last - first) < s32 (v - first) then some (wild : Int)
      else some (mem (off + iby2wd + s32 (v - first) * iby2wd).toNat) := by
  have difference : (v - first).bmod (2 ^ 64) = v - first := Int.bmod_eq_of_le (by omega) (by omega)
  have zero : w32 0 = 0 := by decide
  by_cases start : first = 0
  · subst start
    simp only [gotoCode, exec, Regs.get, ne_eq, not_true_eq_false, if_false, List.nil_append, zero,
      Int.sub_zero, igoto]
    rw [ite_or]
    rfl
  · cases indirect <;>
    · simp only [gotoCode, exec, Regs.get, ne_eq, start, not_false_eq_true, if_true, if_false,
        List.cons_append, List.nil_append, difference, zero, igoto, Bool.false_eq_true]
      rw [ite_or]
      rfl

theorem gotoTable_word (c : IntCase) (mem : Mem) (off : Nat) (indirect : Bool) (a : Int) {n i : Nat} (bound : i < n) :
    loadData mem (disdatumCase off (c.gotoTable indirect a n)) (off + iby2wd + i * iby2wd) =
      c.target (a + i) := by
  have inside : i < (singles a n).length := by rwa [length_singles]
  have atI : (c.gotoTable indirect a n).labs[i]? = some ⟨a + i, a + i, some (c.target (a + i))⟩ := by
    simp only [gotoTable, List.getElem?_map, List.getElem?_eq_getElem inside, Option.map_some, getElem_singles]
  have word := loadData_gotoEntries (loadDatum mem (disint off
      (((c.gotoTable indirect a n).labs.length * iby2wd + iby2wd + iby2wd) / iby2wd - 1 : Nat)))
    c.wild (off + iby2wd) atI
  simp only [Option.getD_some] at word
  rw [s32_pc (c.target_lt _)] at word
  rw [← word]
  rfl

theorem Goto.exec {a : Int} {n : Nat} (goto : c.Goto a n) {indirect : Bool} {v tmpc : Int}
    (lower : -2 ^ 31 ≤ v) (upper : v < 2 ^ 31) :
    Limbo.exec (loadData mem (disdatumCase off (c.gotoTable indirect a n))) off
      (c.gotoTable indirect a n).code ⟨v, tmpc⟩ = some (c.target v : Int) := by
  have size := goto.size
  have low := goto.lower
  have high := goto.upper
  have small := goto.small
  rw [show (c.gotoTable indirect a n).code = gotoCode indirect a (a + n - 1) c.wild from rfl,
    exec_gotoCode lower upper low (by lia), w32_of_range (by lia) (by lia)]
  by_cases inside : a ≤ v ∧ v < a + n
  · have index : s32 (v - a) = v - a := s32_of_range (by lia) (by unfold intMax; lia)
    rw [index, if_neg (by lia)]
    have word := gotoTable_word c mem off indirect a (n := n) (i := (v - a).toNat) (by lia)
    rw [show a + ((v - a).toNat : Int) = v by lia] at word
    rw [← word]
    congr 2
    simp only [iby2wd]
    lia
  · -- outside the table the wrapped difference fails one of the two bounds
    have wrapped : s32 (v - a) < 0 ∨ a + n - 1 - a < s32 (v - a) := by
      simp only [s32, Int.bmod_def]
      split <;> lia
    rw [if_pos wrapped, c.target_of_no_entry]
    intro l member within
    have := goto.inside l member
    lia

/-- The statements whose dispatch is right. Either no label ends at the
largest int; or the table is dense with one label for each value and the
largest int is not written as a range; or the table is searched and the arm of
the largest int is the wildcard arm. -/
def DispatchOk (c : IntCase) : Prop :=
  (∀ l ∈ c.labs, l.2 ≠ intMax) ∨
    if Dense c.labs then
      span c.labs = c.labs.length ∧
        ∀ arm ∈ c.arms, ∀ left right, Qual.range left right ∈ arm.quals → right ≠ intMax
    else c.target intMax = c.wild

/-- Whichever scheme `casecom` picks, it sends every selector where it must
go, unless a label ends at the largest int: there `stop+1` wraps in the
searched table, and the loops that fill a goto table do not end. -/
theorem case_dispatches_iff (indirect : Bool) (c : IntCase) (off : Nat) (mem : Mem) :
    CaseDispatches indirect c off mem ↔ c.DispatchOk := by
  by_cases dense : Dense c.labs
  · by_cases fine : span c.labs = c.labs.length ∨ ∀ l ∈ c.labs, l.2 ≠ intMax
    · obtain ⟨a, n, goto⟩ := c.dogoto_dense dense fine
      by_cases short : ∀ arm ∈ c.arms, ∀ left right, Qual.range left right ∈ arm.quals → right ≠ intMax
      · refine iff_of_true ⟨_, goto.casecom indirect short, fun v tmpc lower upper => goto.exec lower upper⟩ ?_
        rw [DispatchOk, if_pos dense]
        exact fine.symm.imp_right (fun full => ⟨full, short⟩)
      · refine iff_of_false ?_ ?_
        · rintro ⟨code, compiled, _⟩
          push Not at short
          obtain ⟨arm, inArms, left, right, inQuals, rfl⟩ := short
          simp only [casecom, goto.run, Option.bind_eq_bind, Option.bind_some,
            setArms_intMax inArms inQuals, Option.bind_none, reduceCtorEq] at compiled
        · rw [DispatchOk, if_pos dense]
          rintro (below | ⟨_, allShort⟩)
          · apply short
            intro arm inArms left right inQuals isMax
            obtain ⟨_, l, member, _, last⟩ := c.within arm inArms _ inQuals left right rfl
            have := (c.ranges l member).2.2
            exact below l member (by unfold intMax at *; omega)
          · exact short allShort
    · push Not at fine
      refine iff_of_false ?_ ?_
      · rintro ⟨code, compiled, _⟩
        simp only [casecom, c.dogoto_intMax dense fine.1 fine.2, Option.bind_eq_bind, Option.bind_none,
          reduceCtorEq] at compiled
      · rw [DispatchOk, if_pos dense]
        rintro (below | ⟨full, _⟩)
        · obtain ⟨l, member, last⟩ := fine.2
          exact below l member last
        · exact fine.1 full
  · have compiled := casecom_searched (c := c) indirect dense
    have run (v tmpc : Int) : Limbo.exec (loadData mem (disdatumCase off c.searched)) off
        c.searched.code ⟨v, tmpc⟩ = some (icase (loadData mem (disdatumCase off c.searched)) off v) := rfl
    rw [DispatchOk, if_neg dense]
    constructor
    · rintro ⟨code, isCode, dispatches⟩
      obtain rfl := Option.some.inj (compiled.symm.trans isCode)
      by_cases below : ∀ l ∈ c.labs, l.2 ≠ intMax
      · exact Or.inl below
      · right
        push Not at below
        obtain ⟨l, member, last⟩ := below
        have reached := dispatches intMax 0 (by decide) (by decide)
        rw [run, icase_miss (by decide) (by decide)] at reached
        · exact_mod_cast (Option.some.inj reached).symm
        · intro k inK first within
          have := (c.ranges k inK).2.2
          unfold intMax at *
          omega
    · intro fine
      refine ⟨_, compiled, fun v tmpc lower upper => ?_⟩
      rw [run]
      by_cases hit : ∃ l ∈ c.labs, l.1 ≤ v ∧ v ≤ l.2
      · obtain ⟨l, member, first, last⟩ := hit
        by_cases short : l.2 = intMax
        · have toWild := fine.resolve_left (fun below => below l member short)
          rw [icase_miss lower upper (fun k inK low high => by
            rw [c.entries_labs.eq_of_common inK member ⟨low, high⟩ ⟨first, last⟩, short])]
          have proper := (c.ranges l member).2.1
          rw [c.target_of_entry member first last, ← toWild,
            c.target_of_entry member (show l.1 ≤ intMax by omega) (by omega)]
        · rw [icase_hit member first last short]
      · push Not at hit
        rw [icase_miss lower upper (fun l member low high => absurd high (by have := hit l member low; omega)),
          c.target_of_no_entry (fun l member inside => by have := hit l member inside.1; omega)]

theorem lastRange_disjoint {arms : List Arm}
    (same : arms = [⟨[.const 1], 10⟩, ⟨[.range 500 intMax], 20⟩, ⟨[.wild], 30⟩]) :
    ∀ a ∈ arms, ∀ b ∈ arms, ∀ v, a.Covers v → b.Covers v → a.inst = b.inst := by
  intro a inA b inB v coversA coversB
  simp only [same, List.mem_cons, List.not_mem_nil, or_false] at inA inB
  rcases inA with rfl | rfl | rfl <;> rcases inB with rfl | rfl | rfl <;>
    simp [Arm.Covers, Qual.Covers, Qual.bounds] at coversA coversB ⊢ <;> lia

/-- `case i { 1 => ...; 500 to 16r7fffffff => ...; * => ... }`. -/
def lastRange : IntCase where
  arms := [⟨[.const 1], 10⟩, ⟨[.range 500 intMax], 20⟩, ⟨[.wild], 30⟩]
  labs := [(1, 1), (500, intMax)]
  endpc := 40
  sorted := by simp
  ranges := by simp [intMax]
  within := by
    intro a inArms q inQuals lo hi bounds
    simp only [List.mem_cons, List.not_mem_nil, or_false] at inArms
    rcases inArms with rfl | rfl | rfl <;> obtain rfl := List.mem_singleton.mp inQuals <;>
      simp only [Qual.bounds, Option.some.injEq, Prod.mk.injEq, reduceCtorEq] at bounds <;>
      simp [← bounds.1, ← bounds.2, intMax]
  covered := by
    intro l member
    simp only [List.mem_cons, List.not_mem_nil, or_false] at member
    rcases member with rfl | rfl
    · exact ⟨⟨[.const 1], 10⟩, by simp,
        fun v lower upper => ⟨_, List.mem_cons_self .., (1, 1), rfl, lower, upper⟩⟩
    · exact ⟨⟨[.range 500 intMax], 20⟩, by simp,
        fun v lower upper => ⟨_, List.mem_cons_self .., (500, intMax), rfl, lower, upper⟩⟩
  disjoint := lastRange_disjoint rfl
  pcs := by simp
  endpc_lt := by decide
  count := by decide

/-- The largest int, which the second arm covers, is sent to the wildcard. -/
theorem lastRange_misdirected :
    lastRange.target intMax = 20 ∧ (casecom false lastRange).bind (fun code =>
      Limbo.exec (loadData (fun _ => 0) (disdatumCase 0 code)) 0 code.code ⟨intMax, 0⟩) = some 30 := by
  decide

end IntCase
end Inferno.Limbo
