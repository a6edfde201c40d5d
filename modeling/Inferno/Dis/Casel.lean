import Inferno.Dis.Operand

namespace Inferno.Dis

/-- A case label as `disdatum` sees it: an inclusive range and the pc of the
instruction that starts its arm. -/
structure Label where
  start : Int
  stop : Int
  inst : Nat

/-- `Case` of `limbo.h`: the sorted labels and the wildcard instruction. -/
structure Case where
  labs : List Label
  iwild : Option Nat

/-- The pc written for the wildcard, -1 when there is none. -/
def Case.wildpc (c : Case) : Int :=
  match c.iwild with
  | some w => w
  | none => -1

/-- Where a selector must go: the arm whose inclusive range contains it, or
the wildcard. -/
def Case.target (c : Case) (v : Int) : Int :=
  match c.labs.find? (fun l => decide (l.start ≤ v ∧ v ≤ l.stop)) with
  | some l => l.inst
  | none => c.wildpc

/-- What the compiler hands to `disdatum` for a `case` on a big: disjoint
sorted 64-bit ranges, and arms that all start after the case instruction. -/
structure BigCase extends Case where
  sorted : labs.Pairwise (fun a b => a.stop < b.start)
  ranges : ∀ l ∈ labs, -2 ^ 63 ≤ l.start ∧ l.start ≤ l.stop ∧ l.stop < 2 ^ 63
  pcs : ∀ l ∈ labs, 0 < l.inst ∧ l.inst < 2 ^ 31
  wild : ∃ w, iwild = some w ∧ 0 < w ∧ w < 2 ^ 31
  count : labs.length < 2 ^ 31

/-- `sizetype` for `Tcasel`. -/
def caselSize (nlab : Nat) : Nat := nlab * 6 * iby2wd + 3 * iby2wd

/-- The entries `disdatum` writes for `Tcasel`, followed by the wildcard. -/
def caselEntries (wildpc : Int) : Nat → List Label → List Datum
  | off, [] => [disint off wildpc]
  | off, lab :: rest =>
    disbig off lab.start :: disbig (off + iby2lg) (lab.stop + 1) ::
      disint (off + iby2lg + iby2lg) lab.inst ::
      caselEntries wildpc (off + iby2lg + iby2lg + 2 * iby2wd) rest

/-- `disdatum` for `Tcasel`. -/
def disdatumCasel (off : Nat) (c : Case) : List Datum :=
  disint off c.labs.length :: caselEntries c.wildpc (off + 2 * iby2wd) c.labs

/-- The search loop of the VM instruction. Pointers are byte addresses, so
`l[4]` is `l + 4 * iby2wd` and `((LONG*)l)[1]` is `l + iby2lg`. The loop halves
`n`, so `n` rounds are enough. -/
def caselSearch (mem : Mem) (v : Int) : Nat → Nat → Nat → Int → Int
  | 0, _, _, d => d
  | fuel + 1, t, n, d =>
    if n = 0 then d
    else
      let n2 := n / 2
      let l := t + n2 * 6 * iby2wd
      if v < mem l then caselSearch mem v fuel t n2 d
      else if mem (l + iby2lg) ≤ v then caselSearch mem v fuel (l + 6 * iby2wd) (n - (n2 + 1)) d
      else mem (l + 4 * iby2wd)

/-- `casel`: the index in `R.M->prog` of the next instruction. -/
def casel (mem : Mem) (d : Nat) (v : Int) : Int :=
  let t := d + 2 * iby2wd
  let n := (mem (t - 2 * iby2wd)).toNat
  caselSearch mem v n t n (mem (t + n * 6 * iby2wd))

/-- The instruction sends every 64-bit selector where it must go, for the
table that `disdatum` lays out at `off` in the module data `mem`. -/
def CaselDispatches (c : BigCase) (off : Nat) (mem : Mem) : Prop :=
  ∀ v, -2 ^ 63 ≤ v → v < 2 ^ 63 →
    casel (loadData mem (disdatumCasel off c.toCase)) off v = c.target v

theorem caselEntries_off {w : Int} {off : Nat} {labs : List Label} {d : Datum}
    (member : d ∈ caselEntries w off labs) : off ≤ d.off ∧ d.off ≤ off + labs.length * 32 := by
  induction labs generalizing off with
  | nil =>
    rw [caselEntries, List.mem_singleton] at member
    subst member
    exact ⟨le_rfl, by simp [disint, Datum.off]⟩
  | cons lab rest ih =>
    simp only [caselEntries, List.mem_cons, iby2wd, iby2lg] at member
    simp only [List.length_cons]
    rcases member with rfl | rfl | rfl | later
    · simp only [disbig, Datum.off]; omega
    · simp only [disbig, Datum.off]; omega
    · simp only [disint, Datum.off]; omega
    · have bound := ih later
      omega

/-- Every word that Limbo writes is at most the largest long. -/
theorem loadData_caselEntries_lt (mem : Mem) (w : Int) (off : Nat) (labs : List Label) {a : Nat}
    (old : mem a < 2 ^ 63) : loadData mem (caselEntries w off labs) a < 2 ^ 63 := by
  have small (x : Int) : x.bmod (2 ^ 32) < 2 ^ 63 := by
    have := Int.bmod_lt (x := x) (m := 2 ^ 32) (by decide)
    omega
  have large (x : Int) : x.bmod (2 ^ 64) < 2 ^ 63 := by
    have := Int.bmod_lt (x := x) (m := 2 ^ 64) (by decide)
    omega
  induction labs generalizing off mem with
  | nil =>
    simp only [loadData, caselEntries, List.foldl_cons, List.foldl_nil, loadDatum_disint,
      Function.update_apply]
    split
    · exact small w
    · exact old
  | cons lab rest ih =>
    simp only [loadData, caselEntries, List.foldl_cons, loadDatum_disint, loadDatum_disbig]
    apply ih
    simp only [Function.update_apply]
    split
    · exact small _
    · split
      · exact large _
      · split
        · exact large _
        · exact old

/-- The largest selector never stops at an entry: it always moves right, and
the search ends with the word that was read as the wildcard. -/
theorem caselSearch_max {mem : Mem} {v d : Int} {fuel t n first limit : Nat}
    (above : ∀ a, first ≤ a → a < limit → mem a ≤ v) (lower : first ≤ t)
    (room : t + n * 6 * iby2wd ≤ limit) : caselSearch mem v fuel t n d = d := by
  induction fuel generalizing t n with
  | zero => rfl
  | succ fuel ih =>
    rw [caselSearch]
    split
    · rfl
    · rename_i positive
      have half : n / 2 < n := Nat.div_lt_self (by omega) (by decide)
      simp only [iby2wd] at room
      have low : mem (t + n / 2 * 6 * iby2wd) ≤ v := above _ (by omega) (by simp only [iby2wd]; omega)
      have high : mem (t + n / 2 * 6 * iby2wd + iby2lg) ≤ v :=
        above _ (by omega) (by simp only [iby2wd, iby2lg]; omega)
      rw [if_neg (not_lt.mpr low), if_pos high]
      exact ih (by omega) (by simp only [iby2wd]; omega)

theorem BigCase.target_pos (c : BigCase) (v : Int) : 0 < c.target v := by
  unfold Case.target
  split
  · rename_i l found
    have member := List.mem_of_find?_eq_some found
    exact_mod_cast (c.pcs l member).1
  · obtain ⟨w, set, positive, _⟩ := c.wild
    simp only [Case.wildpc, set]
    exact_mod_cast positive

theorem loadData_disdatumCasel_count (c : BigCase) (off : Nat) (mem : Mem) :
    loadData mem (disdatumCasel off c.toCase) off = c.labs.length := by
  rw [disdatumCasel, loadData, List.foldl_cons, ← loadData, loadData_of_forall_ne]
  · rw [loadDatum_disint, Function.update_self]
    have count := c.count
    exact Int.bmod_eq_of_le (by omega) (by omega)
  · intro d member
    have bound := caselEntries_off member
    simp only [iby2wd] at bound
    omega

/-- The VM strides over the table in units of six words, `disdatum` in units
of two longs and two words. With 8-byte words these differ, so the table is
read correctly exactly when it has no labels at all. -/
theorem casel_dispatches_iff_no_labels (c : BigCase) (off : Nat) (mem : Mem)
    (fresh : ∀ a, off ≤ a → a < off + caselSize c.labs.length → mem a = 0) :
    CaselDispatches c off mem ↔ c.labs = [] := by
  have count := loadData_disdatumCasel_count c off mem
  constructor
  · intro dispatches
    by_contra labelled
    have positive : 0 < c.labs.length := List.length_pos_iff.mpr labelled
    have reached := dispatches (2 ^ 63 - 1) (by norm_num) (by norm_num)
    have bounded (a : Nat) (lower : off + 2 * iby2wd ≤ a)
        (upper : a < off + caselSize c.labs.length) :
        loadData mem (disdatumCasel off c.toCase) a ≤ 2 ^ 63 - 1 := by
      have word := loadData_caselEntries_lt (loadDatum mem (disint off c.labs.length)) c.wildpc
        (off + 2 * iby2wd) c.labs (a := a) (by
          rw [loadDatum_of_ne _ _ (by simp only [disint, Datum.off, iby2wd] at *; omega),
            fresh a (by omega) upper]
          norm_num)
      rw [disdatumCasel, loadData, List.foldl_cons, ← loadData]
      omega
    rw [casel, Nat.add_sub_cancel, count, Int.toNat_natCast,
      caselSearch_max bounded le_rfl (by simp only [caselSize, iby2wd]; omega)] at reached
    -- the word the VM takes for the wildcard lies past everything disdatum wrote
    rw [loadData_of_forall_ne, fresh] at reached
    · have pos := c.target_pos (2 ^ 63 - 1)
      omega
    · omega
    · simp only [caselSize, iby2wd]; omega
    · intro d member
      simp only [disdatumCasel, List.mem_cons] at member
      rcases member with rfl | later
      · simp only [disint, Datum.off, iby2wd]; omega
      · have bound := caselEntries_off later
        simp only [iby2wd] at bound ⊢
        omega
  · intro empty v _ _
    rw [casel, Nat.add_sub_cancel, count]
    simp only [empty, List.length_nil, Int.toNat_natCast, caselSearch, Case.target, List.find?_nil]
    simp only [disdatumCasel, empty, caselEntries, loadData, List.foldl_cons, List.foldl_nil,
      loadDatum_disint, Nat.zero_mul, Nat.add_zero, Function.update_self]
    obtain ⟨w, set, _, small⟩ := c.wild
    simp only [Case.wildpc, set]
    exact Int.bmod_eq_of_le (by omega) (by omega)

/-- A `case` with no labelled arm: everything goes to pc 9. -/
def wildOnly : BigCase where
  labs := []
  iwild := some 9
  sorted := .nil
  ranges := by simp
  pcs := by simp
  wild := ⟨9, rfl, by decide, by decide⟩
  count := by decide

theorem casel_dispatches_wildOnly : CaselDispatches wildOnly 0 (fun _ => 0) :=
  (casel_dispatches_iff_no_labels wildOnly 0 (fun _ => 0) (fun _ _ _ => rfl)).mpr rfl

/-- `case b { big 1 => ... (pc 5); * => ... (pc 9) }`. -/
def oneLabel : BigCase where
  labs := [⟨1, 1, 5⟩]
  iwild := some 9
  sorted := by simp
  ranges := by simp
  pcs := by simp
  wild := ⟨9, rfl, by decide, by decide⟩
  count := by decide

/-- The selector 1 is sent to the wildcard arm: `l[4]` is the word that
`disdatum` used for the wildcard. -/
theorem casel_oneLabel_misses :
    oneLabel.target 1 = 5 ∧
      casel (loadData (fun _ => 0) (disdatumCasel 0 oneLabel.toCase)) 0 1 = 9 := by
  decide

end Inferno.Dis
