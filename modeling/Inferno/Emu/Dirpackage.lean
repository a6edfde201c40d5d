import Inferno.Lib9.Stat

namespace Inferno.Emu.Dirpackage

open Lib Lib9 Styx Strings

/-- `GBIT16` at `p` of the bytes `r`; `none` where it reads a byte that is not among them. -/
def gbit16 (r : List UInt8) (p : Nat) : Option Nat :=
  if p + bit16sz ≤ r.length then some (leNat ((r.drop p).take bit16sz)) else none

/-- The loop of `statcheck` up to `ebuf`: where it ends, or `none` within for `return -1`. -/
def checkStrings (r : List UInt8) (ebuf : Nat) : Nat → Nat → Option (Option Nat)
  | 0, p => some (some p)
  | i + 1, p => do
    if p + bit16sz > ebuf then return none
    checkStrings r ebuf i (p + bit16sz + (← gbit16 r p))

/-- `statcheck(&buf[i], m)`, where the bytes `r` are left from `i` on. -/
def statcheck (r : List UInt8) (m : Nat) : Option Int := do
  if m < statfixlen then return -1
  if m ≠ bit16sz + (← gbit16 r 0) then return -1
  match ← checkStrings r m 4 (statfixlen - 4 * bit16sz) with
  | none => return -1
  | some p => return if p ≠ m then -1 else 0

def bytesAt (r : List UInt8) : ByteMem := fun i => r.getD i 0

/-- `*d` as `malloc` clears it. -/
def cleared : Dir := ⟨0, 0, ⟨0, 0, 0⟩, 0, 0, 0, 0, none, none, none, none⟩

/-- `convM2D(&buf[i], m, *d + nn, s)`, for which the `m` bytes are to be there. -/
def convM2D (r : List UInt8) (m : Nat) : Option (Nat × Dir) :=
  if m ≤ r.length then Lib9.convM2D (bytesAt r) m cleared true else none

/-- The first loop of `dirpackage`: `i` and `n` at its end. -/
def count (t : List UInt8) : Nat → Nat → Nat → Option (Nat × Nat)
  | 0, i, n => some (i, n)
  | fuel + 1, i, n =>
    if i < t.length then do
      let m := bit16sz + (← gbit16 (t.drop i) 0)
      let ok ← statcheck (t.drop i) m
      if ok < 0 then some (i, n) else count t fuel (i + m) (n + 1)
    else some (i, n)

inductive Error where
  | badFormat
  | badEntry
  | nomem

/-- The second loop of `dirpackage`, with the entries stored so far. -/
def convert (t : List UInt8) (n : Nat) : Nat → Nat → List Dir → Option (Except Error (List Dir))
  | 0, _, ds => some (.ok ds)
  | fuel + 1, i, ds =>
    if i < t.length then do
      let m := bit16sz + (← gbit16 (t.drop i) 0)
      if ds.length ≥ n then some (.error .badEntry)
      else do
        let r ← convM2D (t.drop i) m
        if r.1 ≠ m then some (.error .badEntry) else convert t n fuel (i + m) (ds ++ [r.2])
    else some (.ok ds)

/-- `dirpackage` of the bytes `t`; `none` where it reads another byte. With `room` there is memory for the result. -/
def dirpackage (t : List UInt8) (room : Bool) : Option (Except Error (List Dir)) :=
  if t = [] then some (.ok [])
  else do
    let r ← count t t.length 0 0
    if r.1 ≠ t.length then some (.error .badFormat)
    else if !room then some (.error .nomem)
    else convert t r.2 t.length 0 []

/-- An error is raised, or the encodings of the entries are the bytes. -/
def Packed (t : List UInt8) (room : Bool) : Prop :=
  ∃ r, dirpackage t room = some r ∧ ∀ ds, r = .ok ds → ds.flatMap Dir.encoding = t

/-- Bytes that are one entry: `statcheck` accepts them. -/
def Stat (e : List UInt8) : Prop := statcheck e e.length = some 0

/-- Of `k` string counts from `p` on, those before the end `m` of the entry are among the bytes. -/
def CountsWithin (r : List UInt8) (m : Nat) : Nat → Nat → Prop
  | 0, _ => True
  | k + 1, p => p + bit16sz ≤ m → ∃ n, gbit16 r p = some n ∧ CountsWithin r m k (p + bit16sz + n)

/-- The counts of an entry are among the bytes, as far as its size says that there are any. -/
def Begun (r : List UInt8) : Prop :=
  ∃ n, gbit16 r 0 = some n ∧
    (statfixlen ≤ bit16sz + n → CountsWithin r (bit16sz + n) 4 (statfixlen - 4 * bit16sz))

/-- After entries at the start, the counts of what follows are among the bytes. -/
def Confined (t : List UInt8) : Prop :=
  ∀ (es : List (List UInt8)) (r : List UInt8), t = es.flatten ++ r → (∀ e ∈ es, Stat e) → r = [] ∨ Begun r

/-- Where the bytes are entries, no string of them holds a zero. -/
def Plain (t : List UInt8) : Prop :=
  ∀ es : List (List UInt8), t = es.flatten → (∀ e ∈ es, Stat e) →
    ∀ e ∈ es, ∃ d : Dir, e = d.bytes ∧ statfixlen + d.total < 65538 ∧ ∀ s ∈ d.sv, 0 ∉ s.getD []

variable {r t e l : List UInt8} {m p q k n i : Nat} {d : Dir}

theorem checkStrings_none : checkStrings r m k p = none ↔ ¬CountsWithin r m k p := by
  induction k generalizing p with
  | zero => simp [checkStrings, CountsWithin]
  | succ k ih =>
    by_cases room : p + bit16sz ≤ m
    · cases number : gbit16 r p with
      | none => simp [checkStrings, CountsWithin, not_lt.mpr room, room, number]
      | some n => simp [checkStrings, CountsWithin, not_lt.mpr room, room, number, ih]
    · simp [checkStrings, CountsWithin, not_le.mp room, room]

/-- What `statcheck` looks at are the counts. -/
theorem statcheck_none (number : gbit16 r 0 = some n) : statcheck r (bit16sz + n) = none ↔ ¬Begun r := by
  have begun : Begun r ↔
      (statfixlen ≤ bit16sz + n → CountsWithin r (bit16sz + n) 4 (statfixlen - 4 * bit16sz)) := by
    constructor
    · rintro ⟨n', number', counts⟩
      obtain rfl := Option.some.inj (number.symm.trans number')
      exact counts
    · exact fun counts => ⟨n, number, counts⟩
  rw [begun]
  by_cases large : statfixlen ≤ bit16sz + n
  · have none_ := checkStrings_none (r := r) (m := bit16sz + n) (k := 4) (p := statfixlen - 4 * bit16sz)
    simp only [large, true_implies, ← none_]
    unfold statcheck
    rw [if_neg (not_lt.mpr large), number]
    cases checked : checkStrings r (bit16sz + n) 4 (statfixlen - 4 * bit16sz) with
    | none => simp
    | some o => cases o <;> simp
  · simp [statcheck, not_le.mp large, large]

theorem gbit16_take (inside : p + bit16sz ≤ m) (whole : m ≤ r.length) : gbit16 (r.take m) p = gbit16 r p := by
  have within : p + bit16sz ≤ (r.take m).length := by
    rw [List.length_take]
    omega
  rw [gbit16, gbit16, if_pos within, if_pos (inside.trans whole), List.drop_take, List.take_take]
  congr 3
  omega

theorem checkStrings_take (whole : m ≤ r.length) : checkStrings (r.take m) m k p = checkStrings r m k p := by
  induction k generalizing p with
  | zero => rfl
  | succ k ih =>
    by_cases room : p + bit16sz ≤ m
    · simp only [checkStrings, gbit16_take room whole, ih]
    · simp only [checkStrings, not_le.mp room, if_true]

/-- `statcheck` of an entry that is there whole. -/
theorem statcheck_take (whole : m ≤ r.length) : statcheck (r.take m) m = statcheck r m := by
  by_cases small : m < statfixlen
  · simp only [statcheck, if_pos small]
  · have fix : statfixlen = 49 := rfl
    simp only [statcheck, if_neg small, gbit16_take (show 0 + bit16sz ≤ m by simp only [bit16sz]; omega) whole,
      checkStrings_take whole]

theorem drop_eq_leBytes (inside : p + k ≤ l.length) :
    l.drop p = leBytes k (leNat ((l.drop p).take k)) ++ l.drop (p + k) := by
  have back := leBytes_leNat ((l.drop p).take k)
  rw [List.length_take, List.length_drop, Nat.min_eq_left (by omega)] at back
  rw [back, ← List.drop_drop, List.take_append_drop]

theorem gbit16_some (number : gbit16 r p = some n) :
    p + bit16sz ≤ r.length ∧ n < 65536 ∧ r.drop p = pbit16 n ++ r.drop (p + bit16sz) := by
  unfold gbit16 at number
  split at number
  · rename_i inside
    obtain rfl := Option.some.inj number
    refine ⟨inside, ?_, drop_eq_leBytes inside⟩
    have less := leNat_lt ((r.drop p).take bit16sz)
    rw [List.length_take, List.length_drop, Nat.min_eq_left (by omega)] at less
    exact less
  · nomatch number

/-- Strings that have been checked, up to the end `q` of the last one. -/
theorem checkStrings_form (checked : checkStrings r m k p = some (some q)) (whole : q ≤ r.length) :
    p ≤ q ∧ ∃ ts : List (List UInt8), ts.length = k ∧ r.drop p = (ts.map some).flatMap pname ++ r.drop q := by
  induction k generalizing p with
  | zero =>
    obtain rfl : p = q := Option.some.inj (Option.some.inj checked)
    exact ⟨le_rfl, [], rfl, rfl⟩
  | succ k ih =>
    rw [checkStrings] at checked
    split at checked
    · nomatch checked
    · obtain ⟨n, number, rest⟩ := Option.bind_eq_some_iff.mp checked
      obtain ⟨inside, less, bytes⟩ := gbit16_some number
      obtain ⟨before, ts, length, same⟩ := ih rest
      have text : ((r.drop (p + bit16sz)).take n).length = n := by
        rw [List.length_take, List.length_drop]
        omega
      refine ⟨by omega, (r.drop (p + bit16sz)).take n :: ts, by rw [List.length_cons, length], ?_⟩
      rw [bytes, List.map_cons, List.flatMap_cons, pname, Option.getD_some, text, List.append_assoc, List.append_assoc,
        ← same, ← List.drop_drop (i := n), List.take_append_drop]

/-- Any 39 bytes are the fields of a `Dir`, whatever its strings. -/
theorem exists_fixed (length : l.length = 39) (strings : Dir) :
    ∃ d : Dir, d.fixed = l ∧ d.sv = strings.sv := by
  have part : ∀ p k, p + k ≤ 39 → leNat ((l.drop p).take k) < 256 ^ k := fun p k inside => by
    have less := leNat_lt ((l.drop p).take k)
    rwa [List.length_take, List.length_drop, Nat.min_eq_left (by omega)] at less
  refine ⟨{ strings with
    type := UInt16.ofNat (leNat ((l.drop 0).take 2))
    dev := UInt32.ofNat (leNat ((l.drop 2).take 4))
    qid := ⟨UInt64.ofNat (leNat ((l.drop 11).take 8)), UInt32.ofNat (leNat ((l.drop 7).take 4)),
      UInt8.ofNat (leNat ((l.drop 6).take 1))⟩
    mode := UInt32.ofNat (leNat ((l.drop 19).take 4))
    atime := UInt32.ofNat (leNat ((l.drop 23).take 4))
    mtime := UInt32.ofNat (leNat ((l.drop 27).take 4))
    length := (UInt64.ofNat (leNat ((l.drop 31).take 8))).toInt64 }, ?_, rfl⟩
  have type := part 0 2 (by decide)
  have dev := part 2 4 (by decide)
  have qtype := part 6 1 (by decide)
  have vers := part 7 4 (by decide)
  have path := part 11 8 (by decide)
  have mode := part 19 4 (by decide)
  have atime := part 23 4 (by decide)
  have mtime := part 27 4 (by decide)
  have size := part 31 8 (by decide)
  simp only [Dir.fixed, UInt16.toNat_ofNat_of_lt' type, UInt32.toNat_ofNat_of_lt' dev,
    UInt8.toNat_ofNat_of_lt' qtype, UInt32.toNat_ofNat_of_lt' vers, UInt64.toNat_ofNat_of_lt' path,
    UInt32.toNat_ofNat_of_lt' mode, UInt32.toNat_ofNat_of_lt' atime, UInt32.toNat_ofNat_of_lt' mtime,
    UInt64.toUInt64_toInt64, UInt64.toNat_ofNat_of_lt' size]
  have step : ∀ p k, p + k ≤ 39 → leBytes k (leNat ((l.drop p).take k)) ++ l.drop (p + k) = l.drop p :=
    fun p k inside => (drop_eq_leBytes (by omega)).symm
  have last : pbit64 (leNat ((l.drop 31).take 8)) = l.drop 31 := by
    have whole := step 31 8 (by decide)
    rwa [List.drop_eq_nil_of_le (i := 31 + 8) (by omega), List.append_nil] at whole
  rw [last]
  unfold pbit32 pbit64 pbit16 pbit8
  rw [step 27 4 (by decide), step 23 4 (by decide), step 19 4 (by decide), step 11 8 (by decide), step 7 4 (by decide),
    step 6 1 (by decide), step 2 4 (by decide), step 0 2 (by decide), List.drop_zero]

/-- An entry is the bytes of a `Dir`, whose strings may hold zeros. -/
theorem Stat.form (stat : Stat e) : ∃ d : Dir, e = d.bytes ∧ statfixlen + d.total < 65538 ∧ ∀ s ∈ d.sv, s ≠ none := by
  have fix : statfixlen = 49 := rfl
  unfold Stat statcheck at stat
  split at stat
  · nomatch stat
  rename_i enough
  obtain ⟨n, number, rest⟩ := Option.bind_eq_some_iff.mp stat
  split at rest
  · nomatch rest
  rename_i size
  obtain ⟨o, ran, ends⟩ := Option.bind_eq_some_iff.mp rest
  cases o with
  | none => nomatch ends
  | some q =>
    dsimp only at ends
    by_cases last : q = e.length
    swap
    · rw [if_pos last] at ends
      nomatch ends
    rw [last] at ran
    obtain ⟨inside, less, bytes⟩ := gbit16_some number
    obtain ⟨-, ts, length, strings⟩ := checkStrings_form ran le_rfl
    rw [List.drop_length, List.append_nil] at strings
    obtain ⟨a, b, c, f, rfl⟩ : ∃ a b c f, ts = [a, b, c, f] := by
      match ts, length with
      | [a, b, c, f], _ => exact ⟨a, b, c, f, rfl⟩
    obtain ⟨d, fixed, sv⟩ := exists_fixed (l := (e.drop 2).take 39) (by rw [List.length_take, List.length_drop]; lia)
      { cleared with name := some a, uid := some b, gid := some c, muid := some f }
    have sv' : d.sv = [a, b, c, f].map some := sv
    have split : e = pbit16 n ++ (d.fixed ++ d.sv.flatMap pname) := by
      rw [fixed, sv', ← strings]
      change e = pbit16 n ++ ((e.drop 2).take 39 ++ e.drop (2 + 39))
      rw [← List.drop_drop, List.take_append_drop]
      exact bytes
    have total : (d.sv.flatMap pname).length = 2 * 4 + d.total := length_flatMap_pname d.sv
    have whole : e.length = statfixlen + d.total := by
      rw [split, List.length_append, List.length_append, length_pbit16, length_fixed, total]
      lia
    have count : n = statfixlen + d.total - 2 := by
      simp only [bit16sz] at size
      lia
    refine ⟨d, ?_, by lia, fun s here => ?_⟩
    · rw [Dir.bytes, ← count, List.append_assoc]
      exact split
    · rw [sv'] at here
      obtain ⟨x, -, rfl⟩ := List.mem_map.mp here
      exact Option.some_ne_none x

theorem holds_bytesAt (u v w : List UInt8) : Holds (bytesAt (u ++ (v ++ w))) u.length v := by
  induction v generalizing u with
  | nil => trivial
  | cons b v ih =>
    refine ⟨?_, ?_⟩
    · simp [bytesAt]
    · have rest := ih (u ++ [b])
      rw [List.length_append, List.append_assoc] at rest
      exact rest

/-- An entry at the start of the bytes is converted. -/
theorem convM2D_stat {rest : List UInt8} (form : e = d.bytes) (small : statfixlen + d.total < 65538) :
    convM2D (e ++ rest) e.length = some (e.length, d.cut) := by
  have length : e.length = statfixlen + d.total := form ▸ length_bytes d
  have whole : e.length ≤ (e ++ rest).length := by
    rw [List.length_append]
    omega
  have holds : Holds (bytesAt (e ++ rest)) 0 d.bytes := form ▸ holds_bytesAt [] e rest
  rw [convM2D, if_pos whole, length]
  exact convM2D_of_holds small holds cleared

theorem length_cut_le (s : List UInt8) : (cut s).length ≤ s.length := (List.takeWhile_prefix _).length_le

theorem length_cut_lt {s : List UInt8} (zero : 0 ∈ s) : (cut s).length < s.length := by
  refine lt_of_le_of_ne (length_cut_le s) fun same => ?_
  have whole : cut s = s := (List.takeWhile_prefix _).eq_of_length same
  have inside : 0 ∈ cut s := by rwa [whole]
  exact absurd (List.mem_takeWhile_imp inside) (by decide)

theorem total_eq (d : Dir) : d.total =
    (d.name.getD []).length + ((d.uid.getD []).length + ((d.gid.getD []).length + (d.muid.getD []).length)) := by
  simp [Dir.total, Dir.sv]

theorem total_cut (d : Dir) : d.cut.total = (cut (d.name.getD [])).length + ((cut (d.uid.getD [])).length +
    ((cut (d.gid.getD [])).length + (cut (d.muid.getD [])).length)) := total_eq d.cut

theorem total_cut_le (d : Dir) : d.cut.total ≤ d.total := by
  have name := length_cut_le (d.name.getD [])
  have uid := length_cut_le (d.uid.getD [])
  have gid := length_cut_le (d.gid.getD [])
  have muid := length_cut_le (d.muid.getD [])
  rw [total_cut, total_eq]
  omega

theorem total_cut_lt {s : Option (List UInt8)} (member : s ∈ d.sv) (zero : 0 ∈ s.getD []) : d.cut.total < d.total := by
  have name := length_cut_le (d.name.getD [])
  have uid := length_cut_le (d.uid.getD [])
  have gid := length_cut_le (d.gid.getD [])
  have muid := length_cut_le (d.muid.getD [])
  have less := length_cut_lt zero
  have which : s = d.name ∨ s = d.uid ∨ s = d.gid ∨ s = d.muid := by simpa [Dir.sv] using member
  rw [total_cut, total_eq]
  rcases which with rfl | rfl | rfl | rfl <;> omega

theorem gbit16_append {u : List UInt8} (number : gbit16 r p = some n) : gbit16 (r ++ u) p = some n := by
  have inside := (gbit16_some number).1
  have whole := gbit16_take (r := r ++ u) inside (List.length_append ▸ Nat.le_add_right _ _)
  rw [List.take_left] at whole
  rw [← whole, number]

/-- The first entry has the size that its count says. -/
theorem Stat.size (stat : Stat e) (number : gbit16 (e ++ r) 0 = some n) : e.length = bit16sz + n := by
  unfold Stat statcheck at stat
  split at stat
  · nomatch stat
  · obtain ⟨n', own, rest⟩ := Option.bind_eq_some_iff.mp stat
    obtain rfl := Option.some.inj ((gbit16_append own).symm.trans number)
    by_contra other
    rw [if_pos other] at rest
    nomatch rest

theorem Stat.checked (stat : Stat e) (number : gbit16 (e ++ r) 0 = some n) :
    statcheck (e ++ r) (bit16sz + n) = some 0 := by
  have whole : e.length ≤ (e ++ r).length := List.length_append ▸ Nat.le_add_right _ _
  have same := statcheck_take whole
  rw [List.take_left] at same
  rw [← stat.size number, ← same]
  exact stat

theorem Stat.length_pos (stat : Stat e) : 0 < e.length := by
  unfold Stat statcheck at stat
  split at stat
  · nomatch stat
  · have fix : statfixlen = 49 := rfl
    omega

theorem statcheck_value {v : Int} (value : statcheck r m = some v) : v < 0 ∨ v = 0 := by
  unfold statcheck at value
  split at value
  · exact Or.inl (Option.some.inj value ▸ by decide)
  · obtain ⟨n, -, rest⟩ := Option.bind_eq_some_iff.mp value
    split at rest
    · exact Or.inl (Option.some.inj rest ▸ by decide)
    · obtain ⟨o, -, ends⟩ := Option.bind_eq_some_iff.mp rest
      cases o with
      | none => exact Or.inl (Option.some.inj ends ▸ by decide)
      | some p =>
        dsimp only at ends
        split at ends
        · exact Or.inl (Option.some.inj ends ▸ by decide)
        · exact Or.inr (Option.some.inj ends).symm

theorem count_step {fuel : Nat} (more : i < t.length) :
    count t (fuel + 1) i n = (gbit16 (t.drop i) 0).bind fun c => (statcheck (t.drop i) (bit16sz + c)).bind fun v =>
      if v < 0 then some (i, n) else count t fuel (i + (bit16sz + c)) (n + 1) := by
  rw [count, if_pos more]
  rfl

theorem count_past {fuel : Nat} (past : t.length ≤ i) : count t fuel i n = some (i, n) := by
  cases fuel with
  | zero => rfl
  | succ fuel => rw [count, if_neg (not_lt.mpr past)]

theorem Confined.nil : Confined [] := fun _ _ same _ =>
  Or.inl (List.append_eq_nil_iff.mp same.symm).2

theorem Confined.begun (confined : Confined r) (some_ : r ≠ []) : Begun r :=
  (confined [] r rfl fun _ here => (nomatch here)).resolve_left some_

/-- Bytes that do not begin with an entry that is there whole. -/
theorem Begun.confined (begun : Begun r) (absent : ∀ e r', Stat e → r ≠ e ++ r') : Confined r := by
  intro es r' split stats
  cases es with
  | nil => exact Or.inr ((show r = r' from split) ▸ begun)
  | cons e es =>
    rw [List.flatten_cons, List.append_assoc] at split
    exact absurd split (absent e _ (List.forall_mem_cons.mp stats).1)

/-- What follows the first entry. -/
theorem confined_append (stat : Stat e) (begun : Begun (e ++ r)) : Confined (e ++ r) ↔ Confined r := by
  have here := begun
  obtain ⟨n, number, -⟩ := begun
  constructor
  · intro confined es r' same stats
    refine confined (e :: es) r' ?_ (List.forall_mem_cons.mpr ⟨stat, stats⟩)
    rw [same, List.flatten_cons, List.append_assoc]
  · intro confined es r' same stats
    cases es with
    | nil =>
      obtain rfl : e ++ r = r' := same
      exact Or.inr here
    | cons e' es =>
      rw [List.flatten_cons, List.append_assoc] at same
      have first := (List.forall_mem_cons.mp stats).1
      have length : e.length = e'.length := (stat.size number).trans (first.size (same ▸ number)).symm
      obtain ⟨rfl, rest⟩ := List.append_inj same length
      exact confined es r' rest (List.forall_mem_cons.mp stats).2

/-- The first loop reads nothing but the bytes just where they are confined, and comes to their end only over
entries. -/
theorem count_spec {fuel : Nat} (suffix : r = t.drop i) (inside : i ≤ t.length) (enough : r.length ≤ fuel) :
    (count t fuel i n = none → ¬Confined r) ∧
      ∀ j k, count t fuel i n = some (j, k) → Confined r ∧
        (j = t.length → ∃ es : List (List UInt8), r = es.flatten ∧ (∀ e ∈ es, Stat e) ∧ k = n + es.length) := by
  induction fuel generalizing r i n with
  | zero =>
    obtain rfl : r = [] := List.length_eq_zero_iff.mp (by lia)
    refine ⟨fun none => (by cases none), fun j k same => ?_⟩
    cases same
    exact ⟨Confined.nil, fun _ => ⟨[], rfl, fun e here => (by cases here), rfl⟩⟩
  | succ fuel ih =>
    have length : r.length = t.length - i := by rw [suffix, List.length_drop]
    rcases eq_or_ne r [] with rfl | some_
    · rw [count_past (by rw [List.length_nil] at length; lia)]
      refine ⟨fun none => (by cases none), fun j k same => ?_⟩
      cases same
      exact ⟨Confined.nil, fun _ => ⟨[], rfl, fun e here => (by cases here), rfl⟩⟩
    · have pos := List.length_pos_of_ne_nil some_
      rw [count_step (by lia), ← suffix]
      cases number : gbit16 r 0 with
      | none =>
        refine ⟨fun _ confined => ?_, fun j k no => (by cases no)⟩
        obtain ⟨c, number', -⟩ := confined.begun some_
        rw [number] at number'
        cases number'
      | some c =>
        have begun := statcheck_none number
        rw [Option.bind_some]
        cases checked : statcheck r (bit16sz + c) with
        | none => exact ⟨fun _ confined => begun.mp checked (confined.begun some_), fun j k no => (by cases no)⟩
        | some v =>
          have here : Begun r := not_not.mp fun absent => by
            rw [begun.mpr absent] at checked
            cases checked
          rw [Option.bind_some]
          rcases statcheck_value checked with negative | rfl
          · rw [if_pos negative]
            refine ⟨fun no => (by cases no), fun j k same => ⟨here.confined fun e r' stat split => ?_, fun last => ?_⟩⟩
            · rw [split] at checked number
              obtain rfl := Option.some.inj ((stat.checked number).symm.trans checked)
              exact absurd negative (lt_irrefl 0)
            · cases same
              lia
          · rw [if_neg (lt_irrefl 0)]
            by_cases whole : bit16sz + c ≤ r.length
            · have split := List.take_append_drop (bit16sz + c) r
              have size : (r.take (bit16sz + c)).length = bit16sz + c := by
                rw [List.length_take]
                lia
              have stat : Stat (r.take (bit16sz + c)) := by
                rw [Stat, size, statcheck_take whole]
                exact checked
              have confined := confined_append (r := r.drop (bit16sz + c)) stat (split.symm ▸ here)
              rw [split] at confined
              have shorter : (r.drop (bit16sz + c)).length ≤ fuel := by
                rw [List.length_drop]
                simp only [bit16sz] at whole ⊢
                lia
              obtain ⟨lost, found⟩ := ih (n := n + 1) (i := i + (bit16sz + c)) (r := r.drop (bit16sz + c))
                (by rw [suffix, List.drop_drop]) (by lia) shorter
              rw [confined]
              refine ⟨lost, fun j k value => ⟨(found j k value).1, fun last => ?_⟩⟩
              obtain ⟨es, flat, stats, many⟩ := (found j k value).2 last
              refine ⟨r.take (bit16sz + c) :: es, ?_, List.forall_mem_cons.mpr ⟨stat, stats⟩, ?_⟩
              · rw [List.flatten_cons, ← flat, split]
              · rw [List.length_cons]
                lia
            · rw [count_past (by lia)]
              refine ⟨fun no => (by cases no), fun j k same => ⟨here.confined fun e r' stat split => ?_, fun last => ?_⟩⟩
              · have size := stat.size (split ▸ number)
                rw [split, List.length_append] at whole
                lia
              · cases same
                lia

theorem Stat.number (stat : Stat e) (r : List UInt8) : ∃ n, gbit16 (e ++ r) 0 = some n := by
  unfold Stat statcheck at stat
  split at stat
  · nomatch stat
  · obtain ⟨n, number, -⟩ := Option.bind_eq_some_iff.mp stat
    exact ⟨n, gbit16_append number⟩

/-- The first loop comes to the end of entries. -/
theorem count_entries {es : List (List UInt8)} {fuel : Nat} (suffix : es.flatten = t.drop i) (inside : i ≤ t.length)
    (enough : es.flatten.length ≤ fuel) (stats : ∀ e ∈ es, Stat e) :
    count t fuel i n = some (t.length, n + es.length) := by
  have left : es.flatten.length = t.length - i := by rw [suffix, List.length_drop]
  induction es generalizing i n fuel with
  | nil =>
    rw [List.flatten_nil, List.length_nil] at left
    obtain rfl : i = t.length := by lia
    exact count_past le_rfl
  | cons e es ih =>
    obtain ⟨stat, stats⟩ := List.forall_mem_cons.mp stats
    obtain ⟨c, number⟩ := stat.number es.flatten
    have size := stat.size number
    have pos := stat.length_pos
    rw [List.flatten_cons, List.length_append] at enough left
    obtain ⟨fuel, rfl⟩ := Nat.exists_eq_add_of_le' (show 1 ≤ fuel by lia)
    rw [count_step (by lia), ← suffix, List.flatten_cons, number, Option.bind_some, stat.checked number,
      Option.bind_some, if_neg (lt_irrefl 0), ← size, List.length_cons, Nat.add_comm es.length, ← Nat.add_assoc]
    refine ih ?_ (by lia) (by lia) stats (by lia)
    rw [← List.drop_drop, ← suffix, List.flatten_cons, List.drop_left]

theorem gbit16_bytes (small : statfixlen + d.total < 65538) (r : List UInt8) :
    gbit16 (d.bytes ++ r) 0 = some (statfixlen + d.total - 2) := by
  have fix : statfixlen = 49 := rfl
  have inside : 0 + bit16sz ≤ (d.bytes ++ r).length := by
    rw [List.length_append, length_bytes]
    simp only [bit16sz]
    omega
  have first : (d.bytes ++ r).take bit16sz = leBytes 2 (statfixlen + d.total - 2) := by
    rw [Dir.bytes, List.append_assoc, List.append_assoc]
    exact List.take_left' (length_leBytes 2 _)
  rw [gbit16, if_pos inside, List.drop_zero, first, leNat_leBytes, Nat.mod_eq_of_lt (by omega)]

/-- The second loop stores an entry after another. -/
theorem convert_spec {ds : List Dir} {fuel : Nat} {done : List Dir} (suffix : (ds.map Dir.bytes).flatten = t.drop i)
    (inside : i ≤ t.length) (enough : (ds.map Dir.bytes).flatten.length ≤ fuel)
    (small : ∀ d ∈ ds, statfixlen + d.total < 65538) (room : done.length + ds.length ≤ n) :
    convert t n fuel i done = some (.ok (done ++ ds.map Dir.cut)) := by
  have left : (ds.map Dir.bytes).flatten.length = t.length - i := by rw [suffix, List.length_drop]
  induction ds generalizing i fuel done with
  | nil =>
    have past : t.length ≤ i := by
      have empty : t.drop i = [] := suffix.symm
      exact List.drop_eq_nil_iff.mp empty
    rw [List.map_nil, List.append_nil]
    cases fuel with
    | zero => rfl
    | succ fuel => rw [convert, if_neg (not_lt.mpr past)]
  | cons d ds ih =>
    obtain ⟨smallD, small⟩ := List.forall_mem_cons.mp small
    have fix : statfixlen = 49 := rfl
    have length := length_bytes d
    rw [List.map_cons, List.flatten_cons] at suffix
    rw [List.map_cons, List.flatten_cons, List.length_append] at enough left
    rw [List.length_cons] at room
    obtain ⟨fuel, rfl⟩ := Nat.exists_eq_add_of_le' (show 1 ≤ fuel by lia)
    have size : bit16sz + (statfixlen + d.total - 2) = d.bytes.length := by
      simp only [bit16sz]
      lia
    have step : convert t n (fuel + 1) i done = convert t n fuel (i + d.bytes.length) (done ++ [d.cut]) := by
      rw [convert, if_pos (by lia), ← suffix, gbit16_bytes smallD]
      dsimp only [Option.bind_eq_bind, Option.bind_some]
      rw [size, if_neg (by lia), convM2D_stat rfl smallD, Option.bind_some, if_neg (fun other => other rfl)]
    have next : convert t n fuel (i + d.bytes.length) (done ++ [d.cut]) =
        some (.ok (done ++ [d.cut] ++ ds.map Dir.cut)) := by
      refine ih ?_ ?_ ?_ small ?_ ?_
      · rw [← List.drop_drop, ← suffix, List.drop_left]
      · lia
      · lia
      · rw [List.length_append, List.length_singleton]
        lia
      · lia
    rw [step, next, List.append_assoc, List.map_cons, List.singleton_append]

theorem bytes_named (d : Dir) : d.named.bytes = d.bytes := rfl

theorem encoding_cut (small : statfixlen + d.total < 65538) (plain : ∀ s ∈ d.sv, 0 ∉ s.getD []) :
    d.cut.encoding = d.bytes := by
  have less := total_cut_le d
  rw [encoding_eq (by omega), cut_of_plain plain, bytes_named]

theorem length_encoding_cut (small : statfixlen + d.total < 65538) :
    d.cut.encoding.length = statfixlen + d.cut.total := by
  have less := total_cut_le d
  rw [encoding_eq (by omega), length_bytes]

/-- Where an entry is shorter when it is encoded again, so is the whole. -/
theorem length_encodings {ds : List Dir} (small : ∀ d ∈ ds, statfixlen + d.total < 65538) :
    ((ds.map Dir.cut).flatMap Dir.encoding).length ≤ (ds.map Dir.bytes).flatten.length ∧
      (((ds.map Dir.cut).flatMap Dir.encoding).length = (ds.map Dir.bytes).flatten.length →
        ∀ d ∈ ds, ∀ s ∈ d.sv, 0 ∉ s.getD []) := by
  induction ds with
  | nil => exact ⟨le_rfl, fun _ d here => nomatch here⟩
  | cons d ds ih =>
    obtain ⟨smallD, small⟩ := List.forall_mem_cons.mp small
    obtain ⟨most, plain⟩ := ih small
    have cutLe := total_cut_le d
    rw [List.map_cons, List.flatMap_cons, List.map_cons, List.flatten_cons, List.length_append, List.length_append,
      length_bytes, length_encoding_cut smallD]
    refine ⟨by omega, fun same => List.forall_mem_cons.mpr ⟨fun s here zero => ?_, plain (by omega)⟩⟩
    have less := total_cut_lt here zero
    omega

theorem exists_dirs {es : List (List UInt8)} (stats : ∀ e ∈ es, Stat e) :
    ∃ ds : List Dir, es = ds.map Dir.bytes ∧ ∀ d ∈ ds, statfixlen + d.total < 65538 := by
  induction es with
  | nil => exact ⟨[], rfl, fun d here => nomatch here⟩
  | cons e es ih =>
    obtain ⟨stat, stats⟩ := List.forall_mem_cons.mp stats
    obtain ⟨d, form, small, -⟩ := stat.form
    obtain ⟨ds, same, smalls⟩ := ih stats
    exact ⟨d :: ds, by rw [List.map_cons, ← form, ← same], List.forall_mem_cons.mpr ⟨small, smalls⟩⟩

theorem exists_plain {es : List (List UInt8)}
    (plain : ∀ e ∈ es, ∃ d : Dir, e = d.bytes ∧ statfixlen + d.total < 65538 ∧ ∀ s ∈ d.sv, 0 ∉ s.getD []) :
    ∃ ds : List Dir, es = ds.map Dir.bytes ∧
      ∀ d ∈ ds, statfixlen + d.total < 65538 ∧ ∀ s ∈ d.sv, 0 ∉ s.getD [] := by
  induction es with
  | nil => exact ⟨[], rfl, fun d here => nomatch here⟩
  | cons e es ih =>
    obtain ⟨⟨d, form, good⟩, plain⟩ := List.forall_mem_cons.mp plain
    obtain ⟨ds, same, goods⟩ := ih plain
    exact ⟨d :: ds, by rw [List.map_cons, ← form, ← same], List.forall_mem_cons.mpr ⟨good, goods⟩⟩

theorem flatMap_encoding {ds : List Dir}
    (good : ∀ d ∈ ds, statfixlen + d.total < 65538 ∧ ∀ s ∈ d.sv, 0 ∉ s.getD []) :
    (ds.map Dir.cut).flatMap Dir.encoding = (ds.map Dir.bytes).flatten := by
  induction ds with
  | nil => rfl
  | cons d ds ih =>
    obtain ⟨⟨small, plain⟩, good⟩ := List.forall_mem_cons.mp good
    rw [List.map_cons, List.flatMap_cons, List.map_cons, List.flatten_cons, encoding_cut small plain, ih good]

/-- The entries of bytes that are entries. -/
theorem dirpackage_entries {ds : List Dir} (same : t = (ds.map Dir.bytes).flatten)
    (stats : ∀ e ∈ ds.map Dir.bytes, Stat e) (small : ∀ d ∈ ds, statfixlen + d.total < 65538) (some_ : t ≠ []) :
    dirpackage t true = some (.ok (ds.map Dir.cut)) := by
  have whole : (ds.map Dir.bytes).flatten = t.drop 0 := same.symm
  have counted := count_entries (n := 0) whole (Nat.zero_le _) (le_of_eq (congrArg List.length same.symm)) stats
  rw [dirpackage, if_neg some_, counted]
  dsimp only [Option.bind_eq_bind, Option.bind_some]
  rw [if_neg (fun other => other rfl)]
  exact convert_spec whole (Nat.zero_le _) (le_of_eq (congrArg List.length same.symm)) small (by simp)

/-- `dirpackage` reads nothing but the bytes, and gives the entries that they encode or an error, just where every count
that the size of an entry promises is among the bytes, and no string holds a zero. -/
theorem dirpackage_iff (t : List UInt8) : (∀ room, Packed t room) ↔ Confined t ∧ Plain t := by
  rcases eq_or_ne t [] with rfl | some_
  · refine ⟨fun _ => ⟨Confined.nil, fun es same stats e here => ?_⟩, fun _ room => ⟨.ok [], rfl, fun ds same => ?_⟩⟩
    · have empty : e = [] := List.flatten_eq_nil_iff.mp same.symm e here
      exact absurd (stats e here).length_pos (by rw [empty]; exact Nat.lt_irrefl 0)
    · cases same
      rfl
  · obtain ⟨lost, found⟩ := count_spec (t := t) (i := 0) (n := 0) rfl (Nat.zero_le _) le_rfl
    constructor
    · intro packed
      obtain ⟨r, run, result⟩ := packed true
      refine ⟨?_, fun es same stats e here => ?_⟩
      · rw [dirpackage, if_neg some_] at run
        obtain ⟨⟨j, k⟩, counted, -⟩ := Option.bind_eq_some_iff.mp run
        exact (found j k counted).1
      · obtain ⟨ds, rfl, small⟩ := exists_dirs stats
        obtain rfl := Option.some.inj ((dirpackage_entries same stats small some_).symm.trans run)
        have length := (length_encodings small).2 (by rw [result _ rfl, same])
        obtain ⟨d, member, rfl⟩ := List.mem_map.mp here
        exact ⟨d, rfl, small d member, length d member⟩
    · rintro ⟨confined, plain⟩ room
      cases counted : count t t.length 0 0 with
      | none => exact absurd confined (lost counted)
      | some r =>
        obtain ⟨j, k⟩ := r
        have run : dirpackage t room = if j ≠ t.length then some (.error .badFormat)
            else if !room then some (.error .nomem) else convert t k t.length 0 [] := by
          rw [dirpackage, if_neg some_, counted]
          rfl
        by_cases last : j = t.length
        swap
        · rw [if_pos last] at run
          exact ⟨_, run, fun ds no => nomatch no⟩
        cases room with
        | false =>
          rw [if_neg (fun other => other last)] at run
          exact ⟨_, run, fun ds no => nomatch no⟩
        | true =>
          obtain ⟨es, same, stats, -⟩ := (found j k counted).2 last
          obtain ⟨ds, rfl, good⟩ := exists_plain (plain es same stats)
          refine ⟨_, dirpackage_entries same stats (fun d member => (good d member).1) some_, fun ds' result => ?_⟩
          cases result
          rw [flatMap_encoding good]
          exact same.symm

/-- Of one byte the count is read beyond the end. -/
theorem dirpackage_short : ¬∀ room, Packed [0] room := by
  intro packed
  obtain ⟨r, run, -⟩ := packed true
  have none : dirpackage [0] true = none := rfl
  rw [none] at run
  nomatch run

end Inferno.Emu.Dirpackage
