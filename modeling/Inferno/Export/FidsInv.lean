import Inferno.Export.Fids

namespace Inferno.Export

/-- A negative `int` is at least 2^63 as a `ulong`. -/
theorem intUlong_toNat (n : Int32) :
    (intUlong n).toNat = n.toBitVec.toNat + if 2 ^ 31 ≤ n.toBitVec.toNat then 2 ^ 64 - 2 ^ 32 else 0 := by
  have wide : (intUlong n).toNat = (n.toBitVec.signExtend 64).toNat := rfl
  rw [wide, BitVec.toNat_signExtend, BitVec.toNat_setWidth_of_le (by decide), BitVec.msb_eq_decide]
  simp

theorem ulongInt_toNat (fid : UInt64) : (ulongInt fid).toBitVec.toNat = fid.toNat % 2 ^ 32 := rfl

theorem intUlong_ulongInt {fid : UInt64} (small : fid.toNat < 2 ^ 31) : intUlong (ulongInt fid) = fid := by
  have fits := ulongInt_toNat fid
  rw [← UInt64.toNat_inj, intUlong_toNat]
  split <;> omega

namespace Fids

/-- The fid that an entry is found as. -/
def number (s : Fids) (f : Nat) : UInt64 := intUlong (s.fid f).fid

/-- Each entry is on the list of its fid, and no other has that fid. -/
structure Table (s : Fids) : Prop where
  made : ∀ b, ∀ f ∈ s.hash b, f < s.made
  place : ∀ b, ∀ f ∈ s.hash b, bucket (s.number f) = b
  once : ∀ b, (s.hash b).Nodup
  one : ∀ b, ∀ f ∈ s.hash b, ∀ g ∈ s.hash b, s.number f = s.number g → f = g

variable {s s' : Fids} {f g : Nat} {fid x : UInt64}

theorem find_none (missing : s.find fid = none) (member : f ∈ s.hash (bucket fid)) : s.number f ≠ fid := by
  simpa [number] using List.find?_eq_none.mp missing f member

theorem find_some (found : s.find fid = some f) : f ∈ s.hash (bucket fid) ∧ s.number f = fid :=
  ⟨List.mem_of_find?_eq_some found, by simpa [number] using List.find?_some found⟩

theorem Table.find_iff (table : s.Table) : s.find fid = some f ↔ f ∈ s.hash (bucket fid) ∧ s.number f = fid := by
  refine ⟨find_some, fun ⟨member, number⟩ => ?_⟩
  cases found : s.find fid with
  | none => exact absurd number (find_none found member)
  | some g =>
    obtain ⟨there, same⟩ := find_some found
    rw [table.one _ g there f member (same.trans number.symm)]

@[simp] theorem setFid_fid (v : Fid) : (s.setFid f v).fid g = if g = f then v else s.fid g := Function.update_apply ..

@[simp] theorem setChan_fid (c : Nat) :
    (s.setChan f c).fid g = if g = f then { s.fid f with chan := some c } else s.fid g := setFid_fid ..

@[simp] theorem detach_fid : (s.detach f).fid g = if g = f then { s.fid f with attached := false } else s.fid g :=
  setFid_fid ..

@[simp] theorem setOffset_fid (offset : Int) :
    (s.setOffset f offset).fid g = if g = f then { s.fid f with offset } else s.fid g := setFid_fid ..

/-- What the table says of the fids depends only on the lists and on the numbers of the entries. -/
theorem Table.congr {s' : Fids} (table : s.Table) (hash : s'.hash = s.hash) (made : s'.made = s.made)
    (same : ∀ f, (s'.fid f).fid = (s.fid f).fid) : s'.Table ∧ ∀ x, s'.find x = s.find x := by
  have number : ∀ f, s'.number f = s.number f := fun f => congrArg intUlong (same f)
  refine ⟨⟨?_, ?_, ?_, ?_⟩, fun x => ?_⟩
  · rw [hash, made]
    exact table.made
  · rw [hash]
    exact fun b f member => (congrArg bucket (number f)).trans (table.place b f member)
  · rw [hash]
    exact table.once
  · rw [hash]
    exact fun b f inB g also same => table.one b f inB g also (by rw [← number, ← number, same])
  · unfold find
    rw [hash]
    exact congrArg₂ List.find? (funext fun f => by rw [same f]) rfl

theorem Table.setFid {v : Fid} (table : s.Table) (same : v.fid = (s.fid f).fid) :
    (s.setFid f v).Table ∧ ∀ x, (s.setFid f v).find x = s.find x := by
  refine table.congr rfl rfl fun g => ?_
  rw [setFid_fid]
  split
  · rw [same, ‹g = f›]
  · rfl

theorem Table.setFid_find (table : s.Table) (v : Fid) (same : v.fid = (s.fid f).fid) (found : s.find x = some g) :
    (s.setFid f v).find x = some g := ((table.setFid same).2 x).trans found

/-- A new entry at the head of the list of a fid that is in no entry. -/
theorem Table.grow (table : s.Table) (missing : s.find fid = none) (next : s'.made = s.made + 1)
    (hash : s'.hash = Function.update s.hash (bucket fid) (s.made :: s.hash (bucket fid)))
    (number : ∀ g, s'.number g = if g = s.made then fid else s.number g) :
    s'.Table ∧ ∀ x, s'.find x = if x = fid then some s.made else s.find x := by
  have new : ∀ b g, g ∈ s.hash b → g ≠ s.made := fun b g member => Nat.ne_of_lt (table.made b g member)
  have members : ∀ b g, g ∈ s'.hash b ↔ g ∈ s.hash b ∨ g = s.made ∧ b = bucket fid := by
    intro b g
    rw [hash]
    by_cases here : b = bucket fid
    · subst here
      simp [or_comm]
    · simp [here]
  have grown : s'.Table := by
    refine ⟨fun b g member => ?_, fun b g member => ?_, fun b => ?_, fun b g inB h also same => ?_⟩
    · obtain old | ⟨rfl, _⟩ := (members b g).mp member
      · exact next ▸ Nat.lt_succ_of_lt (table.made b g old)
      · exact next ▸ Nat.lt_succ_self _
    · obtain old | ⟨rfl, rfl⟩ := (members b g).mp member
      · rw [number, if_neg (new b g old)]
        exact table.place b g old
      · rw [number, if_pos rfl]
    · rw [hash]
      by_cases here : b = bucket fid
      · subst here
        simpa using ⟨fun member => new _ _ member rfl, table.once _⟩
      · simpa [here] using table.once b
    · rw [number, number] at same
      have mine : b = bucket fid → ∀ h, h ∈ s.hash b → s.number h ≠ fid := fun is h old => find_none missing (is ▸ old)
      obtain old | ⟨isG, is⟩ := (members b g).mp inB <;> obtain older | ⟨isH, is'⟩ := (members b h).mp also
      · rw [if_neg (new b g old), if_neg (new b h older)] at same
        exact table.one b g old h older same
      · rw [if_neg (new b g old), if_pos isH] at same
        exact absurd same (mine is' g old)
      · rw [if_neg (new b h older), if_pos isG] at same
        exact absurd same.symm (mine is h older)
      · exact isG.trans isH.symm
  refine ⟨grown, fun x => Option.ext fun g => ?_⟩
  rw [grown.find_iff, members, number]
  constructor
  · rintro ⟨old | ⟨rfl, is⟩, same⟩
    · rw [if_neg (new _ g old)] at same
      rw [if_neg fun is : x = fid => find_none missing (is ▸ old) (same.trans is)]
      exact table.find_iff.mpr ⟨old, same⟩
    · rw [if_pos rfl] at same
      rw [if_pos same.symm]
  · intro found
    split at found
    · cases found
      exact ⟨Or.inr ⟨rfl, by rw [‹x = fid›]⟩, by rw [if_pos rfl, ‹x = fid›]⟩
    · obtain ⟨old, same⟩ := find_some found
      exact ⟨Or.inl old, by rw [if_neg (new _ g old), same]⟩

theorem mkfid_some (made : s.exmkfid fid = some (f, s')) : f = s.made ∧ s.find fid = none ∧ s' =
    { s.setFid s.made ⟨ulongInt fid, 1, true, none, 0⟩ with
      made := s.made + 1, hash := Function.update s.hash (bucket fid) (s.made :: s.hash (bucket fid)) } := by
  unfold exmkfid at made
  split at made
  · contradiction
  · cases made
    exact ⟨rfl, ‹_›, rfl⟩

theorem Table.mkfid (table : s.Table) (made : s.exmkfid fid = some (f, s')) (small : fid.toNat < 2 ^ 31) :
    s'.Table ∧ ∀ x, s'.find x = if x = fid then some s.made else s.find x := by
  obtain ⟨_, missing, rfl⟩ := mkfid_some made
  refine table.grow missing rfl rfl fun g => ?_
  simp only [number, setFid_fid]
  split
  · exact intUlong_ulongInt small
  · rfl

/-- An entry leaves its list. -/
def unlink (s : Fids) (f : Nat) : Fids :=
  { s with hash := Function.update s.hash (bucket (s.number f)) ((s.hash (bucket (s.number f))).erase f) }

theorem Table.unlink (table : s.Table) (found : s.find fid = some f) :
    (s.unlink f).Table ∧ ∀ x, (s.unlink f).find x = if x = fid then none else s.find x := by
  obtain ⟨member, isFid⟩ := find_some found
  have members : ∀ b g, g ∈ (s.unlink f).hash b ↔ g ∈ s.hash b ∧ g ≠ f := by
    intro b g
    unfold Fids.unlink
    rw [isFid]
    by_cases here : b = bucket fid
    · subst here
      simp [(table.once _).mem_erase_iff, and_comm]
    · have off : g ∈ s.hash b → g ≠ f := by
        rintro inB rfl
        exact here ((table.place b g inB).symm.trans (congrArg bucket isFid))
      simpa [here] using off
  have shrunk : (s.unlink f).Table := by
    refine ⟨fun b g left => table.made b g ((members b g).mp left).1,
      fun b g left => table.place b g ((members b g).mp left).1, fun b => ?_,
      fun b g left h also same => table.one b g ((members b g).mp left).1 h ((members b h).mp also).1 same⟩
    unfold Fids.unlink
    by_cases here : b = bucket (s.number f)
    · subst here
      simpa using (table.once _).erase f
    · simpa [here] using table.once b
  refine ⟨shrunk, fun x => Option.ext fun g => ?_⟩
  rw [shrunk.find_iff, members]
  constructor
  · rintro ⟨⟨old, other⟩, same⟩
    have was : s.find x = some g := table.find_iff.mpr ⟨old, same⟩
    rw [if_neg fun is : x = fid => other (Option.some.inj ((is ▸ was).symm.trans found)), was]
  · intro was
    split at was
    · contradiction
    · rename_i other
      obtain ⟨old, same⟩ := find_some was
      exact ⟨⟨old, fun is : g = f => other (same.symm.trans (is ▸ isFid))⟩, same⟩

end Fids

end Inferno.Export
