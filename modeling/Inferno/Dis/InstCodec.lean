import Inferno.Dis.Inst

namespace Inferno.Dis

/-- The address the loader builds for an operand. -/
def Opnd.adr : Opnd → Adr
  | .imm v | .fp v | .mp v => .ind (v.bmod (2 ^ 30))
  | .fpind f s | .mpind f s => .i f.toNat s.toNat
  | .ins k => .ins k
  | .none => .ind 0

def Opnd.value : Opnd → Int
  | .imm v | .fp v | .mp v => v
  | _ => 0

/-- What `parsemod` makes of a written instruction. -/
def Inst.loaded (i : Inst) : ProgInst where
  op := i.op
  add := i.add
  reg := ushort i.mid.value
  s := i.src.adr
  d := i.dst.adr

theorem fields_of_lt : ∀ s < 8, ∀ d < 8, ∀ m < 4,
    (s <<< 3 ||| d ||| m <<< 6) < 256 ∧ ((s <<< 3 ||| d ||| m <<< 6) >>> 3) &&& 7 = s ∧
      (s <<< 3 ||| d ||| m <<< 6) &&& 7 = d ∧ (s <<< 3 ||| d ||| m <<< 6) &&& 0xC0 = m <<< 6 := by
  decide

theorem AMode.dismode_lt (m : AMode) : m.dismode < 8 := by
  cases m <;> decide

theorem AMode.disregmode_eq (m : AMode) : ∃ k < 4, m.disregmode = k <<< 6 := by
  cases m with
  | fp => exact ⟨2, by decide, rfl⟩
  | mp => exact ⟨3, by decide, rfl⟩
  | mpind | fpind | err | none => exact ⟨0, by decide, rfl⟩
  | imm | pc | desc | off | noff | ldt => exact ⟨1, by decide, rfl⟩

theorem Inst.add_fields (i : Inst) : i.add < 256 ∧ i.add >>> 3 &&& 7 = i.sm.dismode ∧
    i.add &&& 7 = i.dm.dismode ∧ i.add &&& 0xC0 = i.mm.disregmode := by
  obtain ⟨k, small, mid⟩ := i.mm.disregmode_eq
  have fields := fields_of_lt i.sm.dismode i.sm.dismode_lt i.dm.dismode i.dm.dismode_lt k small
  rw [Inst.add, mid]
  exact fields

theorem ushort_bmod30 {v : Int} (lower : 0 ≤ v) (upper : v < 2 ^ 16) :
    ushort (v.bmod (2 ^ 30)) = v.toNat := by
  have same : v.bmod (2 ^ 30) = v := Int.bmod_eq_of_le (by omega) (by omega)
  rw [same, ushort]
  omega

theorem parseInd_discon {v : Int} {bytes : List UInt8} (written : discon v = some bytes)
    (rest : List UInt8) : parseInd (bytes ++ rest) = some (.ind (v.bmod (2 ^ 30)), rest) := by
  rw [parseInd, operand_discon_bmod written]
  rfl

theorem parseIndirect_discon {a : InstAddr} {bytes : List UInt8}
    (regs : 0 ≤ a.reg ∧ a.reg < 2 ^ 16 ∧ 0 ≤ a.offset ∧ a.offset < 2 ^ 16)
    (written : (do
      let reg ← disbcon a.reg
      let offset ← disbcon a.offset
      return reg ++ offset) = some bytes) (rest : List UInt8) :
    parseIndirect (bytes ++ rest) = some (.i a.reg.toNat a.offset.toNat, rest) := by
  simp only [Option.bind_eq_bind, Option.bind_eq_some_iff, Option.pure_def, Option.some.injEq,
    disbcon] at written
  obtain ⟨reg, atReg, offset, atOffset, rfl⟩ := written
  rw [parseIndirect, List.append_assoc, operand_discon_bmod atReg]
  simp only [Option.bind_eq_bind, Option.bind_some]
  rw [operand_discon_bmod atOffset, Option.bind_some, ushort_bmod30 regs.1 regs.2.1,
    ushort_bmod30 regs.2.2.1 regs.2.2.2]
  rfl

theorem parseSrc_disopnd {m : AMode} {a : InstAddr} {bytes : List UInt8} (resolved : m.Resolved a)
    (written : disopnd m a = some bytes) (rest : List UInt8) :
    parseSrc m.dismode (bytes ++ rest) = some ((m.opnd a).adr, rest) := by
  obtain ⟨valid, indirect⟩ := resolved
  cases m with
  | err => exact absurd rfl valid
  | none =>
    cases written
    rfl
  | fpind => exact parseIndirect_discon (indirect (Or.inl rfl)) written rest
  | mpind => exact parseIndirect_discon (indirect (Or.inr rfl)) written rest
  | imm | pc | desc | off | noff | ldt | fp | mp => exact parseInd_discon written rest

theorem brpatch_target {nprog op : Nat} {v : Int}
    (branch : isBranch op = true → 0 ≤ v ∧ v < nprog) :
    brpatch nprog op (v.bmod (2 ^ 30)) = some ((Opnd.imm v).target op).adr ∨
      isBranch op = true ∧ 2 ^ 29 ≤ v := by
  by_cases jump : isBranch op = true
  · obtain ⟨lower, upper⟩ := branch jump
    rcases lt_or_ge v (2 ^ 29) with small | large
    · have same : v.bmod (2 ^ 30) = v := Int.bmod_eq_of_le (by omega) (by omega)
      left
      rw [brpatch, same, if_pos jump, if_neg (by omega), Opnd.target, if_pos jump, Opnd.adr]
    · exact Or.inr ⟨jump, large⟩
  · left
    rw [brpatch, if_neg jump, Opnd.target, if_neg jump, Opnd.adr]

theorem parseDst_imm {nprog op : Nat} {v : Int} {bytes : List UInt8}
    (branch : isBranch op = true → 0 ≤ v ∧ v < nprog) (written : discon v = some bytes)
    (rest : List UInt8) :
    parseDst nprog op 2 (bytes ++ rest) = some (((Opnd.imm v).target op).adr, rest) := by
  have upper := lt_of_discon written
  rw [parseDst, operand_discon_bmod written]
  simp only [Option.bind_eq_bind, Option.bind_some]
  rcases brpatch_target branch with patched | ⟨_, large⟩
  · rw [patched]
    rfl
  · omega

theorem parseDst_disopnd {nprog op : Nat} {m : AMode} {a : InstAddr} {bytes : List UInt8}
    (resolved : m.Resolved a)
    (branch : ∀ v, m.opnd a = .imm v → isBranch op = true → 0 ≤ v ∧ v < nprog)
    (written : disopnd m a = some bytes) (rest : List UInt8) :
    parseDst nprog op m.dismode (bytes ++ rest) = some (((m.opnd a).target op).adr, rest) := by
  obtain ⟨valid, indirect⟩ := resolved
  cases m with
  | err => exact absurd rfl valid
  | none =>
    cases written
    rfl
  | fpind => exact parseIndirect_discon (indirect (Or.inl rfl)) written rest
  | mpind => exact parseIndirect_discon (indirect (Or.inr rfl)) written rest
  | fp | mp => exact parseInd_discon written rest
  | imm | pc | desc | off | noff | ldt => exact parseDst_imm (branch _ rfl) written rest

theorem parseReg_discon {arm : Nat} {v : Int} {bytes : List UInt8} (mode : arm ≠ 0)
    (written : discon v = some bytes) (rest : List UInt8) :
    parseReg arm (bytes ++ rest) = some (ushort v, rest) := by
  rw [parseReg, if_neg mode, operand_discon_bmod written]
  simp only [Option.bind_eq_bind, Option.bind_some, Option.pure_def, Option.some.injEq,
    Prod.mk.injEq, and_true, ushort, Int.bmod_def]
  split <;> omega

theorem parseReg_disopnd {m : AMode} {a : InstAddr} {bytes : List UInt8} (resolved : m.MidResolved a)
    (written : disopnd m a = some bytes) (rest : List UInt8) :
    parseReg m.disregmode (bytes ++ rest) = some (ushort (m.opnd a).value, rest) := by
  cases m with
  | err | fpind | mpind => exact absurd resolved id
  | none =>
    cases written
    rfl
  | imm | pc | desc | off | noff | ldt | fp | mp => exact parseReg_discon (by decide) written rest

/-- The loader's record of a written instruction. -/
theorem parseInst_disinst1 {nprog : Nat} {i : Inst} {bytes : List UInt8}
    (resolved : i.Resolved nprog) (written : disinst1 i = some bytes) (rest : List UInt8) :
    parseInst nprog (bytes ++ rest) = some (i.loaded, rest) := by
  simp only [disinst1, Option.bind_eq_bind, Option.bind_eq_some_iff, Option.pure_def,
    Option.some.injEq] at written
  obtain ⟨m, atM, s, atS, d, atD, rfl⟩ := written
  obtain ⟨small, src, dst, arm⟩ := i.add_fields
  have op : (UInt8.ofNat i.op).toNat = i.op := UInt8.toNat_ofNat_of_lt' resolved.op
  have add : (UInt8.ofNat i.add).toNat = i.add := UInt8.toNat_ofNat_of_lt' small
  simp only [List.cons_append, List.append_assoc, parseInst, op, add, arm, src, dst,
    Option.bind_eq_bind]
  rw [parseReg_disopnd resolved.mid atM, Option.bind_some]
  dsimp only
  rw [parseSrc_disopnd resolved.src atS, Option.bind_some]
  dsimp only
  rw [parseDst_disopnd resolved.dst resolved.branch atD]
  rfl

theorem src_same_iff {m : AMode} {a : InstAddr} {bytes : List UInt8} (resolved : m.Resolved a)
    (written : disopnd m a = some bytes) :
    (m.opnd a).adr.opnd m.dismode = m.opnd a ↔ (m.opnd a).Fits := by
  obtain ⟨_, indirect⟩ := resolved
  cases m with
  | err | none => exact ⟨fun _ => trivial, fun _ => rfl⟩
  | fpind =>
    obtain ⟨reg, _, offset, _⟩ := indirect (Or.inl rfl)
    simp only [AMode.opnd, Opnd.adr, AMode.dismode, Adr.opnd, Opnd.Fits, Int.toNat_of_nonneg reg,
      Int.toNat_of_nonneg offset]
  | mpind =>
    obtain ⟨reg, _, offset, _⟩ := indirect (Or.inr rfl)
    simp only [AMode.opnd, Opnd.adr, AMode.dismode, Adr.opnd, Opnd.Fits, Int.toNat_of_nonneg reg,
      Int.toNat_of_nonneg offset]
  | imm | pc | desc | off | noff | ldt | fp | mp =>
    have narrow := bmod30_of_discon (show discon _ = some bytes from written)
    simpa only [AMode.opnd, Opnd.adr, AMode.dismode, Adr.opnd, Opnd.Fits, Opnd.imm.injEq,
      Opnd.fp.injEq, Opnd.mp.injEq] using narrow

/-- A branch destination in the program always fits. -/
theorem dst_same_iff {nprog op : Nat} {m : AMode} {a : InstAddr} {bytes : List UInt8}
    (resolved : m.Resolved a)
    (branch : ∀ v, m.opnd a = .imm v → isBranch op = true → 0 ≤ v ∧ v < nprog)
    (written : disopnd m a = some bytes) :
    ((m.opnd a).target op).adr.opnd m.dismode = (m.opnd a).target op ↔ (m.opnd a).Fits := by
  have plain := src_same_iff resolved written
  by_cases jump : isBranch op = true
  · cases m with
    | err | none | fp | mp | fpind | mpind => exact plain
    | imm | pc | desc | off | noff | ldt =>
      have lower := (branch _ rfl jump).1
      simp only [AMode.opnd, Opnd.target, if_pos jump, Opnd.adr, AMode.dismode, Adr.opnd,
        Opnd.Fits, true_iff]
      omega
  · have unchanged : (m.opnd a).target op = m.opnd a := by
      cases m.opnd a <;> simp only [Opnd.target, if_neg jump]
    rw [unchanged]
    exact plain

theorem ushort_short {v : Int} (lower : -0x8000 ≤ v) (upper : v ≤ 0x7fff) :
    (ushort v : Int).bmod (2 ^ 16) = v := by
  rw [ushort, Int.bmod_def]
  split <;> omega

theorem ushort_of_nonneg {v : Int} (lower : 0 ≤ v) (upper : v ≤ 0x7fff) : (ushort v : Int) = v := by
  rw [ushort]
  omega

theorem loaded_mid {i : Inst} (resolved : i.mm.MidResolved i.m) : i.loaded.mid = i.mid := by
  rw [ProgInst.mid, show i.loaded.add = i.add from rfl, i.add_fields.2.2.2,
    show i.loaded.reg = ushort (i.mm.opnd i.m).value from rfl, Inst.mid]
  cases mode : i.mm with
  | none => rfl
  | err | fpind | mpind =>
    rw [mode] at resolved
    exact absurd resolved id
  | imm | pc | desc | off =>
    rw [mode] at resolved
    simp only [AMode.disregmode, AMode.opnd, Opnd.value, ushort_short resolved.1 resolved.2]
  | ldt =>
    rw [mode] at resolved
    simp only [AMode.disregmode, AMode.opnd, Opnd.value,
      ushort_short (Int.le_trans (by omega) resolved.1) resolved.2]
  | noff =>
    rw [mode] at resolved
    obtain ⟨lower, upper⟩ := resolved
    simp only [AMode.disregmode, AMode.opnd, Opnd.value]
    rw [ushort_short (by omega) (by omega)]
  | fp | mp =>
    rw [mode] at resolved
    simp only [AMode.disregmode, AMode.opnd, Opnd.value, ushort_of_nonneg resolved.1 resolved.2]

/-- A loaded instruction is the compiled one exactly when its two operands
survive the 30 bits of a constant. -/
theorem loaded_same_iff {nprog : Nat} {i : Inst} {bytes : List UInt8} (resolved : i.Resolved nprog)
    (written : disinst1 i = some bytes) : i.loaded.Same i ↔ i.Fits := by
  simp only [disinst1, Option.bind_eq_bind, Option.bind_eq_some_iff, Option.pure_def,
    Option.some.injEq] at written
  obtain ⟨m, _, s, atS, d, atD, _⟩ := written
  obtain ⟨_, src, dst, _⟩ := i.add_fields
  have srcSame : i.loaded.src = i.src ↔ i.src.Fits := by
    rw [ProgInst.src, show i.loaded.add = i.add from rfl, src]
    exact src_same_iff resolved.src atS
  have dstSame : i.loaded.dst = i.dst ↔ (i.dm.opnd i.d).Fits := by
    rw [ProgInst.dst, show i.loaded.add = i.add from rfl, dst]
    exact dst_same_iff resolved.dst resolved.branch atD
  constructor
  · intro same
    exact ⟨srcSame.mp same.src, dstSame.mp same.dst⟩
  · intro fits
    exact ⟨rfl, srcSame.mpr fits.1, loaded_mid resolved.mid, dstSame.mpr fits.2⟩

theorem disinst1_of_mem {insts : List Inst} {bytes : List UInt8} (written : disinst insts = some bytes)
    {i : Inst} (member : i ∈ insts) (kept : i.op ≠ inoop) : ∃ out, disinst1 i = some out := by
  induction insts generalizing bytes with
  | nil => cases member
  | cons j insts ih =>
    rw [disinst] at written
    split at written
    · rename_i skipped
      rcases List.mem_cons.mp member with rfl | later
      · exact absurd skipped kept
      · exact ih written later
    · simp only [Option.bind_eq_bind, Option.bind_eq_some_iff, Option.pure_def,
        Option.some.injEq] at written
      obtain ⟨head, atHead, more, atMore, _⟩ := written
      rcases List.mem_cons.mp member with rfl | later
      · exact ⟨head, atHead⟩
      · exact ih atMore later

/-- The instructions that are in the file. -/
def emitted (insts : List Inst) : List Inst := insts.filter fun i => i.op ≠ inoop

theorem parseProg_disinst {nprog : Nat} {insts : List Inst} {bytes : List UInt8}
    (resolved : ∀ i ∈ emitted insts, i.Resolved nprog) (written : disinst insts = some bytes)
    (rest : List UInt8) :
    parseProg nprog (emitted insts).length (bytes ++ rest) =
      some ((emitted insts).map Inst.loaded, rest) := by
  induction insts generalizing bytes with
  | nil =>
    cases written
    rfl
  | cons i insts ih =>
    by_cases skipped : i.op = inoop
    · have same : emitted (i :: insts) = emitted insts := by
        rw [emitted, List.filter_cons_of_neg (by simpa using skipped)]
        rfl
      rw [disinst, if_pos skipped] at written
      rw [same] at resolved ⊢
      exact ih resolved written
    · have cons : emitted (i :: insts) = i :: emitted insts := by
        rw [emitted, List.filter_cons_of_pos (by simpa using skipped)]
        rfl
      rw [disinst, if_neg skipped] at written
      simp only [Option.bind_eq_bind, Option.bind_eq_some_iff, Option.pure_def,
        Option.some.injEq] at written
      obtain ⟨head, atHead, more, atMore, rfl⟩ := written
      rw [cons] at resolved ⊢
      rw [List.length_cons, parseProg, List.append_assoc,
        parseInst_disinst1 (resolved i List.mem_cons_self) atHead]
      simp only [Option.bind_eq_bind, Option.bind_some]
      rw [ih (fun j member => resolved j (List.mem_cons_of_mem _ member)) atMore]
      rfl

/-- The loaded program against the compiled one, over the whole list. -/
theorem prog_same_iff {nprog : Nat} {insts : List Inst} {bytes : List UInt8}
    (resolved : ∀ i ∈ emitted insts, i.Resolved nprog) (written : disinst insts = some bytes) :
    List.Forall₂ ProgInst.Same ((emitted insts).map Inst.loaded) (emitted insts) ↔
      ∀ i ∈ emitted insts, i.Fits := by
  have each : ∀ i ∈ emitted insts, i.loaded.Same i ↔ i.Fits := by
    intro i member
    obtain ⟨inList, kept⟩ := List.mem_filter.mp member
    obtain ⟨out, atInst⟩ := disinst1_of_mem written inList (by simpa using kept)
    exact loaded_same_iff (resolved i member) atInst
  rw [List.forall₂_map_left_iff, List.forall₂_same]
  exact ⟨fun same i member => (each i member).mp (same i member),
    fun fits i member => (each i member).mpr (fits i member)⟩

/-- What the loader makes of the instructions that `disinst` writes, and when that is what was compiled. -/
theorem program_codec {nprog : Nat} {insts : List Inst} {bytes : List UInt8}
    (resolved : ∀ i ∈ emitted insts, i.Resolved nprog) (written : disinst insts = some bytes) (rest : List UInt8) :
    parseProg nprog (emitted insts).length (bytes ++ rest) = some ((emitted insts).map Inst.loaded, rest) ∧
      (List.Forall₂ ProgInst.Same ((emitted insts).map Inst.loaded) (emitted insts) ↔ ∀ i ∈ emitted insts, i.Fits) :=
  ⟨parseProg_disinst resolved written rest, prog_same_iff resolved written⟩

theorem program_codec_movw : ∃ i : Inst, parseProg 1 1 [45, 17, 0x7B, 8, 7] = some ([i.loaded], [7]) := by
  let i : Inst := ⟨45, .imm, .none, .fp, ⟨0, -5, 0⟩, ⟨0, 0, 0⟩, ⟨8, 0, 0⟩⟩
  have resolved : ∀ j ∈ emitted [i], j.Resolved 1 := fun j member => List.mem_singleton.1 member ▸
    ⟨by decide, ⟨nofun, by decide⟩, trivial, ⟨nofun, by decide⟩, nofun⟩
  exact ⟨i, (program_codec resolved (show _ = some [45, 17, 0x7B, 8] by decide) [7]).1⟩

end Inferno.Dis
