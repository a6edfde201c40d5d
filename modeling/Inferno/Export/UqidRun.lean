import Inferno.Export.Uqid
import Inferno.Export.FidsInv

namespace Inferno.Export

theorem qidmask_toNat (path : UInt64) : (path &&& qidmask).toNat = path.toNat % 2 ^ 48 := by
  have mask : qidmask.toNat = 2 ^ 48 - 1 := rfl
  rw [UInt64.toNat_and, mask, Nat.and_two_pow_sub_one_eq_mod]

theorem generated_toNat (gen : Nat) (path : UInt64) :
    (generated gen path).toNat = gen % 2 ^ 16 * 2 ^ 48 + path.toNat % 2 ^ 48 := by
  have high : (UInt64.ofNat gen <<< 48).toNat = gen % 2 ^ 16 * 2 ^ 48 := by
    rw [UInt64.toNat_shiftLeft, UInt64.toNat_ofNat', Nat.shiftLeft_eq]
    simp only [UInt64.reduceToNat, Nat.reduceMod]
    omega
  unfold generated
  rw [UInt64.toNat_or, high, qidmask_toNat, ← Nat.shiftLeft_eq, ← Nat.shiftLeft_add_eq_or_of_lt (Nat.mod_lt _ (by decide))]

/-- Only the low bits of a path go into the next. -/
theorem generated_generated (gen gen' : Nat) (path : UInt64) :
    generated gen (generated gen' path) = generated gen path := by
  rw [← UInt64.toNat_inj, generated_toNat, generated_toNat, generated_toNat]
  omega

theorem generated_mask (gen : Nat) (path : UInt64) : generated gen path &&& qidmask = path &&& qidmask := by
  rw [← UInt64.toNat_inj, qidmask_toNat, qidmask_toNat, generated_toNat]
  omega

theorem generated_inj {gen gen' : Nat} {path : UInt64} (small : gen < 2 ^ 16) (small' : gen' < 2 ^ 16)
    (same : generated gen path = generated gen' path) : gen = gen' := by
  have value := congrArg UInt64.toNat same
  rw [generated_toNat, generated_toNat] at value
  omega

theorem nextgen_range (gen : Nat) : 1 ≤ nextgen gen ∧ nextgen gen ≤ 65535 := by
  unfold nextgen
  split <;> omega

theorem nextgen_climb {gen : Nat} : ∀ k, gen + k ≤ 65535 → nextgen^[k] gen = gen + k
  | 0, _ => rfl
  | k + 1, below => by
    rw [Function.iterate_succ_apply', nextgen_climb k (by omega)]
    exact if_neg (by omega)

/-- The generations go round through every number that is one. -/
theorem nextgen_reaches (gen : Nat) {target : Nat} (low : 1 ≤ target) (high : target ≤ 65535) :
    ∃ k, 1 ≤ k ∧ k ≤ 65535 ∧ nextgen^[k] gen = target := by
  obtain ⟨first, last⟩ := nextgen_range gen
  rcases Nat.lt_or_ge target (nextgen gen) with below | above
  · refine ⟨target + (65535 - nextgen gen) + 1, by omega, by omega, ?_⟩
    obtain ⟨t, rfl⟩ : ∃ t, target = t + 1 := ⟨target - 1, by omega⟩
    have top : nextgen^[65535 - nextgen gen] (nextgen gen) = 65535 := by
      rw [nextgen_climb _ (by omega)]
      omega
    rw [Function.iterate_succ_apply, Function.iterate_add_apply, top, Function.iterate_succ_apply,
      show nextgen 65535 = 1 from rfl, nextgen_climb _ (by omega)]
    omega
  · refine ⟨target - nextgen gen + 1, by omega, by omega, ?_⟩
    rw [Function.iterate_succ_apply, nextgen_climb _ (by omega)]
    omega

namespace Uqidtab

variable {s s' : Uqidtab} {c : File} {q : Nat} {path newpath : UInt64} {gen gen' fuel : Nat}

theorem freshLoop_some (found : s.freshLoop fuel path gen = some (newpath, gen')) : s.uqidexists newpath = false := by
  induction fuel generalizing path gen with
  | zero => contradiction
  | succ fuel ih =>
    unfold freshLoop at found
    split at found
    · exact ih found
    · cases found
      simpa using ‹¬s.uqidexists newpath = true›

theorem freshLoop_none (missing : s.freshLoop fuel path gen = none) (k : Nat) (low : 1 ≤ k) (high : k < fuel) :
    s.uqidexists (generated (nextgen^[k] gen) path) = true := by
  induction fuel generalizing path gen k with
  | zero => omega
  | succ fuel ih =>
    unfold freshLoop at missing
    split at missing
    · obtain ⟨k, rfl⟩ : ∃ j, k = j + 1 := ⟨k - 1, by omega⟩
      rcases Nat.eq_zero_or_pos k with rfl | pos
      · cases fuel with
        | zero => omega
        | succ fuel =>
          unfold freshLoop at missing
          split at missing
          · assumption
          · contradiction
      · have there := ih missing k pos (by omega)
        rwa [generated_generated] at there
    · contradiction

/-- Where fewer entries share the low bits than there are generations, one path is new. -/
theorem fresh_isSome (roomy : s.Roomy path) : (s.fresh path).isSome := by
  by_contra missing
  have none : s.fresh path = none := by simpa using missing
  let crowd := s.live.filter fun q => (s.uqid q).newpath &&& qidmask == path &&& qidmask
  have taken : ∀ gen ∈ Finset.Icc 1 65535, generated gen path ∈ (crowd.map fun q => (s.uqid q).newpath).toFinset := by
    intro gen member
    obtain ⟨low, high⟩ := Finset.mem_Icc.mp member
    obtain ⟨k, first, last, rfl⟩ := nextgen_reaches s.pathgen low high
    have there := freshLoop_none none k first (by omega)
    obtain ⟨q, live, is⟩ := List.any_eq_true.mp there
    have same : (s.uqid q).newpath = generated (nextgen^[k] s.pathgen) path := by simpa using is
    refine List.mem_toFinset.mpr (List.mem_map.mpr ⟨q, List.mem_filter.mpr ⟨live, ?_⟩, same⟩)
    rw [same, generated_mask]
    exact beq_self_eq_true _
  have inj : Set.InjOn (fun gen => generated gen path) (Finset.Icc 1 65535 : Finset Nat) := fun a inA b inB same =>
    generated_inj (by have := (Finset.mem_Icc.mp (Finset.mem_coe.mp inA)).2; omega)
      (by have := (Finset.mem_Icc.mp (Finset.mem_coe.mp inB)).2; omega) same
  have many := Finset.card_le_card_of_injOn _ taken inj
  have few := List.toFinset_card_le (crowd.map fun q => (s.uqid q).newpath)
  rw [List.length_map] at few
  rw [Nat.card_Icc] at many
  have less : crowd.length < 65535 := roomy
  omega

/-- The entry is that of the file. -/
def Matches (s : Uqidtab) (q : Nat) (c : File) : Prop :=
  (s.uqid q).type = c.type ∧ intUlong (s.uqid q).dev = c.dev ∧ (s.uqid q).oldpath = c.path

/-- Each entry is on the list of its path, once, with the references that are held. -/
structure Inv (s : Uqidtab) : Prop where
  place : ∀ b, ∀ q ∈ s.qids b, q < s.made ∧ uqidhash (s.uqid q).oldpath = b
  once : ∀ b, (s.qids b).Nodup
  held : ∀ c q, (c, q) ∈ s.held → q ∈ s.qids (uqidhash c.path) ∧ s.Matches q c
  one : ∀ b b' q q' c, q ∈ s.qids b → q' ∈ s.qids b' → s.Matches q c → s.Matches q' c → q = q'
  ref : ∀ b, ∀ q ∈ s.qids b, (s.uqid q).ref = s.held.countP (fun h => h.2 = q) ∧ 0 < (s.uqid q).ref
  new : ∀ b b' q q', q ∈ s.qids b → q' ∈ s.qids b' → (s.uqid q).newpath = (s.uqid q').newpath → q = q'

theorem uqidhash_lt (path : UInt64) : uqidhash path < nqidhash := by
  have mask : (31 : UInt64).toNat = 2 ^ 5 - 1 := rfl
  unfold uqidhash
  rw [UInt64.toNat_and, mask, Nat.and_two_pow_sub_one_eq_mod]
  exact Nat.mod_lt _ (by decide)

theorem Inv.mem_live (inv : s.Inv) : q ∈ s.live ↔ ∃ b, q ∈ s.qids b := by
  unfold live
  rw [List.mem_flatMap]
  refine ⟨fun ⟨b, _, member⟩ => ⟨b, member⟩, fun ⟨b, member⟩ => ⟨b, ?_, member⟩⟩
  rw [List.mem_range, ← (inv.place b q member).2]
  exact uqidhash_lt _

theorem uqidlook_some (found : s.uqidlook c = some q) : q ∈ s.qids (uqidhash c.path) ∧ s.Matches q c := by
  have is := List.find?_some found
  simp only [Bool.and_eq_true, beq_iff_eq] at is
  exact ⟨List.mem_of_find?_eq_some found, is.1.1, is.1.2, is.2⟩

theorem uqidlook_none (missing : s.uqidlook c = none) (member : q ∈ s.qids (uqidhash c.path)) : ¬s.Matches q c := by
  rintro ⟨type, dev, path⟩
  simpa [type, dev, path] using List.find?_eq_none.mp missing q member

theorem Inv.uqidlook (inv : s.Inv) (member : (c, q) ∈ s.held) : s.uqidlook c = some q := by
  obtain ⟨there, is⟩ := inv.held c q member
  cases found : s.uqidlook c with
  | none => exact absurd is (uqidlook_none found there)
  | some q' =>
    obtain ⟨there', is'⟩ := uqidlook_some found
    rw [inv.one _ _ q' q c there' there is' is]

/-- The references to an entry change, and its count with them. -/
theorem Inv.count {r : Int} {held : List (File × Nat)} (inv : s.Inv) (mine : r = held.countP (fun h => h.2 = q))
    (pos : (∃ b, q ∈ s.qids b) → 0 < r)
    (others : ∀ q', q' ≠ q → held.countP (fun h => h.2 = q') = s.held.countP (fun h => h.2 = q'))
    (known : ∀ c q', (c, q') ∈ held → q' ∈ s.qids (uqidhash c.path) ∧ s.Matches q' c) :
    Inv { s with uqid := Function.update s.uqid q { s.uqid q with ref := r }, held } := by
  obtain ⟨place, once, _, one, ref, new⟩ := inv
  have at_ : ∀ {P : Uqid → Uqid → Prop}, P { s.uqid q with ref := r } (s.uqid q) → (∀ q', P (s.uqid q') (s.uqid q')) →
      ∀ q', P (Function.update s.uqid q { s.uqid q with ref := r } q') (s.uqid q') := fun {P} mine others q' => by
    by_cases here : q' = q
    · subst here
      simpa using mine
    · simpa [here] using others q'
  have path := at_ (P := fun a b => a.oldpath = b.oldpath) rfl fun _ => rfl
  have newpath := at_ (P := fun a b => a.newpath = b.newpath) rfl fun _ => rfl
  have type := at_ (P := fun a b => a.type = b.type) rfl fun _ => rfl
  have dev := at_ (P := fun a b => a.dev = b.dev) rfl fun _ => rfl
  refine ⟨?_, once, ?_, ?_, fun b q' member => ?_, ?_⟩
  · simpa only [path] using place
  · simpa only [Matches, path, type, dev] using known
  · simpa only [Matches, path, type, dev] using one
  · dsimp only
    by_cases here : q' = q
    · subst here
      simpa using ⟨mine, pos ⟨b, member⟩⟩
    · simpa [here, others q' here] using ref b q' member
  · simpa only [newpath] using new

theorem Inv.incref (inv : s.Inv) (there : q ∈ s.qids (uqidhash c.path)) (is : s.Matches q c) :
    Inv { s.incref q with held := (c, q) :: s.held } := by
  obtain ⟨ref, pos⟩ := inv.ref _ q there
  refine inv.count (by simp [ref]) (fun _ => by omega) (fun q' other => ?_) fun c' q' member => ?_
  · simp [Ne.symm other]
  · obtain same | old := List.mem_cons.mp member
    · cases same
      exact ⟨there, is⟩
    · exact inv.held c' q' old

/-- An entry is made for a file that has none, with a path that none has. -/
theorem Inv.make (inv : s.Inv) (fits : intUlong (ulongInt c.dev) = c.dev) (missing : s.uqidlook c = none)
    (isNew : s.uqidexists newpath = false) : Inv { s with
      uqid := Function.update s.uqid s.made ⟨1, c.type, ulongInt c.dev, c.path, newpath⟩, made := s.made + 1,
      qids := Function.update s.qids (uqidhash c.path) (s.qids (uqidhash c.path) ++ [s.made]), pathgen := gen,
      held := (c, s.made) :: s.held } := by
  have live := fun {q} => inv.mem_live (q := q)
  obtain ⟨place, once, held, one, ref, new⟩ := inv
  generalize isV : (⟨1, c.type, ulongInt c.dev, c.path, newpath⟩ : Uqid) = v
  have off : ∀ {b q}, q ∈ s.qids b → q ≠ s.made := fun {b q} member => Nat.ne_of_lt (place b q member).1
  have members : ∀ b q, q ∈ Function.update s.qids (uqidhash c.path) (s.qids (uqidhash c.path) ++ [s.made]) b ↔
      q ∈ s.qids b ∨ q = s.made ∧ b = uqidhash c.path := by
    intro b q
    by_cases here : b = uqidhash c.path
    · subst here
      simp
    · simp [here]
  have old : ∀ {b q}, q ∈ s.qids b → Function.update s.uqid s.made v q = s.uqid q := fun member =>
    Function.update_of_ne (off member) ..
  have mine : Function.update s.uqid s.made v s.made = v := Function.update_self ..
  have unheld : s.held.countP (fun h => h.2 = s.made) = 0 := List.countP_eq_zero.mpr fun h member is =>
    off (held h.1 h.2 member).1 (by simpa using is)
  have fresh : ∀ {b q}, q ∈ s.qids b → (s.uqid q).newpath ≠ newpath := fun {b q} member same => by
    have taken : s.uqidexists newpath = true := List.any_eq_true.mpr ⟨q, live.mpr ⟨b, member⟩, by simp [same]⟩
    rw [isNew] at taken
    contradiction
  have unmatched : ∀ {b q c'}, q ∈ s.qids b → s.Matches q c' → (v.type = c'.type ∧ intUlong v.dev = c'.dev ∧
      v.oldpath = c'.path) → False := fun {b q c'} member is same => by
    subst isV
    obtain ⟨type, dev, path⟩ := same
    have isC : c' = c := by
      cases c
      cases c'
      simp_all
    subst isC
    rw [← (place b q member).2, is.2.2] at member
    exact uqidlook_none missing member is
  refine ⟨fun b q member => ?_, fun b => ?_, fun c' q member => ?_, fun b b' q q' c' inB inB' is is' => ?_,
    fun b q member => ?_, fun b b' q q' inB inB' same => ?_⟩
  · dsimp only
    obtain there | ⟨rfl, rfl⟩ := (members b q).mp member
    · rw [old there]
      exact ⟨Nat.lt_succ_of_lt (place b q there).1, (place b q there).2⟩
    · rw [mine, ← isV]
      exact ⟨Nat.lt_succ_self _, rfl⟩
  · by_cases here : b = uqidhash c.path
    · subst here
      simpa [List.nodup_append] using ⟨once _, fun q member => off member⟩
    · simpa [here] using once b
  · obtain same | there := List.mem_cons.mp member
    · cases same
      refine ⟨(members _ _).mpr (Or.inr ⟨rfl, rfl⟩), ?_⟩
      simp only [Matches, mine]
      subst isV
      exact ⟨rfl, fits, rfl⟩
    · obtain ⟨inB, is⟩ := held c' q there
      exact ⟨(members _ _).mpr (Or.inl inB), by simpa only [Matches, old inB] using is⟩
  · simp only [Matches] at is is'
    obtain there | ⟨rfl, _⟩ := (members b q).mp inB <;> obtain there' | ⟨rfl, _⟩ := (members b' q').mp inB'
    · rw [old there] at is
      rw [old there'] at is'
      exact one b b' q q' c' there there' is is'
    · rw [old there] at is
      rw [mine] at is'
      exact (unmatched there is is').elim
    · rw [mine] at is
      rw [old there'] at is'
      exact (unmatched there' is' is).elim
    · rfl
  · dsimp only
    obtain there | ⟨rfl, _⟩ := (members b q).mp member
    · rw [old there, List.countP_cons_of_neg (by simpa using Ne.symm (off there))]
      exact ref b q there
    · rw [mine, List.countP_cons_of_pos (by simp), unheld, ← isV]
      exact ⟨rfl, Int.one_pos⟩
  · dsimp only at same
    obtain there | ⟨rfl, _⟩ := (members b q).mp inB <;> obtain there' | ⟨rfl, _⟩ := (members b' q').mp inB'
    · rw [old there, old there'] at same
      exact new b b' q q' there there' same
    · rw [old there, mine, ← isV] at same
      exact absurd same (fresh there)
    · rw [mine, old there', ← isV] at same
      exact absurd same.symm (fresh there')
    · rfl

theorem Inv.free (inv : s.Inv) (member : (c, q) ∈ s.held) :
    Inv { s.freeuqid q with held := s.held.erase (c, q) } := by
  have perm := List.perm_cons_erase member
  have count : ∀ q', s.held.countP (fun h => h.2 = q') =
      (s.held.erase (c, q)).countP (fun h => h.2 = q') + if q = q' then 1 else 0 := fun q' => by
    rw [perm.countP_eq, List.countP_cons]
    simp
  obtain ⟨there, _⟩ := inv.held c q member
  obtain ⟨ref, pos⟩ := inv.ref _ q there
  rw [count q, if_pos rfl] at ref
  have others : ∀ q', q' ≠ q → (s.held.erase (c, q)).countP (fun h => h.2 = q') = s.held.countP (fun h => h.2 = q') :=
    fun q' other => by rw [count q', if_neg (Ne.symm other), Nat.add_zero]
  have known : ∀ c' q', (c', q') ∈ s.held.erase (c, q) → q' ∈ s.qids (uqidhash c'.path) ∧ s.Matches q' c' :=
    fun c' q' inHeld => inv.held c' q' (List.mem_of_mem_erase inHeld)
  unfold freeuqid
  simp only [Function.update_self]
  split
  · rename_i last
    have none : (s.held.erase (c, q)).countP (fun h => h.2 = q) = 0 := by
      omega
    have hash := (inv.place _ q there).2
    rw [hash]
    have left : ∀ {b q'}, q' ∈ Function.update s.qids (uqidhash c.path) ((s.qids (uqidhash c.path)).erase q) b →
        q' ∈ s.qids b ∧ q' ≠ q := fun {b q'} inB => by
      by_cases here : b = uqidhash c.path
      · subst here
        simpa [(inv.once _).mem_erase_iff, and_comm] using inB
      · rw [Function.update_of_ne here] at inB
        refine ⟨inB, ?_⟩
        rintro rfl
        exact here ((inv.place b _ inB).2.symm.trans hash)
    have old : ∀ {q' v}, q' ≠ q → Function.update s.uqid q v q' = s.uqid q' := fun other => Function.update_of_ne other ..
    refine ⟨fun b q' inB => ?_, fun b => ?_, fun c' q' inHeld => ?_, fun b b' q' q'' c' inB inB' => ?_, fun b q' inB => ?_,
      fun b b' q' q'' inB inB' => ?_⟩
    · dsimp only
      rw [old (left inB).2]
      exact inv.place b q' (left inB).1
    · by_cases here : b = uqidhash c.path
      · subst here
        simpa using (inv.once _).erase q
      · simpa [here] using inv.once b
    · have other : q' ≠ q := by
        rintro rfl
        exact List.countP_eq_zero.mp none _ inHeld (by simp)
      obtain ⟨inB, is⟩ := known c' q' inHeld
      refine ⟨?_, by simpa only [Matches, old other] using is⟩
      by_cases here : uqidhash c'.path = uqidhash c.path
      · rw [here] at inB ⊢
        simpa [(inv.once _).mem_erase_iff] using ⟨other, inB⟩
      · simpa [here] using inB
    · simp only [Matches, old (left inB).2, old (left inB').2]
      exact inv.one b b' q' q'' c' (left inB).1 (left inB').1
    · dsimp only
      rw [old (left inB).2, others q' (left inB).2]
      exact inv.ref b q' (left inB).1
    · dsimp only
      rw [old (left inB).2, old (left inB').2]
      exact inv.new b b' q' q'' (left inB).1 (left inB').1
  · rename_i more
    exact inv.count (by omega) (fun _ => by omega) others known

theorem Inv.init : init.Inv := by
  constructor <;> simp [Uqidtab.init]

theorem Inv.exec {a : UAct} (inv : s.Inv) (fits : a.Fits s) (ran : a.exec s = some s') : s'.Inv := by
  cases a with
  | alloc c =>
    obtain ⟨⟨q, s₁⟩, allocated, rfl⟩ := Option.map_eq_some_iff.mp ran
    unfold uqidalloc at allocated
    split at allocated
    · cases allocated
      obtain ⟨there, is⟩ := uqidlook_some ‹_›
      exact inv.incref there is
    · split at allocated
      · contradiction
      · cases allocated
        exact inv.make fits ‹_› (freshLoop_some ‹_›)
  | share c q =>
    simp only [UAct.exec, Option.ite_none_right_eq_some, Option.some.injEq] at ran
    obtain ⟨member, rfl⟩ := ran
    obtain ⟨there, is⟩ := inv.held c q member
    exact inv.incref there is
  | free c q =>
    simp only [UAct.exec, Option.ite_none_right_eq_some, Option.some.injEq] at ran
    obtain ⟨member, rfl⟩ := ran
    exact inv.free member

theorem Inv.ok (inv : s.Inv) : s.Ok := by
  refine ⟨fun c roomy => ?_, fun c q member => ?_, fun q live q' live' same => ?_, fun a inA b inB => ?_⟩
  · obtain ⟨path, isFresh⟩ := Option.isSome_iff_exists.mp (fresh_isSome roomy)
    unfold uqidalloc
    split
    · rfl
    · rw [isFresh]
      rfl
  · unfold uqidalloc
    rw [inv.uqidlook member]
    rfl
  · obtain ⟨b, there⟩ := inv.mem_live.mp live
    obtain ⟨b', there'⟩ := inv.mem_live.mp live'
    exact inv.new b b' q q' there there' same
  · obtain ⟨there, is⟩ := inv.held a.1 a.2 inA
    obtain ⟨there', is'⟩ := inv.held b.1 b.2 inB
    constructor
    · intro same
      have one := inv.new _ _ _ _ there there' same
      obtain ⟨type, dev, path⟩ := is
      obtain ⟨type', dev', path'⟩ := is'
      rw [one] at type dev path
      obtain ⟨⟨_, _, _⟩, _⟩ := a
      obtain ⟨⟨_, _, _⟩, _⟩ := b
      simp_all
    · intro same
      rw [← same] at is' there'
      rw [inv.one _ _ _ _ _ there there' is is']

/-- In every run with device numbers that an `int` holds, entries are for files one to one. -/
theorem uqids_ok (run : Lib.Run UAct.exec UAct.Fits Uqidtab.init s) : s.Ok :=
  (run.invariant Uqidtab.Inv Inv.init fun inv fits ran => inv.exec fits ran).ok

/-- Two files with one path on different devices. -/
theorem uqids_ok_two : ∃ s : Uqidtab, (s.held.map fun h => (s.uqid h.2).newpath) = [generated 1 5, 5] ∧ s.Ok := by
  have run₁ : Lib.Run UAct.exec UAct.Fits Uqidtab.init Uqidtab.init := Lib.Run.start
  have run₂ := run₁.step (a := UAct.alloc ⟨0, 0, 5⟩) (by decide : intUlong (ulongInt 0) = 0) rfl
  have run₃ := run₂.step (a := UAct.alloc ⟨0, 1, 5⟩) (by decide : intUlong (ulongInt 1) = 1) rfl
  exact ⟨_, by decide, uqids_ok run₃⟩

/-- With a device number of 2^31 one file gets two paths. -/
theorem uqids_differ : ∃ s : Uqidtab, Lib.Run UAct.exec (fun _ _ => True) Uqidtab.init s ∧ ¬s.Ok := by
  have run₁ : Lib.Run UAct.exec (fun _ _ => True) Uqidtab.init Uqidtab.init := Lib.Run.start
  have run₂ := run₁.step (a := UAct.alloc ⟨0, 2 ^ 31, 5⟩) trivial rfl
  have run₃ := run₂.step (a := UAct.alloc ⟨0, 2 ^ 31, 5⟩) trivial rfl
  refine ⟨_, run₃, fun ok => ?_⟩
  have unique := ok.unique (⟨0, 2 ^ 31, 5⟩, 0) (by decide) (⟨0, 2 ^ 31, 5⟩, 1) (by decide)
  revert unique
  decide

end Uqidtab

end Inferno.Export
