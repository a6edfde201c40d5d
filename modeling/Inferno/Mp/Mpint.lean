import Inferno.Mp.Karatsuba

namespace Inferno.Mp

open Lib Mem

/-- An object `mpint`. Its `p` is the start of the block `blk`, and of `flags` there is only `MPstatic`. -/
structure Mpint where
  sign : Int
  size : Nat
  top : Nat
  blk : Nat
  flags : Bool

def Mpint.p (o : Mpint) : Ptr := ⟨o.blk, 0⟩

/-- The objects by their numbers, and the memory of their digits. A new object or block takes the number `next`; `fatal` says
that `sysfatal` was called. -/
structure Store where
  obj : Nat → Mpint
  live : Nat → Bool
  mem : Mem
  next : Nat
  mpmindigits : Nat
  fatal : Bool

def Store.upd (s : Store) (b : Nat) (o : Mpint) : Store := { s with obj := Function.update s.obj b o }

/-- `DIGITS`, of a number of bits. -/
def digits (x : Nat) : Nat := (31 + x) / 32

def mpnew (n : Nat) (s : Store) : Nat × Store :=
  let n := if digits n < s.mpmindigits then s.mpmindigits else digits n
  (s.next, { s with
    obj := Function.update s.obj s.next { sign := 1, size := n, top := 0, blk := s.next, flags := false }
    live := Function.update s.live s.next true
    mem := s.mem.mallocz s.next n
    next := s.next + 1 })

def mpbits (b m : Nat) (s : Store) : Store :=
  let n := digits m
  let o := s.obj b
  if o.size ≥ n then
    if o.top ≥ n then s
    else { s with mem := s.mem.fill (o.p + o.top) (n - o.top) 0 }.upd b { o with top := n }
  else
    let o' := { o with size := n, top := n, blk := s.next }
    { s with mem := (s.mem.realloc o.blk s.next n).fill (o'.p + o.top) (n - o.top) 0, next := s.next + 1 }.upd b o'

def mpfree (b : Nat) (s : Store) : Store :=
  let o := s.obj b
  if o.flags then { s with fatal := true }
  else { s with mem := (s.mem.fill o.p o.size 0).free o.blk, live := Function.update s.live b false }

/-- Where the loop of `mpnorm` stops. -/
def normTop (m : Mem) (p : Ptr) : Nat → Nat
  | 0 => 0
  | n + 1 => if m.word (p + n) ≠ 0 then n + 1 else normTop m p n

def mpnorm (b : Nat) (s : Store) : Store :=
  let o := s.obj b
  let top := normTop s.mem o.p o.top
  s.upd b { o with top := top, sign := if top = 0 then 1 else o.sign }

def mpassign (old new : Nat) (s : Store) : Store :=
  let s := mpbits new (32 * (s.obj old).top) s
  let s := s.upd new { s.obj new with sign := (s.obj old).sign, top := (s.obj old).top }
  { s with mem := s.mem.move (s.obj new).p (s.obj old).p (s.obj old).top }

namespace Store

def mag (s : Store) (b : Nat) : Nat := s.mem.val (s.obj b).p (s.obj b).top

/-- The integer that an object is. -/
def int (s : Store) (b : Nat) : Int := (s.obj b).sign * s.mag b

/-- Each object has a block of its own, of `size` digits. -/
structure Ok (s : Store) : Prop where
  below : ∀ b, s.live b → b < s.next ∧ (s.obj b).blk < s.next
  apart : ∀ b c, s.live b → s.live c → (s.obj b).blk = (s.obj c).blk → b = c
  size : ∀ b, s.live b → s.mem.size (s.obj b).blk = (s.obj b).size
  top : ∀ b, s.live b → (s.obj b).top ≤ (s.obj b).size
  room : ∀ b, s.live b → 0 < (s.obj b).size
  digits : 0 < s.mpmindigits
  safe : s.mem.ok = true
  going : s.fatal = false

/-- The objects outside `R` are as before. -/
structure Frame (R : Nat → Prop) (s s' : Store) : Prop where
  ok : s'.Ok
  next : s.next ≤ s'.next
  live : ∀ b, s.live b → s'.live b
  obj : ∀ b, s.live b → ¬R b → s'.obj b = s.obj b
  word : ∀ b, s.live b → ¬R b → ∀ i < (s.obj b).size, s'.mem.word ((s.obj b).p + i) = s.mem.word ((s.obj b).p + i)

variable {R R' : Nat → Prop} {s s' s'' : Store} {b c n k : Nat} {o : Mpint} {m' : Mem}

theorem Frame.refl (ok : s.Ok) : Frame R s s := ⟨ok, le_rfl, fun _ => id, fun _ _ _ => rfl, fun _ _ _ _ _ => rfl⟩

theorem Frame.trans (first : Frame R s s') (second : Frame R' s' s'') (sub : ∀ b, s.live b → R' b → R b) : Frame R s s'' where
  ok := second.ok
  next := first.next.trans second.next
  live b live := second.live b (first.live b live)
  obj b live out := (second.obj b (first.live b live) fun inR => out (sub b live inR)).trans (first.obj b live out)
  word b live out i less := by
    have same := first.obj b live out
    have later := second.word b (first.live b live) (fun inR => out (sub b live inR)) i (by rw [same]; exact less)
    rw [same] at later
    exact later.trans (first.word b live out i less)

theorem Frame.mono (frame : Frame R' s s') (sub : ∀ b, s.live b → R' b → R b) : Frame R s s' :=
  ⟨frame.ok, frame.next, frame.live, fun b live out => frame.obj b live fun inR => out (sub b live inR),
    fun b live out => frame.word b live fun inR => out (sub b live inR)⟩

theorem Frame.mag (frame : Frame R s s') (ok : s.Ok) (live : s.live b) (out : ¬R b) : s'.mag b = s.mag b := by
  unfold Store.mag
  rw [frame.obj b live out]
  exact val_congr fun i less => frame.word b live out i (less.trans_le (ok.top b live))

theorem Frame.int (frame : Frame R s s') (ok : s.Ok) (live : s.live b) (out : ¬R b) : s'.int b = s.int b := by
  unfold Store.int
  rw [frame.mag ok live out, frame.obj b live out]

@[simp] theorem upd_self : (s.upd b o).obj b = o := Function.update_self ..

theorem upd_of_ne (other : c ≠ b) : (s.upd b o).obj c = s.obj c := Function.update_of_ne other ..

@[simp] theorem upd_mem : (s.upd b o).mem = s.mem := rfl

/-- Other values of the fields, with the same digits. -/
theorem upd_frame (ok : s.Ok) (live : s.live b) (size : o.size = (s.obj b).size) (blk : o.blk = (s.obj b).blk)
    (top : o.top ≤ (s.obj b).size) : Frame (· = b) s (s.upd b o) := by
  have fields : ∀ c, ((s.upd b o).obj c).size = (s.obj c).size ∧ ((s.upd b o).obj c).blk = (s.obj c).blk := fun c => by
    by_cases same : c = b
    · subst same
      rw [upd_self]
      exact ⟨size, blk⟩
    · rw [upd_of_ne same]
      exact ⟨rfl, rfl⟩
  refine ⟨⟨fun c live => ?_, fun c d live live' same => ?_, fun c live => ?_, fun c live => ?_, fun c live => ?_, ok.digits,
    ok.safe, ok.going⟩, le_rfl, fun _ => id, fun c _ out => upd_of_ne out, fun _ _ _ _ _ => rfl⟩
  · rw [(fields c).2]
    exact ok.below c live
  · rw [(fields c).2, (fields d).2] at same
    exact ok.apart c d live live' same
  · rw [(fields c).1, (fields c).2]
    exact ok.size c live
  · by_cases same : c = b
    · subst same
      rw [upd_self, size]
      exact top
    · rw [upd_of_ne same]
      exact ok.top c live
  · rw [(fields c).1]
    exact ok.room c live

/-- Writes of its digits. -/
theorem writes_frame (ok : s.Ok) (live : s.live b) (writes : WritesUnder s.next s.mem m' (s.obj b).p n)
    (le : n ≤ (s.obj b).size) : Frame (· = b) s { s with mem := m' } := by
  refine ⟨⟨ok.below, ok.apart, fun c live => ?_, ok.top, ok.room, ok.digits, ?_, ok.going⟩, le_rfl, fun _ => id,
    fun _ _ _ => rfl, fun c live' out i _ => ?_⟩
  · exact (writes.size _ (ok.below c live).2).trans (ok.size c live)
  · refine (writes.ok ?_).trans ok.safe
    rw [show (s.obj b).p.blk = (s.obj b).blk from rfl, ok.size b live]
    exact (Nat.zero_add n).trans_le le
  · exact writes.word _ (ok.below c live').2 (Or.inl fun same => out (ok.apart c b live' live same))

/-- A new block for the object `c`, which may be new itself. -/
theorem place_frame (ok : s.Ok) (self : s'.obj c = o) (other : ∀ b, b ≠ c → s'.obj b = s.obj b)
    (lives : ∀ b, s'.live b = true ↔ s.live b = true ∨ b = c) (next : s'.next = s.next + 1)
    (rest : s'.mpmindigits = s.mpmindigits ∧ s'.fatal = s.fatal) (below : c ≤ s.next) (blk : o.blk = s.next)
    (size : s'.mem.size s.next = o.size) (top : o.top ≤ o.size) (room : 0 < o.size) (safe : s'.mem.ok = true)
    (sizes : ∀ b, s.live b → b ≠ c → s'.mem.size (s.obj b).blk = s.mem.size (s.obj b).blk)
    (words : ∀ b, s.live b → b ≠ c → ∀ i : Nat, s'.mem.word ((s.obj b).p + i) = s.mem.word ((s.obj b).p + i)) :
    Frame (· = c) s s' := by
  have was : ∀ {b}, s'.live b = true → b ≠ c → s.live b = true := fun live ne => ((lives _).mp live).resolve_right ne
  refine ⟨⟨fun b live => ?_, fun b d live live' same => ?_, fun b live => ?_, fun b live => ?_, fun b live => ?_,
    by rw [rest.1]; exact ok.digits, safe, rest.2.trans ok.going⟩, by lia, fun b live => (lives b).mpr (Or.inl live),
    fun b _ out => other b out, fun b live out i _ => words b live out i⟩
  · by_cases here : b = c
    · subst here
      exact ⟨by lia, by rw [self, blk]; lia⟩
    · have old := ok.below b (was live here)
      exact ⟨by lia, by rw [other b here]; lia⟩
  · by_cases here : b = c <;> by_cases there : d = c
    · rw [here, there]
    · subst here
      rw [self, other d there, blk] at same
      have old := (ok.below d (was live' there)).2
      lia
    · subst there
      rw [self, other b here, blk] at same
      have old := (ok.below b (was live here)).2
      lia
    · rw [other b here, other d there] at same
      exact ok.apart b d (was live here) (was live' there) same
  · by_cases here : b = c
    · subst here
      rw [self, blk]
      exact size
    · rw [other b here]
      exact (sizes b (was live here) here).trans (ok.size b (was live here))
  · by_cases here : b = c
    · subst here
      rw [self]
      exact top
    · rw [other b here]
      exact ok.top b (was live here)
  · by_cases here : b = c
    · subst here
      rw [self]
      exact room
    · rw [other b here]
      exact ok.room b (was live here)

end Store

open Store

variable {s s' : Store} {b c n : Nat}

theorem mpnew_spec (ok : s.Ok) (value : mpnew n s = (c, s')) : Frame (fun _ => False) s s' ∧ s.live c = false ∧ s'.live c ∧
    (s'.obj c).sign = 1 ∧ (s'.obj c).top = 0 ∧ digits n ≤ (s'.obj c).size ∧ (s'.obj c).flags = false ∧
    ∀ i : Nat, s'.mem.word ((s'.obj c).p + i) = 0 := by
  obtain ⟨rfl, rfl⟩ := Prod.mk.inj value
  have fresh : s.live s.next = false := Bool.eq_false_iff.mpr fun live => Nat.lt_irrefl _ (ok.below _ live).1
  have ne : ∀ b, s.live b → (s.obj b).blk ≠ s.next := fun b live => Nat.ne_of_lt (ok.below b live).2
  generalize many : (if digits n < s.mpmindigits then s.mpmindigits else digits n) = k
  have room : 0 < k ∧ digits n ≤ k := by
    have some_ := ok.digits
    rw [← many]
    split <;> omega
  refine ⟨Frame.mono (?_ : Frame (· = s.next) s _) ?_, fresh, Function.update_self .., ?_⟩
  · refine place_frame ok (Function.update_self ..) (fun b => (Function.update_of_ne · ..)) (fun b => ?_) rfl ⟨rfl, rfl⟩ le_rfl
      rfl (Function.update_self ..) (Nat.zero_le _) room.1 ok.safe (fun b live _ => Function.update_of_ne (ne b live) ..)
      fun b live _ i => if_neg (ne b live)
    by_cases here : b = s.next
    · simp [here]
    · simp [here]
  · rintro b live rfl
    rw [fresh] at live
    exact Bool.false_ne_true live
  · dsimp only
    rw [Function.update_self]
    exact ⟨rfl, rfl, room.2, rfl, fun i => if_pos rfl⟩

theorem mpbits_spec (ok : s.Ok) (live : s.live b) : Frame (· = b) s (mpbits b n s) ∧
    ((mpbits b n s).obj b).sign = (s.obj b).sign ∧ ((mpbits b n s).obj b).flags = (s.obj b).flags ∧
    ((mpbits b n s).obj b).top = max (s.obj b).top (digits n) ∧
    (∀ i < (s.obj b).top, (mpbits b n s).mem.word (((mpbits b n s).obj b).p + i) = s.mem.word ((s.obj b).p + i)) ∧
    ∀ i, (s.obj b).top ≤ i → i < digits n → (mpbits b n s).mem.word (((mpbits b n s).obj b).p + i) = 0 := by
  unfold mpbits
  dsimp only
  have top := ok.top b live
  split
  · split
    · exact ⟨Frame.refl ok, rfl, rfl, by lia, fun _ _ => rfl, fun i low high => by lia⟩
    · have filled : Writes s.mem (s.mem.fill ((s.obj b).p + (s.obj b).top) (digits n - (s.obj b).top) 0) (s.obj b).p (digits n) :=
        fill_writes.widen ⟨rfl, by simp, by simp only [Ptr.add_off]; lia⟩
      have frame := writes_frame ok live filled.under (by lia)
      refine ⟨frame.trans (upd_frame frame.ok live rfl rfl (by dsimp only; lia)) fun _ _ => id, ?_⟩
      rw [upd_self]
      refine ⟨rfl, rfl, by dsimp only; lia, fun i less => ?_, fun i low high => ?_⟩
      · refine fill_writes.word _ (Or.inr (Or.inl ?_))
        simp only [Ptr.add_off, Mpint.p]
        lia
      · exact fill_word low (by lia)
  · have ne : ∀ c, s.live c → (s.obj c).blk ≠ s.next := fun c live => Nat.ne_of_lt (ok.below c live).2
    generalize object : ({ s.obj b with size := digits n, top := digits n, blk := s.next } : Mpint) = o
    have blk : o.blk = s.next := by rw [← object]
    have size : o.size = digits n := by rw [← object]
    have newTop : o.top = digits n := by rw [← object]
    generalize grown : s.mem.realloc (s.obj b).blk s.next (digits n) = m₁
    have moved : (∀ c, s.live c → c ≠ b → ∀ i : Nat, m₁.word ((s.obj c).p + i) = s.mem.word ((s.obj c).p + i)) ∧
        (∀ c, s.live c → c ≠ b → m₁.size (s.obj c).blk = s.mem.size (s.obj c).blk) ∧ m₁.size s.next = digits n ∧
        m₁.ok = true ∧ ∀ i < (s.obj b).top, m₁.word (o.p + i) = s.mem.word ((s.obj b).p + i) := by
      rw [← grown]
      refine ⟨fun c live other i => ?_, fun c live' other => ?_, Function.update_self .., ?_, fun i less => ?_⟩
      · exact move_writes.word _ (Or.inl (ne c live))
      · exact (Function.update_of_ne (ne c live') ..).trans
          (Function.update_of_ne (fun same => other (ok.apart c b live' live same)) ..)
      · simp [realloc, move, put, ok.safe]
      · rw [Mpint.p, blk]
        exact realloc_word (by rw [ok.size b live]; lia)
    obtain ⟨words, sizes, here, safe, low⟩ := moved
    have filled : Writes m₁ (m₁.fill (o.p + (s.obj b).top) (digits n - (s.obj b).top) 0) o.p (digits n) :=
      fill_writes.widen ⟨rfl, by simp, by simp only [Ptr.add_off]; lia⟩
    have outside : ∀ q : Ptr, q.blk ≠ s.next → q.blk ≠ o.p.blk := fun q ne => by rwa [Mpint.p, blk]
    refine ⟨place_frame ok (Function.update_self ..) (fun c => (Function.update_of_ne · ..)) (fun c => ?_) rfl ⟨rfl, rfl⟩
      (ok.below b live).1.le blk ?_ (by lia) (by lia) ((filled.ok ?_).trans safe) (fun c live other => ?_)
      fun c live other i => ?_, ?_⟩
    · exact ⟨Or.inl, fun lives => lives.elim id fun same => same ▸ live⟩
    · exact (congrFun filled.size _).trans (here.trans size.symm)
    · rw [show o.p.blk = s.next from blk, here]
      exact (Nat.zero_add _).le
    · exact (congrFun filled.size _).trans (sizes c live other)
    · exact (filled.word _ (Or.inl (outside _ (ne c live)))).trans (words c live other i)
    · rw [upd_self]
      refine ⟨by rw [← object], by rw [← object], by lia, fun i less => ?_, fun i low high => fill_word low (by lia)⟩
      refine (fill_writes.word _ (Or.inr (Or.inl ?_))).trans (low i less)
      simp only [Ptr.add_off]
      lia

theorem mpfree_spec (ok : s.Ok) (live : s.live c) (flags : (s.obj c).flags = false) : (mpfree c s).Ok ∧
    (mpfree c s).obj = s.obj ∧ (mpfree c s).next = s.next ∧ (∀ b, b ≠ c → s.live b → (mpfree c s).live b) ∧
    ∀ b, b ≠ c → s.live b → ∀ i : Nat, (mpfree c s).mem.word ((s.obj b).p + i) = s.mem.word ((s.obj b).p + i) := by
  unfold mpfree
  rw [if_neg (by rw [flags]; exact Bool.false_ne_true)]
  have filled : Writes s.mem (s.mem.fill (s.obj c).p (s.obj c).size 0) (s.obj c).p (s.obj c).size := fill_writes
  have was : ∀ {b}, Function.update s.live c false b = true → b ≠ c ∧ s.live b = true := fun {b} live => by
    rw [Function.update_apply] at live
    split at live
    · exact absurd live Bool.false_ne_true
    · rename_i ne
      exact ⟨ne, live⟩
  refine ⟨⟨fun b live => ok.below b (was live).2, fun b d live live' => ok.apart b d (was live).2 (was live').2,
    fun b live' => ?_, fun b live => ok.top b (was live).2, fun b live => ok.room b (was live).2, ok.digits, ?_, ok.going⟩, rfl, rfl,
    fun b ne live => ?_, fun b ne live' i => ?_⟩
  · obtain ⟨ne, live'⟩ := was live'
    refine (Function.update_of_ne (fun same => ne (ok.apart b c live' live same)) ..).trans ?_
    exact (congrFun filled.size _).trans (ok.size b live')
  · refine (filled.ok ?_).trans ok.safe
    rw [show (s.obj c).p.blk = (s.obj c).blk from rfl, ok.size c live]
    exact (Nat.zero_add _).le
  · exact (Function.update_of_ne ne ..).trans live
  · exact filled.word _ (Or.inl fun same => ne (ok.apart b c live' live same))

/-- An object made meanwhile is freed. -/
theorem Store.Frame.free {R : Nat → Prop} (frame : Frame R s s') (fresh : s.live c = false) (live : s'.live c)
    (flags : (s'.obj c).flags = false) : Frame R s (mpfree c s') := by
  obtain ⟨ok, obj, next, lives, words⟩ := mpfree_spec frame.ok live flags
  have ne : ∀ b, s.live b → b ≠ c := by
    rintro b old rfl
    rw [fresh] at old
    exact Bool.false_ne_true old
  refine ⟨ok, frame.next.trans next.ge, fun b live => lives b (ne b live) (frame.live b live), fun b live out => ?_,
    fun b live out i less => ?_⟩
  · rw [obj]
    exact frame.obj b live out
  · have same := words b (ne b live) (frame.live b live) i
    rw [frame.obj b live out] at same
    exact same.trans (frame.word b live out i less)

theorem mpfree_int (ok : s.Ok) (live : s.live c) (flags : (s.obj c).flags = false) (other : b ≠ c) (there : s.live b) :
    (mpfree c s).int b = s.int b := by
  obtain ⟨-, obj, -, -, words⟩ := mpfree_spec ok live flags
  unfold Store.int Store.mag
  rw [obj, val_congr fun i _ => words b other there i]

theorem normTop_spec {m : Mem} {p : Ptr} : normTop m p n ≤ n ∧ m.val p (normTop m p n) = m.val p n ∧
    (∀ i, normTop m p n = i + 1 → m.word (p + i) ≠ 0) ∧ (normTop m p n = 0 ↔ m.val p n = 0) := by
  induction n with
  | zero => exact ⟨le_rfl, rfl, fun i no => absurd no (Nat.succ_ne_zero i).symm, Iff.rfl⟩
  | succ n ih =>
    obtain ⟨le, value, above, zero⟩ := ih
    have power := Nat.two_pow_pos (32 * n)
    unfold normTop
    split
    · rename_i some_
      refine ⟨le_rfl, rfl, fun i same => Nat.succ.inj same ▸ some_, fun no => absurd no (Nat.succ_ne_zero n), fun no => ?_⟩
      rw [val_succ] at no
      have high : 2 ^ (32 * n) * (m.word (p + n)).toNat = 0 := by omega
      exact absurd (UInt32.toNat_inj.mp ((Nat.mul_eq_zero.mp high).resolve_left power.ne')) some_
    · rename_i none_
      have top : m.val p (n + 1) = m.val p n := by rw [val_succ, not_not.mp none_]; rfl
      rw [top]
      exact ⟨Nat.le_succ_of_le le, value, above, zero⟩

/-- Its top digit is not 0, and 0 has the sign 1. -/
def Store.Canonical (s : Store) (b : Nat) : Prop :=
  (∀ i, (s.obj b).top = i + 1 → s.mem.word ((s.obj b).p + i) ≠ 0) ∧ ((s.obj b).top = 0 → (s.obj b).sign = 1)

theorem mpnorm_spec (ok : s.Ok) (live : s.live b) : Frame (· = b) s (mpnorm b s) ∧ (mpnorm b s).Canonical b ∧
    (mpnorm b s).mag b = s.mag b ∧ ((mpnorm b s).obj b).sign = (if s.mag b = 0 then 1 else (s.obj b).sign) ∧
    ((mpnorm b s).obj b).flags = (s.obj b).flags := by
  obtain ⟨le, value, above, zero⟩ := normTop_spec (n := (s.obj b).top) (m := s.mem) (p := (s.obj b).p)
  unfold mpnorm
  refine ⟨upd_frame ok live rfl rfl (le.trans (ok.top b live)), ?_, ?_, ?_, ?_⟩
  · unfold Canonical
    rw [upd_self]
    exact ⟨above, fun none_ => if_pos none_⟩
  · unfold mag
    rw [upd_self]
    exact value
  · rw [upd_self]
    exact if_congr zero rfl rfl
  · rw [upd_self]

theorem mpnorm_int (ok : s.Ok) (live : s.live b) : (mpnorm b s).int b = s.int b := by
  obtain ⟨-, -, mag, sign, -⟩ := mpnorm_spec ok live
  unfold Store.int
  rw [mag, sign]
  split
  · rename_i zero
    rw [zero]
    simp
  · rfl

@[simp] theorem digits_mul (n : Nat) : digits (32 * n) = n := by
  unfold digits
  lia

theorem mpassign_spec (ok : s.Ok) (liveOld : s.live b) (liveNew : s.live c) : Frame (· = c) s (mpassign b c s) ∧
    ((mpassign b c s).obj c).sign = (s.obj b).sign ∧ ((mpassign b c s).obj c).top = (s.obj b).top ∧
    ((mpassign b c s).obj c).flags = (s.obj c).flags ∧
    ∀ i < (s.obj b).top, (mpassign b c s).mem.word (((mpassign b c s).obj c).p + i) = s.mem.word ((s.obj b).p + i) := by
  unfold mpassign
  dsimp only
  obtain ⟨frame, sign, flags, top, low, -⟩ := mpbits_spec (n := 32 * (s.obj b).top) ok liveNew
  generalize mpbits c (32 * (s.obj b).top) s = s₁ at frame sign flags top low ⊢
  rw [digits_mul] at top
  have live₁ := frame.live c liveNew
  have room := frame.ok.top c live₁
  -- the fields and the digits of `b` are as they were, also if it is `c`
  have here : (s₁.obj b).sign = (s.obj b).sign ∧ (s₁.obj b).top = (s.obj b).top ∧
      ∀ i < (s.obj b).top, s₁.mem.word ((s₁.obj b).p + i) = s.mem.word ((s.obj b).p + i) := by
    by_cases same : b = c
    · subst same
      exact ⟨sign, by lia, low⟩
    · rw [frame.obj b liveOld same]
      exact ⟨rfl, rfl, fun i less => frame.word b liveOld same i (less.trans_le (ok.top b liveOld))⟩
  obtain ⟨sign', top', words⟩ := here
  generalize object : ({ s₁.obj c with sign := (s₁.obj b).sign, top := (s₁.obj b).top } : Mpint) = o
  have fields : o.sign = (s.obj b).sign ∧ o.top = (s.obj b).top ∧ o.size = (s₁.obj c).size ∧ o.blk = (s₁.obj c).blk ∧
      o.flags = (s.obj c).flags := by
    rw [← object]
    exact ⟨sign', top', rfl, rfl, flags⟩
  obtain ⟨oSign, oTop, oSize, oBlk, oFlags⟩ := fields
  have frame₂ := upd_frame frame.ok live₁ oSize oBlk (by lia)
  generalize upd : s₁.upd c o = s₂ at frame₂ ⊢
  have object₂ : s₂.obj c = o := by rw [← upd, upd_self]
  have source : (s₂.obj b).top = (s.obj b).top ∧ (s₂.obj b).p = (s₁.obj b).p ∧ s₂.mem = s₁.mem := by
    refine ⟨?_, ?_, by rw [← upd]; rfl⟩
    all_goals by_cases same : b = c
    · rw [same, object₂, oTop, same]
    · rw [frame₂.obj b (frame.live b liveOld) same, top']
    · rw [same, object₂, Mpint.p, Mpint.p, oBlk]
    · rw [frame₂.obj b (frame.live b liveOld) same]
  obtain ⟨many, place, mem⟩ := source
  rw [object₂, many, place, mem]
  have moved : Writes s₂.mem (s₁.mem.move o.p (s₁.obj b).p (s.obj b).top) (s₂.obj c).p (s.obj b).top := by
    rw [object₂, mem]
    exact move_writes
  refine ⟨(frame.trans frame₂ fun _ _ => id).trans (writes_frame frame₂.ok (frame₂.live c live₁) moved.under ?_) fun _ _ => id,
    oSign, oTop, oFlags, fun i less => (put_word less).trans (words i less)⟩
  rw [object₂]
  lia

theorem mpassign_int (ok : s.Ok) (liveOld : s.live b) (liveNew : s.live c) : (mpassign b c s).int c = s.int b := by
  obtain ⟨-, sign, top, -, words⟩ := mpassign_spec ok liveOld liveNew
  unfold Store.int Store.mag
  rw [sign, top, val_words words]

end Inferno.Mp
