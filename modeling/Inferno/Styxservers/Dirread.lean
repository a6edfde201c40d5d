import Inferno.Styxservers.Session

namespace Inferno.Styxservers

open Styxlib Styxserver

/-- The bytes that entries take. -/
def size (ds : List Dir) : Int := (ds.map fun d => (packdirsize d : Int)).sum

/-- The entries that fit. -/
def fit : Int → List Dir → List Dir
  | _, [] => []
  | count, d :: ds => if packdirsize d ≤ count then d :: fit (count - packdirsize d) ds else []

/-- The entries from the first that does not end before `moffset`. -/
def skip (moffset : Int) : Int → List Dir → List Dir
  | _, [] => []
  | offset, d :: ds => if offset + packdirsize d < moffset then skip moffset (offset + packdirsize d) ds else d :: ds

/-- The entries as a reply has them. -/
def packed (junk : UInt8) (ds : List Dir) : List UInt8 := ds.flatMap (dirBytes junk)

/-- The navigator's answers about a directory that stays as it is, while its memory is in `T`. -/
structure Serves {σ : Type} (nav : Navigator σ) (path : Int64) (es : List Dir) (T : σ → Prop) : Prop where
  keeps : ∀ t i count, T t → T (nav.readdir t path i count).2
  lists : ∀ t i count, T t → 0 ≤ i → 0 ≤ count →
    (nav.readdir t path i count).1.take count.toNat = (es.drop i.toNat).take count.toNat

/-- The saved offset is the one of the saved index. -/
def Placed (es : List Dir) (place : Int × Int) : Prop := ∃ j ≤ es.length, place = (size (es.take j), (j : Int))

variable {σ : Type} {junk : UInt8} {nav : Navigator σ} {srv srv' : Styxserver σ} {path : Int64} {es ds : List Dir}
  {T : σ → Prop} {t : σ} {c : Fid} {moffset offset count : Int} {d : Dir} {fid tag : Int}

theorem packdirsize_pos (d : Dir) : 0 < packdirsize d := by
  unfold packdirsize STATFIXLEN
  omega

theorem size_nil : size [] = 0 := rfl

theorem size_cons : size (d :: ds) = packdirsize d + size ds := List.sum_cons

theorem size_append {ds' : List Dir} : size (ds ++ ds') = size ds + size ds' := by
  rw [size, List.map_append, List.sum_append]
  rfl

theorem size_nonneg (ds : List Dir) : 0 ≤ size ds := by
  induction ds with
  | nil => exact Int.le_refl 0
  | cons d ds ih =>
    rw [size_cons]
    omega

theorem skip_done (past : moffset ≤ offset) (ds : List Dir) : skip moffset offset ds = ds := by
  cases ds with
  | nil => rfl
  | cons d ds =>
    have pos := packdirsize_pos d
    rw [skip, if_neg (by omega)]

theorem fit_none (ds : List Dir) : fit 0 ds = [] := by
  cases ds with
  | nil => rfl
  | cons d ds =>
    have pos := packdirsize_pos d
    rw [fit, if_neg (by omega)]

/-- Offsets of different entries are different. -/
theorem size_take_inj : ∀ {es : List Dir} {j k : Nat}, j ≤ es.length → k ≤ es.length →
    size (es.take j) = size (es.take k) → j = k
  | [], j, k, less, less', _ => by
    rw [List.length_nil] at less less'
    omega
  | d :: es, 0, 0, _, _, _ => rfl
  | d :: es, 0, k + 1, _, _, same => by
    have pos := packdirsize_pos d
    have rest := size_nonneg (es.take k)
    rw [List.take_zero, List.take_succ_cons, size_nil, size_cons] at same
    omega
  | d :: es, j + 1, 0, _, _, same => by
    have pos := packdirsize_pos d
    have rest := size_nonneg (es.take j)
    rw [List.take_zero, List.take_succ_cons, size_nil, size_cons] at same
    omega
  | d :: es, j + 1, k + 1, less, less', same => by
    rw [List.take_succ_cons, List.take_succ_cons, size_cons, size_cons] at same
    rw [size_take_inj (Nat.le_of_succ_le_succ less) (Nat.le_of_succ_le_succ less') (by omega)]

/-- A scan for the offset of an entry stops at the entry before it. -/
theorem skip_boundary : ∀ {es : List Dir} {k : Nat} {offset : Int}, k ≤ es.length →
    skip (offset + size (es.take k)) offset es = es.drop (k - 1)
  | es, 0, offset, _ => by
    rw [List.take_zero, size_nil, Int.add_zero, skip_done (Int.le_refl _)]
    rfl
  | [], k + 1, _, less => nomatch less
  | d :: es, 1, offset, _ => by
    rw [List.take_succ_cons, List.take_zero, size_cons, size_nil, skip, if_neg (by omega)]
    rfl
  | d :: es, k + 2, offset, less => by
    have rest := size_nonneg ((es.drop 1).take k)
    have later := @skip_boundary es (k + 1) (offset + packdirsize d) (Nat.le_of_succ_le_succ less)
    cases es with
    | nil => nomatch less
    | cons e es =>
      have pos := packdirsize_pos e
      rw [List.take_succ_cons, size_cons] at later
      rw [List.take_succ_cons, List.take_succ_cons, size_cons, size_cons]
      rw [List.drop_one, List.tail_cons] at rest
      rw [skip, if_pos (by omega), ← Int.add_assoc, later]
      rfl

/-- What the loop over a part of the directory does, with the rest of it. -/
theorem readents_spec {len : Nat} (small : len + 64 < 2 ^ 31) (rest : List Dir) : ∀ {ds : List Dir} {r : Reading},
    r.a.length = len → (r.p : Int) + r.count = len → 0 ≤ r.count → ∃ r' stop u v E,
      readents junk moffset ds r = some (r', stop) ∧ ds = u ++ v ∧ r'.offset = r.offset + size u ∧
      r'.index = r.index + u.length ∧ (stop = false → v = [] ∧ (r'.p : Int) + r'.count = len ∧ 0 ≤ r'.count) ∧
      r'.a.length = len ∧ r'.p ≤ len ∧ r'.a.take r'.p = r.a.take r.p ++ packed junk E ∧
      fit r.count (skip moffset r.offset (ds ++ rest)) =
        E ++ if stop then [] else fit r'.count (skip moffset r'.offset rest)
  | [], r, length, room, positive =>
    ⟨r, false, [], [], [], rfl, rfl, (Int.add_zero _).symm, (Int.add_zero _).symm, fun _ => ⟨rfl, room, positive⟩,
      length, by omega, (List.append_nil _).symm, rfl⟩
  | d :: ds, r, length, room, positive => by
    rw [List.cons_append, skip]
    unfold readents
    dsimp only
    by_cases before : r.offset + packdirsize d < moffset
    · rw [if_pos before, if_pos before]
      obtain ⟨r', stop, u, v, E, ran, parts, offset, index, more, length', within, bytes, total⟩ :=
        readents_spec small rest (r := { r with offset := r.offset + packdirsize d, index := r.index + 1 }) length room
          positive
      refine ⟨r', stop, d :: u, v, E, ran, by rw [parts]; rfl, ?_, ?_, more, length', within, bytes, total⟩
      · rw [offset, size_cons]
        dsimp only
        omega
      · rw [index, List.length_cons]
        dsimp only
        omega
    rw [if_neg before, if_neg before, fit]
    by_cases full : r.count - packdirsize d < 0
    · rw [if_pos full, if_neg (by omega)]
      exact ⟨_, true, [], d :: ds, [], rfl, rfl, (Int.add_zero _).symm, (Int.add_zero _).symm,
        fun h => (by cases h), length, by dsimp only; omega, (List.append_nil _).symm, rfl⟩
    rw [if_neg full, if_pos (by omega), packdir_eq d (by omega)]
    have inside : r.p + (dirBytes junk d).length ≤ r.a.length := by
      rw [length_dirBytes]
      omega
    simp only [Option.bind_eq_bind, Option.bind_some, put]
    rw [if_pos inside, Option.bind_some]
    have start : (r.a.take r.p ++ dirBytes junk d ++ r.a.drop (r.p + (dirBytes junk d).length)).take
        (r.p + packdirsize d) = r.a.take r.p ++ dirBytes junk d := by
      have size : (r.a.take r.p ++ dirBytes junk d).length = r.p + packdirsize d := by
        rw [List.length_append, List.length_take, length_dirBytes]
        omega
      rw [← size, List.take_left]
    obtain ⟨r', stop, u, v, E, ran, parts, offset, index, more, length', within, bytes, total⟩ :=
      readents_spec small rest (r := ⟨r.offset + packdirsize d, r.index + 1, r.count - packdirsize d,
        r.p + packdirsize d,
        r.a.take r.p ++ dirBytes junk d ++ r.a.drop (r.p + (dirBytes junk d).length)⟩) (by
          simp only [List.length_append, List.length_take, List.length_drop, length_dirBytes] at inside ⊢
          omega) (by dsimp only; omega) (by dsimp only; omega)
    refine ⟨r', stop, d :: u, v, d :: E, ran, by rw [parts]; rfl, ?_, ?_, more, length', within, ?_, ?_⟩
    · rw [offset, size_cons]
      dsimp only
      omega
    · rw [index, List.length_cons]
      dsimp only
      omega
    · rw [bytes]
      dsimp only
      rw [start, packed, packed, List.flatMap_cons, List.append_assoc]
    · dsimp only at total
      rw [skip_done (by omega)] at total
      rw [total]
      rfl

/-- The loop from a saved place: the entries that fit, from the first that does not end before the offset. -/
theorem dread_spec {len : Nat} (serves : Serves nav path es T) (small : len + 64 < 2 ^ 31) (t : σ) (r : Reading)
    (here : T t) (length : r.a.length = len) (room : (r.p : Int) + r.count = len) (positive : 0 ≤ r.count)
    (placed : Placed es (r.offset, r.index)) : ∃ r' t', dread junk nav path moffset t r = some (r', t') ∧ T t' ∧
      Placed es (r'.offset, r'.index) ∧ r'.p ≤ len ∧
      r'.a.take r'.p = r.a.take r.p ++ packed junk (fit r.count (skip moffset r.offset (es.drop r.index.toNat))) := by
  induction left : r.left moffset using Nat.strong_induction_on generalizing t r with
  | _ k ih =>
    obtain ⟨j, within, place⟩ := placed
    obtain ⟨offset, index⟩ := Prod.mk.inj place
    have unit : ((DIRREADSIZE : Nat) : Int) = 129 := rfl
    have low : 0 ≤ (r.count + DIRREADSIZE - 1).tdiv DIRREADSIZE :=
      Int.tdiv_nonneg (by rw [unit]; omega) (by rw [unit]; decide)
    have some_ : r.count ≠ 0 → (r.count + DIRREADSIZE - 1).tdiv DIRREADSIZE ≠ 0 := fun some_ => by
      rw [unit, Int.tdiv_eq_ediv_of_nonneg (by omega)]
      omega
    unfold dread
    generalize (r.count + DIRREADSIZE - 1).tdiv DIRREADSIZE = times at *
    have kept := serves.keeps t r.index times here
    have listed := serves.lists t r.index times here (by omega) low
    have read : Styxserver.readdir nav t path r.index times =
        ((es.drop r.index.toNat).take times.toNat, (nav.readdir t path r.index times).2) := by
      rw [← listed]
      rfl
    rw [read]
    generalize (nav.readdir t path r.index times).2 = t' at *
    cases chunk : (es.drop r.index.toNat).take times.toNat with
    | nil =>
      refine ⟨r, t', rfl, kept, ⟨j, within, place⟩, by omega, ?_⟩
      have none_ : fit r.count (skip moffset r.offset (es.drop r.index.toNat)) = [] := by
        rcases List.take_eq_nil_iff.mp chunk with zero | nil
        · have empty : r.count = 0 := by
            by_contra more
            have := some_ more
            omega
          rw [empty, fit_none]
        · rw [nil]
          rfl
      rw [none_, packed, List.flatMap_nil, List.append_nil]
    | cons d ds =>
      have whole : es.drop r.index.toNat = (d :: ds) ++ (es.drop r.index.toNat).drop times.toNat := by
        rw [← chunk, List.take_append_drop]
      obtain ⟨r', stop, u, v, E, ran, parts, offset', index', more, length', inside, bytes, total⟩ :=
        @readents_spec junk moffset len small ((es.drop r.index.toNat).drop times.toNat) (d :: ds) r length room
          positive
      rw [← whole] at total
      have ahead : es.drop r.index.toNat = u ++ (v ++ (es.drop r.index.toNat).drop times.toNat) := by
        rw [← List.append_assoc, ← parts]
        exact whole
      have at_ : r.index.toNat = j := by omega
      have next : es.take (j + u.length) = es.take j ++ u := by
        rw [List.take_add, ← at_, ahead, List.take_left]
      have placed' : Placed es (r'.offset, r'.index) := by
        refine ⟨j + u.length, ?_, ?_⟩
        · have size := congrArg List.length ahead
          rw [List.length_drop, List.length_append] at size
          omega
        · rw [next, size_append, offset', index', offset, index]
          rfl
      dsimp only
      split
      · rename_i none_
        rw [ran] at none_
        cases none_
      · rename_i r₁ stopped
        rw [ran] at stopped
        cases stopped
        refine ⟨r', t', rfl, kept, placed', by omega, ?_⟩
        rw [bytes, total, if_pos rfl, List.append_nil]
      · rename_i r₁ on
        rw [ran] at on
        cases on
        obtain ⟨rfl, room', positive'⟩ := more rfl
        obtain ⟨r₂, t₂, done, kept₂, placed₂, inside₂, bytes₂⟩ := ih _
          (left ▸ (readents_left ran).2 (List.cons_ne_nil d ds)) t' r' kept length' room' positive' placed' rfl
        refine ⟨r₂, t₂, done, kept₂, placed₂, inside₂, ?_⟩
        have behind : es.drop r'.index.toNat = (es.drop r.index.toNat).drop times.toNat := by
          have step : r'.index.toNat = r.index.toNat + u.length := by omega
          rw [step, ← List.drop_drop]
          conv => lhs; rw [ahead]
          rw [List.drop_left, List.nil_append]
        rw [bytes₂, bytes, behind, total, if_neg Bool.false_ne_true, packed, packed, packed, List.flatMap_append,
          List.append_assoc]

theorem find_assign {b : Fid} (same : b.fid = c.fid) : ∀ {l : List Fid}, l.find? (·.fid = c.fid) = some c →
    (assign b l).find? (·.fid = c.fid) = some b
  | [], found => nomatch found
  | a :: l, found => by
    unfold assign
    by_cases here : a.fid = b.fid
    · rw [if_pos here]
      exact List.find?_cons_of_pos (decide_eq_true same)
    · rw [if_neg here]
      have other : decide (a.fid = c.fid) = false := decide_eq_false (same ▸ here)
      rw [List.find?_cons, other] at found ⊢
      exact find_assign same found

theorem getfid_setfid {b : Fid} (found : srv.getfid fid = some c) (same : b.fid = c.fid) :
    (srv.setfid b).getfid fid = some b := by
  obtain rfl := getfid_number found
  unfold getfid at found ⊢
  unfold setfid
  simp only [same, Function.update_self]
  exact find_assign same found

/-- `fid` is a directory that was opened, of which some was read. -/
structure Opened (path : Int64) (es : List Dir) (T : σ → Prop) (fid : Int) (srv : Styxserver σ) : Prop where
  session : Session srv
  mem : T srv.t
  placed : ∃ c, srv.getfid fid = some c ∧ c.path = path ∧ Int.land c.qtype QTDIR ≠ 0 ∧ Placed es c.doffset

/-- The entries that a read gives. -/
def entries (es : List Dir) (c : Fid) (offset count : Int) : List Dir :=
  fit count (if offset = c.doffset.1 then skip offset c.doffset.1 (es.drop c.doffset.2.toNat) else skip offset 0 es)

/-- The reply to a read is one of these bytes. -/
def Gives (junk : UInt8) (nav : Navigator σ) (srv : Styxserver σ) (tag fid : Int) (offset : Int64) (count : Int)
    (data : List UInt8) : Prop :=
  ∃ srv' bytes, srv.read junk nav tag fid offset count = some srv' ∧ Rmsg.pack junk ⟨tag, .read data⟩ = some bytes ∧
    srv'.fd = srv.fd ++ [bytes]

theorem opened_error {ename : Str} (opened : Opened path es T fid srv) (short : utflen ename + 73 < 2 ^ 31) :
    ∃ srv', srv.error junk tag ename = some srv' ∧ Opened path es T fid srv' := by
  have size : Rmsg.packedsize ⟨tag, .error ename⟩ = 9 + utflen ename := rfl
  obtain ⟨r, fd, done, -⟩ := @reply_spec _ junk srv (.error ename) tag
    (opened.session.msize.imp And.left And.left) trivial (by omega)
  exact ⟨_, done, ⟨opened.session.inv, opened.session.msize⟩, opened.mem, opened.placed⟩

theorem canread_inr {offset : Int64} (accepts : srv.canread fid offset count = .inr c) : srv.getfid fid = some c ∧
    0 ≤ count ∧ count ≤ srv.msize - IOHDRSZ := by
  unfold canread at accepts
  cases found : srv.getfid fid with
  | none =>
    rw [found] at accepts
    nomatch accepts
  | some b =>
    simp only [found] at accepts
    split at accepts
    · nomatch accepts
    split at accepts
    · nomatch accepts
    split at accepts
    · nomatch accepts
    split at accepts
    · nomatch accepts
    cases accepts
    exact ⟨rfl, by omega, by omega⟩

/-- One read of an open directory. -/
theorem read_spec {offset : Int64} (serves : Serves nav path es T) (opened : Opened path es T fid srv) :
    ∃ srv', srv.read junk nav tag fid offset count = some srv' ∧ Opened path es T fid srv' ∧
      ∀ c, srv.canread fid offset count = .inr c → ∃ bytes,
        Rmsg.pack junk ⟨tag, .read (packed junk (entries es c offset.toInt count))⟩ = some bytes ∧
          srv'.fd = srv.fd ++ [bytes] := by
  unfold Styxserver.read
  cases accepts : srv.canread fid offset count with
  | inl err =>
    have short : utflen err + 73 < 2 ^ 31 := by
      unfold canread at accepts
      repeat' split at accepts
      all_goals
        cases accepts
        try decide
    obtain ⟨srv', done, kept⟩ := @opened_error _ junk _ _ _ _ _ tag _ opened short
    exact ⟨srv', done, kept, fun c no => nomatch no⟩
  | inr c =>
    obtain ⟨found, low, high⟩ := canread_inr accepts
    obtain ⟨c', found', at_, dir, j, within, place⟩ := opened.placed
    cases found.symm.trans found'
    obtain ⟨least, most⟩ := opened.session.agreed found
    have agreed : srv.msize ≠ 0 := by omega
    have header : ((IOHDRSZ : Nat) : Int) = 24 := rfl
    have written {s : Styxserver σ} {data : List UInt8} (session : Session s) (msize : s.msize = srv.msize)
        (fits : (data.length : Int) ≤ count) : ∃ bytes,
          s.reply junk ⟨tag, .read data⟩ = some { s with fd := s.fd ++ [bytes] } ∧
          Rmsg.pack junk ⟨tag, .read data⟩ = some bytes := by
      have size : (Rmsg.mk tag (.read data)).packedsize = 11 + data.length := rfl
      obtain ⟨⟨rtag, rep⟩, fd, done, ⟨bytes, packs, after, -⟩, same, what⟩ := @reply_spec _ junk s (.read data) tag
        (session.msize.imp And.left And.left) trivial (by omega)
      rcases what with ⟨rfl, -⟩ | ⟨long, -⟩
      · cases same
        cases after
        exact ⟨bytes, done, packs⟩
      · have := long (by omega)
        omega
    dsimp only
    rw [if_neg dir]
    by_cases empty : count ≤ 0
    · rw [if_pos empty]
      obtain ⟨bytes, done, packs⟩ := @written srv [] opened.session rfl (by simpa using low)
      refine ⟨_, done, ⟨⟨opened.session.inv, opened.session.msize⟩, opened.mem, opened.placed⟩, fun b same => ?_⟩
      have zero : count = 0 := by omega
      rw [entries, zero, fit_none]
      exact ⟨bytes, packs, rfl⟩
    rw [if_neg empty, newarray, if_pos (by omega), Option.bind_eq_bind, Option.bind_some]
    have start : Placed es (if offset.toInt ≠ c.doffset.1 then ((0 : Int), (0 : Int)) else c.doffset) := by
      split
      · exact ⟨0, Nat.zero_le _, rfl⟩
      · exact ⟨j, within, place⟩
    have from_ : entries es c offset.toInt count = fit count (skip offset.toInt
        (if offset.toInt ≠ c.doffset.1 then ((0 : Int), (0 : Int)) else c.doffset).1
        (es.drop (if offset.toInt ≠ c.doffset.1 then ((0 : Int), (0 : Int)) else c.doffset).2.toNat)) := by
      rw [entries]
      by_cases same : offset.toInt = c.doffset.1
      · rw [if_pos same, if_neg fun no => no same]
      · rw [if_neg same, if_pos same]
        rfl
    generalize (if offset.toInt ≠ c.doffset.1 then ((0 : Int), (0 : Int)) else c.doffset) = place' at start from_
    obtain ⟨offset', index⟩ := place'
    obtain ⟨r, t, ran, kept, placed, inside, bytes⟩ := @dread_spec _ junk nav _ _ _ offset.toInt count.toNat serves
      (by omega) srv.t ⟨offset', index, count, 0, List.replicate count.toNat junk⟩ opened.mem (List.length_replicate ..)
      (by dsimp only; omega) low start
    dsimp only at bytes ⊢
    rw [List.take_zero, List.nil_append, ← from_] at bytes
    have fits : ((r.a.take r.p).length : Int) ≤ count := by
      rw [List.length_take]
      omega
    have session : Session ({ srv with t := t }.setfid { c with doffset := (r.offset, r.index) }) :=
      opened.session.with_t.setfid agreed
    obtain ⟨reply, done, packs⟩ := @written ({ srv with t := t }.setfid { c with doffset := (r.offset, r.index) })
      (r.a.take r.p) session rfl fits
    rw [← at_] at ran
    rw [ran, Option.bind_eq_bind, Option.bind_some]
    refine ⟨_, done, ⟨⟨session.inv, session.msize⟩, kept, ?_⟩, fun b same => ?_⟩
    · exact ⟨{ c with doffset := (r.offset, r.index) }, @getfid_setfid _ { srv with t := t } _ _ _ found rfl, at_, dir,
        placed⟩
    · cases same
      rw [← bytes]
      exact ⟨reply, packs, rfl⟩

/-- Different data are packed differently. -/
theorem read_inj {data data' : List UInt8} {bytes : List UInt8} (first : Rmsg.pack junk ⟨tag, .read data⟩ = some bytes)
    (second : Rmsg.pack junk ⟨tag, .read data'⟩ = some bytes) : data = data' := by
  have one := (Rmsg.pack_eq ⟨tag, .read data⟩ trivial (Rmsg.pack_small trivial first)).symm.trans first
  have two := (Rmsg.pack_eq ⟨tag, .read data'⟩ trivial (Rmsg.pack_small trivial second)).symm.trans second
  have same := Option.some.inj (one.trans two.symm)
  have bodies := (List.append_inj same rfl).2
  exact (List.append_inj bodies rfl).2

/-- Reads of one fid after each other. -/
def reads (junk : UInt8) (nav : Navigator σ) (fid : Int) :
    List (Int × Int64 × Int) → Styxserver σ → Option (Styxserver σ)
  | [], srv => some srv
  | (tag, offset, count) :: ops, srv => do
    let srv ← srv.read junk nav tag fid offset count
    reads junk nav fid ops srv

theorem reads_opened (serves : Serves nav path es T) : ∀ {ops : List (Int × Int64 × Int)} {srv srv' : Styxserver σ},
    Opened path es T fid srv → reads junk nav fid ops srv = some srv' → Opened path es T fid srv'
  | [], srv, srv', opened, ran => by
    cases ran
    exact opened
  | (tag, offset, count) :: ops, srv, srv', opened, ran => by
    obtain ⟨s, done, kept, -⟩ := @read_spec _ junk _ _ _ _ _ count fid tag offset serves opened
    rw [reads, done] at ran
    exact reads_opened serves kept ran

/-- What is read at the boundary of an entry: from there on, or from the entry before where the place was not saved. -/
theorem entries_boundary {k : Nat} (placed : Placed es c.doffset) (inside : k ≤ es.length)
    (boundary : offset = size (es.take k)) :
    entries es c offset count = fit count (es.drop (if offset = c.doffset.1 then k else k - 1)) := by
  obtain ⟨j, within, place⟩ := placed
  have first : c.doffset.1 = size (es.take j) := congrArg Prod.fst place
  have second : c.doffset.2 = (j : Int) := congrArg Prod.snd place
  rw [entries]
  split
  · next same =>
    have here : j = k := size_take_inj within inside (by omega)
    rw [skip_done (Int.le_of_eq same), second, Int.toNat_natCast, here]
  · have scan := @skip_boundary es k 0 inside
    rw [Int.zero_add] at scan
    rw [boundary, scan]

theorem gives_iff {offset : Int64} {data : List UInt8} {k : Nat} (serves : Serves nav path es T)
    (opened : Opened path es T fid srv) (accepts : srv.canread fid offset count = .inr c) (inside : k ≤ es.length)
    (boundary : offset.toInt = size (es.take k)) :
    Gives junk nav srv tag fid offset count data ↔
      data = packed junk (fit count (es.drop (if offset.toInt = c.doffset.1 then k else k - 1))) := by
  obtain ⟨srv', done, -, replies⟩ := @read_spec _ junk _ _ _ _ _ count fid tag offset serves opened
  obtain ⟨bytes, packs, written⟩ := replies c accepts
  obtain ⟨c', found, -, -, placed⟩ := opened.placed
  cases found.symm.trans (canread_inr accepts).1
  rw [entries_boundary placed inside boundary] at packs
  constructor
  · rintro ⟨srv₂, bytes₂, done₂, packs₂, written₂⟩
    cases done.symm.trans done₂
    obtain rfl : bytes = bytes₂ := List.singleton_inj.mp (List.append_cancel_left (written.symm.trans written₂))
    exact read_inj packs₂ packs
  · rintro rfl
    exact ⟨srv', bytes, done, packs, written⟩

/-- Two entries. -/
def two : List Dir := [{ here with name := str "a" }, { here with name := str "b" }]

/-- A navigator of one directory, with these entries. -/
def shelf : Navigator Unit := { stay with readdir := fun _ _ i count => ((two.drop i.toNat).take count.toNat, ()) }

theorem shelf_serves (path : Int64) : Serves shelf path two fun _ => True where
  keeps _ _ _ _ := trivial
  lists _ _ _ _ _ _ := by
    unfold shelf
    rw [List.take_take, Nat.min_self]

/-- Fid 5 has the directory open. -/
def reader : Fid := ⟨5, 1, QTDIR, 1, OREAD, (0, 0), [], [], []⟩

def library : Styxserver Unit :=
  { Styxserver.new () 1 with msize := 8216, fids := fun i => if i = slot 5 then [reader] else [] }

theorem library_session : Session library where
  inv i := by
    unfold library
    dsimp only
    split
    · next same =>
      exact ⟨fun n member => by rw [List.mem_singleton.mp member, same]; rfl, List.pairwise_singleton _ _⟩
    · exact ⟨fun _ member => absurd member List.not_mem_nil, List.nodup_nil⟩
  msize := .inr ⟨by decide, by decide⟩

end Inferno.Styxservers
