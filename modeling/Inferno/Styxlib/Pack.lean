import Inferno.Styxlib.Codec

namespace Inferno.Styxlib

open Strings

variable {α : Type} {a d w : List UInt8} {o n left : Nat} {s : Str} {junk : UInt8}

def le16 (v : Int) : List UInt8 := [byte v, byte (v >>> (8 : Nat))]

def le32 (v : Int) : List UInt8 := [byte v, byte (v >>> (8 : Nat)), byte (v >>> (16 : Nat)), byte (v >>> (24 : Nat))]

def le64 (b : Int64) : List UInt8 := le32 b.toInt ++ le32 (b.toInt >>> (32 : Nat))

def qidBytes (q : Qid) : List UInt8 := [byte q.qtype] ++ le32 q.vers ++ le64 q.path

def strBytes (junk : UInt8) (s : Str) : List UInt8 := le16 (cvtca junk s).length ++ cvtca junk s

def dirBytes (junk : UInt8) (f : Dir) : List UInt8 :=
  le16 (packdirsize f - LEN) ++ le16 f.dtype ++ le32 f.dev ++ qidBytes f.qid ++ le32 f.mode ++ le32 f.atime ++ le32 f.mtime ++
    le64 f.length ++ strBytes junk f.name ++ strBytes junk f.uid ++ strBytes junk f.gid ++ strBytes junk f.muid

@[simp] theorem length_le16 (v : Int) : (le16 v).length = 2 := rfl

@[simp] theorem length_le32 (v : Int) : (le32 v).length = 4 := rfl

@[simp] theorem length_le64 (b : Int64) : (le64 b).length = 8 := rfl

@[simp] theorem length_qidBytes (q : Qid) : (qidBytes q).length = QID := rfl

/-- The count of the loop is the sum of the lengths. -/
theorem utflen_eq (s : Str) : utflen s = runenlen s := by
  have fold : ∀ (s : Str) (n : Nat), s.foldl (fun n c => if c > 0x7F then if c > 0x7FF then if c > 0xFFFF then n + 3 else n + 2
      else n + 1 else n) (n + s.length) = n + runenlen s := fun s => by
    induction s with
    | nil => exact fun n => rfl
    | cons c s ih =>
      intro n
      unfold runenlen at ih ⊢
      have one : runeX 0 = 127 := rfl
      have two : runeX 2 = 2047 := rfl
      have three : runeX 3 = 65535 := rfl
      have four : utfmax = 4 := rfl
      have step : (if c > 0x7F then if c > 0x7FF then if c > 0xFFFF then n + (c :: s).length + 3 else n + (c :: s).length + 2
          else n + (c :: s).length + 1 else n + (c :: s).length) = n + runelen c + s.length := by
        unfold runelen
        rw [List.length_cons, one, two, three, four]
        by_cases c ≤ 127
        · rw [if_neg (by omega), if_pos (by omega)]
          omega
        by_cases c ≤ 2047
        · rw [if_pos (by omega), if_neg (by omega), if_neg (by omega), if_pos (by omega)]
          omega
        by_cases c ≤ 65535
        · rw [if_pos (by omega), if_pos (by omega), if_neg (by omega), if_neg (by omega), if_neg (by omega), if_pos (by omega)]
          omega
        · rw [if_pos (by omega), if_pos (by omega), if_pos (by omega), if_neg (by omega), if_neg (by omega), if_neg (by omega)]
          omega
      rw [List.foldl_cons, step, ih, List.map_cons, List.sum_cons, Nat.add_assoc]
  have total := fold s 0
  rw [Nat.zero_add, Nat.zero_add] at total
  exact total

@[simp] theorem length_strBytes (junk : UInt8) (s : Str) : (strBytes junk s).length = STR + utflen s := by
  unfold strBytes
  rw [List.length_append, length_le16, length_cvtca, utflen_eq]
  rfl

@[simp] theorem length_dirBytes (junk : UInt8) (f : Dir) : (dirBytes junk f).length = packdirsize f := by
  unfold dirBytes packdirsize
  simp only [List.length_append, length_le16, length_le32, length_le64, length_qidBytes, length_strBytes]
  simp only [STATFIXLEN, STR]
  omega

/-- The array holds `w` and has room for `left` more bytes. -/
def At (d w : List UInt8) (left : Nat) : Prop := ∃ rest, d = w ++ rest ∧ rest.length = left

theorem At.eq (here : At d w 0) : d = w := by
  obtain ⟨rest, whole, none_⟩ := here
  rw [whole, List.length_eq_zero_iff.mp none_, List.append_nil]

/-- The next bytes are stored, before the rest of a function. -/
theorem put_then {bytes : List UInt8} {k : List UInt8 → Option α} {r : Option α} (here : At d w (bytes.length + left))
    (place : o = w.length) (next : ∀ d', At d' (w ++ bytes) left → k d' = r) : (put d o bytes >>= k) = r := by
  obtain ⟨rest, whole, length⟩ := here
  subst whole place
  unfold put
  rw [if_pos (by rw [List.length_append]; omega)]
  refine next _ ⟨rest.drop bytes.length, ?_, ?_⟩
  · rw [List.take_left, List.drop_append, List.drop_eq_nil_of_le (Nat.le_add_right ..), Nat.add_sub_cancel_left, List.nil_append]
  · rw [List.length_drop]
    omega

theorem p16_then {v : Int} {k : List UInt8 → Option α} {r : Option α} (here : At d w (2 + left)) (place : o = w.length)
    (next : ∀ d', At d' (w ++ le16 v) left → k d' = r) : (p16 d o v >>= k) = r :=
  @put_then _ _ _ _ _ (le16 v) _ _ here place next

theorem p32_then {v : Int} {k : List UInt8 → Option α} {r : Option α} (here : At d w (4 + left)) (place : o = w.length)
    (next : ∀ d', At d' (w ++ le32 v) left → k d' = r) : (p32 d o v >>= k) = r :=
  @put_then _ _ _ _ _ (le32 v) _ _ here place next

theorem p64_then {b : Int64} {k : List UInt8 → Option α} {r : Option α} (here : At d w (8 + left)) (place : o = w.length)
    (next : ∀ d', At d' (w ++ le64 b) left → k d' = r) : (p64 d o b >>= k) = r := by
  unfold p64
  rw [bind_assoc]
  refine @p32_then _ _ _ _ (4 + left) _ _ _ (by rwa [← Nat.add_assoc]) place fun d₁ at₁ => ?_
  refine p32_then at₁ (by simp [place]) fun d₂ at₂ => next d₂ ?_
  rwa [List.append_assoc] at at₂

theorem pqid_then {q : Qid} {k : List UInt8 → Option α} {r : Option α} (here : At d w (QID + left)) (place : o = w.length)
    (next : ∀ d', At d' (w ++ qidBytes q) left → k d' = r) : (pqid d o q >>= k) = r := by
  unfold pqid
  simp only [bind_assoc]
  refine @put_then _ _ _ _ (12 + left) _ _ _ (by rwa [List.length_singleton, ← Nat.add_assoc]) place fun d₁ at₁ => ?_
  refine @p32_then _ _ _ _ (8 + left) _ _ _ (by rwa [← Nat.add_assoc]) (by simp [place]) fun d₂ at₂ => ?_
  refine p64_then at₂ (by simp [place]) fun d₃ at₃ => next d₃ ?_
  simpa only [qidBytes, List.append_assoc] using at₃

theorem pstring_then {k : List UInt8 × Nat → Option α} {r : Option α} (here : At d w (STR + utflen s + left))
    (place : o = w.length)
    (next : ∀ d', At d' (w ++ strBytes junk s) left → k (d', (w ++ strBytes junk s).length) = r) :
    (pstring junk d o s >>= k) = r := by
  have length : (cvtca junk s).length = utflen s := by rw [length_cvtca, utflen_eq]
  unfold pstring
  simp only [bind_assoc]
  refine @p16_then _ _ _ _ ((cvtca junk s).length + left) _ _ _ (by
    rw [length, ← Nat.add_assoc]
    exact here) place fun d₁ at₁ => ?_
  refine put_then at₁ (by simp [place]) fun d₂ at₂ => ?_
  have after := next d₂ (by rwa [List.append_assoc] at at₂)
  rw [List.length_append, length_strBytes, ← place] at after
  rw [length, pure_bind, Nat.add_assoc]
  exact after

theorem newarray_then {k : List UInt8 → Option α} {r : Option α} (small : n + 64 < 2 ^ 31)
    (next : ∀ d, At d [] n → k d = r) : (newarray junk n >>= k) = r := by
  unfold newarray
  rw [if_pos small]
  exact next _ ⟨_, rfl, List.length_replicate⟩

/-- `packdir` fills its array. -/
theorem packdir_eq (f : Dir) (small : packdirsize f + 64 < 2 ^ 31) : packdir junk f = some (dirBytes junk f) := by
  have total : packdirsize f = 2 + (2 + (4 + (QID + (4 + (4 + (4 + (8 + (STR + utflen f.name + (STR + utflen f.uid +
      (STR + utflen f.gid + (STR + utflen f.muid + 0))))))))))) := by
    simp only [packdirsize, STATFIXLEN, STR]
    omega
  unfold packdir
  dsimp only
  refine newarray_then small fun d at_ => ?_
  rw [total] at at_
  refine p16_then at_ rfl fun d at_ => ?_
  refine p16_then at_ rfl fun d at_ => ?_
  refine p32_then at_ rfl fun d at_ => ?_
  refine pqid_then at_ rfl fun d at_ => ?_
  refine p32_then at_ rfl fun d at_ => ?_
  refine p32_then at_ rfl fun d at_ => ?_
  refine p32_then at_ rfl fun d at_ => ?_
  refine p64_then at_ rfl fun d at_ => ?_
  refine pstring_then at_ rfl fun d at_ => ?_
  refine pstring_then at_ rfl fun d at_ => ?_
  refine pstring_then at_ rfl fun d at_ => ?_
  refine pstring_then at_ rfl fun d at_ => ?_
  dsimp only
  rw [at_.eq, if_neg (not_not.mpr rfl), List.nil_append]
  rfl

theorem put_last {bytes : List UInt8} (here : At d w bytes.length) (place : o = w.length) : put d o bytes = some (w ++ bytes) := by
  have filled := @put_then _ _ _ _ 0 _ pure (some (w ++ bytes)) here place fun d' at_ => congrArg some at_.eq
  rwa [bind_pure] at filled

theorem p16_last {v : Int} (here : At d w 2) (place : o = w.length) : p16 d o v = some (w ++ le16 v) :=
  @put_last _ _ _ (le16 v) here place

theorem p32_last {v : Int} (here : At d w 4) (place : o = w.length) : p32 d o v = some (w ++ le32 v) :=
  @put_last _ _ _ (le32 v) here place

theorem pqid_last {q : Qid} (here : At d w QID) (place : o = w.length) : pqid d o q = some (w ++ qidBytes q) := by
  have filled := @pqid_then _ _ _ _ 0 q pure (some (w ++ qidBytes q)) here place fun d' at_ =>
    congrArg some at_.eq
  rwa [bind_pure] at filled

/-- What the messages hold after their type and tag. -/
def Treq.body (junk : UInt8) : Treq → List UInt8
  | readerror _ => []
  | version msize ver => le32 msize ++ strBytes junk ver
  | auth afid uname aname => le32 afid ++ strBytes junk uname ++ strBytes junk aname
  | attach fid afid uname aname => le32 fid ++ le32 afid ++ strBytes junk uname ++ strBytes junk aname
  | flush oldtag => le16 oldtag
  | walk fid newfid names => le32 fid ++ le32 newfid ++ le16 names.length ++ names.flatMap (strBytes junk)
  | open_ fid mode => le32 fid ++ [byte mode]
  | create fid name perm mode => le32 fid ++ strBytes junk name ++ le32 perm ++ [byte mode]
  | read fid offset count => le32 fid ++ le64 offset ++ le32 count
  | write fid offset data => le32 fid ++ le64 offset ++ le32 data.length ++ data
  | clunk fid => le32 fid
  | stat fid => le32 fid
  | remove fid => le32 fid
  | wstat fid dir => le32 fid ++ le16 (packdirsize dir) ++ dirBytes junk dir

def Rrep.body (junk : UInt8) : Rrep → List UInt8
  | readerror _ => []
  | version msize ver => le32 msize ++ strBytes junk ver
  | auth aqid => qidBytes aqid
  | attach qid => qidBytes qid
  | flush => []
  | error ename => strBytes junk ename
  | clunk => []
  | remove => []
  | wstat => []
  | walk qids => le16 qids.length ++ qids.flatMap qidBytes
  | create qid iounit => qidBytes qid ++ le32 iounit
  | open_ qid iounit => qidBytes qid ++ le32 iounit
  | read data => le32 data.length ++ data
  | write count => le32 count
  | stat dir => le16 (packdirsize dir) ++ dirBytes junk dir

def hdrBytes (ds mtype : Nat) (tag : Int) : List UInt8 := le32 ds ++ [byte mtype] ++ le16 tag

@[simp] theorem length_hdrBytes (ds mtype : Nat) (tag : Int) : (hdrBytes ds mtype tag).length = H := rfl

theorem length_names (names : List Str) : (names.flatMap (strBytes junk)).length = (names.map fun name => STR + utflen name).sum := by
  rw [List.length_flatMap]
  exact congrArg List.sum (List.map_congr_left fun name _ => length_strBytes junk name)

theorem length_qids (qids : List Qid) : (qids.flatMap qidBytes).length = QID * qids.length := by
  induction qids with
  | nil => rfl
  | cons q qids ih => rw [List.flatMap_cons, List.length_append, ih, length_qidBytes, List.length_cons, Nat.mul_succ, Nat.add_comm]

theorem size_names (names : List Str) (n : Nat) :
    names.foldl (fun ml name => ml + (STR + utflen name)) n = n + (names.map fun name => STR + utflen name).sum := by
  induction names generalizing n with
  | nil => rfl
  | cons name names ih => rw [List.foldl_cons, ih, List.map_cons, List.sum_cons, Nat.add_assoc]

/-- The messages that are sent. -/
def Treq.Real : Treq → Prop
  | readerror _ => False
  | _ => True

def Rrep.Real : Rrep → Prop
  | readerror _ => False
  | _ => True

theorem Tmsg.packedsize_eq (t : Tmsg) (real : t.req.Real) : t.packedsize = H + (t.req.body junk).length := by
  obtain ⟨tag, req⟩ := t
  cases req with
  | readerror error => nomatch real
  | walk fid newfid names =>
    have size : (Tmsg.mk tag (.walk fid newfid names)).packedsize =
        names.foldl (fun ml name => ml + (STR + utflen name)) (H + FID + FID + LEN) := rfl
    rw [size, size_names, Treq.body, List.length_append, length_names, ← Nat.add_assoc]
    rfl
  | wstat fid stat =>
    have size : (Tmsg.mk tag (.wstat fid stat)).packedsize = H + FID + LEN + packdirsize stat := rfl
    rw [size, Treq.body, List.length_append, length_dirBytes]
    simp only [List.length_append, length_le32, length_le16, FID, LEN]
    omega
  | write fid offset data =>
    have size : (Tmsg.mk tag (.write fid offset data)).packedsize = H + FID + OFFSET + COUNT + data.length := rfl
    rw [size, Treq.body]
    simp only [List.length_append, length_le32, length_le64, FID, OFFSET, COUNT]
    omega
  | version msize version =>
    have size : (Tmsg.mk tag (.version msize version)).packedsize = H + COUNT + STR + utflen version := rfl
    rw [size, Treq.body]
    simp only [List.length_append, length_le32, length_strBytes, COUNT]
    omega
  | auth afid uname aname =>
    have size : (Tmsg.mk tag (.auth afid uname aname)).packedsize = H + FID + STR + STR + (utflen uname + utflen aname) := rfl
    rw [size, Treq.body]
    simp only [List.length_append, length_le32, length_strBytes, FID]
    omega
  | attach fid afid uname aname =>
    have size : (Tmsg.mk tag (.attach fid afid uname aname)).packedsize =
        H + FID + FID + STR + STR + (utflen uname + utflen aname) := rfl
    rw [size, Treq.body]
    simp only [List.length_append, length_le32, length_strBytes, FID]
    omega
  | create fid name perm mode =>
    have size : (Tmsg.mk tag (.create fid name perm mode)).packedsize = H + FID + STR + BIT32SZ + BIT8SZ + utflen name := rfl
    rw [size, Treq.body]
    simp only [List.length_append, length_le32, length_strBytes, List.length_singleton, FID, BIT32SZ, BIT8SZ]
    omega
  | flush oldtag => rfl
  | open_ fid mode => rfl
  | read fid offset count => rfl
  | clunk fid => rfl
  | stat fid => rfl
  | remove fid => rfl

theorem Rmsg.packedsize_eq (r : Rmsg) (real : r.rep.Real) : r.packedsize = H + (r.rep.body junk).length := by
  obtain ⟨tag, rep⟩ := r
  cases rep with
  | readerror error => nomatch real
  | version msize version =>
    have size : (Rmsg.mk tag (.version msize version)).packedsize = H + COUNT + STR + utflen version := rfl
    rw [size, Rrep.body]
    simp only [List.length_append, length_le32, length_strBytes, COUNT]
    omega
  | error ename =>
    have size : (Rmsg.mk tag (.error ename)).packedsize = H + STR + utflen ename := rfl
    rw [size, Rrep.body, length_strBytes, Nat.add_assoc]
  | walk qids =>
    have size : (Rmsg.mk tag (.walk qids)).packedsize = H + LEN + QID * qids.length := rfl
    rw [size, Rrep.body, List.length_append, length_qids, Nat.add_assoc]
    rfl
  | read data =>
    have size : (Rmsg.mk tag (.read data)).packedsize = H + COUNT + data.length := rfl
    rw [size, Rrep.body, List.length_append, Nat.add_assoc]
    rfl
  | stat stat =>
    have size : (Rmsg.mk tag (.stat stat)).packedsize = H + LEN + packdirsize stat := rfl
    rw [size, Rrep.body, List.length_append, length_dirBytes, Nat.add_assoc]
    rfl
  | auth aqid => rfl
  | attach qid => rfl
  | flush => rfl
  | clunk => rfl
  | remove => rfl
  | wstat => rfl
  | create qid iounit => rfl
  | open_ qid iounit => rfl
  | write count => rfl

theorem packhdr_then {ds mtype : Nat} {tag : Int} {k : List UInt8 → Option α} {r : Option α} (small : ds + 64 < 2 ^ 31)
    (enough : ds = H + left) (next : ∀ d, At d (hdrBytes ds mtype tag) left → k d = r) : (packhdr junk ds mtype tag >>= k) = r := by
  unfold packhdr
  simp only [bind_assoc]
  refine newarray_then small fun d at_ => ?_
  rw [show At d [] ds = At d [] (4 + (1 + (2 + left))) by rw [enough, H]; congr 1; omega] at at_
  refine p32_then at_ rfl fun d at_ => ?_
  refine put_then at_ rfl fun d at_ => ?_
  refine p16_then at_ rfl fun d at_ => ?_
  exact next d (by rwa [List.nil_append] at at_)

theorem names_then {names : List Str} {k : List UInt8 × Nat → Option α} {r : Option α}
    (here : At d w ((names.flatMap (strBytes junk)).length + left)) (place : o = w.length)
    (next : ∀ d' o', At d' (w ++ names.flatMap (strBytes junk)) left → k (d', o') = r) :
    (names.foldlM (fun (x : List UInt8 × Nat) name => pstring junk x.1 x.2 name) (d, o) >>= k) = r := by
  induction names generalizing d w o with
  | nil =>
    rw [List.foldlM_nil, pure_bind]
    exact next d o (by simpa using here)
  | cons name names ih =>
    rw [List.foldlM_cons, bind_assoc]
    rw [List.flatMap_cons, List.length_append, length_strBytes, Nat.add_assoc] at here
    refine pstring_then here place fun d at_ => ?_
    refine ih at_ rfl fun d' o' at' => next d' o' ?_
    rwa [List.flatMap_cons, ← List.append_assoc]

theorem qids_then {qids : List Qid} {k : List UInt8 × Nat → Option α} {r : Option α}
    (here : At d w ((qids.flatMap qidBytes).length + left)) (place : o = w.length)
    (next : ∀ d' o', At d' (w ++ qids.flatMap qidBytes) left → k (d', o') = r) :
    (qids.foldlM (fun (x : List UInt8 × Nat) qid => (pqid x.1 x.2 qid).map (·, x.2 + QID)) (d, o) >>= k) = r := by
  induction qids generalizing d w o with
  | nil =>
    rw [List.foldlM_nil, pure_bind]
    exact next d o (by simpa using here)
  | cons qid qids ih =>
    rw [List.foldlM_cons, bind_assoc, Option.map_eq_bind]
    rw [List.flatMap_cons, List.length_append, length_qidBytes, Nat.add_assoc] at here
    change ((pqid d o qid >>= fun a => some (a, o + QID)) >>= _) = r
    rw [bind_assoc]
    refine pqid_then here place fun d at_ => ?_
    refine ih at_ (by rw [List.length_append, length_qidBytes, place]) fun d' o' at' => next d' o' ?_
    rwa [List.flatMap_cons, ← List.append_assoc]

/-- `pack` fills `packedsize` bytes. -/
theorem Tmsg.pack_eq (t : Tmsg) (real : t.req.Real) (small : t.packedsize + 64 < 2 ^ 31) :
    t.pack junk = some (hdrBytes t.packedsize t.req.mtype t.tag ++ t.req.body junk) := by
  have size := @Tmsg.packedsize_eq junk t real
  obtain ⟨tag, req⟩ := t
  have positive : ¬(Tmsg.mk tag req).packedsize ≤ 0 := by
    rw [size, H]
    omega
  unfold Tmsg.pack
  dsimp only at size ⊢
  rw [if_neg positive]
  generalize (Tmsg.mk tag req).packedsize = ds at *
  refine packhdr_then small size fun d at_ => ?_
  generalize head : hdrBytes ds req.mtype tag = w at at_ ⊢
  have place : w.length = H := by rw [← head]; rfl
  cases req with
  | readerror error => nomatch real
  | version msize version =>
    rw [Treq.body, List.length_append, length_le32, length_strBytes] at at_
    refine p32_then at_ place.symm fun d at_ => ?_
    refine @pstring_then _ _ _ _ 0 _ _ _ _ at_ (by rw [List.length_append, place]; rfl) fun d at_ => ?_
    rw [at_.eq, List.append_assoc]
    rfl
  | auth afid uname aname =>
    rw [Treq.body, List.append_assoc, List.length_append, List.length_append, length_le32, length_strBytes, length_strBytes] at at_
    refine p32_then at_ place.symm fun d at_ => ?_
    refine pstring_then at_ (by rw [List.length_append, place]; rfl) fun d at_ => ?_
    refine @pstring_then _ _ _ _ 0 _ _ _ _ at_ rfl fun d at_ => ?_
    rw [at_.eq, List.append_assoc, List.append_assoc, Treq.body, List.append_assoc]
    rfl
  | attach fid afid uname aname =>
    rw [Treq.body, List.append_assoc, List.append_assoc, List.length_append, List.length_append, List.length_append, length_le32,
      length_le32, length_strBytes, length_strBytes] at at_
    refine p32_then at_ place.symm fun d at_ => ?_
    refine p32_then at_ (by rw [List.length_append, place]; rfl) fun d at_ => ?_
    refine pstring_then at_ (by rw [List.length_append, List.length_append, place]; rfl) fun d at_ => ?_
    refine @pstring_then _ _ _ _ 0 _ _ _ _ at_ rfl fun d at_ => ?_
    rw [at_.eq, Treq.body]
    simp only [List.append_assoc]
    rfl
  | flush oldtag => exact p16_last at_ place.symm
  | walk fid newfid names =>
    rw [Treq.body, List.append_assoc, List.append_assoc, List.length_append, List.length_append, List.length_append, length_le32,
      length_le32, length_le16] at at_
    refine p32_then at_ place.symm fun d at_ => ?_
    refine p32_then at_ (by rw [List.length_append, place]; rfl) fun d at_ => ?_
    refine p16_then at_ (by rw [List.length_append, List.length_append, place]; rfl) fun d at_ => ?_
    refine @names_then _ _ _ _ 0 _ _ _ _ at_ (by rw [List.length_append, List.length_append, List.length_append, place]; rfl)
      fun d o at_ => ?_
    rw [at_.eq, Treq.body]
    simp only [List.append_assoc]
    rfl
  | open_ fid mode =>
    refine @p32_then _ _ _ _ 1 _ _ _ at_ place.symm fun d at_ => ?_
    rw [@put_last _ _ _ [byte mode] at_ (by rw [List.length_append, place]; rfl), List.append_assoc]
    rfl
  | create fid name perm mode =>
    rw [Treq.body, List.append_assoc, List.append_assoc, List.length_append, List.length_append, List.length_append, length_le32,
      length_le32, length_strBytes] at at_
    refine p32_then at_ place.symm fun d at_ => ?_
    refine pstring_then at_ (by rw [List.length_append, place]; rfl) fun d at_ => ?_
    refine p32_then at_ rfl fun d at_ => ?_
    rw [@put_last _ _ _ [byte mode] at_ (by simp only [List.length_append]; rfl), Treq.body]
    simp only [List.append_assoc]
  | read fid offset count =>
    refine @p32_then _ _ _ _ 12 _ _ _ at_ place.symm fun d at_ => ?_
    refine @p64_then _ _ _ _ 4 _ _ _ at_ (by rw [List.length_append, place]; rfl) fun d at_ => ?_
    rw [p32_last at_ (by rw [List.length_append, List.length_append, place]; rfl), List.append_assoc, List.append_assoc]
    rfl
  | write fid offset data =>
    rw [Treq.body, List.append_assoc, List.append_assoc, List.length_append, List.length_append, List.length_append, length_le32,
      length_le64, length_le32] at at_
    refine p32_then at_ place.symm fun d at_ => ?_
    refine p64_then at_ (by rw [List.length_append, place]; rfl) fun d at_ => ?_
    refine p32_then at_ (by rw [List.length_append, List.length_append, place]; rfl) fun d at_ => ?_
    rw [put_last at_ (by rw [List.length_append, List.length_append, List.length_append, place]; rfl), Treq.body]
    simp only [List.append_assoc]
  | clunk fid => exact p32_last at_ place.symm
  | stat fid => exact p32_last at_ place.symm
  | remove fid => exact p32_last at_ place.symm
  | wstat fid stat =>
    rw [Treq.body, List.append_assoc, List.length_append, List.length_append, length_le32, length_le16, length_dirBytes] at size
    rw [Treq.body, List.append_assoc, List.length_append, List.length_append, length_le32, length_le16] at at_
    refine p32_then at_ place.symm fun d at_ => ?_
    rw [packdir_eq stat (by omega), Option.bind_eq_bind, Option.bind_some]
    refine p16_then at_ (by rw [List.length_append, place]; rfl) fun d at_ => ?_
    rw [put_last at_ (by rw [List.length_append, List.length_append, place]; rfl), Treq.body, length_dirBytes]
    simp only [List.append_assoc]

/-- And so does that of the replies. -/
theorem Rmsg.pack_eq (r : Rmsg) (real : r.rep.Real) (small : r.packedsize + 64 < 2 ^ 31) :
    r.pack junk = some (hdrBytes r.packedsize r.rep.mtype r.tag ++ r.rep.body junk) := by
  have size := @Rmsg.packedsize_eq junk r real
  obtain ⟨tag, rep⟩ := r
  have positive : ¬(Rmsg.mk tag rep).packedsize ≤ 0 := by
    rw [size, H]
    omega
  unfold Rmsg.pack
  dsimp only at size ⊢
  rw [if_neg positive]
  generalize (Rmsg.mk tag rep).packedsize = ds at *
  refine packhdr_then small size fun d at_ => ?_
  generalize head : hdrBytes ds rep.mtype tag = w at at_ ⊢
  have place : w.length = H := by rw [← head]; rfl
  cases rep with
  | readerror error => nomatch real
  | version msize version =>
    rw [Rrep.body, List.length_append, length_le32, length_strBytes] at at_
    refine p32_then at_ place.symm fun d at_ => ?_
    refine @pstring_then _ _ _ _ 0 _ _ _ _ at_ (by rw [List.length_append, place]; rfl) fun d at_ => ?_
    rw [at_.eq, List.append_assoc]
    rfl
  | auth aqid => exact pqid_last at_ place.symm
  | attach qid => exact pqid_last at_ place.symm
  | flush => exact congrArg some (at_.eq.trans (List.append_nil w).symm)
  | clunk => exact congrArg some (at_.eq.trans (List.append_nil w).symm)
  | remove => exact congrArg some (at_.eq.trans (List.append_nil w).symm)
  | wstat => exact congrArg some (at_.eq.trans (List.append_nil w).symm)
  | error ename =>
    rw [Rrep.body, length_strBytes] at at_
    refine @pstring_then _ _ _ _ 0 _ _ _ _ at_ place.symm fun d at_ => ?_
    rw [at_.eq]
    rfl
  | walk qids =>
    rw [Rrep.body, List.length_append, length_le16] at at_
    refine p16_then at_ place.symm fun d at_ => ?_
    refine @qids_then _ _ _ _ 0 _ _ _ at_ (by rw [List.length_append, place]; rfl) fun d o at_ => ?_
    rw [at_.eq, List.append_assoc]
    rfl
  | create qid iounit =>
    refine @pqid_then _ _ _ _ 4 _ _ _ at_ place.symm fun d at_ => ?_
    rw [p32_last at_ (by rw [List.length_append, place]; rfl), List.append_assoc]
    rfl
  | open_ qid iounit =>
    refine @pqid_then _ _ _ _ 4 _ _ _ at_ place.symm fun d at_ => ?_
    rw [p32_last at_ (by rw [List.length_append, place]; rfl), List.append_assoc]
    rfl
  | read data =>
    rw [Rrep.body, List.length_append, length_le32] at at_
    refine p32_then at_ place.symm fun d at_ => ?_
    rw [put_last at_ (by rw [List.length_append, place]; rfl), List.append_assoc]
    rfl
  | write count => exact p32_last at_ place.symm
  | stat stat =>
    rw [Rrep.body, List.length_append, length_le16, length_dirBytes] at size
    rw [Rrep.body, List.length_append, length_le16] at at_
    dsimp only
    rw [packdir_eq stat (by omega), Option.bind_eq_bind, Option.bind_some]
    refine p16_then at_ place.symm fun d at_ => ?_
    rw [put_last at_ (by rw [List.length_append, place]; rfl), length_dirBytes, List.append_assoc]
    rfl

end Inferno.Styxlib
