import Inferno.Styx.FcallCodec

namespace Inferno.Styx

open Inferno.Lib

theorem length_flatten_pstring (names : List (Option (List UInt8))) :
    (names.map pstring).flatten.length = (names.map stringsz).sum := by
  rw [List.length_flatten, List.map_map]
  exact congrArg List.sum (List.map_congr_left fun s _ => length_pstring s)

theorem length_flatten_pqid (qids : List Qid) : (qids.map pqid).flatten.length = qids.length * qidsz := by
  induction qids with
  | nil => rfl
  | cons q qids ih =>
    rw [List.map_cons, List.flatten_cons, List.length_append, ih, length_pqid, List.length_cons, Nat.succ_mul,
      Nat.add_comm]

/-- The counts of a message with the bytes they count. -/
def Msg.data {S B : Type} : Msg S B → List (Nat × B)
  | .rread count data => [(count.toNat, data)]
  | .twrite _ _ count data => [(count.toNat, data)]
  | .rstat nstat stat => [(nstat.toNat, stat)]
  | .twstat _ nstat stat => [(nstat.toNat, stat)]
  | _ => []

/-- The bytes stored after the header are as many as `sizeS2M` counted. -/
theorem Msg.length_pieces {msg : Msg (Option (List UInt8)) (List UInt8)} (nelem : msg.nelem ≤ maxwelem)
    (data : ∀ d ∈ msg.data, d.2.length = d.1) :
    ∃ pieces, msg.pieces = some pieces ∧ pieces.flatten.length = msg.size := by
  cases msg with
  | twalk fid newfid wname =>
    refine ⟨_, if_neg (Nat.not_lt.mpr nelem), ?_⟩
    simp only [List.flatten_cons, List.length_append, length_flatten_pstring, length_pbit32, length_pbit16, Msg.size]
    omega
  | rwalk wqid =>
    refine ⟨_, if_neg (Nat.not_lt.mpr nelem), ?_⟩
    simp only [List.flatten_cons, List.length_append, length_flatten_pqid, length_pbit16, Msg.size]
  | rread count bytes =>
    have length : bytes.length = count.toNat := data (count.toNat, bytes) List.mem_cons_self
    exact ⟨_, rfl, by simp [Msg.size, length]⟩
  | twrite fid offset count bytes =>
    have length : bytes.length = count.toNat := data (count.toNat, bytes) List.mem_cons_self
    refine ⟨_, rfl, ?_⟩
    simp [Msg.size, length]
    omega
  | rstat nstat stat =>
    have length : stat.length = nstat.toNat := data (nstat.toNat, stat) List.mem_cons_self
    exact ⟨_, rfl, by simp [Msg.size, length]⟩
  | twstat fid nstat stat =>
    have length : stat.length = nstat.toNat := data (nstat.toNat, stat) List.mem_cons_self
    refine ⟨_, rfl, ?_⟩
    simp [Msg.size, length]
    omega
  | tattach fid afid uname aname =>
    refine ⟨_, rfl, ?_⟩
    simp [Msg.size]
    omega
  | _ => exact ⟨_, rfl, by simp [Msg.size, Nat.add_assoc]⟩

theorem Msg.Counted.data {msg : Msg (Option (List UInt8)) (List UInt8)} (counted : msg.Counted) :
    ∀ d ∈ msg.data, d.2.length = d.1 := by
  cases msg with
  | rread count data => exact List.forall_mem_singleton.mpr counted.2
  | twrite fid offset count data => exact List.forall_mem_singleton.mpr counted.2
  | rstat nstat stat => exact List.forall_mem_singleton.mpr counted
  | twstat fid nstat stat => exact List.forall_mem_singleton.mpr counted
  | _ => exact fun d member => nomatch member

theorem Msg.pieces_size {msg : Msg (Option (List UInt8)) (List UInt8)} (nelem : msg.nelem ≤ maxwelem)
    (counted : msg.Counted) : ∃ pieces, msg.pieces = some pieces ∧ pieces.flatten.length = msg.size :=
  Msg.length_pieces nelem counted.data

/-- What the switch of `convM2S` makes of the pieces `convS2M` stored. -/
def Msg.Back (ep : Nat) (m : Msg (Option (List UInt8)) (List UInt8)) (pieces : List (List UInt8)) : Prop :=
  Decodes ep (gmsg ep m.type) pieces.flatten fun g mem => g.at mem ep = m.denil

section Back

variable {ep : Nat}

theorem back_tversion {msize : UInt64} {version : Option (List UInt8)} (narrow : msize.toNat < 2 ^ 32)
    (carried : CString version) :
    Msg.Back ep (.tversion msize version) [pbit32 msize.toNat, pstring version] := by
  refine Decodes.need (by simp) ((decodes_gbit32 narrow).bind_eq
    ((decodes_gstring carried).bind fun p _ => Decodes.pure fun mem text => ?_))
  simp only [Msg.at, Msg.map, Msg.denil, text]

theorem back_rversion {msize : UInt64} {version : Option (List UInt8)} (narrow : msize.toNat < 2 ^ 32)
    (carried : CString version) :
    Msg.Back ep (.rversion msize version) [pbit32 msize.toNat, pstring version] := by
  refine Decodes.need (by simp) ((decodes_gbit32 narrow).bind_eq
    ((decodes_gstring carried).bind fun p _ => Decodes.pure fun mem text => ?_))
  simp only [Msg.at, Msg.map, Msg.denil, text]

theorem back_rerror {ename : Option (List UInt8)} (carried : CString ename) :
    Msg.Back ep (.rerror ename) [pstring ename] := by
  refine (decodes_gstring carried).bind fun p _ => Decodes.pure fun mem text => ?_
  simp only [Msg.at, Msg.map, Msg.denil, text]

theorem back_tauth {afid : UInt64} {uname aname : Option (List UInt8)} (narrow : afid.toNat < 2 ^ 32)
    (user : CString uname) (tree : CString aname) :
    Msg.Back ep (.tauth afid uname aname) [pbit32 afid.toNat, pstring uname, pstring aname] := by
  refine Decodes.need (by simp) ((decodes_gbit32 narrow).bind_eq ((decodes_gstring user).bind fun p _ =>
    (decodes_gstring tree).bind fun q _ => Decodes.pure fun mem text name => ?_))
  simp only [Msg.at, Msg.map, Msg.denil, text, name]

theorem back_tattach {fid afid : UInt64} {uname aname : Option (List UInt8)} (narrow : fid.toNat < 2 ^ 32)
    (narrowA : afid.toNat < 2 ^ 32) (user : CString uname) (tree : CString aname) :
    Msg.Back ep (.tattach fid afid uname aname)
      [pbit32 fid.toNat, pbit32 afid.toNat, pstring uname, pstring aname] := by
  refine Decodes.need (by simp) ((decodes_gbit32 narrow).bind_eq (Decodes.need (by simp)
    ((decodes_gbit32 narrowA).bind_eq ((decodes_gstring user).bind fun p _ =>
      (decodes_gstring tree).bind fun q _ => Decodes.pure fun mem text name => ?_))))
  simp only [Msg.at, Msg.map, Msg.denil, text, name]

theorem back_tcreate {fid perm : UInt64} {name : Option (List UInt8)} (mode : UInt8)
    (narrow : fid.toNat < 2 ^ 32) (narrowP : perm.toNat < 2 ^ 32) (carried : CString name) :
    Msg.Back ep (.tcreate fid name perm mode)
      [pbit32 fid.toNat, pstring name, pbit32 perm.toNat, pbit8 mode.toNat] := by
  refine Decodes.need (by simp) ((decodes_gbit32 narrow).bind_eq ((decodes_gstring carried).bind fun p _ =>
    Decodes.need (by simp) ((decodes_gbit32 narrowP).bind_eq
      ((decodes_gbit8 mode).bind_eq (Decodes.pure fun mem text => ?_)))))
  simp only [Msg.at, Msg.map, Msg.denil, text]

theorem back_twalk {fid newfid : UInt64} {wname : List (Option (List UInt8))} (narrow : fid.toNat < 2 ^ 32)
    (narrowN : newfid.toNat < 2 ^ 32) (few : wname.length ≤ maxwelem) (carried : ∀ s ∈ wname, CString s) :
    Msg.Back ep (.twalk fid newfid wname)
      (pbit32 fid.toNat :: pbit32 newfid.toNat :: pbit16 wname.length :: wname.map pstring) := by
  have names : Decodes ep (gmany (gstring ep) wname.length) (wname.map pstring).flatten fun ps mem =>
      ps.map (fun p => some (cstring mem ep p)) = wname.map fun s => some (s.getD []) :=
    decodes_gmany fun s member => (decodes_gstring (carried s member)).congr fun p mem text => by rw [text]
  have small : wname.length < 256 ^ 2 := by
    have := few
    simp only [maxwelem] at this
    omega
  rw [Msg.Back, List.flatten_cons, List.flatten_cons, List.flatten_cons, ← List.append_nil (wname.map pstring).flatten]
  refine Decodes.need (by simp; omega) ((decodes_gbit32 narrow).bind_eq ((decodes_gbit32 narrowN).bind_eq
    ((decodes_gbit_of_lt small).bind_eq ?_)))
  rw [if_neg (Nat.not_lt.mpr few)]
  refine names.bind fun ps _ => Decodes.pure fun mem texts => ?_
  simp only [Msg.at, Msg.map, Msg.denil, texts]

theorem back_rwalk {wqid : List Qid} (few : wqid.length ≤ maxwelem) :
    Msg.Back ep (.rwalk wqid) (pbit16 wqid.length :: wqid.map pqid) := by
  have qids : Decodes ep (gmany (gqid ep) wqid.length) (wqid.map pqid).flatten fun qs _ =>
      qs.map (fun q => q) = wqid.map fun q => q := decodes_gmany fun q _ => decodes_gqid q
  have small : wqid.length < 256 ^ 2 := by
    have := few
    simp only [maxwelem] at this
    omega
  rw [Msg.Back, List.flatten_cons, ← List.append_nil (wqid.map pqid).flatten]
  refine Decodes.need (by simp) ((decodes_gbit_of_lt small).bind_eq ?_)
  rw [if_neg (Nat.not_lt.mpr few)]
  refine qids.bind fun qs _ => Decodes.pure fun mem same => ?_
  rw [List.map_id', List.map_id'] at same
  simp only [Msg.at, Msg.map, Msg.denil, same]

theorem back_qids (qid : Qid) :
    Msg.Back ep (.rauth qid) [pqid qid] ∧ Msg.Back ep (.rattach qid) [pqid qid] :=
  ⟨(decodes_gqid qid).bind_eq (Decodes.pure fun _ => rfl), (decodes_gqid qid).bind_eq (Decodes.pure fun _ => rfl)⟩

theorem back_opened (qid : Qid) {iounit : UInt64} (narrow : iounit.toNat < 2 ^ 32) :
    Msg.Back ep (.ropen qid iounit) [pqid qid, pbit32 iounit.toNat] ∧
      Msg.Back ep (.rcreate qid iounit) [pqid qid, pbit32 iounit.toNat] :=
  ⟨(decodes_gqid qid).bind_eq (Decodes.need (by simp)
      ((decodes_gbit32 narrow).bind_eq (Decodes.pure fun _ => rfl))),
    (decodes_gqid qid).bind_eq (Decodes.need (by simp)
      ((decodes_gbit32 narrow).bind_eq (Decodes.pure fun _ => rfl)))⟩

theorem back_fid {fid : UInt64} (narrow : fid.toNat < 2 ^ 32) :
    Msg.Back ep (.tclunk fid) [pbit32 fid.toNat] ∧ Msg.Back ep (.tremove fid) [pbit32 fid.toNat] ∧
      Msg.Back ep (.tstat fid) [pbit32 fid.toNat] :=
  ⟨Decodes.need (by simp) ((decodes_gbit32 narrow).bind_eq (Decodes.pure fun _ => rfl)),
    Decodes.need (by simp) ((decodes_gbit32 narrow).bind_eq (Decodes.pure fun _ => rfl)),
    Decodes.need (by simp) ((decodes_gbit32 narrow).bind_eq (Decodes.pure fun _ => rfl))⟩

theorem back_tread {fid count : UInt64} (offset : Int64) (narrow : fid.toNat < 2 ^ 32)
    (narrowC : count.toNat < 2 ^ 32) :
    Msg.Back ep (.tread fid offset count)
      [pbit32 fid.toNat, pbit64 offset.toUInt64.toNat, pbit32 count.toNat] :=
  Decodes.need (by simp) ((decodes_gbit32 narrow).bind_eq ((decodes_gbit64 offset.toUInt64).bind_eq
    ((decodes_gbit32 narrowC).bind_eq (Decodes.pure fun _ => rfl))))

theorem back_twrite {fid count : UInt64} {data : List UInt8} (offset : Int64) (narrow : fid.toNat < 2 ^ 32)
    (narrowC : count.toNat < 2 ^ 32) (length : data.length = count.toNat) :
    Msg.Back ep (.twrite fid offset count data)
      [pbit32 fid.toNat, pbit64 offset.toUInt64.toNat, pbit32 count.toNat, data.take count.toNat] := by
  rw [← length, List.take_length, length]
  refine Decodes.need (by simp; omega) ((decodes_gbit32 narrow).bind_eq ((decodes_gbit64 offset.toUInt64).bind_eq
    ((decodes_gbit32 narrowC).bind_eq ((decodes_gdata length).bind fun p _ => Decodes.pure fun mem bytes => ?_))))
  simp only [Msg.at, Msg.map, Msg.denil, bytes]
  rfl

theorem back_rread {count : UInt64} {data : List UInt8} (narrow : count.toNat < 2 ^ 32)
    (length : data.length = count.toNat) :
    Msg.Back ep (.rread count data) [pbit32 count.toNat, data.take count.toNat] := by
  rw [← length, List.take_length, length]
  refine Decodes.need (by simp) ((decodes_gbit32 narrow).bind_eq
    ((decodes_gdata length).bind fun p _ => Decodes.pure fun mem bytes => ?_))
  simp only [Msg.at, Msg.map, Msg.denil, bytes]

theorem back_twstat {fid : UInt64} {nstat : UInt16} {stat : List UInt8} (narrow : fid.toNat < 2 ^ 32)
    (length : stat.length = nstat.toNat) :
    Msg.Back ep (.twstat fid nstat stat) [pbit32 fid.toNat, pbit16 nstat.toNat, stat.take nstat.toNat] := by
  rw [← length, List.take_length, length]
  refine Decodes.need (by simp; omega) ((decodes_gbit32 narrow).bind_eq ((decodes_gbit16 nstat).bind_eq
    ((decodes_gdata length).bind fun p _ => Decodes.pure fun mem bytes => ?_)))
  simp only [Msg.at, Msg.map, Msg.denil, bytes]

theorem back_rstat {nstat : UInt16} {stat : List UInt8} (length : stat.length = nstat.toNat) :
    Msg.Back ep (.rstat nstat stat) [pbit16 nstat.toNat, stat.take nstat.toNat] := by
  rw [← length, List.take_length, length]
  refine Decodes.need (by simp) ((decodes_gbit16 nstat).bind_eq
    ((decodes_gdata length).bind fun p _ => Decodes.pure fun mem bytes => ?_))
  simp only [Msg.at, Msg.map, Msg.denil, bytes]

theorem Fcall.Legal.back {f : Sent} (legal : f.Legal) (narrow : f.Narrow) {pieces : List (List UInt8)}
    (stored : f.msg.pieces = some pieces) : Msg.Back ep f.msg pieces := by
  obtain ⟨strings, nelem, counted⟩ := legal
  obtain ⟨ulongs, _⟩ := narrow
  obtain ⟨tag, msg⟩ := f
  cases msg with
  | tversion msize version =>
    cases stored
    exact back_tversion (ulongs _ (by simp [Msg.ulongs])) (strings _ (by simp [Msg.strings]))
  | rversion msize version =>
    cases stored
    exact back_rversion (ulongs _ (by simp [Msg.ulongs])) (strings _ (by simp [Msg.strings]))
  | tauth afid uname aname =>
    cases stored
    exact back_tauth (ulongs _ (by simp [Msg.ulongs])) (strings _ (by simp [Msg.strings]))
      (strings _ (by simp [Msg.strings]))
  | tattach fid afid uname aname =>
    cases stored
    exact back_tattach (ulongs _ (by simp [Msg.ulongs])) (ulongs _ (by simp [Msg.ulongs]))
      (strings _ (by simp [Msg.strings])) (strings _ (by simp [Msg.strings]))
  | rerror ename =>
    cases stored
    exact back_rerror (strings _ (by simp [Msg.strings]))
  | tcreate fid name perm mode =>
    cases stored
    exact back_tcreate mode (ulongs _ (by simp [Msg.ulongs])) (ulongs _ (by simp [Msg.ulongs]))
      (strings _ (by simp [Msg.strings]))
  | twalk fid newfid wname =>
    cases (if_neg (Nat.not_lt.mpr nelem)).symm.trans stored
    exact back_twalk (ulongs _ (by simp [Msg.ulongs])) (ulongs _ (by simp [Msg.ulongs])) nelem strings
  | rwalk wqid =>
    cases (if_neg (Nat.not_lt.mpr nelem)).symm.trans stored
    exact back_rwalk nelem
  | rauth qid =>
    cases stored
    exact (back_qids qid).1
  | rattach qid =>
    cases stored
    exact (back_qids qid).2
  | ropen qid iounit =>
    cases stored
    exact (back_opened qid (ulongs _ (by simp [Msg.ulongs]))).1
  | rcreate qid iounit =>
    cases stored
    exact (back_opened qid (ulongs _ (by simp [Msg.ulongs]))).2
  | topen fid mode =>
    cases stored
    exact Decodes.need (by simp) ((decodes_gbit32 (ulongs fid (by simp [Msg.ulongs]))).bind_eq
      ((decodes_gbit8 mode).bind_eq (Decodes.pure fun _ => rfl)))
  | tflush oldtag =>
    cases stored
    exact Decodes.need (by simp) ((decodes_gbit16 oldtag).bind_eq (Decodes.pure fun _ => rfl))
  | tread fid offset count =>
    cases stored
    exact back_tread offset (ulongs _ (by simp [Msg.ulongs])) counted
  | twrite fid offset count data =>
    cases stored
    exact back_twrite offset (ulongs _ (by simp [Msg.ulongs])) counted.1 counted.2
  | rread count data =>
    cases stored
    exact back_rread counted.1 counted.2
  | rwrite count =>
    cases stored
    exact Decodes.need (by simp) ((decodes_gbit32 counted).bind_eq (Decodes.pure fun _ => rfl))
  | tclunk fid =>
    cases stored
    exact (back_fid (ulongs _ (by simp [Msg.ulongs]))).1
  | tremove fid =>
    cases stored
    exact (back_fid (ulongs _ (by simp [Msg.ulongs]))).2.1
  | tstat fid =>
    cases stored
    exact (back_fid (ulongs _ (by simp [Msg.ulongs]))).2.2
  | rstat nstat stat =>
    cases stored
    exact back_rstat counted
  | twstat fid nstat stat =>
    cases stored
    exact back_twstat (ulongs _ (by simp [Msg.ulongs])) counted
  | rflush | rclunk | rremove | rwstat =>
    cases stored
    exact Decodes.pure fun _ => rfl

end Back

theorem convS2M_eq {f : Sent} {pieces : List (List UInt8)} {nap : Nat} (legal : f.Legal) (narrow : f.Narrow)
    (atPieces : f.msg.pieces = some pieces) (room : sizeS2M f ≤ nap) :
    convS2M f nap =
      some (pbit32 (sizeS2M f) ++ (pbit8 f.msg.type ++ (pbit16 f.tag.toNat ++ pieces.flatten))) ∧
      sizeS2M f = 4 + 1 + 2 + pieces.flatten.length := by
  obtain ⟨_, same, length⟩ := Msg.pieces_size legal.nelem legal.counted
  cases Option.some.inj (atPieces.symm.trans same)
  have size : sizeS2M f = 4 + 1 + 2 + pieces.flatten.length := by
    rw [sizeS2M, length, Nat.mod_eq_of_lt narrow.size]
  refine ⟨?_, size⟩
  have stored : sizeS2M f =
      (pbit32 (sizeS2M f) :: pbit8 f.msg.type :: pbit16 f.tag.toNat :: pieces).flatten.length := by
    simp only [List.flatten_cons, List.length_append, length_pbit32, length_pbit16, length_pbit8]
    omega
  rw [convS2M, atPieces]
  dsimp only
  rw [if_neg (by omega), if_neg (by omega)]
  simp only [Option.bind_eq_bind, Option.bind_some, Option.pure_def]
  rw [if_neg (not_not.mpr stored)]
  rfl

theorem Msg.type_lt {S B : Type} (m : Msg S B) : m.type < 256 ^ 1 := by
  cases m <;> simp [Msg.type]

theorem decodes_convM2SFields {f : Sent} {pieces : List (List UInt8)} {nap : Nat} (legal : f.Legal)
    (narrow : f.Narrow) (atPieces : f.msg.pieces = some pieces)
    (size : sizeS2M f = 4 + 1 + 2 + pieces.flatten.length) :
    Decodes nap (convM2SFields nap)
      (pbit32 (sizeS2M f) ++ (pbit8 f.msg.type ++ (pbit16 f.tag.toNat ++ pieces.flatten)))
      fun r mem => r.1 = sizeS2M f ∧ r.2.resolve mem nap = f.denil := by
  have sizeLt : sizeS2M f < 256 ^ 4 := Nat.mod_lt _ (by decide)
  rw [← List.append_nil pieces.flatten]
  refine Decodes.need (by simp; omega) ((decodes_gbit_of_lt sizeLt).bind_eq ?_)
  rw [if_neg (by omega)]
  refine (decodes_gbit_of_lt f.msg.type_lt).bind_eq ((decodes_gbit16 f.tag).bind_eq
    ((legal.back narrow atPieces).bind fun g _ => Decodes.pure fun mem same => ⟨rfl, ?_⟩))
  rw [Received.resolve, same]
  rfl

theorem Fcall.Legal.returns {f : Sent} (legal : f.Legal) (narrow : f.Narrow) : f.Returns f.denil := by
  intro nap room
  obtain ⟨pieces, atPieces, _⟩ := Msg.pieces_size legal.nelem legal.counted
  obtain ⟨stored, size⟩ := convS2M_eq legal narrow atPieces room
  refine ⟨_, stored, ?_, fun mem holds => ?_⟩
  · simp only [List.length_append, length_pbit32, length_pbit16, length_pbit8]
    omega
  · have length : (pbit32 (sizeS2M f) ++ (pbit8 f.msg.type ++ (pbit16 f.tag.toNat ++ pieces.flatten))).length =
        sizeS2M f := by
      simp only [List.length_append, length_pbit32, length_pbit16, length_pbit8]
      omega
    obtain ⟨⟨n, r⟩, left, ran, _, good⟩ := decodes_convM2SFields legal narrow atPieces size ⟨mem, 0⟩ holds
      (Nat.le_of_eq (Nat.zero_add _))
    obtain ⟨rfl, same⟩ := good left fun _ _ _ => rfl
    refine ⟨r, left, ?_, same⟩
    rw [convM2S, ran]
    dsimp only
    rw [Nat.zero_add, if_neg (Nat.lt_irrefl _), if_pos length.symm]

/-- Every legal message whose values fit the wire is stored in `sizeS2M` bytes
and comes back from them unchanged, a nil string as an empty one. -/
theorem convM2S_convS2M (f : Sent) (legal : f.Legal) (narrow : f.Narrow) : f.Returns f.denil :=
  legal.returns narrow

/-- A walk to "ab" with one nil element. -/
theorem convM2S_convS2M_walk :
    Fcall.Returns ⟨1, .twalk 7 8 [some [97, 98], none]⟩ ⟨1, .twalk 7 8 [some [97, 98], some []]⟩ := by
  refine convM2S_convS2M ⟨1, .twalk 7 8 [some [97, 98], none]⟩ ⟨?_, by decide, trivial⟩ ⟨?_, ?_⟩
  · simp [Msg.strings, CString]
  · simp [Msg.ulongs]
  · simp [Msg.size, stringsz]

/-- A clunk whose `ulong` fid does not fit 32 bits. -/
def wideClunk : Sent := ⟨1, .tclunk (2 ^ 32)⟩

theorem wideClunk_not_returned : wideClunk.Legal ∧ ¬ wideClunk.Returns wideClunk := by
  refine ⟨⟨fun s member => (nomatch member), by decide, trivial⟩, fun returns => ?_⟩
  obtain ⟨stored, sent, _, back⟩ := returns 11 (by decide)
  have bytes : stored = [11, 0, 0, 0, 120, 1, 0, 0, 0, 0, 0] := Option.some.inj (sent.symm.trans (by decide))
  subst bytes
  obtain ⟨r, left, received, same⟩ := back (fun a => [11, 0, 0, 0, 120, 1, 0, 0, 0, 0, 0].getD a 0)
    ⟨rfl, rfl, rfl, rfl, rfl, rfl, rfl, rfl, rfl, rfl, rfl, trivial⟩
  have zero : (convM2S (fun a => [11, 0, 0, 0, 120, 1, 0, 0, 0, 0, 0].getD a 0) 11).1 =
      some (11, ⟨1, .tclunk 0⟩) := by decide
  have message : some (11, ⟨1, .tclunk 0⟩) = some (sizeS2M wideClunk, r) :=
    zero.symm.trans (congrArg Prod.fst received)
  have fid : r = ⟨1, .tclunk 0⟩ := (Prod.mk.inj (Option.some.inj message)).2.symm
  subst fid
  have equal : (⟨1, .tclunk 0⟩ : Sent) = wideClunk := same
  exact absurd equal (by decide)

end Inferno.Styx
