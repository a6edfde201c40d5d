import Inferno.Export.FidsKept
import Inferno.Export.FidsSession

namespace Inferno.Export

namespace Fids

/-- A handler that has taken the fid, whose channel is `c`. -/
structure Taken (s : Fids) (used : List UInt32) (fid : UInt32) (f c : Nat) (hand : List Nat) : Prop where
  kept : s.Kept used [f] hand
  found : s.find fid.toUInt64 = some f
  chan : (s.fid f).chan = some c
  attached : (s.fid f).attached = true

variable {s s' : Fids} {used used' : List UInt32} {hand hand' : List Nat} {f c c₀ : Nat} {fid : UInt32} {ch : Chan} {d : Devs}

theorem Kept.getfid_none (kept : s.Kept used [] []) (missing : s.exgetfid fid.toUInt64 = none) :
    s.find fid.toUInt64 = none := by
  unfold exgetfid at missing
  split at missing
  · assumption
  · rename_i f found
    simp [(kept.entries.set _ f found List.not_mem_nil).1] at missing

theorem Kept.taken (kept : s.Kept used [] []) (got : s.exgetfid fid.toUInt64 = some (f, s')) :
    ∃ c, s'.Taken used fid f c [] ∧ s.find fid.toUInt64 = some f ∧ (s.fid f).chan = some c ∧ s'.chan = s.chan := by
  obtain ⟨kept', found, rfl⟩ := kept.getfid got
  obtain ⟨attached, some_⟩ := kept.entries.set _ f found List.not_mem_nil
  obtain ⟨c, chan⟩ := Option.ne_none_iff_exists'.mp some_
  exact ⟨c, ⟨kept', kept.entries.table.setFid_find _ rfl found, by simpa using chan, by simpa using attached⟩, found, chan, rfl⟩

theorem Kept.withFid {P : Reply × Fids → Prop} {k : Fids → Nat → Nat → Reply × Fids} (kept : s.Kept used [] [])
    (unknown : s.find fid.toUInt64 = none → P (.error enofid, s))
    (known : ∀ f c s', s'.Taken used fid f c [] → s.find fid.toUInt64 = some f → (s.fid f).chan = some c →
      s'.chan = s.chan → P (k s' f c)) : P (s.withFid fid k) := by
  unfold Fids.withFid
  split
  · exact unknown (kept.getfid_none ‹_›)
  · rename_i f s' got
    obtain ⟨c, taken, found, chan, record⟩ := kept.taken got
    rw [taken.chan]
    exact known f c s' taken found chan record

theorem Kept.congr {busy : List Nat} (kept : s.Kept used busy hand) (same : ∀ y, y ∈ used' ↔ y ∈ used) :
    s.Kept used' busy hand := by
  obtain ⟨⟨table, isUsed, made, ref, set, alone, root⟩, chans⟩ := kept
  exact ⟨⟨table, fun y => (same y).trans (isUsed y), made, ref, set, alone, root⟩, chans⟩

theorem putfid_attached (attached : (s.fid f).attached = true) :
    s.exputfid f = s.setFid f { s.fid f with ref := (s.fid f).ref - 1 } := by
  unfold exputfid
  simp [attached]

/-- A new fid is given its channel. -/
theorem Kept.bind {busy : List Nat} {x : UInt64} (kept : s.Kept used (f :: busy) [c]) (found : s.find x = some f)
    (blank : (s.fid f).chan = none) (attached : (s.fid f).attached = true) (new : ¬s.Owns c) :
    ((s.setChan f c).exputfid f).Kept used busy [] := by
  have set := kept.setChan found List.mem_cons_self List.mem_cons_self fun owns => absurd owns new
  have isFid : (s.setChan f c).fid f = { s.fid f with chan := some c } := by simp
  simpa [blank] using set.putfid List.mem_cons_self (by rw [isFid]; exact attached) (by rw [isFid]; nofun)

theorem bind_find {y : UInt64} {g : Nat} (kept : s.Kept used (f :: hand) [c]) (attached : (s.fid f).attached = true)
    (found : s.find y = some g) (other : g ≠ f) :
    ((s.setChan f c).exputfid f).find y = some g ∧ ((s.setChan f c).exputfid f).fid g = s.fid g := by
  have isFid : (s.setChan f c).fid f = { s.fid f with chan := some c } := by simp
  rw [putfid_attached (by rw [isFid]; exact attached)]
  obtain ⟨table, find⟩ := kept.entries.table.setFid (f := f) (v := { s.fid f with chan := some c }) rfl
  exact ⟨table.setFid_find _ rfl ((find y).trans found), by simp [other]⟩

/-- A new fid goes again, as no channel was to be had for it. -/
theorem Kept.unmake (kept : s.Kept used [] []) (new : s.exmkfid fid.toUInt64 = some (f, s')) (small : fid.toNat < 2 ^ 31) :
    ((s'.detach f).exputfid f).Kept used [] [] := by
  obtain ⟨found, blank, _⟩ := kept.mkfid_found new small
  have missing : fid ∉ used := fun member => by
    have known := (kept.entries.used fid).mp member
    rw [(mkfid_some new).2.1] at known
    contradiction
  have next := (kept.mkfid new small).detach List.mem_cons_self
  have found' : (s'.detach f).find fid.toUInt64 = some f :=
    (kept.mkfid new small).entries.table.setFid_find _ rfl found
  have less : ∀ y, y ∈ used ↔ y ∈ fid :: used ∧ y.toUInt64 ≠ fid.toUInt64 := fun y => by
    rw [Ne, toUInt64_inj, List.mem_cons]
    refine ⟨fun member => ⟨Or.inr member, fun same => missing (same ▸ member)⟩, fun ⟨member, other⟩ => member.resolve_left other⟩
  simpa using next.putfid_last List.mem_cons_self (by simp) (by simp) found' less

namespace Taken

variable (taken : s.Taken used fid f c₀ hand)

include taken

theorem same (same : SameFids s s') (chans : s'.Chans hand') : s'.Taken used fid f c₀ hand' :=
  ⟨⟨same.entries taken.kept.entries, chans⟩, by rw [same.find, taken.found], by rw [same.1, taken.chan],
    by rw [same.1, taken.attached]⟩

theorem newchan : (s.newchan ch).Taken used fid f c₀ (s.opens :: hand) :=
  taken.same newchan_same taken.kept.chans.newchan

theorem cclose (member : c ∈ hand) : (s.cclose c).Taken used fid f c₀ (hand.erase c) :=
  taken.same cclose_same (taken.kept.chans.cclose member)

theorem owns : s.Owns c₀ := Or.inr ⟨_, f, taken.found, taken.chan⟩

theorem incref : (s.incref c₀).Taken used fid f c₀ (c₀ :: hand) :=
  taken.same incref_same (taken.kept.chans.incref (taken.kept.chans.pos_of_owns taken.owns))

/-- The channel in hand takes the place of that of the fid. -/
theorem replace (mine : s.Owns c → c = c₀) (only : hand = [c]) : ((s.cclose c₀).setChan f c).Taken used fid f c [] := by
  subst only
  have set := taken.kept.setChan taken.found List.mem_cons_self List.mem_cons_self fun owns => mine owns ▸ taken.chan
  have isFid : (s.setChan f c).fid f = { s.fid f with chan := some c } := by simp
  have next : (s.setChan f c).Taken used fid f c [c₀] :=
    ⟨by simpa [taken.chan] using set, taken.kept.entries.table.setFid_find _ rfl taken.found, by rw [isFid],
      by rw [isFid]; exact taken.attached⟩
  have swap : (s.cclose c₀).setChan f c = (s.setChan f c).cclose c₀ := by
    unfold Fids.cclose Fids.setChan Fids.setFid
    split <;> rfl
  rw [swap]
  simpa using next.cclose List.mem_cons_self

theorem setOffset {offset : Int} : (s.setOffset f offset).Taken used fid f c₀ hand :=
  ⟨taken.kept.setOffset List.mem_cons_self, taken.kept.entries.table.setFid_find _ rfl taken.found,
    by simp [taken.chan], by simp [taken.attached]⟩

/-- How a handler ends. -/
theorem put (only : hand = []) : (s.exputfid f).Kept used [] [] := by
  subst only
  simpa using taken.kept.putfid List.mem_cons_self taken.attached (by rw [taken.chan]; nofun)

/-- How `Exclunk` and `Exremove` end. -/
theorem drop (only : hand = []) (less : ∀ y, y ∈ used' ↔ y ∈ used ∧ y ≠ fid) :
    ((s.detach f).exputfid f).Kept used' [] [] := by
  subst only
  have found : (s.detach f).find fid.toUInt64 = some f := taken.kept.entries.table.setFid_find _ rfl taken.found
  have gone := (taken.kept.detach List.mem_cons_self).putfid_last List.mem_cons_self (by simp) (by simp) found
    fun y => (less y).trans (and_congr_right' (not_congr toUInt64_inj.symm))
  simpa using gone

/-- What `exmount` returns is the channel itself, or one that is no fid's. -/
theorem exmount (only : hand = []) : ((s.exmount c₀ d) = (none, s) ∧ (s.chan c₀).opened = false ∧ d.mount = .raises) ∨
    ∃ c m s', s.exmount c₀ d = (some (c, m), s') ∧ s'.Taken used fid f c₀ [c] ∧ (s'.Owns c → c = c₀) := by
  subst only
  unfold Fids.exmount
  split
  · exact Or.inr ⟨_, _, _, rfl, taken.incref, fun _ => rfl⟩
  · rename_i closed
    cases mount : d.mount with
    | no => exact Or.inr ⟨_, _, _, rfl, taken.incref, fun _ => rfl⟩
    | raises => exact Or.inl ⟨rfl, by simpa using closed, rfl⟩
    | yes ch => exact Or.inr ⟨_, _, _, rfl, taken.newchan, fun owns => absurd ((newchan_same.owns _).mp owns) taken.kept.chans.new.1⟩

/-- A device puts another channel in the place of the one in hand. -/
theorem other (only : hand = [c]) : ((s.newchan ch).cclose c).Taken used fid f c₀ [s.opens] ∧
    ¬((s.newchan ch).cclose c).Owns s.opens := by
  subst only
  refine ⟨?_, fun owns => taken.kept.chans.new.1 ((newchan_same.owns _).mp ((cclose_same.owns _).mp owns))⟩
  have off : s.opens ≠ c := fun same => taken.kept.chans.new.2 (same ▸ List.mem_cons_self)
  simpa [List.erase_cons, off] using taken.newchan.cclose (c := c) (by simp)

theorem devopen (mine : s.Owns c → c = c₀) (only : hand = [c]) : s.devopen c d = (none, s) ∨
    ∃ c' s', s.devopen c d = (some c', s') ∧ s'.Taken used fid f c₀ [c'] ∧ (s'.Owns c' → c' = c₀) := by
  unfold Fids.devopen
  cases d.open_ with
  | raises => exact Or.inl rfl
  | same ch =>
    subst only
    exact Or.inr ⟨_, _, rfl, taken.same record_same ⟨taken.kept.chans.held, taken.kept.chans.free, taken.kept.chans.fresh,
      taken.kept.chans.closed, taken.kept.chans.once, taken.kept.chans.safe⟩, mine⟩
  | other ch => exact Or.inr ⟨_, _, rfl, (taken.other only).1, fun owns => absurd owns (taken.other only).2⟩

end Taken

theorem Kept.attach (kept : s.Kept used [] []) (small : fid.toNat < 2 ^ 31) :
    (s.exattach fid d).2.Kept (((FidReq.attach fid).made (s.exattach fid d).1).toList ++ used) [] [] := by
  unfold exattach
  split
  · exact kept
  · rename_i f s' new
    cases d.clone with
    | none => exact kept.unmake new small
    | some ch =>
      obtain ⟨found, blank, _⟩ := kept.mkfid_found new small
      have made := kept.mkfid new small
      have chans : (s'.newchan ch).Chans [s'.opens] := made.chans.newchan
      refine Kept.bind ⟨newchan_same.entries made.entries, chans⟩ ((newchan_same.find _).trans found) ?_ ?_ fun owns =>
        absurd ((newchan_same.owns _).mp owns) made.chans.new.1 <;> rw [newchan_same.1, blank]

/-- A fid that is in no entry is not in use. -/
theorem Kept.unknown (kept : s.Kept used [] []) (missing : s.find fid.toUInt64 = none)
    (less : ∀ y, y ∈ used' ↔ y ∈ used ∧ y ≠ fid) : s.Kept used' [] [] := by
  refine kept.congr fun y => (less y).trans ⟨And.left, fun known => ⟨known, ?_⟩⟩
  rintro rfl
  have found := (kept.entries.used y).mp known
  rw [missing] at found
  contradiction

theorem Kept.clunk (kept : s.Kept used [] []) (less : ∀ y, y ∈ used' ↔ y ∈ used ∧ y ≠ fid) :
    (s.exclunk fid).2.Kept used' [] [] := by
  unfold exclunk
  split
  · exact kept.unknown (kept.getfid_none ‹_›) less
  · obtain ⟨c, taken, _⟩ := kept.taken ‹_›
    exact taken.drop rfl less

/-- What the loop of `Exwalk` ends with, for the channel of the walk in hand. -/
theorem Taken.walkLoop (names : List String) (i : Nat) (taken : s.Taken used fid f c₀ [c]) (new : ¬s.Owns c) :
    let r := walkLoop d i names c s
    match r.1 with
    | none => r.2.2.Taken used fid f c₀ [] ∧ r.2.1 < i + names.length
    | some c' => r.2.2.Taken used fid f c₀ [c'] ∧ ¬r.2.2.Owns c' ∧ r.2.1 = i + names.length := by
  induction names generalizing i c s with
  | nil => exact ⟨taken, new, rfl⟩
  | cons name names ih =>
    rw [List.length_cons, show i + (names.length + 1) = i + 1 + names.length by omega]
    unfold Fids.walkLoop
    split
    · exact ih (i + 1) taken new
    · cases d.walk i with
      | none => exact ⟨by simpa using taken.cclose List.mem_cons_self, by dsimp only; omega⟩
      | some ch => exact ih (i + 1) (taken.other rfl).1 (taken.other rfl).2

theorem Kept.walk {newfid : UInt32} {names : List String} (kept : s.Kept used [] [])
    (clear : ∀ f c, s.find fid.toUInt64 = some f → (s.fid f).chan = some c → (s.chan c).opened = false →
      d.clone ≠ none ∧ (newfid ≠ fid → newfid.toNat < 2 ^ 31)) :
    (s.exwalk fid newfid names d).2.Kept
      (((FidReq.walk fid newfid names).made (s.exwalk fid newfid names d).1).toList ++ used) [] [] := by
  refine kept.withFid (P := fun r => r.2.Kept (((FidReq.walk fid newfid names).made r.1).toList ++ used) [] []) (fun _ => kept)
    fun f c₀ s' taken found chan record => ?_
  split
  · exact taken.put rfl
  · rename_i closed
    obtain ⟨clone, small⟩ := clear f c₀ found chan (by rw [← record]; simpa using closed)
    obtain ⟨ch, isClone⟩ := Option.ne_none_iff_exists'.mp clone
    rw [isClone]
    dsimp only
    have begun : (s'.newchan ch).Taken used fid f c₀ [s'.opens] := taken.newchan
    have loop := begun.walkLoop (d := d) names 0 fun owns =>
      absurd ((newchan_same.owns _).mp owns) taken.kept.chans.new.1
    rcases ran : walkLoop d 0 names s'.opens (s'.newchan ch) with ⟨_ | c, n, s₁⟩
    · rw [ran] at loop
      obtain ⟨taken₁, (short : n < 0 + names.length)⟩ := loop
      have none : (FidReq.walk fid newfid names).made (if n = 0 then .error d.errstr else .walk n) = none := by
        split
        · rfl
        · exact if_neg fun whole => by omega
      dsimp only
      rw [none]
      exact taken₁.put rfl
    · rw [ran] at loop
      obtain ⟨taken₁, new, whole⟩ := loop
      rw [Nat.zero_add] at whole
      dsimp only
      split
      · rename_i same
        rw [show (FidReq.walk fid newfid names).made (.walk n) = none from if_neg fun both => both.2 same]
        exact (taken₁.replace (fun owns => absurd owns new) rfl).put rfl
      · rename_i other
        split
        · exact (taken₁.cclose List.mem_cons_self).put (by simp)
        · rename_i nf s₂ made
          rw [show (FidReq.walk fid newfid names).made (.walk n) = some newfid from if_pos ⟨whole, other⟩]
          obtain ⟨found₂, blank, _⟩ := taken₁.kept.mkfid_found made (small other)
          obtain ⟨old, same, isOther⟩ := taken₁.kept.mkfid_old made (small other) taken₁.found
          have kept₂ := taken₁.kept.mkfid made (small other)
          obtain ⟨found₃, same₃⟩ := bind_find kept₂ (by rw [blank]) old isOther
          have bound := kept₂.bind found₂ (by rw [blank]) (by rw [blank]) fun owns =>
            new ((taken₁.kept.mkfid_owns made (small other) c).mp owns)
          have taken₃ : ((s₂.setChan nf c).exputfid nf).Taken (newfid :: used) fid f c₀ [] :=
            ⟨bound, found₃, by rw [same₃, same, taken₁.chan], by rw [same₃, same, taken₁.attached]⟩
          exact taken₃.put rfl

theorem Kept.open_ (kept : s.Kept used [] []) (clear : d.mount = .raises → ∀ f c, s.find fid.toUInt64 = some f →
    (s.fid f).chan = some c → (s.chan c).opened = true) : (s.exopen fid d).2.Kept used [] [] := by
  refine kept.withFid (P := fun r => r.2.Kept used [] []) (fun _ => kept) fun f c₀ s' taken found chan record => ?_
  split
  · exact taken.put rfl
  · rename_i closed
    obtain ⟨_, isClosed, mount⟩ | ⟨c, m, s₁, ran, taken₁, mine⟩ := taken.exmount (d := d) rfl
    · rw [record, clear mount f c₀ found chan] at isClosed
      contradiction
    · rw [ran]
      dsimp only
      obtain ran₂ | ⟨c', s₂, ran₂, taken₂, mine₂⟩ := taken₁.devopen (d := d) mine rfl
      · rw [ran₂]
        exact (taken₁.cclose List.mem_cons_self).put (by simp)
      · rw [ran₂]
        exact (taken₂.replace mine₂ rfl).setOffset.put rfl

theorem Taken.createIn (taken : s.Taken used fid f c₀ [c]) (mine : s.Owns c → c = c₀) :
    (s.createIn f c₀ c d).2.Kept used [] [] := by
  unfold Fids.createIn
  cases d.create with
  | none => exact (taken.cclose List.mem_cons_self).put (by simp)
  | some ch =>
    have next : ({ s with chan := Function.update s.chan c ch } : Fids).Taken used fid f c₀ [c] :=
      taken.same record_same ⟨taken.kept.chans.held, taken.kept.chans.free, taken.kept.chans.fresh,
        taken.kept.chans.closed, taken.kept.chans.once, taken.kept.chans.safe⟩
    exact (next.replace mine rfl).put rfl

theorem Kept.create {name : String} (kept : s.Kept used [] []) : (s.excreate fid name d).2.Kept used [] [] := by
  refine kept.withFid (P := fun r => r.2.Kept used [] []) (fun _ => kept) fun f c₀ s' taken _ _ _ => ?_
  split_ifs
  · exact taken.put rfl
  · exact taken.put rfl
  · exact taken.put rfl
  · obtain ⟨ran, _, _⟩ | ⟨c, m, s₁, ran, taken₁, mine⟩ := taken.exmount (d := d) rfl
    · rw [ran]
      exact taken.put rfl
    · rw [ran]
      cases m with
      | false => exact taken₁.createIn mine
      | true =>
        dsimp only
        unfold createdir
        cases d.createdir with
        | none => exact (taken₁.cclose List.mem_cons_self).put (by simp)
        | some ch =>
          obtain ⟨next, new⟩ : ((s₁.newchan ch).cclose c).Taken used fid f c₀ [s₁.opens] ∧ _ := taken₁.other rfl
          have unique : ((s₁.newchan ch).cclose c).chanRef s₁.opens = 1 := by
            rw [next.kept.chans.free _ new, List.count_singleton_self]
          unfold cunique
          dsimp only
          rw [if_pos unique]
          exact next.createIn fun owns => absurd owns new

theorem Kept.read {count : Nat} {offset : Int} (kept : s.Kept used [] []) :
    (s.exread fid count offset d).2.Kept used [] [] := by
  refine kept.withFid (P := fun r => r.2.Kept used [] []) (fun _ => kept) fun f c s' taken _ _ _ => ?_
  split_ifs
  · exact taken.put rfl
  · exact taken.put rfl
  · exact taken.put rfl
  · exact taken.put rfl
  · exact taken.put rfl
  · cases d.io with
    | none => exact taken.setOffset.put rfl
    | some n => exact taken.setOffset.setOffset.put rfl
  · cases d.io with
    | none => exact taken.put rfl
    | some n => exact taken.setOffset.put rfl

theorem Kept.write {count : Nat} {offset : Int} (kept : s.Kept used [] []) :
    (s.exwrite fid count offset d).2.Kept used [] [] := by
  refine kept.withFid (P := fun r => r.2.Kept used [] []) (fun _ => kept) fun f c s' taken _ _ _ => ?_
  split_ifs
  · exact taken.put rfl
  · exact taken.put rfl
  · exact taken.put rfl
  · exact taken.put rfl
  · exact taken.put rfl
  · cases d.io <;> exact taken.put rfl

theorem Kept.stat (kept : s.Kept used [] []) (clear : d.mount = .raises → ∀ f c, s.find fid.toUInt64 = some f →
    (s.fid f).chan = some c → (s.chan c).opened = true) : (s.exstat fid d).2.Kept used [] [] := by
  refine kept.withFid (P := fun r => r.2.Kept used [] []) (fun _ => kept) fun f c₀ s' taken found chan record => ?_
  obtain ⟨_, isClosed, mount⟩ | ⟨c, m, s₁, ran, taken₁, _⟩ := taken.exmount (d := d) rfl
  · rw [record, clear mount f c₀ found chan] at isClosed
    contradiction
  · rw [ran]
    dsimp only
    cases d.io <;> exact (taken₁.cclose List.mem_cons_self).put (by simp)

theorem Kept.wstat (kept : s.Kept used [] []) : (s.exwstat fid d).2.Kept used [] [] := by
  refine kept.withFid (P := fun r => r.2.Kept used [] []) (fun _ => kept) fun f c₀ s' taken _ _ _ => ?_
  split
  · exact taken.put rfl
  · obtain ⟨ran, _, _⟩ | ⟨c, m, s₁, ran, taken₁, _⟩ := taken.exmount (d := d) rfl <;> rw [ran]
    · exact taken.put rfl
    · exact (taken₁.cclose List.mem_cons_self).put (by simp)

theorem Kept.remove (kept : s.Kept used [] []) (less : ∀ y, y ∈ used' ↔ y ∈ used ∧ y ≠ fid) :
    (s.exremove fid d).2.Kept used' [] [] := by
  refine kept.withFid (P := fun r => r.2.Kept used' [] []) (fun none => kept.unknown none less) fun f c₀ s' taken _ _ _ => ?_
  obtain ⟨ran, _, _⟩ | ⟨c, m, s₁, ran, taken₁, _⟩ := taken.exmount (d := d) rfl <;> rw [ran]
  · exact taken.drop rfl less
  · exact (taken₁.cclose List.mem_cons_self).drop (by simp) less

end Fids

end Inferno.Export
