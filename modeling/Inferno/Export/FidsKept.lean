import Inferno.Export.FidsInv

namespace Inferno.Export

namespace Fids

/-- The export holds a reference to the channel: it is its root, or that of a fid. -/
def Owns (s : Fids) (c : Nat) : Prop := c = 0 ∨ ∃ x f, s.find x = some f ∧ (s.fid f).chan = some c

/-- The entries while the requests that have taken a reference to them are those of `busy`. -/
structure Entries (s : Fids) (used : List UInt32) (busy : List Nat) : Prop where
  table : s.Table
  used : ∀ fid : UInt32, fid ∈ used ↔ (s.find fid.toUInt64).isSome
  made : ∀ f ∈ busy, f < s.made
  ref : ∀ x f, s.find x = some f → (s.fid f).ref = busy.count f
  set : ∀ x f, s.find x = some f → f ∉ busy → (s.fid f).attached = true ∧ (s.fid f).chan ≠ none
  alone : ∀ x y f g c, s.find x = some f → s.find y = some g → (s.fid f).chan = some c → (s.fid g).chan = some c → f = g
  root : ∀ x f, s.find x = some f → (s.fid f).chan ≠ some 0

/-- The channels while the requests have the references of `hand` to them. -/
structure Chans (s : Fids) (hand : List Nat) : Prop where
  held : ∀ c, s.Owns c → s.chanRef c = 1 + hand.count c
  free : ∀ c, ¬s.Owns c → s.chanRef c = hand.count c
  fresh : ∀ c, s.opens ≤ c → s.chanRef c = 0
  closed : ∀ c, c ∈ s.closed ↔ c < s.opens ∧ s.chanRef c = 0
  once : s.closed.Nodup
  safe : s.crashed = false

structure Kept (s : Fids) (used : List UInt32) (busy : List Nat) (hand : List Nat) : Prop where
  entries : s.Entries used busy
  chans : s.Chans hand

variable {s s' : Fids} {used used' : List UInt32} {busy hand : List Nat} {f g c c₀ : Nat} {fid : UInt64} {ch : Chan}

/-- Two states with the same entries. -/
def SameFids (s s' : Fids) : Prop := s'.fid = s.fid ∧ s'.hash = s.hash ∧ s'.made = s.made

namespace SameFids

theorem find (same : SameFids s s') (x : UInt64) : s'.find x = s.find x := by
  unfold Fids.find
  rw [same.1, same.2.1]

theorem owns (same : SameFids s s') (c : Nat) : s'.Owns c ↔ s.Owns c := by
  unfold Owns
  simp only [same.find, same.1]

theorem entries (same : SameFids s s') (entries : s.Entries used busy) : s'.Entries used busy := by
  obtain ⟨table, isUsed, made, ref, set, alone, root⟩ := entries
  have again := table.congr same.2.1 same.2.2 fun f => by rw [same.1]
  refine ⟨again.1, ?_, by rwa [same.2.2], ?_, ?_, ?_, ?_⟩ <;> simpa only [same.find, same.1]

end SameFids

theorem newchan_same : SameFids s (s.newchan ch) := ⟨rfl, rfl, rfl⟩

theorem incref_same : SameFids s (s.incref c) := ⟨rfl, rfl, rfl⟩

theorem cclose_same : SameFids s (s.cclose c) := by
  unfold cclose
  split <;> exact ⟨rfl, rfl, rfl⟩

theorem record_same : SameFids s { s with chan := Function.update s.chan c ch } := ⟨rfl, rfl, rfl⟩

namespace Chans

theorem pos_of_owns (chans : s.Chans hand) (owns : s.Owns c) : 0 < s.chanRef c := by
  rw [chans.held c owns]
  omega

theorem count_le (chans : s.Chans hand) (c : Nat) : hand.count c ≤ s.chanRef c := by
  by_cases owns : s.Owns c
  · rw [chans.held c owns]
    omega
  · exact Nat.le_of_eq (chans.free c owns).symm

theorem new (chans : s.Chans hand) : ¬s.Owns s.opens ∧ s.opens ∉ hand := by
  have none := chans.fresh s.opens (Nat.le_refl _)
  refine ⟨fun owns => ?_, fun member => ?_⟩
  · have := chans.pos_of_owns owns
    omega
  · have := chans.count_le s.opens
    have := List.count_pos_iff.mpr member
    omega

/-- The references change as those that the requests have do. -/
theorem change {hand' : List Nat} (chans : s.Chans hand) (same : SameFids s s')
    (ref : ∀ c, s'.chanRef c + hand.count c = s.chanRef c + hand'.count c)
    (fresh : ∀ c, s'.opens ≤ c → s'.chanRef c = 0)
    (isClosed : ∀ c, c ∈ s'.closed ↔ c < s'.opens ∧ s'.chanRef c = 0) (once : s'.closed.Nodup)
    (safe : s'.crashed = false) : s'.Chans hand' := by
  refine ⟨fun c owns => ?_, fun c owns => ?_, fresh, isClosed, once, safe⟩
  · have := chans.held c ((same.owns c).mp owns)
    have := ref c
    omega
  · have := chans.free c fun was => owns ((same.owns c).mpr was)
    have := ref c
    omega

theorem newchan (chans : s.Chans hand) : (s.newchan ch).Chans (s.opens :: hand) := by
  have none := chans.fresh s.opens (Nat.le_refl _)
  have other : ∀ c ≠ s.opens, (s.newchan ch).chanRef c = s.chanRef c := fun c other => Function.update_of_ne other ..
  have mine : (s.newchan ch).chanRef s.opens = 1 := Function.update_self ..
  refine chans.change newchan_same (fun c => ?_) (fun c (above : s.opens + 1 ≤ c) => ?_) (fun c => ?_) chans.once
    chans.safe
  · by_cases here : c = s.opens
    · subst here
      rw [mine, List.count_cons_self]
      omega
    · rw [other c here, List.count_cons_of_ne (Ne.symm here)]
  · rw [other c (by omega), chans.fresh c (by omega)]
  · change c ∈ s.closed ↔ c < s.opens + 1 ∧ _
    rw [chans.closed c]
    by_cases here : c = s.opens
    · subst here
      rw [mine]
      omega
    · rw [other c here]
      omega

theorem incref (chans : s.Chans hand) (live : 0 < s.chanRef c) : (s.incref c).Chans (c :: hand) := by
  have other : ∀ k ≠ c, (s.incref c).chanRef k = s.chanRef k := fun k other => Function.update_of_ne other ..
  have mine : (s.incref c).chanRef c = s.chanRef c + 1 := Function.update_self ..
  have below : c < s.opens := by
    by_contra high
    have := chans.fresh c (by omega)
    omega
  refine chans.change incref_same (fun k => ?_) (fun k (above : s.opens ≤ k) => ?_) (fun k => ?_) chans.once chans.safe
  · by_cases here : k = c
    · subst here
      rw [mine, List.count_cons_self]
      omega
    · rw [other k here, List.count_cons_of_ne (Ne.symm here)]
  · rw [other k (by omega), chans.fresh k above]
  · change k ∈ s.closed ↔ k < s.opens ∧ _
    rw [chans.closed k]
    by_cases here : k = c
    · subst here
      rw [mine]
      omega
    · rw [other k here]

theorem cclose (chans : s.Chans hand) (member : c ∈ hand) : (s.cclose c).Chans (hand.erase c) := by
  have count := chans.count_le c
  have pos := List.count_pos_iff.mpr member
  have live : s.chanRef c ≠ 0 := by omega
  have below : c < s.opens := by
    by_contra high
    have := chans.fresh c (by omega)
    omega
  have unlisted : c ∉ s.closed := fun was => live ((chans.closed c).mp was).2
  have same := cclose_same (s := s) (c := c)
  unfold Fids.cclose at same ⊢
  rw [if_neg live] at same ⊢
  refine chans.change same (fun k => ?_) (fun k (above : s.opens ≤ k) => ?_) (fun k => ?_) ?_ chans.safe
  · by_cases here : k = c
    · subst here
      simp only [Function.update_self, List.count_erase_self]
      omega
    · simp [here, List.count_erase_of_ne here]
  · have here : k ≠ c := by omega
    simpa [here] using chans.fresh k above
  · by_cases here : k = c
    · subst here
      simp only [Function.update_self]
      split
      · simp
        omega
      · simp only [unlisted, false_iff]
        omega
    · have : (k ∈ if s.chanRef c = 1 then s.closed ++ [c] else s.closed) ↔ k ∈ s.closed := by
        split <;> simp [here]
      simpa [here, this] using chans.closed k
  · dsimp only
    split
    · exact List.nodup_append.mpr ⟨chans.once, List.nodup_singleton c, fun k was _ is => by
      obtain rfl := List.mem_singleton.mp is
      exact fun same => unlisted (same ▸ was)⟩
    · exact chans.once

end Chans

/-- An entry changes that keeps its number and its channel. -/
theorem Kept.setFid {v : Fid} {busy' : List Nat} (kept : s.Kept used busy hand) (number : v.fid = (s.fid f).fid)
    (chan : v.chan = (s.fid f).chan) (ref : ∀ x, s.find x = some f → v.ref = busy'.count f)
    (others : ∀ g, g ≠ f → busy'.count g = busy.count g) (made : f ∈ busy' → f < s.made)
    (set : ∀ x, s.find x = some f → f ∉ busy' → v.attached = true ∧ v.chan ≠ none) :
    (s.setFid f v).Kept used busy' hand := by
  obtain ⟨⟨table, isUsed, made', ref', set', alone, root⟩, chans⟩ := kept
  obtain ⟨table', find⟩ := table.setFid number
  have isChan : ∀ g, ((s.setFid f v).fid g).chan = (s.fid g).chan := fun g => by
    rw [setFid_fid]
    split
    · rw [chan, ‹g = f›]
    · rfl
  have member : ∀ g, g ≠ f → (g ∈ busy' ↔ g ∈ busy) := fun g other => by
    rw [← List.count_pos_iff, ← List.count_pos_iff, others g other]
  have owns : ∀ c, (s.setFid f v).Owns c ↔ s.Owns c := fun c => by
    unfold Owns
    simp only [find, isChan]
  refine ⟨⟨table', ?_, ?_, ?_, ?_, ?_, ?_⟩, ?_⟩
  · simpa only [find] using isUsed
  · intro g inBusy
    by_cases here : g = f
    · subst here
      exact made inBusy
    · exact made' g ((member g here).mp inBusy)
  · intro x g found
    rw [find] at found
    rw [setFid_fid]
    split
    · rename_i here
      subst here
      exact ref x found
    · rw [others g ‹_›]
      exact ref' x g found
  · intro x g found off
    rw [find] at found
    rw [setFid_fid]
    split
    · rename_i here
      subst here
      exact set x found off
    · exact set' x g found fun inBusy => off ((member g ‹_›).mpr inBusy)
  · simpa only [find, isChan] using alone
  · simpa only [find, isChan] using root
  · exact ⟨fun c isOwned => chans.held c ((owns c).mp isOwned), fun c free => chans.free c fun was => free ((owns c).mpr was),
      chans.fresh, chans.closed, chans.once, chans.safe⟩

theorem Kept.getfid (kept : s.Kept used busy hand) (got : s.exgetfid fid = some (f, s')) :
    s'.Kept used (f :: busy) hand ∧ s.find fid = some f ∧ s' = s.setFid f { s.fid f with ref := (s.fid f).ref + 1 } := by
  unfold exgetfid at got
  split at got
  · contradiction
  · rename_i g found
    split at got
    · cases got
      have made := kept.entries.table.made _ f (find_some found).1
      refine ⟨kept.setFid rfl rfl (fun x at_ => ?_) (fun g other => List.count_cons_of_ne (Ne.symm other))
        (fun _ => made) (fun _ _ off => absurd List.mem_cons_self off), found, rfl⟩
      simp [kept.entries.ref x f at_]
    · contradiction

theorem Kept.detach (kept : s.Kept used busy hand) (member : f ∈ busy) : (s.detach f).Kept used busy hand :=
  kept.setFid rfl rfl (fun x => kept.entries.ref x f) (fun _ _ => rfl) (kept.entries.made f)
    (fun _ _ off => absurd member off)

theorem Kept.setOffset {offset : Int} (kept : s.Kept used busy hand) (member : f ∈ busy) :
    (s.setOffset f offset).Kept used busy hand :=
  kept.setFid rfl rfl (fun x => kept.entries.ref x f) (fun _ _ => rfl) (kept.entries.made f)
    (fun _ _ off => absurd member off)

/-- An attached entry stays. -/
theorem Kept.putfid (kept : s.Kept used busy hand) (member : f ∈ busy) (attached : (s.fid f).attached = true)
    (chan : (s.fid f).chan ≠ none) : (s.exputfid f).Kept used (busy.erase f) hand := by
  unfold exputfid
  dsimp only
  rw [if_neg (by simp [attached])]
  refine kept.setFid rfl rfl (fun x at_ => ?_) (fun g other => List.count_erase_of_ne other)
    (fun inBusy => kept.entries.made f (List.mem_of_mem_erase inBusy)) (fun _ _ _ => ⟨attached, chan⟩)
  have pos := List.count_pos_iff.mpr member
  have ref := kept.entries.ref x f at_
  rw [List.count_erase_self]
  dsimp only
  omega

theorem count_toList {o : Option Nat} (off : o ≠ some c) : o.toList.count c = 0 :=
  List.count_eq_zero.mpr (by simpa using off)

theorem Kept.unlink (kept : s.Kept used busy hand) (found : s.find fid = some f)
    (less : ∀ y, y ∈ used' ↔ y ∈ used ∧ y.toUInt64 ≠ fid) :
    (s.unlink f).Kept used' busy ((s.fid f).chan.toList ++ hand) := by
  obtain ⟨⟨table, isUsed, made, ref, set, alone, root⟩, chans⟩ := kept
  obtain ⟨table', find⟩ := table.unlink found
  have was : ∀ {x g}, (s.unlink f).find x = some g → s.find x = some g ∧ g ≠ f := fun {x g} now => by
    rw [find] at now
    split at now
    · contradiction
    · rename_i other
      exact ⟨now, fun is => other ((find_some now).2.symm.trans ((congrArg s.number is).trans (find_some found).2))⟩
  have owns : ∀ c, (s.unlink f).Owns c ↔ s.Owns c ∧ (s.fid f).chan ≠ some c := fun c => by
    constructor
    · rintro (rfl | ⟨x, g, now, chan⟩)
      · exact ⟨Or.inl rfl, root fid f found⟩
      · obtain ⟨now, other⟩ := was now
        exact ⟨Or.inr ⟨x, g, now, chan⟩, fun same => other (alone x fid g f c now found chan same)⟩
    · rintro ⟨rfl | ⟨x, g, now, chan⟩, other⟩
      · exact Or.inl rfl
      · refine Or.inr ⟨x, g, ?_, chan⟩
        rw [find, if_neg, now]
        rintro rfl
        exact other (Option.some.inj (now.symm.trans found) ▸ chan)
  refine ⟨⟨table', fun y => ?_, made, fun x g now => ref x g (was now).1, fun x g now => set x g (was now).1,
    fun x y g h c now also => alone x y g h c (was now).1 (was also).1, fun x g now => root x g (was now).1⟩,
    ⟨fun c isOwned => ?_, fun c free => ?_, chans.fresh, chans.closed, chans.once, chans.safe⟩⟩
  · rw [less, isUsed, find]
    split <;> simp [*]
  · obtain ⟨isOwned, other⟩ := (owns c).mp isOwned
    rw [List.count_append, count_toList other, Nat.zero_add]
    exact chans.held c isOwned
  · rw [List.count_append]
    by_cases mine : (s.fid f).chan = some c
    · rw [mine]
      have held : (s.unlink f).chanRef c = 1 + hand.count c := chans.held c (Or.inr ⟨fid, f, found, mine⟩)
      simpa using held
    · rw [count_toList mine, Nat.zero_add]
      exact chans.free c fun isOwned => free ((owns c).mpr ⟨isOwned, mine⟩)

/-- The last reference to a detached entry is put. -/
theorem Kept.putfid_last (kept : s.Kept used busy hand) (member : f ∈ busy) (last : f ∉ busy.erase f)
    (attached : (s.fid f).attached = false) (found : s.find fid = some f)
    (less : ∀ y, y ∈ used' ↔ y ∈ used ∧ y.toUInt64 ≠ fid) : (s.exputfid f).Kept used' (busy.erase f) hand := by
  have once : busy.count f = 1 := by
    have pos := List.count_pos_iff.mpr member
    have none := List.count_eq_zero.mpr last
    rw [List.count_erase_self] at none
    omega
  have ref : (s.fid f).ref - 1 = 0 := by rw [kept.entries.ref fid f found, once]; rfl
  have gone : ∀ x, (s.unlink f).find x ≠ some f := fun x now => by
    rw [(kept.entries.table.unlink found).2] at now
    split at now
    · contradiction
    · rename_i other
      exact other ((find_some now).2.symm.trans (find_some found).2)
  have left : ((s.unlink f).setFid f { s.fid f with ref := (s.fid f).ref - 1 }).Kept used' (busy.erase f)
      ((s.fid f).chan.toList ++ hand) :=
    (kept.unlink found less).setFid rfl rfl (fun x now => absurd now (gone x))
      (fun g other => List.count_erase_of_ne other) (fun inBusy => absurd inBusy last) (fun x now => absurd now (gone x))
  have put : s.exputfid f = (s.fid f).chan.elim ((s.unlink f).setFid f { s.fid f with ref := (s.fid f).ref - 1 })
      ((s.unlink f).setFid f { s.fid f with ref := (s.fid f).ref - 1 }).cclose := by
    unfold exputfid
    dsimp only
    simp only [setFid_fid, if_pos, ref, attached, and_self]
    rfl
  rw [put]
  cases chan : (s.fid f).chan with
  | none => simpa [chan] using left
  | some c =>
    rw [chan] at left
    have closed := left.chans.cclose (c := c) (by simp)
    exact ⟨cclose_same.entries left.entries, by simpa using closed⟩

theorem Kept.setChan (kept : s.Kept used busy hand) (found : s.find fid = some f) (member : f ∈ busy) (inHand : c ∈ hand)
    (mine : s.Owns c → (s.fid f).chan = some c) :
    (s.setChan f c).Kept used busy ((s.fid f).chan.toList ++ hand.erase c) := by
  obtain ⟨⟨table, isUsed, made, ref, set, alone, root⟩, chans⟩ := kept
  obtain ⟨table', find⟩ := table.setFid (f := f) (v := { s.fid f with chan := some c }) rfl
  have isFid : ∀ g, (s.setChan f c).fid g = if g = f then { s.fid f with chan := some c } else s.fid g :=
    fun g => setFid_fid ..
  have here : ∀ {x}, s.find x = some f → x = fid := fun now => (find_some now).2.symm.trans (find_some found).2
  have other : ∀ {x g}, g ≠ f → s.find x = some g → (s.fid g).chan ≠ some c := fun {x g} other now chan =>
    other (alone x fid g f c now found chan (mine (Or.inr ⟨x, g, now, chan⟩)))
  have owns : ∀ k, (s.setChan f c).Owns k ↔ s.Owns k ∧ (s.fid f).chan ≠ some k ∨ k = c := fun k => by
    unfold Owns
    simp only [Fids.setChan, find, setFid_fid]
    constructor
    · rintro (rfl | ⟨x, g, now, chan⟩)
      · exact Or.inl ⟨Or.inl rfl, root fid f found⟩
      · split at chan
        · exact Or.inr (Option.some.inj chan).symm
        · rename_i isOther
          exact Or.inl ⟨Or.inr ⟨x, g, now, chan⟩, fun same => isOther (alone x fid g f k now found chan same)⟩
    · rintro (⟨rfl | ⟨x, g, now, chan⟩, off⟩ | rfl)
      · exact Or.inl rfl
      · refine Or.inr ⟨x, g, now, ?_⟩
        rw [if_neg fun same : g = f => off (same ▸ chan)]
        exact chan
      · exact Or.inr ⟨fid, f, found, by rw [if_pos rfl]⟩
  have pos := List.count_pos_iff.mpr inHand
  refine ⟨⟨table', ?_, made, ?_, ?_, ?_, ?_⟩, ⟨?_, ?_, chans.fresh, chans.closed, chans.once, chans.safe⟩⟩
  · exact fun y => (isUsed y).trans (by rw [Fids.setChan, find])
  · intro x g now
    replace now := (find x).symm.trans now
    rw [isFid]
    split
    · rename_i here
      subst here
      exact ref x g now
    · exact ref x g now
  · intro x g now off
    replace now := (find x).symm.trans now
    rw [isFid, if_neg fun same : g = f => off (same ▸ member)]
    exact set x g now off
  · intro x y g h k now also chan chan'
    replace now := (find x).symm.trans now
    replace also := (find y).symm.trans also
    rw [isFid] at chan chan'
    split at chan <;> split at chan'
    · exact ‹g = f›.trans ‹h = f›.symm
    · cases chan
      exact absurd chan' (other ‹_› also)
    · cases chan'
      exact absurd chan (other ‹_› now)
    · exact alone x y g h k now also chan chan'
  · intro x g now chan
    replace now := (find x).symm.trans now
    rw [isFid] at chan
    split at chan
    · exact root fid f found (mine (Or.inl (Option.some.inj chan)) |>.trans chan)
    · exact root x g now chan
  · intro k isOwned
    have ref : (s.setChan f c).chanRef k = s.chanRef k := rfl
    rw [ref, List.count_append]
    by_cases same : k = c
    · subst same
      rw [List.count_erase_self]
      by_cases was : (s.fid f).chan = some k
      · have held := chans.held k (Or.inr ⟨fid, f, found, was⟩)
        simp only [was, Option.toList_some, List.count_singleton_self]
        omega
      · have free := chans.free k fun isOwned => was (mine isOwned)
        rw [count_toList was]
        omega
    · obtain ⟨isOwned, off⟩ := ((owns k).mp isOwned).resolve_right same
      rw [count_toList off, List.count_erase_of_ne same, Nat.zero_add]
      exact chans.held k isOwned
  · intro k free
    have ref : (s.setChan f c).chanRef k = s.chanRef k := rfl
    have same : k ≠ c := fun same => free ((owns k).mpr (Or.inr same))
    rw [ref, List.count_append, List.count_erase_of_ne same]
    by_cases was : (s.fid f).chan = some k
    · have held := chans.held k (Or.inr ⟨fid, f, found, was⟩)
      simpa [was] using held
    · rw [count_toList was, Nat.zero_add]
      exact chans.free k fun isOwned => free ((owns k).mpr (Or.inl ⟨isOwned, was⟩))

theorem toUInt64_inj {a b : UInt32} : a.toUInt64 = b.toUInt64 ↔ a = b := by
  rw [← UInt64.toNat_inj, UInt32.toNat_toUInt64, UInt32.toNat_toUInt64, UInt32.toNat_inj]

section Mkfid

variable {fid : UInt32} (kept : s.Kept used busy hand) (new : s.exmkfid fid.toUInt64 = some (f, s'))
  (small : fid.toNat < 2 ^ 31)

include kept new small

theorem Kept.mkfid_found : s'.find fid.toUInt64 = some f ∧ s'.fid f = ⟨ulongInt fid.toUInt64, 1, true, none, 0⟩ ∧
    f ∉ busy := by
  have find := (kept.entries.table.mkfid new (by rwa [UInt32.toNat_toUInt64])).2
  obtain ⟨rfl, _, rfl⟩ := mkfid_some new
  exact ⟨by rw [find, if_pos rfl], by simp only [setFid_fid, if_pos], fun member =>
    Nat.lt_irrefl _ (kept.entries.made _ member)⟩

/-- The other entries are what they were. -/
theorem Kept.mkfid_old {x : UInt64} (found : s.find x = some g) : s'.find x = some g ∧ s'.fid g = s.fid g ∧ g ≠ f := by
  have find := (kept.entries.table.mkfid new (by rwa [UInt32.toNat_toUInt64])).2
  obtain ⟨rfl, missing, rfl⟩ := mkfid_some new
  have made : g ≠ s.made := Nat.ne_of_lt (kept.entries.table.made _ g (find_some found).1)
  refine ⟨?_, by simp only [setFid_fid, if_neg made], made⟩
  rw [find, if_neg, found]
  rintro rfl
  rw [missing] at found
  contradiction

theorem Kept.mkfid_cases {x : UInt64} (now : s'.find x = some g) :
    x = fid.toUInt64 ∧ g = f ∨ s.find x = some g ∧ s'.fid g = s.fid g ∧ g ≠ f := by
  have find := (kept.entries.table.mkfid new (by rwa [UInt32.toNat_toUInt64])).2
  rw [find] at now
  split at now
  · cases now
    exact Or.inl ⟨‹_›, (mkfid_some new).1.symm⟩
  · exact Or.inr ⟨now, (kept.mkfid_old new small now).2⟩

theorem Kept.mkfid_owns (c : Nat) : s'.Owns c ↔ s.Owns c := by
  obtain ⟨_, blank, _⟩ := kept.mkfid_found new small
  constructor
  · rintro (rfl | ⟨x, g, now, chan⟩)
    · exact Or.inl rfl
    · obtain ⟨_, rfl⟩ | ⟨was, same, _⟩ := kept.mkfid_cases new small now
      · rw [blank] at chan
        contradiction
      · exact Or.inr ⟨x, g, was, same ▸ chan⟩
  · rintro (rfl | ⟨x, g, was, chan⟩)
    · exact Or.inl rfl
    · obtain ⟨now, same, _⟩ := kept.mkfid_old new small was
      exact Or.inr ⟨x, g, now, same.symm ▸ chan⟩

/-- A fid is made, with no channel yet. -/
theorem Kept.mkfid : s'.Kept (fid :: used) (f :: busy) hand := by
  obtain ⟨found, blank, off⟩ := kept.mkfid_found new small
  have cases_ := fun {x g} => kept.mkfid_cases new small (x := x) (g := g)
  have owns := kept.mkfid_owns new small
  obtain ⟨table', find⟩ := kept.entries.table.mkfid new (by rwa [UInt32.toNat_toUInt64])
  obtain ⟨⟨table, isUsed, made, ref, set, alone, root⟩, chans⟩ := kept
  obtain ⟨isNew, missing, is⟩ := mkfid_some new
  refine ⟨⟨table', fun y => ?_, fun g member => ?_, fun x g now => ?_, fun x g now inBusy => ?_, ?_, fun x g now => ?_⟩,
    ⟨fun c isOwned => ?_, fun c free => ?_, ?_, ?_, ?_, ?_⟩⟩
  · rw [List.mem_cons, isUsed, find]
    split
    · simp [toUInt64_inj.mp ‹_›]
    · rename_i other
      have other : y ≠ fid := fun same => other (congrArg _ same)
      simp [other]
  · have next : s'.made = s.made + 1 := by rw [is]
    obtain rfl | member := List.mem_cons.mp member
    · omega
    · have := made g member
      omega
  · obtain ⟨_, rfl⟩ | ⟨was, same, other⟩ := cases_ now
    · rw [blank, List.count_cons_self, List.count_eq_zero.mpr off]
      rfl
    · rw [same, ref x g was, List.count_cons_of_ne (Ne.symm other)]
  · obtain ⟨_, rfl⟩ | ⟨was, same, _⟩ := cases_ now
    · exact absurd List.mem_cons_self inBusy
    · rw [same]
      exact set x g was fun member => inBusy (List.mem_cons_of_mem _ member)
  · intro x y g h c now also chan chan'
    obtain ⟨_, rfl⟩ | ⟨was, same, _⟩ := cases_ now
    · rw [blank] at chan
      contradiction
    · obtain ⟨_, rfl⟩ | ⟨was', same', _⟩ := cases_ also
      · rw [blank] at chan'
        contradiction
      · exact alone x y g h c was was' (same ▸ chan) (same' ▸ chan')
  · obtain ⟨_, rfl⟩ | ⟨was, same, _⟩ := cases_ now
    · rw [blank]
      nofun
    · exact same.symm ▸ root x g was
  all_goals subst is
  · exact chans.held c ((owns c).mp isOwned)
  · exact chans.free c fun was => free ((owns c).mpr was)
  · exact chans.fresh
  · exact chans.closed
  · exact chans.once
  · exact chans.safe

end Mkfid

end Fids

end Inferno.Export
