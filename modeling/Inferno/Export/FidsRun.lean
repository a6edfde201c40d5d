import Inferno.Export.FidsTaken

namespace Inferno.Export

namespace FidReq

variable {r : FidReq} {reply : Reply} {fid : UInt32}

theorem made_cases (isMade : r.made reply = some fid) : r = attach fid ∧ reply = .ok ∨
    ∃ fid' names n, r = walk fid' fid names ∧ reply = .walk n ∧ n = names.length ∧ fid ≠ fid' := by
  unfold made at isMade
  split at isMade
  · cases isMade
    exact Or.inl ⟨rfl, rfl⟩
  · rename_i fid' newfid names n
    simp only [Option.ite_none_right_eq_some, Option.some.injEq] at isMade
    obtain ⟨⟨whole, other⟩, rfl⟩ := isMade
    exact Or.inr ⟨fid', names, n, rfl, rfl, whole, other⟩
  · contradiction

end FidReq

namespace Session

open Fids

variable {w w' : Session} {a : FidReq × Devs}

theorem kept_init (msize : Int) (root : Chan) : (init msize root).fids.Kept (init msize root).used [] [] := by
  have none : ∀ x, (init msize root).fids.find x = Option.none := fun _ => rfl
  have owns : ∀ c, (init msize root).fids.Owns c ↔ c = 0 := fun c => by simp [Owns, none]
  refine ⟨⟨⟨by simp [init], by simp [init], by simp [init], by simp [init]⟩, fun fid => by rw [none]; simp [init], by simp, by simp [none],
      by simp [none], by simp [none], by simp [none]⟩,
    ⟨fun c isOwned => ?_, fun c free => ?_, fun c (high : 1 ≤ c) => ?_, fun c => ?_, List.nodup_nil, rfl⟩⟩
  · exact if_pos ((owns c).mp isOwned)
  · exact if_neg fun root => free ((owns c).mpr root)
  · exact if_neg (by omega)
  · simp only [init]
    split <;> simp
    omega

theorem kept_step (kept : w.fids.Kept w.used [] []) (clear : Clear a w) (ran : step a w = some w') :
    w'.fids.Kept w'.used [] [] := by
  obtain ⟨r, d⟩ := a
  cases ran
  have same : r.dropped = none → ∀ y, y ∈ (r.made (r.handle d w.fids).1).toList ++ w.used.filter (fun fid => r.dropped ≠ some fid) ↔
      y ∈ (r.made (r.handle d w.fids).1).toList ++ w.used := fun none y => by simp [none]
  have less : ∀ {fid}, r.dropped = some fid → (∀ reply, r.made reply = none) → ∀ y,
      y ∈ (r.made (r.handle d w.fids).1).toList ++ w.used.filter (fun fid => r.dropped ≠ some fid) ↔ y ∈ w.used ∧ y ≠ fid :=
    fun {fid} gone none y => by
      simp only [gone, none, Option.toList_none, List.nil_append, List.mem_filter, decide_eq_true_eq, ne_eq,
        Option.some.injEq]
      exact and_congr_right' (not_congr eq_comm)
  cases r with
  | attach fid => exact (kept.attach clear).congr (same rfl)
  | walk fid newfid names =>
    exact (kept.walk fun f c found chan closed => clear ⟨f, c, found, chan, closed⟩).congr (same rfl)
  | open_ fid =>
    refine (kept.open_ fun mount f c found chan => ?_).congr (same rfl)
    by_contra closed
    exact clear ⟨f, c, found, chan, by simpa using closed⟩ mount
  | create fid name => exact kept.create.congr (same rfl)
  | read fid count offset => exact kept.read.congr (same rfl)
  | write fid count offset => exact kept.write.congr (same rfl)
  | stat fid =>
    refine (kept.stat fun mount f c found chan => ?_).congr (same rfl)
    by_contra closed
    exact clear ⟨f, c, found, chan, by simpa using closed⟩ mount
  | wstat fid => exact kept.wstat.congr (same rfl)
  | clunk fid => exact kept.clunk (less rfl fun _ => rfl)
  | remove fid => exact kept.remove (less rfl fun _ => rfl)

theorem mkfid_none {s : Fids} {used : List UInt32} {busy hand : List Nat} {fid : UInt32} (kept : s.Kept used busy hand)
    (member : fid ∈ used) : s.exmkfid fid.toUInt64 = none := by
  obtain ⟨f, found⟩ := Option.isSome_iff_exists.mp ((kept.entries.used fid).mp member)
  unfold exmkfid
  rw [found]

/-- A fid in use is not made. -/
theorem refused (kept : w.fids.Kept w.used [] []) (r : FidReq) (d : Devs) (fid : UInt32) (member : fid ∈ w.used) :
    r.made (r.handle d w.fids).1 ≠ some fid := by
  intro made
  obtain ⟨rfl, reply⟩ | ⟨fid', names, n, rfl, reply, whole, other⟩ := FidReq.made_cases made
  · simp [FidReq.handle, exattach, mkfid_none kept member] at reply
  · refine kept.withFid (P := fun r => r.1 ≠ .walk n) (fun _ => nofun) (fun f c₀ s' taken _ _ _ => ?_) reply
    split
    · nofun
    · cases d.clone with
      | none => nofun
      | some ch =>
        have begun : (s'.newchan ch).Taken w.used fid' f c₀ [s'.opens] := taken.newchan
        have loop := begun.walkLoop (d := d) names 0 fun owns =>
          absurd ((newchan_same.owns _).mp owns) taken.kept.chans.new.1
        dsimp only
        rcases walked : walkLoop d 0 names s'.opens (s'.newchan ch) with ⟨_ | c, m, s₁⟩
        · rw [walked] at loop
          obtain ⟨_, (short : m < 0 + names.length)⟩ := loop
          dsimp only
          split
          · nofun
          · exact fun same => by
              cases same
              omega
        · rw [walked] at loop
          dsimp only
          simp only [mkfid_none loop.1.kept member]
          nofun

theorem ok_of_kept (kept : w.fids.Kept w.used [] []) : w.Ok := by
  obtain ⟨⟨table, isUsed, made, ref, set, alone, root⟩, chans⟩ := id kept
  have entry : ∀ {b f}, f ∈ w.fids.hash b → w.fids.find (w.fids.number f) = some f := fun {b f} member =>
    table.find_iff.mpr ⟨by rwa [table.place b f member], rfl⟩
  refine ⟨fun fid => ?_, refused kept, fun b f member => ?_, fun b b' f g c inB also => alone _ _ f g c (entry inB) (entry also),
    fun c below => ?_, chans.once, chans.safe⟩
  · rw [isUsed]
    unfold exgetfid
    cases found : w.fids.find fid.toUInt64 with
    | none => simp
    | some f => simp [(set _ f found List.not_mem_nil).1]
  · simpa using ref _ f (entry member)
  · rw [chans.closed c, and_iff_right below]
    by_cases owns : w.fids.Owns c
    · have held := chans.held c owns
      simp only [held, List.count_nil, Nat.add_zero, Nat.one_ne_zero, false_iff, not_and]
      obtain rfl | ⟨x, f, found, chan⟩ := owns
      · exact fun notRoot => absurd rfl notRoot
      · exact fun _ none => none _ f (find_some found).1 chan
    · rw [chans.free c owns]
      simp only [List.count_nil, true_iff]
      exact ⟨fun isRoot => owns (Or.inl isRoot), fun b f member chan => owns (Or.inr ⟨_, f, entry member, chan⟩)⟩

/-- In every run whose requests are clear the fids are those in use, and no channel is lost or closed twice. -/
theorem fids_ok {msize : Int} {root : Chan} (run : Lib.Run step Clear (init msize root) w) : w.Ok :=
  ok_of_kept (run.invariant (fun w => w.fids.Kept w.used [] []) (kept_init msize root) kept_step)

/-- A plain directory, where nothing is mounted and every operation succeeds. -/
def dir : Chan := ⟨false, 0, true, false, 0⟩

def plain : Devs := ⟨"", some dir, fun _ => some dir, .no, some dir, .same ⟨true, 0, true, false, 0⟩, some dir, true, some 64, true⟩

/-- Attach, walk to a new fid, open it, and clunk both. -/
theorem fids_ok_clunked : ∃ w : Session, w.fids.closed = [2, 1, 3] ∧ w.used = [] ∧ w.Ok := by
  have run₁ : Lib.Run step Clear (init 8216 dir) (init 8216 dir) := Lib.Run.start
  have run₂ := run₁.step (a := (FidReq.attach 7, plain)) (show (7 : UInt32).toNat < 2 ^ 31 by decide) rfl
  have run₃ := run₂.step (a := (FidReq.walk 7 8 ["a"], plain)) (fun _ => ⟨nofun, fun _ => by decide⟩) rfl
  have run₄ := run₃.step (a := (FidReq.open_ 8, plain)) (fun _ => nofun) rfl
  have run₅ := run₄.step (a := (FidReq.clunk 7, plain)) trivial rfl
  have run₆ := run₅.step (a := (FidReq.clunk 8, plain)) trivial rfl
  exact ⟨_, by decide, by decide, fids_ok run₆⟩

/-- The clone of a walk fails: the reference to the fid stays. -/
theorem walk_leaks : ∃ w : Session, Lib.Run step (fun _ _ => True) (init 8216 dir) w ∧ ¬w.Ok := by
  have run₁ : Lib.Run step (fun _ _ => True) (init 8216 dir) (init 8216 dir) := Lib.Run.start
  have run₂ := run₁.step (a := (FidReq.attach 7, plain)) trivial rfl
  have run₃ := run₂.step (a := (FidReq.walk 7 8 ["a"], { plain with clone := none })) trivial rfl
  refine ⟨_, run₃, fun ok => ?_⟩
  have ref := ok.ref 7 0 (by decide)
  revert ref
  decide

end Session

end Inferno.Export
