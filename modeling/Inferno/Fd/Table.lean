import Inferno.Fd.Fgrp

namespace Inferno.Fd

namespace Fgrp

variable {f f' : Fgrp} {c fd i : Nat} {more : Bool}

theorem slot_of_ge (out : f.nfd ≤ i) : f.slot i = none := by
  rw [slot, List.getElem?_eq_none out]
  rfl

theorem slot_lt (used : f.slot i = some c) : i < f.nfd := by
  by_contra out
  rw [slot_of_ge (Nat.not_lt.mp out)] at used
  nomatch used

theorem slot_set {o : Option Nat} {maxfd minfd j : Nat} (room : i < f.nfd) :
    (Fgrp.mk (f.fd.set i o) maxfd minfd).slot j = if j = i then o else f.slot j := by
  rw [slot, List.getElem?_set]
  by_cases here : i = j
  · subst here
    rw [if_pos rfl, if_pos (show i < f.fd.length from room), if_pos rfl]
    rfl
  · rw [if_neg here, if_neg (Ne.symm here), slot]

/-- What the hints are good for. -/
structure Ok (f : Fgrp) : Prop where
  top : ∀ i c, f.slot i = some c → i ≤ f.maxfd
  room : f.maxfd < f.nfd
  low : ∀ i < f.minfd, (f.slot i).isSome
  size : ∃ k, f.nfd = k * deltafd

theorem Ok.minfd_le (ok : f.Ok) : f.minfd ≤ f.nfd := by
  by_contra out
  have used := ok.low f.nfd (by omega)
  rw [slot_of_ge (Nat.le_refl _)] at used
  nomatch used

theorem ok_newfgrp : newfgrp.Ok where
  top i c used := by
    have none : newfgrp.slot i = none := by
      simp only [slot, newfgrp, List.getElem?_replicate]
      split <;> rfl
    rw [none] at used
    nomatch used
  room := by decide
  low i below := absurd below (Nat.not_lt_zero i)
  size := ⟨1, rfl⟩

/-- The slots stay, and new ones are empty. -/
structure Grown (f f' : Fgrp) : Prop where
  fd : ∃ n, f'.fd = f.fd ++ List.replicate n none
  maxfd : f'.maxfd = f.maxfd
  minfd : f'.minfd = f.minfd

theorem Grown.refl (f : Fgrp) : Grown f f := ⟨⟨0, (List.append_nil _).symm⟩, rfl, rfl⟩

theorem Grown.slot (grown : Grown f f') (i : Nat) : f'.slot i = f.slot i := by
  obtain ⟨⟨n, fd⟩, _, _⟩ := grown
  rw [Fgrp.slot, fd, List.getElem?_append]
  split
  · rfl
  · rename_i out
    rw [slot_of_ge (Nat.not_lt.mp out), List.getElem?_replicate]
    split <;> rfl

theorem Grown.count (grown : Grown f f') (c : Nat) : f'.fd.count (some c) = f.fd.count (some c) := by
  obtain ⟨⟨n, fd⟩, _, _⟩ := grown
  rw [fd, List.count_append, List.count_replicate]
  rfl

theorem Grown.nfd (grown : Grown f f') : f.nfd ≤ f'.nfd := by
  obtain ⟨⟨n, fd⟩, _, _⟩ := grown
  rw [Fgrp.nfd, Fgrp.nfd, fd, List.length_append]
  omega

theorem growfd_spec (ok : f.Ok) (got : f.growfd fd more = some f') : Grown f f' ∧ fd < f'.nfd ∧ f'.Ok := by
  unfold growfd at got
  split at got
  · rename_i room
    cases got
    exact ⟨Grown.refl f, room, ok⟩
  · rename_i full
    dsimp only at got
    split at got
    · nomatch got
    · rename_i enough
      cases got
      have grown : Grown f { f with fd := f.fd ++ List.replicate (min (f.nfd + deltafd) maxnfd - f.nfd) none } :=
        ⟨⟨_, rfl⟩, rfl, rfl⟩
      have size : ({ f with fd := f.fd ++ List.replicate (min (f.nfd + deltafd) maxnfd - f.nfd) none } : Fgrp).nfd =
          min (f.nfd + deltafd) maxnfd := by
        simp only [Fgrp.nfd, List.length_append, List.length_replicate]
        simp only [Fgrp.nfd] at full enough
        lia
      refine ⟨grown, by rw [size]; lia, fun i c used => ?_, ?_, fun i below => ?_, ?_⟩
      · rw [grown.slot] at used
        exact ok.top i c used
      · exact Nat.lt_of_lt_of_le ok.room grown.nfd
      · rw [grown.slot]
        exact ok.low i below
      · obtain ⟨k, multiple⟩ := ok.size
        rw [size]
        simp only [deltafd, maxnfd] at multiple ⊢
        exact ⟨min (k + 1) 200, by lia⟩

theorem scan_spec (f : Fgrp) : f.minfd ≤ f.scan ∧ f.slot f.scan = none ∧ ∀ i, f.minfd ≤ i → i < f.scan → (f.slot i).isSome := by
  refine ⟨Nat.le_add_right _ _, ?_, fun i from_ until_ => ?_⟩
  · rw [slot, scan, ← List.getElem?_drop]
    by_cases found : (f.fd.drop f.minfd).findIdx Option.isNone < (f.fd.drop f.minfd).length
    · rw [List.getElem?_eq_getElem found]
      exact Option.isNone_iff_eq_none.mp (List.findIdx_getElem (w := found))
    · rw [List.getElem?_eq_none (Nat.not_lt.mp found)]
      rfl
  · have before : i - f.minfd < (f.fd.drop f.minfd).findIdx Option.isNone := by
      unfold scan at until_
      omega
    have used := List.not_of_lt_findIdx before
    have inside := Nat.lt_of_lt_of_le before List.findIdx_le_length
    have here : f.fd[i]? = some (f.fd.drop f.minfd)[i - f.minfd] := by
      rw [← List.getElem?_eq_getElem inside, List.getElem?_drop]
      congr 1
      omega
    rw [slot, here]
    simpa using used

/-- A descriptor that is handed out was not open, and is now. -/
structure Handed (f f' : Fgrp) (c fd : Nat) : Prop where
  unused : f.slot fd = none
  slot : ∀ i, f'.slot i = if i = fd then some c else f.slot i
  count : ∀ x, f'.fd.count (some x) = f.fd.count (some x) + if x = c then 1 else 0
  ok : f'.Ok

theorem newfd_spec (ok : f.Ok) (got : f.newfd c more = some (f', fd)) : Handed f f' c fd := by
  unfold newfd at got
  dsimp only at got
  obtain ⟨from_, unused, used⟩ := f.scan_spec
  obtain ⟨g, grown, room, okg, same⟩ : ∃ g, Grown f g ∧ f.scan < g.nfd ∧ g.Ok ∧
      (if f.scan ≥ f.nfd then f.growfd f.scan more else some f) = some g := by
    split at got
    · nomatch got
    · rename_i g more
      refine ⟨g, ?_⟩
      by_cases full : f.scan ≥ f.nfd
      · rw [if_pos full] at more
        obtain ⟨grown, room, okg⟩ := growfd_spec ok more
        exact ⟨grown, room, okg, by rw [if_pos full]; exact more⟩
      · rw [if_neg full] at more
        cases more
        exact ⟨Grown.refl f, Nat.not_le.mp full, ok, if_neg full⟩
  rw [same] at got
  cases got
  have slots (i : Nat) : (Fgrp.mk (g.fd.set f.scan (some c)) (max g.maxfd f.scan) (f.scan + 1)).slot i =
      if i = f.scan then some c else f.slot i := by
    rw [slot_set room, grown.slot]
  refine ⟨unused, slots, fun x => ?_, fun i x there => ?_, ?_, fun i below => ?_, ?_⟩
  · have empty : g.fd[f.scan] = none := by
      have none := grown.slot f.scan
      rw [unused, slot, List.getElem?_eq_getElem room] at none
      exact none
    rw [List.count_set room, empty, grown.count]
    by_cases same : c = x
    · subst same
      simp
    · simp [same, Ne.symm same]
  · rw [slots] at there
    dsimp only
    split at there
    · omega
    · rw [← grown.slot] at there
      have := okg.top i x there
      omega
  · simp only [nfd, List.length_set]
    exact Nat.max_lt.mpr ⟨okg.room, room⟩
  · rw [slots]
    split
    · rfl
    · by_cases low : i < f.minfd
      · exact ok.low i low
      · exact used i (Nat.not_lt.mp low) (by dsimp only at below; omega)
  · simp only [nfd, List.length_set]
    exact okg.size

/-- The slots that `newfd` can use without more memory. -/
def free (f : Fgrp) : Nat := (f.fd.drop f.minfd).count none

theorem scan_lt (left : 0 < f.free) : f.scan < f.nfd := by
  unfold scan nfd
  have found : (f.fd.drop f.minfd).findIdx Option.isNone < (f.fd.drop f.minfd).length := by
    rw [List.findIdx_lt_length]
    exact ⟨none, List.count_pos_iff.mp left, rfl⟩
  rw [List.length_drop] at found
  omega

theorem scan_full (ok : f.Ok) (left : f.free = 0) : f.scan = f.nfd := by
  have le := ok.minfd_le
  have all : (f.fd.drop f.minfd).findIdx Option.isNone = (f.fd.drop f.minfd).length := by
    rw [List.findIdx_eq_length]
    intro o there
    cases o with
    | none => exact absurd (List.count_pos_iff.mpr there) (by unfold free at left; omega)
    | some c => rfl
  rw [scan, all, List.length_drop]
  unfold nfd at le ⊢
  omega

/-- The slots behind the one that was taken. -/
theorem free_after (ok : f.Ok) (left : 0 < f.free) {g : Fgrp} (fd : g.fd = f.fd.set f.scan (some c))
    (minfd : g.minfd = f.scan + 1) : g.free = f.free - 1 := by
  obtain ⟨from_, unused, used⟩ := f.scan_spec
  have room := scan_lt left
  have empty : f.fd[f.scan] = none := by
    rw [slot, List.getElem?_eq_getElem room] at unused
    exact unused
  have none_before : ((f.fd.drop f.minfd).take (f.scan - f.minfd)).count none = 0 := by
    rw [List.count_eq_zero]
    intro there
    obtain ⟨i, inside, is⟩ := List.getElem_of_mem there
    rw [List.length_take, List.length_drop] at inside
    have here := used (f.minfd + i) (Nat.le_add_right _ _) (by lia)
    rw [List.getElem_take, List.getElem_drop] at is
    rw [slot, List.getElem?_eq_getElem (by simp only [nfd] at room; lia), is] at here
    nomatch here
  have split : f.fd.drop f.minfd = (f.fd.drop f.minfd).take (f.scan - f.minfd) ++ none :: f.fd.drop (f.scan + 1) := by
    conv_lhs => rw [← List.take_append_drop (f.scan - f.minfd) (f.fd.drop f.minfd)]
    congr 1
    rw [List.drop_drop, show f.minfd + (f.scan - f.minfd) = f.scan by lia, List.drop_eq_getElem_cons room, empty]
  rw [free, fd, minfd, List.drop_set_of_lt (show f.scan < f.scan + 1 by lia), free, split, List.count_append, none_before,
    List.count_cons_self]
  lia

theorem newfd_isSome (ok : f.Ok) (left : 0 < f.free ∨ (f.nfd < maxnfd ∧ more)) : (f.newfd c more).isSome := by
  unfold newfd
  dsimp only
  by_cases free : 0 < f.free
  · rw [if_neg (Nat.not_le.mpr (scan_lt free))]
    rfl
  · obtain ⟨roomy, memory⟩ := left.resolve_left free
    have full := scan_full ok (by omega)
    have enough : ¬(f.nfd ≥ min (f.nfd + deltafd) maxnfd ∨ ¬more) := by
      simp only [deltafd]
      intro short
      rcases short with short | short
      · omega
      · exact short memory
    rw [if_pos (Nat.le_of_eq full.symm), full]
    simp only [growfd, Nat.lt_irrefl, if_false, if_neg enough]
    rfl

/-- With one descriptor that could be had, or none, a second one needs more memory. -/
theorem newfd_again (c' : Nat) (ok : f.Ok) {more' : Bool} (got : f.newfd c more = some (f', fd))
    (left : f.free ≠ 1 ∨ (f.nfd < maxnfd ∧ more')) : (f'.newfd c' more').isSome := by
  have ok' := (newfd_spec ok got).ok
  refine newfd_isSome ok' ?_
  unfold newfd at got
  dsimp only at got
  by_cases free : 0 < f.free
  · rw [if_neg (Nat.not_le.mpr (scan_lt free))] at got
    cases got
    rcases left with two | roomy
    · refine Or.inl ?_
      rw [free_after (c := c) ok free rfl rfl]
      lia
    · refine Or.inr ?_
      simpa only [nfd, List.length_set] using roomy
  · have full := scan_full ok (by lia)
    rw [if_pos (Nat.le_of_eq full.symm), full] at got
    simp only [growfd, Nat.lt_irrefl, if_false] at got
    by_cases enough : f.nfd ≥ min (f.nfd + deltafd) maxnfd ∨ ¬more
    · rw [if_pos enough] at got
      nomatch got
    · rw [if_neg enough] at got
      cases got
      refine Or.inl ?_
      -- the number of slots is a multiple of `deltafd`, so there is a second new one
      obtain ⟨k, multiple⟩ := ok.size
      have many : 2 ≤ min (f.nfd + deltafd) maxnfd - f.nfd := by
        simp only [deltafd, maxnfd] at multiple enough ⊢
        lia
      have behind : (f.fd ++ List.replicate (min (f.nfd + deltafd) maxnfd - f.nfd) none).drop (f.nfd + 1) =
          List.replicate (min (f.nfd + deltafd) maxnfd - f.nfd - 1) none := by
        rw [List.drop_append, List.drop_eq_nil_of_le (show f.fd.length ≤ f.nfd + 1 from Nat.le_succ _), List.nil_append, List.drop_replicate]
        congr 1
        unfold nfd
        lia
      rw [Fgrp.free, List.drop_set_of_lt (Nat.lt_succ_self _), behind, List.count_replicate_self]
      lia

theorem lower_spec (fd : List (Option Nat)) {i maxfd : Nat} (below : i ≤ maxfd) :
    lower fd i maxfd ≤ maxfd ∧ ∀ j < i, ¬j ≤ lower fd i maxfd → fd[j]? = some none := by
  induction i generalizing maxfd with
  | zero => exact ⟨Nat.le_refl _, fun j none => absurd none (Nat.not_lt_zero j)⟩
  | succ i ih =>
    unfold lower
    split
    · rename_i empty
      obtain ⟨le, rest⟩ := ih (Nat.le_refl i)
      refine ⟨by omega, fun j lt above => ?_⟩
      rcases Nat.lt_succ_iff_lt_or_eq.mp lt with lt | rfl
      · exact rest j lt above
      · exact empty
    · exact ⟨Nat.le_refl _, fun j lt above => absurd lt (by omega)⟩

theorem clear_ok (ok : f.Ok) (used : f.slot fd = some c) : (f.clear fd).Ok := by
  have room := slot_lt used
  have top := ok.top fd c used
  have slots (i : Nat) : (f.clear fd).slot i = if i = fd then none else f.slot i := slot_set room
  have le : (f.clear fd).maxfd ≤ f.maxfd := by
    unfold clear
    dsimp only
    split
    · exact (lower_spec _ top).1
    · exact Nat.le_refl _
  refine ⟨fun i x there => ?_, ?_, fun i below => ?_, ?_⟩
  · rw [slots] at there
    split at there
    · nomatch there
    · rename_i other
      have bound := ok.top i x there
      unfold clear
      dsimp only
      split
      · rename_i last
        by_contra above
        have empty := (lower_spec (f.fd.set fd none) top).2 i (by omega) above
        rw [List.getElem?_set_ne (Ne.symm other)] at empty
        rw [slot, empty] at there
        nomatch there
      · exact bound
  · simp only [nfd, clear, List.length_set] at le ⊢
    exact Nat.lt_of_le_of_lt le ok.room
  · have low : i < f.minfd ∧ i < fd := by
      simp only [clear] at below
      omega
    rw [slots, if_neg (Nat.ne_of_lt low.2)]
    exact ok.low i low.1
  · simp only [nfd, clear, List.length_set]
    exact ok.size

theorem clear_count (used : f.slot fd = some c) (x : Nat) :
    (f.clear fd).fd.count (some x) + (if x = c then 1 else 0) = f.fd.count (some x) := by
  have room := slot_lt used
  have here : f.fd[fd] = some c := by
    rw [slot, List.getElem?_eq_getElem room] at used
    exact used
  rw [clear, List.count_set room, here]
  by_cases same : x = c
  · subst same
    have pos : 0 < f.fd.count (some x) := List.count_pos_iff.mpr (here ▸ List.getElem_mem room)
    simp
    omega
  · simp [same, Ne.symm same]

theorem put_ok (ok : f.Ok) (room : fd < f.nfd) : (f.put fd c).Ok := by
  have slots (i : Nat) : (f.put fd c).slot i = if i = fd then some c else f.slot i := slot_set room
  refine ⟨fun i x there => ?_, ?_, fun i below => ?_, ?_⟩
  · rw [slots] at there
    simp only [put]
    split at there
    · omega
    · have := ok.top i x there
      omega
  · simp only [nfd, put, List.length_set]
    exact Nat.max_lt.mpr ⟨ok.room, room⟩
  · rw [slots]
    split
    · rfl
    · exact ok.low i below
  · simp only [nfd, put, List.length_set]
    exact ok.size

theorem put_count (room : fd < f.nfd) (x : Nat) :
    (f.put fd c).fd.count (some x) + (f.slot fd).toList.count x = f.fd.count (some x) + if x = c then 1 else 0 := by
  have here : f.slot fd = f.fd[fd] := by
    rw [slot, List.getElem?_eq_getElem room]
    rfl
  rw [put, List.count_set room, here]
  cases old : f.fd[fd] with
  | none => grind
  | some y =>
    have there : 0 < f.fd.count (some y) := List.count_pos_iff.mpr (old ▸ List.getElem_mem room)
    simp only [Option.toList_some, List.count_singleton, beq_iff_eq, Option.some.injEq]
    grind

theorem map_slot (f : Fgrp) : (List.range f.nfd).map f.slot = f.fd := by
  refine List.ext_getElem? fun i => ?_
  rw [List.getElem?_map]
  by_cases room : i < f.nfd
  · rw [List.getElem?_range room, Option.map_some, slot, List.getElem?_eq_getElem room]
    rfl
  · rw [List.getElem?_eq_none (by simpa using room), List.getElem?_eq_none (Nat.not_lt.mp room)]
    rfl

/-- Nothing is behind `maxfd`. -/
theorem count_slots (ok : f.Ok) {n : Nat} (enough : f.maxfd < n) (x : Nat) :
    ((List.range n).map f.slot).count (some x) = ((List.range (f.maxfd + 1)).map f.slot).count (some x) := by
  obtain ⟨k, rfl⟩ : ∃ k, n = f.maxfd + 1 + k := ⟨n - (f.maxfd + 1), by omega⟩
  rw [List.range_add, List.map_append, List.count_append, List.map_map, Nat.add_eq_left, List.count_eq_zero]
  intro there
  obtain ⟨i, _, is⟩ := List.mem_map.mp there
  have := ok.top (f.maxfd + 1 + i) x is
  omega

theorem chans_count (ok : f.Ok) (x : Nat) : f.chans.count x = f.fd.count (some x) := by
  have all := count_slots ok ok.room x
  rw [map_slot] at all
  rw [all, chans, List.count_filterMap, List.count, List.countP_map]
  rfl

theorem mem_chans (ok : f.Ok) : c ∈ f.chans ↔ ∃ i, f.slot i = some c := by
  simp only [chans, List.mem_filterMap, List.mem_range]
  constructor
  · rintro ⟨i, _, is⟩
    exact ⟨i, is⟩
  · rintro ⟨i, is⟩
    exact ⟨i, by have := ok.top i c is; omega, is⟩

theorem dup_slots (ok : f.Ok) : ∃ n, f.maxfd < n ∧ (∃ k, n = k * deltafd) ∧ f.dup.fd = (List.range n).map f.slot := by
  have same (n : Nat) : ((List.range n).map fun i => if i ≤ f.maxfd then f.slot i else none) = (List.range n).map f.slot := by
    refine List.map_congr_left fun i _ => ?_
    split
    · rfl
    · rename_i above
      cases here : f.slot i with
      | none => rfl
      | some c => exact absurd (ok.top i c here) above
  refine ⟨_, ?_, ?_, same _⟩
  · split
    · simp only [deltafd]
      lia
    · lia
  · split
    · exact ⟨_, rfl⟩
    · exact ⟨1, rfl⟩

theorem dup_slot (ok : f.Ok) (i : Nat) : f.dup.slot i = f.slot i := by
  obtain ⟨n, enough, _, fd⟩ := dup_slots ok
  rw [slot, fd, List.getElem?_map]
  by_cases room : i < n
  · rw [List.getElem?_range room]
    rfl
  · rw [List.getElem?_eq_none (by simpa using room)]
    cases here : f.slot i with
    | none => rfl
    | some c => exact absurd (ok.top i c here) (by omega)

theorem dup_ok (ok : f.Ok) : f.dup.Ok := by
  obtain ⟨n, enough, size, fd⟩ := dup_slots ok
  have nfd : f.dup.nfd = n := by rw [Fgrp.nfd, fd, List.length_map, List.length_range]
  refine ⟨fun i c there => ?_, ?_, fun i below => ?_, ?_⟩
  · rw [dup_slot ok] at there
    exact ok.top i c there
  · rw [nfd]
    exact enough
  · rw [dup_slot ok]
    exact ok.low i below
  · rw [nfd]
    exact size

theorem dup_count (ok : f.Ok) (x : Nat) : f.dup.fd.count (some x) = f.fd.count (some x) := by
  obtain ⟨n, enough, _, fd⟩ := dup_slots ok
  rw [fd, count_slots ok enough, ← count_slots ok ok.room, map_slot]

end Fgrp

end Inferno.Fd
