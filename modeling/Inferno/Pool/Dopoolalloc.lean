import Inferno.Pool.Grow

namespace Inferno.Pool

open Inferno.Lib

variable {s s' : State} {t : RingTree Nat} {q n size ns asize tries : Nat} {live : List Nat} {as : List Arena}
  {os : List (Option Nat)} {restricted : Bool}

/-- The invariant, for some arenas and some tree. -/
def Sound (s : State) (live : List Nat) : Prop := ∃ as t, Inv s live as t

theorem blockSize_spec (asize : Nat) :
    quanta + 1 ∣ State.blockSize asize ∧ asize + bhdrsize ≤ State.blockSize asize := by
  simp only [State.blockSize, align, quanta, bhdrsize, dataOffset]
  omega

theorem growth_spec (quantum : quanta + 1 ∣ size) (chunk : quanta + 1 ∣ s.pool.chunk) (grown : s.growth size = some ns) :
    quanta + 1 ∣ ns ∧ size ≤ ns ∧ s.pool.arenasize + (ns + (quanta + 1) + (quanta + 1)) ≤ s.pool.maxsize := by
  have fits : size ≤ (if size > s.pool.chunk then size else s.pool.chunk) := by
    split <;> omega
  have whole : quanta + 1 ∣ (if size > s.pool.chunk then size else s.pool.chunk) := by
    split
    · exact quantum
    · exact chunk
  simp only [State.growth] at grown
  generalize (if size > s.pool.chunk then size else s.pool.chunk) = wanted at *
  split at grown
  · split at grown
    · nomatch grown
    · cases grown
      simp only [align, quanta] at *
      omega
  · cases grown
    exact ⟨whole, fits, by omega⟩

/-- What the search of the tree finds. -/
theorem Inv.search (inv : Inv s live as t) (size : Nat) :
    ∃ found, State.search s.size s.links size s.fuel s.pool.root none = some found ∧
      ((∃ a, found = .inl a ∧ (s.links.fwd a, size) ∈ t.entries) ∨
      (∃ a, found = .inr (some a) ∧ ∃ k, size < k ∧ (a, k) ∈ t.entries) ∨
      found = .inr none ∧ ∀ e ∈ t.entries, e.2 < size) := by
  rw [inv.root]
  exact search_spec inv.rep inv.treeOk.sizes inv.treeOk.fits inv.ordered

/-- A free block of the size is given out. -/
theorem Inv.exact (inv : Inv s live as t) (entry : (q, n) ∈ t.entries) :
    ∃ s₁, s.remove q = some s₁ ∧ Sound ((s₁.setMagic q magicA).charge ((s₁.setMagic q magicA).size q))
      ((q + dataOffset) :: live) := by
  obtain ⟨xs, base, pre, post, ys, rfl, rfl⟩ := inv.locate entry
  obtain ⟨root, links, t₁, ran, ok, perm⟩ := inv.taken
  refine ⟨_, ran, ?_⟩
  have size : s.size (base + (quanta + 1) + total pre) = n := (inv.block inv.mem_free).size
  have same : ({ s with pool.root := root, links }.setMagic (base + (quanta + 1) + total pre) magicA).size
      (base + (quanta + 1) + total pre) = n := size
  rw [same]
  exact ⟨_, t₁, inv.given ok perm⟩

/-- A block is given out of a larger one. -/
theorem Inv.allocFrom (inv : Inv s live as t) (entry : (q, n) ∈ t.entries) (less : size < n) (pos : 0 < size)
    (quantum : quanta + 1 ∣ size) :
    ∃ s', s.allocFrom q size = some (some (q + dataOffset), s') ∧ Sound s' ((q + dataOffset) :: live) := by
  obtain ⟨xs, base, pre, post, ys, rfl, rfl⟩ := inv.locate entry
  obtain ⟨root, links, t₁, ran, ok, perm⟩ := inv.taken
  have own : s.size (base + (quanta + 1) + total pre) = n := (inv.block inv.mem_free).size
  have same : ({ s with pool.root := root, links }.setMagic (base + (quanta + 1) + total pre) magicA).size
      (base + (quanta + 1) + total pre) = n := own
  simp only [State.allocFrom, ran, Option.bind_eq_bind, Option.bind_some, same]
  split
  · exact ⟨_, rfl, _, t₁, inv.given ok perm⟩
  · obtain ⟨s₃, t', added, first, kept⟩ := inv.split ok perm less pos quantum
    refine ⟨s₃.charge size, ?_, _, t', kept⟩
    rw [added, Option.bind_some, first]
    rfl

/-- With a free block that is large enough, memory is given out of it. -/
theorem Inv.fits (inv : Inv s live as t) (sane : asize < 1024 * 1024 * 1024)
    (large : ∃ e ∈ t.entries, State.blockSize asize ≤ e.2)
    (retry : List (Option Nat) → State → Option (Option Nat × State)) (os : List (Option Nat)) :
    ∃ v s', State.dopoolalloc retry os asize s = some (some v, s') ∧ Sound s' (v :: live) := by
  obtain ⟨quantum, holds⟩ := blockSize_spec asize
  have pos : 0 < State.blockSize asize := by
    simp only [bhdrsize] at holds
    omega
  have inv₁ : Inv { s with pool.nalloc := s.pool.nalloc + 1 } live as t := inv.counters _ rfl rfl rfl rfl rfl rfl
  obtain ⟨found, ran, outcome⟩ := inv₁.search (State.blockSize asize)
  rw [State.dopoolalloc, if_neg (by omega)]
  simp only [ran, Option.bind_eq_bind, Option.bind_some]
  rcases outcome with ⟨a, rfl, entry⟩ | ⟨a, rfl, k, less, entry⟩ | ⟨_, none⟩
  · obtain ⟨s₁, removed, sound⟩ := inv₁.exact entry
    dsimp only at removed ⊢
    rw [removed, Option.bind_some]
    exact ⟨_, _, rfl, sound⟩
  · obtain ⟨s', given, sound⟩ := inv₁.allocFrom entry less pos quantum
    exact ⟨_, s', given, sound⟩
  · obtain ⟨e, member, fits⟩ := large
    exact absurd (none e member) (Nat.not_lt.mpr fits)

/-- The tree, the arenas, the accounts and all headers are as they were. -/
structure Untouched (s s' : State) : Prop where
  root : s'.pool.root = s.pool.root
  chain : s'.pool.chain = s.pool.chain
  cursize : s'.pool.cursize = s.pool.cursize
  arenasize : s'.pool.arenasize = s.pool.arenasize
  links : s'.links = s.links
  magic : s'.magic = s.magic
  size : s'.size = s.size
  clink : s'.clink = s.clink
  csize : s'.csize = s.csize
  tail : s'.tail = s.tail

/-- No free block will do. -/
def State.Lacking (s : State) (size : Nat) : Prop :=
  State.search s.size s.links size s.fuel s.pool.root none = some (.inr none)

/-- The chunks that the system maps are aligned and nobody else's. -/
def State.Mmap (s : State) (asize : Nat) (os : List (Option Nat)) : Prop :=
  ∀ ns T os', s.growth (State.blockSize asize) = some ns → os = some T :: os' →
    8 ∣ T ∧ Unmapped s T (ns + (quanta + 1) + (quanta + 1))

/-- A call that has to grow the pool gets its chunk, and one at the limit does not compact. -/
def State.CarefulAlloc (s : State) (restricted : Bool) (asize : Nat) (os : List (Option Nat)) : Prop :=
  asize < 1024 * 1024 * 1024 → ¬ (s.pool.ressize < s.pool.cursize ∧ restricted) → s.Lacking (State.blockSize asize) →
    match s.growth (State.blockSize asize) with
    | some _ => ∃ T os', os = some T :: os'
    | none => s.pool.move = false ∨ s.pool.lastfree = s.pool.nfree

/-- After a merge the next try finds the block. -/
theorem Inv.merged {base T : Nat} {blocks : List Block} (inv : Inv s live (⟨base, blocks⟩ :: as) t)
    (sane : asize < 1024 * 1024 * 1024) (unrestricted : ¬ (s.pool.ressize < s.pool.cursize ∧ restricted))
    (unmapped : Unmapped s T (ns + (quanta + 1) + (quanta + 1))) (quantum : quanta + 1 ∣ ns)
    (fits : State.blockSize asize ≤ ns)
    (limit : s.pool.arenasize + (ns + (quanta + 1) + (quanta + 1)) ≤ s.pool.maxsize)
    (adjacent : T = (Arena.mk base blocks).limit + (quanta + 1)) (os : List (Option Nat)) (tries : Nat) :
    ∃ s₁ v s', ((s.obtained T (ns + (quanta + 1) + (quanta + 1))).extend base (Arena.mk base blocks).limit
        (ns + (quanta + 1) + (quanta + 1))).poolfree ((Arena.mk base blocks).limit + dataOffset) = some s₁ ∧
      State.poolalloc restricted asize (tries + 1) os s₁ = some (some v, s') ∧ Sound s' (v :: live) := by
  subst adjacent
  have positive : quanta + 1 < ns + (quanta + 1) + (quanta + 1) := by omega
  have extended := inv.extend unmapped positive
    (Nat.dvd_add (Nat.dvd_add quantum (Nat.dvd_refl _)) (Nat.dvd_refl _)) limit
  obtain ⟨s₁, as', t', freed, kept, ⟨e, entry, holds⟩, charged, root, pool⟩ := poolfree_spec extended List.mem_cons_self
  rw [List.erase_cons_head] at kept
  rw [Nat.add_sub_cancel] at holds charged pool
  have size : ((s.obtained ((Arena.mk base blocks).limit + (quanta + 1)) (ns + (quanta + 1) + (quanta + 1))).extend base
      (Arena.mk base blocks).limit (ns + (quanta + 1) + (quanta + 1))).size (Arena.mk base blocks).limit =
      ns + (quanta + 1) + (quanta + 1) := Function.update_self _ _ _
  rw [size] at holds charged pool
  have cursize : s₁.pool.cursize = s.pool.cursize := by
    rw [pool]
    exact Nat.add_sub_cancel _ _
  have ressize : s₁.pool.ressize = s.pool.ressize := by
    rw [pool]
    rfl
  obtain ⟨v, s', given, sound⟩ := kept.fits sane ⟨e, entry, by omega⟩ (State.poolalloc restricted asize tries) os
  refine ⟨s₁, v, s', freed, ?_, sound⟩
  rw [State.poolalloc, cursize, ressize, if_neg unrestricted]
  exact given

/-- A pool that gets a chunk gives out memory of it. -/
theorem Inv.grow {T : Nat} (inv : Inv s live as t) (sane : asize < 1024 * 1024 * 1024)
    (unrestricted : ¬ (s.pool.ressize < s.pool.cursize ∧ restricted)) (lacking : s.Lacking (State.blockSize asize))
    (grown : s.growth (State.blockSize asize) = some ns) (aligned : 8 ∣ T)
    (unmapped : Unmapped s T (ns + (quanta + 1) + (quanta + 1))) (os : List (Option Nat)) (tries : Nat) :
    ∃ v s', State.dopoolalloc (State.poolalloc restricted asize (tries + 1)) (some T :: os) asize s = some (some v, s') ∧
      Sound s' (v :: live) := by
  obtain ⟨quantumB, holds⟩ := blockSize_spec asize
  have pos : 0 < State.blockSize asize := by
    simp only [bhdrsize] at holds
    omega
  obtain ⟨quantum, fits, limit⟩ := growth_spec quantumB inv.chunk grown
  let s₁ : State := { s with pool.nalloc := s.pool.nalloc + 1 }
  have inv₁ : Inv s₁ live as t := inv.counters _ rfl rfl rfl rfl rfl rfl
  have searched : State.search s₁.size s₁.links (State.blockSize asize) s₁.fuel s₁.pool.root none = some (.inr none) := lacking
  have grown₁ : s₁.growth (State.blockSize asize) = some ns := grown
  have same : (T + 7) / 8 * 8 = T := by omega
  have ran : State.dopoolalloc (State.poolalloc restricted asize (tries + 1)) (some T :: os) asize s =
      State.place (State.poolalloc restricted asize (tries + 1) os) T ns (State.blockSize asize)
        (s₁.obtained T (ns + (quanta + 1) + (quanta + 1))) := by
    rw [State.dopoolalloc, if_neg (by omega)]
    simp only [Option.bind_eq_bind]
    rw [show State.search _ _ _ _ _ _ = _ from searched, Option.bind_some]
    dsimp only
    rw [show State.growth _ _ = _ from grown₁]
    dsimp only
    rw [same]
    rfl
  rw [ran]
  obtain ⟨s', t', made, kept⟩ := inv₁.newArena unmapped pos quantumB fits quantum limit
  have chained : Chained s₁ (s₁.obtained T (ns + (quanta + 1) + (quanta + 1))).pool.chain as := inv₁.chained
  rw [State.place]
  split
  · exact ⟨_, s', made, _, t', kept⟩
  · rename_i chain head
    rw [head] at chained
    cases as with
    | nil => nomatch chained
    | cons a as =>
      cases chained.1
      have limit_ : a.base + (s₁.obtained T (ns + (quanta + 1) + (quanta + 1))).csize a.base = a.limit := by
        rw [Arena.limit, ← (inv₁.arenas a List.mem_cons_self).csize]
        rfl
      dsimp only
      rw [limit_]
      split
      · rename_i adjacent
        obtain ⟨s₂, v, s', freed, given, sound⟩ := inv₁.merged sane unrestricted unmapped quantum fits limit adjacent os tries
        refine ⟨v, s', ?_, sound⟩
        rw [freed]
        exact given
      · exact ⟨_, s', made, _, t', kept⟩

theorem Inv.lacking (inv : Inv s live as t) (small : ¬ ∃ e ∈ t.entries, size ≤ e.2) : s.Lacking size := by
  obtain ⟨found, ran, outcome⟩ := inv.search size
  rcases outcome with ⟨a, rfl, entry⟩ | ⟨a, rfl, k, less, entry⟩ | ⟨rfl, _⟩
  · exact absurd ⟨_, entry, le_refl size⟩ small
  · exact absurd ⟨_, entry, less.le⟩ small
  · exact ran

/-- At the limit, without a compaction, a call fails. -/
theorem dopoolalloc_limit (sane : asize < 1024 * 1024 * 1024) (lacking : s.Lacking (State.blockSize asize))
    (limit : s.growth (State.blockSize asize) = none) (still : s.pool.move = false ∨ s.pool.lastfree = s.pool.nfree)
    (retry : List (Option Nat) → State → Option (Option Nat × State)) (os : List (Option Nat)) :
    State.dopoolalloc retry os asize s = some (none, { s with pool.nalloc := s.pool.nalloc + 1 }) := by
  let s₁ : State := { s with pool.nalloc := s.pool.nalloc + 1 }
  have searched : State.search s₁.size s₁.links (State.blockSize asize) s₁.fuel s₁.pool.root none = some (.inr none) := lacking
  have limit₁ : s₁.growth (State.blockSize asize) = none := limit
  have same : s₁.poolcompact = some (false, s₁) := by
    rw [State.poolcompact, if_pos (show s₁.pool.move = false ∨ s₁.pool.lastfree = s₁.pool.nfree from still)]
    rfl
  rw [State.dopoolalloc, if_neg (by omega)]
  simp only [Option.bind_eq_bind]
  rw [show State.search _ _ _ _ _ _ = _ from searched, Option.bind_some]
  dsimp only
  rw [show State.growth _ _ = _ from limit₁]
  dsimp only
  rw [show State.poolcompact _ = _ from same]
  rfl

/-- A careful `poolalloc` returns and keeps the invariant; if it returns nil, nothing has changed. -/
theorem poolalloc_spec (inv : Inv s live as t) (mmap : s.Mmap asize os) (careful : s.CarefulAlloc restricted asize os)
    (tries : Nat) :
    ∃ r s', State.poolalloc restricted asize (tries + 2) os s = some (r, s') ∧ Sound s' (r.toList ++ live) ∧
      (r = none → Untouched s s') := by
  have same : ∀ s' : State, s' = s ∨ s' = { s with pool.nalloc := s.pool.nalloc + 1 } → Untouched s s' := by
    rintro s' (rfl | rfl) <;> exact ⟨rfl, rfl, rfl, rfl, rfl, rfl, rfl, rfl, rfl, rfl⟩
  have given : ∀ v s', State.dopoolalloc (State.poolalloc restricted asize (tries + 1)) os asize s = some (some v, s') →
      Sound s' (v :: live) → ∃ r s', State.dopoolalloc (State.poolalloc restricted asize (tries + 1)) os asize s =
        some (r, s') ∧ Sound s' (r.toList ++ live) ∧ (r = none → Untouched s s') :=
    fun v s' ran sound => ⟨some v, s', ran, sound, fun none => nomatch none⟩
  rw [State.poolalloc]
  split
  · exact ⟨none, s, rfl, ⟨as, t, inv⟩, fun _ => same s (Or.inl rfl)⟩
  · rename_i unrestricted
    by_cases sane : asize < 1024 * 1024 * 1024
    · by_cases large : ∃ e ∈ t.entries, State.blockSize asize ≤ e.2
      · obtain ⟨v, s', ran, sound⟩ := inv.fits sane large (State.poolalloc restricted asize (tries + 1)) os
        exact given v s' ran sound
      · have lacking := inv.lacking large
        have granted := careful sane unrestricted lacking
        cases grown : s.growth (State.blockSize asize) with
        | none =>
          rw [grown] at granted
          exact ⟨none, _, dopoolalloc_limit sane lacking grown granted _ os,
            ⟨as, t, inv.counters _ rfl rfl rfl rfl rfl rfl⟩, fun _ => same _ (Or.inr rfl)⟩
        | some ns =>
          rw [grown] at granted
          obtain ⟨T, os', rfl⟩ := granted
          obtain ⟨aligned, unmapped⟩ := mmap ns T os' grown rfl
          obtain ⟨v, s', ran, sound⟩ := inv.grow sane unrestricted lacking grown aligned unmapped os' tries
          exact given v s' ran sound
    · rw [State.dopoolalloc, if_pos (by omega)]
      exact ⟨none, s, rfl, ⟨as, t, inv⟩, fun _ => same s (Or.inl rfl)⟩

end Inferno.Pool
