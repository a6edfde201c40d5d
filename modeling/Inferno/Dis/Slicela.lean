import Inferno.Dis.Ptrs
import Inferno.Strings.Index

namespace Inferno.Dis

open Lib Strings

/-- An `Array`, whose cells are in one block. A block is smaller than 2^31 bytes. -/
structure Slice where
  data : Nat
  len : Nat
  t : MapType
  small : 8 * (len * t.size) < 2 ^ 31

/-- One step of either loop, for the cells `i` of the source at `sp` and of the destination at `dp`. -/
def slicelaStep (h : ObjHeap) (junk : Nat → Nat) (t : MapType) (sp dp : Nat) (r : Refs Nat) (i : Nat) : Refs Nat :=
  let r := incmem (h.poolfree junk r) (sp + i * t.size) t r
  h.freeptrs (h.poolfree junk r) (dp + i * t.size) t r

def slicela (h : ObjHeap) (junk : Nat → Nat) (ss ds : Option Slice) (m : Int) :
    OrError (Refs Nat × (Nat → Nat)) :=
  match ss with
  | none => return (h.refs, h.mem)
  | some ss =>
    match ds with
    | none => throw exNilref
    | some ds =>
      let dl := int m
      if dl < 0 ∨ dl + ss.len > ds.len then throw exBounds
      else
        let t := ds.t
        let sp := ss.data
        let dp := ds.data + dl.toNat * t.size
        if t.map = [] then return (h.refs, memmove h.mem dp sp (ss.len * t.size))
        else
          -- `l` is no more than the size of the block that `ds` is in
          let cells := if dp > sp then (List.range ss.len).reverse else List.range ss.len
          let r := cells.foldl (slicelaStep h junk t sp dp) h.refs
          return (r, memmove (h.poolfree junk r) dp sp (ss.len * t.size))

/-- The pointers in the cell `i` of the cells at `v`. -/
def cell (mem : Nat → Nat) (t : MapType) (v i : Nat) : List Nat := pointers mem (v + i * t.size) (incWords t.map)

/-- The pointers in the first `len` cells at `v`. -/
def cells (mem : Nat → Nat) (t : MapType) (v len : Nat) : List Nat := (List.range len).flatMap (cell mem t v)

/-- `A` has all objects. The destination's cells at `dp`, the objects in `A` and others, which hold `base`, have the
references that the counts tell of. The others hold what the source's cells at `sp` point to that are not the
destination's too, and they hold the objects whose blocks the cells are in. -/
structure Sliced (h : ObjHeap) (own : Nat → List Nat) (base : Nat → Nat) (A : Finset Nat) (t : MapType)
    (len sp dp : Nat) : Prop where
  all : ∀ x, h.refs.ref x ≠ none → x ∈ A
  held : Held h.out own base A h.refs (cells h.mem t dp len)
  bound : A.card ≤ h.bound
  source : ∀ x ∈ cells h.mem t sp len, x ∈ A
  rest : ∀ i < len, (∀ j < len, dp + j * t.size ≠ sp + i * t.size) → ∀ x ∈ cell h.mem t sp i, base x ≠ 0
  home : ∀ i < len, ∀ k < t.size, ∀ x, h.owner (sp + i * t.size + k) = some x ∨ h.owner (dp + i * t.size + k) = some x →
    x ∈ A ∧ base x ≠ 0

section Loop

variable {h : ObjHeap} {own : Nat → List Nat} {base : Nat → Nat} {A : Finset Nat} {t : MapType} {r : Refs Nat}
  {junk : Nat → Nat} {v i sp dp : Nat}

theorem poolfree_of_ref {a : Nat} (there : ∀ x, h.owner a = some x → r.ref x ≠ none) :
    h.poolfree junk r a = h.mem a := by
  unfold ObjHeap.poolfree
  cases owner : h.owner a with
  | none => rfl
  | some x => exact if_neg fun freed => there x owner freed.2

theorem pointers_poolfree {words : List Nat}
    (there : ∀ k ∈ words, ∀ x, h.owner (v + k) = some x → r.ref x ≠ none) :
    pointers (h.poolfree junk r) v words = pointers h.mem v words := by
  refine congrArg _ (List.map_congr_left fun k member => ?_)
  exact poolfree_of_ref (there k member)

theorem mem_freeWords {map : List UInt8} {k : Nat} : k ∈ freeWords map ↔ k ∈ incWords map := (freeWords_perm map).mem_iff

/-- The counts after one step, where the blocks of the two cells are held. -/
theorem slicelaStep_released {rest : List Nat} (held : Held h.out own base A r (cell h.mem t dp i ++ rest))
    (enough : A.card ≤ h.bound)
    (home : ∀ k < t.size, ∀ x, h.owner (sp + i * t.size + k) = some x ∨ h.owner (dp + i * t.size + k) = some x → x ∈ A) :
    ∃ A', Released own A ((cell h.mem t sp i).foldl Refs.inc r) (cell h.mem t dp i) A'
      (slicelaStep h junk t sp dp r i) := by
  have there : ∀ x ∈ A, r.ref x ≠ none := fun x here => by
    obtain ⟨n, ref, -⟩ := held.refs x here
    exact ref ▸ Option.some_ne_none n
  have incs : incmem (h.poolfree junk r) (sp + i * t.size) t r = (cell h.mem t sp i).foldl Refs.inc r := by
    refine congrArg (List.foldl Refs.inc r) (pointers_poolfree fun k marked x owner => ?_)
    exact there x (home k (t.inside k marked) x (Or.inl owner))
  have there' : ∀ x ∈ A, ((cell h.mem t sp i).foldl Refs.inc r).ref x ≠ none := fun x here none => by
    rw [Refs.ref_incAll, Option.map_eq_none_iff] at none
    exact there x here none
  have frees : pointers (h.poolfree junk ((cell h.mem t sp i).foldl Refs.inc r)) (dp + i * t.size) (freeWords t.map) =
      pointers h.mem (dp + i * t.size) (freeWords t.map) := by
    refine pointers_poolfree fun k marked x owner => ?_
    exact there' x (home k (t.inside k (mem_freeWords.mp marked)) x (Or.inr owner))
  have ordered := pointers_perm h.mem (dp + i * t.size) t.map
  obtain ⟨A', released, -⟩ := freeptrs_leaves
    (frees ▸ (held.front.incAll (cell h.mem t sp i)).perm ordered.symm) enough
  have step : slicelaStep h junk t sp dp r i =
      h.freeptrs (h.poolfree junk ((cell h.mem t sp i).foldl Refs.inc r)) (dp + i * t.size) t
        ((cell h.mem t sp i).foldl Refs.inc r) := by
    unfold slicelaStep
    rw [incs]
  rw [step]
  exact ⟨A', (frees ▸ released).perm ordered⟩

/-- A loop that overwrites no cell before it is read does what it does if it counts the whole source first. -/
theorem slicela_loop {is : List Nat}
    (order : is.Pairwise fun i j => cell h.mem t sp j ≠ [] → dp + i * t.size ≠ sp + j * t.size)
    (held : Held h.out own base A r (is.flatMap (cell h.mem t dp))) (enough : A.card ≤ h.bound)
    (source : ∀ i ∈ is, ∀ x ∈ cell h.mem t sp i, x ∈ A ∧
      (base x ≠ 0 ∨ ∃ j ∈ is, dp + j * t.size = sp + i * t.size))
    (home : ∀ i ∈ is, ∀ k < t.size, ∀ x,
      h.owner (sp + i * t.size + k) = some x ∨ h.owner (dp + i * t.size + k) = some x → x ∈ A ∧ base x ≠ 0) :
    ∃ A', Released own A ((is.flatMap (cell h.mem t sp)).foldl Refs.inc r) (is.flatMap (cell h.mem t dp)) A'
      (is.foldl (slicelaStep h junk t sp dp) r) := by
  induction is generalizing A r base with
  | nil => exact ⟨A, Released.nil own A r⟩
  | cons i is ih =>
    rw [List.flatMap_cons] at held
    rw [List.pairwise_cons] at order
    have first := home i List.mem_cons_self
    obtain ⟨A₁, released⟩ := slicelaStep_released held enough fun k less x owner => (first k less x owner).1
    have counted := held.incAll (cell h.mem t sp i)
    have held₁ := counted.after released
    have stays : ∀ x ∈ A, base x ≠ 0 ∨ x ∈ is.flatMap (cell h.mem t dp) → x ∈ A₁ ∧
        (slicelaStep h junk t sp dp r i).ref x ≠ some 0 := by
      intro x here reason
      have inside : x ∈ A₁ := by
        refine counted.front.stays released here ?_
        rcases reason with pinned | later
        · omega
        · have pos := List.count_pos_iff.mpr later
          omega
      refine ⟨inside, fun zero => ?_⟩
      obtain ⟨n, ref, most⟩ := held₁.refs x inside
      rw [zero, Option.some.injEq] at ref
      rcases reason with pinned | later
      · omega
      · have pos := List.count_pos_iff.mpr later
        omega
    -- What is still to be read has not been overwritten by this step.
    have next : ∀ j ∈ is, ∀ x ∈ cell h.mem t sp j, base x ≠ 0 ∨ ∃ j' ∈ is, dp + j' * t.size = sp + j * t.size := by
      intro j member x points
      rcases (source j (List.mem_cons_of_mem i member) x points).2 with pinned | ⟨j', among, same⟩
      · exact Or.inl pinned
      · rcases List.mem_cons.mp among with rfl | later
        · exact absurd same (order.1 j member (List.ne_nil_of_mem points))
        · exact Or.inr ⟨j', later, same⟩
    have unread : ∀ x ∈ is.flatMap (cell h.mem t sp), x ∈ A₁ ∧ (slicelaStep h junk t sp dp r i).ref x ≠ some 0 := by
      intro x member
      obtain ⟨j, among, points⟩ := List.mem_flatMap.mp member
      refine stays x (source j (List.mem_cons_of_mem i among) x points).1 ((next j among x points).imp_right ?_)
      rintro ⟨j', later, same⟩
      refine List.mem_flatMap.mpr ⟨j', later, ?_⟩
      rw [cell, same]
      exact points
    obtain ⟨A₂, others⟩ := ih order.2 held₁ ((Finset.card_le_card released.sub).trans enough)
      (fun j among x points => ⟨(unread x (List.mem_flatMap.mpr ⟨j, among, points⟩)).1,
        (next j among x points).imp_left fun pinned => by omega⟩)
      (fun j among k less x owner => by
        obtain ⟨here, pinned⟩ := home j (List.mem_cons_of_mem i among) k less x owner
        exact ⟨(stays x here (Or.inl pinned)).1, by omega⟩)
    rw [List.flatMap_cons, List.flatMap_cons, List.foldl_append, List.foldl_cons]
    exact ⟨A₂, Released.trans (counted.incAll (is.flatMap (cell h.mem t sp))) (released.incAll unread) others⟩

theorem size_pos_of_cell {mem : Nat → Nat} (some_ : cell mem t v i ≠ []) : 0 < t.size := by
  obtain ⟨x, points⟩ := List.exists_mem_of_ne_nil _ some_
  obtain ⟨⟨k, marked, -⟩, -⟩ := mem_pointers.mp points
  have less := t.inside k marked
  omega

theorem up_order {mem : Nat → Nat} (len : Nat) (below : ¬dp > sp) :
    (List.range len).Pairwise fun i j => cell mem t sp j ≠ [] → dp + i * t.size ≠ sp + j * t.size := by
  refine List.pairwise_lt_range.imp fun less some_ => ?_
  have apart := Nat.mul_lt_mul_of_pos_right less (size_pos_of_cell some_)
  omega

theorem down_order {mem : Nat → Nat} (len : Nat) (above : dp > sp) :
    (List.range len).reverse.Pairwise fun i j => cell mem t sp j ≠ [] → dp + i * t.size ≠ sp + j * t.size := by
  refine List.pairwise_reverse.mpr (List.pairwise_lt_range.imp fun less some_ => ?_)
  have apart := Nat.mul_lt_mul_of_pos_right less (size_pos_of_cell some_)
  omega

/-- A loop through all cells, in an order that overwrites none before it is read. -/
theorem slicela_released {len : Nat} {is : List Nat} (sliced : Sliced h own base A t len sp dp)
    (all : is.Perm (List.range len))
    (order : is.Pairwise fun i j => cell h.mem t sp j ≠ [] → dp + i * t.size ≠ sp + j * t.size) :
    ∃ A', Released own A ((cells h.mem t sp len).foldl Refs.inc h.refs) (cells h.mem t dp len) A'
      (is.foldl (slicelaStep h junk t sp dp) h.refs) := by
  have member {i : Nat} : i ∈ is ↔ i < len := all.mem_iff.trans List.mem_range
  have sources := all.flatMap_right (cell h.mem t sp)
  have targets := all.flatMap_right (cell h.mem t dp)
  have source : ∀ i ∈ is, ∀ x ∈ cell h.mem t sp i, x ∈ A ∧
      (base x ≠ 0 ∨ ∃ j ∈ is, dp + j * t.size = sp + i * t.size) := by
    intro i among x points
    refine ⟨sliced.source x (sources.mem_iff.mp (List.mem_flatMap.mpr ⟨i, among, points⟩)), ?_⟩
    by_cases overwritten : ∃ j ∈ is, dp + j * t.size = sp + i * t.size
    · exact Or.inr overwritten
    · refine Or.inl (sliced.rest i (member.mp among) (fun j less same => overwritten ?_) x points)
      exact ⟨j, member.mpr less, same⟩
  obtain ⟨A', released⟩ := @slicela_loop h own base A t h.refs junk sp dp is order (sliced.held.perm targets.symm)
    sliced.bound source fun i among => sliced.home i (member.mp among)
  refine ⟨A', (released.perm targets).congr (fun x _ => ?_) (fun x _ => ?_) fun x none => ?_⟩
  · rw [Refs.ref_incAll, Refs.ref_incAll, sources.count_eq]
    rfl
  · rw [Refs.zeroed_incAll, Refs.zeroed_incAll]
  · rw [Refs.ref_incAll, Option.map_eq_none_iff] at none ⊢
    exact none

end Loop

/-- The instruction copies the cells of its source, whatever is left in freed memory. The counts change by what the two
slices hold and by what the objects hold that it frees. None of an object that is copied is zero on the way. -/
theorem slicela_counts (h : ObjHeap) (junk : Nat → Nat) (ss ds : Slice) (m : Int) (own : Nat → List Nat)
    (base : Nat → Nat) (A : Finset Nat) (low : 0 ≤ int m) (high : int m + ss.len ≤ ds.len) (pointed : ds.t.map ≠ [])
    (sliced : Sliced h own base A ds.t ss.len ss.data (ds.data + (int m).toNat * ds.t.size)) :
    ∃ r mem, slicela h junk (some ss) (some ds) m = .ok (r, mem) ∧
      (∀ i < ss.len, ∀ k < ds.t.size, mem (ds.data + (int m).toNat * ds.t.size + i * ds.t.size + k) =
        h.mem (ss.data + i * ds.t.size + k)) ∧
      (∀ x n, h.refs.ref x = some n → n + (cells h.mem ds.t ss.data ss.len).count x = (r.ref x).getD 0 +
        (cells h.mem ds.t (ds.data + (int m).toNat * ds.t.size) ss.len).count x +
        into h.out (A.filter fun y => r.ref y = none) x) ∧
      ∀ x ∈ cells h.mem ds.t ss.data ss.len, (∃ n, r.ref x = some n ∧ n ≠ 0) ∧ r.zeroed x = h.refs.zeroed x := by
  unfold slicela
  dsimp only
  rw [if_neg (by omega), if_neg pointed]
  refine ⟨_, _, rfl, ?_⟩
  generalize ds.data + (int m).toNat * ds.t.size = dp at sliced ⊢
  obtain ⟨A', released⟩ : ∃ A', Released own A ((cells h.mem ds.t ss.data ss.len).foldl Refs.inc h.refs)
      (cells h.mem ds.t dp ss.len) A' ((if dp > ss.data then (List.range ss.len).reverse else List.range ss.len).foldl
        (slicelaStep h junk ds.t ss.data dp) h.refs) := by
    split
    · rename_i above
      exact slicela_released sliced (List.reverse_perm _) (down_order ss.len above)
    · rename_i below
      exact slicela_released sliced (List.Perm.refl _) (up_order ss.len below)
  generalize (if dp > ss.data then (List.range ss.len).reverse else List.range ss.len).foldl
    (slicelaStep h junk ds.t ss.data dp) h.refs = r at released ⊢
  have held := sliced.held.incAll (cells h.mem ds.t ss.data ss.len)
  have there : ∀ x ∈ A', r.ref x ≠ none := fun x member => by
    obtain ⟨n, ref, -⟩ := held.refs x (released.sub member)
    obtain ⟨n', ref', -⟩ := released.kept x member n ref
    exact ref' ▸ Option.some_ne_none n'
  refine ⟨fun i less k inside => ?_, fun x n ref => ?_, fun x points => ?_⟩
  · have cell : i * ds.t.size + ds.t.size ≤ ss.len * ds.t.size := by
      rw [← Nat.succ_mul]
      exact Nat.mul_le_mul_right _ less
    rw [Nat.add_assoc, memmove_inside _ _ _ (by omega), ← Nat.add_assoc]
    refine poolfree_of_ref fun x owner => there x ?_
    obtain ⟨here, pinned⟩ := sliced.home i less k inside x (Or.inl owner)
    exact held.stays released here (by omega)
  · have here := sliced.all x (ref ▸ Option.some_ne_none n)
    have freed : (A.filter fun y => r.ref y = none) = A \ A' := by
      ext y
      rw [Finset.mem_filter, Finset.mem_sdiff]
      refine and_congr_right fun member => ⟨fun none kept => there y kept none, fun out => ?_⟩
      exact (released.gone y member out).1
    have more : ((cells h.mem ds.t ss.data ss.len).foldl Refs.inc h.refs).ref x =
        some (n + (cells h.mem ds.t ss.data ss.len).count x) := by rw [Refs.ref_incAll, ref, Option.map_some]
    rw [freed, ← held.whole_of_gone released]
    by_cases kept : x ∈ A'
    · obtain ⟨n', ref', count⟩ := released.kept x kept _ more
      rw [ref', Option.getD_some]
      exact count
    · obtain ⟨none, count⟩ := released.gone x here kept
      rw [more, Option.some.injEq] at count
      rw [none, Option.getD_none, Nat.zero_add]
      exact count
  · have more := List.count_pos_iff.mpr points
    have here := sliced.source x points
    have kept := held.stays released here (by omega)
    obtain ⟨n, ref, enough⟩ := (held.left released).refs x kept
    refine ⟨⟨n, ref, by omega⟩, (released.low x kept fun zero => ?_).trans ?_⟩
    · rw [ref, Option.some.injEq] at zero
      omega
    · rw [Refs.zeroed_incAll]

/-- One word, a pointer. -/
def refType : MapType where
  size := 1
  map := [0x80]
  inside := by decide

def refSlice (data len : Nat) (small : 8 * (len * 1) < 2 ^ 31) : Slice := ⟨data, len, refType, small⟩

/-- The array 5 has the cells 100 to 102, in which are 3, 3 and 1. The object 1 points to 2. -/
def refHeap : ObjHeap where
  mem a := if a = 100 ∨ a = 101 then 3 else if a = 102 then 1 else if a = 200 then 2 else H
  free x := if x = 5 then .freearray 300 100 3 refType else if x = 1 then .freeheap 200 refType else .words []
  owner a := if a = 100 ∨ a = 101 ∨ a = 102 then some 5 else if a = 200 then some 1 else none
  refs := ⟨fun x => if x = 1 then some 1 else if x = 2 ∨ x = 3 ∨ x = 5 then some 2 else none, fun _ => false⟩
  gchalt := 0
  bound := 4

def refOwn (x : Nat) : List Nat := if x = 1 then [2] else []

def refBase (x : Nat) : Nat := if x = 1 then 0 else if x = 5 then 2 else 1

theorem refHeap_sliced : Sliced refHeap refOwn refBase {1, 2, 3, 5} refType 2 100 101 := by
  have refs : ∀ x ∈ ({1, 2, 3, 5} : Finset Nat), refHeap.refs.ref x = some (if x = 1 then 1 else 2) ∧
      (cells refHeap.mem refType 101 2).count x + into refOwn {1, 2, 3, 5} x + refBase x ≤ if x = 1 then 1 else 2 := by
    decide
  have home : ∀ i < 2, ∀ k < refType.size, refHeap.owner (100 + i * refType.size + k) = some 5 ∧
      refHeap.owner (101 + i * refType.size + k) = some 5 := by decide
  refine ⟨fun x ref => ?_, ⟨fun x here => ⟨_, refs x here⟩, ?_, ?_, ?_⟩, ?_, ?_, ?_, fun i less k small x owner => ?_⟩
  · by_contra out
    simp only [Finset.mem_insert, Finset.mem_singleton, not_or] at out
    exact ref ((if_neg out.1).trans (if_neg (by omega)))
  · decide
  · decide
  · decide
  · decide
  · decide
  · decide
  · obtain ⟨first, second⟩ := home i less k small
    rw [first, second, or_self, Option.some.injEq] at owner
    subst owner
    decide

/-- The first two cells over the last two. -/
theorem slicela_counts_overlap : ∃ r mem,
    slicela refHeap (fun _ => 0) (some (refSlice 100 2 (by decide))) (some (refSlice 100 3 (by decide))) 1 = .ok (r, mem) ∧
      mem 101 = 3 ∧ mem 102 = 3 ∧ (∃ n, r.ref 3 = some n ∧ n ≠ 0) ∧ r.zeroed 3 = false := by
  obtain ⟨r, mem, run, words, -, alive⟩ := slicela_counts refHeap (fun _ => 0) (refSlice 100 2 (by decide))
    (refSlice 100 3 (by decide)) 1 refOwn refBase {1, 2, 3, 5} (by decide) (by decide) (by decide)
    refHeap_sliced
  exact ⟨r, mem, run, words 0 (by decide) 0 (by decide), words 1 (by decide) 0 (by decide), alive 3 (by decide)⟩

/-- The object 2 is in neither slice and loses a reference. -/
theorem slicela_unbalanced : Sliced refHeap refOwn refBase {1, 2, 3, 5} refType 2 100 101 ∧
    ∃ r mem, slicela refHeap (fun _ => 0) (some (refSlice 100 2 (by decide))) (some (refSlice 100 3 (by decide))) 1 =
        .ok (r, mem) ∧
      2 ∉ cells refHeap.mem refType 100 2 ∧ 2 ∉ cells refHeap.mem refType 101 2 ∧
      refHeap.refs.ref 2 = some 2 ∧ r.ref 2 = some 1 :=
  ⟨refHeap_sliced, _, _, rfl, by decide +kernel, by decide +kernel, by decide +kernel, by decide +kernel⟩

end Inferno.Dis
