import Inferno.Dis.Ptrs

namespace Inferno.Dis

open Lib

/-- The counts and the memory once a record of type `t` is moved from `s` to `d`. -/
def moverec (h : ObjHeap) (junk : Nat → Nat) (t : MapType) (s d : Nat) : Refs Nat × (Nat → Nat) :=
  let r := h.freeptrs h.mem d t (incmem h.mem s t h.refs)
  (r, memmove (h.poolfree junk r) d s t.size)

/-- The type is the one of number `m` in the module. -/
def movmp (h : ObjHeap) (junk : Nat → Nat) (types : Nat → MapType) (m s d : Nat) : Refs Nat × (Nat → Nat) :=
  moverec h junk (types m) s d

/-- The type is that of the channel. -/
def movtmp (h : ObjHeap) (junk : Nat → Nat) (m : MapType) (s d : Nat) : Refs Nat × (Nat → Nat) :=
  moverec h junk m s d

/-- The record at `d` holds the words that the one at `s` held, and all that it points to is allocated. -/
def Copied (h : ObjHeap) (t : MapType) (s d : Nat) (after : Refs Nat × (Nat → Nat)) : Prop :=
  (∀ k < t.size, after.2 (d + k) = h.mem (s + k)) ∧
    ∀ x ∈ pointers after.2 d (incWords t.map), after.1.ref x ≠ none

/-- The record at `d`, the objects in `A` but those in `P`, and others, which hold `stay`, have the references that the
counts tell of. Each object that nothing else holds is among those whose pointers are counted. -/
structure Counted (h : ObjHeap) (P A : Finset Nat) (stay : Nat → Nat) (t : MapType) (s d : Nat) : Prop where
  held : Held h.out (outside h.out P) stay A h.refs (pointers h.mem d (freeWords t.map))
  bound : A.card ≤ h.bound
  source : ∀ x ∈ pointers h.mem s (incWords t.map), x ∈ A
  home : ∀ k < t.size, ∀ x, h.owner (s + k) = some x → x ∈ A

/-- With the record at `s` counted twice, each object in `K` has a reference that is neither in the record at `d` nor in
an object out of `K`. -/
def Stay (h : ObjHeap) (P A : Finset Nat) (t : MapType) (s d : Nat) (K : Finset Nat) : Prop :=
  K ⊆ A ∧ ∀ x ∈ K, ∀ n, h.refs.ref x = some n →
    (pointers h.mem d (freeWords t.map)).count x + into (outside h.out P) (A \ K) x <
      n + (pointers h.mem s (incWords t.map)).count x

/-- The source is in objects that stay. -/
def Stands (h : ObjHeap) (P A : Finset Nat) (t : MapType) (s d : Nat) : Prop :=
  ∃ K, Stay h P A t s d K ∧ ∀ k < t.size, ∀ x, h.owner (s + k) = some x → x ∈ K

/-- `destroy` has levels enough to free all that does not stay, and no object was left without references before. -/
def Shallow (h : ObjHeap) (P A : Finset Nat) (t : MapType) (s d : Nat) : Prop :=
  Alive A h.refs ∧ ∃ K, Stay h P A t s d K ∧ (A \ K).card ≤ h.levels

section Moverec

variable {h : ObjHeap} {P A K : Finset Nat} {stay : Nat → Nat} {t : MapType} {s d : Nat}

theorem Stay.stable (stay : Stay h P A t s d K) :
    Stable (outside h.out P) A K (incmem h.mem s t h.refs) (pointers h.mem d (freeWords t.map)) := by
  refine ⟨stay.1, fun x here n ref => ?_⟩
  rw [ref_incmem] at ref
  obtain ⟨m, before, rfl⟩ := Option.map_eq_some_iff.mp ref
  exact stay.2 x here m before

/-- The words of freed objects are not those of the source. -/
theorem copied_of_homes {junk : Nat → Nat} {A' : Finset Nat}
    (released : Released (outside h.out P) A (incmem h.mem s t h.refs) (pointers h.mem d (freeWords t.map)) A'
      (moverec h junk t s d).1)
    (counted : Counted h P A stay t s d)
    (home : ∀ k < t.size, ∀ x, h.owner (s + k) = some x → x ∈ A')
    (source : ∀ x ∈ pointers h.mem s (incWords t.map), x ∈ A') : Copied h t s d (moverec h junk t s d) := by
  have here : ∀ x ∈ A', (moverec h junk t s d).1.ref x ≠ none := by
    intro x member
    obtain ⟨n, ref, -⟩ := counted.held.refs x (released.sub member)
    obtain ⟨n', ref', -⟩ := released.kept x member (n + (pointers h.mem s (incWords t.map)).count x)
      (by rw [ref_incmem, ref, Option.map_some])
    exact ref' ▸ Option.some_ne_none n'
  have words : ∀ k < t.size, (moverec h junk t s d).2 (d + k) = h.mem (s + k) := by
    intro k less
    refine (memmove_inside _ d s less).trans ?_
    unfold ObjHeap.poolfree
    cases owner : h.owner (s + k) with
    | none => rfl
    | some x => exact if_neg fun freed => here x (home k less x owner) freed.2
  refine ⟨words, fun x member => here x (source x ?_)⟩
  obtain ⟨⟨k, marked, word⟩, some_⟩ := mem_pointers.mp member
  exact mem_pointers.mpr ⟨⟨k, marked, (words k (t.inside k marked)).symm.trans word⟩, some_⟩

theorem copied_of_stands (counted : Counted h P A stay t s d) (stands : Stands h P A t s d) (junk : Nat → Nat) :
    Copied h t s d (moverec h junk t s d) := by
  obtain ⟨K, stays, home⟩ := stands
  have held := counted.held.incAll (pointers h.mem s (incWords t.map))
  obtain ⟨A₁, released₁, -⟩ := freeptrs_leaves held counted.bound
  have pinned := held.pin stays.stable
  obtain ⟨A₂, released₂, -⟩ := freeptrs_leaves pinned counted.bound
  -- What stays is the same however the counts are explained: it is what has one after the move.
  have same : ∀ x ∈ A₂, x ∈ A₁ := by
    intro x member
    by_contra out
    obtain ⟨n, ref, -⟩ := held.refs x (released₂.sub member)
    obtain ⟨n', ref', -⟩ := released₂.kept x member n ref
    exact Option.some_ne_none n' (ref'.symm.trans (released₁.gone x (released₂.sub member) out).1)
  refine copied_of_homes released₁ counted (fun k less x owner => same x ?_) fun x member => ?_
  · have kept := home k less x owner
    obtain ⟨n, ref, -⟩ := held.refs x (stays.1 kept)
    have more := stays.stable.2 x kept n ref
    exact pinned.stays released₂ (stays.1 kept) (by rw [ref, Option.getD_some]; omega)
  · have more := List.count_pos_iff.mpr member
    exact held.stays released₁ (counted.source x member) (by omega)

theorem stands_of_copied (counted : Counted h P A stay t s d) (shallow : Shallow h P A t s d)
    (copied : ∀ junk, Copied h t s d (moverec h junk t s d)) : Stands h P A t s d := by
  obtain ⟨alive, K, stays, few⟩ := shallow
  have held : Held h.out (outside h.out P) _ A (incmem h.mem s t h.refs) _ :=
    counted.held.incAll (pointers h.mem s (incWords t.map))
  have pinned := held.pin stays.stable
  obtain ⟨A', released, ends⟩ := freeptrs_leaves pinned counted.bound
  have kept : K ⊆ A' := by
    intro x member
    obtain ⟨n, ref, -⟩ := held.refs x (stays.1 member)
    have more := stays.stable.2 x member n ref
    exact pinned.stays released (stays.1 member) (by rw [ref, Option.getD_some]; omega)
  have alive' : Alive A' (h.freeptrs h.mem d t (incmem h.mem s t h.refs)) := by
    refine ends ((Finset.card_le_card fun x member => ?_).trans few) fun x member zero => ?_
    · obtain ⟨here, none⟩ := Finset.mem_filter.mp member
      refine Finset.mem_sdiff.mpr ⟨here, fun inside => ?_⟩
      obtain ⟨n, ref, -⟩ := held.refs x here
      have more := stays.stable.2 x inside n ref
      dsimp only at none
      rw [ref, Option.getD_some] at none
      omega
    · rw [ref_incmem] at zero
      obtain ⟨n, ref, sum⟩ := Option.map_eq_some_iff.mp zero
      exact alive x member (ref.trans (congrArg some (by omega)))
  refine ⟨A', ⟨released.sub, fun x member n ref => ?_⟩, fun k less x owner => ?_⟩
  · obtain ⟨n', ref', count⟩ := released.kept x member (n + (pointers h.mem s (incWords t.map)).count x)
      (by rw [ref_incmem, ref, Option.map_some])
    have some_ : n' ≠ 0 := fun zero => alive' x member (zero ▸ ref')
    -- None of the objects that are gone is in `K`, so all that they own has been released.
    have all : into (outside (outside h.out P) K) (A \ A') x = into (outside h.out P) (A \ A') x := by
      refine Finset.sum_congr rfl fun y out => ?_
      rw [outside, if_neg fun inside => (Finset.mem_sdiff.mp out).2 (kept inside)]
    omega
  · by_contra out
    have here := counted.home k less x owner
    obtain ⟨n, ref, -⟩ := counted.held.refs x here
    have word := (copied fun a => h.mem a + 1).1 k less
    have freed : h.refs.ref x ≠ none ∧ (h.freeptrs h.mem d t (incmem h.mem s t h.refs)).ref x = none :=
      ⟨ref ▸ Option.some_ne_none n, (released.gone x here out).1⟩
    have moved : h.poolfree (fun a => h.mem a + 1) (h.freeptrs h.mem d t (incmem h.mem s t h.refs)) (s + k) = h.mem (s + k) :=
      (memmove_inside _ d s less).symm.trans word
    rw [ObjHeap.poolfree, owner] at moved
    dsimp only at moved
    rw [if_pos freed] at moved
    omega

end Moverec

/-- Both moves keep the value of a record whose objects stay, whatever is left in freed memory, and no others. -/
theorem move_exact (h : ObjHeap) (types : Nat → MapType) (m s d : Nat) (P A : Finset Nat) (stay : Nat → Nat)
    (counted : Counted h P A stay (types m) s d) :
    (Stands h P A (types m) s d → ∀ junk, Copied h (types m) s d (movmp h junk types m s d) ∧
      Copied h (types m) s d (movtmp h junk (types m) s d)) ∧
    (Shallow h P A (types m) s d →
      ((∀ junk, Copied h (types m) s d (movmp h junk types m s d)) → Stands h P A (types m) s d) ∧
      ((∀ junk, Copied h (types m) s d (movtmp h junk (types m) s d)) → Stands h P A (types m) s d)) :=
  ⟨fun stands junk => ⟨copied_of_stands counted stands junk, copied_of_stands counted stands junk⟩,
    fun shallow => ⟨stands_of_copied counted shallow, stands_of_copied counted shallow⟩⟩

/-- Two words, of which the first is a pointer. -/
def nodeType : MapType where
  size := 2
  map := [0x80]
  inside := by decide

/-- A node at 100, whose only reference is at 10, the first word of a record of the same type. -/
def nodeHeap : ObjHeap where
  mem a := if a = 10 then 1 else if a = 100 ∨ a = 20 then H else 7
  free _ := .freeheap 100 nodeType
  owner a := if a = 100 ∨ a = 101 then some 1 else none
  refs := ⟨fun x => if x = 1 then some 1 else none, fun _ => false⟩
  gchalt := 0
  bound := 1

theorem nodeHeap_counted : Counted nodeHeap ∅ {1} (fun _ => 0) nodeType 100 10 := by
  refine ⟨⟨fun x here => ⟨1, ?_⟩, ?_, ?_, fun _ _ _ => rfl⟩, ?_, ?_, fun k _ x owner => ?_⟩
  · obtain rfl := Finset.mem_singleton.mp here
    decide
  · decide
  · decide
  · decide
  · decide
  · unfold nodeHeap at owner
    dsimp only at owner
    split at owner
    · exact Finset.mem_singleton.mpr (Option.some.inj owner).symm
    · nomatch owner

/-- The record at 20, which is in no object. -/
theorem move_exact_frame :
    Copied nodeHeap nodeType 20 10 (movmp nodeHeap (fun _ => 0) (fun _ => nodeType) 0 20 10) ∧
      Copied nodeHeap nodeType 20 10 (movtmp nodeHeap (fun _ => 0) nodeType 20 10) := by
  have none : ∀ k < nodeType.size, nodeHeap.owner (20 + k) = none := by decide
  have counted : Counted nodeHeap ∅ {1} (fun _ => 0) nodeType 20 10 :=
    ⟨nodeHeap_counted.held, nodeHeap_counted.bound, by decide,
      fun k less x owner => nomatch (none k less).symm.trans owner⟩
  exact (move_exact nodeHeap (fun _ => nodeType) 0 20 10 ∅ {1} (fun _ => 0) counted).1
    ⟨∅, ⟨Finset.empty_subset _, fun _ member => absurd member (Finset.notMem_empty _)⟩,
      fun k less x owner => nomatch (none k less).symm.trans owner⟩ (fun _ => 0)

/-- A record that is copied from its own only successor. -/
theorem move_lost : Counted nodeHeap ∅ {1} (fun _ => 0) nodeType 100 10 ∧
    ¬ Copied nodeHeap nodeType 100 10 (movmp nodeHeap (fun _ => 0) (fun _ => nodeType) 0 100 10) ∧
    ¬ Copied nodeHeap nodeType 100 10 (movtmp nodeHeap (fun _ => 0) nodeType 100 10) := by
  have lost : (moverec nodeHeap (fun _ => 0) nodeType 100 10).2 (10 + 1) ≠ nodeHeap.mem (100 + 1) := by decide
  exact ⟨nodeHeap_counted, fun copied => lost (copied.1 1 (by decide)), fun copied => lost (copied.1 1 (by decide))⟩

end Inferno.Dis
