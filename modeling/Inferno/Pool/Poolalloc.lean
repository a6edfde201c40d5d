import Inferno.Pool.Poolfree

namespace Inferno.Pool

open Inferno.Lib

variable {s s' : State} {t : RingTree Nat} {q n size : Nat} {live : List Nat} {as xs ys : List Arena} {base : Nat}
  {pre post : List Block}

/-- A stretch that starts with a block in use. -/
theorem apart_used {mid rest : List Block} {k : Block} (chain : (pre ++ mid ++ post).IsChain Apart)
    (used : k.free = false) (own : (k :: rest).IsChain Apart)
    (after : ∀ x ∈ (k :: rest).getLast?, ∀ y ∈ post.head?, Apart x y) : (pre ++ (k :: rest) ++ post).IsChain Apart := by
  obtain ⟨front, back, _⟩ := List.isChain_append.mp chain
  obtain ⟨first, _, _⟩ := List.isChain_append.mp front
  rw [List.append_assoc]
  refine List.isChain_append.mpr ⟨first, List.isChain_append.mpr ⟨own, back, after⟩, fun x m y m' both => ?_⟩
  cases m'
  rw [used] at both
  exact nomatch both.2

/-- A free block of the tree is in some arena. -/
theorem Inv.locate (inv : Inv s live as t) (entry : (q, n) ∈ t.entries) :
    ∃ xs base pre post ys, as = xs ++ ⟨base, pre ++ [Block.mk n true] ++ post⟩ :: ys ∧
      q = base + (quanta + 1) + total pre := by
  obtain ⟨⟨b, k⟩, inside, free, same⟩ := mem_freeOf.mp (inv.free.mem_iff.mp entry)
  obtain ⟨rfl, rfl⟩ := Prod.mk.inj same
  obtain ⟨xs, base, pre, post, ys, rfl, at_⟩ := exists_of_mem_layouts inside
  refine ⟨xs, base, pre, post, ys, ?_, at_⟩
  dsimp only at free
  cases k
  subst free
  simp

section

variable (inv : Inv s live (xs ++ ⟨base, pre ++ [Block.mk n true] ++ post⟩ :: ys) t)
include inv

theorem Inv.mem_free : (base + (quanta + 1) + total pre, Block.mk n true) ∈
    layouts (xs ++ ⟨base, pre ++ [Block.mk n true] ++ post⟩ :: ys) :=
  (layouts_split xs ys base pre [Block.mk n true] post).mem_iff.mpr (List.mem_append_left _ List.mem_cons_self)

/-- A free block is taken out of the tree. -/
theorem Inv.taken :
    ∃ root links t₁, s.remove (base + (quanta + 1) + total pre) = some { s with pool.root := root, links } ∧
      TreeOk { s with pool.root := root, links } t₁ ∧
      t.entries.Perm ((base + (quanta + 1) + total pre, n) :: t₁.entries) :=
  remove_spec inv.treeOk (inv.free.mem_iff.mpr (mem_freeOf.mpr ⟨_, inv.mem_free, rfl, rfl⟩))

/-- The whole of a free block is given out. -/
theorem Inv.given {root : Option Nat} {links : Links Nat} {t₁ : RingTree Nat}
    (ok : TreeOk { s with pool.root := root, links } t₁)
    (perm : t.entries.Perm ((base + (quanta + 1) + total pre, n) :: t₁.entries)) :
    Inv (({ s with pool.root := root, links }.setMagic (base + (quanta + 1) + total pre) magicA).charge n)
      ((base + (quanta + 1) + total pre + dataOffset) :: live)
      (xs ++ ⟨base, pre ++ [Block.mk n false] ++ post⟩ :: ys) t₁ := by
  have block := inv.block inv.mem_free
  have posN : 0 < n := block.pos
  have chain := (inv.arenas ⟨base, pre ++ [Block.mk n true] ++ post⟩ (by simp)).apart
  refine inv.rewrite ⟨fun x far => ⟨?_, rfl⟩, fun _ _ => rfl, rfl, rfl, rfl, rfl, rfl, rfl, rfl⟩ rfl (by simpa using posN) ?_
    (apart_used chain rfl (.singleton _) ?_) (ok.congr rfl rfl (fun _ _ => rfl) (le_refl _)) (fun R old => ?_)
    (fun R old => ?_) ?_
  · have other : x ≠ base + (quanta + 1) + total pre := by
      simp only [total_cons, total_nil] at far
      omega
    exact Function.update_of_ne other _ _
  · intro p inside
    rw [layout, layout, List.mem_singleton] at inside
    subst inside
    exact ⟨block.size, Function.update_self _ _ _, block.tail, block.quantum, posN⟩
  · intro x m y _ both
    cases m
    cases both.1
  · exact (List.perm_cons _).mp (perm.symm.trans old)
  · exact old.cons _
  · simp [State.charge, State.setMagic, layout, usedSum]

/-- No block starts inside another. -/
theorem Inv.not_inside {x : Nat} (low : base + (quanta + 1) + total pre < x)
    (high : x < base + (quanta + 1) + total pre + n) {p : Nat × Block}
    (member : p ∈ layouts (xs ++ ⟨base, pre ++ [Block.mk n true] ++ post⟩ :: ys)) : p.1 ≠ x := by
  have posP := (inv.block member).pos
  obtain ⟨a, inside, here⟩ := mem_layouts.mp member
  have bounds := Arena.bounds here
  obtain ⟨_, orderY, orderXY⟩ := List.pairwise_append.mp inv.disjoint
  obtain ⟨orderA, _⟩ := List.pairwise_cons.mp orderY
  have limit : base + (quanta + 1) + total pre + n ≤ (Arena.mk base (pre ++ [Block.mk n true] ++ post)).limit := by
    simp only [Arena.limit, Arena.csize, total_append, total_cons]
    omega
  have apart : ∀ a : Arena, (a.stop ≤ base ∨ (Arena.mk base (pre ++ [Block.mk n true] ++ post)).stop ≤ a.base) →
      p ∈ a.layout → p.1 ≠ x := by
    intro a away inA
    have bounds := Arena.bounds inA
    simp only [Arena.stop, quanta] at away bounds limit low high ⊢
    omega
  simp only [List.mem_append, List.mem_cons] at inside
  rcases inside with early | rfl | late
  · exact apart a (orderXY a early _ List.mem_cons_self) here
  · simp only [Arena.layout, layout_append, List.mem_append, total_append, total_cons, total_nil] at here
    rcases here with (before | own) | behind
    · have inBefore := layout_bounds before
      omega
    · rw [layout, layout, List.mem_singleton] at own
      rw [own]
      exact Nat.ne_of_lt low
    · have inBehind := layout_bounds behind
      omega
  · exact apart a (orderA a late).symm here

/-- The front of a free block is given out, the rest goes back to the tree. -/
theorem Inv.split {root : Option Nat} {links : Links Nat} {t₁ : RingTree Nat}
    (ok : TreeOk { s with pool.root := root, links } t₁)
    (perm : t.entries.Perm ((base + (quanta + 1) + total pre, n) :: t₁.entries)) (less : size < n) (pos : 0 < size)
    (quantum : quanta + 1 ∣ size) :
    ∃ s₃ t', ((({ s with pool.root := root, links }.setMagic (base + (quanta + 1) + total pre) magicA).setSize
        (base + (quanta + 1) + total pre) size).setSize (base + (quanta + 1) + total pre + size) (n - size)).pooladd
          (base + (quanta + 1) + total pre + size) = some s₃ ∧ s₃.size (base + (quanta + 1) + total pre) = size ∧
      Inv (s₃.charge size) ((base + (quanta + 1) + total pre + dataOffset) :: live)
        (xs ++ ⟨base, pre ++ [Block.mk size false, Block.mk (n - size) true] ++ post⟩ :: ys) t' := by
  have block := inv.block inv.mem_free
  have chain := (inv.arenas ⟨base, pre ++ [Block.mk n true] ++ post⟩ (by simp)).apart
  generalize at_ : base + (quanta + 1) + total pre = b at *
  let s₂ : State := (({ s with pool.root := root, links }.setMagic b magicA).setSize b size).setSize (b + size) (n - size)
  have addrs : t.addrs.Perm (b :: t₁.addrs) := by
    simpa only [RingTree.map_fst_entries, List.map_cons] using perm.map Prod.fst
  have notB : b ∉ t₁.addrs := (List.nodup_cons.mp (addrs.nodup_iff.mp inv.treeOk.nodup)).1
  have notRest : b + size ∉ t₁.addrs := by
    intro member
    obtain ⟨p, inside, _, same⟩ := inv.mem_addrs (addrs.mem_iff.mpr (List.mem_cons_of_mem b member))
    exact inv.not_inside (by omega) (by omega) inside same
  have ok₂ : TreeOk s₂ t₁ := by
    refine ok.congr rfl rfl (fun x member => ?_) (le_refl _)
    have one : x ≠ b + size := fun same => notRest (same ▸ member)
    have two : x ≠ b := fun same => notB (same ▸ member)
    exact (Function.update_of_ne one _ _).trans (Function.update_of_ne two _ _)
  have sizeRest : s₂.size (b + size) = n - size := Function.update_self _ _ _
  have small : s₂.size (b + size) < 2 ^ 31 := by
    rw [sizeRest]
    have bound : n < 2 ^ 31 := inv.size_lt inv.mem_free
    omega
  have room : t₁.addrs.length < s₂.fuel := by
    have length := addrs.length_eq
    rw [List.length_cons] at length
    have fits := inv.treeOk.fits
    have same : s₂.fuel = s.fuel := rfl
    omega
  obtain ⟨root', links', t', added, ok', perm'⟩ := pooladd_spec ok₂ notRest small room
  rw [sizeRest] at perm'
  have notFirst : b ≠ b + size := by omega
  refine ⟨_, t', added, (Function.update_of_ne notFirst _ _).trans (Function.update_self _ _ _), ?_⟩
  subst at_
  have quantumN : quanta + 1 ∣ n := block.quantum
  refine inv.rewrite ⟨fun x far => ⟨?_, ?_⟩, fun e far => ?_, rfl, rfl, rfl, rfl, rfl, rfl, rfl⟩ ?_ ?_ ?_
    (apart_used chain rfl ?_ ?_) (ok'.congr rfl rfl (fun _ _ => rfl) (le_refl _)) (fun R old => ?_) (fun R old => ?_) ?_
  · simp only [total_cons, total_nil] at far
    have one : x ≠ base + (quanta + 1) + total pre + size := by omega
    have two : x ≠ base + (quanta + 1) + total pre := by omega
    exact (Function.update_of_ne one _ _).trans (Function.update_of_ne two _ _)
  · simp only [total_cons, total_nil] at far
    have one : x ≠ base + (quanta + 1) + total pre + size := by omega
    have two : x ≠ base + (quanta + 1) + total pre := by omega
    exact (Function.update_of_ne one _ _).trans (Function.update_of_ne two _ _)
  · simp only [total_cons, total_nil] at far
    have one : e ≠ base + (quanta + 1) + total pre + size + (n - size) := by omega
    have two : e ≠ base + (quanta + 1) + total pre + size := by omega
    exact (Function.update_of_ne one _ _).trans (Function.update_of_ne two _ _)
  · simp only [total_cons, total_nil]
    omega
  · simp only [total_cons, total_nil]
    omega
  · intro p inside
    simp only [layout, List.mem_cons, List.not_mem_nil, or_false] at inside
    rcases inside with rfl | rfl
    · have other : base + (quanta + 1) + total pre + size ≠ base + (quanta + 1) + total pre + size + (n - size) := by omega
      exact ⟨(Function.update_of_ne notFirst _ _).trans (Function.update_self _ _ _),
        (Function.update_of_ne notFirst _ _).trans (Function.update_self _ _ _),
        (Function.update_of_ne other _ _).trans (Function.update_self _ _ _), quantum, pos⟩
    · exact ⟨sizeRest, Function.update_self _ _ _, Function.update_self _ _ _, Nat.dvd_sub quantumN quantum, by
        dsimp only
        omega⟩
  · exact List.isChain_cons_cons.mpr ⟨fun both => (by cases both.1), .singleton _⟩
  · intro x m y m' both
    have next := apart_next (List.isChain_append.mp (by simpa using chain)).2.1 rfl y m'
    rw [next] at both
    cases both.2
  · have rest := (List.perm_cons _).mp (perm.symm.trans old)
    simpa [layout, freeOf] using perm'.trans (rest.cons _)
  · simpa [layout, usedOf] using old
  · simp [State.charge, State.setMagic, layout, usedSum, s₂, State.setSize]

end

end Inferno.Pool
