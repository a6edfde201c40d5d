import Inferno.Pool.Pooladd

namespace Inferno.Pool

open Inferno.Lib

/-- A block of an arena. -/
structure Block where
  size : Nat
  free : Bool

def total (ks : List Block) : Nat := (ks.map Block.size).sum

/-- The blocks in memory order, with the addresses they have from `b` on. -/
def layout (b : Nat) : List Block → List (Nat × Block)
  | [] => []
  | k :: ks => (b, k) :: layout (b + k.size) ks

/-- An arena: its leader stands at `base`, its blocks behind that. -/
structure Arena where
  base : Nat
  blocks : List Block

namespace Arena

def csize (a : Arena) : Nat := quanta + 1 + total a.blocks

def limit (a : Arena) : Nat := a.base + a.csize

/-- The memory obtained for it. -/
def length (a : Arena) : Nat := a.csize + (quanta + 1)

def stop (a : Arena) : Nat := a.limit + (quanta + 1)

def layout (a : Arena) : List (Nat × Block) := Pool.layout (a.base + (quanta + 1)) a.blocks

end Arena

def layouts (as : List Arena) : List (Nat × Block) := as.flatMap Arena.layout

/-- The free blocks with their sizes, the data pointers of the others, and the sum of their sizes. -/
def freeOf (L : List (Nat × Block)) : List (Nat × Nat) := (L.filter fun p => p.2.free).map fun p => (p.1, p.2.size)

def usedOf (L : List (Nat × Block)) : List Nat := (L.filter fun p => !p.2.free).map fun p => p.1 + dataOffset

def usedSum (L : List (Nat × Block)) : Nat := ((L.filter fun p => !p.2.free).map fun p => p.2.size).sum

/-- Header and tail of a block. -/
structure BlockOk (s : State) (b : Nat) (k : Block) : Prop where
  size : s.size b = k.size
  magic : s.magic b = if k.free then magicF else magicA
  tail : s.tail (b + k.size) = b
  quantum : quanta + 1 ∣ k.size
  pos : 0 < k.size

/-- Two neighbours are not both free. -/
def Apart (k k' : Block) : Prop := ¬ (k.free = true ∧ k'.free = true)

/-- The memory of an arena. -/
structure ArenaOk (s : State) (a : Arena) : Prop where
  leader : s.magic a.base = magicE
  size : s.size a.base = quanta + 1
  csize : s.csize a.base = a.csize
  tail : s.tail (a.base + (quanta + 1)) = a.base
  tiled : ∀ p ∈ a.layout, BlockOk s p.1 p.2
  apart : a.blocks.IsChain Apart
  limit : s.magic a.limit = magicE

/-- The arenas from a header on. -/
def Chained (s : State) : Option Nat → List Arena → Prop
  | head, [] => head = none
  | head, a :: as => head = some a.base ∧ Chained s (s.clink a.base) as

section

variable {b : Nat} {k : Block} {ks ks' pre mid mid' post : List Block} {s s' : State} {a : Arena} {as : List Arena}

@[simp] theorem total_nil : total [] = 0 := rfl

@[simp] theorem total_cons (k : Block) (ks : List Block) : total (k :: ks) = k.size + total ks := rfl

@[simp] theorem total_append (ks ks' : List Block) : total (ks ++ ks') = total ks + total ks' := by
  simp [total]

theorem layout_append (b : Nat) (ks ks' : List Block) :
    layout b (ks ++ ks') = layout b ks ++ layout (b + total ks) ks' := by
  induction ks generalizing b with
  | nil => rfl
  | cons k ks ih =>
    simp only [List.cons_append, layout, ih, total_cons]
    rw [Nat.add_assoc]

/-- Where a block is. -/
theorem layout_bounds {p : Nat × Block} (member : p ∈ layout b ks) : b ≤ p.1 ∧ p.1 + p.2.size ≤ b + total ks := by
  induction ks generalizing b with
  | nil => nomatch member
  | cons k ks ih =>
    rcases List.mem_cons.mp member with rfl | later
    · simp only [total_cons]
      omega
    · have inside := ih later
      simp only [total_cons]
      omega

theorem exists_of_mem_layout {p : Nat × Block} (member : p ∈ layout b ks) :
    ∃ pre post, ks = pre ++ p.2 :: post ∧ p.1 = b + total pre := by
  induction ks generalizing b with
  | nil => nomatch member
  | cons k ks ih =>
    rcases List.mem_cons.mp member with rfl | later
    · exact ⟨[], ks, rfl, rfl⟩
    · obtain ⟨pre, post, rfl, at_⟩ := ih later
      exact ⟨k :: pre, post, rfl, by rw [at_, total_cons, Nat.add_assoc]⟩

theorem layout_nodup (pos : ∀ k ∈ ks, 0 < k.size) : ((layout b ks).map Prod.fst).Nodup := by
  induction ks generalizing b with
  | nil => exact .nil
  | cons k ks ih =>
    rw [layout, List.map_cons, List.nodup_cons]
    refine ⟨fun member => ?_, ih fun k' m => pos k' (List.mem_cons_of_mem k m)⟩
    obtain ⟨p, inside, same⟩ := List.mem_map.mp member
    have low := (layout_bounds inside).1
    have positive := pos k List.mem_cons_self
    simp only at same
    omega

theorem map_snd_layout (b : Nat) (ks : List Block) : (layout b ks).map Prod.snd = ks := by
  induction ks generalizing b with
  | nil => rfl
  | cons k ks ih => rw [layout, List.map_cons, ih]

/-- The fields that describe blocks are the same at `x`, and the tail that ends there. -/
structure SameAt (s s' : State) (x : Nat) : Prop where
  magic : s'.magic x = s.magic x
  size : s'.size x = s.size x
  csize : s'.csize x = s.csize x
  clink : s'.clink x = s.clink x
  tail : s'.tail x = s.tail x

theorem BlockOk.congr (ok : BlockOk s b k) (here : SameAt s s' b) (there : s'.tail (b + k.size) = s.tail (b + k.size)) :
    BlockOk s' b k :=
  ⟨here.size.trans ok.size, here.magic.trans ok.magic, there.trans ok.tail, ok.quantum, ok.pos⟩

theorem ArenaOk.congr (ok : ArenaOk s a) (same : ∀ x, a.base ≤ x → x < a.stop → SameAt s s' x) : ArenaOk s' a := by
  have base : SameAt s s' a.base := same _ (le_refl _) (by simp only [Arena.stop, Arena.limit, Arena.csize, quanta]; omega)
  have first : SameAt s s' (a.base + (quanta + 1)) :=
    same _ (by omega) (by simp only [Arena.stop, Arena.limit, Arena.csize, quanta]; omega)
  have last : SameAt s s' a.limit := same _ (by simp only [Arena.limit]; omega) (by simp only [Arena.stop, quanta]; omega)
  refine ⟨base.magic.trans ok.leader, base.size.trans ok.size, base.csize.trans ok.csize, first.tail.trans ok.tail,
    fun p member => ?_, ok.apart, last.magic.trans ok.limit⟩
  have bounds := layout_bounds member
  have pos := (ok.tiled p member).pos
  refine (ok.tiled p member).congr (same _ ?_ ?_) (same _ ?_ ?_).tail <;>
    simp only [Arena.stop, Arena.limit, Arena.csize, quanta] at bounds ⊢ <;> omega

/-- One stretch of blocks is rewritten in place. -/
theorem ArenaOk.replace {base : Nat} (ok : ArenaOk s ⟨base, pre ++ mid ++ post⟩) (size : total mid' = total mid)
    (pos : 0 < total mid)
    (fresh : ∀ p ∈ layout (base + (quanta + 1) + total pre) mid', BlockOk s' p.1 p.2)
    (apart : (pre ++ mid' ++ post).IsChain Apart)
    (outside : ∀ x, x < base + (quanta + 1) + total pre ∨ base + (quanta + 1) + total pre + total mid ≤ x →
      s'.magic x = s.magic x ∧ s'.size x = s.size x)
    (csize : s'.csize = s.csize)
    (tails : ∀ e, e ≤ base + (quanta + 1) + total pre ∨ base + (quanta + 1) + total pre + total mid < e →
      s'.tail e = s.tail e) : ArenaOk s' ⟨base, pre ++ mid' ++ post⟩ := by
  have same : (Arena.mk base (pre ++ mid' ++ post)).csize = (Arena.mk base (pre ++ mid ++ post)).csize := by
    simp only [Arena.csize, total_append, size]
  have sameLimit : (Arena.mk base (pre ++ mid' ++ post)).limit = (Arena.mk base (pre ++ mid ++ post)).limit := by
    simp only [Arena.limit, same]
  refine ⟨?_, ?_, ?_, ?_, fun p member => ?_, apart, ?_⟩
  · rw [(outside base (by simp only [quanta]; omega)).1]
    exact ok.leader
  · rw [(outside base (by simp only [quanta]; omega)).2]
    exact ok.size
  · rw [csize, same]
    exact ok.csize
  · rw [tails _ (by dsimp only; omega)]
    exact ok.tail
  · simp only [Arena.layout, layout_append, List.mem_append, total_append, size] at member
    have old : p ∈ (Arena.mk base (pre ++ mid ++ post)).layout → BlockOk s p.1 p.2 := ok.tiled p
    simp only [Arena.layout, layout_append, List.mem_append, total_append] at old
    rcases member with (early | new) | late
    · have bounds := layout_bounds early
      have block := old (Or.inl (Or.inl early))
      have positive := block.pos
      exact ⟨(outside _ (by omega)).2.trans block.size, (outside _ (by omega)).1.trans block.magic,
        (tails _ (by omega)).trans block.tail, block.quantum, positive⟩
    · exact fresh p new
    · have bounds := layout_bounds late
      have block := old (Or.inr late)
      have positive := block.pos
      exact ⟨(outside _ (by omega)).2.trans block.size, (outside _ (by omega)).1.trans block.magic,
        (tails _ (by omega)).trans block.tail, block.quantum, positive⟩
  · rw [sameLimit, (outside _ (by simp only [Arena.limit, Arena.csize, total_append]; omega)).1]
    exact ok.limit

theorem freeOf_append (L L' : List (Nat × Block)) : freeOf (L ++ L') = freeOf L ++ freeOf L' := by
  simp [freeOf]

theorem usedOf_append (L L' : List (Nat × Block)) : usedOf (L ++ L') = usedOf L ++ usedOf L' := by
  simp [usedOf]

theorem usedSum_append (L L' : List (Nat × Block)) : usedSum (L ++ L') = usedSum L + usedSum L' := by
  simp [usedSum]

/-- The blocks around a stretch of one arena. -/
theorem layouts_split (xs ys : List Arena) (base : Nat) (pre mid post : List Block) :
    (layouts (xs ++ ⟨base, pre ++ mid ++ post⟩ :: ys)).Perm (layout (base + (quanta + 1) + total pre) mid ++
      (layouts xs ++ layout (base + (quanta + 1)) pre ++
        layout (base + (quanta + 1) + total pre + total mid) post ++ layouts ys)) := by
  have whole : layouts (xs ++ ⟨base, pre ++ mid ++ post⟩ :: ys) = layouts xs ++ (layout (base + (quanta + 1)) pre ++
      layout (base + (quanta + 1) + total pre) mid ++ layout (base + (quanta + 1) + total pre + total mid) post) ++
      layouts ys := by
    simp only [layouts, List.flatMap_append, List.flatMap_cons, Arena.layout, layout_append, List.append_assoc,
      Nat.add_assoc]
  rw [whole]
  simp only [List.append_assoc]
  exact (List.Perm.append_left _ (List.perm_append_comm_assoc _ _ _)).trans (List.perm_append_comm_assoc _ _ _)

theorem mem_layouts {p : Nat × Block} : p ∈ layouts as ↔ ∃ a ∈ as, p ∈ a.layout := by
  simp [layouts]

theorem exists_of_mem_layouts {p : Nat × Block} (member : p ∈ layouts as) :
    ∃ xs base pre post ys, as = xs ++ ⟨base, pre ++ p.2 :: post⟩ :: ys ∧ p.1 = base + (quanta + 1) + total pre := by
  obtain ⟨a, inside, here⟩ := mem_layouts.mp member
  obtain ⟨xs, ys, rfl⟩ := List.append_of_mem inside
  obtain ⟨pre, post, blocks, at_⟩ := exists_of_mem_layout here
  exact ⟨xs, a.base, pre, post, ys, by rw [← blocks], at_⟩

theorem Arena.bounds {p : Nat × Block} (member : p ∈ a.layout) :
    a.base + (quanta + 1) ≤ p.1 ∧ p.1 + p.2.size ≤ a.limit := by
  have inside := layout_bounds member
  simp only [Arena.limit, Arena.csize]
  omega

/-- Blocks have addresses of their own. -/
theorem layouts_nodup (arenas : ∀ a ∈ as, ArenaOk s a)
    (disjoint : as.Pairwise fun a a' => a.stop ≤ a'.base ∨ a'.stop ≤ a.base) : ((layouts as).map Prod.fst).Nodup := by
  induction as with
  | nil => exact .nil
  | cons a as ih =>
    obtain ⟨first, rest⟩ := List.pairwise_cons.mp disjoint
    have own := arenas a List.mem_cons_self
    rw [layouts, List.flatMap_cons, List.map_append, List.nodup_append]
    refine ⟨layout_nodup fun k m => ?_, ih (fun a' m => arenas a' (List.mem_cons_of_mem a m)) rest, ?_⟩
    · rw [← map_snd_layout (a.base + (quanta + 1)) a.blocks] at m
      obtain ⟨p, inside, rfl⟩ := List.mem_map.mp m
      exact (own.tiled p inside).pos
    · rintro x here y there rfl
      obtain ⟨p, inP, rfl⟩ := List.mem_map.mp here
      obtain ⟨p', inP', same⟩ := List.mem_map.mp there
      obtain ⟨a', inA', inL⟩ := mem_layouts.mp inP'
      have one := Arena.bounds inP
      have two := Arena.bounds inL
      have posP := (own.tiled p inP).pos
      have posP' := ((arenas a' (List.mem_cons_of_mem a inA')).tiled p' inL).pos
      have apart := first a' inA'
      simp only [Arena.stop, quanta] at *
      omega

theorem length_layout (pos : ∀ k ∈ ks, 0 < k.size) : (layout b ks).length ≤ total ks := by
  induction ks generalizing b with
  | nil => exact le_refl _
  | cons k ks ih =>
    have rest := ih (b := b + k.size) fun k' m => pos k' (List.mem_cons_of_mem k m)
    have first := pos k List.mem_cons_self
    simp only [layout, List.length_cons, total_cons]
    omega

/-- There are fewer blocks than bytes. -/
theorem length_layouts (arenas : ∀ a ∈ as, ArenaOk s a) : (layouts as).length ≤ (as.map Arena.length).sum := by
  induction as with
  | nil => exact le_refl _
  | cons a as ih =>
    have rest := ih fun a' m => arenas a' (List.mem_cons_of_mem a m)
    have first : a.layout.length ≤ total a.blocks := length_layout fun k m => by
      rw [← map_snd_layout (a.base + (quanta + 1)) a.blocks] at m
      obtain ⟨p, inside, rfl⟩ := List.mem_map.mp m
      exact ((arenas a List.mem_cons_self).tiled p inside).pos
    rw [layouts, List.flatMap_cons, List.length_append, List.map_cons, List.sum_cons, Arena.length, Arena.csize]
    rw [layouts] at rest
    omega

theorem size_le_length {p : Nat × Block} (member : p ∈ layouts as) : p.2.size ≤ (as.map Arena.length).sum := by
  obtain ⟨a, inside, here⟩ := mem_layouts.mp member
  have bounds := Arena.bounds here
  obtain ⟨xs, ys, rfl⟩ := List.append_of_mem inside
  simp only [List.map_append, List.map_cons, List.sum_append, List.sum_cons, Arena.length]
  simp only [Arena.limit] at bounds
  omega

end

end Inferno.Pool
