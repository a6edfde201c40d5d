import Inferno.Lib.Refs

namespace Inferno.Dis

open Lib

/-- The pointer to nothing, all ones. -/
def H : Nat := 2 ^ 64 - 1

/-- The words that a byte of a type map marks, the first by its highest bit. -/
def byteWords (c : UInt8) : List Nat := (List.range 8).filter fun k => c.toNat.testBit (7 - k)

/-- The words that a map marks, in the order of `incmem`. -/
def incWords : List UInt8 → List Nat
  | [] => []
  | c :: map => byteWords c ++ (incWords map).map (8 + ·)

/-- The same words in the order of `freeptrs`, which takes each byte from its lowest bit on. -/
def freeWords : List UInt8 → List Nat
  | [] => []
  | c :: map => (byteWords c).reverse ++ (freeWords map).map (8 + ·)

/-- A `Type`: the words of a value and the map of its pointers, which are inside. -/
structure MapType where
  size : Nat
  map : List UInt8
  inside : ∀ k ∈ incWords map, k < size

/-- The pointers at some words of a value, but for `H`. -/
def pointers (mem : Nat → Nat) (v : Nat) (words : List Nat) : List Nat :=
  (words.map fun k => mem (v + k)).filter (· ≠ H)

/-- The `free` of an object's type, with the addresses of what it looks at. -/
inductive Free
  | freeheap (v : Nat) (t : MapType)
  | freearray (root data len : Nat) (t : MapType)
  | freelist (data : Nat) (t : MapType) (tail : Nat)
  /-- Strings, channels and module links: the words whose pointers they give to `destroy`. -/
  | words (words : List Nat)

/-- The pointers that it gives to `destroy`. -/
def Free.kids (mem : Nat → Nat) : Free → List Nat
  | freeheap v t => pointers mem v (freeWords t.map)
  | freearray root data len t =>
    if mem root ≠ H then [mem root]
    else (List.range len).flatMap fun i => pointers mem (data + i * t.size) (freeWords t.map)
  | freelist data t _ => pointers mem data (freeWords t.map)
  | .words ws => pointers mem 0 ws

/-- The next list that `freelist` goes on to. -/
def Free.tail (mem : Nat → Nat) : Free → Option Nat
  | freelist _ _ tail => if mem tail ≠ H then some (mem tail) else none
  | _ => none

/-- Memory by words, the objects of the heap with what frees them, and the object in whose block a word is. `bound` is
the number of objects. -/
structure ObjHeap where
  mem : Nat → Nat
  free : Nat → Free
  owner : Nat → Option Nat
  refs : Refs Nat
  gchalt : Nat
  bound : Nat

namespace ObjHeap

variable (h : ObjHeap)

def kids (x : Nat) : List Nat := (h.free x).kids h.mem
def tail (x : Nat) : Option Nat := (h.free x).tail h.mem

/-- All that an object points to. -/
def out (x : Nat) : List Nat := h.kids x ++ (h.tail x).toList

/-- `destroy` stops freeing when `gchalt`, which each `free` raises, is above 64. -/
def levels : Nat := 65 - h.gchalt

def destroy (r : Refs Nat) (x : Nat) : Refs Nat := Refs.destroy h.kids h.tail h.bound h.levels x r

def freeptrs (mem : Nat → Nat) (v : Nat) (t : MapType) (r : Refs Nat) : Refs Nat :=
  if t.map = [] then r else (pointers mem v (freeWords t.map)).foldl h.destroy r

/-- Memory once the blocks of what `r` has no more are freed: the pool has stored `junk` in them. -/
def poolfree (junk : Nat → Nat) (r : Refs Nat) : Nat → Nat := fun a =>
  match h.owner a with
  | some x => if h.refs.ref x ≠ none ∧ r.ref x = none then junk a else h.mem a
  | none => h.mem a

end ObjHeap

def incmem (mem : Nat → Nat) (v : Nat) (t : MapType) (r : Refs Nat) : Refs Nat :=
  (pointers mem v (incWords t.map)).foldl Refs.inc r

/-- `memmove` of `n` words. -/
def memmove (mem : Nat → Nat) (d s n : Nat) : Nat → Nat := fun a => if d ≤ a ∧ a < d + n then mem (s + (a - d)) else mem a

variable {mem : Nat → Nat} {v : Nat} {t : MapType} {h : ObjHeap} {r : Refs Nat}

theorem freeWords_perm (map : List UInt8) : (freeWords map).Perm (incWords map) := by
  induction map with
  | nil => exact List.Perm.refl []
  | cons c map ih => exact (List.reverse_perm _).append (ih.map _)

theorem pointers_perm (mem : Nat → Nat) (v : Nat) (map : List UInt8) :
    (pointers mem v (freeWords map)).Perm (pointers mem v (incWords map)) :=
  ((freeWords_perm map).map _).filter _

theorem mem_pointers {x : Nat} {words : List Nat} : x ∈ pointers mem v words ↔ (∃ k ∈ words, mem (v + k) = x) ∧ x ≠ H := by
  rw [pointers, List.mem_filter, List.mem_map, decide_eq_true_eq]

theorem freeptrs_eq (h : ObjHeap) (mem : Nat → Nat) (v : Nat) (t : MapType) (r : Refs Nat) :
    h.freeptrs mem v t r = (pointers mem v (freeWords t.map)).foldl h.destroy r := by
  unfold ObjHeap.freeptrs
  split
  · rename_i empty
    rw [empty]
    rfl
  · rfl

theorem ref_incmem (mem : Nat → Nat) (v : Nat) (t : MapType) (r : Refs Nat) (x : Nat) :
    (incmem mem v t r).ref x = (r.ref x).map (· + (pointers mem v (incWords t.map)).count x) := Refs.ref_incAll ..

theorem memmove_inside (mem : Nat → Nat) (d s : Nat) {n k : Nat} (less : k < n) : memmove mem d s n (d + k) = mem (s + k) := by
  rw [memmove, if_pos ⟨Nat.le_add_right .., by omega⟩, Nat.add_sub_cancel_left]

/-- What `freeptrs` does to the counts. -/
theorem freeptrs_leaves {own : Nat → List Nat} {extra : Nat → Nat} {A : Finset Nat}
    (held : Held h.out own extra A r (pointers mem v (freeWords t.map))) (enough : A.card ≤ h.bound) :
    Leaves own extra h.levels A r (pointers mem v (freeWords t.map)) (h.freeptrs mem v t r) := by
  rw [freeptrs_eq]
  exact foldl_leaves (fun held enough => destroy_leaves held enough) held enough

end Inferno.Dis
