import Inferno.Ns.Mounts

namespace Inferno.Ns

open Lib

/-- The hash chains `hs` and the mount lists `ms` of a state. -/
structure Shape (w : Mounts) (hs : Nat → Fin 32 → List Href) (ms : Href → List Mref) : Prop where
  chain : ∀ p b, Path w.hash (w.mnthash p b) (hs p b)
  list : ∀ m, Path w.next (w.mount m) (ms m)
  apart : ∀ {m p q b c}, m ∈ hs p b → m ∈ hs q c → p = q ∧ b = c
  head : ∀ {m x}, x ∈ ms m → (w.mounts x).head = m
  live : ∀ {m x}, x ∈ ms m → w.live x = true ∧ x < w.made
  heads : ∀ {m p b}, m ∈ hs p b → m < w.heads
  fresh : ∀ {m}, w.heads ≤ m → ms m = []
  pgrps : ∀ {p}, w.pgrps ≤ p → ∀ b, hs p b = []
  bucket : ∀ {m p b}, m ∈ hs p b → mounth (w.fromChan m).ident.path = b
  once : ∀ {m k p b}, m ∈ hs p b → k ∈ hs p b → (w.fromChan m).ident = (w.fromChan k).ident → m = k

theorem length_le_of_nodup {xs : List Nat} {n : Nat} (nodup : xs.Nodup) (below : ∀ x ∈ xs, x < n) : xs.length ≤ n := by
  have sub : xs ⊆ List.range n := fun x here => List.mem_range.mpr (below x here)
  have bound := (List.subperm_of_subset nodup sub).length_le
  rwa [List.length_range] at bound

/-- What is known of the node `x` is unchanged. -/
structure SameNode (w w' : Mounts) (x : Mref) : Prop where
  next : w'.next x = w.next x
  live : w'.live x = w.live x
  elem : w'.elem x = w.elem x

/-- No head and no chain changes. -/
structure SameHeads (w w' : Mounts) : Prop where
  mnthash : w'.mnthash = w.mnthash
  hash : w'.hash = w.hash
  fromChan : w'.fromChan = w.fromChan
  heads : w'.heads = w.heads
  pgrps : w'.pgrps = w.pgrps
  made : w.made ≤ w'.made

/-- Only the list of `m` and nodes of no other list change. -/
structure Edit (ms : Href → List Mref) (m : Href) (w w' : Mounts) : Prop extends SameHeads w w' where
  mount : ∀ k, k ≠ m → w'.mount k = w.mount k
  node : ∀ k, k ≠ m → ∀ x ∈ ms k, SameNode w w' x

/-- Only nodes from `base` on change. -/
structure Grows (base : Nat) (w w' : Mounts) : Prop extends SameHeads w w' where
  mount : w'.mount = w.mount
  node : ∀ x < base, SameNode w w' x

/-- The step from `w` to `w'` changes no name space but `p`, and of its lists that of `m` alone. -/
structure Step (p : Nat) (m : Href) (w : Mounts) (hs : Nat → Fin 32 → List Href) (ms : Href → List Mref)
    (w' : Mounts) (hs' : Nat → Fin 32 → List Href) (ms' : Href → List Mref) : Prop where
  others : ∀ q, q ≠ p → hs' q = hs q
  apart : ∀ q, q ≠ p → ∀ b, m ∉ hs q b
  heads : ∀ {b k}, k ∈ hs' p b → k = m ∨ k ∈ hs p b
  lists : ∀ {k}, k ≠ m → ms' k = ms k
  fromChan : ∀ {k}, k < w.heads → w'.fromChan k = w.fromChan k
  node : ∀ {k}, k ≠ m → ∀ {x}, x ∈ ms k → w'.elem x = w.elem x
  pgrps : w'.pgrps = w.pgrps

variable {w w' w'' : Mounts} {hs hs' hs'' : Nat → Fin 32 → List Href} {ms ms' ms'' : Href → List Mref} {m : Href}
  {p base : Nat} {b : Fin 32}

theorem mounts_of_elem {x : Mref} (same : w'.elem x = w.elem x) : w'.mounts x = w.mounts x := congrArg Elem.node same

theorem SameNode.mounts {x : Mref} (same : SameNode w w' x) : w'.mounts x = w.mounts x := mounts_of_elem same.elem

theorem SameNode.mountid {x : Mref} (same : SameNode w w' x) : w'.mountid x = w.mountid x :=
  congrArg Elem.mountid same.elem

theorem SameNode.refl (x : Mref) : SameNode w w x := ⟨rfl, rfl, rfl⟩

theorem SameNode.trans {x : Mref} (first : SameNode w w' x) (second : SameNode w' w'' x) : SameNode w w'' x :=
  ⟨second.next.trans first.next, second.live.trans first.live, second.elem.trans first.elem⟩

theorem SameHeads.refl : SameHeads w w := ⟨rfl, rfl, rfl, rfl, rfl, Nat.le_refl _⟩

theorem SameHeads.trans (first : SameHeads w w') (second : SameHeads w' w'') : SameHeads w w'' where
  mnthash := second.mnthash.trans first.mnthash
  hash := second.hash.trans first.hash
  fromChan := second.fromChan.trans first.fromChan
  heads := second.heads.trans first.heads
  pgrps := second.pgrps.trans first.pgrps
  made := Nat.le_trans first.made second.made

theorem Edit.refl : Edit ms m w w := ⟨.refl, fun _ _ => rfl, fun _ _ x _ => .refl x⟩

theorem Edit.trans (first : Edit ms m w w') (second : Edit ms m w' w'') : Edit ms m w w'' where
  toSameHeads := first.toSameHeads.trans second.toSameHeads
  mount := fun k other => (second.mount k other).trans (first.mount k other)
  node := fun k other x here => (first.node k other x here).trans (second.node k other x here)

theorem Grows.refl : Grows base w w := ⟨.refl, rfl, fun x _ => .refl x⟩

theorem Grows.trans (first : Grows base w w') (second : Grows base w' w'') : Grows base w w'' where
  toSameHeads := first.toSameHeads.trans second.toSameHeads
  mount := second.mount.trans first.mount
  node := fun x below => (first.node x below).trans (second.node x below)

namespace Shape

theorem list_length (shape : Shape w hs ms) (m : Href) : (ms m).length ≤ w.made :=
  length_le_of_nodup (shape.list m).nodup fun _ here => (shape.live here).2

theorem chain_length (shape : Shape w hs ms) (p : Nat) (b : Fin 32) : (hs p b).length ≤ w.heads :=
  length_le_of_nodup (shape.chain p b).nodup fun _ here => shape.heads here

theorem listOf_eq (shape : Shape w hs ms) (m : Href) : w.listOf m = (ms m).map w.elem :=
  congrArg (List.map w.elem) ((shape.list m).follow_eq (shape.list_length m))

theorem table_eq (shape : Shape w hs ms) (p : Nat) (b : Fin 32) :
    w.table p b = (hs p b).map fun m => ⟨m, w.fromChan m, (ms m).map w.elem⟩ := by
  unfold Mounts.table
  rw [(shape.chain p b).follow_eq (shape.chain_length p b)]
  simp only [shape.listOf_eq]

/-- A node is in one list. -/
theorem owner (shape : Shape w hs ms) {k : Href} {x : Mref} (here : x ∈ ms m) (there : x ∈ ms k) : m = k :=
  (shape.head here).symm.trans (shape.head there)

/-- A change of the list of `m`. -/
theorem relist (shape : Shape w hs ms) (edit : Edit ms m w w') {l : List Mref} (alive : m < w.heads)
    (list : Path w'.next (w'.mount m) l)
    (owned : ∀ x ∈ l, (w'.mounts x).head = m ∧ w'.live x = true ∧ x < w'.made) :
    Shape w' hs (Function.update ms m l) := by
  have same {k : Href} (other : k ≠ m) : Function.update ms m l k = ms k := Function.update_of_ne other _ _
  have cases_on {k : Href} {x : Mref} (here : x ∈ Function.update ms m l k) : k = m ∧ x ∈ l ∨ k ≠ m ∧ x ∈ ms k := by
    by_cases mine : k = m
    · subst mine
      rw [Function.update_self] at here
      exact Or.inl ⟨rfl, here⟩
    · rw [same mine] at here
      exact Or.inr ⟨mine, here⟩
  refine ⟨?_, ?_, shape.apart, ?_, ?_, ?_, ?_, ?_, ?_, ?_⟩
  · intro p b
    rw [edit.hash, edit.mnthash]
    exact shape.chain p b
  · intro k
    by_cases mine : k = m
    · subst mine
      rw [Function.update_self]
      exact list
    · rw [same mine, edit.mount k mine]
      exact (shape.list k).congr fun x here => (edit.node k mine x here).next
  · intro k x here
    rcases cases_on here with ⟨rfl, new⟩ | ⟨other, old⟩
    · exact (owned x new).1
    · rw [(edit.node k other x old).mounts]
      exact shape.head old
  · intro k x here
    rcases cases_on here with ⟨rfl, new⟩ | ⟨other, old⟩
    · exact (owned x new).2
    · rw [(edit.node k other x old).live]
      exact ⟨(shape.live old).1, Nat.lt_of_lt_of_le (shape.live old).2 edit.made⟩
  · intro k q c here
    rw [edit.heads]
    exact shape.heads here
  · intro k new
    rw [edit.heads] at new
    rw [same (Nat.ne_of_gt (Nat.lt_of_lt_of_le alive new))]
    exact shape.fresh new
  · intro q new
    rw [edit.pgrps] at new
    exact shape.pgrps new
  · intro k q c here
    rw [edit.fromChan]
    exact shape.bucket here
  · intro k j q c here there
    rw [edit.fromChan]
    exact shape.once here there

theorem grows (shape : Shape w hs ms) (grows : Grows base w w') (below : ∀ k, ∀ x ∈ ms k, x < base) :
    Shape w' hs ms where
  chain := fun p b => by
    rw [grows.hash, grows.mnthash]
    exact shape.chain p b
  list := fun k => by
    rw [grows.mount]
    exact (shape.list k).congr fun x here => (grows.node x (below k x here)).next
  apart := shape.apart
  head := fun {k x} here => by
    rw [(grows.node x (below k x here)).mounts]
    exact shape.head here
  live := fun {k x} here => by
    rw [(grows.node x (below k x here)).live]
    exact ⟨(shape.live here).1, Nat.lt_of_lt_of_le (shape.live here).2 grows.made⟩
  heads := fun here => by
    rw [grows.heads]
    exact shape.heads here
  fresh := fun new => shape.fresh (grows.heads ▸ new)
  pgrps := fun new => shape.pgrps (grows.pgrps ▸ new)
  bucket := fun here => by
    rw [grows.fromChan]
    exact shape.bucket here
  once := fun here there => by
    rw [grows.fromChan]
    exact shape.once here there

end Shape

theorem Grows.edit (grows : Grows base w w') (below : ∀ k, ∀ x ∈ ms k, x < base) : Edit ms m w w' :=
  ⟨grows.toSameHeads, fun k _ => congrFun grows.mount k, fun k _ x here => grows.node x (below k x here)⟩

namespace Step

theorem trans (first : Step p m w hs ms w' hs' ms') (second : Step p m w' hs' ms' w'' hs'' ms'')
    (heads : w.heads ≤ w'.heads) : Step p m w hs ms w'' hs'' ms'' where
  others := fun q other => (second.others q other).trans (first.others q other)
  apart := first.apart
  heads := fun here => by
    rcases second.heads here with same | old
    · exact Or.inl same
    · exact first.heads old
  lists := fun other => (second.lists other).trans (first.lists other)
  fromChan := fun old => (second.fromChan (Nat.lt_of_lt_of_le old heads)).trans (first.fromChan old)
  node := fun {k} other {x} here => by
    rw [second.node other (by rw [first.lists other]; exact here)]
    exact first.node other here
  pgrps := second.pgrps.trans first.pgrps

/-- The tables of the other name spaces are what they were. -/
theorem table_eq (step : Step p m w hs ms w' hs' ms') (shape : Shape w hs ms) (shape' : Shape w' hs' ms') {q : Nat}
    (other : q ≠ p) : w'.table q = w.table q := by
  funext b
  rw [shape.table_eq, shape'.table_eq, step.others q other]
  refine List.map_congr_left fun k here => ?_
  have ne : k ≠ m := fun same => step.apart q other b (same ▸ here)
  rw [step.fromChan (shape.heads here), step.lists ne]
  congr 1
  exact List.map_congr_left fun x old => step.node ne old

end Step

/-- An edit of the list of a head of `p` is a step in `p`. -/
theorem Edit.step (edit : Edit ms m w w') (shape : Shape w hs ms) (member : m ∈ hs p b) {l : List Mref} :
    Step p m w hs ms w' hs (Function.update ms m l) where
  others := fun _ _ => rfl
  apart := fun _ other _ here => other (shape.apart here member).1
  heads := fun here => Or.inr here
  lists := fun other => Function.update_of_ne other _ _
  fromChan := fun _ => by rw [edit.fromChan]
  node := fun {k} other {x} here => (edit.node k other x here).elem
  pgrps := edit.pgrps

namespace Mounts

theorem newmount_grows {mh : Href} {chan : Chan} {flag : Nat} {spec : Option (List UInt8)} (below : base ≤ w.made) :
    Grows base w (w.newmount mh chan flag spec).2 := by
  refine ⟨⟨rfl, rfl, rfl, rfl, rfl, Nat.le_succ _⟩, rfl, fun x old => ?_⟩
  have ne : x ≠ w.made := by omega
  refine ⟨Function.update_of_ne ne _ _, Function.update_of_ne ne _ _, ?_⟩
  simp only [elem, newmount, Function.update_of_ne ne]

theorem ite_update_cons {β : Type} {y : Mref} {xs : List Mref} (f : Mref → β) (v : β) :
    (fun x => if x ∈ xs then v else Function.update f y v x) = fun x => if x ∈ y :: xs then v else f x := by
  funext x
  by_cases here : x ∈ xs
  · rw [if_pos here, if_pos (List.mem_cons_of_mem y here)]
  · by_cases same : x = y
    · rw [if_neg here, if_pos (List.mem_cons.mpr (Or.inl same)), same, Function.update_self]
    · have other : x ∉ y :: xs := fun either => (List.mem_cons.mp either).elim same here
      rw [if_neg here, if_neg other, Function.update_of_ne same]

/-- What `mountfree` does to the nodes of the list. -/
theorem mountfree_eq {n : Nat} {h : Option Mref} {xs : List Mref} (path : Path w.next h xs) (length : xs.length ≤ n) :
    mountfree n w h = { w with mountid := fun x => if x ∈ xs then 0 else w.mountid x,
                               live := fun x => if x ∈ xs then false else w.live x } := by
  induction xs generalizing w h n with
  | nil =>
    cases path
    cases n <;> rfl
  | cons y xs ih =>
    obtain ⟨rfl, rest⟩ := path
    obtain ⟨n, rfl⟩ := Nat.exists_eq_succ_of_ne_zero (Nat.ne_of_gt (Nat.zero_lt_of_lt length))
    let freed : Mounts :=
      { w with mountid := Function.update w.mountid y 0, live := Function.update w.live y false }
    rw [mountfree, ih (w := freed) rest (Nat.le_of_succ_le_succ length)]
    congr 1
    · exact ite_update_cons w.mountid 0
    · exact ite_update_cons w.live false

end Mounts

end Inferno.Ns
