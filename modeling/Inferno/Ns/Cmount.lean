import Inferno.Ns.Chains

namespace Inferno.Ns

open Lib

/-- A node of the list of `m`. -/
def Owned (w : Mounts) (m : Href) (x : Mref) : Prop := (w.mounts x).head = m ∧ w.live x = true ∧ x < w.made

def chans (w : Mounts) (xs : List Mref) : List Chan := xs.map fun x => (w.mounts x).chan

/-- The list after a mount of `xs` on a directory with `old`. -/
def ordered {α : Type} (order : Nat) (xs old : List α) : List α :=
  if order = mrepl then xs else if order = mafter then old ++ xs else xs ++ old

/-- What follows the first element of a union. -/
def tailOf (ms : Href → List Mref) : Option Href → List Mref
  | none => []
  | some k => (ms k).tail

variable {w w' : Mounts} {hs hs' : Nat → Fin 32 → List Href} {ms ms' : Href → List Mref} {m : Href} {p base : Nat}
  {b : Fin 32} {xs us old : List Mref} {x nm : Mref} {um : Option Mref} {order flag flg mem n : Nat}

theorem map_ordered {α β : Type} (f : α → β) (xs old : List α) :
    (ordered order xs old).map f = ordered order (xs.map f) (old.map f) := by
  unfold ordered
  split_ifs
  · rfl
  · exact List.map_append
  · exact List.map_append

theorem mem_ordered_left {α : Type} {xs old : List α} {y : α} (here : y ∈ xs) : y ∈ ordered order xs old := by
  unfold ordered
  split_ifs
  · exact here
  · exact List.mem_append_right _ here
  · exact List.mem_append_left _ here

theorem mem_ordered {α : Type} {xs old : List α} {y : α} (here : y ∈ ordered order xs old) :
    y ∈ xs ∨ y ∈ old ∧ order ≠ mrepl := by
  unfold ordered at here
  split_ifs at here with repl after
  · exact Or.inl here
  · exact (List.mem_append.mp here).symm.imp_right fun member => ⟨member, repl⟩
  · exact (List.mem_append.mp here).imp_right fun member => ⟨member, repl⟩

theorem chans_congr {xs : List Mref} (same : ∀ x ∈ xs, (w'.mounts x).chan = (w.mounts x).chan) : chans w' xs = chans w xs :=
  List.map_congr_left same

namespace Shape

theorem owned (shape : Shape w hs ms) (here : x ∈ ms m) : Owned w m x := ⟨shape.head here, shape.live here⟩

theorem below (shape : Shape w hs ms) (k : Href) : ∀ x ∈ ms k, x < w.made := fun _ here => (shape.live here).2

theorem restOf_path (shape : Shape w hs ms) (umh : Option Href) : Path w.next (w.restOf umh) (tailOf ms umh) := by
  cases umh with
  | none => rfl
  | some k =>
    have list := shape.list k
    simp only [Mounts.restOf, Option.bind_some, tailOf]
    cases first : w.mount k with
    | none =>
      rw [first] at list
      rw [list.eq_nil]
      rfl
    | some f =>
      rw [first] at list
      obtain ⟨rest, cons, path⟩ := list.eq_cons
      rw [cons]
      exact path

theorem tailOf_length (shape : Shape w hs ms) (umh : Option Href) : (tailOf ms umh).length ≤ w.made := by
  cases umh with
  | none => exact Nat.zero_le _
  | some k =>
    rw [tailOf, List.length_tail]
    exact Nat.le_trans (Nat.sub_le _ _) (shape.list_length k)

theorem tailOf_below (shape : Shape w hs ms) {umh : Option Href} : ∀ x ∈ tailOf ms umh, x < w.made := by
  cases umh with
  | none => exact fun _ here => nomatch here
  | some k => exact fun x here => shape.below k x (List.mem_of_mem_tail here)

end Shape

namespace Mounts

/-- The copies of a union are appended to the list from `nm`, all of them where there is memory. -/
theorem copyUnion_spec (flg mem : Nat) (chain : Path w.next (some nm) xs) (last : xs.getLast? = some x)
    (fresh : ∀ y ∈ xs, base ≤ y ∧ Owned w m y) (rest : Path w.next um us) (old : ∀ y ∈ us, y < base)
    (below : base ≤ w.made) (length : us.length ≤ n) :
    ∃ ys, Path (copyUnion m flg n w mem x um).1.next (some nm) (xs ++ ys) ∧
      Grows base w (copyUnion m flg n w mem x um).1 ∧
      (∀ y ∈ xs ++ ys, base ≤ y ∧ Owned (copyUnion m flg n w mem x um).1 m y) ∧
      (∀ y ∈ xs, (copyUnion m flg n w mem x um).1.elem y = w.elem y) ∧
      ((copyUnion m flg n w mem x um).2 = true ↔ us.length ≤ mem) ∧
      ((copyUnion m flg n w mem x um).2 = true → chans (copyUnion m flg n w mem x um).1 ys = chans w us ∧
        (copyUnion m flg n w mem x um).1.ref = w.ref + us.length) := by
  induction us generalizing w xs x um mem n with
  | nil =>
    cases rest
    have same : copyUnion m flg n w mem x none = (w, true) := by cases n <;> rfl
    rw [same]
    refine ⟨[], ?_, .refl, ?_, fun _ _ => rfl, ⟨fun _ => Nat.zero_le _, fun _ => rfl⟩, fun _ => ⟨rfl, rfl⟩⟩
    · rw [List.append_nil]
      exact chain
    · rw [List.append_nil]
      exact fresh
  | cons u us ih =>
    obtain ⟨rfl, rest⟩ := rest
    obtain ⟨n, rfl⟩ := Nat.exists_eq_succ_of_ne_zero (Nat.ne_of_gt (Nat.zero_lt_of_lt length))
    cases mem with
    | zero =>
      have same : copyUnion m flg (n + 1) w 0 x (some u) = (w, false) := rfl
      rw [same]
      refine ⟨[], ?_, .refl, ?_, fun _ _ => rfl, ⟨fun wrong => (nomatch wrong), fun wrong => (nomatch wrong)⟩,
        fun wrong => (nomatch wrong)⟩
      · rw [List.append_nil]
        exact chain
      · rw [List.append_nil]
        exact fresh
    | succ mem =>
      have xFresh := fresh x (List.mem_of_getLast? last)
      have newBelow {y : Mref} (here : y ∈ xs) : y ≠ w.made := Nat.ne_of_lt (fresh y here).2.2.2
      let w₁ := (w.newmount m (w.mounts u).chan flg (w.mounts u).spec).2
      let w₂ : Mounts := { w₁ with next := Function.update w₁.next x (some w.made) }
      have grows : Grows base w w₂ := by
        have first : Grows base w w₁ := newmount_grows below
        refine ⟨⟨rfl, rfl, rfl, rfl, rfl, Nat.le_succ _⟩, rfl, fun y small => ⟨?_, (first.node y small).live, (first.node y small).elem⟩⟩
        have ne : y ≠ x := by omega
        exact (Function.update_of_ne ne _ _).trans (first.node y small).next
      have self : w₂.mounts w.made = ⟨m, (w.mounts u).chan, flg, (w.mounts u).spec⟩ := Function.update_self _ _ _
      have kept {y : Mref} (ne : y ≠ w.made) : w₂.elem y = w.elem y := by
        simp only [w₂, w₁, elem, newmount, Function.update_of_ne ne]
      have live {y : Mref} (ne : y ≠ w.made) : w₂.live y = w.live y := Function.update_of_ne ne _ _
      have chain' : Path w₂.next (some nm) (xs ++ [w.made]) := chain.append last fun here => newBelow here rfl
      have fresh' : ∀ y ∈ xs ++ [w.made], base ≤ y ∧ Owned w₂ m y := by
        intro y here
        rcases List.mem_append.mp here with left | right
        · have mine := fresh y left
          refine ⟨mine.1, ?_, ?_, Nat.lt_succ_of_lt mine.2.2.2⟩
          · rw [mounts_of_elem (kept (newBelow left))]
            exact mine.2.1
          · rw [live (newBelow left)]
            exact mine.2.2.1
        · cases List.mem_singleton.mp right
          exact ⟨below, by rw [self], Function.update_self _ _ _, Nat.lt_succ_self _⟩
      have uOld : u < base := old u List.mem_cons_self
      have rest' : Path w₂.next (w₂.next u) us := by
        rw [(grows.node u uOld).next]
        exact rest.congr fun y here => (grows.node y (old y (List.mem_cons_of_mem u here))).next
      obtain ⟨ys, path, more, own, same, done, value⟩ := ih (w := w₂) mem chain'
        (List.getLast?_concat) fresh' rest' (fun y here => old y (List.mem_cons_of_mem u here))
        (Nat.le_trans below (Nat.le_succ _)) (Nat.le_of_succ_le_succ length)
      have step : copyUnion m flg (n + 1) w (mem + 1) x (some u) = copyUnion m flg n w₂ mem w.made (w₂.next u) := rfl
      rw [step]
      rw [List.append_assoc, List.singleton_append] at path own
      refine ⟨w.made :: ys, path, grows.trans more, own, ?_, ?_, ?_⟩
      · intro y here
        rw [same y (List.mem_append_left _ here), kept (newBelow here)]
      · rw [done, List.length_cons]
        exact (Nat.succ_le_succ_iff).symm
      · intro ok
        obtain ⟨names, ref⟩ := value ok
        constructor
        · have first := same w.made (List.mem_append_right xs (List.mem_singleton.mpr rfl))
          have firstChan : ((copyUnion m flg n w₂ mem w.made (w₂.next u)).1.mounts w.made).chan = (w.mounts u).chan := by
            rw [mounts_of_elem first, self]
          have others : chans w₂ us = chans w us := chans_congr fun y here => by
            rw [(grows.node y (old y (List.mem_cons_of_mem u here))).mounts]
          exact congrArg₂ List.cons firstChan (names.trans others)
        · rw [ref, List.length_cons]
          show w.ref + 1 + us.length = _
          omega

theorem freeList_spec (shape : Shape w hs ms) (m : Href) :
    Edit ms m w (w.freeList m) ∧ (w.freeList m).next = w.next ∧ (w.freeList m).mounts = w.mounts ∧
      (w.freeList m).made = w.made ∧
      (∀ y, y ∉ ms m → (w.freeList m).live y = w.live y ∧ (w.freeList m).mountid y = w.mountid y) ∧
      (w.freeList m).mount m = none := by
  have freed := mountfree_eq (shape.list m) (shape.list_length m)
  simp only [freeList, freed]
  refine ⟨⟨⟨rfl, rfl, rfl, rfl, rfl, Nat.le_refl _⟩, fun k other => Function.update_of_ne other _ _, ?_⟩,
    trivial, trivial, trivial, fun y free => ⟨if_neg free, if_neg free⟩, Function.update_self _ _ _⟩
  intro k other y here
  have free : y ∉ ms m := fun mine => other (shape.owner here mine)
  refine ⟨rfl, if_neg free, ?_⟩
  simp only [elem, if_neg free]

theorem clear_spec (shape : Shape w hs ms) (m : Href) (order : Nat) :
    Edit ms m w (w.clear m order) ∧ (w.clear m order).next = w.next ∧ (w.clear m order).mounts = w.mounts ∧
      (w.clear m order).made = w.made ∧
      (∀ y, y ∉ ms m ∨ order ≠ mrepl → (w.clear m order).live y = w.live y ∧ (w.clear m order).mountid y = w.mountid y) ∧
      Path w.next ((w.clear m order).mount m) (if order = mrepl then [] else ms m) := by
  unfold clear
  split
  · rename_i replaced
    obtain ⟨edit, next, mounts, made, kept, none⟩ := freeList_spec shape m
    refine ⟨edit, next, mounts, made, fun y free => ?_, ?_⟩
    · exact kept y (free.resolve_right fun keeps => keeps replaced.2)
    · rw [if_pos replaced.2, none]
      rfl
  · rename_i kept
    refine ⟨.refl, rfl, rfl, rfl, fun _ _ => ⟨rfl, rfl⟩, ?_⟩
    have list := shape.list m
    split
    · rename_i repl
      cases first : w.mount m with
      | none => rfl
      | some f => exact absurd ⟨by rw [first]; rfl, repl⟩ kept
    · exact list

theorem setCreate_spec (w : Mounts) (nm : Mref) (flag : Nat) :
    (w.setCreate nm flag).next = w.next ∧ (w.setCreate nm flag).mount = w.mount ∧ (w.setCreate nm flag).live = w.live ∧
      (w.setCreate nm flag).mountid = w.mountid ∧ (w.setCreate nm flag).made = w.made ∧
      SameHeads w (w.setCreate nm flag) ∧ (∀ y, y ≠ nm → (w.setCreate nm flag).mounts y = w.mounts y) ∧
      (∀ y, ((w.setCreate nm flag).mounts y).chan = (w.mounts y).chan ∧
        ((w.setCreate nm flag).mounts y).head = (w.mounts y).head) := by
  unfold setCreate
  split
  · refine ⟨rfl, rfl, rfl, rfl, rfl, ⟨rfl, rfl, rfl, rfl, rfl, Nat.le_refl _⟩,
      fun y other => Function.update_of_ne other _ _, fun y => ?_⟩
    by_cases same : y = nm
    · subst same
      simp only [Function.update_self, and_self]
    · simp only [Function.update_of_ne same, and_self]
  · exact ⟨rfl, rfl, rfl, rfl, rfl, .refl, fun _ _ => rfl, fun _ => ⟨rfl, rfl⟩⟩

/-- The two lists are joined by the link of the last node of one of them. -/
theorem join_spec (order : Nat) (mine : Path w.next (w.mount m) old) (chain : Path w.next (some nm) xs)
    (apart : ∀ y ∈ xs, y ∉ old) (short : old.length ≤ w.made) (short' : xs.length ≤ w.made) :
    ∃ t g, w.join m nm order = { w with next := Function.update w.next t g,
                                         mount := Function.update w.mount m ((w.join m nm order).mount m) } ∧
      (t ∈ xs ∨ t ∈ old) ∧
      Path (w.join m nm order).next ((w.join m nm order).mount m) (if order = mafter then old ++ xs else xs ++ old) := by
  have lastOf := chain.last_eq short'
  have front : Path (Function.update w.next (Path.last w.next w.made nm) (w.mount m)) (some nm) (xs ++ old) := by
    have whole : Path w.next (some nm) (xs ++ []) := by rwa [List.append_nil]
    exact whole.replace lastOf mine apart
  cases first : w.mount m with
  | none =>
    rw [first] at mine front
    have nil : old = [] := mine.eq_nil
    subst nil
    simp only [join, first, List.nil_append, List.append_nil, ite_self, Function.update_self]
    exact ⟨_, _, rfl, Or.inl (List.mem_of_getLast? lastOf), by rwa [List.append_nil] at front⟩
  | some f =>
    rw [first] at mine front
    by_cases after : order = mafter
    · have oldLast := mine.last_eq short
      have whole : Path w.next (some f) (old ++ []) := by rwa [List.append_nil]
      have back : Path (Function.update w.next (Path.last w.next w.made f) (some nm)) (some f) (old ++ xs) :=
        whole.replace oldLast chain fun y here there => apart y there here
      simp only [join, first, after, decide_true, if_true]
      have kept : Function.update w.mount m (some f) = w.mount := by rw [← first, Function.update_eq_self]
      exact ⟨Path.last w.next w.made f, some nm, by rw [kept], Or.inr (List.mem_of_getLast? oldLast), back⟩
    · simp only [join, first, after, decide_false, if_false, Function.update_self]
      exact ⟨_, _, rfl, Or.inl (List.mem_of_getLast? lastOf), front⟩

/-- The list from `nm` is put on `m`. -/
theorem link_spec (order flag : Nat) (shape : Shape w hs ms) (chain : Path w.next (some nm) xs) (owned : ∀ y ∈ xs, Owned w m y)
    (free : ∀ k, ∀ y ∈ xs, y ∉ ms k) (alive : m < w.heads) :
    let w' := ((w.clear m order).setCreate nm flag).join m nm order
    Edit ms m w w' ∧ Shape w' hs (Function.update ms m (ordered order xs (ms m))) ∧
      (∀ y, (w'.mounts y).chan = (w.mounts y).chan) ∧ (∀ y ∈ xs, w'.mountid y = w.mountid y) ∧
      w'.made = w.made := by
  intro w'
  obtain ⟨edit, next, mounts, made, kept, path⟩ := clear_spec shape m order
  obtain ⟨next', mount', live', mountid', made', same', other', chan'⟩ := setCreate_spec (w.clear m order) nm flag
  have nmMem : nm ∈ xs := by
    obtain ⟨rest, cons, _⟩ := chain.eq_cons
    exact cons ▸ List.mem_cons_self
  have mine : Path ((w.clear m order).setCreate nm flag).next (((w.clear m order).setCreate nm flag).mount m)
      (if order = mrepl then [] else ms m) := by
    rw [next', next, mount']
    exact path
  have apart : ∀ y ∈ xs, y ∉ (if order = mrepl then [] else ms m) := by
    intro y here
    split
    · exact List.not_mem_nil
    · exact free m y here
  have short : (if order = mrepl then [] else ms m).length ≤ ((w.clear m order).setCreate nm flag).made := by
    rw [made', made]
    split
    · exact Nat.zero_le _
    · exact shape.list_length m
  have short' : xs.length ≤ ((w.clear m order).setCreate nm flag).made := by
    rw [made', made]
    exact length_le_of_nodup chain.nodup fun y here => (owned y here).2.2
  obtain ⟨t, g, joined, linked, list⟩ := join_spec order mine (by rw [next', next]; exact chain) apart short
    short'
  have fields : w'.mounts = ((w.clear m order).setCreate nm flag).mounts ∧ w'.live = (w.clear m order).live ∧
      w'.mountid = (w.clear m order).mountid ∧ w'.made = w.made := by
    simp only [w']
    rw [joined]
    exact ⟨rfl, live', mountid', made'.trans made⟩
  have chan (y : Mref) : (w'.mounts y).chan = (w.mounts y).chan := by
    rw [fields.1, (chan' y).1, mounts]
  have edit' : Edit ms m w w' := by
    have heads : SameHeads ((w.clear m order).setCreate nm flag) w' := by
      simp only [w']
      rw [joined]
      exact ⟨rfl, rfl, rfl, rfl, rfl, Nat.le_refl _⟩
    refine ⟨(edit.toSameHeads.trans same').trans heads, ?_, ?_⟩
    · intro k ne
      simp only [w']
      rw [joined, ← edit.mount k ne, ← mount']
      exact Function.update_of_ne ne _ _
    · intro k ne y here
      have old := edit.node k ne y here
      have notNew : y ≠ nm := fun same => free k nm nmMem (same ▸ here)
      have notLink : y ≠ t := by
        rintro rfl
        rcases linked with new | link
        · exact free k y new here
        · split at link
          · nomatch link
          · exact ne (shape.owner here link)
      refine ⟨?_, by rw [fields.2.1]; exact old.live, ?_⟩
      · simp only [w']
        rw [joined, ← old.next, ← next']
        exact Function.update_of_ne notLink _ _
      · simp only [elem, fields.1, other' y notNew, old.mounts, fields.2.2.1, old.mountid]
  refine ⟨edit', ?_, chan, ?_, fields.2.2.2⟩
  · refine shape.relist edit' alive ?_ ?_
    · have same : (if order = mafter then (if order = mrepl then [] else ms m) ++ xs
          else xs ++ if order = mrepl then [] else ms m) = ordered order xs (ms m) := by
        unfold ordered
        split_ifs <;> simp only [List.nil_append, List.append_nil]
      rw [← same]
      exact list
    · intro y here
      have old : Owned w m y ∧ (y ∉ ms m ∨ order ≠ mrepl) := by
        rcases mem_ordered here with new | ⟨member, keeps⟩
        · exact ⟨owned y new, Or.inl (free m y new)⟩
        · exact ⟨shape.owned member, Or.inr keeps⟩
      obtain ⟨⟨head, live, bound⟩, unfreed⟩ := old
      refine ⟨?_, ?_, by rw [fields.2.2.2]; exact bound⟩
      · rw [fields.1, (chan' y).2, mounts]
        exact head
      · rw [fields.2.1, (kept y unfreed).1]
        exact live
  · intro y here
    rw [fields.2.2.1]
    exact (kept y (Or.inl (free m y here))).2

end Mounts

end Inferno.Ns
