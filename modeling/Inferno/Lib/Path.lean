import Mathlib

namespace Inferno.Lib

variable {α : Type} {next next' : α → Option α} {h : Option α} {x y t : α} {xs ys u v : List α}

/-- The list from `h` along `next`, which ends in nil. -/
def Path (next : α → Option α) : Option α → List α → Prop
  | h, [] => h = none
  | h, x :: xs => h = some x ∧ Path next (next x) xs

namespace Path

@[simp] theorem nil_iff : Path next h [] ↔ h = none := Iff.rfl

@[simp] theorem cons_iff : Path next h (x :: xs) ↔ h = some x ∧ Path next (next x) xs := Iff.rfl

theorem congr (path : Path next h xs) (same : ∀ x ∈ xs, next' x = next x) : Path next' h xs := by
  induction xs generalizing h with
  | nil => exact path
  | cons x xs ih =>
    refine ⟨path.1, ?_⟩
    rw [same x List.mem_cons_self]
    exact ih path.2 fun y here => same y (List.mem_cons_of_mem x here)

/-- There is one list from `h`. -/
theorem unique (path : Path next h xs) (other : Path next h ys) : xs = ys := by
  induction xs generalizing h ys with
  | nil =>
    cases ys with
    | nil => rfl
    | cons y ys => nomatch path.symm.trans other.1
  | cons x xs ih =>
    cases ys with
    | nil => nomatch path.1.symm.trans other
    | cons y ys =>
      cases Option.some.inj (path.1.symm.trans other.1)
      rw [ih path.2 other.2]

theorem drop (path : Path next h (u ++ x :: v)) : Path next (some x) (x :: v) := by
  induction u generalizing h with
  | nil => exact ⟨rfl, path.2⟩
  | cons y u ih => exact ih path.2

/-- A list that ends does not come back to a node. -/
theorem nodup (path : Path next h xs) : xs.Nodup := by
  induction xs generalizing h with
  | nil => exact List.nodup_nil
  | cons x xs ih =>
    refine List.nodup_cons.mpr ⟨fun again => ?_, ih path.2⟩
    obtain ⟨u, v, split⟩ := List.append_of_mem again
    have rest := path.2
    rw [split] at rest
    have whole : Path next (some x) (x :: xs) := ⟨rfl, path.2⟩
    have same := rest.drop.unique whole
    have length := congrArg List.length same
    rw [split] at length
    simp at length
    omega

theorem head (path : Path next h xs) : xs.head? = h := by
  cases xs with
  | nil => exact path.symm
  | cons x xs => exact path.1.symm

theorem eq_nil (path : Path next none xs) : xs = [] := by
  cases xs with
  | nil => rfl
  | cons x xs => nomatch path.1

theorem eq_cons (path : Path next (some x) xs) : ∃ rest, xs = x :: rest ∧ Path next (next x) rest := by
  cases xs with
  | nil => nomatch path
  | cons y rest =>
    cases path.1
    exact ⟨rest, rfl, path.2⟩

/-- The nodes from `h` along `next`, `n` of them at most. -/
def follow (next : α → Option α) : Nat → Option α → List α
  | 0, _ => []
  | _ + 1, none => []
  | n + 1, some x => x :: follow next n (next x)

theorem follow_eq {n : Nat} (path : Path next h xs) (length : xs.length ≤ n) : follow next n h = xs := by
  induction xs generalizing h n with
  | nil =>
    cases path
    cases n <;> rfl
  | cons x xs ih =>
    obtain ⟨rfl, rest⟩ := path
    cases n with
    | zero => nomatch length
    | succ n => exact congrArg (x :: ·) (ih rest (Nat.le_of_succ_le_succ length))

/-- The node from `x` on whose link is nil, where there are `n` links at most. -/
def last (next : α → Option α) : Nat → α → α
  | 0, x => x
  | n + 1, x =>
    match next x with
    | none => x
    | some y => last next n y

theorem last_eq {n : Nat} (path : Path next (some x) xs) (length : xs.length ≤ n) : xs.getLast? = some (last next n x) := by
  induction n generalizing x xs with
  | zero =>
    rw [List.eq_nil_of_length_eq_zero (Nat.le_zero.mp length)] at path
    nomatch path
  | succ n ih =>
    obtain ⟨rest, rfl, tail⟩ := path.eq_cons
    unfold last
    cases link : next x with
    | none =>
      rw [link] at tail
      rw [tail.eq_nil]
      rfl
    | some y =>
      rw [link] at tail
      have below := ih tail (Nat.le_of_succ_le_succ length)
      obtain ⟨more, rfl, _⟩ := tail.eq_cons
      rw [List.getLast?_cons_cons]
      exact below

/-- The search that keeps the link it followed, where `none` is the head of the
list, with the first node that passes. -/
def search (next : α → Option α) (test : α → Bool) : Nat → Option α → Option α → Option α × Option α
  | 0, l, _ => (l, none)
  | _ + 1, l, none => (l, none)
  | n + 1, l, some x => if test x then (l, some x) else search next test n (some x) (next x)

theorem getLast?_cons_or {l : Option α} : (x :: xs).getLast?.or l = xs.getLast?.or (some x) := by
  cases xs with
  | nil => rfl
  | cons y ys =>
    rw [List.getLast?_cons_cons]
    cases last : (y :: ys).getLast? with
    | none => nomatch List.getLast?_eq_none_iff.mp last
    | some t => rfl

theorem search_found {test : α → Bool} {n : Nat} {l : Option α} (path : Path next h (u ++ x :: v))
    (before : ∀ y ∈ u, test y = false) (passes : test x = true) (length : u.length < n) :
    search next test n l h = (u.getLast?.or l, some x) := by
  induction u generalizing h l n with
  | nil =>
    obtain ⟨rfl, _⟩ := path
    obtain ⟨n, rfl⟩ := Nat.exists_eq_succ_of_ne_zero (Nat.ne_of_gt length)
    simp only [search, passes, if_true, List.getLast?_nil, Option.none_or]
  | cons y u ih =>
    obtain ⟨rfl, rest⟩ := path
    obtain ⟨n, rfl⟩ := Nat.exists_eq_succ_of_ne_zero (Nat.ne_of_gt (Nat.zero_lt_of_lt length))
    simp only [search, before y List.mem_cons_self, Bool.false_eq_true, if_false]
    rw [ih rest (fun z here => before z (List.mem_cons_of_mem y here)) (Nat.lt_of_succ_lt_succ length),
      getLast?_cons_or]

theorem search_none {test : α → Bool} {n : Nat} {l : Option α} (path : Path next h xs)
    (fails : ∀ y ∈ xs, test y = false) (length : xs.length ≤ n) :
    search next test n l h = (xs.getLast?.or l, none) := by
  induction xs generalizing h l n with
  | nil =>
    cases path
    cases n <;> rfl
  | cons y xs ih =>
    obtain ⟨rfl, rest⟩ := path
    obtain ⟨n, rfl⟩ := Nat.exists_eq_succ_of_ne_zero (Nat.ne_of_gt (Nat.zero_lt_of_lt length))
    simp only [search, fails y List.mem_cons_self, Bool.false_eq_true, if_false]
    rw [ih rest (fun z here => fails z (List.mem_cons_of_mem y here)) (Nat.le_of_succ_le_succ length),
      getLast?_cons_or]

/-- The search stops at the first node that passes, or at the end. -/
theorem search_cases {n : Nat} (path : Path next h xs) (test : α → Bool) (length : xs.length ≤ n) :
    (∃ u x v, xs = u ++ x :: v ∧ (∀ y ∈ u, test y = false) ∧ test x = true ∧
      search next test n none h = (u.getLast?, some x)) ∨
    ((∀ y ∈ xs, test y = false) ∧ search next test n none h = (xs.getLast?, none)) := by
  cases found : xs.find? test with
  | none =>
    have fails : ∀ y ∈ xs, test y = false := fun y here =>
      Bool.eq_false_iff.mpr (List.find?_eq_none.mp found y here)
    refine Or.inr ⟨fails, ?_⟩
    rw [path.search_none fails length, Option.or_none]
  | some x =>
    obtain ⟨passes, u, v, rfl, before⟩ := List.find?_eq_some_iff_append.mp found
    have fails : ∀ y ∈ u, test y = false := fun y here => Bool.not_eq_true' _ ▸ before y here
    refine Or.inl ⟨u, x, v, rfl, fails, passes, ?_⟩
    rw [List.length_append, List.length_cons] at length
    rw [path.search_found fails passes (by omega), Option.or_none]

section update

variable [DecidableEq α]

/-- The links and the head after `*l = v`, where `none` is the head of the list. -/
def setLink (next : α → Option α) (h l v : Option α) : (α → Option α) × Option α :=
  match l with
  | none => (next, v)
  | some t => (Function.update next t v, h)

/-- The list after the link `l` is replaced. -/
theorem replace {l g : Option α} (path : Path next h (u ++ v)) (before : u.getLast? = l) (other : Path next g ys)
    (apart : ∀ x ∈ u, x ∉ ys) : Path (setLink next h l g).1 (setLink next h l g).2 (u ++ ys) := by
  cases l with
  | none =>
    rw [List.getLast?_eq_none_iff.mp before]
    exact other
  | some t =>
    obtain ⟨w, rfl⟩ := List.getLast?_eq_some_iff.mp before
    clear before
    show Path (Function.update next t g) h _
    have kept : Path (Function.update next t g) g ys := other.congr fun y here =>
      Function.update_of_ne (fun same : y = t => apart t (List.mem_append_right _ List.mem_cons_self) (same ▸ here)) _ _
    induction w generalizing h with
    | nil =>
      refine ⟨path.1, ?_⟩
      rw [Function.update_self]
      exact kept
    | cons x w ih =>
      obtain ⟨notx, _⟩ := List.nodup_cons.mp path.nodup
      have ne : x ≠ t := fun same => notx
        (List.mem_append_left _ (List.mem_append_right _ (List.mem_singleton.mpr same)))
      refine ⟨path.1, ?_⟩
      rw [Function.update_of_ne ne]
      exact ih path.2 fun y here => apart y (List.mem_cons_of_mem x here)

theorem update (path : Path next h xs) (fresh : x ∉ xs) (o : Option α) : Path (Function.update next x o) h xs :=
  path.congr fun y here => Function.update_of_ne (fun same : y = x => fresh (same ▸ here)) _ _

/-- `x->next = h; h = x`. -/
theorem push (path : Path next h xs) (fresh : x ∉ xs) : Path (Function.update next x h) (some x) (x :: xs) := by
  refine ⟨rfl, ?_⟩
  rw [Function.update_self]
  exact path.update fresh h

/-- `y->next = nil; t->next = y`, where `t` is the last node. -/
theorem append (path : Path next h xs) (last : xs.getLast? = some t) (fresh : y ∉ xs) :
    Path (Function.update (Function.update next y none) t (some y)) h (xs ++ [y]) := by
  induction xs generalizing h with
  | nil => nomatch last
  | cons x xs ih =>
    have nodup := path.nodup
    obtain ⟨notx, _⟩ := List.nodup_cons.mp nodup
    obtain ⟨ne, fresh'⟩ := not_or.mp (fun here => fresh (List.mem_cons.mpr here))
    refine ⟨path.1, ?_⟩
    cases xs with
    | nil =>
      have same : x = t := Option.some.inj last
      subst same
      rw [Function.update_self]
      exact ⟨rfl, by rw [Function.update_of_ne ne, Function.update_self]; rfl⟩
    | cons z zs =>
      rw [List.getLast?_cons_cons] at last
      have other : x ≠ t := fun same => notx (same ▸ List.mem_of_getLast? last)
      have kept : Function.update (Function.update next y none) t (some y) x = next x := by
        rw [Function.update_of_ne other, Function.update_of_ne fun same => ne same.symm]
      rw [kept]
      exact ih path.2 last fresh'

/-- `t->next = x->next`, where `t` is the node before `x`. -/
theorem unlink (path : Path next h (u ++ x :: v)) (before : u.getLast? = some t) :
    Path (Function.update next t (next x)) h (u ++ v) := by
  induction u generalizing h with
  | nil => nomatch before
  | cons y u ih =>
    obtain ⟨noty, _⟩ := List.nodup_cons.mp path.nodup
    refine ⟨path.1, ?_⟩
    cases u with
    | nil =>
      have same : y = t := Option.some.inj before
      subst same
      rw [Function.update_self]
      exact path.2.2.update (fun here => noty (List.mem_append_right _ (List.mem_cons_of_mem x here))) _
    | cons z zs =>
      rw [List.getLast?_cons_cons] at before
      have other : y ≠ t := fun same => noty (List.mem_append_left _ (same ▸ List.mem_of_getLast? before))
      rw [Function.update_of_ne other]
      exact ih path.2 before

/-- The link to `x`, which is that of the node `b` before it or `h`, is set to the link of `x`. -/
theorem remove {b : Option α} (path : Path next h (u ++ x :: v)) (before : u.getLast? = b) :
    Path (Function.update (b.elim next fun t => Function.update next t (next x)) x none) (b.elim (next x) fun _ => h)
      (u ++ v) := by
  have nodup := path.nodup
  have fresh : x ∉ u ++ v := by
    rw [List.nodup_append] at nodup
    obtain ⟨_, rest, apart⟩ := nodup
    intro here
    rcases List.mem_append.mp here with left | right
    · exact apart x left x List.mem_cons_self rfl
    · exact (List.nodup_cons.mp rest).1 right
  cases b with
  | none =>
    have nil : u = [] := List.getLast?_eq_none_iff.mp before
    subst nil
    exact path.2.update fresh none
  | some t => exact (path.unlink before).update fresh none

end update

end Path

/-- A list that can be followed both ways. -/
structure DList (next prev : α → Option α) (head tail : Option α) (xs : List α) : Prop where
  fwd : Path next head xs
  bwd : Path prev tail xs.reverse

namespace DList

variable {prev prev' : α → Option α} {head tail : Option α}

theorem congr (list : DList next prev head tail xs) (same : ∀ x ∈ xs, next' x = next x ∧ prev' x = prev x) :
    DList next' prev' head tail xs :=
  ⟨list.fwd.congr fun x here => (same x here).1, list.bwd.congr fun x here => (same x (List.mem_reverse.mp here)).2⟩

theorem tail_eq (list : DList next prev head tail xs) : xs.getLast? = tail := by
  rw [← list.bwd.head, List.head?_reverse]

/-- The neighbours of a node are what its links say. -/
theorem around (list : DList next prev head tail (u ++ x :: v)) : u.getLast? = prev x ∧ v.head? = next x := by
  constructor
  · have back := list.bwd
    rw [List.reverse_append, List.reverse_cons, List.append_assoc, List.singleton_append] at back
    rw [← List.head?_reverse]
    exact back.drop.2.head
  · exact list.fwd.drop.2.head

variable [DecidableEq α]

/-- A node is taken off the list. -/
theorem remove (list : DList next prev head tail (u ++ x :: v)) :
    DList (Function.update ((prev x).elim next fun t => Function.update next t (next x)) x none)
      (Function.update ((next x).elim prev fun t => Function.update prev t (prev x)) x none)
      ((prev x).elim (next x) fun _ => head) ((next x).elim (prev x) fun _ => tail) (u ++ v) := by
  obtain ⟨before, after⟩ := list.around
  refine ⟨list.fwd.remove before, ?_⟩
  have back := list.bwd
  rw [List.reverse_append, List.reverse_cons, List.append_assoc, List.singleton_append] at back
  rw [List.reverse_append]
  refine back.remove ?_
  rw [List.getLast?_reverse]
  exact after

/-- A node is put behind the last, `t`. -/
theorem append (list : DList next prev head (some t) xs) (fresh : y ∉ xs) :
    DList (Function.update (Function.update next y none) t (some y)) (Function.update prev y (some t)) head (some y)
      (xs ++ [y]) := by
  refine ⟨list.fwd.append list.tail_eq fresh, ?_⟩
  rw [List.reverse_append]
  exact list.bwd.push fun here => fresh (List.mem_reverse.mp here)

end DList

end Inferno.Lib
