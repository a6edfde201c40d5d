import Inferno.Icurses.ViewRun

namespace Inferno.Icurses.Tree

open Lib

/-- The window that `setfocus` brings to the front: the first one on the way up. -/
def window (t : Tree) : Nat → Option Node → Option Int64
  | _, none => none
  | 0, some _ => none
  | fuel + 1, some n => if n.kind = "window" then some n.id else t.window fuel (t.find n.parentid)

def windowOf (t : Tree) (i : Int64) : Option Int64 :=
  (t.find i).bind fun n => t.window (t.nodes.length + 1) (t.find n.parentid)

/-- The children behind `w`. -/
def later (l : List Int64) (w : Int64) : List Int64 := (l.dropWhile (· ≠ w)).tail

/-- `x` can have the focus. -/
def Able (t : Tree) (x : Int64) : Prop := t.focusableok (t.find x) = true

/-- Bringing the window of `j` to the front keeps the focus order of the tree as a ring: no node that can have the
focus is behind the window among its siblings, or all of them are in it or behind it. -/
def Clear (t : Tree) (j : Int64) : Prop :=
  ∀ w m p, t.windowOf j = some w → t.find w = some m → t.find m.parentid = some p →
    (∀ x, t.Able x → ¬∃ c ∈ later p.children w, Above t.par x c) ∨
    ∀ x, t.Able x → Above t.par x w ∨ ∃ c ∈ later p.children w, Above t.par x c

/-- `n` calls, with the nodes that get the focus. -/
def tour (turn : Tree → Option (Tree × Int64)) : Nat → Tree → Option (Tree × List Int64)
  | 0, t => some (t, [])
  | k + 1, t => do
    let (t, id) ← turn t
    let (t, ids) ← tour turn k t
    some (t, id :: ids)

/-- As many calls as there are nodes visit each of them once, and the one that had the focus last. -/
def Tours (turn : Tree → Option (Tree × Int64)) (t : Tree) : Prop :=
  ∃ l t' ids, t.focuslist = some l ∧ tour turn l.length t = some (t', ids) ∧ ids.Nodup ∧ ids.Perm l ∧
    ids.getLast? = some t.focusid

/-- `prevfocus` takes `nextfocus` back. -/
def Back (t : Tree) : Prop := ∃ t' j t'', t.nextfocus = some (t', j) ∧ t'.prevfocus = some (t'', t.focusid)

/-- `j` is behind the focused node in the focus order, which is a ring; `way` gives it a direction. -/
def Follows (way : List Int64 → List Int64) (t : Tree) (j : Int64) : Prop :=
  ∃ l rest, t.focuslist = some l ∧ way l ~r t.focusid :: rest ∧ (rest ++ [t.focusid]).head? = some j

/-- At each of `n` steps the next node is clear. -/
def AllClear (turn : Tree → Option (Tree × Int64)) (way : List Int64 → List Int64) : Nat → Tree → Prop
  | 0, _ => True
  | k + 1, t => (∀ j, t.Follows way j → t.Clear j) ∧ ∀ t' j, turn t = some (t', j) → AllClear turn way k t'

/-- The focus order of the nodes below `i`. -/
def order (t : Tree) : Nat → Int64 → List Int64
  | 0, _ => []
  | fuel + 1, i => match t.find i with
    | none => []
    | some n => (if t.focusableok (some n) then [n.id] else []) ++ n.children.flatMap (t.order fuel)

variable {t t' : Tree} {i j w id r : Int64} {n m p : Node} {k fuel : Nat}

theorem order_some (found : t.find i = some n) :
    t.order (fuel + 1) i = (if t.focusableok (some n) then [i] else []) ++ n.children.flatMap (t.order fuel) := by
  simp only [order, found, (find_some found).2.1]

theorem collectfocus_order (inv : t.Inv) (fuel : Nat) : ∀ {i : Int64} {n : Node} {k : Nat} {l : List Int64},
    t.find i = some n → Depth t.par i k → t.nodes.length ≤ fuel + k →
      t.collectfocus fuel i l = some (l ++ t.order fuel i) := by
  induction fuel with
  | zero =>
    intro i n k l found depth enough
    have less := inv.depth_lt depth found
    omega
  | succ fuel ih =>
    intro i n k l found depth enough
    obtain ⟨-, same, low⟩ := find_some found
    rw [order_some found]
    unfold collectfocus
    rw [found]
    suffices run : ∃ l', n.children.foldlM (fun a cid => match t.find cid with
        | none => some a
        | some c => t.collectfocus fuel c.id a) (if t.focusableok (some n) then appendchild l n.id else l) = some l' ∧
        l' = l ++ ((if t.focusableok (some n) then [i] else []) ++ n.children.flatMap (t.order fuel)) by
      obtain ⟨l', ran, rfl⟩ := run
      exact ran
    refine foldlM_spec (fun done l' => l' = l ++ ((if t.focusableok (some n) then [i] else []) ++
      done.flatMap (t.order fuel))) ?_ fun done c rest l' whole here => ?_
    · rw [List.flatMap_nil, List.append_nil]
      split
      · unfold appendchild
        rw [same, if_neg (Int64.not_lt.mpr low)]
      · rw [List.append_nil]
    · have link : t.par c = some i := (inv.par_child found).mp (by rw [whole]; simp)
      obtain ⟨m, child, -⟩ := par_some.mp link
      rw [child]
      dsimp only
      rw [(find_some child).2.1, ih child (.down link depth) (by omega)]
      refine ⟨_, rfl, ?_⟩
      rw [here, List.flatMap_append, List.flatMap_singleton]
      simp only [List.append_assoc]

theorem focuslist_order (inv : t.Inv) : t.focuslist = some (t.order (t.nodes.length + 1) t.rootid) := by
  obtain ⟨r, root, -⟩ := inv.root
  obtain ⟨k, depth⟩ := inv.depth _ r root
  rw [focuslist, collectfocus_order inv _ root depth (by omega), List.nil_append]

theorem mem_order (inv : t.Inv) (found : t.find i = some n) (depth : Depth t.par i k)
    (enough : t.nodes.length ≤ fuel + k) : j ∈ t.order fuel i ↔ Above t.par j i ∧ t.Able j := by
  obtain ⟨l, ran, members⟩ := collectfocus_spec inv fuel (l := []) found depth enough
  rw [collectfocus_order inv fuel found depth enough, List.nil_append] at ran
  cases ran
  rw [members, or_iff_right List.not_mem_nil]
  rfl

theorem order_nodup (inv : t.Inv) (fuel : Nat) : ∀ {i : Int64} {n : Node} {k : Nat}, t.find i = some n →
    Depth t.par i k → t.nodes.length ≤ fuel + k → (t.order fuel i).Nodup := by
  induction fuel with
  | zero => exact fun _ _ _ => List.nodup_nil
  | succ fuel ih =>
    intro i n k found depth enough
    have child {c : Int64} (member : c ∈ n.children) : t.par c = some i ∧ ∃ m, t.find c = some m := by
      have link := (inv.par_child found).mp member
      obtain ⟨m, child, -⟩ := par_some.mp link
      exact ⟨link, m, child⟩
    have mem {c x : Int64} (member : c ∈ n.children) (there : x ∈ t.order fuel c) : Above t.par x c := by
      obtain ⟨link, m, found⟩ := child member
      exact ((mem_order inv found (.down link depth) (by omega)).mp there).1
    rw [order_some found, List.nodup_append]
    refine ⟨by split <;> simp, List.nodup_flatMap.mpr ⟨fun c member => ?_, ?_⟩, fun x here y there => ?_⟩
    · obtain ⟨link, m, found⟩ := child member
      exact ih found (.down link depth) (by omega)
    · refine (inv.kids i n found).1.imp_of_mem fun {c d} first second apart x here there => ?_
      exact apart (Above.siblings depth (child first).1 (child second).1 (mem first here) (mem second there))
    · obtain ⟨c, member, there⟩ := List.mem_flatMap.mp there
      have self : x = i := by
        split at here
        · exact List.mem_singleton.mp here
        · nomatch here
      rintro rfl
      rw [self] at there
      obtain ⟨k', le, -, -⟩ := (Depth.down (child member).1 depth).above (.parent (child member).1)
      obtain ⟨k'', le', found', -⟩ := depth.above (mem member there)
      have := found'.unique (.down (child member).1 depth)
      omega

/-- A node without its children and its mark. -/
def bare (n : Node) : Node := { n with children := [], dirty := 0 }

/-- `t'` is `t` with other children of `p`, and maybe other marks. -/
structure Reordered (t t' : Tree) (p : Int64) (kids : List Int64) : Prop where
  rootid : t'.rootid = t.rootid
  length : t'.nodes.length = t.nodes.length
  core : ∀ i, (t'.find i).map bare = (t.find i).map bare
  kids : ∀ i n, t'.find i = some n →
    if i = p then n.children = kids else ∃ m, t.find i = some m ∧ n.children = m.children

theorem flagTree_core {flag : Node → Int64} (marks : ∀ n, flag (bare n) = flag n)
    (same : ∀ i, (t'.find i).map bare = (t.find i).map bare) :
    ∀ (guard : Nat) (a b : Option Node), a.map bare = b.map bare →
      t'.flagTree flag guard a = t.flagTree flag guard b := by
  intro guard
  induction guard with
  | zero =>
    rintro (_ | a) (_ | b) eq
    · rfl
    · nomatch eq
    · nomatch eq
    · rfl
  | succ guard ih =>
    rintro (_ | a) (_ | b) eq
    · rfl
    · nomatch eq
    · nomatch eq
    · have one : bare a = bare b := Option.some.inj eq
      have flags : flag a = flag b := by rw [← marks a, one, marks b]
      have parent : a.parentid = b.parentid := congrArg (·.parentid) one
      unfold flagTree
      rw [flags, parent, ih _ _ (same b.parentid)]

theorem Reordered.able {kids : List Int64} {q : Int64} (re : Reordered t t' q kids) (i : Int64) :
    t'.focusableok (t'.find i) = t.focusableok (t.find i) := by
  have one := re.core i
  cases there : t'.find i with
  | none =>
    cases here : t.find i with
    | none => rfl
    | some n =>
      rw [there, here] at one
      nomatch one
  | some n =>
    cases here : t.find i with
    | none =>
      rw [there, here] at one
      nomatch one
    | some m =>
      rw [there, here] at one
      have same : bare n = bare m := Option.some.inj one
      have id : n.id = m.id := congrArg (·.id) same
      have focusable : n.focusable = m.focusable := congrArg (·.focusable) same
      have visible := @flagTree_core t t' Node.visible (fun _ => rfl) re.core (t.nodes.length + 1) _ _ (re.core m.id)
      have enabled := @flagTree_core t t' Node.enabled (fun _ => rfl) re.core (t.nodes.length + 1) _ _ (re.core m.id)
      simp only [focusableok, focusable, id, isvisibletree, isenabledtree, re.length, visible, enabled]

/-- Away from the way up from `q` nothing changes. -/
theorem Reordered.off {kids : List Int64} {q : Int64} (re : Reordered t t' q kids) (inv : t.Inv) (fuel : Nat) :
    ∀ {i : Int64}, ¬Above t.par q i → t'.order fuel i = t.order fuel i := by
  induction fuel with
  | zero => exact fun _ => rfl
  | succ fuel ih =>
    intro i off
    have other : i ≠ q := fun same => off (same ▸ .refl _)
    have one := re.core i
    cases there : t'.find i with
    | none =>
      cases here : t.find i with
      | none => simp only [order, there, here]
      | some n =>
        rw [there, here] at one
        nomatch one
    | some n =>
      have children := re.kids i n there
      rw [if_neg other] at children
      obtain ⟨m, here, children⟩ := children
      rw [order_some there, order_some here, ← there, ← here, re.able, children]
      refine congrArg _ (List.flatMap_congr fun c member => ih fun above => off ?_)
      exact above.trans (.parent ((inv.par_child here).mp member))

/-- The block of the window moves behind the block of its later siblings. -/
theorem Reordered.blocks {a b : List Int64} {q : Int64} {h : Node} (re : Reordered t t' q (a ++ b ++ [w])) (inv : t.Inv)
    (parent : t.find q = some h) (children : h.children = a ++ w :: b) (fuel : Nat) :
    ∀ {i : Int64} {n : Node} {k : Nat}, t.find i = some n → Depth t.par i k → t.nodes.length ≤ fuel + k →
      Above t.par q i → ∃ P W L S, t.order fuel i = P ++ (W ++ L) ++ S ∧ t'.order fuel i = P ++ (L ++ W) ++ S ∧
        (∀ x, x ∈ W ↔ Above t.par x w ∧ t.Able x) ∧ ∀ x, x ∈ L ↔ (∃ c ∈ b, Above t.par x c) ∧ t.Able x := by
  induction fuel with
  | zero =>
    intro i n k found depth enough
    have less := inv.depth_lt depth found
    omega
  | succ fuel ih =>
    intro i n k found depth enough above
    have one := re.core i
    obtain ⟨n', found', -⟩ : ∃ n', t'.find i = some n' ∧ True := by
      cases there : t'.find i with
      | some n' => exact ⟨n', rfl, trivial⟩
      | none =>
        rw [there, found] at one
        nomatch one
    have child {c : Int64} (member : c ∈ n.children) : t.par c = some i ∧ ∃ m, t.find c = some m := by
      have link := (inv.par_child found).mp member
      obtain ⟨m, child, -⟩ := par_some.mp link
      exact ⟨link, m, child⟩
    have mem {c x : Int64} (member : c ∈ n.children) : x ∈ t.order fuel c ↔ Above t.par x c ∧ t.Able x := by
      obtain ⟨link, m, found⟩ := child member
      exact mem_order inv found (.down link depth) (by omega)
    have kids := re.kids i n' found'
    rw [order_some found, order_some found', ← found', ← found, re.able]
    by_cases here : i = q
    · subst here
      rw [if_pos rfl] at kids
      cases found.symm.trans parent
      have same {c : Int64} (member : c ∈ h.children) : t'.order fuel c = t.order fuel c := by
        refine re.off inv fuel fun up => ?_
        have less := depth.above up
        obtain ⟨k', le, found, -⟩ := less
        have := found.unique (.down (child member).1 depth)
        omega
      have part {l : List Int64} (sub : l ⊆ h.children) : l.flatMap (t'.order fuel) = l.flatMap (t.order fuel) :=
        List.flatMap_congr fun c member => same (sub member)
      rw [kids, children, part (by rw [children]; intro c member; simp at member ⊢; tauto)]
      refine ⟨(if t.focusableok (t.find i) then [i] else []) ++ a.flatMap (t.order fuel), t.order fuel w,
        b.flatMap (t.order fuel), [], ?_, ?_, fun x => mem (by rw [children]; simp), fun x => ?_⟩
      · simp only [List.flatMap_append, List.flatMap_cons, List.append_assoc, List.append_nil]
      · simp only [List.flatMap_append, List.flatMap_cons, List.flatMap_nil, List.append_assoc, List.append_nil]
      · rw [List.mem_flatMap]
        constructor
        · rintro ⟨c, member, there⟩
          have both := (mem (by rw [children]; simp [member])).mp there
          exact ⟨⟨c, member, both.1⟩, both.2⟩
        · rintro ⟨⟨c, member, below⟩, able⟩
          exact ⟨c, member, (mem (by rw [children]; simp [member])).mpr ⟨below, able⟩⟩
    · rw [if_neg here] at kids
      obtain ⟨m, again, kids⟩ := kids
      cases found.symm.trans again
      obtain ⟨c, link, low⟩ : ∃ c, t.par c = some i ∧ Above t.par q c := by
        rcases Above.iff_child.mp above with eq | down
        · exact absurd eq.symm here
        · exact down
      have member := (inv.par_child found).mpr link
      obtain ⟨u, v, split⟩ := List.append_of_mem member
      obtain ⟨m', there⟩ := (child member).2
      obtain ⟨P, W, L, S, old, new, block, rest⟩ := ih there (.down link depth) (by omega) low
      have nodup := (inv.kids i n found).1
      rw [split] at nodup
      have apart : ∀ d ∈ u ++ v, d ≠ c := by
        intro d there eq
        have := List.nodup_middle.mp nodup
        exact (List.nodup_cons.mp this).1 (eq ▸ there)
      have same {d : Int64} (there : d ∈ u ++ v) : t'.order fuel d = t.order fuel d := by
        refine re.off inv fuel fun up => apart d there ?_
        have inside : d ∈ n.children := by
          rw [split]
          simp only [List.mem_append, List.mem_cons] at there ⊢
          tauto
        exact Above.siblings depth (child inside).1 link up low
      have left : u.flatMap (t'.order fuel) = u.flatMap (t.order fuel) :=
        List.flatMap_congr fun d there => same (List.mem_append_left v there)
      have right : v.flatMap (t'.order fuel) = v.flatMap (t.order fuel) :=
        List.flatMap_congr fun d there => same (List.mem_append_right u there)
      refine ⟨(if t.focusableok (t.find i) then [i] else []) ++ u.flatMap (t.order fuel) ++ P, W, L,
        S ++ v.flatMap (t.order fuel), ?_, ?_, block, rest⟩
      · rw [split]
        simp only [List.flatMap_append, List.flatMap_cons, List.append_assoc, old]
      · rw [kids, split]
        simp only [List.flatMap_append, List.flatMap_cons, List.append_assoc, new, left, right]

theorem window_nodes (same : t'.nodes = t.nodes) (fuel : Nat) (o : Option Node) :
    t'.window fuel o = t.window fuel o := by
  induction fuel generalizing o with
  | zero => cases o <;> rfl
  | succ fuel ih =>
    cases o with
    | none => rfl
    | some n =>
      unfold window
      rw [find_nodes same, ih]

theorem window_found (fuel : Nat) : ∀ {i : Int64}, t.window fuel (t.find i) = some w → ∃ m, t.find w = some m := by
  induction fuel with
  | zero =>
    intro i found
    cases here : t.find i <;> rw [here] at found <;> nomatch found
  | succ fuel ih =>
    intro i found
    cases here : t.find i with
    | none =>
      rw [here] at found
      nomatch found
    | some n =>
      rw [here, window] at found
      split at found
      · cases found
        exact ⟨n, by rw [(find_some here).2.1, here]⟩
      · exact ih found

theorem setfocusLoop_window (fuel : Nat) : ∀ {o : Option Node}, setfocusLoop fuel t o = some t' →
    t.window fuel o = none ∧ t' = t ∨ ∃ w, t.window fuel o = some w ∧ t' = (t.activatewindow w).1 := by
  induction fuel with
  | zero =>
    intro o ran
    cases o with
    | none =>
      cases ran
      exact .inl ⟨rfl, rfl⟩
    | some n => nomatch ran
  | succ fuel ih =>
    intro o ran
    cases o with
    | none =>
      cases ran
      exact .inl ⟨rfl, rfl⟩
    | some n =>
      rw [setfocusLoop] at ran
      rw [window]
      split at ran
      · next kind =>
        cases ran
        exact .inr ⟨n.id, if_pos kind, rfl⟩
      · next other =>
        rw [if_neg other]
        exact ih ran

/-- A node with its child `w` in front of the others. -/
def raise (w : Int64) (p : Node) : Node := { p with children := appendchild (removechildid p.children w) w, dirty := 1 }

/-- What `bringtofront` does to the lists of children. -/
theorem bringtofront_reordered (inv : t.Inv) (found : t.find w = some m) (above : t.find m.parentid = some p) :
    ∃ a b, p.children = a ++ w :: b ∧ w ∉ a ∧ Reordered t (t.bringtofront w).1 m.parentid (a ++ b ++ [w]) := by
  obtain ⟨-, id, low⟩ := find_some found
  obtain ⟨-, pid, -⟩ := find_some above
  obtain ⟨nodup, listed⟩ := inv.kids _ p above
  obtain ⟨a, b, children⟩ := List.append_of_mem ((listed w).mpr ⟨m, found, rfl⟩)
  rw [children] at nodup
  have out := List.nodup_cons.mp (List.nodup_middle.mp nodup)
  rw [List.mem_append, not_or] at out
  have front : appendchild (removechildid p.children w) w = a ++ b ++ [w] := by
    have keep {l : List Int64} (off : w ∉ l) : l.filter (fun x => decide (x ≠ w)) = l :=
      List.filter_eq_self.mpr fun x member => decide_eq_true fun eq => off (eq ▸ member)
    rw [appendchild, if_neg (Int64.not_lt.mpr low), removechildid, children, List.filter_append,
      List.filter_cons_of_neg (by simp), keep out.1.1, keep out.1.2]
  refine ⟨a, b, children, out.1.1, ?_⟩
  have result : (t.bringtofront w).1 = (t.upd m.parentid (raise w)).upd w fun n => { n with dirty := 1 } := by
    unfold bringtofront
    simp only [found, above, pid]
    rfl
  have outer (i : Int64) := @find_upd (t.upd m.parentid (raise w)) i w (fun n => { n with dirty := 1 }) fun _ => rfl
  have inner (i : Int64) := @find_upd t i m.parentid (raise w) fun _ => rfl
  rw [result]
  refine ⟨rfl, by simp [upd], fun i => ?_, fun i n there => ?_⟩
  · rw [outer, inner]
    cases t.find i with
    | none => split <;> split <;> rfl
    | some n => split <;> split <;> rfl
  · rw [outer, inner] at there
    by_cases here : i = m.parentid
    · rw [if_pos here]
      rw [if_pos here, here, above] at there
      split at there <;> cases there <;> exact front
    · rw [if_neg here]
      rw [if_neg here] at there
      cases old : t.find i with
      | none =>
        rw [old] at there
        split at there <;> nomatch there
      | some q =>
        rw [old] at there
        split at there <;> cases there <;> exact ⟨_, rfl, rfl⟩

theorem later_eq {a b : List Int64} (off : w ∉ a) : later (a ++ w :: b) w = b := by
  have skip : (a ++ w :: b).dropWhile (fun x => decide (x ≠ w)) = w :: b := by
    have all : ∀ x ∈ a, decide (x ≠ w) = true := fun x member => decide_eq_true fun eq => off (eq ▸ member)
    rw [List.dropWhile_append_of_pos all, List.dropWhile_cons_of_neg (by simp)]
  rw [later, skip, List.tail_cons]

/-- The order depends on the nodes only. -/
theorem focuslist_nodes (inv : t.Inv) (nodes : t'.nodes = t.nodes) (root : t'.rootid = t.rootid) :
    t'.focuslist = t.focuslist := by
  have re : Reordered t t' NoId [] := by
    refine ⟨root, by rw [nodes], fun i => by rw [find_nodes nodes], fun i n found => ?_⟩
    rw [if_neg (ne_NoId found)]
    exact ⟨n, by rw [← find_nodes nodes, found], rfl⟩
  rw [focuslist_order inv, focuslist_order (inv.nodes nodes root), re.length, re.rootid, re.off inv]
  intro above
  rcases Above.iff_parent.mp above with eq | ⟨b, link, -⟩
  · obtain ⟨r, found, -⟩ := inv.root
    exact ne_NoId found eq.symm
  · obtain ⟨n, found, -⟩ := par_some.mp link
    exact ne_NoId found rfl

/-- The blocks of a clear window leave the order as it was, as a ring. -/
theorem Reordered.rotated {a b : List Int64} {h : Node} {q : Int64} (re : Reordered t t' q (a ++ b ++ [w]))
    (inv : t.Inv) (inv' : t'.Inv) (parent : t.find q = some h) (children : h.children = a ++ w :: b)
    (clear : (∀ x, t.Able x → ¬∃ c ∈ b, Above t.par x c) ∨
      ∀ x, t.Able x → Above t.par x w ∨ ∃ c ∈ b, Above t.par x c) :
    ∃ l l', t.focuslist = some l ∧ t'.focuslist = some l' ∧ l' ~r l := by
  obtain ⟨r, root, -⟩ := inv.root
  obtain ⟨k, depth⟩ := inv.depth _ r root
  have enough : t.nodes.length ≤ t.nodes.length + 1 + k := by omega
  obtain ⟨P, W, L, S, old, new, block, rest⟩ :=
    re.blocks inv parent children _ root depth enough (inv.above_root parent)
  have nodup := order_nodup inv _ root depth enough
  have members (x : Int64) : x ∈ t.order (t.nodes.length + 1) t.rootid → t.Able x := fun there =>
    ((mem_order inv root depth enough).mp there).2
  refine ⟨_, _, focuslist_order inv, focuslist_order inv', ?_⟩
  rw [old] at nodup members
  rw [re.length, re.rootid, old, new]
  rcases clear with none_ | all
  · have empty : L = [] := List.eq_nil_iff_forall_not_mem.mpr fun x there =>
      none_ x ((rest x).mp there).2 ((rest x).mp there).1
    rw [empty, List.append_nil, List.nil_append]
  · have inside {x : Int64} (there : x ∈ P ∨ x ∈ S) : x ∈ W ++ L := by
      have able := members x (by simp only [List.mem_append]; tauto)
      rcases all x able with low | low
      · exact List.mem_append_left L ((block x).mpr ⟨low, able⟩)
      · exact List.mem_append_right W ((rest x).mpr ⟨low, able⟩)
    have front : P = [] := List.eq_nil_iff_forall_not_mem.mpr fun x there =>
      (List.nodup_append.mp (List.nodup_append.mp nodup).1).2.2 x there x (inside (.inl there)) rfl
    have back : S = [] := List.eq_nil_iff_forall_not_mem.mpr fun x there =>
      (List.nodup_append.mp nodup).2.2 x (List.mem_append_right P (inside (.inr there))) x there rfl
    rw [front, back, List.nil_append, List.append_nil, List.append_nil]
    exact List.isRotated_append

/-- `setfocus` leaves the focus order as it was, as a ring, where the window is clear. -/
theorem setfocus_rotated (ok : t.Ok) (able : t.Able id) : ∃ t' r, t.setfocus id = some (t', r) ∧ t'.Ok ∧
    t'.focusid = id ∧ (t.Clear id → ∃ l l', t.focuslist = some l ∧ t'.focuslist = some l' ∧ l' ~r l) := by
  obtain ⟨t', r, value, kept, -, focused, granted⟩ := @setfocus_kept _ id ok
  refine ⟨t', r, value, kept.ok, (focused (granted able)).2, fun clear => ?_⟩
  obtain ⟨n, found, -⟩ := (focusableok_spec ok.inv.toLinked).mp able
  have here : t.focusableok (some n) = true := found ▸ able
  rw [setfocus, found] at value
  simp only [here, if_true, Option.bind_eq_bind, Option.bind_eq_some_iff] at value
  obtain ⟨t₁, ran, same⟩ := value
  cases same
  have order := (focuslist_order ok.inv)
  have unchanged (nodes : t'.nodes = t.nodes) (root : t'.rootid = t.rootid) :
      ∃ l l', t.focuslist = some l ∧ t'.focuslist = some l' ∧ l' ~r l :=
    ⟨_, _, order, (focuslist_nodes ok.inv nodes root).trans order, .refl _⟩
  rcases setfocusLoop_window _ ran with ⟨-, rfl⟩ | ⟨w, window, raised⟩
  · exact unchanged rfl rfl
  rw [@window_nodes t { t with focusid := id } rfl] at window
  obtain ⟨m, there⟩ := window_found _ window
  have result : t' = (bringtofront { t with focusid := id, activewindowid := w } w).1 := by
    have low : ¬w < 0 := Int64.not_lt.mpr (find_some there).2.2
    have same : ({ t with focusid := id } : Tree).find w = some m := there
    rw [raised, activatewindow, if_neg low, same]
  cases above : t.find m.parentid with
  | none =>
    have same : bringtofront { t with focusid := id, activewindowid := w } w =
        ({ t with focusid := id, activewindowid := w }, -1) := by
      have found' : ({ t with focusid := id, activewindowid := w } : Tree).find w = some m := there
      have above' : ({ t with focusid := id, activewindowid := w } : Tree).find m.parentid = none := above
      rw [bringtofront, found']
      simp only [above']
    rw [same] at result
    exact unchanged (by rw [result]) (by rw [result])
  | some p =>
    have inv : ({ t with focusid := id, activewindowid := w } : Tree).Inv := ok.inv.nodes rfl rfl
    obtain ⟨a, b, children, off, re⟩ := bringtofront_reordered inv there above
    rw [← result] at re
    have re' : Reordered t t' m.parentid (a ++ b ++ [w]) := ⟨re.rootid, re.length, re.core, re.kids⟩
    have behind := clear w m p (by rw [windowOf, found]; exact window) there above
    rw [children, later_eq off] at behind
    exact re'.rotated ok.inv kept.ok.inv above children behind

theorem focuslist_nodup (inv : t.Inv) {l : List Int64} (listed : t.focuslist = some l) :
    l.Nodup ∧ ∀ x ∈ l, t.Able x := by
  obtain ⟨r, root, -⟩ := inv.root
  obtain ⟨k, depth⟩ := inv.depth _ r root
  rw [focuslist_order inv] at listed
  cases listed
  exact ⟨order_nodup inv _ root depth (by omega), fun x there => ((mem_order inv root depth (by omega)).mp there).2⟩

/-- Two rings that start alike are alike. -/
theorem ring_unique {x : Int64} {u v : List Int64} (same : (x :: u) ~r (x :: v)) (nodup : (x :: u).Nodup) : u = v := by
  obtain ⟨k, le, eq⟩ := List.isRotated_iff_mod.mp same
  by_cases whole : k = (x :: u).length
  · rw [whole, List.rotate_length] at eq
    exact (List.cons.inj eq).2
  have head : (x :: u)[k]? = some x := by
    rw [← List.head?_rotate (by omega), eq, List.head?_cons]
  obtain ⟨less, here⟩ := List.getElem?_eq_some_iff.mp head
  have zero : k = 0 := (@List.Nodup.getElem_inj_iff _ _ nodup k less 0 (Nat.zero_lt_succ _)).mp here
  rw [zero, List.rotate_zero] at eq
  exact (List.cons.inj eq).2

/-- The ring of a list from one of its elements. -/
theorem ring_split {x : Int64} {l rest : List Int64} (ring : l ~r x :: rest) (nodup : l.Nodup) :
    ∃ a b, l = a ++ x :: b ∧ rest = b ++ a ∧ l.findIdx? (fun y => decide (y = x)) = some a.length := by
  obtain ⟨a, b, split⟩ := List.append_of_mem (ring.mem_iff.mpr List.mem_cons_self)
  have turned : (x :: (b ++ a)) ~r x :: rest := by
    refine List.IsRotated.trans ?_ ring
    rw [split, ← List.cons_append]
    exact List.isRotated_append
  have nodup' := (turned.trans ring.symm).nodup_iff.mpr nodup
  refine ⟨a, b, split, (ring_unique turned nodup').symm, ?_⟩
  rw [split] at nodup ⊢
  rw [List.findIdx?_eq_some_iff_getElem]
  refine ⟨by simp, by simp, fun j less => ?_⟩
  have inside : j < (a ++ x :: b).length := by
    rw [List.length_append]
    omega
  have first : (a ++ x :: b)[j] ∈ a := by
    rw [List.getElem_append_left less]
    exact List.getElem_mem less
  have off := (List.nodup_append.mp nodup).2.2 _ first x List.mem_cons_self
  simpa using off

/-- A call that moves the focus one step along `way`. -/
def Goes (turn : Tree → Option (Tree × Int64)) (way : List Int64 → List Int64) : Prop :=
  ∀ t : Tree, t.Ok → ∀ l rest j, t.focuslist = some l → way l ~r t.focusid :: rest →
    (rest ++ [t.focusid]).head? = some j → ∃ t', turn t = some (t', j) ∧ t'.Ok ∧ t'.focusid = j ∧
      (t.Clear j → ∃ l', t'.focuslist = some l' ∧ l' ~r l)

/-- What both calls do once the next node is found. -/
theorem goes_end (ok : t.Ok) {l : List Int64} (listed : t.focuslist = some l) (member : j ∈ l) :
    ∃ t', ((t.setfocus j).bind fun out => some (out.1, out.1.focusid)) = some (t', j) ∧ t'.Ok ∧ t'.focusid = j ∧
      (t.Clear j → ∃ l', t'.focuslist = some l' ∧ l' ~r l) := by
  obtain ⟨t', r, value, ok', focus, order⟩ := setfocus_rotated ok ((focuslist_nodup ok.inv listed).2 j member)
  refine ⟨t', by rw [value, Option.bind_some, focus], ok', focus, fun clear => ?_⟩
  obtain ⟨l₁, l', listed', after, ring⟩ := order clear
  cases listed.symm.trans listed'
  exact ⟨l', after, ring⟩

theorem ring_mem {x : Int64} {l rest : List Int64} (ring : l ~r x :: rest) (next : (rest ++ [x]).head? = some j) :
    j ∈ l := by
  refine ring.mem_iff.mpr ?_
  rcases List.mem_append.mp (List.mem_of_head? next) with inside | last
  · exact List.mem_cons_of_mem x inside
  · rw [List.mem_singleton.mp last]
    exact List.mem_cons_self

theorem nextfocus_goes : Goes nextfocus (fun l => l) := by
  intro t ok l rest j listed ring next
  replace ring : l ~r t.focusid :: rest := ring
  have nodup := (focuslist_nodup ok.inv listed).1
  obtain ⟨a, b, split, rfl, here⟩ := ring_split ring nodup
  have some_ : l ≠ [] := by rw [split]; simp
  have target : l[(a.length + 1) % l.length]? = some j := by
    rw [← next, split]
    cases b with
    | nil =>
      rw [List.length_append, List.length_singleton, Nat.mod_self, ← List.head?_eq_getElem?]
      rfl
    | cons c b =>
      rw [Nat.mod_eq_of_lt (by simp), List.getElem?_append_right (by omega)]
      simp
  unfold nextfocus
  simp only [listed, Option.bind_eq_bind, Option.bind_some, if_neg some_, here, target]
  exact goes_end ok listed (ring_mem ring next)

theorem prevfocus_goes : Goes prevfocus List.reverse := by
  intro t ok l rest j listed ring next
  have nodup := (focuslist_nodup ok.inv listed).1
  have forward : l ~r t.focusid :: rest.reverse := by
    have back := ring.reverse
    rw [List.reverse_reverse, List.reverse_cons] at back
    exact back.trans (List.isRotated_append (l := rest.reverse))
  obtain ⟨a, b, split, eq, here⟩ := ring_split forward nodup
  have some_ : l ≠ [] := by rw [split]; simp
  have last : (t.focusid :: (b ++ a)).getLast? = some j := by
    rw [← next, ← eq, ← List.head?_reverse, List.reverse_cons, List.reverse_reverse]
  have member : j ∈ l := List.mem_reverse.mp (ring_mem ring next)
  unfold prevfocus
  simp only [listed, Option.bind_eq_bind, Option.bind_some, if_neg some_, here]
  cases a with
  | nil =>
    have target : l[l.length - 1]? = some j := by
      rw [← List.getLast?_eq_getElem?, split, List.nil_append, ← last, List.append_nil]
    simp only [List.length_nil, target]
    exact goes_end ok listed member
  | cons c a =>
    have target : l[(c :: a).length - 1]? = some j := by
      rw [split, List.getElem?_append_left (by simp), ← List.getLast?_eq_getElem?, ← last, ← List.cons_append,
        List.getLast?_append_cons]
    have more : (c :: a).length = a.length + 1 := rfl
    rw [more] at target ⊢
    simp only [target]
    exact goes_end ok listed member

/-- A tour gives the focus to the nodes as they follow each other in the ring. -/
theorem tour_spec {turn : Tree → Option (Tree × Int64)} {way : List Int64 → List Int64} (goes : Goes turn way)
    (rings : ∀ l l', l' ~r l → way l' ~r way l) (k : Nat) :
    ∀ {t : Tree} {l rest : List Int64}, t.Ok → t.focuslist = some l → way l ~r t.focusid :: rest → k ≤ rest.length + 1 →
      AllClear turn way k t → ∃ t', tour turn k t = some (t', (rest ++ [t.focusid]).take k) := by
  induction k with
  | zero => exact fun {t} _ _ _ _ _ _ _ => ⟨t, rfl⟩
  | succ k ih =>
    intro t l rest ok listed ring short clear
    obtain ⟨j, r, turned⟩ : ∃ j r, rest ++ [t.focusid] = j :: r := by
      cases rest with
      | nil => exact ⟨_, _, rfl⟩
      | cons j r => exact ⟨j, r ++ [t.focusid], rfl⟩
    have next : (rest ++ [t.focusid]).head? = some j := by rw [turned, List.head?_cons]
    have size := congrArg List.length turned
    rw [List.length_append, List.length_singleton, List.length_cons] at size
    obtain ⟨t', gone, ok', focus, order⟩ := goes t ok l rest j listed ring next
    obtain ⟨l', listed', same⟩ := order (clear.1 j ⟨l, rest, listed, ring, next⟩)
    have ring' : way l' ~r t'.focusid :: r := by
      rw [focus, ← turned]
      exact ((rings l l' same).trans ring).trans (List.isRotated_append (l := [t.focusid]))
    obtain ⟨t'', rest_⟩ := ih ok' listed' ring' (by omega) (clear.2 t' j gone)
    refine ⟨t'', ?_⟩
    rw [tour, gone]
    simp only [Option.bind_eq_bind, Option.bind_some, rest_]
    rw [turned, List.take_succ_cons, List.take_append_of_le_length (by omega)]

theorem tours {turn : Tree → Option (Tree × Int64)} {way : List Int64 → List Int64} (goes : Goes turn way)
    (rings : ∀ l l', l' ~r l → way l' ~r way l) (perm : ∀ l, (way l).Perm l) (ok : t.Ok) {l : List Int64}
    (listed : t.focuslist = some l) (focused : t.focusid ∈ l) (clear : AllClear turn way l.length t) :
    Tours turn t := by
  have nodup := (focuslist_nodup ok.inv listed).1
  obtain ⟨a, b, split⟩ := List.append_of_mem ((perm l).mem_iff.mpr focused)
  have ring : way l ~r t.focusid :: (b ++ a) := by
    rw [split, ← List.cons_append]
    exact List.isRotated_append
  have turned : (b ++ a ++ [t.focusid]).Perm l :=
    (List.perm_append_comm.trans ring.perm.symm).trans (perm l)
  have size : l.length = (b ++ a).length + 1 := by
    rw [← turned.length_eq, List.length_append, List.length_singleton]
  obtain ⟨t', ran⟩ := tour_spec goes rings l.length ok listed ring (by omega) clear
  rw [List.take_of_length_le (by rw [turned.length_eq])] at ran
  exact ⟨l, t', _, listed, ran, turned.nodup_iff.mpr nodup, turned, List.getLast?_concat⟩

/-- `Clear`, computed. -/
def clearb (t : Tree) (l : List Int64) (j : Int64) : Bool :=
  match t.windowOf j with
  | none => true
  | some w => match (t.find w).bind fun m => t.find m.parentid with
    | none => true
    | some p =>
      let behind := fun x => (later p.children w).any fun c => t.holds c x
      (l.all fun x => !behind x) || l.all fun x => t.holds w x || behind x

theorem clear_of (inv : t.Inv) {l : List Int64} (listed : t.focuslist = some l) (check : clearb t l j = true) :
    t.Clear j := by
  intro w m p window found above
  have able {x : Int64} (able : t.Able x) : x ∈ l := by
    obtain ⟨l', listed', members⟩ := focuslist_spec inv
    cases listed.symm.trans listed'
    exact (members x).mpr able
  have low : 0 ≤ w := (find_some found).2.2
  have lows {c : Int64} (member : c ∈ later p.children w) : 0 ≤ c := by
    have child : c ∈ p.children := (List.dropWhile_sublist _).subset (List.mem_of_mem_tail member)
    obtain ⟨n, there, -⟩ := ((inv.kids _ p above).2 c).mp child
    exact (find_some there).2.2
  have behind (x : Int64) : ((later p.children w).any fun c => t.holds c x) = true ↔
      ∃ c ∈ later p.children w, Above t.par x c := by
    rw [List.any_eq_true]
    exact exists_congr fun c => and_congr_right fun member => holds_spec inv.toLinked (lows member)
  simp only [clearb, window, found, above, Option.bind_some, Bool.or_eq_true, List.all_eq_true,
    Bool.not_eq_true'] at check
  refine check.imp (fun none_ x here there => ?_) fun all x here => ?_
  · rw [← behind, none_ x (able here)] at there
    nomatch there
  · rw [← behind, ← holds_spec inv.toLinked low]
    exact all x (able here)

/-- `AllClear`, computed for any next node. -/
def allclear (turn : Tree → Option (Tree × Int64)) : Nat → Tree → Bool
  | 0, _ => true
  | k + 1, t => match t.focuslist, turn t with
    | some l, some (t', _) => l.all (t.clearb l) && allclear turn k t'
    | _, _ => false

theorem allclear_of {turn : Tree → Option (Tree × Int64)} {way : List Int64 → List Int64} (perm : ∀ l, (way l).Perm l)
    (keeps : ∀ t t' r, Tree.Ok t → turn t = some (t', r) → t'.Ok) (k : Nat) :
    ∀ {t : Tree}, t.Ok → allclear turn k t = true → AllClear turn way k t := by
  induction k with
  | zero => exact fun _ _ => trivial
  | succ k ih =>
    intro t ok check
    rw [allclear] at check
    split at check
    · next l t' r listed ran =>
      rw [Bool.and_eq_true, List.all_eq_true] at check
      refine ⟨fun j follows => ?_, fun t'' j ran' => ?_⟩
      · obtain ⟨l', rest, listed', ring, next⟩ := follows
        cases listed.symm.trans listed'
        exact clear_of ok.inv listed (check.1 j ((perm l).mem_iff.mp (ring_mem ring next)))
      · cases ran.symm.trans ran'
        exact ih (keeps t t' r ok ran) check.2
    · nomatch check

/-- The focus goes around while the windows brought to the front are clear. -/
theorem focus_around (t : Tree) (l : List Int64) (ok : t.Ok) (listed : t.focuslist = some l) (focused : t.focusid ∈ l) :
    (AllClear nextfocus (fun l => l) l.length t → Tours nextfocus t) ∧
    (AllClear prevfocus List.reverse l.length t → Tours prevfocus t) ∧
    ((∀ j, t.Follows (fun l => l) j → t.Clear j) → t.Back) := by
  refine ⟨tours nextfocus_goes (fun _ _ same => same) .refl ok listed focused,
    tours prevfocus_goes (fun _ _ same => same.reverse) List.reverse_perm ok listed focused, fun clear => ?_⟩
  obtain ⟨a, b, split⟩ := List.append_of_mem focused
  have ring : l ~r t.focusid :: (b ++ a) := by
    rw [split, ← List.cons_append]
    exact List.isRotated_append
  obtain ⟨j, r, turned⟩ : ∃ j r, b ++ a ++ [t.focusid] = j :: r := by
    cases b ++ a with
    | nil => exact ⟨_, _, rfl⟩
    | cons j r => exact ⟨j, r ++ [t.focusid], rfl⟩
  have next : (b ++ a ++ [t.focusid]).head? = some j := by rw [turned, List.head?_cons]
  obtain ⟨t', gone, ok', focus, order⟩ := nextfocus_goes t ok l _ j listed ring next
  obtain ⟨l', listed', same⟩ := order (clear j ⟨l, _, listed, ring, next⟩)
  have ring' : l'.reverse ~r t'.focusid :: r.reverse := by
    have around : l' ~r j :: r := by
      rw [← turned]
      exact (same.trans ring).trans (List.isRotated_append (l := [t.focusid]))
    have back := around.reverse
    rw [List.reverse_cons] at back
    rw [focus]
    exact back.trans (List.isRotated_append (l := r.reverse))
  have last : (r.reverse ++ [t'.focusid]).head? = some t.focusid := by
    rw [focus, ← List.reverse_cons, ← turned, List.reverse_concat, List.head?_cons]
  obtain ⟨t'', back, -⟩ := prevfocus_goes t' ok' l' _ _ listed' ring' last
  exact ⟨t', j, t'', gone, back⟩

/-- A window, or a control. -/
def piece (id : Int64) (window : Bool) : Node :=
  { id, kind := if window then "window" else "button", parentid := NoId, visible := 1, enabled := 1
    focusable := if window then 0 else 1, dirty := 1, children := [] }

/-- Of three windows with a control each, `prevfocus` goes back and forth between two. -/
theorem focus_stays : ¬∀ (t : Tree) (l : List Int64), t.Ok → t.focuslist = some l → t.focusid ∈ l →
    Tours nextfocus t ∧ Tours prevfocus t ∧ t.Back := by
  intro claim
  obtain ⟨t, ran, listed, focused, stuck⟩ : ∃ t, Run.steps step [.addchildnode 0 (piece 1 true) rfl,
      .addchildnode 1 (piece 2 false) rfl, .addchildnode 0 (piece 3 true) rfl, .addchildnode 3 (piece 4 false) rfl,
      .addchildnode 0 (piece 5 true) rfl, .addchildnode 5 (piece 6 false) rfl, .setfocus 2] newtree = some t ∧
      t.focuslist = some [4, 6, 2] ∧ t.focusid ∈ [4, 6, 2] ∧ (tour prevfocus 3 t).map Prod.snd = some [6, 2, 6] :=
    ⟨_, rfl, by decide +kernel, by decide +kernel, by decide +kernel⟩
  have ok := Run.ok newtree_ok (Run.of_steps ran)
  obtain ⟨l, t', ids, listed', toured, nodup, -⟩ := (claim t _ ok listed focused).2.1
  cases listed.symm.trans listed'
  have short : tour prevfocus 3 t = some (t', ids) := toured
  rw [short] at stuck
  cases stuck
  exact absurd nodup (by decide)

/-- Two windows take turns. -/
theorem focus_around_two : ∃ t l, t.Ok ∧ t.focuslist = some l ∧ l.length = 2 ∧
    Tours nextfocus t ∧ Tours prevfocus t ∧ t.Back := by
  obtain ⟨t, ran, listed, focused, clear, clear'⟩ : ∃ t, Run.steps step [.addchildnode 0 (piece 1 true) rfl,
      .addchildnode 1 (piece 2 false) rfl, .addchildnode 0 (piece 3 true) rfl, .addchildnode 3 (piece 4 false) rfl,
      .setfocus 2] newtree = some t ∧ t.focuslist = some [4, 2] ∧ t.focusid ∈ [4, 2] ∧
      allclear nextfocus 2 t = true ∧ allclear prevfocus 2 t = true :=
    ⟨_, rfl, by decide +kernel, by decide +kernel, by decide +kernel, by decide +kernel⟩
  have ok := Run.ok newtree_ok (Run.of_steps ran)
  have next := @allclear_of nextfocus (fun l => l) .refl (fun t t' r ok ran => by
    obtain ⟨_, _, value, kept, -⟩ := nextfocus_kept ok
    cases ran.symm.trans value
    exact kept.ok) 2 t ok clear
  have prev := allclear_of List.reverse_perm (fun t t' r ok ran => by
    obtain ⟨_, _, value, kept, -⟩ := prevfocus_kept ok
    cases ran.symm.trans value
    exact kept.ok) 2 ok clear'
  obtain ⟨forth, back, undone⟩ := focus_around t [4, 2] ok listed focused
  exact ⟨t, _, ok, listed, rfl, forth next, back prev, undone next.1⟩

end Inferno.Icurses.Tree
