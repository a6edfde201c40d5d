import Inferno.Icurses.ViewInv

namespace Inferno.Icurses.Tree

open Lib

variable {t t' : Tree} {i j a id : Int64} {n p m : Node} {f : Node → Node} {k fuel : Nat}

theorem Linked.par_find (inv : t.Linked) (link : t.par i = some j) : ∃ p, t.find j = some p := by
  obtain ⟨n, found, rfl, named⟩ := par_some.mp link
  obtain ⟨r, root, none_⟩ := inv.root
  refine inv.up i n found fun same => named ?_
  subst same
  cases found.symm.trans root
  exact none_

theorem Linked.above_find (inv : t.Linked) (above : Above t.par i j) (found : t.find i = some n) : ∃ p, t.find j = some p := by
  induction above generalizing n with
  | refl => exact ⟨n, found⟩
  | up link _ ih =>
    obtain ⟨p, there⟩ := inv.par_find link
    exact ih there

theorem Linked.depth_lt (inv : t.Linked) (depth : Depth t.par i k) (found : t.find i = some n) : k < t.nodes.length := by
  rw [← @List.length_map _ _ t.nodes Node.id]
  refine depth.lt_length fun j above => ?_
  obtain ⟨p, there⟩ := inv.above_find above found
  exact (find_isSome (find_some there).2.2).mp (Option.isSome_iff_exists.mpr ⟨p, there⟩)

theorem par_none (found : t.find i = some n) (none_ : t.par i = none) : n.parentid = NoId := by
  rw [par_of_find found] at none_
  by_contra named
  rw [if_neg named] at none_
  nomatch none_

theorem par_parent (found : t.find i = some n) (link : t.par i = some j) : n.parentid = j ∧ n.parentid ≠ NoId := by
  obtain ⟨m, there, rfl, named⟩ := par_some.mp link
  cases found.symm.trans there
  exact ⟨rfl, named⟩

/-- Every way up ends at the root. -/
theorem Linked.above_root (inv : t.Linked) (found : t.find i = some n) : Above t.par i t.rootid := by
  obtain ⟨k, depth⟩ := inv.depth i n found
  induction depth generalizing n with
  | @top i none_ =>
    by_cases root : i = t.rootid
    · exact root ▸ .refl _
    · obtain ⟨p, there⟩ := inv.up i n found root
      rw [par_none found none_] at there
      nomatch find_NoId.symm.trans there
  | down link _ ih =>
    obtain ⟨p, there⟩ := inv.par_find link
    exact .up link (ih there)

theorem isdescendantLoop_spec (inv : t.Linked) (low : 0 ≤ a) (depth : Depth t.par i k) (found : t.find i = some n)
    (enough : k < fuel) : t.isdescendantLoop a fuel (t.find i) = true ↔ ∃ b, t.par i = some b ∧ Above t.par b a := by
  have named : a ≠ NoId := fun same => absurd (same ▸ low) (by decide)
  induction fuel generalizing i n k with
  | zero => nomatch enough
  | succ fuel ih =>
    rw [found]
    unfold isdescendantLoop
    cases depth with
    | top none_ =>
      rw [par_none found none_, if_neg (Ne.symm named), if_pos rfl, none_]
      simp
    | down link rest =>
      obtain ⟨parent, some_⟩ := par_parent found link
      obtain ⟨p, there⟩ := inv.par_find link
      rw [if_neg some_, parent, link]
      split
      · rename_i here
        exact iff_of_true rfl ⟨_, rfl, here ▸ .refl _⟩
      · rename_i other
        refine (ih rest there (by omega)).trans ?_
        constructor
        · rintro ⟨b, link', above⟩
          exact ⟨_, rfl, .up link' above⟩
        · rintro ⟨b, same, above⟩
          cases same
          exact (Above.iff_parent.mp above).resolve_left other

/-- `removetree`'s question of an id. -/
theorem holds_spec (inv : t.Linked) (low : 0 ≤ a) : t.holds a i = true ↔ Above t.par i a := by
  unfold holds isdescendant
  rw [Bool.or_eq_true, decide_eq_true_eq, Above.iff_parent]
  cases found : t.find i with
  | none =>
    have none_ : t.par i = none := by
      unfold par
      rw [found]
    rw [none_]
    refine or_congr_right (iff_of_false ?_ (by simp))
    split <;> simp [isdescendantLoop]
  | some n =>
    obtain ⟨k, depth⟩ := inv.depth i n found
    have least := (find_some found).2.2
    rw [if_neg (by simp [Int64.not_lt, least, low]), ← found]
    exact or_congr_right (isdescendantLoop_spec inv low depth found (by
      have less := inv.depth_lt depth found
      omega))

theorem isdescendant_holds (other : i ≠ a) : t.isdescendant i a = t.holds a i := by
  unfold holds
  rw [decide_eq_false other, Bool.false_or]

theorem flagTree_spec {flag : Node → Int64} (inv : t.Linked) (depth : Depth t.par i k) (found : t.find i = some n)
    (enough : k < fuel) : t.flagTree flag fuel (t.find i) = true ↔
      ∀ j m, Above t.par i j → t.find j = some m → flag m ≠ 0 := by
  induction fuel generalizing i n k with
  | zero => nomatch enough
  | succ fuel ih =>
    rw [found]
    unfold flagTree
    have self : (∀ j m, Above t.par i j → t.find j = some m → flag m ≠ 0) → flag n ≠ 0 := fun all => all i n (.refl i) found
    split
    · rename_i zero
      exact iff_of_false Bool.false_ne_true fun all => self all zero
    · rename_i some_
      cases depth with
      | top none_ =>
        rw [if_pos (par_none found none_)]
        refine iff_of_true rfl fun j m above there => ?_
        rcases Above.iff_parent.mp above with rfl | ⟨b, link, -⟩
        · cases found.symm.trans there
          exact some_
        · nomatch none_.symm.trans link
      | down link rest =>
        obtain ⟨parent, named⟩ := par_parent found link
        obtain ⟨p, there⟩ := inv.par_find link
        rw [if_neg named, parent, ih rest there (by omega)]
        constructor
        · intro all j m above here
          rcases Above.iff_parent.mp above with rfl | ⟨b, link', above'⟩
          · cases found.symm.trans here
            exact some_
          · cases link.symm.trans link'
            exact all j m above' here
        · exact fun all j m above here => all j m (.up link above) here

/-- A flag is set in a node and in those above it. -/
def Set_ (t : Tree) (flag : Node → Int64) (i : Int64) : Prop :=
  ∀ j m, Above t.par i j → t.find j = some m → flag m ≠ 0

theorem isvisibletree_spec (inv : t.Linked) (found : t.find i = some n) : t.isvisibletree i = true ↔ t.Set_ Node.visible i := by
  obtain ⟨k, depth⟩ := inv.depth i n found
  unfold isvisibletree
  rw [if_neg (Int64.not_lt.mpr (find_some found).2.2)]
  exact flagTree_spec inv depth found (Nat.lt_succ_of_lt (inv.depth_lt depth found))

theorem isenabledtree_spec (inv : t.Linked) (found : t.find i = some n) : t.isenabledtree i = true ↔ t.Set_ Node.enabled i := by
  obtain ⟨k, depth⟩ := inv.depth i n found
  unfold isenabledtree
  rw [if_neg (Int64.not_lt.mpr (find_some found).2.2)]
  exact flagTree_spec inv depth found (Nat.lt_succ_of_lt (inv.depth_lt depth found))

theorem Inv.par_child (inv : t.Inv) (found : t.find i = some n) {c : Int64} : c ∈ n.children ↔ t.par c = some i := by
  rw [((inv.kids i n found).2 c), par_some]
  constructor
  · rintro ⟨m, child, parent⟩
    exact ⟨m, child, parent, ne_NoId found⟩
  · rintro ⟨m, child, parent, -⟩
    exact ⟨m, child, parent⟩

/-- A node and those below it are changed. -/
structure Changed (t t' : Tree) (change : Node → Node) (below : Int64 → Prop) : Prop where
  rest : { t' with nodes := t.nodes } = t
  ids : t'.nodes.map Node.id = t.nodes.map Node.id
  here : ∀ i n, t.find i = some n → below i → t'.find i = some (change n)
  there : ∀ i, ¬below i → t'.find i = t.find i

theorem Changed.trans {change : Node → Node} {S S' : Int64 → Prop} (idem : ∀ n, change (change n) = change n)
    (first : Changed t t' change S) {t'' : Tree} (second : Changed t' t'' change S') :
    Changed t t'' change fun i => S i ∨ S' i where
  rest := by rw [← first.rest, ← second.rest]
  ids := second.ids.trans first.ids
  here i n found below := by
    by_cases old : S i
    · have changed := first.here i n found old
      by_cases new : S' i
      · rw [second.here i _ changed new, idem]
      · rw [second.there i new, changed]
    · exact second.here i n ((first.there i old).trans found) (below.resolve_left old)
  there i out := (second.there i fun new => out (Or.inr new)).trans (first.there i fun old => out (Or.inl old))

theorem Changed.congr {change : Node → Node} {S S' : Int64 → Prop} (changed : Changed t t' change S) (same : ∀ i, S' i ↔ S i) :
    Changed t t' change S' :=
  ⟨changed.rest, changed.ids, fun i n found below => changed.here i n found ((same i).mp below),
    fun i out => changed.there i fun below => out ((same i).mpr below)⟩

/-- What `show`, `hide`, `enable` and `disable` do to a node. -/
structure Flags (change : Node → Node) : Prop where
  id : ∀ n, (change n).id = n.id
  parentid : ∀ n, (change n).parentid = n.parentid
  children : ∀ n, (change n).children = n.children
  focusable : ∀ n, (change n).focusable = n.focusable
  idem : ∀ n, change (change n) = change n

theorem Changed.like {change : Node → Node} {S : Int64 → Prop} (flags : Flags change) (changed : Changed t t' change S) :
    t.Like t' where
  rootid := by rw [← changed.rest]
  nextid := by rw [← changed.rest]
  ids := changed.ids
  find i n found := by
    by_cases below : S i
    · exact ⟨_, changed.here i n found below, flags.parentid n, flags.children n ▸ .refl _⟩
    · exact ⟨n, (changed.there i below).trans found, rfl, .refl _⟩

theorem changed_upd {change : Node → Node} (flags : Flags change) : Changed t (t.upd id change) change (· = id) where
  rest := rfl
  ids := upd_ids flags.id
  here i n found here := by rw [find_upd flags.id, if_pos here, found]; rfl
  there i other := by rw [find_upd flags.id, if_neg other]

theorem eachkid_spec {change : Node → Node} (flags : Flags change) (fuel : Nat) :
    ∀ {t : Tree} {i : Int64} {n : Node} {k : Nat}, t.Inv → t.find i = some n → Depth t.par i k → t.nodes.length ≤ fuel + k →
      ∃ t', eachkid change fuel t i = some t' ∧ Changed t t' change (Above t.par · i) := by
  induction fuel with
  | zero =>
    intro t i n k inv found depth enough
    have less := inv.depth_lt depth found
    omega
  | succ fuel ih =>
    intro t i n k inv found depth enough
    unfold eachkid
    rw [found]
    obtain ⟨t', ran, changed⟩ := foldlM_spec (f := eachkid change fuel) (l := n.children) (s := t.upd i change)
      (fun done s => Changed t s change fun j => j = i ∨ ∃ c ∈ done, Above t.par j c)
      ((changed_upd flags).congr (by simp)) fun done c rest s whole changed => by
        have like := changed.like flags
        have link : t.par c = some i := (inv.par_child found).mp (by rw [whole]; simp)
        obtain ⟨m, child, -⟩ := par_some.mp link
        obtain ⟨m', child', -⟩ := like.find c m child
        have length : s.nodes.length = t.nodes.length := by
          simpa only [List.length_map] using congrArg List.length changed.ids
        obtain ⟨s', ran, more⟩ := ih (inv.like like) child' (by rw [like.par]; exact .down link depth) (by omega)
        refine ⟨s', ran, (changed.trans flags.idem more).congr fun j => ?_⟩
        rw [like.par]
        simp only [List.mem_append, List.mem_singleton, or_and_right, exists_or, exists_eq_left, or_assoc]
    refine ⟨t', ran, changed.congr fun j => ?_⟩
    rw [Above.iff_child]
    simp only [inv.par_child found]

/-- The fields of a tree without the nodes of some ids. -/
structure Dropped (t t' : Tree) (gone : Int64 → Prop) : Prop where
  rest : { t' with nodes := t.nodes } = t
  sub : t'.nodes.Sublist t.nodes
  find : ∀ i n, t'.find i = some n ↔ t.find i = some n ∧ ¬gone i

/-- The nodes below `r` list their children. -/
structure Listed (t : Tree) (r : Int64) : Prop where
  nodup : ∀ i n, Above t.par i r → t.find i = some n → n.children.Nodup
  child : ∀ i n, Above t.par i r → t.find i = some n → ∀ c, c ∈ n.children ↔ t.par c = some i

theorem find_removenodeid (low : 0 ≤ id) :
    ({ t with nodes := removenodeid t.nodes id }).find i = if i = id then none else t.find i := by
  unfold find removenodeid
  rw [if_neg (Int64.not_lt.mpr low)]
  dsimp only
  rw [List.find?_filter]
  split
  · simp
  · split
    · rename_i same
      rw [List.find?_eq_none]
      rintro n - both
      simp [same] at both
    · rename_i other
      refine congrArg (List.find? · t.nodes) (funext fun n => ?_)
      by_cases here : n.id = i
      · simp [here, other]
      · simp [here]

theorem Dropped.congr {gone gone' : Int64 → Prop} (dropped : Dropped t t' gone) (same : ∀ i, gone' i ↔ gone i) :
    Dropped t t' gone' :=
  ⟨dropped.rest, dropped.sub, fun i n => by rw [dropped.find, same]⟩

theorem Dropped.remove {gone : Int64 → Prop} (dropped : Dropped t t' gone) (low : 0 ≤ i) :
    Dropped t { t' with nodes := removenodeid t'.nodes i } fun j => gone j ∨ j = i where
  rest := dropped.rest
  sub := by
    unfold removenodeid
    split
    · exact dropped.sub
    · exact List.filter_sublist.trans dropped.sub
  find j n := by
    rw [find_removenodeid low]
    by_cases here : j = i
    · simp [here]
    · rw [if_neg here, dropped.find]
      simp [here]

theorem dropnode_spec (listed : Listed t id) (fuel : Nat) :
    ∀ {t' : Tree} {gone : Int64 → Prop} {i : Int64} {n : Node} {k : Nat}, Dropped t t' gone → t.find i = some n →
      Above t.par i id → (∀ j, Above t.par j i → ¬gone j) → Depth t.par i k →
      (∀ {i n k}, t.find i = some n → Depth t.par i k → k < t.nodes.length) → t.nodes.length ≤ fuel + k →
      ∃ t'', dropnode fuel t' (some n) = some t'' ∧ Dropped t t'' fun j => gone j ∨ Above t.par j i := by
  induction fuel with
  | zero =>
    intro t' gone i n k _ found _ _ depth bound enough
    have less := bound found depth
    omega
  | succ fuel ih =>
    intro t' gone i n k dropped found below clear depth bound enough
    have children := listed.child i n below found
    have nodup := listed.nodup i n below found
    unfold dropnode
    obtain ⟨s, ran, dropped'⟩ := foldlM_spec (f := fun t cid => dropnode fuel t (t.find cid)) (l := n.children) (s := t')
      (fun done s => Dropped t s fun j => gone j ∨ ∃ c ∈ done, Above t.par j c) (dropped.congr (by simp))
      fun done c rest s whole dropped => by
        have link : t.par c = some i := (children c).mp (by rw [whole]; simp)
        obtain ⟨m, child, -⟩ := par_some.mp link
        have clear' : ∀ j, Above t.par j c → ¬(gone j ∨ ∃ c' ∈ done, Above t.par j c') := by
          rintro j above (old | ⟨c', member, above'⟩)
          · exact clear j (above.trans (.parent link)) old
          · have link' : t.par c' = some i := (children c').mp (by rw [whole]; simp [member])
            cases Above.siblings depth link link' above above'
            rw [whole, List.nodup_append] at nodup
            exact nodup.2.2 c member c (by simp) rfl
        rw [(dropped.find c m).mpr ⟨child, clear' c (.refl c)⟩]
        obtain ⟨s', ran, more⟩ := ih dropped child ((Above.parent link).trans below) clear' (.down link depth) bound (by omega)
        refine ⟨s', ran, more.congr fun j => ?_⟩
        simp only [List.mem_append, List.mem_singleton, or_and_right, exists_or, exists_eq_left, or_assoc]
    refine ⟨_, by rw [ran]; rfl, ?_⟩
    obtain ⟨-, same, low⟩ := find_some found
    rw [same]
    refine (dropped'.remove low).congr fun j => ?_
    rw [Above.iff_child, or_assoc]
    simp only [children]
    exact or_congr_right (or_comm)

theorem focusableok_spec (inv : t.Linked) : t.focusableok (t.find i) = true ↔
    ∃ n, t.find i = some n ∧ n.focusable ≠ 0 ∧ t.Set_ Node.visible i ∧ t.Set_ Node.enabled i := by
  cases found : t.find i with
  | none => simp [focusableok]
  | some n =>
    unfold focusableok
    dsimp only
    rw [(find_some found).2.1]
    split
    · rename_i zero
      simp [zero]
    · rename_i some_
      rw [Bool.and_eq_true, isvisibletree_spec inv found, isenabledtree_spec inv found]
      simp [some_]

/-- The ids of the nodes below that can have the focus are added to the list. -/
theorem collectfocus_spec (inv : t.Inv) (fuel : Nat) :
    ∀ {i : Int64} {n : Node} {k : Nat} {l : List Int64}, t.find i = some n → Depth t.par i k → t.nodes.length ≤ fuel + k →
      ∃ l', t.collectfocus fuel i l = some l' ∧
        ∀ j, j ∈ l' ↔ j ∈ l ∨ Above t.par j i ∧ t.focusableok (t.find j) = true := by
  induction fuel with
  | zero =>
    intro i n k l found depth enough
    have less := inv.depth_lt depth found
    omega
  | succ fuel ih =>
    intro i n k l found depth enough
    unfold collectfocus
    rw [found]
    have same (j : Int64) : Above t.par j i ↔ j = i ∨ ∃ c ∈ n.children, Above t.par j c := by
      rw [Above.iff_child]
      simp only [inv.par_child found]
    simp only [same]
    refine foldlM_spec (fun done l' => ∀ j, j ∈ l' ↔ j ∈ l ∨ (j = i ∨ ∃ c ∈ done, Above t.par j c) ∧
      t.focusableok (t.find j) = true) ?_ fun done c rest l whole members => ?_
    · intro j
      obtain ⟨-, same, low⟩ := find_some found
      simp only [List.not_mem_nil, false_and, exists_false, or_false]
      split
      · rename_i ok
        unfold appendchild
        rw [same, if_neg (Int64.not_lt.mpr low), List.mem_append, List.mem_singleton, and_iff_left_of_imp]
        rintro rfl
        rw [found]
        exact ok
      · rename_i no
        refine (or_iff_left ?_).symm
        rintro ⟨rfl, ok⟩
        rw [found] at ok
        exact no ok
    · have link : t.par c = some i := (inv.par_child found).mp (by rw [whole]; simp)
      obtain ⟨m, child, -⟩ := par_some.mp link
      rw [child]
      dsimp only
      rw [(find_some child).2.1]
      obtain ⟨l', ran, more⟩ := ih (l := l) child (.down link depth) (by omega)
      refine ⟨l', ran, fun j => ?_⟩
      rw [more, members, or_assoc, ← or_and_right]
      simp only [List.mem_append, List.mem_singleton, or_and_right, exists_or, exists_eq_left, or_assoc]

end Inferno.Icurses.Tree
