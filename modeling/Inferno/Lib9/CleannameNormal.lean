import Inferno.Lib9.CleannameRun

namespace Inferno.Lib9

open Lib

variable {mem : ByteMem} {name t : List UInt8} {rooted : Bool} {reals dots kept : List Elem} {fuel i : Nat}

/-- What `keep` keeps of all elements of a name is a stack of real elements above those that are `..`. -/
theorem named_at (nonzero : 0 ∉ name) (named : Named mem name) (enough : name.length ≤ fuel) :
    ∃ reals dots, At mem name.length (rootedName name) (loop (rootedName name) fuel
        ⟨⟨mem, 0⟩, (rootedName name).toNat, (rootedName name).toNat, (rootedName name).toNat, false⟩) [] reals dots ∧
      keptElems name = reals ++ dots := by
  have unread : Unread mem 0 name := fun i c there => (Nat.zero_add i).symm ▸ named i c there
  cases root : rootedName name with
  | false =>
    have start : At mem name.length false ⟨⟨mem, 0⟩, 0, 0, 0, false⟩ name [] [] := by
      refine ⟨Kept.nil false, Nat.zero_add _, nonzero, unread, fun i c there => (nomatch there), rfl, rfl, le_refl _,
        fun some_ => absurd rfl some_, Nat.zero_le _, fun _ _ => rfl, fun _ _ head => ?_, ?_,
        fun went => (nomatch went), fun went => (nomatch went)⟩
      · rw [rootedName, head] at root
        nomatch root
      · exact iff_of_false Bool.false_ne_true fun both => both.2.1 rfl
    obtain ⟨reals, dots, last, kept⟩ := start.loop_at enough
    refine ⟨reals, dots, last, ?_⟩
    rw [keptElems, root]
    exact kept
  | true =>
    obtain ⟨c, rest, rfl⟩ : ∃ c rest, name = c :: rest := by
      cases name with
      | nil => nomatch root
      | cons c rest => exact ⟨c, rest, rfl⟩
    obtain rfl : c = slash := Option.some.inj (beq_iff_eq.mp root)
    have start : At mem (slash :: rest).length true ⟨⟨mem, 0⟩, 1, 1, 1, false⟩ rest [] [] := by
      refine ⟨Kept.nil true, Nat.add_comm 1 _, fun member => nonzero (List.mem_cons_of_mem _ member), unread.tail,
        fun i c there => ?_, rfl, rfl, le_refl _, fun some_ => absurd rfl some_, Nat.zero_le _, fun _ _ => rfl,
        fun root => (nomatch root), ?_, fun went => (nomatch went), fun went => (nomatch went)⟩
      · cases i with
        | zero => exact unread.head.trans (Option.some.inj there)
        | succ i => nomatch there
      · exact iff_of_false Bool.false_ne_true fun both => Bool.noConfusion both.1
    obtain ⟨reals, dots, last, kept⟩ := start.loop_at ((Nat.le_succ rest.length).trans enough)
    refine ⟨reals, dots, last, ?_⟩
    rw [keptElems, root, foldl_slash]
    exact kept

theorem strlen_of_named (named : Named mem t) (nonzero : 0 ∉ t) (from_ : i ≤ t.length) (enough : t.length < i + fuel) :
    strlen mem fuel i = t.length := by
  induction fuel generalizing i with
  | zero => omega
  | succ fuel ih =>
    rw [strlen]
    rcases eq_or_lt_of_le from_ with rfl | less
    · refine if_pos (named t.length 0 ?_)
      rw [List.getElem?_append_right (le_refl _), Nat.sub_self]
      rfl
    · have there : mem i = t[i] := named i _ (by rw [List.getElem?_append_left less, List.getElem?_eq_getElem less])
      rw [if_neg fun zero : mem i = 0 => nonzero (zero.symm.trans there ▸ List.getElem_mem less)]
      exact ih less (by omega)

/-- The name, in `b`, gets `./` before it. -/
theorem named_shift {b : Buf} (named : Named b.mem t) :
    Named (((b.shift 2 (t.length + 1)).put 0 dot).put 1 slash).mem (dot :: slash :: t) := by
  intro i c there
  match i with
  | 0 =>
    rw [put_ne _ (by decide), put_self]
    exact Option.some.inj there
  | 1 =>
    rw [put_self]
    exact Option.some.inj there
  | i + 2 =>
    have there : (t ++ [0])[i]? = some c := there
    have less := (List.getElem?_eq_some_iff.mp there).choose
    rw [List.length_append, List.length_singleton] at less
    rw [put_ne _ (by omega), put_ne _ (by omega), Buf.shift]
    dsimp only
    rw [if_pos ⟨by omega, by omega⟩, Nat.add_sub_cancel]
    exact named i c there

theorem head_eq (named : Named mem t) (c : UInt8) (other : c ≠ 0) : t.head? = some c ↔ mem 0 = c := by
  cases t with
  | nil => exact iff_of_false (fun none => nomatch none) fun same => other (same.symm.trans (named 0 0 rfl))
  | cons d t =>
    rw [List.head?_cons, Option.some.injEq, named 0 d rfl]

/-- Elements that are kept have no byte 0, and no slash. -/
theorem plain_text (keeps : Kept rooted reals dots) : 0 ∉ text rooted (reals ++ dots) := by
  have plain : ∀ x ∈ reals ++ dots, 0 ∉ x.1 := by
    intro x member
    rcases List.mem_append.mp member with real | up
    · exact (keeps.real x real).2.2.2.2
    · rw [keeps.up x up]
      decide
  generalize reals ++ dots = kept at plain
  induction kept with
  | nil =>
    rw [text_nil]
    cases rooted <;> decide
  | cons x kept ih =>
    have first := plain x List.mem_cons_self
    have rest := ih fun y member => plain y (List.mem_cons_of_mem x member)
    rcases eq_or_ne kept [] with none | some_
    · rw [none, text_single, ← text_nil, List.mem_append]
      rw [none] at rest
      exact fun either => either.elim rest first
    · rw [text_cons some_, List.mem_append, List.mem_cons]
      exact fun either => either.elim rest fun either => either.elim (by decide) first

/-- The end of what `cleanname` may write: one byte beyond the terminator for the empty name only. -/
def limit (name : List UInt8) : Nat := if name = [] then 2 else name.length + 1

theorem limit_le (name : List UInt8) : name.length + 1 ≤ limit name := by
  unfold limit
  split
  · rename_i none
    rw [none]
    decide
  · exact le_refl _

theorem two_le_limit (name : List UInt8) : 2 ≤ limit name := by
  unfold limit
  split
  · exact le_refl _
  · rename_i some_
    have long := List.length_pos_iff.mpr some_
    omega

/-- The name without `./`, once the loop is done. -/
theorem bare_named {s : Cur} (at_ : At mem name.length (rootedName name) s [] reals dots)
    (kept : keptElems name = reals ++ dots) :
    ∃ b, (if s.q = 0 then s.push dot else s).b.put (if s.q = 0 then s.push dot else s).q 0 = b ∧
      Named b.mem (bareName name) ∧ b.hi ≤ limit name ∧ (∀ i, limit name ≤ i → b.mem i = mem i) ∧
      (bareName name).length ≤ max s.q 1 ∧ 0 ∉ bareName name := by
  have left := at_.left
  rw [List.length_nil, Nat.add_zero] at left
  have q := at_.q
  have room := at_.room
  have hi := at_.hi
  have least := limit_le name
  have two := two_le_limit name
  have plain := plain_text at_.keeps
  have written := at_.written
  unfold bareName
  rw [kept]
  refine ⟨_, rfl, ?_⟩
  dsimp only
  by_cases zero : s.q = 0
  · have none := List.length_eq_zero_iff.mp (q.symm.trans zero)
    rw [if_pos zero, if_pos none]
    rw [none] at written
    have one := written.put dot
    have both := one.put 0
    dsimp only [Cur.push]
    rw [zero]
    refine ⟨both, ?_, fun i after => ?_, by rw [List.length_singleton]; omega, by decide⟩
    · rw [hi_put, hi_put]
      omega
    · rw [put_ne _ (by omega), put_ne _ (by omega)]
      exact at_.frame i (by omega)
  · have some_ : text (rootedName name) (reals ++ dots) ≠ [] := fun none => zero (by rw [q, none]; rfl)
    rw [if_neg zero, if_neg some_]
    refine ⟨?_, ?_, fun i after => ?_, by omega, plain⟩
    · rw [q]
      exact written.put 0
    · rw [hi_put]
      omega
    · rw [put_ne _ (by omega)]
      exact at_.frame i (by omega)

theorem bareName_none (root : rootedName name = false) (none : keptElems name = []) : bareName name = [dot] := by
  unfold bareName
  rw [root, none]
  rfl

theorem all_last (o : Option Elem) : o.all (!·.2) = true ↔ ∀ x ∈ o, x.2 = false := by
  cases o with
  | none => exact iff_of_true rfl fun x member => nomatch member
  | some x =>
    rw [Option.all_some, Bool.not_eq_true']
    exact ⟨fun last y member => Option.some.inj member ▸ last, fun last => last x rfl⟩

/-- What `cleanname` leaves in its buffer. -/
theorem cleanname_named (nonzero : 0 ∉ name) (named : Named mem name) (enough : name.length ≤ fuel) :
    Named (cleanname fuel mem).mem (normal name) ∧ (cleanname fuel mem).hi ≤ limit name ∧
      ∀ i, limit name ≤ i → (cleanname fuel mem).mem i = mem i := by
  have root : (mem 0 == slash) = rootedName name := by
    unfold rootedName
    rw [Bool.eq_iff_iff, beq_iff_eq, beq_iff_eq]
    exact (head_eq named slash (by decide)).symm
  obtain ⟨reals, dots, at_, kept⟩ := named_at nonzero named enough
  unfold cleanname
  dsimp only
  rw [root]
  generalize loop (rootedName name) fuel
    ⟨⟨mem, 0⟩, (rootedName name).toNat, (rootedName name).toNat, (rootedName name).toNat, false⟩ = s at at_ ⊢
  obtain ⟨b, made, named', hi, frame, short, plain⟩ := bare_named at_ kept
  rw [made]
  have left := at_.left
  rw [List.length_nil, Nat.add_zero] at left
  have least := limit_le name
  have erased : (if s.q = 0 then s.push dot else s).erasedPrefix = s.erasedPrefix := by split <;> rfl
  have head := head_eq named' hash (by decide)
  rw [erased]
  have same : s.erasedPrefix = true ∧ b.mem 0 = hash ↔
      !rootedName name ∧ (bareName name).head? = some hash ∧ (keptElems name).getLast?.all (!·.2) := by
    rw [at_.erased, ← head, kept, all_last, Bool.not_eq_true']
    refine ⟨fun ⟨⟨root, _, bottom⟩, first⟩ => ⟨root, first, bottom⟩, fun ⟨root, first, bottom⟩ =>
      ⟨⟨root, fun start => ?_, bottom⟩, first⟩⟩
    rw [bareName_none root (kept.trans (at_.of_start start).2)] at first
    exact absurd first (by decide)
  by_cases prefixed : s.erasedPrefix = true ∧ b.mem 0 = hash
  · have some_ : reals ++ dots ≠ [] := fun none => by
      have first := (same.mp prefixed).2.1
      rw [bareName_none (at_.erased.mp prefixed.1).1 (kept.trans none)] at first
      exact absurd first (by decide)
    have far := (at_.some prefixed.1 some_).1
    have long : s.q ≠ 0 := fun zero => some_ (kept_of_length at_.keeps (by
      rw [(at_.erased.mp prefixed.1).1]
      rw [(at_.erased.mp prefixed.1).1] at at_
      exact at_.q.symm.trans zero))
    have size : strlen b.mem (fuel + 1) 0 = (bareName name).length :=
      strlen_of_named named' plain (Nat.zero_le _) (by omega)
    unfold normal
    rw [if_pos prefixed, if_pos (same.mp prefixed), size]
    refine ⟨named_shift named', ?_, fun i after => ?_⟩
    · rw [hi_put, hi_put, Buf.shift]
      dsimp only
      omega
    · rw [put_ne _ (by omega), put_ne _ (by omega), Buf.shift]
      dsimp only
      rw [if_neg (by omega)]
      exact frame i after
  · unfold normal
    rw [if_neg prefixed, if_neg fun holds => prefixed (same.mpr holds)]
    exact ⟨named', hi, frame⟩

theorem foldl_ups {ds acc : List Elem} (all : ∀ x ∈ ds ++ acc, x.1 = [dot, dot])
    (root : rooted = true → ds = []) : ds.foldl (keep rooted) acc = ds.reverse ++ acc := by
  induction ds generalizing acc with
  | nil => rfl
  | cons d ds ih =>
    have first : d.1 = [dot, dot] := all d List.mem_cons_self
    have unrooted : rooted = false := Bool.eq_false_iff.mpr fun holds => List.cons_ne_nil d ds (root holds)
    have step : keep rooted acc d = d :: acc := by
      unfold keep
      rw [first, if_neg (by decide), if_pos rfl, unrooted]
      cases acc with
      | nil => rfl
      | cons top rest => exact if_pos (all top (List.mem_append_right _ List.mem_cons_self))
    have rest : ∀ x ∈ ds ++ d :: acc, x.1 = [dot, dot] := by
      intro x member
      rcases List.mem_append.mp member with member | member
      · exact all x (List.mem_append_left _ (List.mem_cons_of_mem d member))
      · rcases List.mem_cons.mp member with rfl | member
        · exact first
        · exact all x (List.mem_append_right _ member)
    rw [List.foldl_cons, step, ih rest fun holds => absurd holds (by rw [unrooted]; decide), List.reverse_cons,
      List.append_assoc]
    rfl

theorem foldl_reals {rs : List Elem} (all : ∀ x ∈ rs, x.1 ≠ [] ∧ x.1 ≠ [dot] ∧ x.1 ≠ [dot, dot]) (acc : List Elem) :
    rs.foldl (keep rooted) acc = rs.reverse ++ acc := by
  induction rs generalizing acc with
  | nil => rfl
  | cons r rs ih =>
    obtain ⟨some_, one, two⟩ := all r List.mem_cons_self
    have step : keep rooted acc r = r :: acc := (if_neg fun either => either.elim some_ one).trans (if_neg two)
    rw [List.foldl_cons, step, ih fun x member => all x (List.mem_cons_of_mem r member), List.reverse_cons,
      List.append_assoc]
    rfl

/-- Elements in the order of a name, as they are kept, are all kept. -/
theorem foldl_kept {es : List Elem} (keeps : Kept rooted reals dots)
    (names : es.map Prod.fst = (reals ++ dots).reverse.map Prod.fst) : es.foldl (keep rooted) [] = es.reverse := by
  rw [List.reverse_append, List.map_append] at names
  obtain ⟨ds, rs, rfl, dsNames, rsNames⟩ := List.map_eq_append_iff.mp names
  have ofName {l k : List Elem} (same : l.map Prod.fst = k.reverse.map Prod.fst) {x : Elem} (member : x ∈ l) :
      ∃ y ∈ k, y.1 = x.1 := by
    obtain ⟨y, there, eq⟩ := List.mem_map.mp (same ▸ List.mem_map_of_mem (f := Prod.fst) member)
    exact ⟨y, List.mem_reverse.mp there, eq⟩
  have ups : ∀ x ∈ ds ++ [], x.1 = [dot, dot] := by
    intro x member
    obtain ⟨y, there, eq⟩ := ofName dsNames (by rwa [List.append_nil] at member)
    exact eq ▸ keeps.up y there
  have plain : ∀ x ∈ rs, x.1 ≠ [] ∧ x.1 ≠ [dot] ∧ x.1 ≠ [dot, dot] := by
    intro x member
    obtain ⟨y, there, eq⟩ := ofName rsNames member
    obtain ⟨nonempty, one, two, -⟩ := keeps.real y there
    exact eq ▸ ⟨nonempty, one, two⟩
  have root : rooted = true → ds = [] := by
    intro holds
    rw [keeps.root holds] at dsNames
    exact List.map_eq_nil_iff.mp dsNames
  rw [List.foldl_append, foldl_ups ups root, foldl_reals plain, List.append_nil, List.reverse_append]

theorem text_names {kept' : List Elem} (same : kept'.map Prod.fst = kept.map Prod.fst) :
    text rooted kept' = text rooted kept := by
  unfold text
  rw [List.map_reverse, List.map_reverse, same]

/-- The elements of kept names are these. -/
theorem elems_intercalate {names : List (List UInt8)} (clean : ∀ l ∈ names, slash ∉ l) (some_ : names ≠ [])
    (first : Bool) : (elems first ([slash].intercalate names)).map Prod.fst = names ∧
      (elems first ([slash].intercalate names)).head?.map Prod.snd = some first := by
  unfold elems
  rw [List.splitOn_intercalate slash clean some_]
  cases names with
  | nil => exact absurd rfl some_
  | cons l names =>
    refine ⟨?_, rfl⟩
    dsimp only
    rw [List.map_cons, List.map_map]
    exact congrArg (l :: ·) (List.map_id names)

/-- What `keep` keeps of a name is such a stack. -/
theorem exists_kept (nonzero : 0 ∉ name) :
    ∃ reals dots, Kept (rootedName name) reals dots ∧ keptElems name = reals ++ dots := by
  have named : Named (fun i => (name ++ [0]).getD i 0) name := fun i c there => by
    dsimp only
    rw [List.getD_eq_getElem?_getD, there]
    rfl
  obtain ⟨reals, dots, at_, kept⟩ := named_at nonzero named (le_refl _)
  exact ⟨reals, dots, at_.keeps, kept⟩

/-- The elements of an unrooted name of kept elements are these. -/
theorem elems_text (keeps : Kept false reals dots) (some_ : reals ++ dots ≠ []) (first : Bool) :
    (elems first (text false (reals ++ dots))).map Prod.fst = (reals ++ dots).reverse.map Prod.fst ∧
      (elems first (text false (reals ++ dots))).head?.map Prod.snd = some first := by
  refine elems_intercalate (fun l member => ?_) (fun none => ?_) first
  · obtain ⟨x, there, rfl⟩ := List.mem_map.mp member
    rcases List.mem_append.mp (List.mem_reverse.mp there) with real | up
    · exact (keeps.real x real).2.2.2.1
    · rw [keeps.up x up]
      decide
  · exact some_ (List.reverse_eq_nil_iff.mp (List.map_eq_nil_iff.mp none))

theorem head_text (keeps : Kept false reals dots) (some_ : reals ++ dots ≠ []) :
    (text false (reals ++ dots)).head? ≠ some slash := by
  intro head
  obtain ⟨rest, whole⟩ : ∃ rest, text false (reals ++ dots) = slash :: rest := by
    cases made : text false (reals ++ dots) with
    | nil =>
      rw [made] at head
      nomatch head
    | cons c rest =>
      rw [made] at head
      exact ⟨rest, congrArg (· :: rest) (Option.some.inj head)⟩
  have names := (elems_text keeps some_ true).1
  rw [whole, elems_slash, List.map_cons] at names
  have member : [] ∈ (reals ++ dots).reverse.map Prod.fst := names ▸ List.mem_cons_self
  obtain ⟨x, there, none⟩ := List.mem_map.mp member
  rcases List.mem_append.mp (List.mem_reverse.mp there) with real | up
  · exact (keeps.real x real).1 none
  · rw [keeps.up x up] at none
    nomatch none

/-- An unrooted name of kept elements keeps them, and so does the name after `./`. -/
theorem keptElems_text (keeps : Kept false reals dots) (some_ : reals ++ dots ≠ []) :
    keptElems (text false (reals ++ dots)) = (elems true (text false (reals ++ dots))).reverse ∧
      keptElems (dot :: slash :: text false (reals ++ dots)) = (elems false (text false (reals ++ dots))).reverse := by
  have unrooted : rootedName (text false (reals ++ dots)) = false :=
    beq_eq_false_iff_ne.mpr (head_text keeps some_)
  refine ⟨?_, ?_⟩
  · rw [keptElems, unrooted]
    exact foldl_kept keeps (elems_text keeps some_ true).1
  · have one : keep false [] ([dot], true) = [] := rfl
    have first : elems true (dot :: slash :: text false (reals ++ dots)) =
        elems true ([dot] ++ slash :: text false (reals ++ dots)) := rfl
    have root : rootedName (dot :: slash :: text false (reals ++ dots)) = false := rfl
    rw [keptElems, root, first, foldl_elem (by decide) (Or.inr rfl), one, foldl_slash]
    exact foldl_kept keeps (elems_text keeps some_ false).1

/-- A rooted name of kept elements keeps them. -/
theorem keptElems_root (keeps : Kept true reals []) :
    (keptElems (text true (reals ++ []))).map Prod.fst = (reals ++ []).map Prod.fst := by
  have keeps' : Kept false reals [] := ⟨keeps.real, keeps.up, fun holds => nomatch holds⟩
  have root : rootedName (text true (reals ++ [])) = true := rfl
  have whole : text true (reals ++ []) = slash :: text false (reals ++ []) := rfl
  rw [keptElems, root, whole, foldl_slash]
  rcases eq_or_ne (reals ++ []) [] with none | some_
  · rw [none]
    rfl
  · rw [foldl_kept keeps (elems_text keeps' some_ false).1, List.map_reverse, (elems_text keeps' some_ false).1,
      List.map_reverse, List.reverse_reverse]

theorem all_reverse {es : List Elem} {first : Bool} (head : es.head?.map Prod.snd = some first) :
    es.reverse.getLast?.all (!·.2) = !first := by
  rw [List.getLast?_reverse]
  obtain ⟨x, there, rfl⟩ := Option.map_eq_some_iff.mp head
  rw [there]
  rfl

/-- The normal form is its own. -/
theorem normal_normal (nonzero : 0 ∉ name) : normal (normal name) = normal name := by
  obtain ⟨reals, dots, keeps, kept⟩ := exists_kept nonzero
  cases root : rootedName name with
  | true =>
    rw [root] at keeps
    obtain rfl := keeps.root rfl
    have bare : bareName name = text true (reals ++ []) := by
      rw [bareName, root, kept]
      exact if_neg (List.cons_ne_nil _ _)
    have norm {name : List UInt8} (root : rootedName name = true) : normal name = bareName name := by
      rw [normal, root]
      exact if_neg fun holds => Bool.noConfusion holds.1
    have again : rootedName (text true (reals ++ [])) = true := rfl
    rw [norm root, bare, norm again, bareName, again, text_names (keptElems_root keeps)]
    exact if_neg (List.cons_ne_nil _ _)
  | false =>
    rw [root] at keeps
    rcases eq_or_ne (reals ++ dots) [] with none | some_
    · have bare : bareName name = [dot] := bareName_none root (kept.trans none)
      have norm : normal name = [dot] := by
        rw [normal, bare]
        exact if_neg fun holds => absurd holds.2.1 (by decide)
      rw [norm]
      rfl
    · have long : text false (reals ++ dots) ≠ [] := fun none =>
        some_ (kept_of_length keeps (congrArg List.length none))
      have bare : bareName name = text false (reals ++ dots) := by
        rw [bareName, root, kept]
        exact if_neg long
      obtain ⟨plain, dotted⟩ := keptElems_text keeps some_
      have back (first : Bool) : text false (elems first (text false (reals ++ dots))).reverse =
          text false (reals ++ dots) := by
        refine text_names ?_
        rw [List.map_reverse, (elems_text keeps some_ first).1, List.map_reverse, List.reverse_reverse]
      have unrooted : rootedName (text false (reals ++ dots)) = false :=
        beq_eq_false_iff_ne.mpr (head_text keeps some_)
      have bareText : bareName (text false (reals ++ dots)) = text false (reals ++ dots) := by
        rw [bareName, unrooted, plain, back true]
        exact if_neg long
      have bareDotted : bareName (dot :: slash :: text false (reals ++ dots)) = text false (reals ++ dots) := by
        have root : rootedName (dot :: slash :: text false (reals ++ dots)) = false := rfl
        rw [bareName, root, dotted, back false]
        exact if_neg long
      by_cases erased : !rootedName name ∧ (bareName name).head? = some hash ∧ (keptElems name).getLast?.all (!·.2)
      · have norm : normal name = dot :: slash :: text false (reals ++ dots) := by
          rw [normal, if_pos erased, bare]
        rw [norm, normal, bareDotted, dotted]
        refine if_pos ⟨rfl, bare ▸ erased.2.1, ?_⟩
        rw [all_reverse (elems_text keeps some_ false).2]
        rfl
      · have norm : normal name = text false (reals ++ dots) := by
          rw [normal, if_neg erased, bare]
        rw [norm, normal, bareText, plain]
        refine if_neg fun holds => ?_
        have first := holds.2.2
        rw [all_reverse (elems_text keeps some_ true).2] at first
        nomatch first

theorem zero_notMem_normal (nonzero : 0 ∉ name) : 0 ∉ normal name := by
  obtain ⟨reals, dots, keeps, kept⟩ := exists_kept nonzero
  have bare : 0 ∉ bareName name := by
    unfold bareName
    dsimp only
    split
    · decide
    · rw [kept]
      exact plain_text keeps
  unfold normal
  split
  · exact fun member => bare ((List.mem_cons.mp ((List.mem_cons.mp member).resolve_left (by decide))).resolve_left
      (by decide))
  · exact bare

/-- `cleanname` leaves the lexical normal form in the place of a name, writes nothing beyond the name's terminator (one
byte beyond it for the empty name), and does nothing to the name the second time. -/
theorem cleanname_normal {fuel : Nat} {name : List UInt8} {mem : ByteMem} (nonzero : 0 ∉ name) (named : Named mem name)
    (enough : name.length ≤ fuel) :
    Named (cleanname fuel mem).mem (normal name) ∧ (cleanname fuel mem).hi ≤ limit name ∧
      (∀ i, limit name ≤ i → (cleanname fuel mem).mem i = mem i) ∧ normal (normal name) = normal name ∧
      ∀ fuel', (normal name).length ≤ fuel' → Named (cleanname fuel' (cleanname fuel mem).mem).mem (normal name) := by
  obtain ⟨named', hi, frame⟩ := cleanname_named nonzero named enough
  have same := normal_normal nonzero
  refine ⟨named', hi, frame, same, fun fuel' enough' => ?_⟩
  have again := (cleanname_named (zero_notMem_normal nonzero) named' enough').1
  rwa [same] at again

/-- The buffer that holds `a/../#b/./c`. -/
def sample : ByteMem := fun i => [0x61, slash, dot, dot, slash, hash, 0x62, slash, dot, slash, 0x63, 0].getD i 0

theorem cleanname_normal_sample :
    normal [0x61, slash, dot, dot, slash, hash, 0x62, slash, dot, slash, 0x63] =
        [dot, slash, hash, 0x62, slash, 0x63] ∧
      Named (cleanname 11 sample).mem (normal [0x61, slash, dot, dot, slash, hash, 0x62, slash, dot, slash, 0x63]) := by
  refine ⟨by decide, (cleanname_normal (by decide) (fun i c there => ?_) (le_refl 11)).1⟩
  rw [sample, List.getD_eq_getElem?_getD, show [0x61, slash, dot, dot, slash, hash, 0x62, slash, dot, slash, 0x63, 0][i]? =
    some c from there]
  rfl

/-- The name `#/../#a` began with `#`, and comes back with `./` before it. -/
theorem hash_prefixed : ∃ mem, Named mem [hash, slash, dot, dot, slash, hash, 0x61] ∧
    ¬Named (cleanname 7 mem).mem (normalByName [hash, slash, dot, dot, slash, hash, 0x61]) := by
  refine ⟨fun i => [hash, slash, dot, dot, slash, hash, 0x61, 0].getD i 0, fun i c there => ?_, fun named => ?_⟩
  · dsimp only
    rw [List.getD_eq_getElem?_getD, show [hash, slash, dot, dot, slash, hash, 0x61, 0][i]? = some c from there]
    rfl
  · have byName : normalByName [hash, slash, dot, dot, slash, hash, 0x61] = [hash, 0x61] := by decide
    rw [byName] at named
    exact absurd (named 0 hash rfl) (by decide)

end Inferno.Lib9
