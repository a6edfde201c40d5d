import Inferno.Ns.Cmount

namespace Inferno.Ns

open Lib

variable {w w' : Mounts} {hs hs' : Nat → Fin 32 → List Href} {ms ms' : Href → List Mref} {m : Href} {p : Nat}
  {b : Fin 32} {order flag mem : Nat} {old new : Chan} {umh : Option Href} {spec : Option (List UInt8)}

theorem Shape.setNs (shape : Shape w hs ms) (ns : Nat → Bool) : Shape { w with ns := ns } hs ms :=
  ⟨shape.chain, shape.list, shape.apart, shape.head, shape.live, shape.heads, shape.fresh, shape.pgrps, shape.bucket,
    shape.once⟩

theorem Step.ofNs {ns : Nat → Bool} (step : Step p m { w with ns := ns } hs ms w' hs' ms') :
    Step p m w hs ms w' hs' ms' :=
  ⟨step.others, step.apart, step.heads, step.lists, step.fromChan, step.node, step.pgrps⟩

theorem Step.refl (apart : ∀ q, q ≠ p → ∀ b, m ∉ hs q b) : Step p m w hs ms w hs ms :=
  ⟨fun _ _ => rfl, apart, fun here => Or.inr here, fun _ => rfl, fun _ => rfl, fun _ _ _ => rfl, rfl⟩

namespace Shape

theorem mounted_eq (shape : Shape w hs ms) (member : m ∈ hs p (mounth old.ident.path))
    (same : (w.fromChan m).ident = old.ident) : w.mounted p old = some ((ms m).map w.elem) := by
  rw [Mounts.mounted, shape.table_eq, List.find?_map]
  have found : (hs p (mounth old.ident.path)).find?
      ((fun u => eqchan u.fromChan old) ∘ fun m => (⟨m, w.fromChan m, (ms m).map w.elem⟩ : Union)) = some m := by
    cases search : (hs p (mounth old.ident.path)).find?
        ((fun u => eqchan u.fromChan old) ∘ fun m => (⟨m, w.fromChan m, (ms m).map w.elem⟩ : Union)) with
    | none => exact absurd (decide_eq_true same) (List.find?_eq_none.mp search m member)
    | some k =>
      have passes := List.find?_some search
      rw [shape.once (List.mem_of_find?_eq_some search) member ((of_decide_eq_true passes).trans same.symm)]
  rw [found]
  rfl

theorem mounted_none (shape : Shape w hs ms) (none : ∀ k ∈ hs p (mounth old.ident.path), (w.fromChan k).ident ≠ old.ident) :
    w.mounted p old = Option.none := by
  rw [Mounts.mounted, shape.table_eq, Option.map_eq_none_iff, List.find?_eq_none]
  intro u here
  obtain ⟨k, member, rfl⟩ := List.mem_map.mp here
  exact fun same => none k member (of_decide_eq_true same)

end Shape

namespace Mounts

/-- A mount on a head that exists: the list is the ordered one, or nothing changes. -/
theorem mountOn_spec (new : Chan) (umh : Option Href) (flag : Nat) (spec : Option (List UInt8)) (mem : Nat)
    (shape : Shape w hs ms) (member : m ∈ hs p b) :
    ∃ ms', Shape (w.mountOn m new umh flag spec mem).1 hs ms' ∧
      Step p m w hs ms (w.mountOn m new umh flag spec mem).1 hs ms' ∧
      (w.mountOn m new umh flag spec mem).1.heads = w.heads ∧
      (((w.mountOn m new umh flag spec mem).2 = none ∧ mem ≤ (tailOf ms umh).length ∧ ms' = ms) ∨
        ((tailOf ms umh).length < mem ∧ (w.mountOn m new umh flag spec mem).2 = some (increfId (w.ref + 1)) ∧
          (∃ x ∈ ms' m, (w.mountOn m new umh flag spec mem).1.mountid x = increfId (w.ref + 1)) ∧
          chans (w.mountOn m new umh flag spec mem).1 (ms' m) =
            ordered (flag &&& morder) (new :: chans w (tailOf ms umh)) (chans w (ms m)))) := by
  have apart : ∀ q, q ≠ p → ∀ c, m ∉ hs q c := fun q other c here => other (shape.apart here member).1
  cases mem with
  | zero => exact ⟨ms, shape, .refl apart, rfl, Or.inl ⟨rfl, Nat.zero_le _, rfl⟩⟩
  | succ mem =>
    have first : Grows w.made w (w.newmount m new flag spec).2 := newmount_grows (Nat.le_refl _)
    have shape₁ := shape.grows first shape.below
    have single : Path (w.newmount m new flag spec).2.next (some w.made) [w.made] := ⟨rfl, Function.update_self _ _ _⟩
    have self : (w.newmount m new flag spec).2.mounts w.made = ⟨m, new, flag, spec⟩ := Function.update_self _ _ _
    have owned : ∀ y ∈ [w.made], w.made ≤ y ∧ Owned (w.newmount m new flag spec).2 m y := by
      intro y here
      cases List.mem_singleton.mp here
      exact ⟨Nat.le_refl _, by rw [self], Function.update_self _ _ _, Nat.lt_succ_self _⟩
    obtain ⟨ys, path, second, own, same, done, names⟩ := copyUnion_spec (x := w.made)
      (if flag &&& morder = mrepl then mafter else flag &&& morder) mem single rfl owned
      (shape₁.restOf_path umh) shape.tailOf_below (Nat.le_succ _) (shape₁.tailOf_length umh)
    rcases copied : copyUnion m (if flag &&& morder = mrepl then mafter else flag &&& morder)
      (w.newmount m new flag spec).2.made (w.newmount m new flag spec).2 mem w.made
      ((w.newmount m new flag spec).2.restOf umh) with ⟨w₂, ok⟩
    have run : w.mountOn m new umh flag spec (mem + 1) = bif ok then
        (((w₂.clear m (flag &&& morder)).setCreate w.made flag).join m w.made (flag &&& morder),
          some ((((w₂.clear m (flag &&& morder)).setCreate w.made flag).join m w.made (flag &&& morder)).mountid
            w.made)) else (w₂, none) := by
      rw [mountOn]
      dsimp only
      rw [show copyUnion m _ _ _ mem (w.newmount m new flag spec).1 _ = (w₂, ok) from copied]
      cases ok <;> rfl
    rw [run]
    simp only [copied] at path second own same done names
    have grows := first.trans second
    have shape₂ := shape.grows grows shape.below
    have edit : Edit ms m w w₂ := grows.edit shape.below
    cases ok with
    | false =>
      rw [cond_false]
      refine ⟨ms, shape₂, ?_, grows.heads, Or.inl ⟨rfl, ?_, rfl⟩⟩
      · have step := edit.step (l := ms m) shape member
        rwa [Function.update_eq_self] at step
      · exact Nat.lt_of_not_le fun fits => (by cases done.mpr fits)
    | true =>
      rw [cond_true]
      obtain ⟨tail, _⟩ := names rfl
      have free : ∀ k, ∀ y ∈ [w.made] ++ ys, y ∉ ms k := fun k y here inList =>
        absurd (shape.live inList).2 (Nat.not_lt_of_le (own y here).1)
      obtain ⟨edit', shape₃, chan, ids, _⟩ := link_spec (flag &&& morder) flag shape₂ path
        (fun y here => (own y here).2) free (by rw [grows.heads]; exact shape.heads member)
      have id : (((w₂.clear m (flag &&& morder)).setCreate w.made flag).join m w.made (flag &&& morder)).mountid w.made =
          increfId (w.ref + 1) := by
        have kept : w₂.mountid w.made = (w.newmount m new flag spec).2.mountid w.made :=
          congrArg Elem.mountid (same w.made List.mem_cons_self)
        rw [ids w.made List.mem_cons_self, kept]
        exact Function.update_self _ _ _
      refine ⟨_, shape₃, (edit.trans edit').step shape member, edit'.heads.trans grows.heads, Or.inr ⟨?_, ?_, ?_, ?_⟩⟩
      · exact Nat.lt_succ_of_le (done.mp rfl)
      · exact congrArg some id
      · refine ⟨w.made, ?_, id⟩
        rw [Function.update_self]
        exact mem_ordered_left List.mem_cons_self
      · rw [Function.update_self, chans, map_ordered]
        have head : (w₂.mounts w.made).chan = new := by rw [mounts_of_elem (same _ List.mem_cons_self), self]
        have news : ([w.made] ++ ys).map (fun y => ((((w₂.clear m (flag &&& morder)).setCreate w.made flag).join m w.made
            (flag &&& morder)).mounts y).chan) = new :: chans w (tailOf ms umh) := by
          rw [List.map_congr_left fun y _ => chan y, List.singleton_append, List.map_cons, head]
          refine congrArg (new :: ·) (tail.trans (chans_congr fun y here => ?_))
          rw [(first.node y (shape.tailOf_below y here)).mounts]
        have olds : (ms m).map (fun y => ((((w₂.clear m (flag &&& morder)).setCreate w.made flag).join m w.made
            (flag &&& morder)).mounts y).chan) = chans w (ms m) := by
          rw [List.map_congr_left fun y _ => chan y]
          exact chans_congr fun y here => by rw [(grows.node y (shape.below m y here)).mounts]
        rw [news, olds]

/-- The head of `old`: it exists, or it is made, empty or with `old` on it. -/
theorem headOf_spec (old : Chan) (order mem : Nat) (shape : Shape w hs ms) (below : p < w.pgrps) :
    ∃ m hs' ms', Shape (w.headOf p old order mem).1 hs' ms' ∧
      Step p m w hs ms (w.headOf p old order mem).1 hs' ms' ∧ w.heads ≤ (w.headOf p old order mem).1.heads ∧
      m ∈ hs' p (mounth old.ident.path) ∧ ((w.headOf p old order mem).1.fromChan m).ident = old.ident ∧
      (∀ y < w.made, ((w.headOf p old order mem).1.mounts y).chan = (w.mounts y).chan) ∧
      (order = mrepl → (w.headOf p old order mem).1.ref = w.ref) ∧ (∀ c, ∀ k ∈ hs p c, k ∈ hs' p c) ∧
      ((∃ l, w.mounted p old = some l ∧ l.map (fun e => e.node.chan) = chans w (ms m) ∧ ms' = ms ∧ m < w.heads ∧
          m ∈ hs p (mounth old.ident.path) ∧ (w.headOf p old order mem).2 = some (m, mem)) ∨
        (w.mounted p old = none ∧ w.heads ≤ m ∧
          (order = mrepl ∧ (w.headOf p old order mem).2 = some (m, mem) ∨
            order ≠ mrepl ∧ mem = 0 ∧ (w.headOf p old order mem).2 = none ∨
            order ≠ mrepl ∧ chans (w.headOf p old order mem).1 (ms' m) = [old] ∧
              ∃ left, mem = left + 1 ∧ (w.headOf p old order mem).2 = some (m, left)))) := by
  rcases shape.find_cases p old with ⟨u, m, v, split, same, found⟩ | ⟨none, missed⟩
  · have member : m ∈ hs p (mounth old.ident.path) := split ▸ List.mem_append_right u List.mem_cons_self
    have run : w.headOf p old order mem = (w, some (m, mem)) := by
      unfold headOf
      rw [found]
    rw [run]
    refine ⟨m, hs, ms, shape, .refl ?_, Nat.le_refl _, member, same, fun _ _ => rfl, fun _ => rfl,
      fun _ _ here => here, Or.inl ⟨_,
      shape.mounted_eq member same, ?_, rfl, shape.heads member, member, rfl⟩⟩
    · exact fun q other c here => other (shape.apart here member).1
    · rw [List.map_map]
      rfl
  · have added := shape.addHead old below none
    have step := shape.addHead_step old (p := p) (l := (hs p (mounth old.ident.path)).getLast?)
    obtain ⟨fromChan, mount, next, mounts, mountid, live, pgrps, heads, made, ref, _⟩ :=
      setChain_same (w := (w.newmhead old).2) (p := p) (b := mounth old.ident.path)
        (l := (hs p (mounth old.ident.path)).getLast?) (g := some w.heads)
    have self : (w.newmhead old).2.fromChan w.heads = old := Function.update_self _ _ _
    have member : w.heads ∈ setAt hs p (mounth old.ident.path) (hs p (mounth old.ident.path) ++ [w.heads]) p
        (mounth old.ident.path) := by
      rw [setAt_self]
      exact List.mem_append_right _ (List.mem_singleton.mpr rfl)
    have grown : (w.newmhead old).2.heads = w.heads + 1 := rfl
    have run : w.headOf p old order mem =
        let w₁ := (w.newmhead old).2.setChain p (mounth old.ident.path) (hs p (mounth old.ident.path)).getLast?
          (some w.heads)
        if order ≠ mrepl then
          @Nat.casesOn (fun _ => Mounts × Option (Href × Nat)) mem (w₁, Option.none) fun mem =>
            let w₂ := (w₁.newmount w.heads old 0 Option.none).2
            ({ w₂ with mount := Function.update w₂.mount w.heads (some w₁.made) }, some (w.heads, mem))
        else (w₁, some (w.heads, mem)) := by
      unfold headOf
      rw [missed]
      cases mem <;> rfl
    rw [run]
    generalize (w.newmhead old).2.setChain p (mounth old.ident.path) (hs p (mounth old.ident.path)).getLast?
      (some w.heads) = w₁
      at added step fromChan mount next mounts mountid live pgrps heads made ref
    have names : ∀ y < w.made, (w₁.mounts y).chan = (w.mounts y).chan := fun y _ => by rw [mounts]; rfl
    have fresh := shape.mounted_none none
    have keeps : ∀ c, ∀ k ∈ hs p c, k ∈ setAt hs p (mounth old.ident.path) (hs p (mounth old.ident.path) ++ [w.heads]) p c := by
      intro c k here
      by_cases same : c = mounth old.ident.path
      · subst same
        rw [setAt_self]
        exact List.mem_append_left _ here
      · rw [setAt_other fun eq => same eq.2]
        exact here
    have alive : w.heads < w₁.heads := by omega
    have atLeast := Nat.le_of_lt alive
    have from₁ : (w₁.fromChan w.heads).ident = old.ident := by rw [fromChan, self]
    by_cases repl : order = mrepl
    · simp only [repl, ne_eq, not_true_eq_false, if_false]
      exact ⟨w.heads, _, ms, added, step, atLeast, member, from₁, names, fun _ => ref, keeps,
        Or.inr ⟨fresh, Nat.le_refl _, Or.inl ⟨trivial, rfl⟩⟩⟩
    · simp only [ne_eq, repl, not_false_eq_true, if_true]
      cases mem with
      | zero =>
        exact ⟨w.heads, _, ms, added, step, atLeast, member, from₁, names,
          fun wrong => (by cases wrong), keeps, Or.inr ⟨fresh, Nat.le_refl _, Or.inr (Or.inl ⟨trivial, rfl, rfl⟩)⟩⟩
      | succ mem =>
        have grows : Grows w₁.made w₁ (w₁.newmount w.heads old 0 Option.none).2 := newmount_grows (Nat.le_refl _)
        have node : (w₁.newmount w.heads old 0 Option.none).2.mounts w₁.made = ⟨w.heads, old, 0, Option.none⟩ :=
          Function.update_self _ _ _
        have edit : Edit ms w.heads w₁ { (w₁.newmount w.heads old 0 Option.none).2 with
            mount := Function.update (w₁.newmount w.heads old 0 Option.none).2.mount w.heads (some w₁.made) } :=
          ⟨⟨rfl, rfl, rfl, rfl, rfl, Nat.le_succ _⟩, fun k other => Function.update_of_ne other _ _,
            fun k _ y here => ⟨(grows.node y (added.below k y here)).next, (grows.node y (added.below k y here)).live,
              (grows.node y (added.below k y here)).elem⟩⟩
        have relisted := added.relist (l := [w₁.made]) edit alive
          ⟨Function.update_self _ _ _, Function.update_self _ _ _⟩ (by
            intro y here
            cases List.mem_singleton.mp here
            exact ⟨congrArg Mount.head node, Function.update_self _ _ _, Nat.lt_succ_self _⟩)
        refine ⟨w.heads, _, _, relisted, step.trans (edit.step added member) atLeast, atLeast, member,
          from₁, ?_, fun wrong => (by cases wrong), keeps, Or.inr ⟨fresh, Nat.le_refl _, Or.inr (Or.inr
            ⟨trivial, ?_, mem, rfl, rfl⟩)⟩⟩
        · intro y old'
          have same := grows.node y (by rw [made]; exact old')
          exact (congrArg Mount.chan same.mounts).trans (names y old')
        · rw [Function.update_self]
          exact congrArg (fun n : Mount => [n.chan]) node

/-- Where nothing is mounted on `old`, there is memory for the old node, or for
the whole of the list that replaces it. -/
def Fills (w : Mounts) (p : Nat) (new : Chan) (umh : Option Href) (old : Chan) (flag mem : Nat) : Prop :=
  w.refuses new umh old flag = false → w.mounted p old = none →
    if flag &&& morder = mrepl then (umh.elim [] w.listOf).tail.length < mem else 0 < mem

theorem length_tailOf (shape : Shape w hs ms) (umh : Option Href) :
    (umh.elim [] w.listOf).tail.length = (tailOf ms umh).length := by
  cases umh with
  | none => rfl
  | some k => rw [Option.elim_some, shape.listOf_eq, tailOf, List.length_tail, List.length_map, List.length_tail]

theorem cmount_spec (new old : Chan) (flag : Nat) (spec : Option (List UInt8)) (mem : Nat) (shape : Shape w hs ms)
    (below : p < w.pgrps) (known : ∀ k ∈ umh, k < w.heads) :
    ∃ m hs' ms', Shape (w.cmount p new umh old flag spec mem).1 hs' ms' ∧
      Step p m w hs ms (w.cmount p new umh old flag spec mem).1 hs' ms' ∧
      w.heads ≤ (w.cmount p new umh old flag spec mem).1.heads ∧ (∀ c, ∀ k ∈ hs p c, k ∈ hs' p c) ∧
      ((w.cmount p new umh old flag spec mem).2.isSome → m ∈ hs' p (mounth old.ident.path) ∧
        ((w.cmount p new umh old flag spec mem).1.fromChan m).ident = old.ident ∧
        chans (w.cmount p new umh old flag spec mem).1 (ms' m) =
          ordered (flag &&& morder) (new :: chans w (tailOf ms umh))
            (((w.mounted p old).map fun l => l.map fun e => e.node.chan).getD [old]) ∧
        ∃ x ∈ ms' m, (w.cmount p new umh old flag spec mem).2 =
          some ((w.cmount p new umh old flag spec mem).1.mountid x)) ∧
      (flag &&& morder = mrepl → (w.cmount p new umh old flag spec mem).2.isSome →
        (w.cmount p new umh old flag spec mem).2 = some (increfId (w.ref + 1))) ∧
      (w.Fills p new umh old flag mem → (∀ c, ∀ k ∈ hs p c, ms k ≠ []) → ∀ c, ∀ k ∈ hs' p c, ms' k ≠ []) := by
  unfold cmount
  split
  · refine ⟨w.heads, hs, ms, shape, .refl ?_, Nat.le_refl _, fun _ _ here => here,
      fun wrong => (by cases wrong), fun _ wrong => (by cases wrong), fun _ full => full⟩
    exact fun q _ c here => Nat.lt_irrefl _ (shape.heads here)
  · rename_i agrees
    obtain ⟨m, hs₁, ms₁, shape₁, step₁, grown, member, ident, names, ref, keeps, outcome⟩ :=
      headOf_spec (w := w.wlock p) old (flag &&& morder) mem (shape.setNs _) below
    have mounted_same : (w.wlock p).mounted p old = w.mounted p old := rfl
    have sizes : (w.wlock p).heads = w.heads ∧ (w.wlock p).made = w.made := ⟨rfl, rfl⟩
    rw [mounted_same] at outcome
    rw [sizes.1] at grown outcome
    rw [sizes.2] at names
    have step₁ := step₁.ofNs
    rcases ran : (w.wlock p).headOf p old (flag &&& morder) mem with ⟨w₁, result⟩
    simp only [ran] at shape₁ step₁ grown member ident names ref keeps outcome
    have others (c : Fin 32) {k : Href} (here : k ∈ hs₁ p c) (ne : k ≠ m) : k ∈ hs p c ∧ ms₁ k = ms k :=
      ⟨(step₁.heads here).resolve_left ne, step₁.lists ne⟩
    have tails : tailOf ms₁ umh = tailOf ms umh := by
      cases umh with
      | none => rfl
      | some k =>
        rcases outcome with ⟨_, _, _, same, _⟩ | ⟨_, fresh, _⟩
        · rw [same]
        · have ne : k ≠ m := Nat.ne_of_lt (Nat.lt_of_lt_of_le (known k rfl) fresh)
          rw [tailOf, tailOf, step₁.lists ne]
    cases result with
    | none =>
      refine ⟨m, hs₁, ms₁, shape₁, step₁, grown, keeps, fun wrong => (by cases wrong), fun _ wrong => (by cases wrong), ?_⟩
      intro fills full
      rcases outcome with ⟨_, _, _, _, _, _, wrong⟩ | ⟨empty, _, ⟨_, wrong⟩ | ⟨add, zero, _⟩ | ⟨_, _, _, _, wrong⟩⟩
      · cases wrong
      · cases wrong
      · have room := fills (Bool.eq_false_iff.mpr agrees) empty
        rw [if_neg add, zero] at room
        cases room
      · cases wrong
    | some found =>
      obtain ⟨k, left⟩ := found
      have mine : k = m ∧ (left = mem ∨ left + 1 = mem) := by
        rcases outcome with ⟨_, _, _, _, _, _, eq⟩ | ⟨_, _, ⟨_, eq⟩ | ⟨_, _, wrong⟩ | ⟨_, _, _, rfl, eq⟩⟩
        · cases eq
          exact ⟨rfl, Or.inl rfl⟩
        · cases eq
          exact ⟨rfl, Or.inl rfl⟩
        · cases wrong
        · cases eq
          exact ⟨rfl, Or.inr rfl⟩
      obtain ⟨rfl, _⟩ := mine
      obtain ⟨ms₂, shape₂, step₂, heads, result⟩ := mountOn_spec (w := w₁.wunlock p) new umh flag
        spec left (shape₁.setNs _) member
      have names₁ : chans w₁ (tailOf ms₁ umh) = chans w (tailOf ms umh) := by
        rw [tails]
        exact chans_congr fun y here => names y (shape.tailOf_below y here)
      refine ⟨k, hs₁, ms₂, shape₂, step₁.trans step₂.ofNs grown, by rw [heads]; exact grown, keeps, ?_, ?_, ?_⟩
      · intro ok
        rcases result with ⟨wrong, _⟩ | ⟨_, id, ⟨x, listed, mine⟩, list⟩
        · rw [wrong] at ok
          cases ok
        · refine ⟨member, ?_, ?_, x, listed, by rw [id, mine]⟩
          · rw [step₂.fromChan (shape₁.heads member)]
            exact ident
          · rw [list]
            show ordered _ (new :: chans w₁ (tailOf ms₁ umh)) (chans w₁ (ms₁ k)) = _
            rw [names₁]
            rcases outcome with ⟨l, here, listed, same, _⟩ | ⟨none, _, ⟨repl, _⟩ | ⟨_, _, wrong⟩ | ⟨_, single, _⟩⟩
            · rw [here, Option.map_some, Option.getD_some, listed, same]
              exact congrArg _ (chans_congr fun y old' => names y (shape.below k y old'))
            · simp only [ordered, repl, if_true]
            · cases wrong
            · rw [none, single]
              rfl
      · intro repl ok
        rcases result with ⟨wrong, _⟩ | ⟨_, id, _⟩
        · rw [wrong] at ok
          cases ok
        · rw [id]
          exact congrArg (fun n => some (increfId (n + 1))) (ref repl)
      · intro fills full c j here
        by_cases mine : j = k
        · subst mine
          rcases result with ⟨_, short, same⟩ | ⟨_, _, ⟨x, listed, _⟩, _⟩
          · rw [same]
            rcases outcome with ⟨_, _, _, eq, _, old', _⟩ | ⟨none, _, ⟨repl, eq⟩ | ⟨_, _, wrong⟩ | ⟨_, single, _⟩⟩
            · rw [eq]
              exact full _ j old'
            · have room := fills (Bool.eq_false_iff.mpr agrees) none
              rw [if_pos repl, length_tailOf shape, ← tails] at room
              cases eq
              omega
            · cases wrong
            · intro empty
              rw [empty] at single
              cases single
          · exact List.ne_nil_of_mem listed
        · obtain ⟨old', eq⟩ := others c here mine
          rw [step₂.lists mine, eq]
          exact full c j old'

end Mounts

end Inferno.Ns
