import Inferno.Ns.CopyMount

namespace Inferno.Ns

open Lib

/-- What `pgrpcpy` into `dst` has left as it was in `w₀`. -/
structure Kept (w₀ : Mounts) (hs₀ : Nat → Fin 32 → List Href) (ms₀ : Href → List Mref) (dst : Nat) (w : Mounts)
    (hs : Nat → Fin 32 → List Href) (ms : Href → List Mref) : Prop where
  shape : Shape w hs ms
  others : ∀ q, q ≠ dst → hs q = hs₀ q
  lists : ∀ k < w₀.heads, ms k = ms₀ k
  newer : ∀ k, w₀.heads ≤ k → ∀ x ∈ ms k, w₀.made ≤ x
  fromChan : ∀ k < w₀.heads, w.fromChan k = w₀.fromChan k
  node : ∀ x < w₀.made, SameNode w₀ w x
  pgrps : w.pgrps = w₀.pgrps
  heads : w₀.heads ≤ w.heads
  made : w₀.made ≤ w.made

/-- `k` is a copy of the head `f`. -/
def Mirror (w₀ : Mounts) (ms₀ : Href → List Mref) (w : Mounts) (ms : Href → List Mref) (ps : List (Mref × Mref))
    (f k : Href) : Prop :=
  w.fromChan k = w₀.fromChan f ∧ List.Forall₂ (fun x c => (x, c) ∈ ps) (ms₀ f) (ms k)

/-- The heads that were there are as they were. -/
structure Later (w : Mounts) (ms : Href → List Mref) (ps : List (Mref × Mref)) (w' : Mounts) (ms' : Href → List Mref)
    (ps' : List (Mref × Mref)) : Prop where
  lists : ∀ k < w.heads, ms' k = ms k
  fromChan : ∀ k < w.heads, w'.fromChan k = w.fromChan k
  heads : w.heads ≤ w'.heads
  pairs : ∀ q ∈ ps, q ∈ ps'

variable {w₀ w w' w'' : Mounts} {hs₀ hs : Nat → Fin 32 → List Href} {ms₀ ms ms' ms'' : Href → List Mref} {mh f k : Href}
  {dst src base n mem : Nat} {i : Fin 32} {first link um : Option Mref} {ps ps' ps'' : List (Mref × Mref)}
  {us : List Mref}

theorem Later.refl : Later w ms ps w ms ps := ⟨fun _ _ => rfl, fun _ _ => rfl, Nat.le_refl _, fun _ here => here⟩

theorem Later.trans (one : Later w ms ps w' ms' ps') (two : Later w' ms' ps' w'' ms'' ps'') :
    Later w ms ps w'' ms'' ps'' where
  lists := fun k old => (two.lists k (Nat.lt_of_lt_of_le old one.heads)).trans (one.lists k old)
  fromChan := fun k old => (two.fromChan k (Nat.lt_of_lt_of_le old one.heads)).trans (one.fromChan k old)
  heads := Nat.le_trans one.heads two.heads
  pairs := fun q here => two.pairs q (one.pairs q here)

theorem Mirror.later (mirror : Mirror w₀ ms₀ w ms ps f k) (later : Later w ms ps w' ms' ps') (old : k < w.heads) :
    Mirror w₀ ms₀ w' ms' ps' f k := by
  refine ⟨(later.fromChan k old).trans mirror.1, ?_⟩
  rw [later.lists k old]
  exact mirror.2.imp fun _ _ here => later.pairs _ here

namespace Mounts

/-- The rest of a list is copied behind what `mh` has. -/
theorem copyMounts_spec (mem : Nat) (shape : Shape w hs ms) (alive : mh < w.heads) (last : (ms mh).getLast? = link)
    (newer : ∀ y ∈ ms mh, base ≤ y) (below : base ≤ w.made) (rest : Path w.next um us) (old : ∀ y ∈ us, y < base)
    (length : us.length ≤ n) (paired : Paired w first ps base) (fresh : ∀ y ∈ us, y ∉ ps.map Prod.fst) :
    ∃ cs, Shape (copyMounts mh n ⟨w, first, mem⟩ link um).1.w hs (Function.update ms mh (ms mh ++ cs)) ∧
      Edit ms mh w (copyMounts mh n ⟨w, first, mem⟩ link um).1.w ∧
      (∀ y < base, SameNode w (copyMounts mh n ⟨w, first, mem⟩ link um).1.w y) ∧ (∀ y ∈ cs, base ≤ y) ∧
      (us.length ≤ mem → (copyMounts mh n ⟨w, first, mem⟩ link um).2 = true ∧
        (copyMounts mh n ⟨w, first, mem⟩ link um).1.mem + us.length = mem) ∧
      ((copyMounts mh n ⟨w, first, mem⟩ link um).2 = true → cs.length = us.length ∧
        Paired (copyMounts mh n ⟨w, first, mem⟩ link um).1.w (copyMounts mh n ⟨w, first, mem⟩ link um).1.first
          (ps ++ us.zip cs) base) := by
  induction us generalizing w ms link um first ps n mem with
  | nil =>
    cases rest
    have same : copyMounts mh n ⟨w, first, mem⟩ link none = (⟨w, first, mem⟩, true) := by cases n <;> rfl
    rw [same]
    refine ⟨[], ?_, .refl, fun y _ => .refl y, fun _ here => (nomatch here), fun _ => ⟨rfl, rfl⟩, fun _ => ⟨rfl, ?_⟩⟩
    · rw [List.append_nil, Function.update_eq_self]
      exact shape
    · rw [List.zip_nil_left, List.append_nil]
      exact paired
  | cons x us ih =>
    have nodup := rest.nodup
    obtain ⟨rfl, rest⟩ := rest
    obtain ⟨n, rfl⟩ := Nat.exists_eq_succ_of_ne_zero (Nat.ne_of_gt (Nat.zero_lt_of_lt length))
    cases mem with
    | zero =>
      have same : copyMounts mh (n + 1) ⟨w, first, 0⟩ link (some x) = (⟨w, first, 0⟩, false) := rfl
      rw [same]
      refine ⟨[], ?_, .refl, fun y _ => .refl y, fun _ here => (nomatch here), fun wrong => (nomatch wrong),
        fun wrong => (nomatch wrong)⟩
      rw [List.append_nil, Function.update_eq_self]
      exact shape
    | succ mem =>
      obtain ⟨edit, shape₁, same, made, paired₁⟩ := copyMount_spec shape alive last newer below
        (old x List.mem_cons_self) paired (fresh x List.mem_cons_self)
      have step : copyMounts mh (n + 1) ⟨w, first, mem + 1⟩ link (some x) =
          copyMounts mh n ⟨(w.copyMount mh first link x).1, (w.copyMount mh first link x).2, mem⟩ (some w.made)
            ((w.copyMount mh first link x).1.next x) := rfl
      rw [step]
      generalize w.copyMount mh first link x = copied at edit shape₁ same made paired₁
      obtain ⟨w₁, first₁⟩ := copied
      dsimp only at edit shape₁ same made paired₁ ⊢
      have self : Function.update ms mh (ms mh ++ [w.made]) mh = ms mh ++ [w.made] := Function.update_self _ _ _
      have last₁ : (Function.update ms mh (ms mh ++ [w.made]) mh).getLast? = some w.made := by
        rw [self]
        exact List.getLast?_concat
      have newer₁ : ∀ y ∈ Function.update ms mh (ms mh ++ [w.made]) mh, base ≤ y := by
        intro y here
        rw [self] at here
        rcases List.mem_append.mp here with before | new
        · exact newer y before
        · rw [List.mem_singleton.mp new]
          exact below
      have old' : ∀ y ∈ us, y < base := fun y here => old y (List.mem_cons_of_mem x here)
      have rest₁ : Path w₁.next (w₁.next x) us := by
        rw [(same x (old x List.mem_cons_self)).next]
        exact rest.congr fun y here => (same y (old' y here)).next
      have fresh₁ : ∀ y ∈ us, y ∉ (ps ++ [(x, w.made)]).map Prod.fst := by
        intro y here there
        rw [List.map_append] at there
        rcases List.mem_append.mp there with before | new
        · exact fresh y (List.mem_cons_of_mem x here) before
        · have eq : y = x := List.mem_singleton.mp new
          exact (List.nodup_cons.mp nodup).1 (eq ▸ here)
      obtain ⟨cs, shape₂, edit₂, same₂, news, enough, done⟩ := ih mem shape₁ (by rw [edit.heads]; exact alive) last₁
        newer₁ (by omega) rest₁ old' (Nat.le_of_succ_le_succ length) paired₁ fresh₁
      rw [self, Function.update_idem, List.append_assoc, List.singleton_append] at shape₂
      refine ⟨w.made :: cs, shape₂, ?_, fun y small => (same y small).trans (same₂ y small), ?_, ?_, ?_⟩
      · exact edit.trans (edit₂.congr fun k other => Function.update_of_ne other _ _)
      · intro y here
        rcases List.mem_cons.mp here with rfl | later
        · exact below
        · exact news y later
      · intro fits
        obtain ⟨ok, left⟩ := enough (Nat.le_of_succ_le_succ fits)
        exact ⟨ok, congrArg Nat.succ left⟩
      · intro ok
        obtain ⟨equal, paired₂⟩ := done ok
        refine ⟨by rw [List.length_cons, List.length_cons, equal], ?_⟩
        rw [List.append_assoc, List.singleton_append] at paired₂
        exact paired₂

end Mounts

theorem forall₂_zip {xs cs : List Mref} (length : cs.length = xs.length) :
    List.Forall₂ (fun x c => (x, c) ∈ ps ++ xs.zip cs) xs cs := by
  refine List.forall₂_iff_get.mpr ⟨length.symm, fun j left right => List.mem_append_right _ ?_⟩
  have bound : j < (xs.zip cs).length := by
    rw [List.length_zip]
    exact Nat.lt_min.mpr ⟨left, right⟩
  have at_ := List.getElem_zip (h := bound)
  exact List.mem_of_getElem (h := bound) at_

theorem exists_of_forall₂ {α β : Type} {R : α → β → Prop} {xs : List α} {ys : List β} {y : β}
    (all : List.Forall₂ R xs ys) (here : y ∈ ys) : ∃ x ∈ xs, R x y := by
  induction all with
  | nil => nomatch here
  | cons first _ ih =>
    rcases List.mem_cons.mp here with rfl | later
    · exact ⟨_, List.mem_cons_self, first⟩
    · obtain ⟨x, member, related⟩ := ih later
      exact ⟨x, List.mem_cons_of_mem _ member, related⟩

theorem forall₂_imp {α β : Type} {R S : α → β → Prop} {xs : List α} {ys : List β} (all : List.Forall₂ R xs ys)
    (imp : ∀ x y, y ∈ ys → R x y → S x y) : List.Forall₂ S xs ys := by
  induction all with
  | nil => exact .nil
  | cons first _ ih =>
    exact .cons (imp _ _ List.mem_cons_self first) (ih fun x y here => imp x y (List.mem_cons_of_mem _ here))

/-- The number of allocations for the copy of some heads. -/
def cost (ms₀ : Href → List Mref) (fs : List Href) : Nat := (fs.map fun f => 1 + (ms₀ f).length).sum

theorem cost_cons (f : Href) (fs : List Href) : cost ms₀ (f :: fs) = 1 + (ms₀ f).length + cost ms₀ fs := by
  rw [cost, List.map_cons, List.sum_cons]
  rfl

/-- The originals so far are nodes of the heads in `done`. -/
def Covered (ms₀ : Href → List Mref) (ps : List (Mref × Mref)) (done : List Href) : Prop :=
  ∀ x c, (x, c) ∈ ps → ∃ g ∈ done, x ∈ ms₀ g

theorem Paired.congr (paired : Paired w first ps base) (copy : w'.copy = w.copy) (mounts : w'.mounts = w.mounts)
    (made : w'.made = w.made) (order : w'.order = w.order) (mountid : w'.mountid = w.mountid) :
    Paired w' first ps base := by
  refine ⟨?_, ?_, ?_, paired.once, ?_⟩
  · rw [copy]
    exact paired.copy
  · rw [mounts]
    exact paired.node
  · rw [made]
    exact paired.bounds
  · rw [order, mountid]
    exact paired.order

namespace Kept

/-- The head of the copy is linked to the chain. -/
theorem addHead (kept : Kept w₀ hs₀ ms₀ dst w hs ms) (below : dst < w₀.pgrps) (bucket : mounth (w.fromChan f).ident.path = i)
    (none : ∀ k ∈ hs dst i, (w.fromChan k).ident ≠ (w.fromChan f).ident) :
    Kept w₀ hs₀ ms₀ dst ((w.newmhead (w.fromChan f)).2.setChain dst i (hs dst i).getLast? (some w.heads))
        (setAt hs dst i (hs dst i ++ [w.heads])) ms ∧
      ((w.newmhead (w.fromChan f)).2.setChain dst i (hs dst i).getLast? (some w.heads)).fromChan w.heads = w.fromChan f ∧
      ∀ k < w.heads, ((w.newmhead (w.fromChan f)).2.setChain dst i (hs dst i).getLast? (some w.heads)).fromChan k =
        w.fromChan k := by
  have shape := kept.shape.addHead (p := dst) (w.fromChan f) (by rw [kept.pgrps]; exact below)
    (by rw [bucket]; exact none)
  rw [bucket] at shape
  obtain ⟨fromChan, _, next, mounts, mountid, live, pgrps, heads, made, _⟩ := Mounts.setChain_same
    (w := (w.newmhead (w.fromChan f)).2) (p := dst) (b := i) (l := (hs dst i).getLast?) (g := some w.heads)
  have others {k : Href} (old : k < w.heads) : ((w.newmhead (w.fromChan f)).2.setChain dst i (hs dst i).getLast?
      (some w.heads)).fromChan k = w.fromChan k := by
    rw [fromChan]
    exact Function.update_of_ne (Nat.ne_of_lt old) _ _
  refine ⟨⟨shape, ?_, kept.lists, kept.newer, ?_, ?_, pgrps.trans kept.pgrps, ?_, ?_⟩, ?_, fun k old => others old⟩
  · intro q other
    exact (Function.update_of_ne other _ _).trans (kept.others q other)
  · intro k old
    rw [others (Nat.lt_of_lt_of_le old kept.heads), kept.fromChan k old]
  · intro x old
    refine (kept.node x old).trans ⟨by rw [next]; rfl, by rw [live]; rfl, ?_⟩
    simp only [Mounts.elem, mounts, mountid]
    rfl
  · rw [heads]
    exact Nat.le_succ_of_le kept.heads
  · rw [made]
    exact kept.made
  · rw [fromChan]
    exact Function.update_self _ _ _

/-- Only the list of a head of the copy has changed. -/
theorem relist (kept : Kept w₀ hs₀ ms₀ dst w hs ms) (new : w₀.heads ≤ mh) {l : List Mref}
    (shape : Shape w' hs (Function.update ms mh l)) (edit : Edit ms mh w w') (same : ∀ y < w₀.made, SameNode w w' y)
    (newer : ∀ y ∈ l, w₀.made ≤ y) : Kept w₀ hs₀ ms₀ dst w' hs (Function.update ms mh l) where
  shape := shape
  others := kept.others
  lists := fun k old => by
    rw [Function.update_of_ne (Nat.ne_of_lt (Nat.lt_of_lt_of_le old new))]
    exact kept.lists k old
  newer := fun k large x here => by
    by_cases mine : k = mh
    · subst mine
      rw [Function.update_self] at here
      exact newer x here
    · rw [Function.update_of_ne mine] at here
      exact kept.newer k large x here
  fromChan := fun k old => by
    rw [edit.fromChan]
    exact kept.fromChan k old
  node := fun x old => (kept.node x old).trans (same x old)
  pgrps := edit.pgrps.trans kept.pgrps
  heads := by
    rw [edit.heads]
    exact kept.heads
  made := Nat.le_trans kept.made edit.made

end Kept

namespace Mounts

/-- The rest of a chain is copied behind what the bucket of `dst` has. -/
theorem copyHeads_spec (mem : Nat) (shape₀ : Shape w₀ hs₀ ms₀) (other : src ≠ dst) (below : dst < w₀.pgrps) {pre fs D : List Href}
    {l um : Option Href} (kept : Kept w₀ hs₀ ms₀ dst w hs ms) (paired : Paired w first ps w₀.made)
    (covered : Covered ms₀ ps D) (split : hs₀ src i = pre ++ fs) (rest : Path w.hash um fs)
    (last : (hs dst i).getLast? = l) (mirrored : List.Forall₂ (Mirror w₀ ms₀ w ms ps) pre (hs dst i))
    (new : ∀ f ∈ fs, f ∉ D) (length : fs.length ≤ n) :
    ∃ hs' ms' ps', Kept w₀ hs₀ ms₀ dst (copyHeads dst i n ⟨w, first, mem⟩ l um).1.w hs' ms' ∧
      (∀ j, j ≠ i → hs' dst j = hs dst j) ∧
      (cost ms₀ fs ≤ mem → (copyHeads dst i n ⟨w, first, mem⟩ l um).2 = true ∧
        (copyHeads dst i n ⟨w, first, mem⟩ l um).1.mem + cost ms₀ fs = mem) ∧
      ((copyHeads dst i n ⟨w, first, mem⟩ l um).2 = true →
        Paired (copyHeads dst i n ⟨w, first, mem⟩ l um).1.w (copyHeads dst i n ⟨w, first, mem⟩ l um).1.first ps' w₀.made ∧
        Covered ms₀ ps' (D ++ fs) ∧ Later w ms ps (copyHeads dst i n ⟨w, first, mem⟩ l um).1.w ms' ps' ∧
        List.Forall₂ (Mirror w₀ ms₀ (copyHeads dst i n ⟨w, first, mem⟩ l um).1.w ms' ps') (hs₀ src i) (hs' dst i)) := by
  induction fs generalizing w hs ms ps D pre l um first n mem with
  | nil =>
    cases rest
    have same : copyHeads dst i n ⟨w, first, mem⟩ l none = (⟨w, first, mem⟩, true) := by cases n <;> rfl
    rw [same]
    rw [List.append_nil] at split
    refine ⟨hs, ms, ps, kept, fun _ _ => rfl, fun _ => ⟨rfl, rfl⟩, fun _ => ⟨paired, ?_, .refl, split ▸ mirrored⟩⟩
    rw [List.append_nil]
    exact covered
  | cons f fs ih =>
    obtain ⟨n, rfl⟩ := Nat.exists_eq_succ_of_ne_zero (Nat.ne_of_gt (Nat.zero_lt_of_lt length))
    obtain ⟨rfl, rest⟩ := rest
    cases mem with
    | zero =>
      have same : copyHeads dst i (n + 1) ⟨w, first, 0⟩ l (some f) = (⟨w, first, 0⟩, false) := rfl
      rw [same]
      refine ⟨hs, ms, ps, kept, fun _ _ => rfl, fun fits => ?_, fun wrong => (by cases wrong)⟩
      rw [cost_cons] at fits
      omega
    | succ mem =>
      subst last
      have member : f ∈ hs₀ src i := split ▸ List.mem_append_right pre List.mem_cons_self
      have nodup := (shape₀.chain src i).nodup
      rw [split] at nodup
      have fOld := shape₀.heads member
      have bucket : mounth (w.fromChan f).ident.path = i := by
        rw [kept.fromChan f fOld]
        exact shape₀.bucket member
      have none : ∀ k ∈ hs dst i, (w.fromChan k).ident ≠ (w.fromChan f).ident := by
        intro k here same
        obtain ⟨g, before, mirror⟩ := exists_of_forall₂ mirrored here
        rw [mirror.1, kept.fromChan f fOld] at same
        have eq := shape₀.once (split ▸ List.mem_append_left _ before) member same
        exact (List.nodup_append.mp nodup).2.2 g before f List.mem_cons_self eq
      obtain ⟨kept₁, self, olds⟩ := kept.addHead below bucket none
      obtain ⟨_, _, _, mounts, mountid, _, _, heads, made, _, copy, order⟩ := setChain_same
        (w := (w.newmhead (w.fromChan f)).2) (p := dst) (b := i) (l := (hs dst i).getLast?) (g := some w.heads)
      have paired₁ := paired.congr copy mounts made order mountid
      rw [copyHeads]
      generalize (w.newmhead (w.fromChan f)).2.setChain dst i (hs dst i).getLast? (some w.heads) = w₁
        at kept₁ self olds heads paired₁
      have alive : w.heads < w₁.heads := heads ▸ Nat.lt_succ_self _
      have nil : ms w.heads = [] := kept.shape.fresh (Nat.le_refl _)
      have noLast : (ms w.heads).getLast? = Option.none := by
        rw [nil]
        rfl
      have fresh : ∀ y ∈ ms f, y ∉ ps.map Prod.fst := by
        intro y here there
        obtain ⟨⟨x, c⟩, pair, rfl⟩ := List.mem_map.mp there
        obtain ⟨g, before, owns⟩ := covered x c pair
        rw [kept.lists f fOld] at here
        exact new f List.mem_cons_self (shape₀.owner owns here ▸ before)
      have oldNodes : ∀ y ∈ ms f, y < w₀.made := by
        rw [kept.lists f fOld]
        exact shape₀.below f
      obtain ⟨cs, shape₂, edit, same, news, enough, done⟩ := copyMounts_spec mem
        kept₁.shape alive noLast (by rw [nil]; exact fun _ here => (by cases here)) kept₁.made
        (kept₁.shape.list f) oldNodes (kept₁.shape.list_length f) paired₁ fresh
      rw [nil, List.nil_append] at shape₂
      generalize copyMounts w.heads w₁.made ⟨w₁, first, mem⟩ Option.none (w₁.mount f) = r
        at shape₂ edit same enough done ⊢
      obtain ⟨⟨w₂, first₂, mem₂⟩, ok⟩ := r
      dsimp only at shape₂ edit same enough done ⊢
      rw [kept.lists f fOld] at enough
      have kept₂ := kept₁.relist kept.heads shape₂ edit same news
      have chains : ∀ j, j ≠ i → setAt hs dst i (hs dst i ++ [w.heads]) dst j = hs dst j :=
        fun j ne => setAt_other fun eq => ne eq.2
      cases ok with
      | false =>
        refine ⟨_, _, ps, kept₂, chains, fun fits => ?_, fun wrong => (by cases wrong)⟩
        rw [cost_cons] at fits
        cases (enough (by omega)).1
      | true =>
        obtain ⟨equal, paired₂⟩ := done rfl
        have later : Later w ms ps w₂ (Function.update ms w.heads cs) (ps ++ (ms f).zip cs) := by
          refine ⟨fun k old => Function.update_of_ne (Nat.ne_of_lt old) _ _, ?_, ?_, fun q here =>
            List.mem_append_left _ here⟩
          · intro k old
            rw [edit.fromChan]
            exact olds k old
          · rw [edit.heads]
            exact Nat.le_of_lt alive
        have mine : Mirror w₀ ms₀ w₂ (Function.update ms w.heads cs) (ps ++ (ms f).zip cs) f w.heads := by
          refine ⟨?_, ?_⟩
          · rw [edit.fromChan, self, kept.fromChan f fOld]
          · rw [Function.update_self, ← kept.lists f fOld]
            exact forall₂_zip equal
        have mirrored₂ : List.Forall₂ (Mirror w₀ ms₀ w₂ (Function.update ms w.heads cs) (ps ++ (ms f).zip cs))
            (pre ++ [f]) (setAt hs dst i (hs dst i ++ [w.heads]) dst i) := by
          rw [setAt_self]
          refine List.rel_append ?_ (List.Forall₂.cons mine .nil)
          exact forall₂_imp mirrored fun g k here mirror => mirror.later later (kept.shape.heads here)
        have covered₂ : Covered ms₀ (ps ++ (ms f).zip cs) (D ++ [f]) := by
          intro x c here
          rcases List.mem_append.mp here with before | zipped
          · obtain ⟨g, member, owns⟩ := covered x c before
            exact ⟨g, List.mem_append_left _ member, owns⟩
          · have owns := (List.of_mem_zip zipped).1
            rw [kept.lists f fOld] at owns
            exact ⟨f, List.mem_append_right _ (List.mem_singleton.mpr rfl), owns⟩
        have split₂ : hs₀ src i = pre ++ [f] ++ fs := by
          rw [split, List.append_assoc, List.singleton_append]
        have rest₂ : Path w₂.hash (w₂.hash f) fs := by
          have chain := kept₂.shape.chain src i
          rw [kept₂.others src other, split] at chain
          exact chain.drop.2
        have last₂ : (setAt hs dst i (hs dst i ++ [w.heads]) dst i).getLast? = some w.heads := by
          rw [setAt_self]
          exact List.getLast?_concat
        have new₂ : ∀ g ∈ fs, g ∉ D ++ [f] := by
          intro g here there
          rcases List.mem_append.mp there with before | single
          · exact new g (List.mem_cons_of_mem f here) before
          · have tail := (List.nodup_cons.mp (List.nodup_append.mp nodup).2.1).1
            exact tail (List.mem_singleton.mp single ▸ here)
        obtain ⟨hs', ms', ps', kept₃, others₃, enough₃, result⟩ := ih mem₂ kept₂ paired₂ covered₂ split₂ rest₂
          last₂ mirrored₂ new₂ (Nat.le_of_succ_le_succ length)
        refine ⟨hs', ms', ps', kept₃, fun j ne => (others₃ j ne).trans (chains j ne), fun fits => ?_, fun ok => ?_⟩
        · rw [cost_cons] at fits ⊢
          have left : mem₂ + (ms₀ f).length = mem := (enough (by omega)).2
          obtain ⟨ok, spare⟩ := enough₃ (by omega)
          refine ⟨ok, ?_⟩
          show (copyHeads dst i n ⟨w₂, first₂, mem₂⟩ (some w.heads) (w₂.hash f)).1.mem + _ = _
          omega
        obtain ⟨paired₃, covered₃, later₃, mirrored₃⟩ := result ok
        rw [List.append_assoc, List.singleton_append] at covered₃
        exact ⟨paired₃, covered₃, later.trans later₃, mirrored₃⟩

end Mounts

end Inferno.Ns
