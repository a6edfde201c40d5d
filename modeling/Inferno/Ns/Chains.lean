import Inferno.Ns.MountsInv

namespace Inferno.Ns

open Lib

/-- The chains with that of bucket `b` of `p` replaced. -/
def setAt (hs : Nat → Fin 32 → List Href) (p : Nat) (b : Fin 32) (xs : List Href) : Nat → Fin 32 → List Href :=
  Function.update hs p (Function.update (hs p) b xs)

variable {w w' : Mounts} {hs : Nat → Fin 32 → List Href} {ms : Href → List Mref} {m : Href} {p : Nat} {b : Fin 32}
  {xs u v ys : List Href} {l g : Option Href}

theorem setAt_self : setAt hs p b xs p b = xs := by
  rw [setAt, Function.update_self, Function.update_self]

theorem setAt_other {q : Nat} {c : Fin 32} (other : ¬(q = p ∧ c = b)) : setAt hs p b xs q c = hs q c := by
  unfold setAt
  by_cases here : q = p
  · subst here
    rw [Function.update_self, Function.update_of_ne fun same => other ⟨rfl, same⟩]
  · rw [Function.update_of_ne here]

theorem mem_setAt {q : Nat} {c : Fin 32} {k : Href} (here : k ∈ setAt hs p b xs q c) :
    (q = p ∧ c = b) ∧ k ∈ xs ∨ ¬(q = p ∧ c = b) ∧ k ∈ hs q c := by
  by_cases same : q = p ∧ c = b
  · obtain ⟨rfl, rfl⟩ := same
    rw [setAt_self] at here
    exact Or.inl ⟨⟨rfl, rfl⟩, here⟩
  · rw [setAt_other same] at here
    exact Or.inr ⟨same, here⟩

namespace Mounts

theorem setChain_hash : (w.setChain p b l g).hash = (Path.setLink w.hash (w.mnthash p b) l g).1 := by
  cases l <;> rfl

theorem setChain_mnthash_self :
    (w.setChain p b l g).mnthash p b = (Path.setLink w.hash (w.mnthash p b) l g).2 := by
  cases l with
  | none => simp only [setChain, Path.setLink, Function.update_self]
  | some t => rfl

theorem setChain_mnthash_other {q : Nat} {c : Fin 32} (other : ¬(q = p ∧ c = b)) :
    (w.setChain p b l g).mnthash q c = w.mnthash q c := by
  cases l with
  | none =>
    unfold setChain
    by_cases here : q = p
    · subst here
      simp only [Function.update_self, Function.update_of_ne fun same => other ⟨rfl, same⟩]
    · simp only [Function.update_of_ne here]
  | some t => rfl

/-- Nothing but links of chains changes. -/
theorem setChain_same : (w.setChain p b l g).fromChan = w.fromChan ∧ (w.setChain p b l g).mount = w.mount ∧
    (w.setChain p b l g).next = w.next ∧ (w.setChain p b l g).mounts = w.mounts ∧
    (w.setChain p b l g).mountid = w.mountid ∧ (w.setChain p b l g).live = w.live ∧
    (w.setChain p b l g).pgrps = w.pgrps ∧ (w.setChain p b l g).heads = w.heads ∧
    (w.setChain p b l g).made = w.made ∧ (w.setChain p b l g).ref = w.ref ∧ (w.setChain p b l g).copy = w.copy ∧
    (w.setChain p b l g).order = w.order := by
  cases l <;> exact ⟨rfl, rfl, rfl, rfl, rfl, rfl, rfl, rfl, rfl, rfl, rfl, rfl⟩

end Mounts

namespace Shape

/-- The end of a chain is replaced. -/
theorem rechain (shape : Shape w hs ms) (below : p < w.pgrps) (split : hs p b = u ++ v) (before : u.getLast? = l)
    (other : Path w.hash g ys) (apart : ∀ x ∈ u, x ∉ ys)
    (member : ∀ k ∈ ys, k < w.heads ∧ mounth (w.fromChan k).ident.path = b ∧ ∀ q c, k ∈ hs q c → q = p ∧ c = b)
    (once : ∀ k ∈ u ++ ys, ∀ j ∈ u ++ ys, (w.fromChan k).ident = (w.fromChan j).ident → k = j) :
    Shape (w.setChain p b l g) (setAt hs p b (u ++ ys)) ms := by
  obtain ⟨fromChan, mount, next, mounts, _, live, pgrps, heads, made, _⟩ :=
    Mounts.setChain_same (w := w) (p := p) (b := b) (l := l) (g := g)
  have old {k : Href} (here : k ∈ u) : k ∈ hs p b := split ▸ List.mem_append_left v here
  have whole := shape.chain p b
  rw [split] at whole
  have home {k : Href} (here : k ∈ u ++ ys) : k < w.heads ∧ mounth (w.fromChan k).ident.path = b ∧
      ∀ q c, k ∈ hs q c → q = p ∧ c = b := by
    rcases List.mem_append.mp here with left | right
    · exact ⟨shape.heads (old left), shape.bucket (old left), fun q c there => shape.apart there (old left)⟩
    · exact member k right
  refine ⟨?_, ?_, ?_, ?_, ?_, ?_, ?_, ?_, ?_, ?_⟩
  · intro q c
    by_cases same : q = p ∧ c = b
    · obtain ⟨rfl, rfl⟩ := same
      rw [setAt_self, Mounts.setChain_hash, Mounts.setChain_mnthash_self]
      exact whole.replace before other apart
    · rw [setAt_other same, Mounts.setChain_mnthash_other same, Mounts.setChain_hash]
      refine (shape.chain q c).congr fun x here => ?_
      cases l with
      | none => rfl
      | some t =>
        have ne : x ≠ t := fun eq => same (shape.apart here (old (eq ▸ List.mem_of_getLast? before)))
        exact Function.update_of_ne ne _ _
  · intro k
    rw [next, mount]
    exact shape.list k
  · intro k q q' c c' here there
    rcases mem_setAt here with ⟨⟨rfl, rfl⟩, new⟩ | ⟨notHere, kept⟩
    · rcases mem_setAt there with ⟨⟨rfl, rfl⟩, _⟩ | ⟨notThere, kept'⟩
      · exact ⟨rfl, rfl⟩
      · exact absurd ((home new).2.2 _ _ kept') notThere
    · rcases mem_setAt there with ⟨⟨rfl, rfl⟩, new⟩ | ⟨_, kept'⟩
      · exact absurd ((home new).2.2 _ _ kept) notHere
      · exact shape.apart kept kept'
  · intro k x here
    rw [mounts]
    exact shape.head here
  · intro k x here
    rw [live, made]
    exact shape.live here
  · intro k q c here
    rw [heads]
    rcases mem_setAt here with ⟨_, new⟩ | ⟨_, kept⟩
    · exact (home new).1
    · exact shape.heads kept
  · intro k new
    exact shape.fresh (heads ▸ new)
  · intro q new c
    rw [pgrps] at new
    have other : ¬(q = p ∧ c = b) := fun same => Nat.not_le_of_lt below (same.1 ▸ new)
    rw [setAt_other other]
    exact shape.pgrps new c
  · intro k q c here
    rw [fromChan]
    rcases mem_setAt here with ⟨⟨_, rfl⟩, new⟩ | ⟨_, kept⟩
    · exact (home new).2.1
    · exact shape.bucket kept
  · intro k j q c here there
    rw [fromChan]
    rcases mem_setAt here with ⟨same, new⟩ | ⟨notHere, kept⟩
    · rcases mem_setAt there with ⟨_, new'⟩ | ⟨notHere, _⟩
      · exact once k new j new'
      · exact absurd same notHere
    · rcases mem_setAt there with ⟨same, _⟩ | ⟨_, kept'⟩
      · exact absurd same notHere
      · exact shape.once kept kept'

/-- A head that is in no chain yet. -/
theorem newmhead (shape : Shape w hs ms) (old : Chan) : Shape (w.newmhead old).2 hs ms := by
  have ne {k : Href} {q : Nat} {c : Fin 32} (here : k ∈ hs q c) : k ≠ w.heads := Nat.ne_of_lt (shape.heads here)
  have empty : ms w.heads = [] := shape.fresh (Nat.le_refl _)
  refine ⟨?_, ?_, shape.apart, shape.head, shape.live, ?_, ?_, shape.pgrps, ?_, ?_⟩
  · intro q c
    exact (shape.chain q c).congr fun x here => Function.update_of_ne (ne here) _ _
  · intro k
    by_cases new : k = w.heads
    · subst new
      rw [empty]
      exact Function.update_self _ _ _
    · have kept : (w.newmhead old).2.mount k = w.mount k := Function.update_of_ne new _ _
      rw [kept]
      exact shape.list k
  · exact fun here => Nat.lt_succ_of_lt (shape.heads here)
  · exact fun new => shape.fresh (Nat.le_of_succ_le new)
  · intro k q c here
    have kept : (w.newmhead old).2.fromChan k = w.fromChan k := Function.update_of_ne (ne here) _ _
    rw [kept]
    exact shape.bucket here
  · intro k j q c here there
    have kept : (w.newmhead old).2.fromChan k = w.fromChan k := Function.update_of_ne (ne here) _ _
    have kept' : (w.newmhead old).2.fromChan j = w.fromChan j := Function.update_of_ne (ne there) _ _
    rw [kept, kept']
    exact shape.once here there

/-- A new head at the end of its chain. -/
theorem addHead (shape : Shape w hs ms) (old : Chan) (below : p < w.pgrps)
    (none : ∀ k ∈ hs p (mounth old.ident.path), (w.fromChan k).ident ≠ old.ident) :
    Shape ((w.newmhead old).2.setChain p (mounth old.ident.path) (hs p (mounth old.ident.path)).getLast? (some w.heads))
        (setAt hs p (mounth old.ident.path) (hs p (mounth old.ident.path) ++ [w.heads])) ms := by
  have made := shape.newmhead old
  have self : (w.newmhead old).2.fromChan w.heads = old := Function.update_self _ _ _
  have kept {k : Href} (here : k ∈ hs p (mounth old.ident.path)) : (w.newmhead old).2.fromChan k = w.fromChan k :=
    Function.update_of_ne (Nat.ne_of_lt (shape.heads here)) _ _
  have fresh {q : Nat} {c : Fin 32} (here : w.heads ∈ hs q c) : False := Nat.lt_irrefl _ (shape.heads here)
  have single : Path (w.newmhead old).2.hash (some w.heads) [w.heads] := ⟨rfl, Function.update_self _ _ _⟩
  refine made.rechain (v := []) below (List.append_nil _).symm rfl single ?_ ?_ ?_
  · intro x here again
    exact fresh (List.mem_singleton.mp again ▸ here)
  · intro k new
    cases List.mem_singleton.mp new
    exact ⟨Nat.lt_succ_self _, by rw [self], fun q c here => (fresh here).elim⟩
  · intro k here j there same
    rcases List.mem_append.mp here with left | right
    · rcases List.mem_append.mp there with left' | right'
      · rw [kept left, kept left'] at same
        exact shape.once left left' same
      · cases List.mem_singleton.mp right'
        rw [kept left, self] at same
        exact absurd same (none k left)
    · cases List.mem_singleton.mp right
      rcases List.mem_append.mp there with left' | right'
      · rw [kept left', self] at same
        exact absurd same.symm (none j left')
      · exact (List.mem_singleton.mp right').symm

theorem addHead_step (shape : Shape w hs ms) (old : Chan) {l : Option Href} :
    Step p w.heads w hs ms ((w.newmhead old).2.setChain p (mounth old.ident.path) l (some w.heads))
      (setAt hs p (mounth old.ident.path) (hs p (mounth old.ident.path) ++ [w.heads])) ms := by
  obtain ⟨fromChan, _, _, mounts, mountid, _, pgrps, _⟩ := Mounts.setChain_same (w := (w.newmhead old).2) (p := p)
    (b := mounth old.ident.path) (l := l) (g := some w.heads)
  refine ⟨?_, ?_, ?_, fun _ => rfl, ?_, ?_, pgrps⟩
  · intro q other
    exact Function.update_of_ne other _ _
  · intro q _ c here
    exact Nat.lt_irrefl _ (shape.heads here)
  · intro c k here
    rcases mem_setAt here with ⟨⟨_, rfl⟩, new⟩ | ⟨_, kept⟩
    · rcases List.mem_append.mp new with left | right
      · exact Or.inr left
      · exact Or.inl (List.mem_singleton.mp right)
    · exact Or.inr kept
  · intro k old'
    rw [fromChan]
    exact Function.update_of_ne (Nat.ne_of_lt old') _ _
  · intro k _ x _
    simp only [Mounts.elem, mounts, mountid]
    rfl

/-- A head is taken out of its chain. -/
theorem dropHead (shape : Shape w hs ms) (split : hs p b = u ++ m :: v) (before : u.getLast? = l) :
    Shape (w.setChain p b l (w.hash m)) (setAt hs p b (u ++ v)) ms := by
  have member : m ∈ hs p b := split ▸ List.mem_append_right u List.mem_cons_self
  have below : p < w.pgrps := by
    rcases Nat.lt_or_ge p w.pgrps with lt | ge
    · exact lt
    · have none := shape.pgrps ge b
      rw [none] at member
      nomatch member
  have whole := shape.chain p b
  rw [split] at whole
  have nodup := whole.nodup
  have inChain {k : Href} (here : k ∈ u ++ v) : k ∈ hs p b := by
    rw [split]
    rcases List.mem_append.mp here with left | right
    · exact List.mem_append_left _ left
    · exact List.mem_append_right _ (List.mem_cons_of_mem m right)
  refine shape.rechain below split before whole.drop.2 ?_ ?_ ?_
  · intro x left right
    exact (List.nodup_append.mp nodup).2.2 x left x (List.mem_cons_of_mem m right) rfl
  · intro k right
    have here := inChain (List.mem_append_right u right)
    exact ⟨shape.heads here, shape.bucket here, fun q c there => shape.apart there here⟩
  · exact fun k here j there => shape.once (inChain here) (inChain there)

theorem dropHead_step (shape : Shape w hs ms) (split : hs p b = u ++ m :: v) :
    Step p m w hs ms (w.setChain p b l (w.hash m)) (setAt hs p b (u ++ v)) ms := by
  have member : m ∈ hs p b := split ▸ List.mem_append_right u List.mem_cons_self
  obtain ⟨fromChan, _, _, mounts, mountid, _, pgrps, _⟩ := Mounts.setChain_same (w := w) (p := p) (b := b) (l := l)
    (g := w.hash m)
  refine ⟨?_, ?_, ?_, fun _ => rfl, ?_, ?_, pgrps⟩
  · intro q other
    exact Function.update_of_ne other _ _
  · intro q other c here
    exact other (shape.apart here member).1
  · intro c k here
    rcases mem_setAt here with ⟨⟨_, rfl⟩, new⟩ | ⟨_, kept⟩
    · rw [split]
      rcases List.mem_append.mp new with left | right
      · exact Or.inr (List.mem_append_left _ left)
      · exact Or.inr (List.mem_append_right _ (List.mem_cons_of_mem m right))
    · exact Or.inr kept
  · intro k _
    rw [fromChan]
  · intro k _ x _
    simp only [Mounts.elem, mounts, mountid]

/-- What the search for a head finds. -/
theorem find_cases (shape : Shape w hs ms) (p : Nat) (c : Chan) :
    (∃ u m v, hs p (mounth c.ident.path) = u ++ m :: v ∧ (w.fromChan m).ident = c.ident ∧
      w.find p c = (u.getLast?, some m)) ∨
    ((∀ k ∈ hs p (mounth c.ident.path), (w.fromChan k).ident ≠ c.ident) ∧
      w.find p c = ((hs p (mounth c.ident.path)).getLast?, none)) := by
  rcases (shape.chain p (mounth c.ident.path)).search_cases (fun m => eqchan (w.fromChan m) c)
    (shape.chain_length p _) with ⟨u, m, v, split, _, same, found⟩ | ⟨none, missed⟩
  · exact Or.inl ⟨u, m, v, split, of_decide_eq_true same, found⟩
  · exact Or.inr ⟨fun k here => of_decide_eq_false (none k here), missed⟩

end Shape

end Inferno.Ns
