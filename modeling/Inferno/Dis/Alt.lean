import Inferno.Dis.Waitq

namespace Inferno.Dis

section Alt

/-- The exceptions an alternation raises. -/
inductive AltExn
  | exNilref | exAlt
deriving DecidableEq

/-- An alternative `altcomm` may settle on: its number, for an array the element,
the channel and the data pointer of the table. -/
inductive Choice
  | send (n : Nat) (c : Cid) (ptr : Addr)
  | recv (n : Nat) (elem : Option Nat) (c : Cid) (ptr : Addr)
deriving DecidableEq

namespace Sys

variable {V : Type}

/-- `c->recv->prog || CANPUT(c)`; `none` is a nil dereference. -/
def canSend (s : Sys V) (c : Cid) : Option Bool := do
  let head ← (s.chan c).recv.head?
  return head.isSome || (s.chan c).canput

/-- `c->send->prog || CANGET(c)`. -/
def canRecv (s : Sys V) (c : Cid) : Option Bool := do
  let head ← (s.chan c).send.head?
  return head.isSome || (s.chan c).canget

/-- `altmark`: count the ready channels of an array and queue `p` to receive on each. -/
def altmark (p : Pid) : List (Option Cid) → Nat → Sys V → Option (Nat × Sys V)
  | [], nrdy, s => some (nrdy, s)
  | none :: cs, nrdy, s => altmark p cs nrdy s
  | some c :: cs, nrdy, s => do
    let rdy ← s.canRecv c
    let q ← cqadd p (s.queue .recv c)
    altmark p cs (if rdy then nrdy + 1 else nrdy) (s.setQueue .recv c q)

/-- The first loop of `altrdy`. -/
def altrdyRecv (p : Pid) : List (RecvAlt × Addr) → Option AltExn → Nat → Sys V →
    Option (Option AltExn × Nat × Sys V)
  | [], e, nrdy, s => some (e, nrdy, s)
  | (.nil, _) :: rest, _, nrdy, s => altrdyRecv p rest (some .exNilref) nrdy s
  | (.array cs, _) :: rest, e, nrdy, s => do
    let (nrdy, s) ← altmark p cs nrdy s
    altrdyRecv p rest e nrdy s
  | (.chan c, _) :: rest, e, nrdy, s => do
    let rdy ← s.canRecv c
    let q ← cqadd p (s.queue .recv c)
    altrdyRecv p rest e (if rdy then nrdy + 1 else nrdy) (s.setQueue .recv c q)

/-- The second loop. A send to a channel at whose receive queue `p` itself is
first is an error, and `p` is not queued there. -/
def altrdySend (p : Pid) : List (Option Cid × Addr) → Option AltExn → Nat → Sys V →
    Option (Option AltExn × Nat × Sys V)
  | [], e, nrdy, s => some (e, nrdy, s)
  | (none, _) :: rest, _, nrdy, s => altrdySend p rest (some .exNilref) nrdy s
  | (some c, _) :: rest, e, nrdy, s => do
    let rdy ← s.canSend c
    if rdy ∧ (s.chan c).recv.head? = some (some p) then altrdySend p rest (some .exAlt) nrdy s
    else
      let q ← cqadd p (s.queue .send c)
      altrdySend p rest e (if rdy then nrdy + 1 else nrdy) (s.setQueue .send c q)

/-- Both loops: what is to be raised, the count, and the state with `p` queued. -/
def altrdyMark (a : Alt) (p : Pid) (s : Sys V) : Option (Option AltExn × Nat × Sys V) := do
  let (e, nrdy, s) ← altrdyRecv p a.recv none 0 s
  altrdySend p a.send e nrdy s

/-- `altrdy`: the number of ready alternatives, or the exception raised after
`p` was taken out of the queues again. -/
def altrdy (a : Alt) (p : Pid) (s : Sys V) : Option ((AltExn ⊕ Nat) × Sys V) := do
  let (e, nrdy, s) ← altrdyMark a p s
  match e with
  | some e => return (.inl e, ← altdone a p none none s)
  | none => return (.inr nrdy, s)

/-- The loop of `altcomm` over the send alternatives from number `n` on: the
one chosen, or how far `which` was counted down. -/
def altpickSend (s : Sys V) : List (Option Cid × Addr) → Nat → Nat → Option (Choice ⊕ Nat)
  | [], _, which => some (.inr which)
  | (none, _) :: _, _, _ => none
  | (some c, ptr) :: rest, n, which => do
    if ← s.canSend c then
      match which with
      | 0 => return .inl (.send n c ptr)
      | which + 1 => altpickSend s rest (n + 1) which
    else altpickSend s rest (n + 1) which

/-- Its loop over the channels of the array alternative `n`. -/
def altpickArray (s : Sys V) (n : Nat) (ptr : Addr) : List (Option Cid) → Nat → Nat → Option (Choice ⊕ Nat)
  | [], _, which => some (.inr which)
  | none :: cs, an, which => altpickArray s n ptr cs (an + 1) which
  | some c :: cs, an, which => do
    if ← s.canRecv c then
      match which with
      | 0 => return .inl (.recv n (some an) c ptr)
      | which + 1 => altpickArray s n ptr cs (an + 1) which
    else altpickArray s n ptr cs (an + 1) which

def altpickRecv (s : Sys V) : List (RecvAlt × Addr) → Nat → Nat → Option (Choice ⊕ Nat)
  | [], _, which => some (.inr which)
  | (.nil, _) :: _, _, _ => none
  | (.array cs, ptr) :: rest, n, which => do
    match ← altpickArray s n ptr cs 0 which with
    | .inl choice => return .inl choice
    | .inr which => altpickRecv s rest (n + 1) which
  | (.chan c, ptr) :: rest, n, which => do
    if ← s.canRecv c then
      match which with
      | 0 => return .inl (.recv n none c ptr)
      | which + 1 => altpickRecv s rest (n + 1) which
    else altpickRecv s rest (n + 1) which

/-- The alternative on which `altcomm(a, which)` communicates, if it finds one. -/
def altpick (a : Alt) (which : Nat) (s : Sys V) : Option (Option Choice) := do
  match ← altpickSend s a.send 0 which with
  | .inl choice => return some choice
  | .inr which =>
    match ← altpickRecv s a.recv a.send.length which with
    | .inl choice => return some choice
    | .inr _ => return none

/-- `altcomm`: one `isend` or `irecv` by `p` on the chosen alternative. -/
def altcomm (a : Alt) (which : Nat) (p : Pid) (s : Sys V) : Option (Sys V) := do
  match ← altpick a which s with
  | none => return s
  | some (.send n c ptr) => (s.setProg p { s.prog p with which := n }).isend p ptr c
  | some (.recv n none c ptr) => (s.setProg p { s.prog p with which := n }).irecv p ptr c
  | some (.recv n (some an) c ptr) =>
    (s.setProg p { s.prog p with which := n, elem := an }).irecv p (ptr + 1) c

/-- `xecalt` by the running Prog, blocking for `alt` and not for `nbalt`. `xrand`
stands for the value the generator gives; the result is the state and what was raised. -/
def xecalt (block : Bool) (xrand : Nat) (a : Alt) (p : Pid) (s : Sys V) : Option (Option AltExn × Sys V) := do
  match ← altrdy a p s with
  | (.inl e, s) => return (some e, s)
  | (.inr 0, s) =>
    if block then
      let s := s.delrun p .alt
      return (none, s.setProg p { s.prog p with alt := a })
    else
      let s := s.setProg p { s.prog p with which := a.send.length + a.recv.length }
      return (none, ← altdone a p none none s)
  | (.inr (nrdy + 1), s) =>
    let s ← altcomm a (xrand % (nrdy + 1)) p s
    return (none, ← altdone a p none none s)

end Sys

end Alt

section AltReady

variable {V : Type} {s s' s'' : Sys V} {p : Pid} {d e : Dir} {c : Cid} {cs cs' : List Cid}

/-- The channels of a receive alternative, and of both halves of a table. -/
def RecvAlt.chans : RecvAlt → List Cid
  | .nil => []
  | .chan c => [c]
  | .array cs => cs.filterMap id

def Alt.sends (a : Alt) : List Cid := a.send.filterMap Prod.fst

def Alt.recvs (a : Alt) : List Cid := a.recv.flatMap fun r => r.1.chans

/-- What the head of each queue becomes when `p` is queued on the channels `cs`:
it keeps its Prog or takes `p`. Nothing else that readiness depends on changes. -/
structure Marked (d : Dir) (cs : List Cid) (p : Pid) (s s' : Sys V) : Prop where
  same : ∀ e c, ¬ (e = d ∧ c ∈ cs) → (s'.queue e c).head? = (s.queue e c).head?
  head : ∀ c ∈ cs, ∃ x, (s.queue d c).head? = some x ∧ (s'.queue d c).head? = some (some (x.getD p))
  canput : ∀ c, (s'.chan c).canput = (s.chan c).canput
  canget : ∀ c, (s'.chan c).canget = (s.chan c).canget

theorem Marked.refl : Marked d [] p s s :=
  ⟨fun _ _ _ => rfl, fun _ member => (nomatch member), fun _ => rfl, fun _ => rfl⟩

theorem Marked.append (first : Marked d cs p s s') (next : Marked d cs' p s' s'') :
    Marked d (cs ++ cs') p s s'' := by
  refine ⟨fun e c outside => ?_, fun c member => ?_, fun c => ?_, fun c => ?_⟩
  · rw [next.same e c fun inside => outside ⟨inside.1, List.mem_append_right _ inside.2⟩,
      first.same e c fun inside => outside ⟨inside.1, List.mem_append_left _ inside.2⟩]
  · by_cases early : c ∈ cs <;> by_cases late : c ∈ cs'
    · obtain ⟨x, before, after⟩ := first.head c early
      obtain ⟨y, between, last⟩ := next.head c late
      cases after.symm.trans between
      exact ⟨x, before, last⟩
    · obtain ⟨x, before, after⟩ := first.head c early
      exact ⟨x, before, (next.same d c fun inside => late inside.2).trans after⟩
    · obtain ⟨y, between, last⟩ := next.head c late
      exact ⟨y, (first.same d c fun inside => early inside.2).symm.trans between, last⟩
    · exact absurd (List.mem_append.mp member) (by simp [early, late])
  · rw [next.canput, first.canput]
  · rw [next.canget, first.canget]

theorem cqadd_head {q q' : Progq} (added : cqadd p q = some q') :
    ∃ x, q.head? = some x ∧ q'.head? = some (some (x.getD p)) := by
  match q with
  | [] => nomatch added
  | none :: q =>
    cases added
    exact ⟨none, rfl, rfl⟩
  | some f :: q =>
    cases added
    exact ⟨some f, rfl, rfl⟩

/-- Queueing on one channel. -/
theorem Marked.single {q : Progq} (added : cqadd p (s.queue d c) = some q) :
    Marked d [c] p s (s.setQueue d c q) := by
  refine ⟨fun e c' outside => ?_, fun c' member => ?_, fun c' => ?_, fun c' => ?_⟩
  · rw [Sys.queue_setQueue, if_neg fun here => outside ⟨here.1, List.mem_singleton.mpr here.2⟩]
  · cases List.mem_singleton.mp member
    obtain ⟨x, before, after⟩ := cqadd_head added
    exact ⟨x, before, by rw [Sys.queue_setQueue, if_pos ⟨rfl, rfl⟩, after]⟩
  · by_cases here : c' = c
    · subst here
      simp [Sys.setQueue, Sys.setChan, Channel.canput]
    · simp [Sys.setQueue, Sys.setChan, here]
  · by_cases here : c' = c
    · subst here
      simp [Sys.setQueue, Sys.setChan, Channel.canget]
    · simp [Sys.setQueue, Sys.setChan, here]

/-- Queueing to receive does not change what can be received. -/
theorem Marked.canRecv (marked : Marked .recv cs p s s') (c : Cid) : s'.canRecv c = s.canRecv c := by
  have head : (s'.chan c).send.head? = (s.chan c).send.head? := marked.same .send c (by simp)
  rw [Sys.canRecv, Sys.canRecv, head, marked.canget]

theorem Marked.canSend (marked : Marked .send cs p s s') (c : Cid) : s'.canSend c = s.canSend c := by
  have head : (s'.chan c).recv.head? = (s.chan c).recv.head? := marked.same .recv c (by simp)
  rw [Sys.canSend, Sys.canSend, head, marked.canput]

/-- The number of channels in a list on which a receive is ready. -/
def Sys.countRecv (s : Sys V) (cs : List Cid) : Nat := cs.countP fun c => s.canRecv c = some true

def Sys.countSend (s : Sys V) (cs : List Cid) : Nat := cs.countP fun c => s.canSend c = some true

theorem Marked.countRecv (marked : Marked .recv cs p s s') (cs' : List Cid) :
    s'.countRecv cs' = s.countRecv cs' := by
  simp only [Sys.countRecv, marked.canRecv]

theorem Marked.countSend (marked : Marked .send cs p s s') (cs' : List Cid) :
    s'.countSend cs' = s.countSend cs' := by
  simp only [Sys.countSend, marked.canSend]

theorem Sys.countRecv_cons {rdy : Bool} (test : s.canRecv c = some rdy) (cs : List Cid) (n : Nat) :
    (if rdy then n + 1 else n) + s.countRecv cs = n + s.countRecv (c :: cs) := by
  rw [Sys.countRecv, Sys.countRecv, List.countP_cons, test]
  cases rdy <;> simp <;> omega

theorem Sys.countSend_cons {rdy : Bool} (test : s.canSend c = some rdy) (cs : List Cid) (n : Nat) :
    (if rdy then n + 1 else n) + s.countSend cs = n + s.countSend (c :: cs) := by
  rw [Sys.countSend, Sys.countSend, List.countP_cons, test]
  cases rdy <;> simp <;> omega

/-- The test was made on the first channel and stays possible on the others. -/
theorem Marked.safe_cons {rdy : Bool} (marked : Marked .recv [c] p s s') (test : s.canRecv c = some rdy)
    (safe : ∀ c' ∈ cs, (s'.canRecv c').isSome) : ∀ c' ∈ c :: cs, (s.canRecv c').isSome := by
  intro c' member
  rcases List.mem_cons.mp member with rfl | later
  · rw [test]
    rfl
  · rw [← marked.canRecv]
    exact safe c' later

theorem altmark_spec {arr : List (Option Cid)} {nrdy n : Nat} (ran : s.altmark p arr nrdy = some (n, s')) :
    Marked .recv (arr.filterMap id) p s s' ∧ n = nrdy + s.countRecv (arr.filterMap id) ∧
      ∀ c ∈ arr.filterMap id, (s.canRecv c).isSome := by
  induction arr generalizing s nrdy with
  | nil =>
    cases ran
    exact ⟨Marked.refl, rfl, fun _ member => (nomatch member)⟩
  | cons ch arr ih =>
    cases ch with
    | none => exact ih ran
    | some c =>
      simp only [Sys.altmark, Option.bind_eq_bind, Option.bind_eq_some_iff] at ran
      obtain ⟨rdy, test, q, added, rest⟩ := ran
      obtain ⟨marked, count, safe⟩ := ih rest
      have first : Marked .recv [c] p s _ := Marked.single added
      refine ⟨first.append marked, ?_, first.safe_cons test safe⟩
      rw [count, first.countRecv, Sys.countRecv_cons test]
      rfl

theorem altrdyRecv_spec {rs : List (RecvAlt × Addr)} {x e' : Option AltExn} {nrdy n : Nat}
    (ran : s.altrdyRecv p rs x nrdy = some (e', n, s')) :
    Marked .recv (rs.flatMap fun r => r.1.chans) p s s' ∧
      n = nrdy + s.countRecv (rs.flatMap fun r => r.1.chans) ∧
      (∀ c ∈ rs.flatMap fun r => r.1.chans, (s.canRecv c).isSome) ∧
      (e' = none → x = none ∧ ∀ r ∈ rs, r.1 ≠ .nil) := by
  induction rs generalizing s x nrdy with
  | nil =>
    cases ran
    exact ⟨Marked.refl, rfl, fun _ member => (nomatch member), fun clean => ⟨clean, fun _ member => (nomatch member)⟩⟩
  | cons r rs ih =>
    obtain ⟨kind, ptr⟩ := r
    cases kind with
    | nil =>
      obtain ⟨marked, count, safe, clean⟩ := ih ran
      exact ⟨marked, count, safe, fun none => nomatch (clean none).1⟩
    | array arr =>
      simp only [Sys.altrdyRecv, Option.bind_eq_bind, Option.bind_eq_some_iff] at ran
      obtain ⟨⟨m, mid⟩, marking, rest⟩ := ran
      obtain ⟨first, counted, safeFirst⟩ := altmark_spec marking
      obtain ⟨marked, count, safe, clean⟩ := ih rest
      refine ⟨first.append marked, ?_, fun c member => ?_, fun none => ⟨(clean none).1, fun r member => ?_⟩⟩
      · rw [count, first.countRecv, counted, Nat.add_assoc, List.flatMap_cons, Sys.countRecv, Sys.countRecv,
          Sys.countRecv, List.countP_append]
        rfl
      · rcases List.mem_append.mp member with early | late
        · exact safeFirst c early
        · rw [← first.canRecv]
          exact safe c late
      · rcases List.mem_cons.mp member with rfl | later
        · exact RecvAlt.noConfusion
        · exact (clean none).2 r later
    | chan c =>
      simp only [Sys.altrdyRecv, Option.bind_eq_bind, Option.bind_eq_some_iff] at ran
      obtain ⟨rdy, test, q, added, rest⟩ := ran
      obtain ⟨marked, count, safe, clean⟩ := ih rest
      have first : Marked .recv [c] p s _ := Marked.single added
      refine ⟨first.append marked, ?_, first.safe_cons test safe, fun none => ⟨(clean none).1, fun r member => ?_⟩⟩
      · rw [count, first.countRecv, Sys.countRecv_cons test]
        rfl
      · rcases List.mem_cons.mp member with rfl | later
        · exact RecvAlt.noConfusion
        · exact (clean none).2 r later

theorem altrdySend_spec {ss : List (Option Cid × Addr)} {x : Option AltExn} {nrdy n : Nat}
    (ran : s.altrdySend p ss x nrdy = some (none, n, s')) :
    x = none ∧ Marked .send (ss.filterMap Prod.fst) p s s' ∧
      n = nrdy + s.countSend (ss.filterMap Prod.fst) ∧ (∀ a ∈ ss, a.1 ≠ none) ∧
      ∀ c ∈ ss.filterMap Prod.fst, (s.canSend c).isSome ∧ (s.queue .recv c).head? ≠ some (some p) := by
  induction ss generalizing s x nrdy with
  | nil =>
    cases ran
    exact ⟨rfl, Marked.refl, rfl, fun _ member => (nomatch member), fun _ member => (nomatch member)⟩
  | cons a ss ih =>
    obtain ⟨ch, ptr⟩ := a
    cases ch with
    | none => exact nomatch (ih ran).1
    | some c =>
      simp only [Sys.altrdySend, Option.bind_eq_bind, Option.bind_eq_some_iff] at ran
      obtain ⟨rdy, test, rest⟩ := ran
      split at rest
      · exact nomatch (ih rest).1
      · rename_i allowed
        obtain ⟨q, added, rest⟩ := Option.bind_eq_some_iff.mp rest
        obtain ⟨clean, marked, count, present, notFirst⟩ := ih rest
        have first : Marked .send [c] p s _ := Marked.single added
        refine ⟨clean, first.append marked, ?_, fun a member => ?_, fun c' member => ?_⟩
        · rw [count, first.countSend, Sys.countSend_cons test]
          rfl
        · rcases List.mem_cons.mp member with rfl | later
          · exact Option.some_ne_none c
          · exact present a later
        · rcases List.mem_cons.mp member with rfl | later
          · -- with `p` first in the receive queue the alternative counts as ready
            refine ⟨by rw [test]; rfl, fun head => ?_⟩
            have head' : (s.chan c').recv.head? = some (some p) := head
            have ready : s.canSend c' = some true := by simp [Sys.canSend, head']
            cases test.symm.trans ready
            exact allowed ⟨rfl, head'⟩
          · rw [← first.same .recv c' (by simp), ← first.canSend]
            exact notFirst c' later

/-- What a successful `altrdy` leaves, by way of the state between its two loops. -/
theorem altrdy_spec {a : Alt} {n : Nat} (ran : s.altrdy a p = some (.inr n, s'')) :
    ∃ s', Marked .recv a.recvs p s s' ∧ Marked .send a.sends p s' s'' ∧
      n = s.countRecv a.recvs + s'.countSend a.sends ∧ (∀ r ∈ a.recv, r.1 ≠ .nil) ∧ (∀ x ∈ a.send, x.1 ≠ none) ∧
      (∀ c ∈ a.recvs, (s.canRecv c).isSome) ∧
      ∀ c ∈ a.sends, (s'.canSend c).isSome ∧ (s'.queue .recv c).head? ≠ some (some p) := by
  simp only [Sys.altrdy, Sys.altrdyMark, Option.bind_eq_bind, Option.bind_eq_some_iff] at ran
  obtain ⟨⟨e₂, n₂, s₂⟩, ⟨⟨e₁, n₁, s₁⟩, receives, sends⟩, last⟩ := ran
  cases e₂ with
  | some e =>
    obtain ⟨_, _, same⟩ := Option.bind_eq_some_iff.mp last
    cases same
  | none =>
    cases last
    obtain ⟨clean, marked, count, present, notFirst⟩ := altrdySend_spec sends
    subst clean
    obtain ⟨markedRecv, countRecv, safe, cleanRecv⟩ := altrdyRecv_spec receives
    refine ⟨s₁, markedRecv, marked, ?_, (cleanRecv rfl).2, present, safe, notFirst⟩
    rw [count, countRecv, Nat.zero_add]
    rfl

end AltReady

end Inferno.Dis
