import Inferno.Dis.Alt

namespace Inferno.Dis

variable {V : Type} {s s' : Sys V} {p : Pid} {a : Alt} {n : Nat}

namespace Choice

/-- The test `altcomm` makes of an alternative. -/
def ready (s : Sys V) : Choice → Bool
  | .send _ c _ => s.canSend c = some true
  | .recv _ _ c _ => s.canRecv c = some true

/-- The Prog at the other end: the first one waiting in the opposite direction. -/
def partner (s : Sys V) : Choice → Option Pid
  | .send _ c _ => (s.queue .recv c).head?.join
  | .recv _ _ c _ => (s.queue .send c).head?.join

/-- Skip `which` of a list of choices: the next one, or what is left of `which`. -/
def pick : List Choice → Nat → Choice ⊕ Nat
  | [], which => .inr which
  | choice :: _, 0 => .inl choice
  | _ :: choices, which + 1 => pick choices which

theorem pick_append (xs ys : List Choice) (which : Nat) :
    pick (xs ++ ys) which = (pick xs which).elim Sum.inl (pick ys) := by
  induction xs generalizing which with
  | nil => rfl
  | cons x xs ih =>
    cases which with
    | zero => rfl
    | succ which => exact ih which

theorem getLeft?_pick (xs : List Choice) (which : Nat) : (pick xs which).getLeft? = xs[which]? := by
  induction xs generalizing which with
  | nil => rfl
  | cons x xs ih =>
    cases which with
    | zero => rfl
    | succ which =>
      rw [List.getElem?_cons_succ]
      exact ih which

end Choice

/-- The alternatives of a table in the order of `altcomm`, nil channels left out. -/
def sendChoices : List (Option Cid × Addr) → Nat → List Choice
  | [], _ => []
  | (none, _) :: rest, n => sendChoices rest (n + 1)
  | (some c, ptr) :: rest, n => .send n c ptr :: sendChoices rest (n + 1)

def arrayChoices (n : Nat) (ptr : Addr) : List (Option Cid) → Nat → List Choice
  | [], _ => []
  | none :: cs, an => arrayChoices n ptr cs (an + 1)
  | some c :: cs, an => .recv n (some an) c ptr :: arrayChoices n ptr cs (an + 1)

def recvChoices : List (RecvAlt × Addr) → Nat → List Choice
  | [], _ => []
  | (.nil, _) :: rest, n => recvChoices rest (n + 1)
  | (.array cs, ptr) :: rest, n => arrayChoices n ptr cs 0 ++ recvChoices rest (n + 1)
  | (.chan c, ptr) :: rest, n => .recv n none c ptr :: recvChoices rest (n + 1)

def Alt.choices (a : Alt) : List Choice := sendChoices a.send 0 ++ recvChoices a.recv a.send.length

theorem altpickSend_eq {ss : List (Option Cid × Addr)} (present : ∀ x ∈ ss, x.1 ≠ none)
    (safe : ∀ c ∈ ss.filterMap Prod.fst, (s.canSend c).isSome) (n which : Nat) :
    s.altpickSend ss n which = some (Choice.pick ((sendChoices ss n).filter (Choice.ready s)) which) := by
  induction ss generalizing n which with
  | nil => rfl
  | cons x ss ih =>
    obtain ⟨ch, ptr⟩ := x
    cases ch with
    | none => exact absurd rfl (present _ List.mem_cons_self)
    | some c =>
      have rest := ih (fun y member => present y (List.mem_cons_of_mem _ member))
        (fun d member => safe d (List.mem_cons_of_mem _ member))
      obtain ⟨rdy, test⟩ := Option.isSome_iff_exists.mp (safe c List.mem_cons_self)
      cases rdy <;> cases which <;>
        simp [Sys.altpickSend, sendChoices, Choice.ready, Choice.pick, test, rest]

theorem altpickArray_eq {arr : List (Option Cid)} (safe : ∀ c ∈ arr.filterMap id, (s.canRecv c).isSome)
    (n : Nat) (ptr : Addr) (an which : Nat) :
    s.altpickArray n ptr arr an which =
      some (Choice.pick ((arrayChoices n ptr arr an).filter (Choice.ready s)) which) := by
  induction arr generalizing an which with
  | nil => rfl
  | cons ch arr ih =>
    cases ch with
    | none => exact ih safe (an + 1) which
    | some c =>
      have rest := ih fun d member => safe d (List.mem_cons_of_mem _ member)
      obtain ⟨rdy, test⟩ := Option.isSome_iff_exists.mp (safe c List.mem_cons_self)
      cases rdy <;> cases which <;>
        simp [Sys.altpickArray, arrayChoices, Choice.ready, Choice.pick, test, rest]

theorem altpickRecv_eq {rs : List (RecvAlt × Addr)} (present : ∀ r ∈ rs, r.1 ≠ .nil)
    (safe : ∀ c ∈ rs.flatMap fun r => r.1.chans, (s.canRecv c).isSome) (n which : Nat) :
    s.altpickRecv rs n which = some (Choice.pick ((recvChoices rs n).filter (Choice.ready s)) which) := by
  induction rs generalizing n which with
  | nil => rfl
  | cons r rs ih =>
    obtain ⟨kind, ptr⟩ := r
    have rest := ih (fun y member => present y (List.mem_cons_of_mem _ member))
      (fun d member => safe d (List.mem_append_right _ member))
    cases kind with
    | nil => exact absurd rfl (present _ List.mem_cons_self)
    | array arr =>
      have elements := altpickArray_eq (fun c member => safe c (List.mem_append_left _ member)) n ptr 0 which
      rw [Sys.altpickRecv, recvChoices, List.filter_append, Choice.pick_append]
      simp only [Option.bind_eq_bind, elements, Option.bind_some, rest, Option.pure_def]
      cases Choice.pick ((arrayChoices n ptr arr 0).filter (Choice.ready s)) which <;> rfl
    | chan c =>
      obtain ⟨rdy, test⟩ := Option.isSome_iff_exists.mp (safe c (List.mem_append_left _ (List.mem_singleton_self c)))
      cases rdy <;> cases which <;>
        simp [Sys.altpickRecv, recvChoices, Choice.ready, Choice.pick, test, rest]

/-- `altcomm` settles on the alternative number `which` of those that pass its test. -/
theorem altpick_eq (presentSend : ∀ x ∈ a.send, x.1 ≠ none) (presentRecv : ∀ r ∈ a.recv, r.1 ≠ .nil)
    (safeSend : ∀ c ∈ a.sends, (s.canSend c).isSome) (safeRecv : ∀ c ∈ a.recvs, (s.canRecv c).isSome) (which : Nat) :
    s.altpick a which = some (a.choices.filter (Choice.ready s))[which]? := by
  rw [Sys.altpick, altpickSend_eq presentSend safeSend]
  simp only [Option.bind_eq_bind, Option.bind_some]
  rw [Alt.choices, List.filter_append, ← Choice.getLeft?_pick, Choice.pick_append]
  cases Choice.pick ((sendChoices a.send 0).filter (Choice.ready s)) which with
  | inl choice => rfl
  | inr left =>
    simp only [altpickRecv_eq presentRecv safeRecv, Option.bind_some, Option.pure_def, Sum.elim_inr]
    cases Choice.pick ((recvChoices a.recv a.send.length).filter (Choice.ready s)) left <;> rfl

theorem length_ready_sendChoices (s : Sys V) (ss : List (Option Cid × Addr)) (n : Nat) :
    ((sendChoices ss n).filter (Choice.ready s)).length = s.countSend (ss.filterMap Prod.fst) := by
  induction ss generalizing n with
  | nil => rfl
  | cons x ss ih =>
    obtain ⟨ch, ptr⟩ := x
    cases ch with
    | none => exact ih (n + 1)
    | some c =>
      have rest := ih (n + 1)
      rw [Sys.countSend] at rest ⊢
      have cons : ((some c, ptr) :: ss).filterMap Prod.fst = c :: ss.filterMap Prod.fst := rfl
      rw [sendChoices, cons, List.filter_cons, List.countP_cons, ← rest]
      split <;> rename_i test <;> simp only [Choice.ready] at test <;> simp [test]

theorem length_ready_arrayChoices (s : Sys V) (n : Nat) (ptr : Addr) (arr : List (Option Cid)) (an : Nat) :
    ((arrayChoices n ptr arr an).filter (Choice.ready s)).length = s.countRecv (arr.filterMap id) := by
  induction arr generalizing an with
  | nil => rfl
  | cons ch arr ih =>
    cases ch with
    | none => exact ih (an + 1)
    | some c =>
      have rest := ih (an + 1)
      rw [Sys.countRecv] at rest ⊢
      have cons : (some c :: arr).filterMap id = c :: arr.filterMap id := rfl
      rw [arrayChoices, cons, List.filter_cons, List.countP_cons, ← rest]
      split <;> rename_i test <;> simp only [Choice.ready] at test <;> simp [test]

theorem length_ready_recvChoices (s : Sys V) (rs : List (RecvAlt × Addr)) (n : Nat) :
    ((recvChoices rs n).filter (Choice.ready s)).length = s.countRecv (rs.flatMap fun r => r.1.chans) := by
  induction rs generalizing n with
  | nil => rfl
  | cons r rs ih =>
    obtain ⟨kind, ptr⟩ := r
    have rest := ih (n + 1)
    rw [Sys.countRecv] at rest ⊢
    rw [List.flatMap_cons, List.countP_append, ← rest]
    cases kind with
    | nil => simp [recvChoices, RecvAlt.chans]
    | array arr =>
      rw [recvChoices, List.filter_append, List.length_append, length_ready_arrayChoices, Sys.countRecv]
      rfl
    | chan c =>
      rw [recvChoices, List.filter_cons]
      split <;> rename_i test <;> simp only [Choice.ready] at test <;>
        simp [RecvAlt.chans, test, Nat.add_comm]

theorem length_ready_choices (s : Sys V) (a : Alt) :
    (a.choices.filter (Choice.ready s)).length = s.countSend a.sends + s.countRecv a.recvs := by
  rw [Alt.choices, List.filter_append, List.length_append, length_ready_sendChoices, length_ready_recvChoices]
  rfl

/-- Which channel a choice of the table is about, and in which half it stands. -/
def Choice.Of (a : Alt) : Choice → Prop
  | .send _ c _ => c ∈ a.sends
  | .recv _ _ c _ => c ∈ a.recvs

theorem mem_sendChoices {ss : List (Option Cid × Addr)} {n : Nat} {choice : Choice}
    (member : choice ∈ sendChoices ss n) : ∃ m c ptr, choice = .send m c ptr ∧ c ∈ ss.filterMap Prod.fst := by
  induction ss generalizing n with
  | nil => nomatch member
  | cons x ss ih =>
    obtain ⟨ch, ptr⟩ := x
    cases ch with
    | none => exact ih member
    | some c =>
      rcases List.mem_cons.mp member with rfl | later
      · exact ⟨n, c, ptr, rfl, List.mem_cons_self⟩
      · obtain ⟨m, d, q, same, inside⟩ := ih later
        exact ⟨m, d, q, same, List.mem_cons_of_mem _ inside⟩

theorem mem_arrayChoices {arr : List (Option Cid)} {n an : Nat} {ptr : Addr} {choice : Choice} :
    choice ∈ arrayChoices n ptr arr an → ∃ m c, choice = .recv n (some m) c ptr ∧ c ∈ arr.filterMap id := by
  induction arr generalizing an with
  | nil => exact fun member => nomatch member
  | cons ch arr ih =>
    intro member
    cases ch with
    | none => exact ih member
    | some c =>
      rcases List.mem_cons.mp member with rfl | later
      · exact ⟨an, c, rfl, List.mem_cons_self⟩
      · obtain ⟨m, d, same, inside⟩ := ih later
        exact ⟨m, d, same, List.mem_cons_of_mem _ inside⟩

theorem mem_recvChoices {rs : List (RecvAlt × Addr)} {n : Nat} {choice : Choice}
    (member : choice ∈ recvChoices rs n) :
    ∃ m e c ptr, choice = .recv m e c ptr ∧ c ∈ rs.flatMap fun r => r.1.chans := by
  induction rs generalizing n with
  | nil => nomatch member
  | cons r rs ih =>
    obtain ⟨kind, ptr⟩ := r
    have later : choice ∈ recvChoices rs (n + 1) → ∃ m e c ptr, choice = .recv m e c ptr ∧
        c ∈ ((kind, ptr) :: rs).flatMap fun r => r.1.chans := by
      intro inside
      obtain ⟨m, e, c, q, same, found⟩ := ih inside
      exact ⟨m, e, c, q, same, List.mem_append_right _ found⟩
    cases kind with
    | nil => exact later member
    | array arr =>
      rcases List.mem_append.mp member with here | there
      · obtain ⟨m, c, same, found⟩ := mem_arrayChoices here
        exact ⟨n, some m, c, ptr, same, List.mem_append_left _ found⟩
      · exact later there
    | chan c =>
      rcases List.mem_cons.mp member with rfl | there
      · exact ⟨n, none, c, ptr, rfl, List.mem_append_left _ (List.mem_singleton_self c)⟩
      · exact later there

theorem Alt.choices_of {choice : Choice} (member : choice ∈ a.choices) : choice.Of a := by
  rcases List.mem_append.mp member with here | there
  · obtain ⟨m, c, ptr, rfl, inside⟩ := mem_sendChoices here
    exact inside
  · obtain ⟨m, e, c, ptr, rfl, inside⟩ := mem_recvChoices there
    exact inside

theorem exists_arrayChoice {arr : List (Option Cid)} {c : Cid} (inside : c ∈ arr.filterMap id) (n : Nat) (ptr : Addr)
    (an : Nat) : ∃ m, .recv n (some m) c ptr ∈ arrayChoices n ptr arr an := by
  induction arr generalizing an with
  | nil => nomatch inside
  | cons ch arr ih =>
    cases ch with
    | none => exact ih inside (an + 1)
    | some d =>
      rcases List.mem_cons.mp inside with rfl | later
      · exact ⟨an, List.mem_cons_self⟩
      · obtain ⟨m, found⟩ := ih later (an + 1)
        exact ⟨m, List.mem_cons_of_mem _ found⟩

theorem exists_recvChoice {rs : List (RecvAlt × Addr)} {c : Cid}
    (inside : c ∈ rs.flatMap fun r => r.1.chans) (n : Nat) :
    ∃ m e ptr, .recv m e c ptr ∈ recvChoices rs n := by
  induction rs generalizing n with
  | nil => nomatch inside
  | cons r rs ih =>
    obtain ⟨kind, ptr⟩ := r
    rcases List.mem_append.mp inside with here | there
    · cases kind with
      | nil => nomatch here
      | array arr =>
        obtain ⟨m, found⟩ := exists_arrayChoice here n ptr 0
        exact ⟨n, some m, ptr, List.mem_append_left _ found⟩
      | chan d =>
        cases List.mem_singleton.mp here
        exact ⟨n, none, ptr, List.mem_cons_self⟩
    · obtain ⟨m, e, q, found⟩ := ih there (n + 1)
      refine ⟨m, e, q, ?_⟩
      cases kind with
      | nil => exact found
      | array arr => exact List.mem_append_right _ found
      | chan d => exact List.mem_cons_of_mem _ found

/-- The two passes agree: `altcomm` finds an alternative for exactly the choices
below `n`, and the one it communicates on has a partner, or room in the buffer,
other than `p` itself. -/
def AltAgrees (s : Sys V) (a : Alt) (p : Pid) (n : Nat) : Prop :=
  (∀ which, n ≤ which → s.altpick a which = some none) ∧
    ∀ which, which < n → ∃ choice, s.altpick a which = some (some choice) ∧ choice.ready s = true ∧
      choice.partner s ≠ some p

/-- Two unbuffered channels: Prog 2 waits to receive on 0, Prog 3 to send on 1. -/
def twoWaiting : Sys Int where
  chan c := { Channel.cnewc 0 0 none with
    send := if c = 1 then [some 3] else [none]
    recv := if c = 0 then [some 2] else [none] }
  prog p := ⟨if p = 2 then .recv else if p = 3 then .send else .ready, 0, if p = 2 then 0 else 1, ⟨[], []⟩, 0, 0⟩
  runq := [1]
  mem _ := 0

end Inferno.Dis
