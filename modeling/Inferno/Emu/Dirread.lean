import Inferno.Lib9.Stat

namespace Inferno.Emu.Dirread

open Lib9 Styx Strings

/-- A directory entry that has an encoding: the count of `convD2M` takes 16 bits. -/
structure Entry where
  dir : Dir
  small : statfixlen + dir.total < 65538

/-- What `gen` does with one index: 0, 1 with an entry, or an error that it raises. -/
inductive Gen where
  | skip
  | entry (e : Entry)
  | error

/-- A member of a union: whether `cclone` and `open` succeed, and what its `gen` does with each index until -1.
Where `mount->to` is nil there is no channel. -/
structure Member where
  hasTo : Bool
  clones : Bool
  opens : Bool
  tab : List Gen

/-- The channel of a member. -/
structure Umc where
  offset : Nat
  dri : Nat

/-- `Chan`: a directory, a union of directories with `umh`. -/
structure Chan where
  umh : Option (List Member)
  tab : List Gen
  offset : Nat
  dri : Nat
  uri : Nat
  umc : Option Umc

/-- The loop of `devdirread`, with `d` stored so far and the rest of the table from `dri` on; `none` for an error. -/
def dirloop (n : Nat) (d : List UInt8) : List Gen → Nat → Option (List UInt8) × Nat
  | tab, dri =>
    if d.length < n then
      match tab with
      | [] => (some d, dri)
      | .skip :: rest => dirloop n d rest (dri + 1)
      | .error :: _ => (none, dri)
      | .entry e :: rest =>
        let r := convD2M e.dir (n - d.length)
        if r.1 ≤ bit16sz then (if d.length = 0 then none else some d, dri) else dirloop n (d ++ r.2) rest (dri + 1)
    else (some d, dri)

/-- `devdirread`: the bytes read, and `dri` then. -/
def devdirread (n : Nat) (tab : List Gen) (dri : Nat) : Option (List UInt8) × Nat := dirloop n [] (tab.drop dri) dri

/-- A member of the union is read: the bytes, none for an error, and its channel then. -/
def Member.read (n : Nat) (m : Member) (umc : Option Umc) : List UInt8 × Option Umc :=
  if !m.hasTo then ([], umc)
  else
    match umc, m.clones, m.opens with
    | none, false, _ => ([], none)
    | none, true, false => ([], some ⟨0, 0⟩)
    | none, true, true =>
      let r := devdirread n m.tab 0
      (r.1.getD [], some ⟨(r.1.getD []).length, r.2⟩)
    | some c, _, _ =>
      let r := devdirread n m.tab c.dri
      (r.1.getD [], some ⟨c.offset + (r.1.getD []).length, r.2⟩)

/-- The loop of `unionread`, from the member `uri` on. -/
def unionloop (n : Nat) : List Member → Nat → Option Umc → List UInt8 × Nat × Option Umc
  | [], uri, umc => ([], uri, umc)
  | m :: rest, uri, umc =>
    let r := m.read n umc
    if r.1.length > 0 then (r.1, uri, r.2) else unionloop n rest (uri + 1) none

def unionread (n : Nat) (ms : List Member) (c : Chan) : List UInt8 × Chan :=
  let r := unionloop n (ms.drop c.uri) c.uri c.umc
  (r.1, { c with uri := r.2.1, umc := r.2.2 })

/-- What `rread` does first at offset 0. -/
def Chan.rewind (c : Chan) : Chan := if c.offset = 0 then { c with offset := 0, dri := 0, uri := 0, umc := none } else c

/-- `rread` of a directory with a count, at the offset of the channel; `none` for -1. -/
def rread (n : Nat) (c : Chan) : Option (List UInt8) × Chan :=
  match c.umh with
  | some ms => let r := unionread n ms c; (some r.1, r.2)
  | none =>
    let c := c.rewind
    let r := devdirread n c.tab c.dri
    match r.1 with
    | none => (none, { c with dri := r.2 })
    | some d => (some d, { c with dri := r.2, offset := c.offset + d.length })

/-- A channel as `open` leaves it. -/
def opened (umh : Option (List Member)) (tab : List Gen) : Chan := ⟨umh, tab, 0, 0, 0, none⟩

/-- The channel after `k` reads of the given sizes. -/
def after (sizes : Nat → Nat) (c : Chan) : Nat → Chan
  | 0 => c
  | k + 1 => (rread (sizes k) (after sizes c k)).2

def result (sizes : Nat → Nat) (c : Chan) (k : Nat) : Option (List UInt8) := (rread (sizes k) (after sizes c k)).1

/-- The entries of a table, up to an error. -/
def entries : List Gen → List Entry
  | [] => []
  | .skip :: rest => entries rest
  | .entry e :: rest => e :: entries rest
  | .error :: _ => []

def Gen.fine : Gen → Bool
  | .error => false
  | _ => true

def Gen.Fine (g : Gen) : Prop := g.fine = true

def Member.Opens (m : Member) : Prop := m.hasTo = true ∧ m.clones = true ∧ m.opens = true

def Member.Readable (m : Member) : Prop := m.Opens ∧ ∀ g ∈ m.tab, g.Fine

/-- The bytes that `convD2M` stores for an entry. -/
def encode (e : Entry) : List UInt8 := e.dir.encoding

def encodeAll (l : List Entry) : List UInt8 := l.flatMap encode

/-- The directories of a channel. -/
def Chan.members (c : Chan) : List Member := c.umh.getD [⟨true, true, true, c.tab⟩]

/-- What reads give of a member, each one a list of whole entries. -/
def Delivered (m : Member) (reads : List (List Entry)) : Prop :=
  (∀ part ∈ reads, part ≠ []) ∧ (m.Readable → reads.flatten = entries m.tab) ∧
    (m.Opens → reads.flatten <+: entries m.tab) ∧ (¬m.Opens → reads = [])

/-- The reads of these sizes give these parts one after another, and then none. -/
def Gives (sizes : Nat → Nat) (c : Chan) (parts : List (List Entry)) : Prop :=
  (∀ k (h : k < parts.length), result sizes c k = some (encodeAll parts[k])) ∧
    result sizes c parts.length = some []

variable {n k : Nat} {e : Entry} {d : List UInt8} {u v tab : List Gen} {m : Member} {ms : List Member}
  {umc : Option Umc} {c : Chan} {part : List Entry} {sizes : Nat → Nat}

def Entry.size (e : Entry) : Nat := statfixlen + e.dir.total

theorem Entry.size_pos (e : Entry) : bit16sz < e.size := by
  unfold Entry.size
  have fix : statfixlen = 49 := rfl
  simp only [bit16sz]
  omega

theorem convD2M_short (short : n < e.size) : (convD2M e.dir n).1 ≤ bit16sz := by
  have size : u32 ((statfixlen + e.dir.total : Nat) : Int) = statfixlen + e.dir.total :=
    u32_nat (lt_trans e.small (by omega))
  unfold convD2M
  dsimp only
  rw [ss_eq e.small, size]
  split
  · exact Nat.zero_le _
  · rw [if_pos (show statfixlen + e.dir.total > n from short)]

theorem encode_eq (e : Entry) : encode e = e.dir.bytes := encoding_eq e.small

theorem convD2M_fits (fits : e.size ≤ n) : convD2M e.dir n = (e.size, encode e) := by
  rw [encode_eq, convD2M_eq e.small fits]
  rfl

theorem length_encode (e : Entry) : (encode e).length = e.size := by rw [encode_eq, length_bytes, Entry.size]

theorem encode_ne_nil (e : Entry) : encode e ≠ [] := fun none => by
  have length := length_encode e
  rw [none] at length
  exact Nat.not_lt_zero _ (length ▸ e.size_pos)

theorem encodeAll_cons (e : Entry) (part : List Entry) : encodeAll (e :: part) = encode e ++ encodeAll part := rfl

theorem encodeAll_ne_nil (some_ : part ≠ []) : encodeAll part ≠ [] := by
  cases part with
  | nil => exact absurd rfl some_
  | cons e part => exact List.append_ne_nil_of_left_ne_nil (encode_ne_nil e) _

theorem entries_append (fine : ∀ g ∈ u, g.Fine) (v : List Gen) : entries (u ++ v) = entries u ++ entries v := by
  induction u with
  | nil => rfl
  | cons g u ih =>
    have rest := ih fun g here => fine g (List.mem_cons_of_mem _ here)
    cases g with
    | skip => exact rest
    | entry e => exact congrArg (e :: ·) rest
    | error => exact nomatch fine .error List.mem_cons_self

/-- One read of a directory takes the entries of an initial part of the rest of its table, some of them if there are
any, or finds an error. -/
theorem dirloop_spec (fits : ∀ e ∈ entries tab, e.size ≤ n) (within : d.length ≤ n) (dri : Nat) :
    (∃ u v, tab = u ++ v ∧ (∀ g ∈ u, g.Fine) ∧
        dirloop n d tab dri = (some (d ++ encodeAll (entries u)), dri + u.length) ∧
        (entries u = [] → d = [] → entries v = [])) ∨
      (dirloop n d tab dri).1 = none ∧ ¬∀ g ∈ tab, g.Fine := by
  induction tab generalizing d dri with
  | nil =>
    refine Or.inl ⟨[], [], rfl, fun g here => (nomatch here), ?_, fun _ _ => rfl⟩
    unfold dirloop
    rw [entries, encodeAll, List.flatMap_nil, List.append_nil]
    exact ite_self _
  | cons g tab ih =>
    by_cases room : d.length < n
    · cases g with
      | skip =>
        have run : dirloop n d (.skip :: tab) dri = dirloop n d tab (dri + 1) := by rw [dirloop, if_pos room]
        rw [run]
        rcases ih fits within (dri + 1) with ⟨u, v, rfl, fine, same, left⟩ | ⟨none, flaw⟩
        · refine Or.inl ⟨.skip :: u, v, rfl, List.forall_mem_cons.mpr ⟨rfl, fine⟩, ?_, left⟩
          rw [same, entries, List.length_cons, Nat.add_right_comm, Nat.add_assoc]
        · exact Or.inr ⟨none, fun fine => flaw (List.forall_mem_cons.mp fine).2⟩
      | error =>
        refine Or.inr ⟨?_, fun fine => nomatch fine .error List.mem_cons_self⟩
        rw [dirloop, if_pos room]
      | entry e =>
        have fitsE : e.size ≤ n := fits e List.mem_cons_self
        by_cases more : e.size ≤ n - d.length
        · have run : dirloop n d (.entry e :: tab) dri = dirloop n (d ++ encode e) tab (dri + 1) := by
            rw [dirloop, if_pos room]
            dsimp only
            rw [convD2M_fits more, if_neg (not_le.mpr e.size_pos)]
          rw [run]
          have within' : (d ++ encode e).length ≤ n := by
            rw [List.length_append, length_encode]
            omega
          rcases ih (fun e here => fits e (List.mem_cons_of_mem _ here)) within' (dri + 1) with
            ⟨u, v, rfl, fine, same, -⟩ | ⟨none, flaw⟩
          · refine Or.inl ⟨.entry e :: u, v, rfl, List.forall_mem_cons.mpr ⟨rfl, fine⟩, ?_, fun none => nomatch none⟩
            rw [same, entries, encodeAll_cons, List.length_cons, List.append_assoc, Nat.add_right_comm, Nat.add_assoc]
          · exact Or.inr ⟨none, fun fine => flaw (List.forall_mem_cons.mp fine).2⟩
        · have some_ : ¬d.length = 0 := fun none => more (by omega)
          refine Or.inl ⟨[], .entry e :: tab, rfl, fun g here => (nomatch here), ?_,
            fun _ none => absurd (none ▸ rfl) some_⟩
          rw [dirloop, if_pos room]
          dsimp only
          rw [if_pos (convD2M_short (not_le.mp more)), if_neg some_, entries, encodeAll, List.flatMap_nil,
            List.append_nil]
          rfl
    · refine Or.inl ⟨[], g :: tab, rfl, fun g here => (nomatch here), ?_, fun _ none => ?_⟩
      · unfold dirloop
        rw [if_neg room, entries, encodeAll, List.flatMap_nil, List.append_nil]
        rfl
      · refine List.eq_nil_iff_forall_not_mem.mpr fun e here => ?_
        have size := fits e here
        have pos := e.size_pos
        subst none
        rw [List.length_nil] at room
        omega

/-- A member with the part of its table that is still to be read. -/
def Member.rest (m : Member) (dri : Nat) : Member := { m with tab := m.tab.drop dri }

/-- The member with which the union goes on. -/
def Member.current (m : Member) (umc : Option Umc) : Member := m.rest (umc.elim 0 Umc.dri)

theorem Delivered.none_readable (flaw : ¬m.Readable) : Delivered m [] :=
  ⟨fun _ here => (nomatch here), fun readable => absurd readable flaw, fun _ => List.nil_prefix, fun _ => rfl⟩

theorem Delivered.finished (none : entries m.tab = []) : Delivered m [] :=
  ⟨fun _ here => (nomatch here), fun _ => none.symm, fun _ => List.nil_prefix, fun _ => rfl⟩

/-- What is read of a member, and then of the rest of it. -/
theorem Delivered.cons {reads : List (List Entry)} (same : m.tab = u ++ v) (fine : ∀ g ∈ u, g.Fine)
    (some_ : entries u ≠ []) (opens : m.Opens) (rest : Delivered { m with tab := v } reads) :
    Delivered m (entries u :: reads) := by
  obtain ⟨parts, whole, initial, -⟩ := rest
  refine ⟨List.forall_mem_cons.mpr ⟨some_, parts⟩, fun readable => ?_, fun _ => ?_, fun shut => absurd opens shut⟩
  · have fineV : ∀ g ∈ v, g.Fine := fun g here => readable.2 g (same ▸ List.mem_append_right _ here)
    rw [List.flatten_cons, same, entries_append fine, whole ⟨opens, fineV⟩]
  · rw [List.flatten_cons, same, entries_append fine]
    exact (List.prefix_append_right_inj _).mpr (initial opens)

/-- One read of a member: there is nothing left of it, or whole entries are read. -/
theorem Member.read_spec (ok : umc ≠ none → m.Opens) (fits : ∀ e ∈ entries (m.current umc).tab, e.size ≤ n) :
    ((m.read n umc).1 = [] ∧ Delivered (m.current umc) []) ∨
      ∃ part c, part ≠ [] ∧ m.read n umc = (encodeAll part, some c) ∧ m.Opens ∧
        entries (m.current umc).tab = part ++ entries (m.current (some c)).tab ∧
        ∀ reads, Delivered (m.current (some c)) reads → Delivered (m.current umc) (part :: reads) := by
  by_cases opens : m.Opens
  · obtain ⟨hasTo, clones, opened⟩ := opens
    have run : m.read n umc = ((devdirread n m.tab (umc.elim 0 Umc.dri)).1.getD [],
        some ⟨umc.elim 0 Umc.offset + ((devdirread n m.tab (umc.elim 0 Umc.dri)).1.getD []).length,
          (devdirread n m.tab (umc.elim 0 Umc.dri)).2⟩) := by
      unfold Member.read
      rw [hasTo, clones, opened]
      cases umc with
      | none => simp only [Bool.not_true, Bool.false_eq_true, if_false, Option.elim_none, Nat.zero_add]
      | some c => rfl
    rcases dirloop_spec (d := []) fits (Nat.zero_le _) (umc.elim 0 Umc.dri) with
      ⟨u, v, same, fine, read, left⟩ | ⟨none, flaw⟩
    · change devdirread n m.tab (umc.elim 0 Umc.dri) = _ at read
      have after : m.tab.drop (umc.elim 0 Umc.dri + u.length) = v := by
        rw [← List.drop_drop]
        change List.drop u.length (m.current umc).tab = v
        rw [same, List.drop_left]
      rw [read] at run
      rcases eq_or_ne (entries u) [] with none | some_
      · refine Or.inl ⟨by rw [run, none]; rfl, Delivered.finished ?_⟩
        rw [same, entries_append fine, none, left none rfl]
        rfl
      · refine Or.inr ⟨entries u, _, some_, run, ⟨hasTo, clones, opened⟩, ?_, fun reads rest => ?_⟩
        · rw [same, entries_append fine]
          congr 2
          exact after.symm
        · refine Delivered.cons same fine some_ ⟨hasTo, clones, opened⟩ ?_
          rw [← after]
          exact rest
    · change (devdirread n m.tab (umc.elim 0 Umc.dri)).1 = _ at none
      rw [run, none]
      exact Or.inl ⟨rfl, Delivered.none_readable fun readable => flaw readable.2⟩
  · obtain rfl : umc = none := not_not.mp fun some_ => opens (ok some_)
    refine Or.inl ⟨?_, Delivered.none_readable fun readable => opens readable.1⟩
    unfold Member.Opens at opens
    unfold Member.read
    cases hasTo : m.hasTo <;> cases clones : m.clones <;> cases opened : m.opens <;>
      first
      | rfl
      | exact absurd ⟨hasTo, clones, opened⟩ opens

/-- The members from the one on at which the union is. -/
def togo : List Member → Option Umc → List Member
  | [], _ => []
  | m :: rest, umc => m.current umc :: rest

def left (l : List Member) : List Entry := l.flatMap fun m => entries m.tab

theorem left_cons (m : Member) (l : List Member) : left (m :: l) = entries m.tab ++ left l := rfl

theorem togo_none (ms : List Member) : togo ms none = ms := by
  cases ms with
  | nil => rfl
  | cons m rest => rfl

/-- A read gives the entries `part`, and the directories `next` are left of `l`. -/
structure Takes (l : List Member) (part : List Entry) (next : List Member) : Prop where
  some_ : part ≠ []
  whole : ∃ lost, left l = lost ++ (part ++ left next)
  groups : ∀ groups, List.Forall₂ Delivered next groups →
    ∃ groups', List.Forall₂ Delivered l groups' ∧ groups'.flatten = part :: groups.flatten

theorem Takes.skip {l next : List Member} (takes : Takes l part next) (finished : Delivered m []) :
    Takes (m :: l) part next := by
  refine ⟨takes.some_, ?_, fun groups delivered => ?_⟩
  · obtain ⟨lost, same⟩ := takes.whole
    exact ⟨entries m.tab ++ lost, by rw [left_cons, same, List.append_assoc]⟩
  · obtain ⟨groups', delivered', same⟩ := takes.groups groups delivered
    exact ⟨[] :: groups', .cons finished delivered', same⟩

/-- One read of a union: every member is finished, or whole entries of one are read, after members that are. -/
theorem union_spec (ok : umc ≠ none → ∃ m rest, ms = m :: rest ∧ m.Opens)
    (fits : ∀ e ∈ left (togo ms umc), e.size ≤ n) (uri : Nat) :
    ((unionloop n ms uri umc).1 = [] ∧ ∀ m ∈ togo ms umc, Delivered m []) ∨
      ∃ part c k m rest, unionloop n ms uri umc = (encodeAll part, uri + k, some c) ∧ ms.drop k = m :: rest ∧
        m.Opens ∧ Takes (togo ms umc) part (togo (m :: rest) (some c)) := by
  induction ms generalizing uri umc with
  | nil => exact Or.inl ⟨rfl, fun m here => nomatch here⟩
  | cons m rest ih =>
    have okM : umc ≠ none → m.Opens := fun some_ => by
      obtain ⟨_, _, same, opens⟩ := ok some_
      exact (List.cons.inj same).1 ▸ opens
    have fitsM : ∀ e ∈ entries (m.current umc).tab, e.size ≤ n := fun e here =>
      fits e (left_cons _ _ ▸ List.mem_append_left _ here)
    have fitsRest : ∀ e ∈ left (togo rest none), e.size ≤ n := fun e here =>
      fits e (left_cons _ _ ▸ List.mem_append_right _ (togo_none rest ▸ here))
    rcases m.read_spec okM fitsM with ⟨nothing, finished⟩ | ⟨part, c, some_, read, opens, same, groups⟩
    · have run : unionloop n (m :: rest) uri umc = unionloop n rest (uri + 1) none := by
        rw [unionloop, nothing, if_neg (by decide)]
      rw [run]
      rcases ih (fun absent => absurd rfl absent) fitsRest (uri + 1) with
        ⟨none, all⟩ | ⟨part, c, k, m', rest', read, there, opens, takes⟩
      · rw [togo_none] at all
        exact Or.inl ⟨none, List.forall_mem_cons.mpr ⟨finished, all⟩⟩
      · refine Or.inr ⟨part, c, k + 1, m', rest', ?_, there, opens, ?_⟩
        · rw [read, Nat.add_assoc, Nat.add_comm 1]
        · rw [togo_none] at takes
          exact takes.skip finished
    · refine Or.inr ⟨part, c, 0, m, rest, ?_, rfl, opens, some_, ⟨[], ?_⟩, fun gs delivered => ?_⟩
      · rw [unionloop, read, if_pos (List.length_pos_of_ne_nil (encodeAll_ne_nil some_))]
        rfl
      · rw [List.nil_append]
        change entries (m.current umc).tab ++ left rest = part ++ (entries (m.current (some c)).tab ++ left rest)
        rw [same, List.append_assoc]
      · cases delivered with
        | cons first others => exact ⟨_, .cons (groups _ first) others, rfl⟩

@[simp] theorem rewind_umh (c : Chan) : c.rewind.umh = c.umh := by
  unfold Chan.rewind
  split <;> rfl

@[simp] theorem rewind_tab (c : Chan) : c.rewind.tab = c.tab := by
  unfold Chan.rewind
  split <;> rfl

@[simp] theorem rewind_offset (c : Chan) : c.rewind.offset = c.offset := by
  unfold Chan.rewind
  split
  · rename_i first
    exact first.symm
  · rfl

theorem rread_plain {dri : Nat} (umh : c.umh = none) (read : devdirread n c.tab c.rewind.dri = (some d, dri)) :
    rread n c = (some d, { c.rewind with dri := dri, offset := c.offset + d.length }) := by
  unfold rread
  rw [umh]
  dsimp only
  rw [rewind_tab, read, rewind_offset]

/-- The directories that are left to be read through a channel. -/
inductive Serves : Chan → List Member → Prop
  | union {c : Chan} {ms : List Member} (umh : c.umh = some ms)
      (ok : c.umc ≠ none → ∃ m rest, ms.drop c.uri = m :: rest ∧ m.Opens) : Serves c (togo (ms.drop c.uri) c.umc)
  | plain {c : Chan} (umh : c.umh = none) (fine : ∀ g ∈ c.tab, g.Fine) :
      Serves c [⟨true, true, true, c.tab.drop c.rewind.dri⟩]

theorem Serves.moved {offset : Nat} (umh : c.umh = none) (fine : ∀ g ∈ c.tab, g.Fine) (some_ : offset ≠ 0) (dri : Nat) :
    Serves { c with dri := dri, offset := offset } [⟨true, true, true, c.tab.drop dri⟩] := by
  have next : Serves { c with dri := dri, offset := offset } [⟨true, true, true,
    c.tab.drop ({ c with dri := dri, offset := offset } : Chan).rewind.dri⟩] := .plain umh fine
  have same : ({ c with dri := dri, offset := offset } : Chan).rewind = { c with dri := dri, offset := offset } :=
    if_neg some_
  rwa [same] at next

theorem Serves.start (umh : Option (List Member)) (tab : List Gen) (fine : umh = none → ∀ g ∈ tab, g.Fine) :
    Serves (opened umh tab) (opened umh tab).members := by
  cases umh with
  | none => exact .plain rfl (fine rfl)
  | some ms =>
    have serves : Serves (opened (some ms) tab) (togo (ms.drop 0) none) := .union rfl fun absent => absurd rfl absent
    rw [togo_none] at serves
    exact serves

/-- One read of a directory. -/
theorem Serves.read {l : List Member} (serves : Serves c l) (fits : ∀ e ∈ left l, e.size ≤ n) :
    ((rread n c).1 = some [] ∧ ∀ m ∈ l, Delivered m []) ∨
      ∃ part next, (rread n c).1 = some (encodeAll part) ∧ Serves (rread n c).2 next ∧ Takes l part next := by
  cases serves with
  | @union ms umh ok =>
    have run : rread n c = (some (unionread n ms c).1, (unionread n ms c).2) := by
      unfold rread
      rw [umh]
    rcases union_spec ok fits c.uri with ⟨nothing, all⟩ | ⟨part, d, k, m, rest, read, there, opens, takes⟩
    · refine Or.inl ⟨?_, all⟩
      rw [run, unionread, nothing]
    · rw [unionread, read] at run
      have there' : ms.drop (c.uri + k) = m :: rest := by rw [← List.drop_drop, there]
      have next : Serves (rread n c).2 (togo (ms.drop (c.uri + k)) (some d)) := by
        rw [run]
        exact .union umh fun _ => ⟨m, rest, there', opens⟩
      rw [there'] at next
      exact Or.inr ⟨part, _, by rw [run], next, takes⟩
  | plain umh fine =>
    rcases dirloop_spec (d := []) (fun e here => fits e (List.mem_append_left _ here)) (Nat.zero_le _) c.rewind.dri with
      ⟨u, v, same, fineU, read, leftOver⟩ | ⟨-, flaw⟩
    · have run := rread_plain umh read
      have here : c.tab.drop c.rewind.dri = u ++ v := same
      have after : c.tab.drop (c.rewind.dri + u.length) = v := by rw [← List.drop_drop, here, List.drop_left]
      rw [List.nil_append] at run
      rw [run]
      rcases eq_or_ne (entries u) [] with none | some_
      · refine Or.inl ⟨by rw [none]; rfl, List.forall_mem_singleton.mpr (Delivered.finished ?_)⟩
        rw [same, entries_append fineU, none, leftOver none rfl]
        rfl
      · have bytes := List.length_pos_of_ne_nil (encodeAll_ne_nil some_)
        refine Or.inr ⟨entries u, [⟨true, true, true, v⟩], rfl, ?_, some_, ⟨[], ?_⟩, fun groups delivered => ?_⟩
        · have moved : c.offset + (encodeAll (entries u)).length ≠ 0 := by omega
          have next := Serves.moved ((rewind_umh c).trans umh) (by simpa only [rewind_tab] using fine) moved
            (c.rewind.dri + u.length)
          simpa only [rewind_tab, after] using next
        · rw [left_cons, left_cons, here, entries_append fineU]
          simp only [List.append_assoc, List.nil_append]
        · cases delivered with
          | cons first others =>
            exact ⟨_, .cons (Delivered.cons same fineU some_ ⟨rfl, rfl, rfl⟩ first) others, rfl⟩
    · exact absurd (fun g here => fine g (List.mem_of_mem_drop here)) flaw

theorem after_succ (sizes : Nat → Nat) (c : Chan) (k : Nat) :
    after sizes c (k + 1) = after (fun i => sizes (i + 1)) (rread (sizes 0) c).2 k := by
  induction k with
  | zero => rfl
  | succ k ih =>
    rw [after, ih]
    rfl

theorem result_succ (sizes : Nat → Nat) (c : Chan) (k : Nat) :
    result sizes c (k + 1) = result (fun i => sizes (i + 1)) (rread (sizes 0) c).2 k := by
  rw [result, result, after_succ]

theorem Gives.cons {parts : List (List Entry)} (first : (rread (sizes 0) c).1 = some (encodeAll part))
    (rest : Gives (fun i => sizes (i + 1)) (rread (sizes 0) c).2 parts) : Gives sizes c (part :: parts) := by
  refine ⟨fun k inside => ?_, ?_⟩
  · cases k with
    | zero => exact first
    | succ k =>
      rw [result_succ]
      exact rest.1 k (Nat.lt_of_succ_lt_succ inside)
  · rw [List.length_cons, result_succ]
    exact rest.2

/-- Every sequence of reads comes to an end, and what is left has been read then. -/
theorem Serves.reads {l : List Member} (serves : Serves c l) (fits : ∀ k, ∀ e ∈ left l, e.size ≤ sizes k) :
    ∃ groups, List.Forall₂ Delivered l groups ∧ Gives sizes c groups.flatten := by
  induction length : (left l).length using Nat.strong_induction_on generalizing c l sizes with
  | _ n ih =>
    subst length
    rcases serves.read (fits 0) with ⟨nothing, all⟩ | ⟨part, next, first, serves', takes⟩
    · refine ⟨l.map fun _ => [], ?_, ?_⟩
      · rw [List.forall₂_map_right_iff]
        exact List.forall₂_same.mpr all
      · have none : (l.map fun _ => ([] : List (List Entry))).flatten = [] := by simp
        rw [none]
        exact ⟨fun k inside => (nomatch inside), nothing⟩
    · obtain ⟨lost, same⟩ := takes.whole
      have fewer : (left next).length < (left l).length := by
        have pos := List.length_pos_of_ne_nil takes.some_
        rw [same, List.length_append, List.length_append]
        omega
      have fits' : ∀ k, ∀ e ∈ left next, e.size ≤ sizes (k + 1) := fun k e here =>
        fits (k + 1) e (same ▸ List.mem_append_right _ (List.mem_append_right _ here))
      obtain ⟨groups, delivered, gives⟩ := ih _ fewer serves' fits' rfl
      obtain ⟨groups', delivered', flat⟩ := takes.groups groups delivered
      exact ⟨groups', delivered', flat ▸ gives.cons first⟩

/-- Reads of a freshly opened directory, each of them with room for the largest entry, give whole entries until one
gives none: of every readable member all of them, in the order of the union. -/
theorem reads_deliver (umh : Option (List Member)) (tab : List Gen) (sizes : Nat → Nat)
    (fine : umh = none → ∀ g ∈ tab, g.Fine)
    (fits : ∀ k, ∀ m ∈ (opened umh tab).members, ∀ e ∈ entries m.tab, e.size ≤ sizes k) :
    ∃ groups, List.Forall₂ Delivered (opened umh tab).members groups ∧
      Gives sizes (opened umh tab) groups.flatten := by
  refine (Serves.start umh tab fine).reads fun k e here => ?_
  obtain ⟨m, member, inside⟩ := List.mem_flatMap.mp here
  exact fits k m member e inside

def entryA : Entry where
  dir := ⟨0, 0, ⟨1, 0, 0⟩, 0, 0, 0, 0, some [97], none, none, none⟩
  small := by decide

/-- A union of a directory that cannot be opened and one with an entry. -/
def unionA : List Member := [⟨true, true, false, []⟩, ⟨true, true, true, [.skip, .entry entryA]⟩]

theorem reads_unionA : ∃ groups, List.Forall₂ Delivered (opened (some unionA) []).members groups ∧
    Gives (fun _ => 50) (opened (some unionA) []) groups.flatten :=
  reads_deliver (some unionA) [] (fun _ => 50) (fun no => nomatch no) fun _ m here e inside => by
    rcases List.mem_cons.mp here with rfl | here
    · nomatch inside
    · obtain rfl := List.mem_singleton.mp here
      obtain rfl := List.mem_singleton.mp inside
      decide

/-- A directory whose second entry cannot be read. -/
def brokenA : Member := ⟨true, true, true, [.entry entryA, .error]⟩

/-- The first read gives an entry of a directory that turns out to be unreadable. -/
theorem reads_broken : ¬brokenA.Readable ∧ (∀ e ∈ entries brokenA.tab, e.size ≤ 50) ∧
    ¬∃ parts, Gives (fun _ => 50) (opened (some [brokenA]) []) parts ∧ parts.flatten = [] := by
  have first : result (fun _ => 50) (opened (some [brokenA]) []) 0 ≠ some [] := by decide +kernel
  have flaw : Gen.error ∈ brokenA.tab := List.mem_cons_of_mem _ List.mem_cons_self
  refine ⟨fun readable => (nomatch readable.2 .error flaw), fun e inside => ?_, ?_⟩
  · obtain rfl := List.mem_singleton.mp inside
    decide
  · rintro ⟨parts, gives, none⟩
    cases parts with
    | nil => exact first gives.2
    | cons p parts =>
      obtain rfl : p = [] := (List.append_eq_nil_iff.mp none).1
      exact first (gives.1 0 (Nat.succ_pos _))

end Inferno.Emu.Dirread
