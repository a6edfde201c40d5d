import Inferno.Lib9.Cleanname

namespace Inferno.Emu.Parsename

open Lib9 (slash dot)

/-- `Elemlist`: the copy of the name with its terminator, and the two arrays. A pointer into the copy is a position. -/
structure Elemlist where
  name : List UInt8
  nelems : Nat
  elems : List (Option Nat)
  off : List Nat
  mustbedir : Bool
  deriving DecidableEq

/-- How many bytes `skipslash` passes over. -/
def skipslash : List UInt8 → Nat
  | [] => 0
  | c :: t => if c = slash ∨ c = dot ∧ (t.head? = some 0 ∨ t.head? = some slash) then skipslash t + 1 else 0

def strchr (c : UInt8) : List UInt8 → Option Nat
  | [] => none
  | d :: t => if d = c then some 0 else if d = 0 then none else (strchr c t).map (· + 1)

/-- The bytes before the terminator. -/
def cstring (s : List UInt8) : List UInt8 := s.takeWhile (· ≠ 0)

/-- `smalloc` clears what it returns. -/
def growparse (e : Elemlist) : Elemlist :=
  if e.nelems % 8 = 0 then
    { e with
      elems := e.elems.take e.nelems ++ List.replicate 8 none
      off := e.off.take e.nelems ++ List.replicate 9 0 }
  else e

/-- `e->elems[e->nelems++] = name`. -/
def Elemlist.add (e : Elemlist) (p : Nat) : Elemlist :=
  { e with elems := e.elems.set e.nelems (some p), nelems := e.nelems + 1 }

/-- `e->off[e->nelems] = p`. -/
def Elemlist.stop (e : Elemlist) (p : Nat) : Elemlist := { e with off := e.off.set e.nelems p }

/-- The loop of `parsename`, from the position `p` of the copy on. -/
def loop : Nat → Elemlist → Nat → Option Elemlist
  | 0, _, _ => none
  | fuel + 1, e, p =>
    let p := p + skipslash (e.name.drop p)
    if (e.name.drop p).head? = some 0 then some { e with mustbedir := true }
    else
      let e := (growparse e).add p
      match strchr slash (e.name.drop p) with
      | none => some { e.stop (p + (cstring (e.name.drop p)).length) with mustbedir := false }
      | some k => loop fuel { e.stop (p + k) with name := e.name.set (p + k) 0 } (p + k + 1)

def parsename (name : List UInt8) : Option Elemlist :=
  let copy := name ++ [0]
  loop (name.length + 1) ⟨copy, 0, [], [skipslash copy], false⟩ 0

/-- What the pointers of `elems` point to. -/
def Elemlist.strings (e : Elemlist) : List (Option (List UInt8)) :=
  (e.elems.take e.nelems).map (Option.map fun p => cstring (e.name.drop p))

/-- A component that is an element. -/
def Real (c : List UInt8) : Prop := c ≠ [] ∧ c ≠ [dot]

instance (c : List UInt8) : Decidable (Real c) := inferInstanceAs (Decidable (_ ∧ _))

/-- The elements among the components of a name that begin at `p`, each with where it begins. -/
def located (p : Nat) : List (List UInt8) → List (Nat × List UInt8)
  | [] => []
  | c :: cs => if Real c then (p, c) :: located (p + c.length + 1) cs else located (p + c.length + 1) cs

def elements (name : List UInt8) : List (List UInt8) := (name.splitOn slash).filter (Real ·)

/-- Where the leading slashes end, and where each element ends. -/
def offsets (name : List UInt8) : List Nat :=
  let found := located 0 (name.splitOn slash)
  (found.head?.map Prod.fst).getD name.length :: found.map fun x => x.1 + x.2.length

/-- What the parts of the list are to be. -/
def Parsed (name : List UInt8) (e : Elemlist) : Prop :=
  e.strings = (elements name).map some ∧
    (e.mustbedir = true ↔
      (name.splitOn slash).getLast? = some [] ∨ (name.splitOn slash).getLast? = some [dot] ∨ elements name = []) ∧
    ∀ i ≤ e.nelems, e.off[i]? = (offsets name)[i]? ∧ (offsets name)[i]? ≠ none

/-- The name begins with an element. -/
def Leading (name : List UInt8) : Prop := (name.splitOn slash).head?.any (Real ·)

instance (name : List UInt8) : Decidable (Leading name) := inferInstanceAs (Decidable (_ = _))

variable {c d t v : List UInt8} {x : UInt8} {p q lead fuel : Nat} {e : Elemlist} {done : List (Nat × List UInt8)}

theorem skipslash_real (real : Real c) (clean : slash ∉ c) (some_ : 0 ∉ c) (v : List UInt8) :
    skipslash (c ++ v) = 0 := by
  cases c with
  | nil => exact absurd rfl real.1
  | cons a c =>
    have notSlash : a ≠ slash := fun same => clean (same ▸ List.mem_cons_self)
    have notDot : ¬(a = dot ∧ ((c ++ v).head? = some 0 ∨ (c ++ v).head? = some slash)) := by
      rintro ⟨rfl, next⟩
      cases c with
      | nil => exact real.2 rfl
      | cons b c =>
        rcases next with zero | sep
        · exact some_ (Option.some.inj zero ▸ List.mem_cons_of_mem _ List.mem_cons_self)
        · exact clean (Option.some.inj sep ▸ List.mem_cons_of_mem _ List.mem_cons_self)
    rw [List.cons_append, skipslash, if_neg (not_or.mpr ⟨notSlash, notDot⟩)]

theorem skipslash_slash (v : List UInt8) : skipslash (slash :: v) = skipslash v + 1 := if_pos (Or.inl rfl)

theorem not_real (idle : ¬Real c) : c = [] ∨ c = [dot] := by
  unfold Real at idle
  tauto

theorem skipslash_idle (idle : ¬Real c) (v : List UInt8) :
    skipslash (c ++ slash :: v) = c.length + 1 + skipslash v := by
  rcases not_real idle with rfl | rfl
  · rw [List.nil_append, skipslash_slash, List.length_nil]
    omega
  · rw [List.singleton_append, skipslash, if_pos (Or.inr ⟨rfl, Or.inr rfl⟩), skipslash_slash, List.length_singleton]
    omega

theorem skipslash_last (idle : ¬Real c) : skipslash (c ++ [0]) = c.length := by
  rcases not_real idle with rfl | rfl <;> rfl

theorem strchr_found (clean : slash ∉ c) (some_ : 0 ∉ c) (v : List UInt8) :
    strchr slash (c ++ slash :: v) = some c.length := by
  induction c with
  | nil => rfl
  | cons a c ih =>
    have notSlash : a ≠ slash := fun same => clean (same ▸ List.mem_cons_self)
    have notZero : a ≠ 0 := fun same => some_ (same ▸ List.mem_cons_self)
    have rest := ih (fun here => clean (List.mem_cons_of_mem _ here)) fun here => some_ (List.mem_cons_of_mem _ here)
    rw [List.cons_append, strchr, if_neg notSlash, if_neg notZero, rest]
    rfl

theorem strchr_none (clean : slash ∉ c) : strchr slash (c ++ [0]) = none := by
  induction c with
  | nil => rfl
  | cons a c ih =>
    have notSlash : a ≠ slash := fun same => clean (same ▸ List.mem_cons_self)
    rw [List.cons_append, strchr, if_neg notSlash, ih fun here => clean (List.mem_cons_of_mem _ here)]
    exact ite_self _

theorem cstring_append (some_ : 0 ∉ c) (v : List UInt8) : cstring (c ++ 0 :: v) = c := by
  have all : ∀ a ∈ c, decide (a ≠ 0) = true := fun a here => decide_eq_true fun same => some_ (same ▸ here)
  unfold cstring
  rw [List.takeWhile_append_of_pos all, List.takeWhile_cons_of_neg (by simp), List.append_nil]

theorem located_cons_real (real : Real c) (p : Nat) (cs : List (List UInt8)) :
    located p (c :: cs) = (p, c) :: located (p + c.length + 1) cs := if_pos real

theorem located_cons_idle (idle : ¬Real c) (p : Nat) (cs : List (List UInt8)) :
    located p (c :: cs) = located (p + c.length + 1) cs := if_neg idle

theorem map_snd_located (p : Nat) (cs : List (List UInt8)) : (located p cs).map Prod.snd = cs.filter (Real ·) := by
  induction cs generalizing p with
  | nil => rfl
  | cons c cs ih =>
    by_cases real : Real c
    · rw [located_cons_real real, List.map_cons, ih, List.filter_cons, if_pos (decide_eq_true real)]
    · rw [located_cons_idle real, ih, List.filter_cons, if_neg (by simpa only [decide_eq_true_eq] using real)]

theorem splitOn_cut (clean : slash ∉ c) (v : List UInt8) :
    (c ++ slash :: v).splitOn slash = c :: v.splitOn slash :=
  List.splitOn_append_cons_self_of_not_mem clean v

/-- The wanted offsets once the elements `done` have been found. -/
def want (lead : Nat) (done : List (Nat × List UInt8)) : List Nat := lead :: done.map fun y => y.1 + y.2.length

theorem length_want (lead : Nat) (done : List (Nat × List UInt8)) : (want lead done).length = done.length + 1 := by
  rw [want, List.length_cons, List.length_map]

theorem want_append (lead : Nat) (done : List (Nat × List UInt8)) (y : Nat × List UInt8) :
    want lead (done ++ [y]) = want lead done ++ [y.1 + y.2.length] := by
  rw [want, want, List.map_append, List.cons_append, List.map_singleton]

/-- What the loop has stored when it has found the elements `done`, all of them before `p`. Each time the arrays grow,
the entry that the next element does not overwrite is lost. -/
structure Held (lead : Nat) (e : Elemlist) (done : List (Nat × List UInt8)) (p : Nat) : Prop where
  count : e.nelems = done.length
  room : e.elems.length = (done.length + 7) / 8 * 8
  offs : e.off.length = e.elems.length + 1
  elem : ∀ (i : Nat) (y : Nat × List UInt8), done[i]? = some y → e.elems[i]? = some (some y.1)
  text : ∀ y ∈ done, 0 ∉ y.2 ∧ y.1 + y.2.length < p ∧ ∃ v, e.name.drop y.1 = y.2 ++ 0 :: v
  off : ∀ i y : Nat, (want lead done)[i]? = some y → e.off[i]? = some (if i % 8 = 0 ∧ i < done.length then 0 else y)

theorem Held.start (name : List UInt8) (lead : Nat) (b : Bool) : Held lead ⟨name, 0, [], [lead], b⟩ [] 0 where
  count := rfl
  room := rfl
  offs := rfl
  elem _ _ there := nomatch there
  text _ here := nomatch here
  off i y there := by
    rw [if_neg fun lost => nomatch lost.2]
    exact there

theorem drop_set_end {name : List UInt8} (there : name.drop p = c ++ x :: v) :
    (name.set (p + c.length) 0).drop p = c ++ 0 :: v := by
  rw [← List.set_drop, there, List.set_append_right _ _ le_rfl, Nat.sub_self]
  rfl

theorem drop_set_after {name : List UInt8} (there : name.drop p = c ++ x :: v) (after : p + c.length < q) :
    ∃ u, (name.set q 0).drop p = c ++ x :: u := by
  obtain ⟨k, rfl⟩ := Nat.exists_eq_add_of_le (show p + (c.length + 1) ≤ q by omega)
  refine ⟨v.set k 0, ?_⟩
  rw [Nat.add_assoc, ← List.set_drop, there, List.set_append_right _ _ (by omega),
    show c.length + 1 + k - c.length = k + 1 by omega]
  rfl

theorem Held.bool (held : Held lead e done p) (b : Bool) : Held lead { e with mustbedir := b } done p :=
  ⟨held.count, held.room, held.offs, held.elem, held.text, held.off⟩

theorem Held.later (held : Held lead e done p) (after : p ≤ q) : Held lead e done q where
  __ := held
  text y here := by
    obtain ⟨clean, before, there⟩ := held.text y here
    exact ⟨clean, by omega, there⟩

/-- The arrays after `growparse`: there is room for one more element. -/
structure Grown (e g : Elemlist) : Prop where
  name : g.name = e.name
  count : g.nelems = e.nelems
  room : g.elems.length = (e.nelems + 8) / 8 * 8
  offs : g.off.length = g.elems.length + 1
  elem : ∀ i < e.nelems, g.elems[i]? = e.elems[i]?
  off : ∀ i < e.nelems, g.off[i]? = e.off[i]?
  last : g.off[e.nelems]? = if e.nelems % 8 = 0 then some 0 else e.off[e.nelems]?

theorem Held.grown (held : Held lead e done p) : Grown e (growparse e) := by
  have room := held.room
  have offs := held.offs
  rw [← held.count] at room
  unfold growparse
  split
  · rename_i full
    have keptElems : (e.elems.take e.nelems).length = e.nelems := by rw [List.length_take]; omega
    have keptOff : (e.off.take e.nelems).length = e.nelems := by rw [List.length_take]; omega
    refine ⟨rfl, rfl, ?_, ?_, fun i before => ?_, fun i before => ?_, ?_⟩
    · rw [List.length_append, keptElems, List.length_replicate]
      omega
    · rw [List.length_append, List.length_append, keptElems, keptOff, List.length_replicate, List.length_replicate]
    · rw [List.getElem?_append_left (by omega), List.getElem?_take_of_lt before]
    · rw [List.getElem?_append_left (by omega), List.getElem?_take_of_lt before]
    · rw [List.getElem?_append_right (by omega), keptOff, Nat.sub_self, if_pos full]
      rfl
  · rename_i partly
    exact ⟨rfl, rfl, by omega, offs, fun _ _ => rfl, fun _ _ => rfl, by rw [if_neg partly]⟩

/-- The element at `q` is stored, and its end overwritten. -/
theorem Held.add (held : Held lead e done p) (after : p ≤ q) (some_ : 0 ∉ c)
    (there : e.name.drop q = c ++ x :: v) (b : Bool) :
    Held lead { ((growparse e).add q).stop (q + c.length) with name := e.name.set (q + c.length) 0, mustbedir := b }
      (done ++ [(q, c)]) (q + c.length + 1) := by
  have grown := held.grown
  have count := held.count
  have room := grown.room
  have offs := grown.offs
  have nelems := grown.count
  refine ⟨?_, ?_, ?_, fun i y => ?_, fun y here => ?_, fun i y => ?_⟩
  · simp only [Elemlist.stop, Elemlist.add, List.length_append, List.length_singleton]
    lia
  · simp only [Elemlist.stop, Elemlist.add, List.length_set, List.length_append, List.length_singleton]
    lia
  · simp only [Elemlist.stop, Elemlist.add, List.length_set]
    lia
  · intro found
    simp only [Elemlist.stop, Elemlist.add]
    rcases lt_or_ge i done.length with before | over_
    · rw [List.getElem?_append_left before] at found
      rw [List.getElem?_set_ne (by lia), grown.elem i (by lia)]
      exact held.elem i y found
    · rw [List.getElem?_append_right over_] at found
      obtain ⟨inside, same⟩ := List.getElem?_eq_some_iff.mp found
      rw [List.length_singleton] at inside
      have last : (growparse e).nelems = i := by lia
      have same : (q, c) = y := by simpa only [List.getElem_singleton] using same
      rw [last, List.getElem?_set_self (by lia), ← same]
  · dsimp only
    rcases List.mem_append.mp here with old | new
    · obtain ⟨clean, before, u, text⟩ := held.text y old
      exact ⟨clean, by lia, drop_set_after text (by lia)⟩
    · obtain rfl := List.mem_singleton.mp new
      exact ⟨some_, Nat.lt_succ_self _, v, drop_set_end there⟩
  · intro found
    simp only [Elemlist.stop, Elemlist.add]
    have length := length_want lead done
    rw [want_append] at found
    rw [List.length_append, List.length_singleton]
    rcases lt_or_ge i (done.length + 1) with before | over_
    · rw [List.getElem?_append_left (by lia)] at found
      have old := held.off i y found
      rw [List.getElem?_set_ne (by lia)]
      rcases Nat.lt_or_ge i done.length with less | last
      · rw [grown.off i (by lia), old]
        simp only [less, Nat.lt_succ_of_lt less, and_true]
      · have last : i = e.nelems := by lia
        subst last
        rw [grown.last, old]
        have less : e.nelems < done.length + 1 := by lia
        simp only [less, and_true, if_neg (show ¬(e.nelems % 8 = 0 ∧ e.nelems < done.length) by lia)]
        split <;> rfl
    · rw [List.getElem?_append_right (by lia)] at found
      obtain ⟨inside, same⟩ := List.getElem?_eq_some_iff.mp found
      rw [List.length_singleton] at inside
      have last : (growparse e).nelems + 1 = i := by lia
      have same : q + c.length = y := by simpa only [List.getElem_singleton] using same
      rw [last, List.getElem?_set_self (by lia), ← same, if_neg (by lia)]

/-- Bytes with the separator have a first component, and those after it. -/
theorem cut (t : List UInt8) : slash ∉ t ∨ ∃ c v, slash ∉ c ∧ t = c ++ slash :: v := by
  by_cases sep : slash ∈ t
  · obtain ⟨c, v, same, clean⟩ := List.eq_append_cons_of_mem sep
    exact Or.inr ⟨c, v, clean, same⟩
  · exact Or.inl sep

/-- A component that is none is passed over. -/
theorem loop_idle (idle : ¬Real c) (there : e.name.drop p = c ++ slash :: v) :
    loop (fuel + 1) e p = loop (fuel + 1) e (p + c.length + 1) := by
  have rest : e.name.drop (p + c.length + 1) = v := by
    rw [Nat.add_assoc, ← List.drop_drop, there, ← List.drop_drop, List.drop_left]
    rfl
  have skip : p + skipslash (e.name.drop p) = p + c.length + 1 + skipslash (e.name.drop (p + c.length + 1)) := by
    rw [there, skipslash_idle idle, rest]
    omega
  rw [loop, loop, skip]

theorem loop_end (idle : ¬Real c) (there : e.name.drop p = c ++ [0]) :
    loop (fuel + 1) e p = some { e with mustbedir := true } := by
  have rest : e.name.drop (p + c.length) = [0] := by rw [← List.drop_drop, there, List.drop_left]
  rw [loop, there, skipslash_last idle, rest]
  rfl

theorem growparse_name (e : Elemlist) : (growparse e).name = e.name := by
  unfold growparse
  split <;> rfl

theorem head_ne_zero (real : Real c) (some_ : 0 ∉ c) (v : List UInt8) : ¬(c ++ v).head? = some 0 := by
  cases c with
  | nil => exact absurd rfl real.1
  | cons a c => exact fun zero => some_ (Option.some.inj zero ▸ List.mem_cons_self)

theorem loop_real (real : Real c) (clean : slash ∉ c) (some_ : 0 ∉ c) (there : e.name.drop p = c ++ slash :: v) :
    loop (fuel + 1) e p =
      loop fuel { ((growparse e).add p).stop (p + c.length) with name := e.name.set (p + c.length) 0 }
        (p + c.length + 1) := by
  have name : ((growparse e).add p).name = e.name := growparse_name e
  simp only [loop, there, skipslash_real real clean some_, Nat.add_zero, if_neg (head_ne_zero real some_ _), name,
    strchr_found clean some_]

theorem loop_last (real : Real c) (clean : slash ∉ c) (some_ : 0 ∉ c) (there : e.name.drop p = c ++ [0]) :
    loop (fuel + 1) e p = some { ((growparse e).add p).stop (p + c.length) with mustbedir := false } := by
  have name : ((growparse e).add p).name = e.name := growparse_name e
  simp only [loop, there, skipslash_real real clean some_, Nat.add_zero, if_neg (head_ne_zero real some_ _), name,
    strchr_none clean, cstring_append some_]

theorem getLast?_cons_splitOn (c v : List UInt8) : (c :: v.splitOn slash).getLast? = (v.splitOn slash).getLast? := by
  obtain ⟨d, ds, same⟩ := List.exists_cons_of_ne_nil (List.splitOn_ne_nil slash v)
  rw [same, List.getLast?_cons_cons]

/-- The loop ends, with the elements of the rest of the name behind those it has found before. -/
theorem loop_spec (held : Held lead e done p) (there : e.name.drop p = t ++ [0]) (some_ : 0 ∉ t)
    (enough : t.length < fuel) :
    ∃ e', loop fuel e p = some e' ∧ (∃ q, Held lead e' (done ++ located p (t.splitOn slash)) q) ∧
      (e'.mustbedir = true ↔ ∃ c, (t.splitOn slash).getLast? = some c ∧ ¬Real c) := by
  induction length : t.length using Nat.strong_induction_on generalizing t e done p fuel with
  | _ n ih =>
    subst length
    obtain ⟨fuel, rfl⟩ := Nat.exists_eq_succ_of_ne_zero (Nat.ne_of_gt (Nat.zero_lt_of_lt enough))
    rcases cut t with clean | ⟨c, v, clean, rfl⟩
    · rw [List.splitOn_eq_singleton clean, List.getLast?_singleton]
      by_cases real : Real t
      · have next := held.add le_rfl some_ there false
        have same : e.name.set (p + t.length) 0 = e.name := by
          have last : e.name[p + t.length]? = some 0 := by
            rw [← List.getElem?_drop, there, List.getElem?_append_right le_rfl, Nat.sub_self]
            rfl
          obtain ⟨inside, zero⟩ := List.getElem?_eq_some_iff.mp last
          rw [← zero, List.set_getElem_self]
        rw [same] at next
        have name : (((growparse e).add p).stop (p + t.length)).name = e.name := growparse_name e
        rw [← name] at next
        refine ⟨_, loop_last real clean some_ there, ⟨p + t.length + 1, ?_⟩, ?_⟩
        · rw [located_cons_real real]
          exact next
        · exact ⟨fun yes => (nomatch yes), fun ⟨d, found, idle⟩ => absurd (Option.some.inj found ▸ real) idle⟩
      · refine ⟨_, loop_end real there, ⟨p, ?_⟩, fun _ => ⟨t, rfl, real⟩, fun _ => rfl⟩
        rw [located_cons_idle real, located, List.append_nil]
        exact held.bool true
    · have someC : 0 ∉ c := fun here => some_ (List.mem_append_left _ here)
      have someV : 0 ∉ v := fun here => some_ (List.mem_append_right _ (List.mem_cons_of_mem _ here))
      rw [List.append_assoc, List.cons_append] at there
      have shorter : v.length < (c ++ slash :: v).length := by
        rw [List.length_append, List.length_cons]
        omega
      have rest : e.name.drop (p + c.length + 1) = v ++ [0] := by
        rw [Nat.add_assoc, ← List.drop_drop, there, ← List.drop_drop, List.drop_left]
        rfl
      rw [splitOn_cut clean, getLast?_cons_splitOn]
      by_cases real : Real c
      · rw [loop_real real clean someC there, located_cons_real real, List.append_cons]
        refine ih v.length shorter (held.add le_rfl someC there _) ?_ someV (by omega) rfl
        rw [List.drop_set_of_lt (by omega)]
        exact rest
      · rw [loop_idle real there, located_cons_idle real]
        exact ih v.length shorter (held.later (by omega)) rest someV (by omega) rfl

/-- The list once the name is parsed. -/
theorem parsename_held {name : List UInt8} (valid : 0 ∉ name) :
    ∃ e q, parsename name = some e ∧ Held (skipslash (name ++ [0])) e (located 0 (name.splitOn slash)) q ∧
      (e.mustbedir = true ↔ ∃ c, (name.splitOn slash).getLast? = some c ∧ ¬Real c) := by
  obtain ⟨e, run, ⟨q, held⟩, last⟩ :=
    loop_spec (Held.start (name ++ [0]) (skipslash (name ++ [0])) false) rfl valid (Nat.lt_succ_self _)
  exact ⟨e, q, run, held, last⟩

theorem located_real {cs : List (List UInt8)} {y : Nat × List UInt8} (here : y ∈ located p cs) : Real y.2 := by
  have kept : y.2 ∈ cs.filter (Real ·) := map_snd_located p cs ▸ List.mem_map_of_mem here
  exact of_decide_eq_true (List.mem_filter.mp kept).2

/-- Where the leading slashes end. -/
theorem skipslash_lead (t : List UInt8) (p : Nat) (some_ : 0 ∉ t) :
    p + skipslash (t ++ [0]) = ((located p (t.splitOn slash)).head?.map Prod.fst).getD (p + t.length) := by
  induction length : t.length using Nat.strong_induction_on generalizing t p with
  | _ n ih =>
    subst length
    rcases cut t with clean | ⟨c, v, clean, rfl⟩
    · rw [List.splitOn_eq_singleton clean]
      by_cases real : Real t
      · rw [skipslash_real real clean some_, located_cons_real real]
        rfl
      · rw [skipslash_last real, located_cons_idle real]
        rfl
    · have someC : 0 ∉ c := fun here => some_ (List.mem_append_left _ here)
      have someV : 0 ∉ v := fun here => some_ (List.mem_append_right _ (List.mem_cons_of_mem _ here))
      have length : (c ++ slash :: v).length = c.length + 1 + v.length := by
        rw [List.length_append, List.length_cons]
        omega
      rw [splitOn_cut clean, List.append_assoc, List.cons_append]
      by_cases real : Real c
      · rw [skipslash_real real clean someC, located_cons_real real]
        rfl
      · rw [skipslash_idle real, located_cons_idle real, length, ← Nat.add_assoc, ← Nat.add_assoc p, ← Nat.add_assoc p]
        exact ih v.length (by omega) v _ someV rfl

theorem leading_iff (t : List UInt8) (some_ : 0 ∉ t) : Leading t ↔ elements t ≠ [] ∧ skipslash (t ++ [0]) = 0 := by
  unfold Leading elements
  rcases cut t with clean | ⟨c, v, clean, rfl⟩
  · rw [List.splitOn_eq_singleton clean]
    by_cases real : Real t
    · simp only [List.head?_cons, Option.any_some, real, decide_true, List.filter_cons, if_true, ne_eq,
        List.cons_ne_nil, not_false_eq_true, skipslash_real real clean some_, and_self]
    · simp only [List.head?_cons, Option.any_some, real, decide_false, List.filter_cons, List.filter_nil,
        Bool.false_eq_true, if_false, ne_eq, not_true, false_and]
  · have someC : 0 ∉ c := fun here => some_ (List.mem_append_left _ here)
    rw [splitOn_cut clean, List.append_assoc, List.cons_append]
    by_cases real : Real c
    · simp only [List.head?_cons, Option.any_some, real, decide_true, List.filter_cons, if_true, ne_eq,
        List.cons_ne_nil, not_false_eq_true, skipslash_real real clean someC, and_self]
    · have skip := skipslash_idle real (v ++ [0])
      simp only [List.head?_cons, Option.any_some, real, decide_false, Bool.false_eq_true, false_iff, not_and]
      omega

theorem length_elements (name : List UInt8) : (elements name).length = (located 0 (name.splitOn slash)).length := by
  rw [elements, ← map_snd_located 0, List.length_map]

theorem Held.strings {name : List UInt8} (held : Held lead e (located 0 (name.splitOn slash)) p) :
    e.strings = (elements name).map some := by
  rw [elements, ← map_snd_located 0, List.map_map]
  refine List.ext_getElem? fun i => ?_
  rw [Elemlist.strings, List.getElem?_map, List.getElem?_map, List.getElem?_take, held.count]
  rcases lt_or_ge i (located 0 (name.splitOn slash)).length with inside | outside
  · have found := List.getElem?_eq_getElem inside
    obtain ⟨clean, -, v, text⟩ := held.text _ (List.getElem_mem inside)
    rw [if_pos inside, held.elem i _ found, found, Option.map_some, Option.map_some, Option.map_some, text,
      cstring_append clean]
    rfl
  · rw [if_neg (by omega), List.getElem?_eq_none outside]
    rfl

theorem not_real_iff {l : Option (List UInt8)} : (∃ c, l = some c ∧ ¬Real c) ↔ l = some [] ∨ l = some [dot] := by
  constructor
  · rintro ⟨c, rfl, idle⟩
    rcases not_real idle with rfl | rfl
    · exact Or.inl rfl
    · exact Or.inr rfl
  · rintro (rfl | rfl)
    · exact ⟨[], rfl, by decide⟩
    · exact ⟨[dot], rfl, by decide⟩

theorem last_idle {name : List UInt8} (none : elements name = []) :
    ∃ c, (name.splitOn slash).getLast? = some c ∧ ¬Real c := by
  obtain ⟨c, found⟩ := Option.ne_none_iff_exists'.mp fun missing =>
    List.splitOn_ne_nil slash name (List.getLast?_eq_none_iff.mp missing)
  refine ⟨c, found, fun real => ?_⟩
  have here : c ∈ elements name := List.mem_filter.mpr ⟨List.mem_of_getLast? found, decide_eq_true real⟩
  rw [none] at here
  exact nomatch here

theorem offsets_want {name : List UInt8} (valid : 0 ∉ name) :
    offsets name = want (skipslash (name ++ [0])) (located 0 (name.splitOn slash)) := by
  have lead := skipslash_lead name 0 valid
  rw [Nat.zero_add, Nat.zero_add] at lead
  rw [offsets, want, lead]

/-- Offsets are kept when those that a growing array loses are 0 anyway. -/
theorem Held.kept_iff (held : Held lead e done p) (real : ∀ y ∈ done, Real y.2) :
    (∀ i ≤ e.nelems, e.off[i]? = (want lead done)[i]? ∧ (want lead done)[i]? ≠ none) ↔
      done = [] ∨ lead = 0 ∧ done.length ≤ 8 := by
  have length := length_want lead done
  have count := held.count
  constructor
  · intro kept
    rcases Nat.eq_zero_or_pos done.length with none | some_
    · exact Or.inl (List.length_eq_zero_iff.mp none)
    · refine Or.inr ⟨?_, Nat.not_lt.mp fun many => ?_⟩
      · have first := held.off 0 lead rfl
        rw [(kept 0 (Nat.zero_le _)).1, if_pos ⟨rfl, some_⟩] at first
        exact Option.some.inj first
      · have found := List.getElem?_eq_getElem (show 7 < done.length by lia)
        have end_ : (want lead done)[8]? = some (done[7].1 + done[7].2.length) := by
          rw [want, List.getElem?_cons_succ, List.getElem?_map, found]
          rfl
        have lost := held.off 8 _ end_
        rw [(kept 8 (by lia)).1, end_, if_pos ⟨rfl, many⟩] at lost
        have empty : done[7].2.length = 0 := by
          have := Option.some.inj lost
          lia
        exact (real _ (List.getElem_mem _)).1 (List.length_eq_zero_iff.mp empty)
  · intro short i inside
    have found := List.getElem?_eq_getElem (show i < (want lead done).length by lia)
    rw [found, held.off i _ found]
    refine ⟨?_, Option.some_ne_none _⟩
    split
    · rename_i lost
      rcases short with none | ⟨rfl, few⟩
      · rw [none] at lost
        exact absurd lost.2 (Nat.not_lt_zero _)
      · obtain rfl : i = 0 := by lia
        rfl
    · rfl

/-- The elements and `mustbedir` are always right. An offset is wrong when a growing array has lost it: the first one
when slashes come before the first element, and every eighth one but the last. -/
theorem parsename_iff (name : List UInt8) (valid : 0 ∉ name) :
    (∃ e, parsename name = some e ∧ Parsed name e) ↔
      elements name = [] ∨ Leading name ∧ (elements name).length ≤ 8 := by
  obtain ⟨e, q, run, held, last⟩ := parsename_held valid
  have kept := held.kept_iff fun y here => located_real here
  have none : elements name = [] ↔ located 0 (name.splitOn slash) = [] := by
    rw [← List.length_eq_zero_iff, ← List.length_eq_zero_iff, length_elements]
  have dir : e.mustbedir = true ↔ (name.splitOn slash).getLast? = some [] ∨
      (name.splitOn slash).getLast? = some [dot] ∨ elements name = [] := by
    rw [last, ← or_assoc, ← not_real_iff]
    exact ⟨Or.inl, fun either => either.elim id last_idle⟩
  rw [← offsets_want valid, ← none, ← length_elements] at kept
  rw [leading_iff name valid]
  constructor
  · rintro ⟨e', run', -, -, off⟩
    obtain rfl : e = e' := Option.some.inj (run.symm.trans run')
    rcases kept.mp off with none_ | ⟨lead, few⟩
    · exact Or.inl none_
    · exact (eq_or_ne (elements name) []).imp id fun some_ => ⟨⟨some_, lead⟩, few⟩
  · intro short
    exact ⟨e, run, held.strings, dir, kept.mpr (short.imp id fun first => ⟨first.1.2, first.2⟩)⟩

theorem parsename_two : ∃ e, parsename [97, slash, 98] = some e ∧ Parsed [97, slash, 98] e :=
  (parsename_iff [97, slash, 98] (by decide)).mpr (Or.inr (by decide))

/-- In `/a` the first element begins at 1, and `off[0]` is 0. -/
theorem parsename_slash : ¬∃ e, parsename [slash, 97] = some e ∧ Parsed [slash, 97] e := by
  rintro ⟨e, run, -, -, off⟩
  obtain rfl := Option.some.inj run
  exact absurd (off 0 (by decide)).1 (by decide)

end Inferno.Emu.Parsename
