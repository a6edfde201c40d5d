import Inferno.Strings.Index

namespace Inferno.Strings

open Lib

def sizeofList : Nat := 24

/-- A cell of a list of strings. -/
structure Cell where
  tail : Option Nat
  data : Option Nat

/-- The strings, the cells of lists by address, and the variable `l` of `Sys_tokenize`. -/
structure Lists where
  strings : State
  cells : Nat → Option Cell
  l : Option Nat

/-- A C function on strings and lists. -/
abbrev ML := EStateM String Lists

/-- A function that knows strings only. -/
def onStrings {α : Type} (m : M α) : ML α := fun t =>
  match m t.strings with
  | .ok a s => .ok a { t with strings := s }
  | .error e s => .error e { t with strings := s }

namespace Lists

/-- `*h`, where `h` points to `l` or to the `tail` of a cell. -/
def deref (t : Lists) : Option Nat → Option Nat
  | none => t.l
  | some c => (t.cells c).bind Cell.tail

def setCell (t : Lists) (c : Nat) (cell : Cell) : Lists := { t with cells := Function.update t.cells c (some cell) }

/-- `*h = v`. -/
def assign (t : Lists) (h v : Option Nat) : Lists where
  strings := t.strings
  cells := match h with
    | none => t.cells
    | some c => Function.update t.cells c (some ⟨v, (t.cells c).bind Cell.data⟩)
  l := match h with
    | none => v
    | some _ => t.l

end Lists

/-- `tokdelim`. -/
def tokdelim (c : Int) (d : Str) : Bool :=
  let l := int d.len
  if l < 0 then (List.range (-l).toNat).any fun i => runeAt d.data i == u32 c
  else (List.range l.toNat).any fun i => schar (d.data i) == c

/-- A character as an `int`. -/
def Str.c (x : Str) (srune : Bool) (i : Nat) : Int := if srune then int (runeAt x.data i) else schar (x.data i)

/-- The inner loops of `Sys_tokenize`: the cursor goes on to a character where `stop` holds. -/
def scan (stop : Int → Bool) (c : Nat → Int) (nc : Nat) : Nat → Nat → Nat
  | 0, i => i
  | fuel + 1, i => if i < nc then if stop (c i) then i else scan stop c nc fuel (i + 1) else i

section Alloc

variable (pool : Nat → Nat → Option Block)

/-- `cons` of a word of data, at `*h`. -/
def cons (h : Option Nat) : ML Nat := do
  let t ← get
  set ({ t with strings := t.strings.skip } : Lists)
  match pool t.strings.next (sizeT (sizeofHeap + sizeofList : Nat)) with
  | none => throw exHeap
  | some _ =>
    modify fun u => (u.setCell t.strings.next ⟨u.deref h, none⟩).assign h (some t.strings.next)
    return t.strings.next

/-- The loop of `Sys_tokenize` over the strings at `p` and `q`. -/
def tokens (p q nc : Nat) (srune : Bool) : Nat → Nat → Option Nat → Int → ML Int
  | 0, _, _, n => return n
  | fuel + 1, first, h, n => do
    if first < nc then
      let x ← onStrings (load p)
      let y ← onStrings (load q)
      let first := scan (fun c => !tokdelim c y) (x.c srune) nc nc first
      let last := scan (fun c => tokdelim c y) (x.c srune) nc nc first
      if first = last then return n
      let nl ← cons pool h
      modify fun t => t.assign (some nl) none
      let word ← onStrings (slicer pool first last (some p))
      modify fun t => t.setCell nl ⟨t.deref (some nl), word⟩
      tokens p q nc srune fuel last (some nl) (int (n + 1))
    else return n

/-- `Sys_tokenize`; `fuel` bounds the turns of its loop. -/
def sysTokenize (fuel : Nat) : Option Nat → Option Nat → ML (Int × Option Nat)
  | some p, some q => do
    modify fun t => { t with l := none }
    let x ← onStrings (load p)
    let nc := int x.len
    let n ← tokens pool p q nc.natAbs (decide (nc < 0)) fuel 0 none 0
    return (n, (← get).l)
  | _, _ => return (0, none)

end Alloc

/-- The maximal runs of characters that are no delimiters. -/
def words (delim text : List Nat) : List (List Nat) := (text.splitOnP (decide <| · ∈ delim)).filter (decide <| · ≠ [])

/-- The list at `l` is that of these texts. -/
def ListOf (t : Lists) : Option Nat → List (List Nat) → Prop
  | l, [] => l = none
  | l, w :: ws => ∃ c cell, l = some c ∧ t.cells c = some cell ∧ (strOf t.strings.heap cell.data).text = w ∧
      ListOf t cell.tail ws

variable {delim text w : List Nat} {stop : Int → Bool} {c : Nat → Int} {nc fuel i k : Nat} {x y : Str}

theorem words_nil (delim : List Nat) : words delim [] = [] := rfl

theorem words_delims {a : List Nat} (all : ∀ k ∈ a, k ∈ delim) (text : List Nat) :
    words delim (a ++ text) = words delim text := by
  induction a with
  | nil => rfl
  | cons k a ih =>
    have first : words delim (k :: (a ++ text)) = words delim (a ++ text) := by
      have none : ∀ j ∈ ([] : List Nat), decide (j ∈ delim) = false := fun j member => nomatch member
      have split := List.splitOnP_append_cons_of_forall_mem none k (decide_eq_true (all k List.mem_cons_self))
        (a ++ text)
      rw [List.nil_append] at split
      rw [words, split]
      rfl
    rw [List.cons_append, first]
    exact ih fun k member => all k (List.mem_cons_of_mem _ member)

theorem words_word (plain : ∀ k ∈ w, k ∉ delim) (some_ : w ≠ []) (ends : ∀ k, text.head? = some k → k ∈ delim) :
    words delim (w ++ text) = w :: words delim text := by
  have none : ∀ k ∈ w, decide (k ∈ delim) = false := fun k member => decide_eq_false (plain k member)
  cases text with
  | nil =>
    rw [List.append_nil, words, List.splitOnP_eq_singleton none]
    exact List.filter_cons_of_pos (decide_eq_true some_)
  | cons k text =>
    have sep := ends k rfl
    have rest : words delim (k :: text) = words delim text :=
      words_delims (a := [k]) (fun j member => List.mem_singleton.mp member ▸ sep) text
    rw [rest, words, List.splitOnP_append_cons_of_forall_mem none k (decide_eq_true sep)]
    exact List.filter_cons_of_pos (decide_eq_true some_)

/-- Without delimiters a text is one word. -/
theorem words_none (text : List Nat) : words [] text = if text = [] then [] else [text] := by
  split
  · rename_i none
    rw [none]
    rfl
  · rename_i some_
    have whole : words [] (text ++ []) = text :: words [] [] :=
      words_word (fun k _ => List.not_mem_nil) some_ fun k head => nomatch head
    rwa [List.append_nil] at whole

theorem scan_stops (stop : Int → Bool) (c : Nat → Int) (fuel : Nat) (below : i ≤ nc) (enough : nc ≤ i + fuel) :
    i ≤ scan stop c nc fuel i ∧ scan stop c nc fuel i ≤ nc ∧
      (∀ j, i ≤ j → j < scan stop c nc fuel i → stop (c j) = false) ∧
      (scan stop c nc fuel i < nc → stop (c (scan stop c nc fuel i)) = true) := by
  induction fuel generalizing i with
  | zero => exact ⟨le_refl i, below, fun j from_ less => by simp only [scan] at less; omega, fun less => by
      simp only [scan] at less; omega⟩
  | succ fuel ih =>
    unfold scan
    split
    · rename_i inside
      split
      · rename_i here
        exact ⟨le_refl i, below, fun j from_ less => by omega, fun _ => here⟩
      · rename_i goes
        obtain ⟨from_, most, none, found⟩ := ih (i := i + 1) inside (by omega)
        refine ⟨by omega, most, fun j low less => ?_, found⟩
        rcases eq_or_lt_of_le low with rfl | later
        · exact Bool.eq_false_iff.mpr goes
        · exact none j later less
    · exact ⟨le_refl i, below, fun j from_ less => by omega, fun less => by omega⟩

theorem Str.Good.int_len (good : x.Good) : int x.len = x.len := by
  have small := good.size_lt
  rcases lt_or_ge x.len 0 with neg | pos
  · obtain ⟨used, most⟩ := good.runes neg
    simp only [sizeofRune] at most
    simp only [int, Int.bmod_def]
    omega
  · obtain ⟨used, most, -⟩ := good.ascii pos
    exact int_of_lt pos (by omega)

theorem tokdelim_eq (good : y.Good) (less : k < 2 ^ 32) : tokdelim (int k) y = decide (k ∈ y.text) := by
  have back : u32 (int k) = k := by
    simp only [u32, int, Int.bmod_def]
    omega
  unfold tokdelim Str.text
  rw [good.int_len, Bool.eq_iff_iff, decide_eq_true_iff, List.mem_map]
  dsimp only
  split
  · rename_i neg
    rw [List.any_eq_true]
    have length : (-y.len).toNat = y.len.natAbs := by omega
    simp only [length, back, beq_iff_eq, Str.char_rune neg]
  · rename_i pos
    rw [List.any_eq_true]
    have length : y.len.toNat = y.len.natAbs := by omega
    rw [length]
    refine exists_congr fun i => and_congr_right fun member => ?_
    rw [List.mem_range] at member
    have low := (good.ascii (by omega)).2.2 i (by omega)
    rw [beq_iff_eq, Str.char_ascii (by omega), schar, if_pos low]
    simp only [int, Int.bmod_def]
    omega

theorem c_eq (good : x.Good) (inside : i < x.len.natAbs) : x.c (decide (x.len < 0)) i = int (x.char i) := by
  unfold Str.c
  rcases lt_or_ge x.len 0 with neg | pos
  · rw [if_pos (decide_eq_true neg), Str.char_rune neg]
  · have low := (good.ascii pos).2.2 i (by omega)
    rw [if_neg (by rw [decide_eq_false (not_lt.mpr pos)]; decide), Str.char_ascii pos, schar, if_pos low,
      int_of_lt (by omega) (by omega)]

theorem tokdelim_char (good : x.Good) (good' : y.Good) (inside : i < x.text.length) :
    tokdelim (x.c (decide (x.len < 0)) i) y = decide (x.text[i] ∈ y.text) := by
  rw [x.length_text] at inside
  rw [c_eq good inside, tokdelim_eq good' (x.char_lt i), x.getElem_text]

theorem drop_eq {start v : Nat} (order : start ≤ v) (text : List Nat) :
    text.drop start = (text.take v).drop start ++ text.drop v := by
  rcases le_or_gt v text.length with inside | beyond
  · rw [← List.drop_append_of_le_length (by rw [List.length_take]; omega), List.take_append_drop]
  · rw [List.take_of_length_le beyond.le, List.drop_eq_nil_of_le beyond.le, List.append_nil]

theorem mem_slice {start v : Nat} (member : k ∈ (text.take v).drop start) :
    ∃ i, ∃ h : i < text.length, start ≤ i ∧ i < v ∧ text[i] = k := by
  obtain ⟨i, less, rfl⟩ := List.mem_iff_getElem.mp member
  rw [List.length_drop, List.length_take] at less
  exact ⟨start + i, by omega, by omega, by omega, by rw [List.getElem_drop, List.getElem_take]⟩

/-- The words from `first` on, by the inner loops. -/
theorem words_scan (good : x.Good) (good' : y.Good) {first j l : Nat} (below : first ≤ x.len.natAbs)
    (skip : scan (fun c => !tokdelim c y) (x.c (decide (x.len < 0))) x.len.natAbs x.len.natAbs first = j)
    (over_ : scan (fun c => tokdelim c y) (x.c (decide (x.len < 0))) x.len.natAbs x.len.natAbs j = l) :
    first ≤ j ∧ j ≤ l ∧ l ≤ x.len.natAbs ∧
      words y.text (x.text.drop first) =
        if j = l then [] else (x.text.take l).drop j :: words y.text (x.text.drop l) := by
  obtain ⟨low, most, skipped, found⟩ := scan_stops (fun c => !tokdelim c y)
    (x.c (decide (x.len < 0))) x.len.natAbs below (by omega)
  rw [skip] at low most skipped found
  obtain ⟨low', most', plain, found'⟩ := scan_stops (fun c => tokdelim c y)
    (x.c (decide (x.len < 0))) x.len.natAbs most (by omega)
  rw [over_] at low' most' plain found'
  refine ⟨low, low', most', ?_⟩
  have delims : ∀ k ∈ (x.text.take j).drop first, k ∈ y.text := by
    intro k member
    obtain ⟨i, less, from_, before, rfl⟩ := mem_slice member
    have here := skipped i from_ before
    rw [tokdelim_char good good' less] at here
    simpa using here
  rw [drop_eq low x.text, words_delims delims]
  split
  · rename_i same
    -- the second loop stays where the first has stopped: only at the end of the string
    have done : ¬j < x.len.natAbs := by
      intro inside
      have here := found inside
      rw [same] at here
      rw [found' (same ▸ inside)] at here
      nomatch here
    rw [List.drop_eq_nil_of_le (by rw [x.length_text]; omega), words_nil]
  · rename_i more
    rw [drop_eq low' x.text]
    refine words_word (fun k member => ?_) (fun none => ?_) fun k head => ?_
    · obtain ⟨i, less, from_, before, rfl⟩ := mem_slice member
      have here := plain i from_ before
      rw [tokdelim_char good good' less] at here
      exact of_decide_eq_false here
    · have length := congrArg List.length none
      rw [List.length_drop, List.length_take, x.length_text, List.length_nil] at length
      omega
    · rw [List.head?_drop] at head
      obtain ⟨inside, rfl⟩ := List.getElem?_eq_some_iff.mp head
      have here := found' (x.length_text ▸ inside)
      rw [tokdelim_char good good' inside] at here
      exact of_decide_eq_true here

variable {α : Type} {m : M α} {t t' : Lists} {h : Option Nat} {p q n first : Nat} {ws : List (List Nat)}
  {pool : Nat → Nat → Option Block}

theorem onStrings_gives {Q : α → Lists → Prop} {E : String → Lists → Prop}
    (gives : Gives m t.strings (fun a s => Q a { t with strings := s }) fun e s => E e { t with strings := s }) :
    Gives (onStrings m) t Q E := by
  unfold Gives onStrings at *
  cases run : m t.strings with
  | ok a s =>
    rw [run] at gives
    exact gives
  | error e s =>
    rw [run] at gives
    exact gives

theorem load_gives {Q : Str → Lists → Prop} {E : String → Lists → Prop} (here : t.strings.heap p = some x)
    (holds : Q x t) : Gives (onStrings (load p)) t Q E :=
  onStrings_gives ((Gives.of_ends (load_ends (E := fun _ => False) here holds) (load_raises p)).imp
    (fun _ _ same => same) fun _ _ none => none.2.elim)

/-- `h` points to a nil pointer. -/
structure Hole (t : Lists) (h : Option Nat) : Prop where
  empty : t.deref h = none
  cell : ∀ c, h = some c → c < t.strings.next ∧ ∃ cell, t.cells c = some cell

/-- The lists after `cons` and the stores into its cell. -/
def Lists.linked (t : Lists) (h : Option Nat) (word : Option Nat) (s : State) : Lists :=
  let n := t.strings.next
  let u := ((t.setCell n ⟨t.deref h, none⟩).assign h (some n)).assign (some n) none
  { u.setCell n ⟨u.deref (some n), word⟩ with strings := s }

theorem linked_strings (t : Lists) (h word : Option Nat) (s : State) : (t.linked h word s).strings = s := rfl

/-- What a new cell at `h` changes. -/
structure Linked (t : Lists) (h word : Option Nat) (t' : Lists) : Prop where
  here : t'.deref h = some t.strings.next
  cell : t'.cells t.strings.next = some ⟨none, word⟩
  data : ∀ c, c < t.strings.next → (t'.cells c).map Cell.data = (t.cells c).map Cell.data
  others : ∀ h', h' ≠ h → (∀ c, h' = some c → c < t.strings.next) → t'.deref h' = t.deref h'

theorem linked_linked (hole : Hole t h) (word : Option Nat) (s : State) : Linked t h word (t.linked h word s) := by
  have ne {c : Nat} (less : c < t.strings.next) : c ≠ t.strings.next := less.ne
  have cell : (t.linked h word s).cells t.strings.next = some ⟨none, word⟩ := by
    simp [Lists.linked, Lists.assign, Lists.setCell, Lists.deref]
  cases h with
  | none =>
    have same (c : Nat) (less : c < t.strings.next) : (t.linked none word s).cells c = t.cells c := by
      simp only [Lists.linked, Lists.assign, Lists.setCell, Function.update_of_ne (ne less)]
    refine ⟨rfl, cell, fun c less => by rw [same c less], fun h' other small => ?_⟩
    obtain ⟨c, rfl⟩ := Option.ne_none_iff_exists'.mp other
    rw [Lists.deref, Lists.deref, same c (small c rfl)]
  | some d =>
    obtain ⟨small, old, there⟩ := hole.cell d rfl
    have at_ : (t.linked (some d) word s).cells d = some ⟨some t.strings.next, old.data⟩ := by
      simp only [Lists.linked, Lists.assign, Lists.setCell, Function.update_of_ne (ne small), Function.update_self, there]
      rfl
    have same (c : Nat) (less : c < t.strings.next) (other : c ≠ d) :
        (t.linked (some d) word s).cells c = t.cells c := by
      simp only [Lists.linked, Lists.assign, Lists.setCell, Function.update_of_ne (ne less), Function.update_of_ne other]
    refine ⟨by rw [Lists.deref, at_]; rfl, cell, fun c less => ?_, fun h' other low => ?_⟩
    · rcases eq_or_ne c d with rfl | other
      · rw [at_, there]
        rfl
      · rw [same c less other]
    · cases h' with
      | none => rfl
      | some c => rw [Lists.deref, Lists.deref, same c (low c rfl) fun eq => other (congrArg some eq)]

/-- The list of the words has been built at `h`, and what was there before is as it was. -/
structure Built (t : Lists) (h : Option Nat) (ws : List (List Nat)) (t' : Lists) : Prop where
  list : ListOf t' (t'.deref h) ws
  strings : ∀ p, p < t.strings.next → t'.strings.heap p = t.strings.heap p
  data : ∀ c, c < t.strings.next → (t'.cells c).map Cell.data = (t.cells c).map Cell.data
  others : ∀ h', h' ≠ h → (∀ c, h' = some c → c < t.strings.next) → t'.deref h' = t.deref h'

theorem Hole.built (hole : Hole t h) : Built t h [] t :=
  ⟨hole.empty, fun _ _ => rfl, fun _ _ => rfl, fun _ _ _ => rfl⟩

theorem Hole.done (hole : Hole t h) (n : Nat) (all : ws = []) : Built t h ws t ∧ (n : Int) = n + ws.length := by
  rw [all]
  exact ⟨hole.built, (Int.add_zero n).symm⟩

/-- A cell and the list built at its tail. -/
theorem Built.cons {u : Lists} {z : Str} (hole : Hole t h) (linked : Linked t h (some (t.strings.next + 1)) u)
    (next : u.strings.next = t.strings.next + 2) (string : u.strings.heap (t.strings.next + 1) = some z)
    (strings : ∀ p, p < t.strings.next → u.strings.heap p = t.strings.heap p)
    (built : Built u (some t.strings.next) ws t') : Built t h (z.text :: ws) t' := by
  have below {c : Nat} (less : c < t.strings.next) : c < u.strings.next := by omega
  have ne : h ≠ some t.strings.next := fun same => lt_irrefl _ (hole.cell _ same).1
  refine ⟨?_, fun p less => (built.strings p (below less)).trans (strings p less),
    fun c less => (built.data c (below less)).trans (linked.data c less), fun h' other small => ?_⟩
  · have head : t'.deref h = some t.strings.next :=
      (built.others h ne fun c same => below (hole.cell c same).1).trans linked.here
    have data := built.data t.strings.next (by omega)
    rw [linked.cell] at data
    obtain ⟨cell, there, word⟩ := Option.map_eq_some_iff.mp data
    refine ⟨t.strings.next, cell, head, there, ?_, ?_⟩
    · have kept := (built.strings (t.strings.next + 1) (by omega)).trans string
      rw [word, strOf, Option.bind_some, kept]
      rfl
    · have rest := built.list
      rw [Lists.deref, there] at rest
      exact rest
  · refine (built.others h' (fun same => ?_) fun c same => below (small c same)).trans (linked.others h' other small)
    exact lt_irrefl _ (small _ same)

theorem slicer_gives {s : State} {start v : Nat} {Q : Option Nat → State → Prop} (lawful : Lawful pool) (inv : s.Inv)
    (here : s.heap p = some x) (order : start < v) (inside : v ≤ x.text.length)
    (holds : ∀ z : Str, z.Good → z.ref = 1 → z.text = (x.text.take v).drop start →
      Q (some s.next) (s.skip.set s.next z)) :
    Gives (slicer pool start v (some p)) s Q fun e _ => e = exHeap := by
  have held : ∀ k, some p = some k → ∃ x, s.heap k = some x := fun k same => ⟨x, Option.some.inj same ▸ here⟩
  have text : (strOf s.heap (some p)).text = x.text := congrArg Str.text (strOf_some here)
  have within : start ≤ v ∧ v ≤ (strOf s.heap (some p)).text.length := ⟨order.le, text ▸ inside⟩
  refine (Gives.and_ends (slicer_heap held within) (slicer_ends (E := fun _ => True) lawful inv held
    (fun out => absurd within out) trivial (fun same => absurd same order.ne) fun z good ref _ _ made => ?_)).imp
    (fun _ _ same => same) fun _ _ raised => raised.1
  rw [text] at made
  exact holds z good ref made

theorem cons_gives {Q : Nat → Lists → Prop}
    (holds : Q t.strings.next (({ t with strings := t.strings.skip } : Lists).setCell t.strings.next ⟨t.deref h, none⟩
      |>.assign h (some t.strings.next))) : Gives (cons pool h) t Q fun e _ => e = exHeap := by
  refine Gives.bind (Gives.bind ?_)
  unfold Gives
  dsimp only [MonadState.set, set, EStateM.set]
  cases pool t.strings.next (sizeT (sizeofHeap + sizeofList : Nat)) with
  | none => rfl
  | some b => exact holds

/-- The loop builds the list of the words that are left. -/
theorem tokens_gives (lawful : Lawful pool) (inv : t.strings.Inv) (here : t.strings.heap p = some x)
    (there : t.strings.heap q = some y) (hole : Hole t h) (below : first ≤ x.len.natAbs)
    (enough : x.len.natAbs ≤ first + fuel) (few : n ≤ first) :
    Gives (tokens pool p q x.len.natAbs (decide (x.len < 0)) fuel first h n) t
      (fun m t' => Built t h (words y.text (x.text.drop first)) t' ∧
        m = n + (words y.text (x.text.drop first)).length) fun e _ => e = exHeap := by
  induction fuel generalizing t first h n with
  | zero => exact hole.done n (by rw [List.drop_eq_nil_of_le (by rw [x.length_text]; omega), words_nil])
  | succ fuel ih =>
    have good := inv.good p x here
    have good' := inv.good q y there
    unfold tokens
    by_cases inside : first < x.len.natAbs
    swap
    · rw [if_neg inside]
      exact hole.done n (by rw [List.drop_eq_nil_of_le (by rw [x.length_text]; omega), words_nil])
    rw [if_pos inside]
    refine Gives.bind (load_gives here (Gives.bind (load_gives there ?_)))
    dsimp only
    generalize skip : scan (fun c => !tokdelim c y) (x.c (decide (x.len < 0))) x.len.natAbs x.len.natAbs first = j
    generalize over_ : scan (fun c => tokdelim c y) (x.c (decide (x.len < 0))) x.len.natAbs x.len.natAbs j = l
    obtain ⟨low, order, most, split⟩ := words_scan good good' inside.le skip over_
    by_cases same : j = l
    · rw [if_pos same] at split ⊢
      exact hole.done n split
    rw [if_neg same] at split ⊢
    have few' : n + 1 ≤ l := by omega
    have enough' : x.len.natAbs ≤ l + fuel := by omega
    refine Gives.bind (cons_gives (Gives.bind (Gives.bind (onStrings_gives ?_))))
    refine slicer_gives lawful inv.skip here (lt_of_le_of_ne order same) (x.length_text ▸ most)
      fun z zgood zref made => ?_
    refine Gives.bind (show Gives (tokens pool p q x.len.natAbs (decide (x.len < 0)) fuel l (some t.strings.next)
      (int (n + 1))) (t.linked h (some t.strings.skip.next) (t.strings.skip.skip.set t.strings.skip.next z)) _ _ from ?_)
    have small := good.size_lt
    have used := good.used.1
    have count : int ((n : Int) + 1) = ((n + 1 : Nat) : Int) := by
      rw [int_of_lt (by omega) (by omega)]
      omega
    have inv' : (t.strings.skip.skip.set t.strings.skip.next z).Inv := inv.skip.alloc zgood
    have linked := linked_linked hole (some t.strings.skip.next) (t.strings.skip.skip.set t.strings.skip.next z)
    have keeps (k : Nat) (old : k < t.strings.next) :
        (t.strings.skip.skip.set t.strings.skip.next z).heap k = t.strings.heap k :=
      State.heap_set_ne (by rw [State.skip_next]; omega) ..
    have string : (t.strings.skip.skip.set t.strings.skip.next z).heap (t.strings.next + 1) = some z :=
      State.heap_set ..
    have next : (t.strings.skip.skip.set t.strings.skip.next z).next = t.strings.next + 2 := rfl
    have strings := linked_strings t h (some t.strings.skip.next) (t.strings.skip.skip.set t.strings.skip.next z)
    rw [count]
    generalize t.linked h (some t.strings.skip.next) (t.strings.skip.skip.set t.strings.skip.next z) = u at linked strings ⊢
    rw [← strings] at inv' keeps string next
    have hole' : Hole u (some t.strings.next) := by
      refine ⟨?_, fun c same => ?_⟩
      · rw [Lists.deref, linked.cell]
        rfl
      · cases same
        exact ⟨by omega, _, linked.cell⟩
    have below := inv.lt_next here
    refine (ih inv' ((keeps p below).trans here) ((keeps q (inv.lt_next there)).trans there) hole' most
      enough' few').imp (fun m t' ⟨built, sum⟩ => ?_) fun _ _ raised => raised
    rw [split, ← made]
    refine ⟨Built.cons hole linked next string keeps built, ?_⟩
    rw [sum, List.length_cons]
    omega

/-- The text of a string variable of the caller. -/
def Lists.textOf (t : Lists) (o : Option Nat) : List Nat := (strOf t.strings.heap o).text

/-- The list of the words of `s`, and its length. -/
def Tokenized (t : Lists) (s d : Option Nat) (r : Int × Option Nat) (t' : Lists) : Prop :=
  ListOf t' r.2 (words (t.textOf d) (t.textOf s)) ∧ r.1 = (words (t.textOf d) (t.textOf s)).length

/-- `Sys_tokenize` gives the words of `s` but for a nil set of delimiters, with which it gives none. -/
theorem sysTokenize_exact {s d : Option Nat} (lawful : Lawful pool) (inv : t.strings.Inv)
    (held : ∀ p, some p = s ∨ some p = d → ∃ x, t.strings.heap p = some x) (enough : (t.textOf s).length ≤ fuel) :
    Gives (sysTokenize pool fuel s d) t (fun r t' => Tokenized t s d r t') (fun e _ => e = exHeap) ↔
      d ≠ none ∨ t.textOf s = [] := by
  cases d with
  | none =>
    have run : sysTokenize pool fuel s none t = .ok (0, none) t := by cases s <;> rfl
    have plain : words (t.textOf none) (t.textOf s) = if t.textOf s = [] then [] else [t.textOf s] := words_none _
    unfold Gives
    rw [run]
    dsimp only
    unfold Tokenized
    rw [plain]
    split
    · rename_i empty
      exact iff_of_true ⟨rfl, rfl⟩ (Or.inr empty)
    · rename_i some_
      exact iff_of_false (fun both => nomatch both.2) fun either => either.elim (fun no => no rfl) some_
  | some q =>
    refine iff_of_true ?_ (Or.inl (Option.some_ne_none q))
    cases s with
    | none =>
      have none : words (t.textOf (some q)) (t.textOf none) = [] := words_nil _
      unfold Gives Tokenized
      rw [none]
      exact ⟨rfl, rfl⟩
    | some p =>
      obtain ⟨x, here⟩ := held p (Or.inl rfl)
      obtain ⟨y, there⟩ := held q (Or.inr rfl)
      have good := inv.good p x here
      have text : t.textOf (some p) = x.text := congrArg Str.text (strOf_some here)
      have delims : t.textOf (some q) = y.text := congrArg Str.text (strOf_some there)
      unfold Tokenized
      rw [text, delims]
      rw [text, x.length_text] at enough
      refine Gives.bind (Gives.bind (load_gives (t := { t with l := none }) here ?_))
      dsimp only
      rw [good.int_len]
      refine Gives.bind ((tokens_gives (t := { t with l := none }) (h := none) (n := 0) lawful inv here there
        ⟨rfl, fun c none => nomatch none⟩ (Nat.zero_le _) (by omega) (le_refl 0)).imp (fun m t' ⟨built, count⟩ => ?_)
        fun _ _ raised => raised)
      rw [List.drop_zero] at built count
      exact ⟨built.list, by rw [count]; omega⟩

def twoSlots : State := { heap := fun _ => none, next := 0, slots := [none, none], overran := false }

/-- One variable holds `a b`. -/
def letterPair : State := (exec heapmem (Event.c2string 0 [0x61, 0x20, 0x62]) twoSlots).getD twoSlots

/-- The other one holds a blank, as a rune. -/
def phrase : State := (exec heapmem (Event.newrunes 1 [0x20]) letterPair).getD letterPair

def phraseLists : Lists := ⟨phrase, fun _ => none, none⟩

theorem exec_getD_inv {e : Event} {s : State} (lawful : Lawful pool) (inv : s.Inv) (careful : e.Careful s) :
    ((exec pool e s).getD s).Inv := by
  cases run : exec pool e s with
  | none => exact inv
  | some s' => exact exec_inv lawful inv careful run

theorem phrase_inv : phrase.Inv := by
  have fresh : twoSlots.Fresh := ⟨fun _ => rfl, fun _ => by simp [twoSlots], rfl⟩
  have text : TextOk [0x61, 0x20, 0x62] := ⟨by decide, fun nc runes => nomatch runes⟩
  have first : letterPair.Inv := exec_getD_inv (e := Event.c2string 0 _) heapmem_lawful fresh.inv text
  have short : [0x20].length < 2 ^ 30 - 16 := by decide
  exact exec_getD_inv (e := Event.newrunes 1 _) heapmem_lawful first short

attribute [local irreducible] Gives in
theorem sysTokenize_exact_phrase : phrase.Inv ∧
    words (phraseLists.textOf (some 1)) (phraseLists.textOf (some 0)) = [[0x61], [0x62]] ∧
    Gives (sysTokenize heapmem 3 (some 0) (some 1)) phraseLists
      (fun r t' => Tokenized phraseLists (some 0) (some 1) r t') fun e _ => e = exHeap := by
  have held (p : Nat) (either : some p = some 0 ∨ some p = some 1) : ∃ x, phraseLists.strings.heap p = some x := by
    rcases either with same | same
    · cases same
      exact ⟨_, rfl⟩
    · cases same
      exact ⟨_, rfl⟩
  have enough : (phraseLists.textOf (some 0)).length ≤ 3 := by decide
  exact ⟨phrase_inv, by decide,
    (sysTokenize_exact (t := phraseLists) heapmem_lawful phrase_inv held enough).mpr (Or.inl (Option.some_ne_none _))⟩

/-- With a nil set of delimiters, `a b` gives no word. -/
theorem tokenize_nil_delim : phrase.Inv ∧
    sysTokenize heapmem 3 (some 0) none phraseLists = .ok (0, none) phraseLists ∧
    ¬Tokenized phraseLists (some 0) none (0, none) phraseLists :=
  ⟨phrase_inv, rfl, fun both => absurd both.2 (by decide)⟩

end Inferno.Strings
