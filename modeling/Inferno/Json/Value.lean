import Mathlib

namespace Inferno.Json

/-- The characters of a Limbo string. -/
abbrev Chars := List Nat

/-- The bits of a `real`. -/
abbrev Real := BitVec 64

/-- A `ref JValue` and what it refers to: `ref` tells one reference from another. -/
inductive JValue where
  | nil
  | true (ref : Nat)
  | false (ref : Nat)
  | null (ref : Nat)
  | int (ref : Nat) (value : BitVec 64)
  | real (ref : Nat) (value : Real)
  | string (ref : Nat) (s : Chars)
  | array (ref : Nat) (a : List JValue)
  | object (ref : Nat) (mem : List (Chars × JValue))

section Code

def isnan (x : Real) : Bool := x.toNat / 2 ^ 52 % 2 ^ 11 = 2 ^ 11 - 1 && x.toNat % 2 ^ 52 ≠ 0

/-- The same bits for both zeros. -/
def canon (x : Real) : Real := if x.toNat = 2 ^ 63 then 0 else x

/-- `==` of reals. -/
def eqreal (x y : Real) : Bool := !isnan x && !isnan y && canon x = canon y

def JValue.ref : JValue → Option Nat
  | nil => none
  | true r | false r | null r | int r _ | real r _ | string r _ | array r _ | object r _ => some r

mutual

def JValue.eq (a b : JValue) : Bool :=
  if a.ref = b.ref then Bool.true
  else
    match a, b with
    | .true _, .true _ | .false _, .false _ | .null _, .null _ => Bool.true
    | .int _ r, .int _ s => r = s
    | .real _ r, .real _ s => eqreal r s
    | .string _ r, .string _ s => r = s
    | .array _ r, .array _ s => r.length = s.length && eqArray r s
    | .object _ r, .object _ s => eqObject r s
    | _, _ => Bool.false

/-- The loop over two arrays of one length. -/
def eqArray : List JValue → List JValue → Bool
  | [], _ | _, [] => Bool.true
  | r :: rs, s :: ss => (if r.ref = none then decide (s.ref = none) else r.eq s) && eqArray rs ss

/-- The loop over the members of the one object; `ls` stays at the members of the other. -/
def eqObject : List (Chars × JValue) → List (Chars × JValue) → Bool
  | [], ls => ls.isEmpty
  | _ :: _, [] => Bool.false
  | r :: lr, s :: ls => eqMember r s && eqObject lr (s :: ls)

def eqMember : Chars × JValue → Chars × JValue → Bool
  | (rn, rv), (sn, sv) => rn = sn && (if rv.ref = none then decide (sv.ref = none) else rv.eq sv)

end

/-- The copy, at a new reference; the value of a `nil` is none. -/
def JValue.copy (v : JValue) (fresh : Nat) : Option JValue :=
  match v with
  | nil => none
  | true _ => some (true fresh)
  | false _ => some (false fresh)
  | null _ => some (null fresh)
  | int _ value => some (int fresh value)
  | real _ value => some (real fresh value)
  | string _ s => some (string fresh s)
  | array _ a => some (array fresh a)
  | object _ mem => some (object fresh mem)

/-- `get` of the members; `nil` where there is none of the label. -/
def getMember (label : Chars) : List (Chars × JValue) → JValue
  | [] => .nil
  | (n, v) :: l => if n = label then v else getMember label l

def JValue.get (v : JValue) (label : Chars) : JValue :=
  match v with
  | object _ mem => getMember label mem
  | _ => nil

/-- The loop of `set`: the members without the one of the label, `ol` before it turned around again. -/
def setLoop (label : Chars) (ol : List (Chars × JValue)) : List (Chars × JValue) → Option (List (Chars × JValue))
  | [] => none
  | p :: l => if p.1 = label then some (ol.reverse ++ l) else setLoop label (p :: ol) l

/-- The value with its new members; none is the exception. -/
def JValue.set (v : JValue) (label : Chars) (val : JValue) : Option JValue :=
  match v with
  | object r mem => some (object r ((setLoop label [] mem).getD ((label, val) :: mem)))
  | _ => none

end Code

/-- The structure of a value, without the references. -/
inductive Shape where
  | nil
  | true
  | false
  | null
  | int (value : BitVec 64)
  | real (value : Real)
  | string (s : Chars)
  | array (a : List Shape)
  | object (mem : List (Chars × Shape))

mutual

def JValue.shape : JValue → Shape
  | .nil => .nil
  | .true _ => .true
  | .false _ => .false
  | .null _ => .null
  | .int _ value => .int value
  | .real _ value => .real (canon value)
  | .string _ s => .string s
  | .array _ a => .array (shapes a)
  | .object _ mem => .object (members mem)

def shapes : List JValue → List Shape
  | [] => []
  | v :: a => v.shape :: shapes a

def members : List (Chars × JValue) → List (Chars × Shape)
  | [] => []
  | p :: mem => member p :: members mem

def member : Chars × JValue → Chars × Shape
  | (label, v) => (label, v.shape)

end

mutual

/-- The value and all in it are what the heap has at their references. -/
def JValue.In (heap : Nat → JValue) : JValue → Prop
  | .nil => True
  | .true r => heap r = .true r
  | .false r => heap r = .false r
  | .null r => heap r = .null r
  | .int r value => heap r = .int r value
  | .real r value => heap r = .real r value
  | .string r s => heap r = .string r s
  | .array r a => heap r = .array r a ∧ InArray heap a
  | .object r mem => heap r = .object r mem ∧ InObject heap mem

def InArray (heap : Nat → JValue) : List JValue → Prop
  | [] => True
  | v :: a => v.In heap ∧ InArray heap a

def InObject (heap : Nat → JValue) : List (Chars × JValue) → Prop
  | [] => True
  | p :: mem => InMember heap p ∧ InObject heap mem

def InMember (heap : Nat → JValue) : Chars × JValue → Prop
  | (_, v) => v.In heap

end

mutual

/-- Where the two differ in their references there is no object with members and no real that is not a number. -/
def JValue.Plain (a b : JValue) : Prop :=
  a.ref = b.ref ∨
    match a, b with
    | .real _ r, .real _ _ => isnan r = Bool.false
    | .array _ r, .array _ s => PlainArray r s
    | .object _ r, .object _ _ => r = []
    | _, _ => True

def PlainArray : List JValue → List JValue → Prop
  | [], _ | _, [] => True
  | r :: rs, s :: ss => r.Plain s ∧ PlainArray rs ss

end

variable {heap : Nat → JValue} {a b v x : JValue} {m n : Chars} {mem l : List (Chars × JValue)}

theorem JValue.In.of_ref (here : a.In heap) {r : Nat} (same : a.ref = some r) : heap r = a := by
  cases a with
  | nil => nomatch same
  | array q elems =>
    obtain rfl := Option.some.inj same
    exact here.1
  | object q mem =>
    obtain rfl := Option.some.inj same
    exact here.1
  | _ =>
    obtain rfl := Option.some.inj same
    exact here

/-- A reference stands for one value. -/
theorem eq_of_ref (left : a.In heap) (right : b.In heap) (same : a.ref = b.ref) : a = b := by
  cases ref : a.ref with
  | none =>
    rw [ref] at same
    cases a with
    | nil =>
      cases b with
      | nil => rfl
      | _ => nomatch same
    | _ => nomatch ref
  | some r => exact (left.of_ref ref).symm.trans (right.of_ref (same.symm.trans ref))

theorem eqObject_iff : eqObject mem l = true ↔ mem = [] ∧ l = [] := by
  induction mem generalizing l with
  | nil =>
    rw [eqObject, List.isEmpty_iff]
    exact ⟨fun none => ⟨rfl, none⟩, And.right⟩
  | cons p mem ih =>
    refine iff_of_false (fun same => ?_) fun both => nomatch both.1
    cases l with
    | nil =>
      rw [eqObject] at same
      nomatch same
    | cons q l =>
      rw [eqObject, Bool.and_eq_true, ih] at same
      nomatch same.2.2

theorem isnan_canon (x : Real) : isnan (canon x) = isnan x := by
  unfold canon
  split
  · rename_i zero
    rw [isnan, isnan, zero]
    rfl
  · rfl

theorem eqArray_cons {r s : List JValue} : eqArray (a :: r) (b :: s) = (a.eq b && eqArray r s) := by
  rw [eqArray]
  cases a with
  | nil =>
    rw [JValue.eq.eq_def]
    cases b <;> rfl
  | _ => rfl

mutual

/-- `eq` compares the structure, but for the places where the two are not plain. -/
theorem JValue.eq_iff (a b : JValue) (left : a.In heap) (right : b.In heap) :
    a.eq b = true ↔ a.shape = b.shape ∧ a.Plain b := by
  by_cases same : a.ref = b.ref
  · obtain rfl := eq_of_ref left right same
    rw [JValue.eq.eq_def, if_pos rfl, JValue.Plain.eq_def]
    exact iff_of_true rfl ⟨rfl, .inl rfl⟩
  · rw [JValue.eq.eq_def, if_neg same, JValue.Plain.eq_def, or_iff_right same]
    cases a with
    | array p r =>
      cases b with
      | array q s =>
        simp only [JValue.shape, Shape.array.injEq]
        exact eqArray_iff r s left.2 right.2
      | _ => simp only [JValue.shape, reduceCtorEq, false_and, Bool.false_eq_true]
    | object p mem =>
      cases b with
      | object q l =>
        simp only [JValue.shape, Shape.object.injEq]
        rw [eqObject_iff]
        refine ⟨fun both => ⟨by rw [both.1, both.2], both.1⟩, fun both => ⟨both.2, ?_⟩⟩
        rw [both.2] at both
        cases l with
        | nil => rfl
        | cons q l => nomatch both.1
      | _ => simp only [JValue.shape, reduceCtorEq, false_and, Bool.false_eq_true]
    | real p r =>
      cases b with
      | real q s =>
        simp only [JValue.shape, Shape.real.injEq, eqreal, Bool.and_eq_true, Bool.not_eq_true', decide_eq_true_eq]
        refine ⟨fun both => ⟨both.2, both.1.1⟩, fun both => ⟨⟨both.2, ?_⟩, both.1⟩⟩
        rw [← isnan_canon s, ← both.1, isnan_canon r]
        exact both.2
      | _ => simp only [JValue.shape, reduceCtorEq, false_and, Bool.false_eq_true]
    | _ =>
      cases b <;> simp_all [JValue.shape, JValue.ref]

theorem eqArray_iff (r s : List JValue) (left : InArray heap r) (right : InArray heap s) :
    (r.length = s.length && eqArray r s) = true ↔ shapes r = shapes s ∧ PlainArray r s := by
  match r, s with
  | [], [] => simp [eqArray, PlainArray]
  | [], _ :: _ | _ :: _, [] => simp [shapes]
  | a :: r, b :: s =>
    have first := JValue.eq_iff a b left.1 right.1
    have rest := eqArray_iff r s left.2 right.2
    rw [Bool.and_eq_true, decide_eq_true_eq] at rest
    rw [eqArray_cons, PlainArray, shapes, shapes, List.cons.injEq, Bool.and_eq_true, decide_eq_true_eq,
      Bool.and_eq_true,
      List.length_cons, List.length_cons, Nat.add_right_cancel_iff, first, and_left_comm, rest]
    exact and_and_and_comm

end

theorem copy_shape {fresh : Nat} (copied : v.copy fresh = some x) : x.shape = v.shape := by
  cases v with
  | nil => nomatch copied
  | _ =>
    obtain rfl := Option.some.inj copied
    rfl

def labels (mem : List (Chars × JValue)) : List Chars := mem.map Prod.fst

/-- The members but the first one of the label. -/
def without (label : Chars) (mem : List (Chars × JValue)) : List (Chars × JValue) := mem.eraseP (·.1 = label)

theorem without_here {p : Chars × JValue} (same : p.1 = m) : without m (p :: mem) = mem :=
  List.eraseP_cons_of_pos (decide_eq_true same)

theorem without_other {p : Chars × JValue} (other : p.1 ≠ m) : without m (p :: mem) = p :: without m mem :=
  List.eraseP_cons_of_neg (by rw [decide_eq_true_eq]; exact other)

/-- `set` takes the first member of the label away. -/
theorem setLoop_eq (ol : List (Chars × JValue)) :
    setLoop m ol mem = if m ∈ labels mem then some (ol.reverse ++ without m mem) else none := by
  induction mem generalizing ol with
  | nil => rfl
  | cons p mem ih =>
    rw [setLoop]
    by_cases same : p.1 = m
    · rw [if_pos same, without_here same, if_pos]
      exact same ▸ List.mem_cons_self ..
    · rw [if_neg same, ih, without_other same, List.reverse_cons, List.append_assoc, List.singleton_append]
      have other : m ∈ labels (p :: mem) ↔ m ∈ labels mem := List.mem_cons.trans (or_iff_right fun eq => same eq.symm)
      rw [if_congr other rfl rfl]

theorem getMember_none (none : m ∉ labels mem) : getMember m mem = .nil := by
  induction mem with
  | nil => rfl
  | cons p mem ih =>
    have other : p.1 ≠ m := fun same => none (List.mem_cons.mpr (.inl same.symm))
    rw [getMember, if_neg other]
    exact ih fun there => none (List.mem_cons_of_mem _ there)

theorem getMember_erase (other : n ≠ m) : getMember n (without m mem) = getMember n mem := by
  induction mem with
  | nil => rfl
  | cons p mem ih =>
    by_cases same : p.1 = m
    · rw [without_here same, getMember, if_neg fun eq => other (eq.symm.trans same)]
    · rw [without_other same, getMember, getMember, ih]

theorem erase_labels (distinct : (labels mem).Nodup) :
    (labels (without m mem)).Nodup ∧ m ∉ labels (without m mem) := by
  have less : (labels (without m mem)).Sublist (labels mem) := List.eraseP_sublist.map _
  refine ⟨distinct.sublist less, ?_⟩
  clear less
  induction mem with
  | nil => exact List.not_mem_nil
  | cons p mem ih =>
    obtain ⟨apart, distinct⟩ := List.nodup_cons.mp distinct
    by_cases same : p.1 = m
    · rw [without_here same]
      exact same ▸ apart
    · rw [without_other same]
      intro there
      rcases List.mem_cons.mp there with eq | there
      · exact same eq.symm
      · exact ih distinct there

/-- `eq` says whether two values have one structure. -/
def EqRight (a b : JValue) : Prop := a.eq b = true ↔ a.shape = b.shape

/-- `set` of an object gives the label its value and leaves the others as they are. -/
def SetRight (r : Nat) (mem : List (Chars × JValue)) (m : Chars) (x : JValue) : Prop :=
  ∃ after, (JValue.object r mem).set m x = some (.object r after) ∧ getMember m after = x ∧
    (∀ n ≠ m, getMember n after = getMember n mem) ∧ (labels after).Nodup

/-- `eq` is right where two values of one structure are plain, and `set` where the label is new or the value `nil`. -/
theorem jvalue_right {r : Nat} (left : a.In heap) (right : b.In heap) (distinct : (labels mem).Nodup) :
    (EqRight a b ↔ (a.shape = b.shape → a.Plain b)) ∧ (SetRight r mem m x ↔ m ∉ labels mem ∨ x = .nil) := by
  refine ⟨?_, ?_⟩
  · unfold EqRight
    rw [JValue.eq_iff a b left right]
    exact ⟨fun same shape => (same.mpr shape).2, fun plain => ⟨And.left, fun shape => ⟨shape, plain shape⟩⟩⟩
  · have run : (JValue.object r mem).set m x =
        some (.object r (if m ∈ labels mem then without m mem else (m, x) :: mem)) := by
      rw [JValue.set, setLoop_eq]
      split <;> rfl
    unfold SetRight
    rw [run]
    by_cases there : m ∈ labels mem
    · obtain ⟨apart, gone⟩ := @erase_labels m mem distinct
      rw [if_pos there, or_iff_right (not_not_intro there)]
      constructor
      · rintro ⟨after, same, got, -⟩
        injection Option.some.inj same with _ same
        rw [← got, ← same, getMember_none gone]
      · rintro rfl
        exact ⟨_, rfl, getMember_none gone, fun n other => getMember_erase other, apart⟩
    · rw [if_neg there]
      refine iff_of_true ⟨_, rfl, if_pos rfl, fun n other => if_neg other.symm, ?_⟩ (.inl there)
      exact List.nodup_cons.mpr ⟨there, distinct⟩

/-- A heap with the number 1 in the member `a` of an object. -/
def little : Nat → JValue
  | 1 => .int 1 1
  | 2 => .object 2 [([97], .int 1 1)]
  | _ => .nil

theorem jvalue_right_little : (EqRight (.int 1 1) (.object 2 [([97], .int 1 1)]) ↔
      ((JValue.int 1 1).shape = (JValue.object 2 [([97], .int 1 1)]).shape →
        (JValue.int 1 1).Plain (.object 2 [([97], .int 1 1)]))) ∧
    (SetRight 2 [([97], .int 1 1)] [98] (.int 1 1) ↔ [98] ∉ labels [([97], .int 1 1)] ∨ JValue.int 1 1 = .nil) :=
  @jvalue_right little _ _ _ _ _ _ rfl ⟨rfl, rfl, trivial⟩ (List.nodup_singleton _)

/-- Two objects of one member each are never equal, and a member set again is gone. -/
theorem jvalue_wrong : ¬EqRight (.object 2 [([97], .int 1 1)]) (.object 3 [([97], .int 1 1)]) ∧
    ¬SetRight 2 [([97], .int 1 1)] [97] (.int 4 5) := by
  constructor
  · intro right
    have same := right.mpr rfl
    rw [JValue.eq.eq_def] at same
    nomatch (eqObject_iff.mp same).1
  · rintro ⟨after, run, got, -⟩
    injection Option.some.inj run with _ none
    rw [← none] at got
    nomatch got

end Inferno.Json
