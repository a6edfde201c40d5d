import Inferno.Lib9.Stat
import Inferno.Styx.FcallRefuse

namespace Inferno.Lib9

open Lib Styx Strings

/-- `convD2M` gets to no string whose length is negative as an `int`, for which `memmove` would get a huge size. -/
def Sized (nbuf : Nat) : List (Option (List UInt8)) → Nat → Prop
  | [], _ => True
  | s :: sv, p => p + nsv s + bit16sz > nbuf ∨ 0 ≤ nsv s ∧ Sized nbuf sv (p + bit16sz + (nsv s).toNat)

/-- A string does not fit, or all do and end beyond what an `int` can hold. -/
def Refused (nbuf : Nat) : List (Option (List UInt8)) → Nat → Prop
  | [], p => 2 ^ 31 ≤ p
  | s :: sv, p => p + nsv s + bit16sz > nbuf ∨ 0 ≤ nsv s ∧ Refused nbuf sv (p + bit16sz + (nsv s).toNat)

/-- Where the strings start. -/
def strings : Nat := statfixlen - 4 * bit16sz

/-- Where `convD2M` returns neither 0 nor the bare count, its bytes decode to the `Dir`. -/
structure Dir.Faithful (d : Dir) (nbuf : Nat) : Prop where
  sized : bit16sz ≤ nbuf → sizeD2M d ≤ nbuf → Sized nbuf d.sv strings
  decodes : (convD2M d nbuf).1 = 0 ∨ (convD2M d nbuf).1 = bit16sz ∨
    ∀ buf, Holds buf 0 (convD2M d nbuf).2 → statcheck buf (convD2M d nbuf).1 = some 0 ∧
      ∀ d₀, convM2D buf (convD2M d nbuf).1 d₀ true = some ((convD2M d nbuf).1, d.named)

variable {d : Dir} {buf : ByteMem} {m n nbuf p : Nat} {s : Option (List UInt8)} {sv : List (Option (List UInt8))}

theorem int_lt (v : Int) : int v < 2 ^ 31 := by
  simp only [int, Int.bmod_def]
  omega

theorem nsv_lt (s : Option (List UInt8)) : nsv s < 2 ^ 31 := int_lt _

theorem nsv_of_lt (small : (s.getD []).length < 2 ^ 31) : nsv s = (s.getD []).length := int_of_lt (by omega) (by omega)

theorem nsv_le (s : Option (List UInt8)) : (nsv s).toNat ≤ (s.getD []).length := by
  by_cases small : (s.getD []).length < 2 ^ 31
  · rw [nsv_of_lt small, Int.toNat_natCast]
  · have less := nsv_lt s
    omega

theorem Refused.sized (refused : Refused nbuf sv p) : Sized nbuf sv p := by
  induction sv generalizing p with
  | nil => trivial
  | cons s sv ih => exact refused.imp id fun ⟨nonneg, rest⟩ => ⟨nonneg, ih rest⟩

/-- The bytes of a string, as `convD2M` stores them. -/
def stored (s : Option (List UInt8)) : List UInt8 := pbit16 (u32 (nsv s)) ++ (s.getD []).take (nsv s).toNat

theorem length_stored (s : Option (List UInt8)) : (stored s).length = bit16sz + (nsv s).toNat := by
  rw [stored, List.length_append, length_pbit16, List.length_take, Nat.min_eq_left (nsv_le s)]
  rfl

theorem putStrings_cons (s : Option (List UInt8)) (sv : List (Option (List UInt8))) (out : List UInt8)
    (fits : ¬(out.length : Int) + nsv s + bit16sz > nbuf) :
    putStrings nbuf (s :: sv) out = putStrings nbuf sv (out ++ stored s) := by
  rw [putStrings, if_neg fits, List.append_assoc]
  rfl

theorem putStrings_refused {out : List UInt8} (refused : Refused nbuf sv out.length) :
    (putStrings nbuf sv out).1 = false ∨ 2 ^ 31 ≤ (putStrings nbuf sv out).2.length := by
  induction sv generalizing out with
  | nil => exact Or.inr refused
  | cons s sv ih =>
    by_cases beyond : (out.length : Int) + nsv s + bit16sz > nbuf
    · refine Or.inl ?_
      rw [putStrings, if_pos beyond]
    · obtain ⟨-, rest⟩ := refused.resolve_left beyond
      rw [putStrings_cons s sv out beyond]
      refine ih ?_
      rwa [List.length_append, length_stored, ← Nat.add_assoc]

/-- What the strings take in the entry. -/
def taken (sv : List (Option (List UInt8))) : Nat := (sv.map fun s => bit16sz + (nsv s).toNat).sum

theorem taken_cons (s : Option (List UInt8)) (sv : List (Option (List UInt8))) :
    taken (s :: sv) = bit16sz + (nsv s).toNat + taken sv := by
  rw [taken, List.map_cons, List.sum_cons]
  rfl

theorem putStrings_whole {out : List UInt8} (sized : Sized nbuf sv out.length) (refused : ¬Refused nbuf sv out.length) :
    (∀ s ∈ sv, 0 ≤ nsv s) ∧ out.length + taken sv < 2 ^ 31 ∧
      ∃ q, putStrings nbuf sv out = (true, q) ∧ q.length = out.length + taken sv := by
  induction sv generalizing out with
  | nil => exact ⟨fun s member => (nomatch member), Nat.not_le.mp refused, out, rfl, rfl⟩
  | cons s sv ih =>
    obtain ⟨fits, rest⟩ := not_or.mp refused
    obtain ⟨nonneg, sized⟩ := sized.resolve_left fits
    have next : (out ++ stored s).length = out.length + bit16sz + (nsv s).toNat := by
      rw [List.length_append, length_stored, Nat.add_assoc]
    have left : ¬Refused nbuf sv (out ++ stored s).length := fun again => rest ⟨nonneg, next ▸ again⟩
    obtain ⟨all, small, q, ran, length⟩ := ih (next ▸ sized) left
    have sum := taken_cons s sv
    refine ⟨List.forall_mem_cons.mpr ⟨nonneg, all⟩, by omega, q, ?_, by omega⟩
    rw [putStrings_cons s sv out fits, ran]

theorem le_taken (sv : List (Option (List UInt8))) : 2 * sv.length ≤ taken sv := by
  induction sv with
  | nil => exact Nat.zero_le _
  | cons s sv ih =>
    rw [taken_cons, List.length_cons]
    simp only [bit16sz]
    omega

theorem foldl_nsv (nonneg : ∀ s ∈ sv, 0 ≤ nsv s) (small : n + taken sv < 2 ^ 31) :
    sv.foldl (fun ns s => int (ns + nsv s)) (n : Int) + 2 * sv.length = ((n + taken sv : Nat) : Int) := by
  induction sv generalizing n with
  | nil => rfl
  | cons s sv ih =>
    have first := nonneg s List.mem_cons_self
    have sum := taken_cons s sv
    have step : int ((n : Int) + nsv s) = ((n + (nsv s).toNat : Nat) : Int) := by
      rw [int_of_lt (by omega) (by omega)]
      omega
    have rest := ih (n := n + (nsv s).toNat) (fun s member => nonneg s (List.mem_cons_of_mem _ member)) (by omega)
    rw [List.foldl_cons, step, List.length_cons]
    simp only [bit16sz] at sum
    omega

theorem int_ss {ns : Int} {t : Nat} (sum : ns + 8 = t) (eight : 8 ≤ t) (small : 41 + t < 2 ^ 31) :
    int ((49 : Nat) + ns) = ((41 + t : Nat) : Int) := by
  rw [int_of_lt (by omega) (by omega)]
  omega

theorem sizeD2M_taken (nonneg : ∀ s ∈ d.sv, 0 ≤ nsv s) (small : strings + taken d.sv < 2 ^ 31) :
    int (statfixlen + d.sv.foldl (fun ns s => int (ns + nsv s)) 0) = ((strings + taken d.sv : Nat) : Int) := by
  have sum := foldl_nsv (n := 0) nonneg ((Nat.add_lt_add_right (by decide : 0 < strings) _).trans small)
  have four : d.sv.length = 4 := rfl
  have zero : ((0 : Nat) : Int) = 0 := rfl
  have counts : 2 * ((4 : Nat) : Int) = 8 := rfl
  rw [Nat.zero_add, four, zero, counts] at sum
  have eight : 8 ≤ taken d.sv := le_taken d.sv
  exact int_ss sum eight small

theorem length_head (d : Dir) (n : Nat) : (pbit16 n ++ d.fixed).length = strings := by
  rw [List.length_append, length_pbit16, length_fixed]
  rfl

/-- Where nothing refuses the entry, `convD2M` returns its whole size. -/
theorem convD2M_whole (sized : Sized nbuf d.sv strings) (refused : ¬Refused nbuf d.sv strings)
    (room : bit16sz ≤ nbuf) (fits : sizeD2M d ≤ nbuf) :
    (∀ s ∈ d.sv, 0 ≤ nsv s) ∧ (convD2M d nbuf).1 = strings + taken d.sv := by
  have head := length_head d (u32 (int (statfixlen + d.sv.foldl (fun ns s => int (ns + nsv s)) 0) - bit16sz))
  obtain ⟨nonneg, small, q, ran, length⟩ := putStrings_whole (head ▸ sized) fun again => refused (head ▸ again)
  rw [head] at small length
  have ss := sizeD2M_taken nonneg small
  refine ⟨nonneg, ?_⟩
  have enough : ¬u32 (int (statfixlen + d.sv.foldl (fun ns s => int (ns + nsv s)) 0)) > nbuf := Nat.not_lt.mpr fits
  unfold convD2M
  dsimp only
  rw [if_neg (Nat.not_lt.mpr room), if_neg enough, ran]
  dsimp only
  rw [if_neg]
  · exact length
  · rintro (no | other)
    · nomatch no
    · exact other (by rw [ss, length])

theorem convD2M_refused (refused : Refused nbuf d.sv strings) (room : bit16sz ≤ nbuf) (fits : sizeD2M d ≤ nbuf) :
    (convD2M d nbuf).1 = 0 := by
  have head := length_head d (u32 (int (statfixlen + d.sv.foldl (fun ns s => int (ns + nsv s)) 0) - bit16sz))
  have stops := putStrings_refused (head.symm ▸ refused : Refused nbuf d.sv _)
  have enough : ¬u32 (int (statfixlen + d.sv.foldl (fun ns s => int (ns + nsv s)) 0)) > nbuf := Nat.not_lt.mpr fits
  unfold convD2M
  dsimp only
  rw [if_neg (Nat.not_lt.mpr room), if_neg enough, if_pos]
  rcases stops with fails | long
  · exact Or.inl (by rw [fails]; rfl)
  · refine Or.inr fun same => ?_
    have less := int_lt (statfixlen + d.sv.foldl (fun ns s => int (ns + nsv s)) 0)
    rw [same] at less
    exact absurd long (Nat.not_le.mpr (by exact_mod_cast less))

theorem statcheck_lt (accepted : statcheck buf n = some 0) : n < 65538 := by
  unfold statcheck at accepted
  split at accepted
  · nomatch accepted
  obtain ⟨count, number, rest⟩ := Option.bind_eq_some_iff.mp accepted
  split at rest
  · nomatch rest
  rename_i same
  obtain ⟨bytes, text, rfl⟩ := Option.map_eq_some_iff.mp number
  have two : bytes.length = 2 := by
    rw [read] at text
    obtain ⟨-, same⟩ := Option.ite_none_right_eq_some.mp text
    cases same
    exact length_readBytes ..
  have less := leNat_lt bytes
  rw [two] at less
  simp only [bit16sz] at same
  omega

theorem getStrings_out {i : Nat} {s s' : Strs} (ran : getStrings buf m true i s = some (some s'))
    (short : s.out.length ≤ s.p) : s'.out.length ≤ s'.p := by
  induction i generalizing s with
  | zero =>
    cases ran
    exact short
  | succ i ih =>
    rw [getStrings] at ran
    split at ran
    · cases ran
    obtain ⟨k, -, rest⟩ := Option.bind_eq_some_iff.mp ran
    split at rest
    · cases rest
    obtain ⟨t, one, rest⟩ := Option.bind_eq_some_iff.mp rest
    refine ih rest ?_
    rw [Strs.take, if_pos rfl] at one
    obtain ⟨bytes, text, same⟩ := Option.bind_eq_some_iff.mp one
    cases same
    rw [read] at text
    obtain ⟨-, same⟩ := Option.ite_none_right_eq_some.mp text
    cases same
    simp only [List.length_append, length_readBytes, List.length_singleton, bit16sz]
    omega

/-- The strings of a decoded entry are no longer than the entry. -/
theorem length_decoded {d₀ d' : Dir} (ran : convM2D buf n d₀ true = some (n, d')) (some_ : statfixlen ≤ n) :
    ∀ s ∈ d'.sv, (s.getD []).length ≤ n := by
  rw [convM2D, if_neg (Nat.not_lt.mpr some_)] at ran
  obtain ⟨⟨p, d₁⟩, -, ran⟩ := Option.bind_eq_some_iff.mp ran
  obtain ⟨o, strs, ran⟩ := Option.bind_eq_some_iff.mp ran
  cases o with
  | none =>
    have no : statfixlen ≤ 0 := (Prod.mk.inj (Option.some.inj ran)).1 ▸ some_
    cases no
  | some t =>
    obtain ⟨atEnd, same⟩ := Prod.mk.inj (Option.some.inj ran)
    have out := getStrings_out strs (Nat.zero_le _)
    have each (i : Nat) : ((t.string true i).getD []).length ≤ n := by
      have part : (cstr t.out (t.sv.getD i 0)).length ≤ t.out.length :=
        ((List.takeWhile_prefix _).length_le).trans (by rw [List.length_drop]; omega)
      exact part.trans (out.trans (le_of_eq atEnd))
    rw [← same]
    simp only [Strs.into, Dir.sv, List.forall_mem_cons]
    exact ⟨each 0, each 1, each 2, each 3, fun s member => by cases member⟩

theorem sized_of_fits (small : ∀ s ∈ sv, (s.getD []).length < 65536) (fits : p + taken sv ≤ nbuf) :
    Sized nbuf sv p := by
  induction sv generalizing p with
  | nil => trivial
  | cons s sv ih =>
    rw [taken_cons] at fits
    have value : nsv s = (s.getD []).length := nsv_of_lt (lt_trans (small s List.mem_cons_self) (by decide))
    refine Or.inr ⟨by rw [value]; exact Int.natCast_nonneg _, ?_⟩
    exact ih (fun s member => small s (List.mem_cons_of_mem _ member)) (by omega)

theorem taken_eq (small : ∀ s ∈ sv, (s.getD []).length < 2 ^ 31) :
    taken sv = 2 * sv.length + (sv.map fun s => (s.getD []).length).sum := by
  induction sv with
  | nil => rfl
  | cons s sv ih =>
    have rest := ih fun s member => small s (List.mem_cons_of_mem _ member)
    rw [taken_cons, nsv_of_lt (small s List.mem_cons_self), Int.toNat_natCast, rest, List.map_cons, List.sum_cons,
      List.length_cons]
    simp only [bit16sz]
    omega

theorem taken_total (small : ∀ s ∈ d.sv, (s.getD []).length < 2 ^ 31) :
    strings + taken d.sv = statfixlen + d.total := by
  have start : strings = 41 := rfl
  have fix : statfixlen = 49 := rfl
  have sum : taken d.sv = 2 * 4 + d.total := taken_eq small
  omega

/-- For every `Dir`, `convD2M` returns 0 or the bare count or stores what decodes to it, exactly where the buffer is
smaller than the size, a string does not fit, the size is no `int`, or the entry without its count has less than 65536
bytes. -/
theorem Dir.faithful_iff (plain : ∀ s ∈ d.sv, 0 ∉ s.getD []) (nbuf : Nat) :
    d.Faithful nbuf ↔ nbuf < bit16sz ∨ nbuf < sizeD2M d ∨ Refused nbuf d.sv strings ∨
      statfixlen + d.total < 65538 := by
  constructor
  · intro faithful
    by_contra other
    obtain ⟨room, fits, refused, large⟩ := not_or.mp other |>.imp id fun other => not_or.mp other |>.imp id not_or.mp
    have sized := faithful.sized (Nat.not_lt.mp room) (Nat.not_lt.mp fits)
    obtain ⟨-, value⟩ := convD2M_whole sized refused (Nat.not_lt.mp room) (Nat.not_lt.mp fits)
    have some_ : strings + taken d.sv ≥ statfixlen := Nat.add_le_add_left (le_taken d.sv) 41
    rcases faithful.decodes with zero | count | decodes
    · exact absurd (zero ▸ value ▸ some_) (by decide)
    · exact absurd (count ▸ value ▸ some_) (by decide)
    · obtain ⟨buf, holds⟩ := exists_holds (convD2M d nbuf).2
      obtain ⟨accepted, back⟩ := decodes buf holds
      have less := statcheck_lt accepted
      have lengths := length_decoded (back d) (value ▸ some_)
      have small : ∀ s ∈ d.sv, (s.getD []).length < 2 ^ 31 := fun s member => by
        have there : some (s.getD []) ∈ d.named.sv := by
          have same : d.named.sv = d.sv.map fun s => some (s.getD []) := rfl
          rw [same]
          exact List.mem_map_of_mem member
        have bound := lengths _ there
        exact lt_of_le_of_lt bound (less.trans (by decide))
      rw [value, taken_total small] at less
      exact large less
  · intro cases
    by_cases room : nbuf < bit16sz
    · exact ⟨fun enough => absurd room (Nat.not_lt.mpr enough), Or.inl (by rw [convD2M, if_pos room])⟩
    by_cases fits : nbuf < sizeD2M d
    · refine ⟨fun _ enough => absurd fits (Nat.not_lt.mpr enough), Or.inr (Or.inl ?_)⟩
      unfold convD2M
      dsimp only
      rw [if_neg room]
      exact congrArg Prod.fst (if_pos fits)
    rcases cases with tiny | short | refused | small
    · exact absurd tiny room
    · exact absurd short fits
    · exact ⟨fun _ _ => refused.sized, Or.inl (convD2M_refused refused (Nat.not_lt.mp room) (Nat.not_lt.mp fits))⟩
    · have short := length_string_lt small
      rw [sizeD2M_eq small] at fits
      have whole := taken_total fun s member => (short s member).trans (by decide)
      refine ⟨fun _ _ => sized_of_fits short (by omega), Or.inr (Or.inr fun buf holds => ?_)⟩
      rw [convD2M_eq small (Nat.not_lt.mp fits)] at holds ⊢
      exact ⟨statcheck_of_holds small holds, cut_of_plain plain ▸ convM2D_of_holds small holds⟩

theorem not_refused (small : ∀ s ∈ sv, (s.getD []).length < 2 ^ 31) (fits : p + taken sv ≤ nbuf)
    (less : p + taken sv < 2 ^ 31) : ¬Refused nbuf sv p := by
  induction sv generalizing p with
  | nil => exact Nat.not_le.mpr less
  | cons s sv ih =>
    have value := nsv_of_lt (small s List.mem_cons_self)
    rw [taken_cons] at fits less
    rintro (beyond | ⟨-, rest⟩)
    · simp only [bit16sz] at fits beyond
      omega
    · exact ih (fun s member => small s (List.mem_cons_of_mem _ member)) (by omega) (by omega) rest

theorem sizeD2M_total (small : ∀ s ∈ d.sv, (s.getD []).length < 2 ^ 31) (less : statfixlen + d.total < 2 ^ 31) :
    sizeD2M d = statfixlen + d.total := by
  have whole := taken_total small
  have nonneg : ∀ s ∈ d.sv, 0 ≤ nsv s := fun s member => by
    rw [nsv_of_lt (small s member)]
    exact Int.natCast_nonneg _
  have ss := sizeD2M_taken nonneg (by omega)
  unfold sizeD2M
  dsimp only
  rw [ss, u32_nat (by omega), whole]

/-- A `Dir` with an owner's name. -/
def owned (s : List UInt8) : Dir := { sampleDir with name := some [], uid := some s, gid := some [], muid := some [] }

end Inferno.Lib9
