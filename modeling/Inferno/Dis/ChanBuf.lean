import Inferno.Dis.Channel
import Inferno.Lib.Ring

namespace Inferno.Dis

open Inferno.Lib

namespace Channel

variable {V : Type} {c : Channel V}

/-- The number of slots, nil for an unbuffered channel. -/
def capacity (c : Channel V) : Option Nat := c.buf.map List.length

/-- The buffered values, oldest first. -/
def contents (c : Channel V) : List V :=
  match c.buf with
  | none => []
  | some a => ringContents a c.front c.size

/-- `front` and `size` stay inside the buffer. -/
structure Ok (c : Channel V) : Prop where
  bounds : ∀ a, c.buf = some a → c.front < a.length ∧ c.size ≤ a.length
  unbuffered : c.buf = none → c.size = 0

/-- No slot is free. -/
def Full (c : Channel V) : Prop := ∀ n, c.capacity = some n → c.size = n

theorem ok_cnewc (len : Int) (fill : V) (init : Option V) : (cnewc len fill init).Ok := by
  refine ⟨fun a buffered => ?_, fun _ => rfl⟩
  simp only [cnewc] at buffered
  split_ifs at buffered with positive
  cases buffered
  simp only [cnewc, List.length_replicate]
  omega

theorem contents_of_size_zero (empty : c.size = 0) : c.contents = [] := by
  rw [contents, empty]
  cases c.buf <;> rfl

@[simp] theorem capacity_setQueue (c : Channel V) (d : Dir) (q : Progq) :
    (c.setQueue d q).capacity = c.capacity := by
  rw [capacity, setQueue_buf, capacity]

@[simp] theorem contents_setQueue (c : Channel V) (d : Dir) (q : Progq) :
    (c.setQueue d q).contents = c.contents := by
  rw [contents, setQueue_buf, setQueue_front, setQueue_size, contents]

theorem Ok.setQueue (ok : c.Ok) (d : Dir) (q : Progq) : (c.setQueue d q).Ok :=
  ⟨by simpa using ok.bounds, by simpa using ok.unbuffered⟩

/-- What `cputb` does: nothing when no slot is free, else it appends the value. -/
theorem Ok.cputb (ok : c.Ok) (v : V) :
    c.cputb v = none ∧ c.Full ∨ ∃ c', c.cputb v = some c' ∧ c'.Ok ∧ ¬ c.Full ∧
      c'.contents = c.contents ++ [v] ∧ c'.size = c.size + 1 ∧ c'.capacity = c.capacity ∧
      c'.send = c.send ∧ c'.recv = c.recv := by
  cases buffered : c.buf with
  | none =>
    refine Or.inl ⟨by simp [Channel.cputb, buffered], fun n slots => ?_⟩
    simp [capacity, buffered] at slots
  | some a =>
    obtain ⟨inside, fits⟩ := ok.bounds a buffered
    have slots : c.capacity = some a.length := by rw [capacity, buffered, Option.map_some]
    by_cases room : c.size < a.length
    · refine Or.inr ⟨{ c with buf := some (a.set (ringIndex a.length c.front c.size) v), size := c.size + 1 },
        by simp [Channel.cputb, buffered, room, ringIndex], ⟨fun b same => ?_, fun none => (nomatch none)⟩,
        fun full => ?_, ?_, rfl, ?_, rfl, rfl⟩
      · cases same
        simp only [List.length_set]
        omega
      · have := full a.length slots
        omega
      · rw [contents, contents, buffered]
        exact ringContents_put v inside room
      · rw [slots, capacity, Option.map_some, List.length_set]
    · refine Or.inl ⟨by simp [Channel.cputb, buffered, room], fun n same => ?_⟩
      cases slots.symm.trans same
      omega

theorem length_vacate (c : Channel V) (a : List V) : (c.vacate a).length = a.length := by
  unfold vacate
  split <;> simp only [List.length_set]

theorem vacate_ne (c : Channel V) (a : List V) : ∀ i, i ≠ c.front → (c.vacate a)[i]? = a[i]? := by
  intro i other
  unfold vacate
  split
  · rfl
  · exact List.getElem?_set_ne other.symm

/-- What `cgetb` does: nothing when the buffer is empty, else it takes the oldest value. -/
theorem Ok.cgetb (ok : c.Ok) :
    c.cgetb = none ∧ c.size = 0 ∨ ∃ v c', c.cgetb = some (v, c') ∧ c'.Ok ∧ c.contents = v :: c'.contents ∧
      c.size = c'.size + 1 ∧ c'.capacity = c.capacity ∧ c'.send = c.send ∧ c'.recv = c.recv := by
  cases buffered : c.buf with
  | none => exact Or.inl ⟨by simp [Channel.cgetb, buffered], ok.unbuffered buffered⟩
  | some a =>
    obtain ⟨inside, fits⟩ := ok.bounds a buffered
    by_cases empty : c.size = 0
    · exact Or.inl ⟨by simp [Channel.cgetb, buffered, empty], empty⟩
    · have oldest : a[c.front]? = some a[c.front] := List.getElem?_eq_getElem inside
      have length := length_vacate c a
      have taken : ringContents a c.front (c.size - 1 + 1) = _ :=
        ringContents_get inside (by omega) oldest length (vacate_ne c a)
      rw [Nat.sub_add_cancel (by omega)] at taken
      refine Or.inr ⟨a[c.front], { c with
        buf := some (c.vacate a), front := if c.front + 1 = a.length then 0 else c.front + 1, size := c.size - 1 },
        ?_, ⟨fun b same => ?_, fun none => (nomatch none)⟩, ?_, ?_, ?_, rfl, rfl⟩
      · have positive : 0 < c.size := by omega
        simp [Channel.cgetb, buffered, positive, oldest]
      · cases same
        rw [length]
        dsimp only
        split <;> omega
      · rw [contents, contents, buffered]
        exact taken
      · dsimp only
        omega
      · rw [capacity, capacity, buffered, Option.map_some, Option.map_some, length]

end Channel

end Inferno.Dis
